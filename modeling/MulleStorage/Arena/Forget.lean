import MulleStorage.Arena.Ideal
import MulleStorage.Arena.OnTape

/-!
# What a reset forgets

A reset hands out pages again that held the data of earlier clients. It clears
them, but not all of them: of a page that was made for an oversized request only
the first `_page_size` bytes. Those are also all that is ever handed out of it
again, and the other pages go back to the default allocator, which clears what it
hands out. So nothing of the old data is ever seen:

> `reset_forgets`: whatever the pages of the arena held before a reset, every
> run from there on returns the same pointers, and all blocks hold the same bytes.

The proof runs the arena twice, with two memories. `Blind` says of a function that
it cannot tell them apart, `Same` where they have to agree for that: in the bytes
that may still be handed out. What a call reads (`Op.reads`) has to be the same in
both (`ReadsOwn`). What a client has copied is up to the client (`SourceOk`); what
`reallocarray` reads on its own account is part of its block as long as the header
can be believed, and after a reset that is so for as long as no block is put over a
header (`Kempt`).
-/

namespace MulleStorage.Arena

open MulleStorage.Lib

variable {t : Target} {sys : Nat → Option Nat}

/-! ## What a call reads -/

/-- The ranges of memory a call reads. -/
def Op.reads (t : Target) (m : Mem) : Op → List Region
  | .memdup src size => [⟨src, size⟩]
  | .strdup str => ((strlen m str t.modulus).map fun len => ⟨str, len + 1⟩).toList
  | .realloc block oldSize newSize _ =>
    if block = 0 then [] else [⟨block, if oldSize < newSize then oldSize else newSize⟩]
  | .reallocarrayV block n size =>
    if block = 0 then []
    else
      let raw := t.sub block t.sizeofSizeT
      let oldSize := loadWord m raw t.sizeofSizeT
      [⟨raw, t.sizeofSizeT⟩, ⟨block, if oldSize < n * size then oldSize else n * size⟩]
  | _ => []

/-- What the call reads is part of a live block, its header included, or of
memory that was not the arena's in `σ₀`. -/
def ReadsOwn (t : Target) (σ₀ σ : Sys) (op : Op) : Prop :=
  ∀ r ∈ op.reads t σ.world.mem,
    (∃ b ∈ σ.live, b.start t ≤ r.base ∧ r.base + r.size ≤ b.stop) ∨
    ∀ q ∈ held σ₀.world.log, r.Disjoint q

/-- The range of memory that a client has copied. -/
def Op.sources (t : Target) (m : Mem) : Op → List Region
  | .memdup src size => [⟨src, size⟩]
  | .strdup str => ((strlen m str t.modulus).map fun len => ⟨str, len + 1⟩).toList
  | _ => []

/-- What the client has copied is part of one of its blocks, or of memory that was
not the arena's in `σ₀`. -/
def SourceOk (t : Target) (σ₀ σ : Sys) (op : Op) : Prop :=
  ∀ r ∈ op.sources t σ.world.mem,
    (∃ b ∈ σ.live, b.start t ≤ r.base ∧ r.base + r.size ≤ b.stop) ∨
    ∀ q ∈ held σ₀.world.log, r.Disjoint q

instance (σ₀ σ : Sys) (op : Op) : Decidable (SourceOk t σ₀ σ op) :=
  inferInstanceAs (Decidable (∀ r ∈ op.sources t σ.world.mem, _ ∨ _))

/-- The rest of what the call reads is in its block, header included. -/
theorem SourceOk.readsOwn {σ₀ σ : Sys} {c : Call} (h : SourceOk t σ₀ σ c.op) (hinv : Inv t σ)
    (hkempt : Kempt t σ) (hlegal : Legal t σ c) : ReadsOwn t σ₀ σ c.op := by
  obtain ⟨op, sys⟩ := c
  cases op with
  | memdup | strdup => exact h
  | realloc block oldSize newSize alignment =>
    intro r hr
    simp only [Op.reads] at hr
    split at hr
    next => exact absurd hr List.not_mem_nil
    next hz =>
      obtain ⟨b, hb, his, hold⟩ := hlegal.proper.1.resolve_left hz
      cases List.mem_singleton.mp hr
      have hstart : b.start t ≤ b.ptr := Nat.sub_le _ _
      have hptr : b.ptr = block := his.2
      refine Or.inl ⟨b, hb, by dsimp only; omega, ?_⟩
      unfold Block.stop
      dsimp only
      split <;> omega
  | reallocarrayV block n size =>
    intro r hr
    simp only [Op.reads] at hr
    split at hr
    next => exact absurd hr List.not_mem_nil
    next hz =>
      obtain ⟨b, hb, his⟩ := hlegal.proper.1.resolve_left hz
      obtain ⟨hptr, hraw⟩ := hinv.raw_eq hb his
      have hbptr : b.ptr = block := his.2
      have hpos := (hinv.placed b hb).size_pos
      rw [hraw, hkempt.words b hb his.1] at hr
      refine Or.inl ⟨b, hb, ?_⟩
      unfold Block.stop
      rcases List.mem_cons.mp hr with rfl | hcopy
      · -- the header
        dsimp only
        omega
      · cases List.mem_singleton.mp hcopy
        dsimp only
        split <;> omega
  | _ => exact fun r hr => absurd hr List.not_mem_nil

/-- A string that is the same in both memories. -/
theorem strlen_congr {m m' : Mem} {p fuel len : Nat} (h : strlen m p fuel = some len)
    (hm : ∀ i, i ≤ len → m' (p + i) = m (p + i)) : strlen m' p fuel = some len := by
  induction fuel generalizing p len with
  | zero => cases h
  | succ fuel ih =>
    have hhead : m' p = m p := hm 0 (Nat.zero_le _)
    unfold strlen at h ⊢
    rw [hhead]
    split at h
    next hz =>
      rw [if_pos hz]
      exact h
    next hz =>
      rw [if_neg hz]
      obtain ⟨rest, hrest, rfl⟩ := Option.map_eq_some_iff.mp h
      have htail : strlen m' (p + 1) fuel = some rest := by
        refine ih hrest fun i hi => ?_
        have := hm (i + 1) (Nat.succ_le_succ hi)
        rwa [show p + (i + 1) = p + 1 + i by omega] at this
      rw [htail]
      rfl

/-! ## Two memories -/

/-- `m` agrees with memory in what the arena may still hand out: the rest of the
current page, all of it, since a `free` may step back, and `_page_size` bytes of
any page. -/
structure Same (s : World) (m : Mem) : Prop where
  kept : ∀ p ∈ s.pages, ∀ a, p ≤ a → a < p + s.pageSize → m a = s.mem a
  page : ∀ p, s.pages[s.pageIndex]? = some p → ∀ a, p ≤ a → a < s.sentinel → m a = s.mem a

/-- The memories `m` and `m'` in the place of those of `s` and, later, of `s'`:
where they agreed, they still do. -/
structure Follows (s : World) (m : Mem) (s' : World) (m' : Mem) : Prop where
  same : Same s' m'
  keeps : ∀ a, m a = s.mem a → m' a = s'.mem a

/-- The allocation `f` cannot tell `m` from the memory of `s`. The block it
returns ends in front of `_sentinel`. -/
def Blind (f : World → Option (Nat × World)) (size : Nat) (s : World) (m : Mem) : Prop :=
  ∀ p s', f s = some (p, s') → p + size ≤ s'.sentinel ∧
    ∃ m', f { s with mem := m } = some (p, { s' with mem := m' }) ∧ Follows s m s' m'

/-- The same store into both. -/
theorem Follows.blit {s s' : World} {m m' : Mem} (h : Follows s m s' m') {p n : Nat}
    {f g : Nat → UInt8} (hg : ∀ i, i < n → g i = f i) (log : List Event) :
    Follows s m { s' with mem := blit s'.mem p n f, log := log } (blit m' p n g) where
  same :=
    ⟨fun q hq a hle hlt => blit_congr hg fun _ => h.same.kept q hq a hle hlt,
      fun q hq a hle hlt => blit_congr hg fun _ => h.same.page q hq a hle hlt⟩
  keeps a ha := blit_congr hg fun _ => h.keeps a ha

/-- The cursor is no matter of memory. -/
theorem Follows.setCursor {s s' : World} {m m' : Mem} (h : Follows s m s' m') (c last : Nat) :
    Follows s m { s' with current := c, last := last } m' :=
  ⟨⟨h.same.kept, h.same.page⟩, h.keeps⟩

theorem Same.follows {s : World} {m : Mem} (h : Same s m) : Follows s m s m := ⟨h, fun _ ha => ha⟩

/-! ## Pages -/

/-- `_mulle_arena_new_page`: a kept page has been cleared, a fresh one is. -/
theorem newPage_blind {need p : Nat} {s s' : World} {m : Mem} (hinv : PageInv t s)
    (hsys : SysOk t s sys) (hsame : Same s m) (h : newPage t sys need s = some (p, s')) :
    ∃ m', newPage t sys need { s with mem := m } = some (p, { s' with mem := m' }) ∧
      Follows s m s' m' := by
  rcases newPage_cases hinv hsys h with ⟨hneed, hget, rfl⟩ | ⟨n, hn, hp, hnone, rfl⟩
  · have hlt := (List.getElem?_eq_some_iff.mp hget).1
    have hend := (hinv.page_lt hget).2
    have hmem := List.mem_of_getElem? hget
    refine ⟨m, ?_, ⟨⟨hsame.kept, ?_⟩, fun _ ha => ha⟩⟩
    · unfold newPage
      dsimp only
      rw [if_pos ⟨hneed, hlt⟩, List.getD_eq_getElem?_getD, hget, Option.getD_some,
        Target.add_eq hend]
    · intro q hq
      cases hget.symm.trans hq
      exact hsame.kept p hmem
  · have hend := (hsys n p hp).2.1
    have hsize : s.pageSize ≤ n := by
      rw [hn]
      split <;> omega
    have hin : ∀ a, p ≤ a → a < p + n → blit m p n (fun _ => 0) a = blit s.mem p n (fun _ => 0) a :=
      fun a hle hlt => blit_congr (fun _ _ => rfl) fun hnot => absurd ⟨hle, hlt⟩ hnot
    refine ⟨blit m p n fun _ => 0, ?_, ⟨⟨?_, ?_⟩, ?_⟩⟩
    · unfold newPage
      dsimp only
      rw [if_neg hnone, ← hn, hp]
      dsimp only
      rw [Target.add_eq hend]
    · intro q hq a hle hlt
      dsimp only at hq hlt ⊢
      rcases List.mem_append.mp hq with hold | hnew
      · exact blit_congr (fun _ _ => rfl) fun _ => hsame.kept q hold a hle hlt
      · cases List.mem_singleton.mp hnew
        exact hin a hle (by omega)
    · intro q hq
      dsimp only at hq
      rw [List.getElem?_append_right (Nat.le_refl _), Nat.sub_self] at hq
      cases hq
      exact hin
    · exact fun a ha => blit_congr (fun _ _ => rfl) fun _ => ha

/-- A reset clears what it keeps, whatever that was. -/
theorem resetKeepPages_blind {s : World} (hinv : PageInv t s) (keepCount : Nat) (m : Mem) :
    ∃ m', resetKeepPages t keepCount { s with mem := m } =
        { resetKeepPages t keepCount s with mem := m' } ∧
      Follows s m (resetKeepPages t keepCount s) m' := by
  rw [resetKeepPages_eq, resetKeepPages_eq]
  dsimp only
  by_cases hnil : s.pages = []
  · rw [if_pos hnil, if_pos hnil]
    refine ⟨m, rfl, ⟨⟨?_, ?_⟩, fun _ ha => ha⟩⟩
    · intro p hp
      rw [hnil] at hp
      exact absurd hp List.not_mem_nil
    · intro p hp
      rw [hnil] at hp
      cases hp
  · rw [if_neg hnil, if_neg hnil]
    refine ⟨_, rfl, ⟨⟨?_, ?_⟩, fun a ha => foldl_blit_congr (Or.inr ha)⟩⟩
    · intro p hp a hle hlt
      exact foldl_blit_congr (Or.inl ⟨p, hp, hle, hlt⟩)
    · intro p hp a hle hlt
      dsimp only at hp hlt
      have hmem := List.mem_of_getElem? hp
      have hk : keepCount ≠ 0 := by
        intro hzero
        subst hzero
        exact absurd hmem List.not_mem_nil
      obtain ⟨q, hq, hget, hend⟩ := first_kept hinv hnil hk
      cases hq.symm.trans hp
      rw [if_neg hk, hget, hend] at hlt
      exact foldl_blit_congr (Or.inl ⟨p, hmem, hle, hlt⟩)

/-! ## Allocations -/

section

variable {s : World} {m : Mem}

/-- `_mulle_arena_alloc`. -/
theorem alloc_blind {size alignment : Nat} (hinv : PageInv t s) (hsys : SysOk t s sys)
    (hal : t.IsAlignment alignment) (hnw : AllocNoWrap t s size alignment) (hsame : Same s m) :
    Blind (alloc t sys size alignment) size s m := by
  intro p s' h
  unfold AllocNoWrap at hnw
  have hpos := hal.pos
  by_cases hfit : FitsPage t s size alignment
  · rw [if_pos hfit] at hnw
    rw [alloc_here sys hfit] at h
    cases h
    refine ⟨?_, m, alloc_here (s := { s with mem := m }) sys hfit, hsame.follows.setCursor _ _⟩
    unfold FitsPage at hfit
    rwa [Target.add_eq hnw.2] at hfit
  · rw [if_neg hfit] at hnw
    rw [alloc_elsewhere sys hfit] at h
    obtain ⟨⟨page, s₁⟩, hpage, hplaced⟩ := Option.map_eq_some_iff.mp h
    cases hplaced
    obtain ⟨m', hpage', hfollows⟩ := newPage_blind hinv hsys hsame hpage
    refine ⟨?_, m', ?_, hfollows.setCursor _ _⟩
    · rw [sub_add_one hpos hnw] at hpage
      have hopen := newPage_opened hinv hsys hpage
      have hroom := hopen.room
      have hlt := hopen.inv.sentinel_lt
      have hpad := alignUp_lt hpos s₁.current
      show alignPointer t s₁.current alignment + size ≤ s₁.sentinel
      rw [alignPointer_eq hal (by omega)]
      omega
    · rw [alloc_elsewhere (s := { s with mem := m }) sys hfit, hpage']
      rfl

/-- The header that goes in front of a vtable block is the same, too. -/
theorem placeHeader_follows {s₀ : World} {m₀ : Mem} (size : Nat) (h : Follows s₀ m₀ s m) :
    ∃ m', placeHeader t size { s with mem := m } =
        ((placeHeader t size s).1, { (placeHeader t size s).2 with mem := m' }) ∧
      Follows s₀ m₀ (placeHeader t size s).2 m' :=
  ⟨_, rfl, (h.blit (fun _ _ => rfl) _).setCursor _ _⟩

/-- `_mulle_arena_alloc_with_size_header`. -/
theorem allocWithSizeHeader_blind {size : Nat} (hinv : PageInv t s) (hsys : SysOk t s sys)
    (hnw : HeaderNoWrap t s size) (hsame : Same s m) :
    Blind (allocWithSizeHeader t sys size) size s m := by
  intro p s' h
  have hW := t.sizeofSizeT_le
  unfold HeaderNoWrap at hnw
  by_cases hfit : FitsPageV t s size
  · rw [if_pos hfit] at hnw
    rw [allocWithSizeHeader_here sys hfit] at h
    obtain ⟨m', hplace, hfollows⟩ := placeHeader_follows (t := t) size hsame.follows
    refine ⟨?_, m', ?_, ?_⟩
    · cases h
      have hroom := hfit.1
      show t.add s.current t.sizeofSizeT + size ≤ s.sentinel
      rw [Target.add_eq (b := t.sizeofSizeT) (by omega)] at hroom ⊢
      rwa [Target.add_eq hnw] at hroom
    · rw [allocWithSizeHeader_here (s := { s with mem := m }) sys hfit, hplace]
      cases h
      rfl
    · cases h
      exact hfollows
  · rw [if_neg hfit] at hnw
    rw [allocWithSizeHeader_elsewhere sys hfit] at h
    obtain ⟨⟨page, s₁⟩, hpage, hplaced⟩ := Option.map_eq_some_iff.mp h
    obtain ⟨m₁, hpage', hfollows₁⟩ := newPage_blind hinv hsys hsame hpage
    obtain ⟨m', hplace, hfollows⟩ := placeHeader_follows (t := t) size
      (hfollows₁.setCursor (t.add s₁.current (t.defaultAlignment - t.sizeofSizeT)) s₁.last)
    refine ⟨?_, m', ?_, ?_⟩
    · cases hplaced
      rw [Target.add_eq (a := t.sizeofSizeT) (by omega), Target.add_eq hnw] at hpage
      have hopen := newPage_opened hinv hsys hpage
      have hroom := hopen.room
      have hlt := hopen.inv.sentinel_lt
      show t.add (t.add s₁.current (t.defaultAlignment - t.sizeofSizeT)) t.sizeofSizeT + size
        ≤ s₁.sentinel
      rw [Target.add_eq (a := s₁.current) (by omega), Target.add_eq (by omega)]
      omega
    · rw [allocWithSizeHeader_elsewhere (s := { s with mem := m }) sys hfit, hpage']
      cases hplaced
      exact congrArg some hplace
    · cases hplaced
      exact hfollows

/-! ## Calls -/

/-- What the call reads is the same in both memories. -/
def ReadsSame (t : Target) (s : World) (m : Mem) (op : Op) : Prop :=
  ∀ r ∈ op.reads t s.mem, ∀ a, r.Has a → m a = s.mem a

/-- The header of a block, when it is read. -/
theorem ReadsSame.header {block n size : Nat} (h : ReadsSame t s m (.reallocarrayV block n size))
    (hblock : block ≠ 0) : loadWord m (t.sub block t.sizeofSizeT) t.sizeofSizeT
      = loadWord s.mem (t.sub block t.sizeofSizeT) t.sizeofSizeT := by
  refine loadWord_congr fun i hi => h ⟨t.sub block t.sizeofSizeT, t.sizeofSizeT⟩ ?_ _ ?_
  · simp [Op.reads, hblock]
  · exact ⟨Nat.le_add_right _ _, Nat.add_lt_add_left hi _⟩

/-- A copy of what is the same in both. -/
theorem Follows.copy {s₀ : World} {m₀ : Mem} (h : Follows s₀ m₀ s m) {src n : Nat}
    (hsrc : ∀ a, Region.Has ⟨src, n⟩ a → m₀ a = s₀.mem a) {i : Nat} (hi : i < n) :
    m (src + i) = s.mem (src + i) :=
  h.keeps _ (hsrc _ ⟨Nat.le_add_right _ _, Nat.add_lt_add_left hi _⟩)

/-- So is what a call does to the payload of its block. -/
theorem Op.fill_follows {op : Op} {s₀ : World} {m₀ : Mem} (hreads : ReadsSame t s₀ m₀ op)
    (hstr : ∀ str, op ≠ .strdup str) (p : Nat) (h : Follows s₀ m₀ s m) :
    ∃ m', op.fill t m₀ p { s with mem := m } = { op.fill t s₀.mem p s with mem := m' } ∧
      Follows s₀ m₀ (op.fill t s₀.mem p s) m' := by
  cases op with
  | calloc => exact ⟨_, rfl, h.blit (fun _ _ => rfl) _⟩
  | callocV => exact ⟨_, rfl, h.blit (fun _ _ => rfl) _⟩
  | memdup src size =>
    have hsrc := hreads ⟨src, size⟩ (List.mem_singleton_self _)
    exact ⟨_, rfl, h.blit (fun i hi => h.copy hsrc hi) _⟩
  | strdup str => exact absurd rfl (hstr str)
  | realloc block oldSize newSize alignment =>
    simp only [Op.fill]
    by_cases hz : block = 0
    · rw [if_pos hz, if_pos hz]
      exact ⟨m, rfl, h⟩
    · rw [if_neg hz, if_neg hz]
      have hsrc := hreads ⟨block, if oldSize < newSize then oldSize else newSize⟩ (by simp [Op.reads, hz])
      exact ⟨_, rfl, h.blit (fun i hi => h.copy hsrc hi) _⟩
  | reallocarrayV block n size =>
    simp only [Op.fill]
    by_cases hz : block = 0
    · rw [if_pos hz, if_pos hz]
      exact ⟨m, rfl, h⟩
    · rw [if_neg hz, if_neg hz, hreads.header hz]
      generalize hold : loadWord s₀.mem (t.sub block t.sizeofSizeT) t.sizeofSizeT = oldSize
      have hsrc := hreads ⟨block, if oldSize < n * size then oldSize else n * size⟩
        (by simp [Op.reads, hz, hold])
      exact ⟨_, rfl, h.blit (fun i hi => h.copy hsrc hi) _⟩
  | _ => exact ⟨m, rfl, h⟩

/-- An allocation, and what its call does to the payload. -/
theorem Blind.fill {f : World → Option (Nat × World)} {size : Nat} (h : Blind f size s m) (op : Op)
    (hreads : ReadsSame t s m op) (hstr : ∀ str, op ≠ .strdup str) :
    Blind (fun s => (f s).map fun r => (r.1, op.fill t s.mem r.1 r.2)) size s m := by
  intro p s' hs
  obtain ⟨⟨q, s₁⟩, hf, heq⟩ := Option.map_eq_some_iff.mp hs
  cases heq
  obtain ⟨hroom, m₁, hf', hfollows₁⟩ := h q s₁ hf
  obtain ⟨m', hfill, hfollows⟩ := Op.fill_follows hreads hstr q hfollows₁
  refine ⟨?_, m', ?_, hfollows⟩
  · rw [Op.fill_arena]
    exact hroom
  · dsimp only
    rw [hf', Option.map_some, hfill]

/-- A function that is another one, in this state. -/
theorem Blind.congr {f g : World → Option (Nat × World)} {size : Nat} (h : Blind g size s m)
    (hs : f s = g s) (hm : f { s with mem := m } = g { s with mem := m }) : Blind f size s m := by
  intro p s' hf
  rw [hs] at hf
  obtain ⟨hroom, m', hg, hfollows⟩ := h p s' hf
  exact ⟨hroom, m', hm.trans hg, hfollows⟩

/-- `_mulle_arena_memdup`. -/
theorem memdup_blind {src size : Nat} (hinv : PageInv t s) (hsys : SysOk t s sys)
    (hnw : AllocNoWrap t s size 1) (hsame : Same s m) (hreads : ReadsSame t s m (.memdup src size)) :
    Blind (memdup t sys src size) size s m :=
  ((alloc_blind hinv hsys t.isAlignment_one hnw hsame).fill _ hreads fun _ => Op.noConfusion).congr
    (memdup_eq src size s) (memdup_eq src size _)

/-- `_mulle_arena_strdup`. -/
theorem strdup_blind {str len : Nat} (hinv : PageInv t s) (hsys : SysOk t s sys)
    (hlen : strlen s.mem str t.modulus = some len) (hlt : len + 1 < t.modulus)
    (hnw : AllocNoWrap t s (len + 1) 1) (hsame : Same s m)
    (hreads : ReadsSame t s m (.strdup str)) : Blind (strdup t sys str) (len + 1) s m := by
  have hsrc : ∀ a, Region.Has ⟨str, len + 1⟩ a → m a = s.mem a := by
    refine hreads ⟨str, len + 1⟩ ?_
    simp [Op.reads, hlen]
  have hlen' : strlen m str t.modulus = some len :=
    strlen_congr hlen fun i hi => hsrc _ ⟨Nat.le_add_right _ _, by dsimp only; omega⟩
  have hdup : Blind (memdup t sys str (len + 1)) (len + 1) s m := by
    refine memdup_blind hinv hsys hnw hsame fun r hr a ha => ?_
    cases List.mem_singleton.mp hr
    exact hsrc a ha
  refine hdup.congr ?_ ?_
  · unfold strdup
    rw [hlen]
    dsimp only
    rw [Target.add_eq hlt]
  · unfold strdup
    rw [hlen']
    dsimp only
    rw [Target.add_eq hlt]

/-- `_mulle_arena_realloc`. -/
theorem realloc_blind {block oldSize newSize alignment : Nat} (hinv : PageInv t s)
    (hsys : SysOk t s sys) (hal : t.IsAlignment alignment)
    (hnw : NoWrap t s (.realloc block oldSize newSize alignment)) (hsame : Same s m)
    (hreads : ReadsSame t s m (.realloc block oldSize newSize alignment)) :
    Blind (realloc t sys block oldSize newSize alignment) newSize s m := by
  unfold NoWrap at hnw
  dsimp only at hnw
  by_cases hplace : InPlace t s (.realloc block oldSize newSize alignment)
  · rw [if_pos hplace] at hnw
    obtain ⟨hlast, hroom⟩ := hplace.2
    intro p s' h
    rw [realloc_inPlace hplace] at h
    cases h
    refine ⟨?_, m, realloc_inPlace (s := { s with mem := m }) hplace, hsame.follows.setCursor _ _⟩
    rw [Target.add_eq hnw, ← hlast] at hroom
    exact hroom
  · rw [if_neg hplace] at hnw
    exact ((alloc_blind hinv hsys hal hnw hsame).fill _ hreads fun _ => Op.noConfusion).congr
      (realloc_moved hplace) (realloc_moved (s := { s with mem := m }) hplace)

/-- Reading a header is no matter of memory, either. -/
theorem Op.probe_blind {op : Op} {f : World → Option (Nat × World)} {size : Nat}
    (h : Blind f size (op.probe t s) m) : Blind (fun s => f (op.probe t s)) size s m := by
  cases op with
  | reallocarrayV block n total =>
    by_cases hz : block = 0
    · simp only [Op.probe, if_pos hz] at h ⊢
      exact h
    · simp only [Op.probe, if_neg hz] at h ⊢
      intro p s' hf
      obtain ⟨hroom, m', hf', hfollows⟩ := h p s' hf
      exact ⟨hroom, m', hf', hfollows.same, hfollows.keeps⟩
  | _ => exact h

/-- `_mulle_arena_reallocarray_v`. -/
theorem reallocarrayV_blind {block n size : Nat} (hinv : PageInv t s) (hsys : SysOk t s sys)
    (hpos : 0 < n * size) (hlt : n * size < t.modulus)
    (hnw : NoWrap t s (.reallocarrayV block n size)) (hsame : Same s m)
    (hreads : ReadsSame t s m (.reallocarrayV block n size)) :
    Blind (reallocarrayV t sys block n size) (n * size) s m := by
  replace hnw := hnw hlt
  by_cases hplace : InPlace t s (.reallocarrayV block n size)
  · rw [if_pos hplace] at hnw
    have hroom := hplace.2.2
    intro p s' h
    rw [reallocarrayV_inPlace hpos hlt hplace] at h
    cases h
    refine ⟨?_, _, reallocarrayV_inPlace (s := { s with mem := m }) hpos hlt hplace, ?_⟩
    · rw [Target.add_eq hnw] at hroom
      exact hroom
    · exact (hsame.follows.blit (fun _ _ => rfl) _).setCursor _ _
  · rw [if_neg hplace] at hnw
    have hsys' : SysOk t ((Op.reallocarrayV block n size).probe t s) sys := by
      unfold SysOk
      rw [Op.held_probe]
      exact hsys
    have hsame' : Same ((Op.reallocarrayV block n size).probe t s) m := by
      unfold Op.probe
      dsimp only
      split
      · exact hsame
      · exact ⟨hsame.kept, hsame.page⟩
    have halloc := allocWithSizeHeader_blind (Op.probe_inv (.reallocarrayV block n size) hinv) hsys'
      ((Op.headerNoWrap_probe (.reallocarrayV block n size) (n * size) s).mpr hnw) hsame'
    exact ((Op.probe_blind halloc).fill _ hreads fun _ => Op.noConfusion).congr
      (reallocarrayV_moved hpos hlt hplace)
      (reallocarrayV_moved (s := { s with mem := m }) hpos hlt hplace)

/-- `_mulle_arena_calloc_v`. -/
theorem callocV_blind {n size : Nat} (hinv : PageInv t s) (hsys : SysOk t s sys)
    (hpos : 0 < n * size) (hlt : n * size < t.modulus) (hnw : HeaderNoWrap t s (n * size))
    (hsame : Same s m) : Blind (callocV t sys n size) (n * size) s m :=
  ((allocWithSizeHeader_blind hinv hsys hnw hsame).fill (.callocV n size)
    (fun _ hr => absurd hr List.not_mem_nil) fun _ => Op.noConfusion).congr
      (callocV_eq hpos hlt) (callocV_eq hpos hlt)

/-- `_mulle_arena_free_v` fills the newest block, or nothing. -/
theorem freeV_blind (block : Nat) (hsame : Same s m) :
    ∃ m', freeV t block { s with mem := m } = { freeV t block s with mem := m' } ∧
      Follows s m (freeV t block s) m' := by
  unfold freeV
  dsimp only
  by_cases hz : block = 0
  · rw [if_pos hz, if_pos hz]
    exact ⟨m, rfl, hsame.follows⟩
  · rw [if_neg hz, if_neg hz]
    by_cases hlast : t.sub block t.sizeofSizeT = s.last
    · rw [if_pos hlast, if_pos hlast]
      by_cases hdebug : t.debug = true
      · rw [if_pos hdebug, if_pos hdebug]
        exact ⟨_, rfl, (hsame.follows.blit (fun _ _ => rfl) _).setCursor _ _⟩
      · rw [if_neg hdebug, if_neg hdebug]
        exact ⟨m, rfl, hsame.follows.setCursor _ _⟩
    · rw [if_neg hlast, if_neg hlast]
      exact ⟨m, rfl, hsame.follows⟩

end

/-- A reset, whatever there was. -/
theorem exec_reset_blind {op : Op} {s s' : World} {r : Option Nat} (hinv : PageInv t s)
    (hop : op.IsReset) (m : Mem) (h : exec t sys op s = some (r, s')) :
    ∃ m', exec t sys op { s with mem := m } = some (r, { s' with mem := m' }) ∧
      Follows s m s' m' := by
  obtain ⟨keepCount, hkeep⟩ := exec_reset (t := t) hop sys s
  cases (hkeep s.mem).symm.trans h
  obtain ⟨m', hm', hfollows⟩ := resetKeepPages_blind hinv keepCount m
  exact ⟨m', (hkeep m).trans (congrArg (fun s => some (none, s)) hm'), hfollows⟩

/-- An allocation as a call. -/
theorem Blind.exec {f : World → Option (Nat × World)} {size : Nat} {s s' : World} {m : Mem}
    {r : Option Nat} (h : Blind f size s m)
    (hs : (f s).map (fun r => (some r.1, r.2)) = some (r, s')) :
    (∀ p ∈ r, p + size ≤ s'.sentinel) ∧
    ∃ m', (f { s with mem := m }).map (fun r => (some r.1, r.2)) = some (r, { s' with mem := m' }) ∧
      Follows s m s' m' := by
  obtain ⟨⟨p, s₁⟩, hf, heq⟩ := Option.map_eq_some_iff.mp hs
  cases heq
  obtain ⟨hroom, m', hf', hfollows⟩ := h p s₁ hf
  refine ⟨fun q hq => ?_, m', ?_, hfollows⟩
  · cases hq
    exact hroom
  · rw [hf']
    rfl

/-- **Two memories, one call.** A call that reads what is the same in both does
the same, and leaves the same where it was the same. -/
theorem exec_blind {σ : Sys} {c : Call} {m : Mem} {r : Option Nat} {s' : World} (hinv : Inv t σ)
    (hlegal : Legal t σ c) (hsame : Same σ.world m) (hreads : ReadsSame t σ.world m c.op)
    (h : exec t c.sys c.op σ.world = some (r, s')) :
    (∀ p ∈ r, p + c.op.size t σ.world.mem ≤ s'.sentinel) ∧
    ∃ m', exec t c.sys c.op { σ.world with mem := m } = some (r, { s' with mem := m' }) ∧
      Follows σ.world m s' m' := by
  obtain ⟨op, sys⟩ := c
  obtain ⟨hsys, hproper, hnw⟩ := hlegal
  have hpages := hinv.pages
  dsimp only at *
  cases op with
  | alloc size alignment =>
    exact (alloc_blind hpages hsys hproper.2.2 hnw hsame).exec h
  | calloc size alignment =>
    have hblind := (alloc_blind hpages hsys hproper.2.2 hnw hsame).fill
      (.calloc size alignment) hreads fun _ => Op.noConfusion
    exact (hblind.congr (calloc_eq size alignment _) (calloc_eq size alignment _)).exec h
  | memdup src size => exact (memdup_blind hpages hsys hnw hsame hreads).exec h
  | strdup str =>
    obtain ⟨⟨p, s₁⟩, hr, -⟩ := Option.map_eq_some_iff.mp h
    obtain ⟨len, hlen, -⟩ := strdup_eq hr
    obtain ⟨hlt, hnw'⟩ := hnw len hlen
    have hsize : (Op.strdup str).size t σ.world.mem = len + 1 := by
      simp [Op.size, hlen]
    rw [hsize]
    exact (strdup_blind hpages hsys hlen hlt hnw' hsame hreads).exec h
  | realloc block oldSize newSize alignment =>
    exact (realloc_blind hpages hsys hproper.2.2.2 hnw hsame hreads).exec h
  | callocV n size =>
    obtain ⟨⟨p, s₁⟩, hr, -⟩ := Option.map_eq_some_iff.mp h
    obtain ⟨hpos, hlt⟩ := callocV_size hr
    exact (callocV_blind hpages hsys hpos hlt (hnw hlt) hsame).exec h
  | reallocarrayV block n size =>
    obtain ⟨⟨p, s₁⟩, hr, -⟩ := Option.map_eq_some_iff.mp h
    obtain ⟨hpos, hlt⟩ := reallocarrayV_size hr
    exact (reallocarrayV_blind hpages hsys hpos hlt hnw hsame hreads).exec h
  | freeV block =>
    cases h
    obtain ⟨m', hm', hfollows⟩ := freeV_blind (t := t) block hsame
    exact ⟨fun p hp => absurd hp (Option.not_mem_none p), m', by rw [exec, hm'], hfollows⟩
  | reset | resetKeepPages | resetKeepPercentage =>
    refine ⟨?_, exec_reset_blind hpages ?_ m h⟩
    · cases h
      exact fun p hp => absurd hp (Option.not_mem_none p)
    · trivial
  | write p bytes =>
    cases h
    exact ⟨fun p hp => absurd hp (Option.not_mem_none p), _, rfl, hsame.follows.blit (fun _ _ => rfl) _⟩

/-! ## The arena and its clients -/

/-- `m` agrees with memory in what clients hold, too. -/
structure Alike (t : Target) (σ : Sys) (m : Mem) : Prop where
  world : Same σ.world m
  blocks : ∀ b ∈ σ.live, ∀ a, b.start t ≤ a → a < b.stop → m a = σ.world.mem a

/-- What is on the current page, in front of `_sentinel`, is the same. -/
theorem Same.on_page {s : World} {m : Mem} (h : Same s m) (hinv : PageInv t s) {r : Region}
    (hr : (held s.log)[s.pageIndex]? = some r) {a : Nat} (hbase : r.base ≤ a)
    (hlt : a < s.sentinel) : m a = s.mem a := by
  refine h.page r.base ?_ a hbase hlt
  rw [hinv.pages, List.getElem?_map, hr]
  rfl

/-- What a call is asked for is no matter of memory it does not read. -/
theorem ReadsSame.size_eq {s : World} {m : Mem} {op : Op} (h : ReadsSame t s m op)
    (hstr : ∀ str, op = .strdup str → (strlen s.mem str t.modulus).isSome) :
    op.size t m = op.size t s.mem := by
  cases op with
  | strdup str =>
    obtain ⟨len, hlen⟩ := Option.isSome_iff_exists.mp (hstr str rfl)
    have hlen' : strlen m str t.modulus = some len := by
      refine strlen_congr hlen fun i hi => h ⟨str, len + 1⟩ ?_ _ ?_
      · simp [Op.reads, hlen]
      · exact ⟨Nat.le_add_right _ _, by dsimp only; omega⟩
    simp only [Op.size, hlen, hlen']
  | _ => rfl

/-- Nor are the client's books. -/
theorem Sys.record_withMem {σ : Sys} {op : Op} {m m' : Mem} {r : Option Nat} {s : World}
    (hsize : op.size t m = op.size t σ.world.mem) :
    (σ.withMem m).record t op (r, { s with mem := m' }) = (σ.record t op (r, s)).withMem m' := by
  cases r with
  | none => cases op <;> rfl
  | some p =>
    simp only [Sys.record, Sys.grant, Sys.withMem, hsize]
    split <;> rfl

/-- The blocks after a call. -/
theorem Effect.alike_blocks {c : Call} {σ σ' : Sys} {r : Option Nat} {m m' : Mem}
    (heff : Effect t c σ r σ') (hinv : Inv t σ) (h : Alike t σ m)
    (hfollows : Follows σ.world m σ'.world m')
    (hroom : ∀ p ∈ r, p + c.op.size t σ.world.mem ≤ σ'.world.sentinel) :
    ∀ b ∈ σ'.live, ∀ a, b.start t ≤ a → a < b.stop → m' a = σ'.world.mem a := by
  have hinv' := heff.inv hinv
  have hold : ∀ b ∈ σ.live, ∀ a, b.start t ≤ a → a < b.stop → m' a = σ'.world.mem a :=
    fun b hb a hstart hstop => hfollows.keeps a (h.blocks b hb a hstart hstop)
  -- a block that was handed out is on the current page
  have hnew : ∀ b ∈ σ'.live, b.page = σ'.world.pageIndex → b.stop ≤ σ'.world.sentinel →
      ∀ a, b.start t ≤ a → a < b.stop → m' a = σ'.world.mem a := by
    intro b hb hpage hstop a ha hlt
    obtain ⟨q, hq, hbase, -⟩ := (hinv'.placed b hb).covers
    rw [hpage] at hq
    exact hfollows.same.on_page hinv'.pages hq (Nat.le_trans hbase ha) (Nat.lt_of_lt_of_le hlt hstop)
  cases heff with
  | @carved p s₁ =>
    intro b hb
    rcases List.mem_cons.mp hb with rfl | hb'
    · refine hnew _ List.mem_cons_self ?_ (hroom p rfl)
      dsimp only
      rw [Op.fill_arena]
    · exact hold b (List.mem_filter.mp hb').1
  | @extended b' l s hlive hpage his hplace hsize hext =>
    intro b hb
    rcases List.mem_cons.mp hb with rfl | hb'
    · exact hnew _ List.mem_cons_self (hpage.trans hext.pageIndex.symm) (hroom b'.ptr rfl)
    · exact hold b (hlive ▸ List.mem_cons_of_mem b' hb')
  | @rewound b' l s _ hlive => exact fun b hb => hold b (hlive ▸ List.mem_cons_of_mem b' hb)
  | abandoned => exact fun b hb => hold b (List.mem_filter.mp hb).1
  | reset => exact fun b hb => absurd hb List.not_mem_nil
  | written => exact hold

/-- **Step.** -/
theorem Alike.step {c : Call} {σ σ' : Sys} {m : Mem} (h : Alike t σ m) (hinv : Inv t σ)
    (hlegal : Legal t σ c) (hreads : ReadsSame t σ.world m c.op) (hs : σ.step t c = some σ') :
    ∃ m', (σ.withMem m).step t c = some (σ'.withMem m') ∧ Alike t σ' m' ∧
      ∀ a, m a = σ.world.mem a → m' a = σ'.world.mem a := by
  obtain ⟨⟨r, s'⟩, hr, hrec⟩ := Option.map_eq_some_iff.mp hs
  have heff := exec_effect hinv hlegal hr
  have hworld : s' = σ'.world := by rw [← hrec, Sys.record_world]
  rw [hrec] at heff
  subst hworld
  obtain ⟨hroom, m', hr', hfollows⟩ := exec_blind hinv hlegal h.world hreads hr
  have hsize : c.op.size t m = c.op.size t σ.world.mem := by
    refine hreads.size_eq fun str hop => ?_
    rw [hop] at hr
    obtain ⟨_, hx, -⟩ := Option.map_eq_some_iff.mp hr
    obtain ⟨len, hlen, -⟩ := strdup_eq hx
    rw [hlen]
    rfl
  refine ⟨m', ?_, ⟨hfollows.same, heff.alike_blocks hinv h hfollows hroom⟩, hfollows.keeps⟩
  unfold Sys.step
  have hexec : exec t c.sys c.op (σ.withMem m).world = some (r, { σ'.world with mem := m' }) := hr'
  rw [hexec, Option.map_some, Sys.record_withMem hsize, hrec]

/-- What a call reads is the same, when it is its client's to read. -/
theorem Alike.reads {σ₀ σ : Sys} {op : Op} {m : Mem} (h : Alike t σ m)
    (hout : ∀ a, (∀ q ∈ held σ₀.world.log, ¬ q.Has a) → m a = σ.world.mem a)
    (hreads : ReadsOwn t σ₀ σ op) : ReadsSame t σ.world m op := by
  intro r hr a ha
  rcases hreads r hr with ⟨b, hb, hstart, hstop⟩ | hfar
  · exact h.blocks b hb a (Nat.le_trans hstart ha.1) (Nat.lt_of_lt_of_le ha.2 hstop)
  · exact hout a fun q hq => (hfar q hq).not_has ha

/-- A call that reads what is the same is legal with both memories. -/
theorem Legal.withMem {c : Call} {σ σ' : Sys} {m : Mem} (h : Legal t σ c)
    (hreads : ReadsSame t σ.world m c.op) (hs : σ.step t c = some σ') :
    Legal t (σ.withMem m) c := by
  obtain ⟨op, sys⟩ := c
  obtain ⟨hsys, hproper, hnw⟩ := h
  refine ⟨hsys, hproper, ?_⟩
  cases op with
  | strdup str =>
    intro len hlen
    obtain ⟨_, hr, -⟩ := Option.map_eq_some_iff.mp hs
    obtain ⟨_, hx, -⟩ := Option.map_eq_some_iff.mp hr
    obtain ⟨len', hlen', -⟩ := strdup_eq hx
    have hsize := hreads.size_eq fun str' hop => by
      cases hop
      rw [hlen']
      rfl
    have hlen'' : strlen m str t.modulus = some len := hlen
    simp only [Op.size, hlen', hlen'', Option.map_some, Option.getD_some] at hsize
    cases Nat.succ.inj hsize
    exact hnw len hlen'
  | _ => exact hnw

/-! ## Runs -/

variable {pageSize : Nat} {mem m : Mem} {l l' : List Call} {c : Call} {σ σ₀ σ' : Sys}

/-- After a reset nobody holds a block. -/
theorem record_reset {op : Op} (hop : op.IsReset) {r : Option Nat × World}
    (h : exec t sys op σ.world = some r) : (σ.record t op r).live = [] := by
  cases op with
  | reset | resetKeepPages | resetKeepPercentage =>
    cases h
    rfl
  | _ => exact hop.elim

/-- **Reset.** Whatever there was before. -/
theorem reset_alike (hinv : Inv t σ) (hop : c.op.IsReset) (hs : σ.step t c = some σ₀)
    (m : Mem) : ∃ m', (σ.withMem m).step t c = some (σ₀.withMem m') ∧ Alike t σ₀ m' ∧
      ∀ a, m a = σ.world.mem a → m' a = σ₀.world.mem a := by
  obtain ⟨⟨r, s'⟩, hr, hrec⟩ := Option.map_eq_some_iff.mp hs
  have hworld : s' = σ₀.world := by rw [← hrec, Sys.record_world]
  subst hworld
  obtain ⟨m', hr', hfollows⟩ := exec_reset_blind hinv.pages hop m hr
  have hsize : c.op.size t m = c.op.size t σ.world.mem := by
    cases hc : c.op with
    | strdup =>
      rw [hc] at hop
      exact hop.elim
    | _ => rfl
  have hlive : σ₀.live = [] := hrec ▸ record_reset hop hr
  refine ⟨m', ?_, ⟨hfollows.same, ?_⟩, hfollows.keeps⟩
  · unfold Sys.step
    have hexec : exec t c.sys c.op (σ.withMem m).world = some (r, { σ₀.world with mem := m' }) := hr'
    rw [hexec, Option.map_some, Sys.record_withMem hsize, hrec]
  · rw [hlive]
    exact fun b hb => absurd hb List.not_mem_nil

/-- A call after a reset in `σ₀`: it puts its block and ends its fill where it
should, and its client copies nothing that the arena had before. -/
structure Discreet (t : Target) (σ₀ σ : Sys) (c : Call) : Prop where
  legal : Legal t σ c
  place : PlaceOk t σ c.op
  fill : FillOk t σ c.op
  source : SourceOk t σ₀ σ c.op

/-- The arena run twice: `x` is `τ` with a memory that agrees in all that clients
can see, and where `σ` had no page. -/
structure Twin (t : Target) (σ τ x : Sys) : Prop where
  inv : Inv t τ
  kempt : Kempt t τ
  alike : ∃ m, x = τ.withMem m ∧ Alike t τ m ∧
    ∀ a, (∀ q ∈ held σ.world.log, ¬ q.Has a) → m a = τ.world.mem a

theorem Twin.step {τ τ' x : Sys} (h : Twin t σ τ x) (hc : Discreet t σ τ c)
    (hs : τ.step t c = some τ') :
    ∃ x', Legal t x c ∧ x.step t c = some x' ∧ Twin t σ τ' x' := by
  obtain ⟨hinv, hkempt, m, rfl, halike, hout⟩ := h
  have hreads := halike.reads hout (hc.source.readsOwn hinv hkempt hc.legal)
  obtain ⟨m', hs', halike', hkeeps⟩ := halike.step hinv hc.legal hreads hs
  obtain ⟨_, -, heff⟩ := step_effect hinv hc.legal hs
  exact ⟨τ'.withMem m', hc.legal.withMem hreads hs, hs', heff.inv hinv,
    hkempt.step hinv hc.legal hc.place hc.fill hs, m', rfl, halike',
    fun a ha => hkeeps a (hout a ha)⟩

/-- **A reset forgets.** Whatever the pages of an arena hold when it is reset,
each run from there returns, hands out the same blocks, and they hold the same
bytes: if its clients copy nothing that was in those pages, no block is put over a
live header, no header over a live tail, and no debug `free` has a block whose
rounded end is behind its page. -/
theorem reset_forgets (h : Reach (Sys.step t) (Legal t) (Sys.start pageSize mem) l σ)
    (hm : ∀ a, (∀ q ∈ held σ.world.log, ¬ q.Has a) → m a = σ.world.mem a)
    (hlegal : Legal t σ c) (hop : c.op.IsReset) (hreset : σ.step t c = some σ₀)
    (hrun : Reach (Sys.step t) (Discreet t σ) σ₀ l' σ') :
    ∃ τ₀ τ', (σ.withMem m).step t c = some τ₀ ∧ Reach (Sys.step t) (Legal t) τ₀ l' τ' ∧
      τ'.world.toMulleArena = σ'.world.toMulleArena ∧ τ'.world.log = σ'.world.log ∧
      τ'.live = σ'.live ∧
      ∀ b ∈ σ'.live, bytesAt τ'.world.mem b.ptr b.size = bytesAt σ'.world.mem b.ptr b.size := by
  have hinv := reach_inv id h
  obtain ⟨_, -, heff⟩ := step_effect hinv hlegal hreset
  obtain ⟨m₀, hτ₀, halike₀, hkeeps₀⟩ := reset_alike hinv hop hreset m
  have hlive : σ₀.live = [] := by
    obtain ⟨_, hr, rfl⟩ := Option.map_eq_some_iff.mp hreset
    exact record_reset hop hr
  have hstart : Twin t σ σ₀ (σ₀.withMem m₀) :=
    ⟨heff.inv hinv, .of_nil hlive, m₀, rfl, halike₀, fun a ha => hkeeps₀ a (hm a ha)⟩
  obtain ⟨_, hτ', -, -, m', rfl, halike, -⟩ := hrun.simulated hstart Twin.step
  refine ⟨_, _, hτ₀, hτ', rfl, rfl, rfl, fun b hb => bytesAt_congr fun i hi => ?_⟩
  have hle : b.start t ≤ b.ptr := Nat.sub_le _ _
  exact halike.blocks b hb _ (Nat.le_trans hle (Nat.le_add_right _ _)) (Nat.add_lt_add_left hi _)

/-- Memory with all bytes of the arena's pages overwritten. -/
def Sys.scribbled (σ : Sys) (v : UInt8) : Mem :=
  fun a => if ∃ q ∈ held σ.world.log, q.Has a then v else σ.world.mem a

theorem Sys.scribbled_outside {v : UInt8} {a : Nat} (h : ∀ q ∈ held σ.world.log, ¬ q.Has a) :
    σ.scribbled v a = σ.world.mem a :=
  if_neg fun ⟨q, hq, ha⟩ => h q hq ha

/-- A page and an oversized one, with data in them. -/
def secretScript : List Line :=
  [⟨.alloc 32 1, [(64, 0x1000)]⟩, ⟨.write 0x1000 [1, 2, 3], []⟩, ⟨.alloc 100 1, [(100, 0x2000)]⟩,
    ⟨.write 0x2060 [4], []⟩]

/-- Both are used again, a block moves, one is copied, and another page follows. -/
def laterScript : List Line :=
  [⟨.alloc 40 1, []⟩, ⟨.write 0x1000 [7], []⟩, ⟨.alloc 40 8, []⟩,
    ⟨.realloc 0x1000 40 50 1, [(64, 0x3000)]⟩, ⟨.memdup 0x3000 4, []⟩,
    ⟨.callocV 1 8, [(64, 0x4000)]⟩, ⟨.reallocarrayV 0x4010 5 8, [(64, 0x5000)]⟩]

theorem reset_forgets_oversized :
    let σ := scriptEnd (x64 false) 64 (fun _ => 0) secretScript
    let σ₀ := σ.record (x64 false) (.resetKeepPages 2) (none, resetKeepPages (x64 false) 2 σ.world)
    let σ' := scriptFrom (x64 false) σ₀ laterScript
    ∃ τ₀ τ', (σ.withMem (σ.scribbled 0xFF)).step (x64 false) ⟨.resetKeepPages 2, fun _ => none⟩ =
        some τ₀ ∧
      Reach (Sys.step (x64 false)) (Legal (x64 false)) τ₀ (laterScript.map Line.call) τ' ∧
      τ'.world.toMulleArena = σ'.world.toMulleArena ∧ τ'.world.log = σ'.world.log ∧
      τ'.live = σ'.live ∧
      ∀ b ∈ σ'.live, bytesAt τ'.world.mem b.ptr b.size = bytesAt σ'.world.mem b.ptr b.size := by
  intro σ σ₀ σ'
  have hrun : Reach (Sys.step (x64 false)) (Discreet (x64 false) σ) σ₀
      (laterScript.map Line.call) σ' :=
    reach_from_script
      (P := fun τ x => Line.Ok (x64 false) τ x ∧ PlaceOk (x64 false) τ x.op ∧
        FillOk (x64 false) τ x.op ∧ SourceOk (x64 false) σ τ x.op)
      (fun τ x hx => ⟨Line.legal τ x hx.1, hx.2.1, hx.2.2.1, hx.2.2.2⟩) (by decide +kernel)
  exact reset_forgets (reach_of_script Line.legal (l := secretScript) (by decide +kernel))
    (fun _ ha => Sys.scribbled_outside ha)
    ⟨fun _ p hp => absurd hp.symm (Option.some_ne_none p), trivial, trivial⟩ trivial rfl hrun

end MulleStorage.Arena
