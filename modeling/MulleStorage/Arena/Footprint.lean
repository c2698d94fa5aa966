import MulleStorage.Arena.Kept
import MulleStorage.Lib.Budget

/-!
# How much an arena holds

What an arena needs of the default allocator is bounded by what its clients ask
of it, whatever they mix: the direct calls and the vtable, any sizes and
alignments, blocks freed, grown and shrunk, pages kept by a reset or not.

A request is charged with what it may take of a page at worst (`Op.demand`): its
size, its alignment's padding, a header. Shrinking and freeing are not credited.
`Metered` adds up the charges since the last reset.

> `footprint_le`: an arena never holds more than what the last reset kept, twice
> what was asked for since, and one page.
-/

namespace MulleStorage.Arena

open MulleStorage.Lib

variable {t : Target}

/-- The bytes held, and the room behind the cursor. -/
def World.account (s : World) : Account where
  held := ((held s.log).map Region.size).sum
  room := s.sentinel - s.current

/-- What a request may take of a page at worst. -/
def Op.demand (t : Target) (m : Mem) : Op → Nat
  | .alloc size alignment | .calloc size alignment | .realloc _ _ size alignment =>
    size + (alignment - 1)
  | .memdup _ size => size
  | .strdup str => ((strlen m str t.modulus).map (· + 1)).getD 0
  | .callocV n size | .reallocarrayV _ n size => n * size + 2 * t.defaultAlignment
  | _ => 0

/-! ## One allocation -/

/-- An address is aligned upwards by less than the alignment, or wraps. -/
theorem alignPointer_le {alignment : Nat} (hal : t.IsAlignment alignment) (p : Nat) :
    alignPointer t p alignment ≤ p + (alignment - 1) := by
  rw [alignPointer_eq_div hal]
  exact Nat.le_trans (Nat.div_mul_le_self _ _) (Nat.mod_le _ _)

/-- Without room for a direct block, no more than its demand is left. -/
theorem room_le_of_not_fitsPage {size alignment : Nat} {s : World} (hal : t.IsAlignment alignment)
    (h : ¬ FitsPage t s size alignment) :
    s.account.room ≤ size + (alignment - 1) := by
  have hle := alignPointer_le hal s.current
  have hmod : t.add (alignPointer t s.current alignment) size
      ≤ alignPointer t s.current alignment + size := Nat.mod_le _ _
  unfold FitsPage at h
  show s.sentinel - s.current ≤ _
  omega

/-- Nor for a vtable block. -/
theorem room_le_of_not_fitsPageV {size : Nat} {s : World} (h : ¬ FitsPageV t s size) :
    s.account.room ≤ t.sizeofSizeT + size := by
  have hmod : t.add (t.add s.current t.sizeofSizeT) size
      ≤ t.add s.current t.sizeofSizeT + size := Nat.mod_le _ _
  have hmod' : t.add s.current t.sizeofSizeT ≤ s.current + t.sizeofSizeT := Nat.mod_le _ _
  unfold FitsPageV at h
  show s.sentinel - s.current ≤ _
  omega

/-- A page entered for a request of `need` bytes, which the block at its start
takes up to `cost` bytes of. -/
theorem newPage_spends {sys : Nat → Option Nat} {need cost page : Nat} {s s' s'' : World}
    (h : newPage t sys need s = some (page, s')) (hsys : SysOk t s sys)
    (hlost : s.account.room ≤ cost) (hneed : need ≤ cost) (hheld : held s''.log = held s'.log)
    (hsentinel : s''.sentinel = s'.sentinel) (hcurrent : s''.current ≤ s'.current + cost) :
    Spends s.pageSize cost s.account s''.account := by
  unfold newPage at h
  split at h
  next hkept =>
    cases h
    refine .stayed ?_ (by omega)
    simp only [World.account, hheld]
    rfl
  next =>
    dsimp only at h
    split at h
    next => cases h
    next p hp =>
      simp only [Option.some.injEq, Prod.mk.injEq] at h
      obtain ⟨-, rfl⟩ := h
      have hend := (hsys _ p hp).2.1
      dsimp only at hheld hsentinel hcurrent
      rw [Target.add_eq hend] at hsentinel
      have hsize : (if need > s.pageSize then need else s.pageSize) ≤ max s.pageSize cost := by
        split <;> omega
      refine .obtained hlost hsize ?_ ?_
      · simp only [World.account, hheld, held_entered, held_obtained, List.map_append, List.sum_append,
          List.map_cons, List.map_nil, List.sum_cons, List.sum_nil, Nat.add_zero]
      · show _ ≤ s''.sentinel - s''.current + cost
        omega

/-- `_mulle_arena_alloc`. -/
theorem alloc_spends {sys : Nat → Option Nat} {size alignment p : Nat} {s s' : World}
    (hsys : SysOk t s sys) (hal : t.IsAlignment alignment)
    (hnw : AllocNoWrap t s size alignment) (h : alloc t sys size alignment s = some (p, s')) :
    Spends s.pageSize (size + (alignment - 1)) s.account s'.account := by
  unfold AllocNoWrap at hnw
  by_cases hfit : FitsPage t s size alignment
  · -- on the current page
    rw [if_pos hfit] at hnw
    rw [alloc_here sys hfit] at h
    cases h
    have hle := alignPointer_le hal s.current
    refine .stayed rfl ?_
    show s.sentinel - s.current ≤ s.sentinel - t.add (alignPointer t s.current alignment) size + _
    rw [Target.add_eq hnw.2]
    omega
  · rw [if_neg hfit] at hnw
    rw [alloc_elsewhere sys hfit, sub_add_one hal.pos hnw] at h
    obtain ⟨⟨page, s₁⟩, hpage, hplaced⟩ := Option.map_eq_some_iff.mp h
    cases hplaced
    have hle := alignPointer_le hal s₁.current
    have hmod : t.add (alignPointer t s₁.current alignment) size
        ≤ alignPointer t s₁.current alignment + size := Nat.mod_le _ _
    refine newPage_spends hpage hsys (room_le_of_not_fitsPage hal hfit) (Nat.le_refl _) rfl rfl ?_
    show t.add (alignPointer t s₁.current alignment) size ≤ _
    omega

/-- The cursor behind a vtable block. -/
theorem placeHeader_current_le {size : Nat} {s : World}
    (hlt : s.current + t.sizeofSizeT + size < t.modulus) :
    (placeHeader t size s).2.current ≤ s.current + size + (t.defaultAlignment - 1) := by
  rw [placeHeader_eq hlt]
  have hup := alignUp_lt t.defaultAlignment_pos (s.current + t.sizeofSizeT + size)
  show alignUp t.defaultAlignment (s.current + t.sizeofSizeT + size) - t.sizeofSizeT ≤ _
  omega

/-- `_mulle_arena_alloc_with_size_header`. -/
theorem allocWithSizeHeader_spends {sys : Nat → Option Nat} {size p : Nat} {s s' : World}
    (hinv : PageInv t s) (hsys : SysOk t s sys) (hnw : HeaderNoWrap t s size)
    (h : allocWithSizeHeader t sys size s = some (p, s')) :
    Spends s.pageSize (size + 2 * t.defaultAlignment) s.account s'.account := by
  have hW := t.sizeofSizeT_le
  unfold HeaderNoWrap at hnw
  by_cases hfit : FitsPageV t s size
  · -- on the current page
    rw [if_pos hfit] at hnw
    rw [allocWithSizeHeader_here sys hfit] at h
    cases h
    have hle := placeHeader_current_le hnw
    refine .stayed rfl ?_
    show s.sentinel - s.current ≤ s.sentinel - (placeHeader t size s).2.current + _
    omega
  · rw [if_neg hfit] at hnw
    rw [allocWithSizeHeader_elsewhere sys hfit, Target.add_eq (a := t.sizeofSizeT) (by omega),
      Target.add_eq hnw] at h
    obtain ⟨⟨page, s₁⟩, hpage, hplaced⟩ := Option.map_eq_some_iff.mp h
    have hopen := newPage_opened hinv hsys hpage
    have hlt := hopen.inv.sentinel_lt
    have hroom := hopen.room
    have hlost := room_le_of_not_fitsPageV hfit
    obtain rfl := congrArg Prod.snd hplaced
    dsimp only
    rw [Target.add_eq (a := s₁.current) (by omega)]
    have hle : (placeHeader t size { s₁ with
        current := s₁.current + (t.defaultAlignment - t.sizeofSizeT) }).2.current ≤ _ :=
      placeHeader_current_le (by dsimp only; omega)
    refine newPage_spends hpage hsys (by omega) (by omega) rfl rfl ?_
    dsimp only at hle
    omega

/-! ## One call -/

/-- A fill spends nothing. -/
theorem Op.fill_account (op : Op) (m : Mem) (p : Nat) (s : World) :
    (op.fill t m p s).account = s.account := by
  unfold World.account
  rw [Op.fill_arena, Op.held_fill]

/-- An allocation that is filled spends what it did before. -/
theorem filled_spends {cost p : Nat} {x : Option (Nat × World)} {op : Op} {m : Mem} {s s' : World}
    (hx : ∀ q s₁, x = some (q, s₁) → Spends s.pageSize cost s.account s₁.account)
    (h : (x.map fun r => (r.1, op.fill t m r.1 r.2)) = some (p, s')) :
    Spends s.pageSize cost s.account s'.account := by
  obtain ⟨⟨q, s₁⟩, halloc, hfill⟩ := Option.map_eq_some_iff.mp h
  cases hfill
  rw [Op.fill_account]
  exact hx q s₁ halloc

/-- A block moved within its page takes what it was resized to. -/
theorem moved_spends {cost : Nat} {s s' : World} (hheld : held s'.log = held s.log)
    (hsentinel : s'.sentinel = s.sentinel) (hcurrent : s'.current ≤ s.current + cost) :
    Spends s.pageSize cost s.account s'.account := by
  refine .stayed ?_ ?_
  · simp only [World.account, hheld]
  · show s.sentinel - s.current ≤ s'.sentinel - s'.current + cost
    omega

/-- The cursor is behind the newest block. -/
theorem Inv.last_le_current {σ : Sys} (hinv : Inv t σ) {b : Block} (hb : b ∈ σ.live)
    (hlast : b.start t = σ.world.last) : σ.world.last ≤ σ.world.current := by
  obtain ⟨l, -, -, hedge⟩ := hinv.top_of_start hb hlast
  have hlt := (hinv.placed b hb).start_lt_edge
  omega

variable {c : Call} {σ : Sys} {p : Nat} {s : World}

theorem memdup_spends {src size : Nat} (hsys : SysOk t σ.world c.sys)
    (hnw : AllocNoWrap t σ.world size 1) (h : memdup t c.sys src size σ.world = some (p, s)) :
    Spends σ.world.pageSize size σ.world.account s.account := by
  rw [memdup_eq] at h
  exact filled_spends (fun _ _ halloc => alloc_spends hsys t.isAlignment_one hnw halloc) h

theorem realloc_spends {block oldSize newSize alignment : Nat} (hinv : Inv t σ)
    (hlegal : Legal t σ ⟨.realloc block oldSize newSize alignment, c.sys⟩)
    (h : realloc t c.sys block oldSize newSize alignment σ.world = some (p, s)) :
    Spends σ.world.pageSize (newSize + (alignment - 1)) σ.world.account s.account := by
  obtain ⟨hsys, ⟨hold, hsize, -, hal⟩, hnw⟩ := hlegal
  dsimp only [NoWrap] at hnw
  by_cases hplace : InPlace t σ.world (.realloc block oldSize newSize alignment)
  · -- resized where it is, from its start
    rw [if_pos hplace] at hnw
    rw [realloc_inPlace hplace] at h
    cases h
    obtain ⟨b, hb, his, -⟩ := hold.resolve_left hplace.1
    have hstart : b.start t = σ.world.last := by
      unfold Block.start
      rw [his.1, his.2]
      exact hplace.2.1
    have hle := hinv.last_le_current hb hstart
    refine moved_spends rfl rfl ?_
    dsimp only
    rw [Target.add_eq hnw]
    omega
  · rw [if_neg hplace] at hnw
    rw [realloc_moved hplace] at h
    exact filled_spends (fun _ _ halloc => alloc_spends hsys hal hnw halloc) h

theorem reallocarrayV_spends {block n size : Nat} (hinv : Inv t σ)
    (hlegal : Legal t σ ⟨.reallocarrayV block n size, c.sys⟩)
    (h : reallocarrayV t c.sys block n size σ.world = some (p, s)) :
    Spends σ.world.pageSize (n * size + 2 * t.defaultAlignment) σ.world.account s.account := by
  obtain ⟨hsys, ⟨hold, -⟩, hnw⟩ := hlegal
  obtain ⟨hpos, hlt⟩ := reallocarrayV_size h
  replace hnw := hnw hlt
  by_cases hplace : InPlace t σ.world (.reallocarrayV block n size)
  · -- resized where it is, from its start
    rw [if_pos hplace] at hnw
    rw [reallocarrayV_inPlace hpos hlt hplace] at h
    cases h
    obtain ⟨b, hb, his⟩ := hold.resolve_left hplace.1
    obtain ⟨hptr, hraw⟩ := hinv.raw_eq hb his
    have hstart : b.start t = σ.world.last := hraw.symm.trans hplace.2.1
    have hle := hinv.last_le_current hb hstart
    have hup := alignUp_lt t.defaultAlignment_pos (p + n * size)
    have hW := t.sizeofSizeT_le
    refine moved_spends rfl rfl ?_
    show t.sub (alignPointer t (t.add p (n * size)) t.defaultAlignment) t.sizeofSizeT ≤ _
    rw [Target.add_eq hnw, stepBack_eq (by omega) hnw]
    omega
  · rw [if_neg hplace] at hnw
    rw [reallocarrayV_moved hpos hlt hplace] at h
    have hprobe : ((Op.reallocarrayV block n size).probe t σ.world).account = σ.world.account := by
      unfold World.account
      rw [Op.probe_arena, Op.held_probe]
    refine filled_spends (fun q s₁ halloc => ?_) h
    have hspends := allocWithSizeHeader_spends ((Op.reallocarrayV block n size).probe_inv hinv.pages)
      (by unfold SysOk; rw [Op.held_probe]; exact hsys)
      ((Op.headerNoWrap_probe _ _ _).mpr hnw) halloc
    rw [hprobe, Op.probe_arena] at hspends
    exact hspends

theorem callocV_spends {n size : Nat} (hinv : Inv t σ) (hlegal : Legal t σ ⟨.callocV n size, c.sys⟩)
    (h : callocV t c.sys n size σ.world = some (p, s)) :
    Spends σ.world.pageSize (n * size + 2 * t.defaultAlignment) σ.world.account s.account := by
  obtain ⟨hsys, -, hnw⟩ := hlegal
  obtain ⟨hpos, hlt⟩ := callocV_size h
  rw [callocV_eq hpos hlt] at h
  exact filled_spends
    (fun _ _ halloc => allocWithSizeHeader_spends hinv.pages hsys (hnw hlt) halloc) h

/-- A `free` holds on to the pages. -/
theorem held_freeV (block : Nat) (s : World) : held (freeV t block s).log = held s.log := by
  by_cases hnull : block = 0
  · rw [hnull]
    rfl
  · by_cases hlast : t.sub block t.sizeofSizeT = s.last
    · rw [freeV_newest hnull hlast]
      split <;> rfl
    · rw [freeV_other hlast]

theorem freeV_spends {block : Nat} (hinv : Inv t σ) (hproper : ∃ b ∈ σ.live, b.Is .vtable block) :
    Spends σ.world.pageSize 0 σ.world.account (freeV t block σ.world).account := by
  obtain ⟨b, hb, his⟩ := hproper
  obtain ⟨hptr, hraw⟩ := hinv.raw_eq hb his
  have hpos := t.sizeofSizeT_pos
  by_cases hlast : b.start t = σ.world.last
  · have hle := hinv.last_le_current hb hlast
    have harena := freeV_newest_arena (by omega) (hraw.trans hlast)
    refine moved_spends (held_freeV block σ.world) ?_ ?_
    · rw [harena]
    · rw [harena]
      exact hle
  · rw [freeV_other (hraw ▸ hlast)]
    exact moved_spends rfl rfl (Nat.le_refl _)

/-- **One call.** Unless it is a reset, it spends no more than it asks for. -/
theorem exec_spends (hinv : Inv t σ) (hlegal : Legal t σ c) (hreset : ¬ c.op.IsReset)
    {r : Option Nat × World} (h : exec t c.sys c.op σ.world = some r) :
    Spends σ.world.pageSize (c.op.demand t σ.world.mem) σ.world.account r.2.account := by
  obtain ⟨op, sys⟩ := c
  cases op with
  | alloc size alignment =>
    obtain ⟨⟨p, s⟩, hr, rfl⟩ := Option.map_eq_some_iff.mp h
    obtain ⟨hsys, ⟨-, -, hal⟩, hnw⟩ := hlegal
    exact alloc_spends hsys hal hnw hr
  | calloc size alignment =>
    obtain ⟨⟨p, s⟩, hr, rfl⟩ := Option.map_eq_some_iff.mp h
    obtain ⟨hsys, ⟨-, -, hal⟩, hnw⟩ := hlegal
    rw [calloc_eq] at hr
    exact filled_spends (fun _ _ halloc => alloc_spends hsys hal hnw halloc) hr
  | memdup src size =>
    obtain ⟨⟨p, s⟩, hr, rfl⟩ := Option.map_eq_some_iff.mp h
    exact memdup_spends (c := ⟨.memdup src size, sys⟩) hlegal.sys hlegal.noWrap hr
  | strdup str =>
    obtain ⟨⟨p, s⟩, hr, rfl⟩ := Option.map_eq_some_iff.mp h
    obtain ⟨len, hlen, hdup⟩ := strdup_eq hr
    obtain ⟨hlt, hnw⟩ := hlegal.noWrap len hlen
    have hdemand : (Op.strdup str).demand t σ.world.mem = len + 1 := by
      simp only [Op.demand, hlen, Option.map_some, Option.getD_some]
    rw [Target.add_eq hlt] at hdup
    rw [hdemand]
    exact memdup_spends (c := ⟨.strdup str, sys⟩) hlegal.sys hnw hdup
  | realloc block oldSize newSize alignment =>
    obtain ⟨⟨p, s⟩, hr, rfl⟩ := Option.map_eq_some_iff.mp h
    exact realloc_spends (c := ⟨_, sys⟩) hinv hlegal hr
  | callocV n size =>
    obtain ⟨⟨p, s⟩, hr, rfl⟩ := Option.map_eq_some_iff.mp h
    exact callocV_spends (c := ⟨_, sys⟩) hinv hlegal hr
  | reallocarrayV block n size =>
    obtain ⟨⟨p, s⟩, hr, rfl⟩ := Option.map_eq_some_iff.mp h
    exact reallocarrayV_spends (c := ⟨_, sys⟩) hinv hlegal hr
  | freeV block =>
    cases h
    exact freeV_spends hinv hlegal.proper
  | reset | resetKeepPages | resetKeepPercentage => exact absurd trivial hreset
  | write q bytes =>
    cases h
    exact moved_spends rfl rfl (Nat.le_refl _)

/-- `_page_size` is set by `init`. -/
theorem exec_pageSize {r : Option Nat × World} (hinv : Inv t σ)
    (h : exec t c.sys c.op σ.world = some r) : r.2.pageSize = σ.world.pageSize := by
  rcases exec_paged h with ⟨keepCount, -, hreset⟩ | hpaged
  · rw [hreset]
    exact (resetKeepPages_reset keepCount hinv.pages).pageSize
  · generalize c.op.request t σ.world = request at hpaged
    generalize hP : r.2.paging = P at hpaged
    show r.2.paging.pageSize = σ.world.paging.pageSize
    rw [hP]
    cases hpaged <;> rfl

/-! ## Runs -/

/-- An arena and its clients, with the bytes the last reset kept, and what was
asked for since. -/
structure Metered where
  sys : Sys
  kept : Nat
  asked : Nat

namespace Metered

/-- One call. -/
def step (t : Target) (m : Metered) (c : Call) : Option Metered :=
  (m.sys.step t c).map fun σ =>
    if c.op.IsReset then ⟨σ, σ.world.account.held, 0⟩
    else ⟨σ, m.kept, m.asked + c.op.demand t m.sys.world.mem⟩

/-- Nothing held, nothing asked. -/
def start (pageSize : Nat) (mem : Mem) : Metered := ⟨Sys.start pageSize mem, 0, 0⟩

/-- Within the bound. -/
structure Within (t : Target) (m : Metered) : Prop where
  inv : Inv t m.sys
  budget : Budget m.sys.world.pageSize m.kept m.asked m.sys.world.account

variable {m m' : Metered}

theorem Within.start (t : Target) (pageSize : Nat) (mem : Mem) : Within t (start pageSize mem) where
  inv := .start t pageSize mem
  budget := ⟨Nat.zero_le _, Nat.zero_le _⟩

/-- **Step lemma.** -/
theorem Within.step (h : Within t m) (hlegal : Legal t m.sys c) (hs : m.step t c = some m') :
    Within t m' := by
  obtain ⟨σ', hstep, heq⟩ := Option.map_eq_some_iff.mp hs
  obtain ⟨r, hexec, hrecord⟩ := Option.map_eq_some_iff.mp hstep
  have hinv' : Inv t σ' := hrecord ▸ (exec_effect h.inv hlegal hexec).inv h.inv
  have hworld : σ'.world = r.2 := by
    rw [← hrecord]
    exact Sys.record_world t m.sys c.op r
  subst heq
  by_cases hreset : c.op.IsReset
  · rw [if_pos hreset]
    exact ⟨hinv', .start _ _⟩
  · rw [if_neg hreset]
    have hspends := exec_spends h.inv hlegal hreset hexec
    refine ⟨hinv', ?_⟩
    dsimp only
    rw [hworld, exec_pageSize h.inv hexec]
    exact h.budget.spend hspends

end Metered

variable {pageSize : Nat} {mem : Mem} {l : List Call} {m : Metered}

/-- **What an arena holds.** After every run of direct calls, vtable calls and
resets, the pages obtained from the default allocator and not yet returned add up
to no more than what the last reset kept, twice what was asked for since, and one
page. -/
theorem footprint_le
    (h : Reach (Metered.step t) (fun m c => Legal t m.sys c) (Metered.start pageSize mem) l m) :
    ((held m.sys.world.log).map Region.size).sum
      ≤ m.kept + 2 * m.asked + m.sys.world.pageSize := by
  have hwithin : Metered.Within t m :=
    h.inv (.start t pageSize mem) fun h hlegal hs => h.step hlegal hs
  exact hwithin.budget.page

/-- Requests of a bit more than half a page, which waste the rest of it, one of
more than a page, and a block grown and freed, behind a page that was kept. -/
def wastefulScript : List Line :=
  [⟨.alloc 33 1, [(64, 0x1000)]⟩, ⟨.alloc 33 1, [(64, 0x2000)]⟩, ⟨.resetKeepPages 1, []⟩,
    ⟨.alloc 33 1, []⟩, ⟨.alloc 33 1, [(64, 0x3000)]⟩, ⟨.alloc 33 1, [(64, 0x4000)]⟩,
    ⟨.callocV 2 50, [(116, 0x5000)]⟩, ⟨.reallocarrayV 0x5010 4 50, [(216, 0x6000)]⟩,
    ⟨.freeV 0x6010, []⟩]

/-- 524 bytes are held, 64 of them kept; 463 were asked for. -/
theorem footprint_le_wasteful :
    let m := runEnd (fun m x => Metered.step (x64 true) m (Line.call x))
      (Metered.start 64 fun _ => 0) wastefulScript
    ((held m.sys.world.log).map Region.size).sum ≤ m.kept + 2 * m.asked + m.sys.world.pageSize ∧
      ((held m.sys.world.log).map Region.size).sum = 524 ∧ m.kept = 64 ∧ m.asked = 463 := by
  intro m
  have hruns : OkAlong (fun m x => Metered.step (x64 true) m (Line.call x))
        (fun m x => Line.Ok (x64 true) m.sys x) (Metered.start 64 fun _ => 0) wastefulScript ∧
      (runCalls (fun m x => Metered.step (x64 true) m (Line.call x))
        (Metered.start 64 fun _ => 0) wastefulScript).isSome := by decide +kernel
  obtain ⟨m', hm'⟩ := Option.isSome_iff_exists.mp hruns.2
  have hend : m = m' := by
    show (runCalls _ _ _).getD _ = m'
    rw [hm']
    rfl
  have hrun : Reach (Metered.step (x64 true)) (fun m c => Legal (x64 true) m.sys c)
      (Metered.start 64 fun _ => 0) ([] ++ wastefulScript.map Line.call) m' :=
    Reach.of_runCalls Line.call (fun hx => Line.legal _ _ hx) .nil hruns.1 hm'
  refine ⟨hend ▸ footprint_le hrun, ?_⟩
  decide +kernel

end MulleStorage.Arena
