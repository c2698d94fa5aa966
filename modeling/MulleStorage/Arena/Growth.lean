import MulleStorage.Arena.Header
import MulleStorage.Arena.Reclaim

/-!
# Growing the newest block

`_mulle_arena_realloc` and `_mulle_arena_reallocarray_v` extend the newest block
where it is when the page has room, and allocate otherwise. The room they look
for is the room an allocation of the final size would have looked for before the
block was there: both go by the block's start. And when neither finds it, both
ask for a page by the same size, and what `_mulle_arena_new_page` answers does
not depend on the cursor.

> `grow_eq_at_once`: an allocation that stays on its page, grown to a final size,
> leaves the arena an allocation of that size leaves.

What the two ways do not share is the alignment. An extension keeps the block
where it is, whatever it was aligned to:

> `realloc_aligned_iff`: `_mulle_arena_realloc` returns a pointer of the requested
> alignment unless it extends a block that has not got it.
-/

namespace MulleStorage.Arena

open MulleStorage.Lib

variable {t : Target} {sys : Nat → Option Nat}

/-! ## The requested alignment -/

/-- **Alignment of a resized block.** In any state, the pointer returned is a
multiple of the requested alignment if and only if the call does not extend its
block in place, or the block is such a multiple. -/
theorem realloc_aligned_iff {block oldSize newSize alignment p : Nat} {s s' : World}
    (hal : t.IsAlignment alignment)
    (h : realloc t sys block oldSize newSize alignment s = some (p, s')) :
    alignment ∣ p ↔
      (InPlace t s (.realloc block oldSize newSize alignment) → alignment ∣ block) := by
  by_cases hplace : InPlace t s (.realloc block oldSize newSize alignment)
  · -- extended: the block itself comes back
    rw [realloc_inPlace hplace] at h
    cases h
    exact ⟨fun hdvd _ => hdvd, fun himp => himp hplace⟩
  · rw [realloc_moved hplace] at h
    obtain ⟨⟨q, s₁⟩, halloc, hfill⟩ := Option.map_eq_some_iff.mp h
    cases hfill
    have hdvd := alloc_aligned hal halloc
    exact ⟨fun _ hyes => absurd hyes hplace, fun _ => hdvd⟩

/-- Two direct blocks of a byte and of eight. -/
def oddScript : List Line := [⟨.alloc 1 1, [(64, 0x1000)]⟩, ⟨.alloc 8 1, []⟩]

/-- The newer one stands in the way of a third, and moves to a multiple of 16. -/
theorem realloc_aligned_iff_moved :
    let s := (scriptEnd (x64 false) 64 (fun _ => 0) (oddScript ++ [⟨.alloc 1 1, []⟩])).world
    ∃ s', realloc (x64 false) (fun _ => none) 0x1001 8 9 16 s = some (0x1010, s') ∧
      (16 ∣ 0x1010 ↔ (InPlace (x64 false) s (.realloc 0x1001 8 9 16) → 16 ∣ 0x1001)) := by
  intro s
  have hexec : ((realloc (x64 false) (fun _ => none) 0x1001 8 9 16 s).map Prod.fst)
      = some 0x1010 := by decide +kernel
  obtain ⟨⟨p, s'⟩, hs, rfl⟩ := Option.map_eq_some_iff.mp hexec
  exact ⟨s', hs, realloc_aligned_iff ⟨4, by decide, rfl⟩ hs⟩

/-- Grown as the newest block, it stays where it is. -/
theorem realloc_misaligned :
    let σ := scriptEnd (x64 false) 64 (fun _ => 0) oddScript
    Reach (Sys.step (x64 false)) (fun σ c => Legal (x64 false) σ c ∧ c.op.IsDirect)
        (Sys.start 64 fun _ => 0) (oddScript.map Line.call) σ ∧
      Line.Ok (x64 false) σ ⟨.realloc 0x1001 8 9 16, []⟩ ∧
      (realloc (x64 false) (fun _ => none) 0x1001 8 9 16 σ.world).map Prod.fst = some 0x1001 ∧
      ¬ 16 ∣ 0x1001 :=
  ⟨reach_of_legal (Q := fun _ c => c.op.IsDirect) (by decide +kernel), by decide +kernel,
    by decide +kernel, by decide⟩

/-! ## Another page -/

/-- `s'` chooses a page the way `s` does. -/
structure SamePages (s s' : World) : Prop where
  pages : s'.pages = s.pages
  pageIndex : s'.pageIndex = s.pageIndex
  pageSize : s'.pageSize = s.pageSize

/-- The same page was entered; `_last`, memory and the log may differ. -/
structure SameOpened (s s' : World) : Prop extends SamePages s s' where
  current : s'.current = s.current
  sentinel : s'.sentinel = s.sentinel

/-- `_mulle_arena_new_page` looks at neither the cursor nor `_last`. -/
theorem newPage_congr {β : Type} {s s' : World} (h : SamePages s s') (need : Nat)
    {f : Nat × World → β}
    (hf : ∀ page s s', SameOpened s s' → f (page, s') = f (page, s)) :
    (newPage t sys need s').map f = (newPage t sys need s).map f := by
  unfold newPage
  rw [h.pages, h.pageIndex, h.pageSize]
  split
  next => exact congrArg some (hf _ _ _ ⟨⟨rfl, rfl, rfl⟩, rfl, rfl⟩)
  next =>
    dsimp only
    split
    next => rfl
    next => exact congrArg some (hf _ _ _ ⟨⟨rfl, rfl, rfl⟩, rfl, rfl⟩)

/-- A pointer and the arena it leaves, memory aside. -/
def outcome (r : Nat × World) : Nat × MulleArena := (r.1, r.2.toMulleArena)

/-- On states that choose the same page, allocations that enter another one come
out the same. -/
theorem alloc_congr {size alignment : Nat} {s s' : World} (hsame : SamePages s s')
    (h : ¬ FitsPage t s size alignment) (h' : ¬ FitsPage t s' size alignment) :
    (alloc t sys size alignment s').map outcome = (alloc t sys size alignment s).map outcome := by
  rw [alloc_elsewhere sys h, alloc_elsewhere sys h', Option.map_map, Option.map_map]
  apply newPage_congr hsame
  intro page r r' hopened
  show outcome (placeAligned t size alignment r') = outcome (placeAligned t size alignment r)
  simp only [outcome, placeAligned, hopened.pages, hopened.pageIndex, hopened.pageSize,
    hopened.current, hopened.sentinel]

theorem allocWithSizeHeader_congr {size : Nat} {s s' : World} (hsame : SamePages s s')
    (h : ¬ FitsPageV t s size) (h' : ¬ FitsPageV t s' size) :
    (allocWithSizeHeader t sys size s').map outcome
      = (allocWithSizeHeader t sys size s).map outcome := by
  rw [allocWithSizeHeader_elsewhere sys h, allocWithSizeHeader_elsewhere sys h', Option.map_map,
    Option.map_map]
  apply newPage_congr hsame
  intro page r r' hopened
  simp only [Function.comp_apply, outcome, placeHeader, World.storeSize, World.memset,
    hopened.pages, hopened.pageIndex, hopened.pageSize, hopened.current, hopened.sentinel]

/-! ## Resizing -/

/-- What is in the payload is no part of the outcome. -/
theorem map_fill_outcome (x : Option (Nat × World)) (op : Op) (m : Mem) :
    (x.map fun r => (r.1, op.fill t m r.1 r.2)).map outcome = x.map outcome := by
  cases x with
  | none => rfl
  | some r => simp only [Option.map_some, outcome, Op.fill_arena]

/-- A new vtable block on the current page. -/
theorem reallocarrayV_here {n size p : Nat} {s s' : World} (hpos : 0 < n * size)
    (hlt : n * size < t.modulus) (hfit : FitsPageV t s (n * size))
    (h : reallocarrayV t sys 0 n size s = some (p, s')) :
    t.add s.current t.sizeofSizeT = p ∧ (placeHeader t (n * size) s).2 = s' := by
  rw [reallocarrayV_null hpos hlt, allocWithSizeHeader_here sys hfit] at h
  have hplaced := Option.some.inj h
  exact ⟨congrArg Prod.fst hplaced, congrArg Prod.snd hplaced⟩

/-- A size that overflows ends in the allocator's `fail`. -/
theorem reallocarrayV_overflow {block n size : Nat} {s : World} (h : t.modulus ≤ n * size) :
    reallocarrayV t sys block n size s = none := by
  cases hr : reallocarrayV t sys block n size s with
  | none => rfl
  | some r => exact absurd (reallocarrayV_size hr).2 (Nat.not_lt.mpr h)

/-! ## Growing in one step or in two -/

/-- The cursor behind a direct block leaves no less room than the block takes. -/
theorem fitsPage_of_behind {size total alignment : Nat} {s : World} (hal : t.IsAlignment alignment)
    (hfit : FitsPage t s size alignment) (hnw : AllocNoWrap t s size alignment)
    (hbehind : FitsPage t (placeAligned t size alignment s).2 total alignment)
    (hnw' : AllocNoWrap t (placeAligned t size alignment s).2 total alignment) :
    FitsPage t s total alignment := by
  unfold AllocNoWrap at hnw hnw'
  rw [if_pos hfit] at hnw
  rw [if_pos hbehind] at hnw'
  have hcurrent : (placeAligned t size alignment s).2.current
      = alignPointer t s.current alignment + size := Target.add_eq hnw.2
  have hsentinel : (placeAligned t size alignment s).2.sentinel = s.sentinel := rfl
  unfold FitsPage at hbehind ⊢
  rw [hcurrent] at hbehind hnw'
  rw [alignPointer_eq hal hnw'.1] at hbehind hnw'
  have hup := le_alignUp hal.pos (alignPointer t s.current alignment + size)
  rw [Target.add_eq hnw'.2] at hbehind
  rw [Target.add_eq (by omega)]
  omega

/-- **Direct blocks.** -/
theorem realloc_eq_alloc {s₁ s₂ alignment p : Nat} {s s' : World} (hp : p ≠ 0)
    (hal : t.IsAlignment alignment) (hnw : AllocNoWrap t s s₁ alignment)
    (hfit : FitsPage t s s₁ alignment) (halloc : alloc t sys s₁ alignment s = some (p, s'))
    (hgrow : NoWrap t s' (.realloc p s₁ s₂ alignment)) :
    (realloc t sys p s₁ s₂ alignment s').map outcome = (alloc t sys s₂ alignment s).map outcome := by
  rw [alloc_here sys hfit] at halloc
  have hplaced := Option.some.inj halloc
  obtain rfl : alignPointer t s.current alignment = p := congrArg Prod.fst hplaced
  obtain rfl : (placeAligned t s₁ alignment s).2 = s' := congrArg Prod.snd hplaced
  by_cases hroom : FitsPage t s s₂ alignment
  · -- the room an allocation of `s₂` finds is the room the extension finds
    have hplace : InPlace t (placeAligned t s₁ alignment s).2
        (.realloc (alignPointer t s.current alignment) s₁ s₂ alignment) := ⟨hp, rfl, hroom⟩
    rw [alloc_here sys hroom, realloc_inPlace hplace]
    rfl
  · have hmoved : ¬ InPlace t (placeAligned t s₁ alignment s).2
        (.realloc (alignPointer t s.current alignment) s₁ s₂ alignment) :=
      fun hplace => hroom hplace.2.2
    dsimp only [NoWrap] at hgrow
    rw [if_neg hmoved] at hgrow
    -- nor is there room behind the first block
    have hbehind : ¬ FitsPage t (placeAligned t s₁ alignment s).2 s₂ alignment := fun hbehind =>
      hroom (fitsPage_of_behind hal hfit hnw hbehind hgrow)
    have hsame : SamePages s (placeAligned t s₁ alignment s).2 := ⟨rfl, rfl, rfl⟩
    rw [realloc_moved hmoved, map_fill_outcome, alloc_congr hsame hroom hbehind]

/-- The cursor behind a vtable block leaves no less room than the block takes. -/
theorem fitsPageV_of_behind {total size : Nat} {s : World} (hfit : FitsPageV t s size)
    (hnw : HeaderNoWrap t s size) (hsize : 0 < size)
    (hbehind : FitsPageV t (placeHeader t size s).2 total)
    (hnw' : HeaderNoWrap t (placeHeader t size s).2 total) : FitsPageV t s total := by
  unfold HeaderNoWrap at hnw hnw'
  rw [if_pos hfit] at hnw
  rw [if_pos hbehind] at hnw'
  have huser : t.add s.current t.sizeofSizeT = s.current + t.sizeofSizeT :=
    Target.add_eq (by omega)
  have hcurrent : (placeHeader t size s).2.current
      = alignUp t.defaultAlignment (s.current + t.sizeofSizeT + size) - t.sizeofSizeT := by
    rw [placeHeader_eq hnw]
  have hup := le_alignUp t.defaultAlignment_pos (s.current + t.sizeofSizeT + size)
  have hroom : t.add (t.add (placeHeader t size s).2.current t.sizeofSizeT) total ≤ s.sentinel :=
    hbehind.1
  rw [Target.add_eq (b := t.sizeofSizeT) (by omega), Target.add_eq hnw'] at hroom
  refine ⟨?_, hfit.2⟩
  rw [huser, Target.add_eq (by omega)]
  omega

/-- **Vtable blocks.** -/
theorem reallocarrayV_eq_reallocarrayV {n₁ k₁ n₂ k₂ p : Nat} {s s' : World} (hp : p ≠ 0)
    (hpos₁ : 0 < n₁ * k₁) (hlt₁ : n₁ * k₁ < t.modulus) (hpos₂ : 0 < n₂ * k₂)
    (hlt₂ : n₂ * k₂ < t.modulus) (hnw : HeaderNoWrap t s (n₁ * k₁))
    (hfit : FitsPageV t s (n₁ * k₁))
    (halloc : reallocarrayV t sys 0 n₁ k₁ s = some (p, s'))
    (hgrow : NoWrap t s' (.reallocarrayV p n₂ k₂)) :
    (reallocarrayV t sys p n₂ k₂ s').map outcome
      = (reallocarrayV t sys 0 n₂ k₂ s).map outcome := by
  obtain ⟨rfl, rfl⟩ := reallocarrayV_here hpos₁ hlt₁ hfit halloc
  rw [reallocarrayV_null hpos₂ hlt₂]
  by_cases hroom : FitsPageV t s (n₂ * k₂)
  · have hplace : InPlace t (placeHeader t (n₁ * k₁) s).2
        (.reallocarrayV (t.add s.current t.sizeofSizeT) n₂ k₂) := ⟨hp, rfl, hroom.1⟩
    rw [reallocarrayV_inPlace hpos₂ hlt₂ hplace, allocWithSizeHeader_here sys hroom]
    rfl
  · have hmoved : ¬ InPlace t (placeHeader t (n₁ * k₁) s).2
        (.reallocarrayV (t.add s.current t.sizeofSizeT) n₂ k₂) :=
      fun hplace => hroom ⟨hplace.2.2, hfit.2⟩
    have hgrow' := hgrow hlt₂
    rw [if_neg hmoved] at hgrow'
    -- nor is there room behind the first block
    have hbehind : ¬ FitsPageV t (placeHeader t (n₁ * k₁) s).2 (n₂ * k₂) := fun hbehind =>
      hroom (fitsPageV_of_behind hfit hnw hpos₁ hbehind hgrow')
    have hsame : SamePages s ((Op.reallocarrayV (t.add s.current t.sizeofSizeT) n₂ k₂).probe t
        (placeHeader t (n₁ * k₁) s).2) := by
      constructor <;> rw [Op.probe_arena] <;> rfl
    rw [reallocarrayV_moved hpos₂ hlt₂ hmoved, map_fill_outcome,
      allocWithSizeHeader_congr hsame hroom (mt (Op.fitsPageV_probe _ _ _).mp hbehind)]

/-! ## Runs -/

/-- A pointer, the arena it leaves, and the size in front of the block. -/
def outcomeV (t : Target) (r : Nat × World) : (Nat × MulleArena) × Nat :=
  (outcome r, loadWord r.2.mem (r.1 - t.sizeofSizeT) t.sizeofSizeT)

/-- Two calls that come out the same, but for the word in front of the block. -/
theorem map_outcomeV {x y : Option (Nat × World)} {size : Nat} (h : x.map outcome = y.map outcome)
    (hx : ∀ r, x = some r → loadWord r.2.mem (r.1 - t.sizeofSizeT) t.sizeofSizeT = size)
    (hy : ∀ r, y = some r → loadWord r.2.mem (r.1 - t.sizeofSizeT) t.sizeofSizeT = size) :
    x.map (outcomeV t) = y.map (outcomeV t) := by
  cases x with
  | none =>
    cases y with
    | none => rfl
    | some r => nomatch h
  | some r =>
    cases y with
    | none => nomatch h
    | some r' =>
      have hsame : outcome r = outcome r' := Option.some.inj h
      simp only [Option.map_some, outcomeV, hsame, hx r rfl, hy r' rfl]

variable {pageSize : Nat} {mem : Mem} {l : List Call} {σ : Sys}

/-- The client may resize a block right after it got it on the current page. -/
theorem legal_resize {n₁ k₁ n₂ k₂ p : Nat} {s : World} (hinv : Inv t σ)
    (hlegal₁ : Legal t σ ⟨.reallocarrayV 0 n₁ k₁, sys⟩)
    (hlegal₂ : Legal t σ ⟨.reallocarrayV 0 n₂ k₂, sys⟩)
    (halloc : reallocarrayV t sys 0 n₁ k₁ σ.world = some (p, s))
    (hheld : held s.log = held σ.world.log) (hgrow : NoWrap t s (.reallocarrayV p n₂ k₂)) :
    ∃ τ : Sys, τ.world = s ∧ Inv t τ ∧ Legal t τ ⟨.reallocarrayV p n₂ k₂, sys⟩ := by
  have hexec : exec t sys (.reallocarrayV 0 n₁ k₁) σ.world = some (some p, s) := by
    simp only [exec, halloc, Option.map_some]
  have heff := exec_effect (c := ⟨.reallocarrayV 0 n₁ k₁, sys⟩) hinv hlegal₁ hexec
  have hworld := Sys.record_world t σ (.reallocarrayV 0 n₁ k₁) (some p, s)
  obtain ⟨b, hb, his, -⟩ := heff.returned
  refine ⟨_, hworld, heff.inv hinv, ?_, ⟨Or.inr ⟨b, hb, his⟩, hlegal₂.proper.2⟩, ?_⟩
  · unfold SysOk
    rw [hworld, hheld]
    exact hlegal₁.sys
  · rw [hworld]
    exact hgrow

/-- **Growing is allocating at once.** In every state a run reaches, an
allocation that stays on the current page, resized right away, returns the
pointer and leaves the arena that an allocation of the final size would have
returned and left, and puts the same size in front of a vtable block; `sys` are
the default allocator's answers in that state, whatever it is asked for. -/
theorem grow_eq_at_once (h : Reach (Sys.step t) (Legal t) (Sys.start pageSize mem) l σ)
    (sys : Nat → Option Nat) :
    (∀ s₁ s₂ alignment p s, FitsPage t σ.world s₁ alignment →
      Legal t σ ⟨.alloc s₁ alignment, sys⟩ → Legal t σ ⟨.alloc s₂ alignment, sys⟩ →
      alloc t sys s₁ alignment σ.world = some (p, s) →
      NoWrap t s (.realloc p s₁ s₂ alignment) →
      (realloc t sys p s₁ s₂ alignment s).map outcome
        = (alloc t sys s₂ alignment σ.world).map outcome) ∧
    ∀ n₁ k₁ n₂ k₂ p s, FitsPageV t σ.world (n₁ * k₁) →
      Legal t σ ⟨.reallocarrayV 0 n₁ k₁, sys⟩ → Legal t σ ⟨.reallocarrayV 0 n₂ k₂, sys⟩ →
      reallocarrayV t sys 0 n₁ k₁ σ.world = some (p, s) →
      NoWrap t s (.reallocarrayV p n₂ k₂) →
      (reallocarrayV t sys p n₂ k₂ s).map (outcomeV t)
        = (reallocarrayV t sys 0 n₂ k₂ σ.world).map (outcomeV t) := by
  have hinv := reach_inv id h
  constructor
  · intro s₁ s₂ alignment p s hfit hlegal₁ hlegal₂ halloc hgrow
    have hproper : 0 < s₁ ∧ s₁ < t.modulus ∧ t.IsAlignment alignment := hlegal₁.proper
    have hcarved := alloc_carved hinv.pages hlegal₁.sys hproper.1 hproper.2.2 hlegal₁.noWrap halloc
    exact realloc_eq_alloc (Nat.ne_of_gt hcarved.pos.2) hproper.2.2 hlegal₁.noWrap hfit halloc
      hgrow
  · intro n₁ k₁ n₂ k₂ p s hfit hlegal₁ hlegal₂ halloc hgrow
    obtain ⟨hpos₁, hlt₁⟩ := reallocarrayV_size halloc
    have hpos₂ : 0 < n₂ * k₂ := hlegal₂.proper.2.1
    rcases Nat.lt_or_ge (n₂ * k₂) t.modulus with hlt₂ | hover
    · have hnw : HeaderNoWrap t σ.world (n₁ * k₁) := by
        have hnw := hlegal₁.noWrap hlt₁
        rwa [if_neg fun hplace => hplace.1 rfl] at hnw
      have hheader := halloc
      rw [reallocarrayV_null hpos₁ hlt₁] at hheader
      have hcarved := allocWithSizeHeader_carved hinv.pages hlegal₁.sys hpos₁ hnw hheader
      have heq := reallocarrayV_eq_reallocarrayV (Nat.ne_of_gt hcarved.pos.2) hpos₁ hlt₁ hpos₂ hlt₂
        hnw hfit halloc hgrow
      obtain ⟨-, rfl⟩ := reallocarrayV_here hpos₁ hlt₁ hfit halloc
      obtain ⟨τ, hworld, hτ, hlegal⟩ := legal_resize hinv hlegal₁ hlegal₂ halloc rfl hgrow
      refine map_outcomeV heq (fun r hr => ?_) (fun r hr => reallocarrayV_word hinv hlegal₂ hr)
      exact reallocarrayV_word hτ hlegal (by rw [hworld]; exact hr)
    · rw [reallocarrayV_overflow hover, reallocarrayV_overflow hover]

/-- A vtable block on a page of 96 bytes. -/
def growthScript : List Line := [⟨.callocV 1 20, [(96, 0x1000)]⟩]

/-- Behind it, 8 bytes at 16 grow to 20 in place, and 5 bytes of a vtable block
to 120 on an oversized page. -/
theorem grow_eq_at_once_both :
    let t := x64 false
    let s := (scriptEnd t 96 (fun _ => 0) growthScript).world
    let sys := fun n => [(136, 0x2000)].lookup n
    ∃ s₁ s₂, alloc t sys 8 16 s = some (0x1030, s₁) ∧
      reallocarrayV t sys 0 5 1 s = some (0x1030, s₂) ∧
      (realloc t sys 0x1030 8 20 16 s₁).map outcome = (alloc t sys 20 16 s).map outcome ∧
      (reallocarrayV t sys 0x1030 15 8 s₂).map (outcomeV t)
        = (reallocarrayV t sys 0 15 8 s).map (outcomeV t) := by
  intro t s sys
  have hreach : Reach (Sys.step t) (Legal t) (Sys.start 96 fun _ => 0)
      (growthScript.map Line.call) (scriptEnd t 96 (fun _ => 0) growthScript) :=
    reach_of_script Line.legal (by decide +kernel)
  have hgrow := grow_eq_at_once hreach sys
  have hdirect : ((alloc t sys 8 16 s).map fun r =>
      (r.1, decide (NoWrap t r.2 (.realloc 0x1030 8 20 16)))) = some (0x1030, true) := by
    decide +kernel
  have hvtable : ((reallocarrayV t sys 0 5 1 s).map fun r =>
      (r.1, decide (NoWrap t r.2 (.reallocarrayV 0x1030 15 8)))) = some (0x1030, true) := by
    decide +kernel
  obtain ⟨⟨p₁, s₁⟩, hs₁, heq₁⟩ := Option.map_eq_some_iff.mp hdirect
  obtain ⟨⟨p₂, s₂⟩, hs₂, heq₂⟩ := Option.map_eq_some_iff.mp hvtable
  obtain ⟨rfl, hnw₁⟩ := Prod.mk.inj heq₁
  obtain ⟨rfl, hnw₂⟩ := Prod.mk.inj heq₂
  refine ⟨s₁, s₂, hs₁, hs₂, ?_, ?_⟩
  · exact hgrow.1 8 20 16 0x1030 s₁ (by decide +kernel)
      (Line.legal _ ⟨.alloc 8 16, [(136, 0x2000)]⟩ (by decide +kernel))
      (Line.legal _ ⟨.alloc 20 16, [(136, 0x2000)]⟩ (by decide +kernel)) hs₁
      (of_decide_eq_true hnw₁)
  · exact hgrow.2 5 1 15 8 0x1030 s₂ (by decide +kernel)
      (Line.legal _ ⟨.reallocarrayV 0 5 1, [(136, 0x2000)]⟩ (by decide +kernel))
      (Line.legal _ ⟨.reallocarrayV 0 15 8, [(136, 0x2000)]⟩ (by decide +kernel)) hs₂
      (of_decide_eq_true hnw₂)

end MulleStorage.Arena
