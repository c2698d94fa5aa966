import MulleStorage.Arena.Effect
import MulleStorage.Arena.Script

/-!
# Pages kept by a reset

A reset may keep pages, and `_mulle_arena_new_page` enters the next one of them
before it asks the default allocator for another. An oversized request cannot be
served by a kept page: its page is appended behind all others and entered, and
with it `_page_index` leaves the kept pages in between behind.

Which pages there are, which one is current and which have been is a matter of
`_mulle_arena_new_page` and the resets alone, so nothing is assumed here about
addresses, sizes or the default allocator. `Paging` is the part of the state
that matters, `exec_paged` what a call does to it.

> `kept_pages_first_iff`: while no oversized request comes before the last kept
> page is entered, every page has been current before a page is bought for a
> regular request; and the next call keeps that up exactly when it is none such.
-/

namespace MulleStorage.Arena

open MulleStorage.Lib

variable {t : Target}

/-! ## What a call asks for -/

/-- The size `_mulle_arena_alloc` asks of a new page, when it needs one. -/
def allocRequest (t : Target) (s : World) (size alignment : Nat) : Option Nat :=
  if FitsPage t s size alignment then none else some (t.sub (t.add size alignment) 1)

/-- The same for `_mulle_arena_alloc_with_size_header`. -/
def headerRequest (t : Target) (s : World) (size : Nat) : Option Nat :=
  if FitsPageV t s size then none
  else some (t.add (t.add t.sizeofSizeT size) (t.defaultAlignment - t.sizeofSizeT))

/-- The size a call asks of `_mulle_arena_new_page`, when it needs a new page and
gets as far as that. -/
def Op.request (t : Target) (s : World) : Op → Option Nat
  | .alloc size alignment | .calloc size alignment => allocRequest t s size alignment
  | .memdup _ size => allocRequest t s size 1
  | .strdup str =>
    (strlen s.mem str t.modulus).bind fun len => allocRequest t s (t.add len 1) 1
  | .realloc block oldSize newSize alignment =>
    if InPlace t s (.realloc block oldSize newSize alignment) then none
    else allocRequest t s newSize alignment
  | .callocV n size => headerRequest t s (n * size)
  | .reallocarrayV block n size =>
    if InPlace t s (.reallocarrayV block n size) then none else headerRequest t s (n * size)
  | _ => none

/-- The call makes no oversized request while pages kept by the last reset have
not been entered. -/
def KeptFirst (t : Target) (s : World) (op : Op) : Prop :=
  ∀ need ∈ op.request t s, s.pageSize < need → s.pages.length ≤ s.pageIndex + 1

instance (s : World) (op : Op) : Decidable (KeptFirst t s op) :=
  inferInstanceAs (Decidable (∀ need ∈ op.request t s, _))

/-! ## Pages in the log -/

/-- The number of pages the last reset kept. -/
def keptCount : List Event → Nat
  | [] => 0
  | .rewound :: log => (obtainedPages log).length - (returnedPages log).length
  | _ :: log => keptCount log

/-- The regions obtained since the last reset, newest first. -/
def bought : List Event → List Region
  | [] => []
  | .obtained r :: log => r :: bought log
  | .rewound :: _ => []
  | _ :: log => bought log

/-- The number of pages obtained since the last reset for oversized requests. -/
def oversizedCount (s : World) : Nat :=
  (bought s.log).countP fun r => s.pageSize < r.size

/-- What `_mulle_arena_new_page` and the resets go by and leave behind. -/
structure Paging where
  pages : List Nat
  pageSize : Nat
  pageIndex : Nat
  entries : List Nat
  bought : List Region
  kept : Nat
  obtained : Nat
  returned : Nat

/-- The paging of an arena. -/
def World.paging (s : World) : Paging where
  pages := s.pages
  pageSize := s.pageSize
  pageIndex := s.pageIndex
  entries := entries s.log
  bought := bought s.log
  kept := keptCount s.log
  obtained := (obtainedPages s.log).length
  returned := (returnedPages s.log).length

/-- What a request, or none, does to the paging. -/
inductive Paged (sys : Nat → Option Nat) (P : Paging) : Option Nat → Paging → Prop
  | stayed : Paged sys P none P
  | entered {need : Nat} (hneed : need ≤ P.pageSize) (hindex : P.pageIndex + 1 < P.pages.length) :
      Paged sys P (some need) { P with
        pageIndex := P.pageIndex + 1
        entries := (P.pageIndex + 1) :: P.entries }
  | bought {need size page : Nat}
      (hnone : P.pageSize < need ∨ P.pages.length ≤ P.pageIndex + 1)
      (hsize : size = if need > P.pageSize then need else P.pageSize)
      (hpage : sys size = some page) :
      Paged sys P (some need) { P with
        pages := P.pages ++ [page]
        pageIndex := P.pages.length
        entries := P.pages.length :: P.entries
        bought := ⟨page, size⟩ :: P.bought
        obtained := P.obtained + 1 }

/-! ## One call -/

theorem newPage_paged {sys : Nat → Option Nat} {need page : Nat} {s s' : World}
    (h : newPage t sys need s = some (page, s')) :
    Paged sys s.paging (some need) s'.paging := by
  unfold newPage at h
  split at h
  next hkept =>
    cases h
    exact .entered hkept.1 hkept.2
  next hnone =>
    dsimp only at h
    split at h
    next => cases h
    next p hp =>
      cases h
      exact .bought (by simp only [World.paging]; omega) rfl hp

theorem alloc_paged {sys : Nat → Option Nat} {size alignment p : Nat} {s s' : World}
    (h : alloc t sys size alignment s = some (p, s')) :
    Paged sys s.paging (allocRequest t s size alignment) s'.paging := by
  unfold allocRequest
  by_cases hfit : FitsPage t s size alignment
  · rw [alloc_here sys hfit] at h
    cases h
    rw [if_pos hfit]
    exact .stayed
  · rw [alloc_elsewhere sys hfit] at h
    obtain ⟨⟨page, s₁⟩, hpage, hplaced⟩ := Option.map_eq_some_iff.mp h
    cases hplaced
    have hpaged := newPage_paged hpage
    rw [if_neg hfit]
    exact hpaged

theorem allocWithSizeHeader_paged {sys : Nat → Option Nat} {size p : Nat} {s s' : World}
    (h : allocWithSizeHeader t sys size s = some (p, s')) :
    Paged sys s.paging (headerRequest t s size) s'.paging := by
  unfold headerRequest
  by_cases hfit : FitsPageV t s size
  · rw [allocWithSizeHeader_here sys hfit] at h
    cases h
    rw [if_pos hfit]
    exact .stayed
  · rw [allocWithSizeHeader_elsewhere sys hfit] at h
    obtain ⟨⟨page, s₁⟩, hpage, hplaced⟩ := Option.map_eq_some_iff.mp h
    cases hplaced
    have hpaged := newPage_paged hpage
    rw [if_neg hfit]
    exact hpaged

/-- Neither a fill nor reading a header pages. -/
theorem Op.fill_paging (op : Op) (m : Mem) (p : Nat) (s : World) :
    (op.fill t m p s).paging = s.paging := by
  cases op with
  | realloc => simp only [Op.fill]; split <;> rfl
  | reallocarrayV => simp only [Op.fill]; split <;> rfl
  | _ => rfl

theorem Op.probe_paging (op : Op) (s : World) : (op.probe t s).paging = s.paging := by
  cases op with
  | reallocarrayV => simp only [Op.probe]; split <;> rfl
  | _ => rfl

/-- An allocation that is filled pages as it did before. -/
theorem filled_paged {sys : Nat → Option Nat} {P : Paging} {request : Option Nat}
    {x : Option (Nat × World)} {op : Op} {m : Mem} {p : Nat} {s' : World}
    (hx : ∀ q s, x = some (q, s) → Paged sys P request s.paging)
    (h : (x.map fun r => (r.1, op.fill t m r.1 r.2)) = some (p, s')) :
    Paged sys P request s'.paging := by
  obtain ⟨⟨q, s⟩, halloc, hfill⟩ := Option.map_eq_some_iff.mp h
  cases hfill
  rw [Op.fill_paging]
  exact hx q s halloc

theorem memdup_paged {sys : Nat → Option Nat} {src size p : Nat} {s s' : World}
    (h : memdup t sys src size s = some (p, s')) :
    Paged sys s.paging (allocRequest t s size 1) s'.paging := by
  rw [memdup_eq] at h
  exact filled_paged (fun _ _ => alloc_paged) h

theorem realloc_paged {sys : Nat → Option Nat} {block oldSize newSize alignment p : Nat}
    {s s' : World} (h : realloc t sys block oldSize newSize alignment s = some (p, s')) :
    Paged sys s.paging ((Op.realloc block oldSize newSize alignment).request t s) s'.paging := by
  simp only [Op.request]
  by_cases hplace : InPlace t s (.realloc block oldSize newSize alignment)
  · rw [realloc_inPlace hplace] at h
    cases h
    rw [if_pos hplace]
    exact .stayed
  · rw [realloc_moved hplace] at h
    rw [if_neg hplace]
    exact filled_paged (fun _ _ => alloc_paged) h

theorem reallocarrayV_paged {sys : Nat → Option Nat} {block n size p : Nat} {s s' : World}
    (h : reallocarrayV t sys block n size s = some (p, s')) :
    Paged sys s.paging ((Op.reallocarrayV block n size).request t s) s'.paging := by
  obtain ⟨hpos, hlt⟩ := reallocarrayV_size h
  simp only [Op.request]
  by_cases hplace : InPlace t s (.reallocarrayV block n size)
  · rw [reallocarrayV_inPlace hpos hlt hplace] at h
    cases h
    rw [if_pos hplace]
    exact .stayed
  · rw [reallocarrayV_moved hpos hlt hplace] at h
    rw [if_neg hplace]
    refine filled_paged (fun q s₁ halloc => ?_) h
    have hpaged := allocWithSizeHeader_paged halloc
    simp only [headerRequest, Op.fitsPageV_probe, Op.probe_paging] at hpaged
    exact hpaged

theorem callocV_paged {sys : Nat → Option Nat} {n size p : Nat} {s s' : World}
    (h : callocV t sys n size s = some (p, s')) :
    Paged sys s.paging (headerRequest t s (n * size)) s'.paging := by
  obtain ⟨hpos, hlt⟩ := callocV_size h
  rw [callocV_eq hpos hlt] at h
  exact filled_paged (fun _ _ => allocWithSizeHeader_paged) h

/-- A `free` does not page. -/
theorem freeV_paging (block : Nat) (s : World) : (freeV t block s).paging = s.paging := by
  by_cases hnull : block = 0
  · rw [hnull]
    rfl
  · by_cases hlast : t.sub block t.sizeofSizeT = s.last
    · rw [freeV_newest hnull hlast]
      split <;> rfl
    · rw [freeV_other hlast]

/-- **Inversion.** A call resets the arena, or pages as its request says. -/
theorem exec_paged {sys : Nat → Option Nat} {op : Op} {s : World} {r : Option Nat × World}
    (h : exec t sys op s = some r) :
    (∃ keepCount, op.IsReset ∧ r.2 = resetKeepPages t keepCount s) ∨
      Paged sys s.paging (op.request t s) r.2.paging := by
  cases op with
  | alloc size alignment =>
    obtain ⟨⟨p, s'⟩, hr, rfl⟩ := Option.map_eq_some_iff.mp h
    exact Or.inr (alloc_paged hr)
  | calloc size alignment =>
    obtain ⟨⟨p, s'⟩, hr, rfl⟩ := Option.map_eq_some_iff.mp h
    rw [calloc_eq] at hr
    exact Or.inr (filled_paged (fun _ _ => alloc_paged) hr)
  | memdup src size =>
    obtain ⟨⟨p, s'⟩, hr, rfl⟩ := Option.map_eq_some_iff.mp h
    exact Or.inr (memdup_paged hr)
  | strdup str =>
    obtain ⟨⟨p, s'⟩, hr, rfl⟩ := Option.map_eq_some_iff.mp h
    obtain ⟨len, hlen, hdup⟩ := strdup_eq hr
    simp only [Op.request, hlen, Option.bind_some]
    exact Or.inr (memdup_paged hdup)
  | realloc block oldSize newSize alignment =>
    obtain ⟨⟨p, s'⟩, hr, rfl⟩ := Option.map_eq_some_iff.mp h
    exact Or.inr (realloc_paged hr)
  | callocV n size =>
    obtain ⟨⟨p, s'⟩, hr, rfl⟩ := Option.map_eq_some_iff.mp h
    exact Or.inr (callocV_paged hr)
  | reallocarrayV block n size =>
    obtain ⟨⟨p, s'⟩, hr, rfl⟩ := Option.map_eq_some_iff.mp h
    exact Or.inr (reallocarrayV_paged hr)
  | freeV block =>
    cases h
    dsimp only
    rw [freeV_paging]
    exact Or.inr .stayed
  | reset =>
    cases h
    exact Or.inl ⟨0, trivial, rfl⟩
  | resetKeepPages keepCount =>
    cases h
    exact Or.inl ⟨keepCount, trivial, rfl⟩
  | resetKeepPercentage percent =>
    cases h
    exact Or.inl ⟨_, trivial, rfl⟩
  | write p bytes =>
    cases h
    exact Or.inr .stayed

/-- A reset of an arena with pages. -/
theorem resetKeepPages_paging (t : Target) (keepCount : Nat) {s : World} (hne : s.pages ≠ []) :
    (resetKeepPages t keepCount s).paging = { s.paging with
      pages := s.pages.take keepCount
      pageIndex := 0
      entries := if keepCount = 0 then [] else [0]
      bought := []
      kept := (obtainedPages s.log).length
        - ((returnedPages s.log).length + (s.pages.drop keepCount).length)
      returned := (returnedPages s.log).length + (s.pages.drop keepCount).length } := by
  obtain ⟨-, hret, hobt, -⟩ := touchAll_spec (s.pages.take keepCount) s.pageSize
    (returnAll (s.pages.drop keepCount) s.log)
  rw [returnedPages_returnAll] at hret
  rw [obtainedPages_returnAll] at hobt
  have hretlen := congrArg List.length hret
  rw [List.length_append, List.length_reverse, Nat.add_comm] at hretlen
  rw [resetKeepPages_eq, if_neg hne]
  dsimp only
  generalize touchAll (s.pages.take keepCount) s.pageSize
    (returnAll (s.pages.drop keepCount) s.log) = log at hretlen hobt ⊢
  by_cases hk : keepCount = 0
  · simp [World.paging, hk, bought, keptCount, obtainedPages, returnedPages, hobt, hretlen]
  · simp [World.paging, hk, bought, keptCount, obtainedPages, returnedPages, hobt, hretlen]

/-! ## The invariant -/

/-- The pages entered since the last reset are the first ones up to the current
one, and pages were bought for regular requests only once the kept ones had been
entered. -/
structure KeptInv (P : Paging) : Prop where
  empty : P.pages = [] → P.pageIndex = 0
  index : P.pages ≠ [] → P.pageIndex < P.pages.length
  entered_le : ∀ i ∈ P.entries, i ≤ P.pageIndex
  entered : P.pages ≠ [] → ∀ i, i ≤ P.pageIndex → i ∈ P.entries
  count : P.pages.length = P.kept + P.bought.length
  ledger : P.obtained = P.returned + P.pages.length
  regular : ∀ r ∈ P.bought, r.size ≤ P.pageSize → ∀ i, i < P.kept → i ∈ P.entries

namespace KeptInv

variable {P : Paging}

theorem start (pageSize : Nat) (mem : Mem) : KeptInv (init pageSize mem).paging where
  empty _ := rfl
  index hne := absurd rfl hne
  entered_le := nofun
  entered hne := absurd rfl hne
  count := rfl
  ledger := rfl
  regular := nofun

/-- With the last kept page entered, every page has been current. -/
theorem all_entered (h : KeptInv P) (hlast : P.pages.length ≤ P.pageIndex + 1) :
    ∀ i, i < P.pages.length → i ∈ P.entries := fun i hi =>
  h.entered (List.ne_nil_of_length_pos (by omega)) i (by omega)

/-- The page after the current one has not been current. -/
theorem next_not_entered (h : KeptInv P) : P.pageIndex + 1 ∉ P.entries := fun hmem =>
  absurd (h.entered_le _ hmem) (Nat.not_succ_le_self _)

/-- The next kept page is entered. -/
theorem enter (h : KeptInv P) (hindex : P.pageIndex + 1 < P.pages.length) :
    KeptInv { P with
      pageIndex := P.pageIndex + 1
      entries := (P.pageIndex + 1) :: P.entries } where
  empty hnil := by
    dsimp only at hnil
    rw [hnil] at hindex
    exact absurd hindex (Nat.not_lt_zero _)
  index _ := hindex
  entered_le := List.forall_mem_cons.mpr
    ⟨Nat.le_refl _, fun i hi => Nat.le_succ_of_le (h.entered_le i hi)⟩
  entered hne i hi := by
    rcases Nat.lt_or_eq_of_le hi with hlt | rfl
    · exact List.mem_cons_of_mem _ (h.entered hne i (Nat.le_of_lt_succ hlt))
    · exact List.mem_cons_self
  count := h.count
  ledger := h.ledger
  regular r hr hsize i hi := List.mem_cons_of_mem _ (h.regular r hr hsize i hi)

/-- A page is bought, with no kept page left. -/
theorem buy (h : KeptInv P) (hlast : P.pages.length ≤ P.pageIndex + 1) (page size : Nat) :
    KeptInv { P with
      pages := P.pages ++ [page]
      pageIndex := P.pages.length
      entries := P.pages.length :: P.entries
      bought := ⟨page, size⟩ :: P.bought
      obtained := P.obtained + 1 } where
  empty hnil := absurd hnil (by simp)
  index _ := by simp
  entered_le := by
    refine List.forall_mem_cons.mpr ⟨Nat.le_refl _, ?_⟩
    intro i hi
    have hle := h.entered_le i hi
    by_cases hnil : P.pages = []
    · rw [h.empty hnil] at hle
      omega
    · have := h.index hnil
      dsimp only
      omega
  entered _ i hi := by
    rcases Nat.lt_or_eq_of_le hi with hlt | rfl
    · exact List.mem_cons_of_mem _ (h.all_entered hlast i hlt)
    · exact List.mem_cons_self
  count := by
    have := h.count
    simp only [List.length_append, List.length_cons, List.length_nil]
    omega
  ledger := by
    have := h.ledger
    simp only [List.length_append, List.length_cons, List.length_nil]
    omega
  regular r _ _ i hi := by
    have hcount := h.count
    exact List.mem_cons_of_mem _ (h.all_entered hlast i (by dsimp only at hi; omega))

/-- A reset of an arena with pages. -/
theorem reset {s : World} (h : KeptInv s.paging) (t : Target) (keepCount : Nat) :
    KeptInv (resetKeepPages t keepCount s).paging := by
  by_cases hnil : s.pages = []
  · rw [resetKeepPages_eq, if_pos hnil]
    exact h
  · have hledger : (obtainedPages s.log).length
        = (returnedPages s.log).length + s.pages.length := h.ledger
    have hsplit : (s.pages.take keepCount).length + (s.pages.drop keepCount).length
        = s.pages.length := by
      rw [← List.length_append, List.take_append_drop]
    rw [resetKeepPages_paging t keepCount hnil]
    exact {
      empty := fun _ => rfl
      index := fun hne => List.length_pos_iff.mpr hne
      entered_le := by
        intro i hi
        dsimp only at hi
        split at hi <;> simp_all
      entered := by
        intro hne i hi
        have hk : keepCount ≠ 0 := fun hk => hne (by simp [hk])
        dsimp only at hi ⊢
        rw [if_neg hk, Nat.le_zero.mp hi]
        exact List.mem_singleton_self 0
      count := by
        simp only [List.length_nil]
        omega
      ledger := by
        show (obtainedPages s.log).length = _
        dsimp only
        omega
      regular := nofun }

end KeptInv

/-- **Step.** A call that keeps to the rule keeps the invariant. -/
theorem exec_keptInv {sys : Nat → Option Nat} {op : Op} {s : World} {r : Option Nat × World}
    (h : exec t sys op s = some r) (hinv : KeptInv s.paging) (hok : KeptFirst t s op) :
    KeptInv r.2.paging := by
  rcases exec_paged h with ⟨keepCount, -, hreset⟩ | hpaged
  · rw [hreset]
    exact hinv.reset t keepCount
  · unfold KeptFirst at hok
    generalize op.request t s = request at hpaged hok
    generalize hP : r.2.paging = P at hpaged ⊢
    cases hpaged with
    | stayed => exact hinv
    | entered hneed hindex => exact hinv.enter hindex
    | @bought need size page hnone hsize hpage =>
      refine hinv.buy ?_ page size
      exact hnone.elim (hok need rfl) id

/-! ## Runs -/

/-- Whenever `_mulle_arena_new_page` obtains a page for a regular request, every
page has been the current one since the last reset. -/
def UsedFirst (t : Target) (s : World) : Prop :=
  ∀ sys need page s', need ≤ s.pageSize → newPage t sys need s = some (page, s') →
    s.pages.length < s'.pages.length → ∀ i, i < s.pages.length → i ∈ entries s.log

/-- A regular request buys a page when no kept one is left only. -/
theorem KeptInv.usedFirst {s : World} (h : KeptInv s.paging) : UsedFirst t s := by
  intro sys need page s' hneed hnew hgrows
  refine h.all_entered (Nat.le_of_not_lt fun hindex => ?_)
  unfold newPage at hnew
  rw [if_pos ⟨hneed, hindex⟩] at hnew
  cases hnew
  exact Nat.lt_irrefl _ hgrows

/-- With no page behind the current one, a regular request buys a page. -/
theorem newPage_buys {sys : Nat → Option Nat} {need page : Nat} {s : World}
    (hneed : need ≤ s.pageSize) (hlast : s.pages.length ≤ s.pageIndex + 1)
    (hpage : sys s.pageSize = some page) :
    ∃ s', newPage t sys need s = some (page, s') ∧ s'.pages = s.pages ++ [page] := by
  unfold newPage
  rw [if_neg (by omega)]
  simp only [if_neg (Nat.not_lt.mpr hneed), hpage]
  exact ⟨_, rfl, rfl⟩

/-- After an oversized request that left kept pages behind, the next regular one
to need a page buys it. -/
theorem not_usedFirst {sys : Nat → Option Nat} {op : Op} {s : World} {r : Option Nat × World}
    (h : exec t sys op s = some r) (hinv : KeptInv s.paging) (hbad : ¬ KeptFirst t s op) :
    ¬ UsedFirst t r.2 := by
  unfold KeptFirst at hbad
  push Not at hbad
  obtain ⟨need, hneed, hover, hindex⟩ := hbad
  rcases exec_paged h with ⟨keepCount, hreset, -⟩ | hpaged
  · cases op with
    | reset | resetKeepPages | resetKeepPercentage => cases hneed
    | _ => exact hreset.elim
  · rw [hneed] at hpaged
    generalize hP : r.2.paging = P at hpaged
    cases hpaged with
    | entered hle => exact absurd hle (Nat.not_le_of_lt hover)
    | @bought _ size page hnone hsize hpage =>
      have hpages : r.2.pages = s.pages ++ [page] := congrArg Paging.pages hP
      have hpageIndex : r.2.pageIndex = s.pages.length := congrArg Paging.pageIndex hP
      have hentries : entries r.2.log = s.pages.length :: entries s.log :=
        congrArg Paging.entries hP
      intro hused
      have hlen : r.2.pages.length = s.pages.length + 1 := by rw [hpages]; simp
      have hbuys : ∃ s', newPage t (fun _ => some 1) 0 r.2 = some (1, s') ∧
          s'.pages = r.2.pages ++ [1] :=
        newPage_buys (Nat.zero_le _) (by rw [hlen, hpageIndex]) rfl
      obtain ⟨s', hnew, hpages'⟩ := hbuys
      have hmem := hused _ 0 1 s' (Nat.zero_le _) hnew (by rw [hpages']; simp)
        (s.pageIndex + 1) (by omega)
      rw [hentries] at hmem
      rcases List.mem_cons.mp hmem with heq | hmem'
      · omega
      · exact hinv.next_not_entered hmem'

variable {pageSize : Nat} {mem : Mem} {l : List Call} {σ : Sys}

theorem reach_keptInv
    (h : Reach (Sys.step t) (fun σ c => KeptFirst t σ.world c.op) (Sys.start pageSize mem) l σ) :
    KeptInv σ.world.paging := by
  apply Reach.inv (P := fun σ => KeptInv σ.world.paging) (KeptInv.start pageSize mem) _ h
  intro σ c σ' hinv hok hs
  obtain ⟨r, hr, rfl⟩ := Option.map_eq_some_iff.mp hs
  rw [Sys.record_world]
  exact exec_keptInv hr hinv hok

/-- **Kept pages come first.** As long as no oversized request is made before the
last kept page has been entered, a page is bought for a regular request only
after every page has been current, and there are more pages than those kept and
those bought for oversized requests only after all kept ones have been; and the
next call leaves it so exactly when it is no such request. -/
theorem kept_pages_first_iff
    (h : Reach (Sys.step t) (fun σ c => KeptFirst t σ.world c.op) (Sys.start pageSize mem) l σ) :
    UsedFirst t σ.world ∧
    (keptCount σ.world.log + oversizedCount σ.world < getPageCount σ.world →
      ∀ i, i < keptCount σ.world.log → i ∈ entries σ.world.log) ∧
    ∀ c σ', σ.step t c = some σ' → (UsedFirst t σ'.world ↔ KeptFirst t σ.world c.op) := by
  have hinv := reach_keptInv h
  refine ⟨hinv.usedFirst, ?_, ?_⟩
  · intro hmore
    have hcount : σ.world.pages.length = keptCount σ.world.log + (bought σ.world.log).length :=
      hinv.count
    -- more pages were bought than oversized ones, so one was bought for a regular request
    have hlt : oversizedCount σ.world < (bought σ.world.log).length := by
      unfold getPageCount at hmore
      omega
    have hregular : ∃ r ∈ bought σ.world.log, r.size ≤ σ.world.pageSize := by
      by_contra hall
      push Not at hall
      have : oversizedCount σ.world = (bought σ.world.log).length :=
        List.countP_eq_length.mpr fun r hr => decide_eq_true (hall r hr)
      omega
    obtain ⟨r, hr, hsize⟩ := hregular
    exact hinv.regular r hr hsize
  · intro c σ' hs
    obtain ⟨r, hr, rfl⟩ := Option.map_eq_some_iff.mp hs
    rw [Sys.record_world]
    refine ⟨?_, fun hok => (exec_keptInv hr hinv hok).usedFirst⟩
    intro hused
    by_contra hbad
    exact not_usedFirst hr hinv hbad hused

/-- Both pages kept are used up before one is bought for an oversized request and
one for a regular one. -/
def keptFirstScript : List Line :=
  [⟨.alloc 64 1, [(64, 0x1000)]⟩, ⟨.callocV 1 40, [(64, 0x2000)]⟩, ⟨.resetKeepPages 2, []⟩,
    ⟨.alloc 64 1, []⟩, ⟨.alloc 64 1, []⟩, ⟨.callocV 1 100, [(116, 0x3000)]⟩,
    ⟨.alloc 64 1, [(64, 0x4000)]⟩]

theorem kept_pages_first_iff_used :
    let σ := scriptEnd (x64 false) 64 (fun _ => 0) keptFirstScript
    UsedFirst (x64 false) σ.world ∧ (2 + 1 < 4 → ∀ i, i < 2 → i ∈ entries σ.world.log) ∧
    ∀ c σ', σ.step (x64 false) c = some σ' →
      (UsedFirst (x64 false) σ'.world ↔ KeptFirst (x64 false) σ.world c.op) :=
  kept_pages_first_iff (reach_of_script (P := fun σ x => KeptFirst (x64 false) σ.world x.op)
    (fun _ _ hx => hx) (l := keptFirstScript) (by decide +kernel))

/-- Two pages are kept, and the first request after the reset is oversized. -/
def skippedScript : List Line :=
  [⟨.alloc 64 1, [(64, 0x1000)]⟩, ⟨.alloc 64 1, [(64, 0x2000)]⟩, ⟨.resetKeepPages 2, []⟩,
    ⟨.alloc 100 1, [(100, 0x3000)]⟩]

/-- The next request for 64 bytes buys a page, with a kept one unused. -/
theorem kept_page_skipped :
    let σ := scriptEnd (x64 false) 64 (fun _ => 0) skippedScript
    Reach (Sys.step (x64 false)) (Legal (x64 false)) (Sys.start 64 fun _ => 0)
        (skippedScript.map Line.call) σ ∧
      Line.Ok (x64 false) σ ⟨.alloc 64 1, [(64, 0x4000)]⟩ ∧
      ((σ.step (x64 false) (Line.call ⟨.alloc 64 1, [(64, 0x4000)]⟩)).map fun σ' =>
        (σ'.world.pages, entries σ'.world.log))
          = some ([0x1000, 0x2000, 0x3000, 0x4000], [3, 2, 0]) ∧
      ¬ UsedFirst (x64 false) σ.world := by
  refine ⟨reach_of_script Line.legal (by decide +kernel), by decide +kernel, by decide +kernel, ?_⟩
  intro hused
  have hnew : ((newPage (x64 false) (fun _ => some 0x4000) 64
      (scriptEnd (x64 false) 64 (fun _ => 0) skippedScript).world).map
        fun r => (r.1, r.2.pages.length)) = some (0x4000, 4) := by decide +kernel
  obtain ⟨⟨page, s'⟩, hs, heq⟩ := Option.map_eq_some_iff.mp hnew
  have hmem := hused _ 64 page s' (by decide +kernel) hs
    (by rw [(Prod.mk.inj heq).2]; decide +kernel) 1 (by decide +kernel)
  revert hmem
  decide +kernel

end MulleStorage.Arena
