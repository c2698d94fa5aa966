import MulleStorage.Arena.System

/-!
# The pages of an arena

`PageInv` is what every function of the header keeps about `_pages`, the cursor
and the event log, whatever its clients do:

- `_pages` lists the bases of the regions still held, in the order obtained;
- those regions are disjoint, at least `_page_size` long, and end inside the
  address space;
- with pages, `_current` is not before the current page and `_sentinel` not
  behind its end; without, both are `NULL`;
- the indices entered since the last reset are strictly increasing, the last of
  them being `_page_index`.

`newPage_opened` and `resetKeepPages_reset` are the two places where pages change
hands; `done_spec` is the end of an arena.
-/

namespace MulleStorage.Arena

open MulleStorage.Lib

/-- The arena's page bookkeeping. -/
structure PageInv (t : Target) (s : World) : Prop where
  pages : s.pages = (held s.log).map Region.base
  apart : (held s.log).Pairwise Region.Disjoint
  region : ∀ r ∈ held s.log, 0 < r.base ∧ s.pageSize ≤ r.size ∧ r.base + r.size < t.modulus
  pageSize_pos : 0 < s.pageSize
  current_lt : s.current < t.modulus
  returns : ReturnsOk s.log
  increasing : (entries s.log).Pairwise (· > ·)
  empty : s.pages = [] →
    s.current = 0 ∧ s.sentinel = 0 ∧ s.pageIndex = 0 ∧ entries s.log = []
  inside : s.pages ≠ [] →
    (∃ r, (held s.log)[s.pageIndex]? = some r ∧ r.base ≤ s.current ∧
      r.base < s.sentinel ∧ s.sentinel ≤ r.base + r.size) ∧
    (entries s.log).head? = some s.pageIndex

/-- Two regions of a disjoint list that share an address are the same entry. -/
theorem index_eq_of_has {l : List Region} (h : l.Pairwise Region.Disjoint) {i j : Nat}
    {r q : Region} (hr : l[i]? = some r) (hq : l[j]? = some q) {a : Nat} (har : r.Has a)
    (haq : q.Has a) : i = j := by
  obtain ⟨hi, rfl⟩ := List.getElem?_eq_some_iff.mp hr
  obtain ⟨hj, rfl⟩ := List.getElem?_eq_some_iff.mp hq
  rcases Nat.lt_trichotomy i j with hij | hij | hij
  · exact absurd haq ((List.pairwise_iff_getElem.mp h i j hi hj hij).not_has har)
  · exact hij
  · exact absurd har ((List.pairwise_iff_getElem.mp h j i hj hi hij).not_has haq)

/-- Different entries of a disjoint list are disjoint. -/
theorem disjoint_of_index_ne {l : List Region} (h : l.Pairwise Region.Disjoint) {i j : Nat}
    {r q : Region} (hr : l[i]? = some r) (hq : l[j]? = some q) (hij : i ≠ j) : r.Disjoint q := by
  obtain ⟨hi, rfl⟩ := List.getElem?_eq_some_iff.mp hr
  obtain ⟨hj, rfl⟩ := List.getElem?_eq_some_iff.mp hq
  rcases Nat.lt_or_gt_of_ne hij with hlt | hgt
  · exact List.pairwise_iff_getElem.mp h i j hi hj hlt
  · exact (List.pairwise_iff_getElem.mp h j i hj hi hgt).symm

/-- Entries of a list keep their index when the list grows at the end. -/
theorem getElem?_mono {l l' : List Region} (h : l <+: l') {i : Nat} {r : Region}
    (hr : l[i]? = some r) : l'[i]? = some r := by
  obtain ⟨l'', rfl⟩ := h
  obtain ⟨hi, rfl⟩ := List.getElem?_eq_some_iff.mp hr
  rw [List.getElem?_append_left hi, List.getElem?_eq_getElem hi]

namespace PageInv

variable {t : Target} {s : World}

/-- Memory and touches are not the business of the page bookkeeping. -/
theorem touch (h : PageInv t s) (m : Mem) (p n : Nat) :
    PageInv t { s with mem := m, log := .touched p n :: s.log } :=
  { h with }

theorem setMem (h : PageInv t s) (m : Mem) : PageInv t { s with mem := m } :=
  { h with }

/-- The cursor may stand anywhere at or behind the start of the current page. -/
theorem setCursor (h : PageInv t s) (hne : s.pages ≠ []) {c last : Nat} {r : Region}
    (hr : (held s.log)[s.pageIndex]? = some r) (hbase : r.base ≤ c) (hlt : c < t.modulus) :
    PageInv t { s with current := c, last := last } :=
  { h with
    current_lt := hlt
    empty := fun hnil => absurd hnil hne
    inside := by
      intro _
      obtain ⟨⟨q, hq, -, hbs, hend⟩, hhead⟩ := h.inside hne
      cases hr.symm.trans hq
      exact ⟨⟨r, hr, hbase, hbs, hend⟩, hhead⟩ }

/-- An arena with a sentinel has pages. -/
theorem pages_ne_nil (h : PageInv t s) (hs : s.sentinel ≠ 0) : s.pages ≠ [] :=
  fun hnil => hs (h.empty hnil).2.1

/-- The sentinel is an address. -/
theorem sentinel_lt (h : PageInv t s) : s.sentinel < t.modulus := by
  by_cases hnil : s.pages = []
  · rw [(h.empty hnil).2.1]
    exact t.modulus_pos
  · obtain ⟨⟨r, hr, -, -, hend⟩, -⟩ := h.inside hnil
    exact Nat.lt_of_le_of_lt hend (h.region r (List.mem_of_getElem? hr)).2.2

theorem held_length (h : PageInv t s) : (held s.log).length = s.pages.length := by
  rw [h.pages, List.length_map]

theorem pageIndex_lt (h : PageInv t s) (hne : s.pages ≠ []) : s.pageIndex < s.pages.length := by
  obtain ⟨⟨r, hr, -⟩, -⟩ := h.inside hne
  rw [← h.held_length]
  exact (List.getElem?_eq_some_iff.mp hr).1

/-- The bases of the pages differ: a shared one would be a shared address. -/
theorem nodup (h : PageInv t s) : s.pages.Nodup := by
  rw [h.pages, List.Nodup, List.pairwise_map]
  refine (List.Pairwise.and_mem.mp h.apart).imp ?_
  rintro r q ⟨hr, hq, hd⟩ heq
  have hrs := (h.region r hr).2.1
  have hqs := (h.region q hq).2.1
  have hpos := h.pageSize_pos
  unfold Region.Disjoint at hd
  omega

theorem init (t : Target) (pageSize : Nat) (mem : Mem) :
    PageInv t (Arena.init pageSize mem) where
  pages := rfl
  apart := .nil
  region := by simp [Arena.init, held]
  pageSize_pos := by
    unfold Arena.init
    dsimp only
    split <;> omega
  current_lt := t.modulus_pos
  returns := trivial
  increasing := .nil
  empty _ := ⟨rfl, rfl, rfl, rfl⟩
  inside hne := absurd rfl hne

end PageInv

/-! ## Opening a page -/

/-- `a` is not part of any region the default allocator may hand out now. -/
def Old (sys : Nat → Option Nat) (a : Nat) : Prop :=
  ∀ n p, sys n = some p → ¬ Region.Has ⟨p, n⟩ a

/-- What the allocator hands out is not held. -/
theorem old_of_held {t : Target} {s : World} {sys : Nat → Option Nat} (hsys : SysOk t s sys)
    {r : Region} (hr : r ∈ held s.log) {a : Nat} (ha : r.Has a) : Old sys a :=
  fun n p hp hnew => ((hsys n p hp).2.2 r hr).not_has hnew ha

/-- `s'` is `s` with a page of at least `need` bytes entered at its start. -/
structure Opened (t : Target) (sys : Nat → Option Nat) (need : Nat) (s s' : World) : Prop where
  inv : PageInv t s'
  grows : held s.log <+: held s'.log
  source : ∀ r ∈ held s'.log, r ∈ held s.log ∨ sys r.size = some r.base
  later : s.pages = [] ∨ s.pageIndex < s'.pageIndex
  pages : s'.pages ≠ []
  page : ∃ r, (held s'.log)[s'.pageIndex]? = some r ∧ s'.current = r.base
  room : s'.current + need ≤ s'.sentinel
  mem : ∀ a, Old sys a → s'.mem a = s.mem a
  last : s'.last = s.last
  touches : TouchesOk s.log → TouchesOk s'.log

/-- The entered indices stay increasing when a later page is entered. -/
theorem PageInv.entries_cons {t : Target} {s : World} (h : PageInv t s) {i : Nat}
    (hi : s.pages = [] ∨ s.pageIndex < i) : (i :: entries s.log).Pairwise (· > ·) := by
  refine List.pairwise_cons.mpr ⟨?_, h.increasing⟩
  intro j hj
  by_cases hnil : s.pages = []
  · rw [(h.empty hnil).2.2.2] at hj
    exact absurd hj List.not_mem_nil
  · -- the last index entered is `_page_index`, and the others are below it
    obtain ⟨l, hl⟩ := List.head?_eq_some_iff.mp (h.inside hnil).2
    have hinc := h.increasing
    rw [hl] at hj hinc
    have hlt : s.pageIndex < i := hi.resolve_left hnil
    rcases List.mem_cons.mp hj with rfl | hj'
    · exact hlt
    · exact Nat.lt_trans ((List.pairwise_cons.mp hinc).1 j hj') hlt

/-- Entering the next kept page, taken as `_page_size` bytes long. -/
theorem keptPage_opened {t : Target} {sys : Nat → Option Nat} {need : Nat} {s : World}
    (hinv : PageInv t s) (hneed : need ≤ s.pageSize) (hindex : s.pageIndex + 1 < s.pages.length) :
    Opened t sys need s { s with
      pageIndex := s.pageIndex + 1
      current := s.pages.getD (s.pageIndex + 1) 0
      sentinel := t.add (s.pages.getD (s.pageIndex + 1) 0) s.pageSize
      log := .entered (s.pageIndex + 1) :: s.log } := by
  have hlen : s.pageIndex + 1 < (held s.log).length := by rw [hinv.held_length]; exact hindex
  have hne : s.pages ≠ [] := List.ne_nil_of_length_pos (by omega)
  have hr := List.getElem?_eq_getElem hlen
  have hpage : s.pages.getD (s.pageIndex + 1) 0 = (held s.log)[s.pageIndex + 1].base := by
    rw [List.getD_eq_getElem?_getD, hinv.pages, List.getElem?_map, hr]
    rfl
  obtain ⟨hpos, hsize, hend⟩ := hinv.region _ (List.getElem_mem hlen)
  have hps := hinv.pageSize_pos
  rw [Target.add_eq (by omega), hpage]
  exact {
    inv := {
      pages := hinv.pages
      apart := hinv.apart
      region := hinv.region
      pageSize_pos := hps
      current_lt := by dsimp only; omega
      returns := hinv.returns
      increasing := hinv.entries_cons (Or.inr (Nat.lt_succ_self _))
      empty := fun hnil => absurd hnil hne
      -- the page is at least `_page_size` long, whatever it was obtained for
      inside := fun _ => ⟨⟨_, hr, Nat.le_refl _, by dsimp only; omega, by dsimp only; omega⟩, rfl⟩ }
    grows := List.prefix_refl _
    source := fun _ hr => Or.inl hr
    later := Or.inr (Nat.lt_succ_self _)
    pages := hne
    page := ⟨_, hr, rfl⟩
    room := Nat.add_le_add_left hneed _
    mem := fun _ _ => rfl
    last := rfl
    touches := fun ht => ht }

/-- Obtaining a fresh page, which goes behind all others. -/
theorem freshPage_opened {t : Target} {sys : Nat → Option Nat} {need n p : Nat} {s : World}
    (hinv : PageInv t s) (hsys : SysOk t s sys) (hneed : need ≤ n) (hsize : s.pageSize ≤ n)
    (hp : sys n = some p) :
    Opened t sys need s { s with
      pages := s.pages ++ [p]
      pageIndex := s.pages.length
      current := p
      sentinel := t.add p n
      mem := blit s.mem p n fun _ => 0
      log := .entered s.pages.length :: .obtained ⟨p, n⟩ :: s.log } := by
  obtain ⟨hpos, hend, hdisj⟩ := hsys n p hp
  have hps := hinv.pageSize_pos
  have hr : (held s.log ++ [(⟨p, n⟩ : Region)])[s.pages.length]? = some ⟨p, n⟩ := by
    rw [← hinv.held_length, List.getElem?_append_right (Nat.le_refl _), Nat.sub_self]
    rfl
  have hne : s.pages ++ [p] ≠ [] := by simp
  have hlater : s.pages = [] ∨ s.pageIndex < s.pages.length := by
    by_cases hnil : s.pages = []
    · exact Or.inl hnil
    · exact Or.inr (hinv.pageIndex_lt hnil)
  have hpages : s.pages ++ [p] = (held s.log ++ [(⟨p, n⟩ : Region)]).map Region.base := by
    rw [List.map_append, ← hinv.pages]
    rfl
  have hapart : (held s.log ++ [(⟨p, n⟩ : Region)]).Pairwise Region.Disjoint := by
    refine List.pairwise_append.mpr ⟨hinv.apart, List.pairwise_singleton _ _, ?_⟩
    intro r hr q hq
    rw [List.mem_singleton.mp hq]
    exact (hdisj r hr).symm
  have hregion : ∀ r ∈ held s.log ++ [(⟨p, n⟩ : Region)],
      0 < r.base ∧ s.pageSize ≤ r.size ∧ r.base + r.size < t.modulus := by
    intro r hr
    rcases List.mem_append.mp hr with hr' | hr'
    · exact hinv.region r hr'
    · rw [List.mem_singleton.mp hr']
      exact ⟨hpos, hsize, hend⟩
  rw [Target.add_eq hend]
  exact {
    inv := {
      pages := hpages
      apart := hapart
      region := hregion
      pageSize_pos := hps
      current_lt := by dsimp only; omega
      returns := hinv.returns
      increasing := hinv.entries_cons hlater
      empty := fun hnil => absurd hnil hne
      inside := fun _ => ⟨⟨_, hr, Nat.le_refl _, by dsimp only; omega, Nat.le_refl _⟩, rfl⟩ }
    grows := List.prefix_append _ _
    source := by
      intro r hr
      refine (List.mem_append.mp hr).imp_right ?_
      intro hr'
      rw [List.mem_singleton.mp hr']
      exact hp
    later := hlater
    pages := hne
    page := ⟨_, hr, rfl⟩
    room := Nat.add_le_add_left hneed p
    mem := by
      intro a ha
      show blit s.mem p n (fun _ => 0) a = s.mem a
      exact blit_not_has (ha n p hp)
    last := rfl
    touches := fun ht => ht }

/-- `_mulle_arena_new_page` enters a page with room for the request. -/
theorem newPage_opened {t : Target} {sys : Nat → Option Nat} {need page : Nat} {s s' : World}
    (hinv : PageInv t s) (hsys : SysOk t s sys) (h : newPage t sys need s = some (page, s')) :
    Opened t sys need s s' := by
  unfold newPage at h
  split at h
  next hkept =>
    simp only [Option.some.injEq, Prod.mk.injEq] at h
    obtain ⟨-, rfl⟩ := h
    exact keptPage_opened hinv hkept.1 hkept.2
  next =>
    -- no kept page is left, or none is long enough
    dsimp only at h
    split at h
    next => cases h
    next p hp =>
      simp only [Option.some.injEq, Prod.mk.injEq] at h
      obtain ⟨-, rfl⟩ := h
      exact freshPage_opened hinv hsys (by split <;> omega) (by split <;> omega) hp

/-! ## Giving pages back -/

/-- The log after the addresses `l` have been returned, in order. -/
def returnAll (l : List Nat) (log : List Event) : List Event :=
  (l.map Event.returned).reverse ++ log

/-- The log after the first `n` bytes of each page of `l` have been cleared. -/
def touchAll (l : List Nat) (n : Nat) (log : List Event) : List Event :=
  (l.map fun p => Event.touched p n).reverse ++ log

@[simp] theorem returnAll_cons (p : Nat) (l : List Nat) (log : List Event) :
    returnAll (p :: l) log = returnAll l (.returned p :: log) := by
  simp [returnAll]

@[simp] theorem touchAll_cons (p : Nat) (l : List Nat) (n : Nat) (log : List Event) :
    touchAll (p :: l) n log = touchAll l n (.touched p n :: log) := by
  simp [touchAll]

theorem foldl_freePage (l : List Nat) (s : World) :
    l.foldl World.freePage s = { s with log := returnAll l s.log } := by
  induction l generalizing s with
  | nil => rfl
  | cons p l ih =>
    rw [List.foldl_cons, ih, returnAll_cons]
    rfl

/-- What the clearing loop of a reset writes. -/
def clearFill (t : Target) : Nat → UInt8 := if t.debug then t.poison else fun _ => 0

theorem foldl_keepPage (t : Target) (l : List Nat) (s : World) :
    l.foldl (keepPage t) s = { s with
      pages := s.pages ++ l
      mem := l.foldl (fun m p => blit m p s.pageSize (clearFill t)) s.mem
      log := touchAll l s.pageSize s.log } := by
  induction l generalizing s with
  | nil => simp [touchAll]
  | cons p l ih =>
    rw [List.foldl_cons, ih, touchAll_cons]
    simp [keepPage, World.memset, clearFill]

/-- Returning the base of one region removes that region. -/
theorem held_returned_base {pre suf : List Region} {r : Region} {log : List Event}
    (h : held log = pre ++ r :: suf) (hnd : ((held log).map Region.base).Nodup) :
    held (.returned r.base :: log) = pre ++ suf := by
  rw [held_returned, h, List.eraseP_append_right]
  · simp
  · intro q hq
    rw [h, List.map_append, List.map_cons] at hnd
    have hne := (List.nodup_append.mp hnd).2.2 q.base (List.mem_map_of_mem hq) r.base
      List.mem_cons_self
    simpa using hne

/-- Returning the bases of the last regions leaves the first ones, and each of
those returns is of a page that is held. -/
theorem returnAll_spec {pre suf : List Region} {log : List Event} (h : held log = pre ++ suf)
    (hnd : ((held log).map Region.base).Nodup) (hok : ReturnsOk log) :
    held (returnAll (suf.map Region.base) log) = pre ∧
    ReturnsOk (returnAll (suf.map Region.base) log) := by
  induction suf generalizing log with
  | nil =>
    rw [List.append_nil] at h
    exact ⟨h, hok⟩
  | cons r suf ih =>
    rw [List.map_cons, returnAll_cons]
    have hstep := held_returned_base h hnd
    apply ih hstep
    · rw [hstep]
      rw [h] at hnd
      exact hnd.sublist (((List.sublist_cons_self r suf).append_left pre).map _)
    · refine ⟨?_, hok⟩
      rw [h]
      exact List.mem_map_of_mem (List.mem_append_right pre List.mem_cons_self)

theorem returnedPages_returnAll (l : List Nat) (log : List Event) :
    returnedPages (returnAll l log) = l.reverse ++ returnedPages log := by
  induction l generalizing log with
  | nil => rfl
  | cons p l ih =>
    rw [returnAll_cons, ih]
    simp [returnedPages]

/-- Clearing pages changes nothing about who holds which page. -/
theorem touchAll_spec (l : List Nat) (n : Nat) (log : List Event) :
    held (touchAll l n log) = held log ∧ returnedPages (touchAll l n log) = returnedPages log ∧
    obtainedPages (touchAll l n log) = obtainedPages log ∧
    (ReturnsOk log → ReturnsOk (touchAll l n log)) := by
  induction l generalizing log with
  | nil => exact ⟨rfl, rfl, rfl, fun h => h⟩
  | cons p l ih =>
    rw [touchAll_cons]
    exact ih (.touched p n :: log)

theorem returnAll_touches (l : List Nat) {log : List Event} (h : TouchesOk log) :
    TouchesOk (returnAll l log) := by
  induction l generalizing log with
  | nil => exact h
  | cons p l ih =>
    rw [returnAll_cons]
    exact ih h

/-- Clearing pages that are held, and long enough, touches nothing else. -/
theorem touchAll_touches {l : List Nat} {n : Nat} {log : List Event}
    (hl : ∀ p ∈ l, ∃ r ∈ held log, r.Covers p n) (h : TouchesOk log) :
    TouchesOk (touchAll l n log) := by
  induction l generalizing log with
  | nil => exact h
  | cons p l ih =>
    rw [touchAll_cons]
    exact ih (fun q hq => hl q (List.mem_cons_of_mem p hq)) ⟨hl p List.mem_cons_self, h⟩

/-- `_mulle_arena_reset_keep_pages`, with its two loops summed up. -/
theorem resetKeepPages_eq (t : Target) (keepCount : Nat) (s : World) :
    resetKeepPages t keepCount s =
      if s.pages = [] then s
      else
        let kept := s.pages.take keepCount
        let log := touchAll kept s.pageSize (returnAll (s.pages.drop keepCount) s.log)
        { pages := kept
          current := kept.getD 0 0
          sentinel := if keepCount = 0 then 0 else t.add (kept.getD 0 0) s.pageSize
          last := 0
          pageSize := s.pageSize
          pageIndex := 0
          mem := kept.foldl (fun m p => blit m p s.pageSize (clearFill t)) s.mem
          log := if keepCount = 0 then .rewound :: log else .entered 0 :: .rewound :: log } := by
  unfold resetKeepPages
  simp only [List.length_eq_zero_iff, foldl_freePage, foldl_keepPage, List.nil_append]
  by_cases hnil : s.pages = []
  · rw [if_pos hnil, if_pos hnil]
  · rw [if_neg hnil, if_neg hnil]
    have hlen : 0 < s.pages.length := List.length_pos_iff.mpr hnil
    by_cases hk : keepCount > s.pages.length
    · simp only [if_pos hk, List.take_length, List.drop_length,
        List.take_of_length_le (Nat.le_of_lt hk), List.drop_of_length_le (Nat.le_of_lt hk)]
      rw [if_pos (by omega), if_neg (by omega), if_neg (by omega)]
    · simp only [if_neg hk]
      by_cases hz : keepCount = 0
      · subst hz
        rfl
      · rw [if_pos hz, if_neg hz, if_neg hz]

/-- What a reset that keeps `keepCount` pages does to the pages. -/
structure WasReset (t : Target) (keepCount : Nat) (s s' : World) : Prop where
  inv : PageInv t s'
  kept : held s'.log = (held s.log).take keepCount
  returned : returnedPages s'.log = (s.pages.drop keepCount).reverse ++ returnedPages s.log
  obtained : obtainedPages s'.log = obtainedPages s.log
  last : s.pages ≠ [] → s'.last = 0
  empty : s.pages = [] → s' = s
  pageSize : s'.pageSize = s.pageSize
  index : s.pages ≠ [] → s'.pageIndex = 0
  current : s.pages ≠ [] → s'.pages ≠ [] → s'.pages[s'.pageIndex]? = some s'.current
  touches : TouchesOk s.log → TouchesOk s'.log

theorem obtainedPages_returnAll (l : List Nat) (log : List Event) :
    obtainedPages (returnAll l log) = obtainedPages log := by
  induction l generalizing log with
  | nil => rfl
  | cons p l ih =>
    rw [returnAll_cons, ih]
    rfl

/-- `log` is that of `s` with the pages behind the first `keepCount` returned, and
the others cleared. -/
structure Trimmed (keepCount : Nat) (s : World) (log : List Event) : Prop where
  held : held log = (held s.log).take keepCount
  returned : returnedPages log = (s.pages.drop keepCount).reverse ++ returnedPages s.log
  obtained : obtainedPages log = obtainedPages s.log
  returns : ReturnsOk log
  touches : TouchesOk s.log → TouchesOk log

/-- The two loops of a reset. -/
theorem PageInv.trimmed {t : Target} {s : World} (hinv : PageInv t s) (keepCount : Nat) :
    Trimmed keepCount s (touchAll (s.pages.take keepCount) s.pageSize
      (returnAll (s.pages.drop keepCount) s.log)) := by
  have hdrop : s.pages.drop keepCount = ((held s.log).drop keepCount).map Region.base := by
    rw [hinv.pages, List.map_drop]
  have htake : s.pages.take keepCount = ((held s.log).take keepCount).map Region.base := by
    rw [hinv.pages, List.map_take]
  have hnd : ((held s.log).map Region.base).Nodup := hinv.pages ▸ hinv.nodup
  have hsplit : held s.log = (held s.log).take keepCount ++ (held s.log).drop keepCount :=
    (List.take_append_drop _ _).symm
  obtain ⟨hheld, hreturns⟩ := returnAll_spec hsplit hnd hinv.returns
  rw [← hdrop] at hheld hreturns
  obtain ⟨htheld, htret, htobt, htok⟩ := touchAll_spec (s.pages.take keepCount) s.pageSize
    (returnAll (s.pages.drop keepCount) s.log)
  refine ⟨htheld.trans hheld, htret.trans (returnedPages_returnAll _ _),
    htobt.trans (obtainedPages_returnAll _ _), htok hreturns, ?_⟩
  -- the kept pages are at least `_page_size` long
  intro ht
  apply touchAll_touches _ (returnAll_touches _ ht)
  intro p hp
  rw [htake] at hp
  obtain ⟨r, hr, rfl⟩ := List.mem_map.mp hp
  have hsize := (hinv.region r (List.mem_of_mem_take hr)).2.1
  exact ⟨r, hheld.symm ▸ hr, Nat.le_refl _, by omega⟩

/-- A reset returns the pages behind the first `keepCount` and rewinds. -/
theorem resetKeepPages_reset {t : Target} {s : World} (keepCount : Nat) (hinv : PageInv t s) :
    WasReset t keepCount s (resetKeepPages t keepCount s) := by
  rw [resetKeepPages_eq]
  by_cases hnil : s.pages = []
  · have hheld : held s.log = [] := by
      have hpages := hinv.pages
      rw [hnil] at hpages
      exact List.map_eq_nil_iff.mp hpages.symm
    rw [if_pos hnil]
    exact {
      inv := hinv
      kept := by simp [hheld]
      returned := by simp [hnil]
      obtained := rfl
      last := fun hne => absurd hnil hne
      empty := fun _ => rfl
      pageSize := rfl
      index := fun hne => absurd hnil hne
      current := fun hne => absurd hnil hne
      touches := fun ht => ht }
  · rw [if_neg hnil]
    dsimp only
    have htrim := hinv.trimmed keepCount
    generalize touchAll (s.pages.take keepCount) s.pageSize
      (returnAll (s.pages.drop keepCount) s.log) = log at htrim ⊢
    by_cases hk : keepCount = 0
    · subst hk
      have hheld : held log = [] := htrim.held
      simp only [if_pos, List.take_zero]
      exact {
        inv := {
          pages := by simp [hheld]
          apart := by simp [hheld]
          region := by simp [hheld]
          pageSize_pos := hinv.pageSize_pos
          current_lt := t.modulus_pos
          returns := htrim.returns
          increasing := .nil
          empty := fun _ => ⟨rfl, rfl, rfl, rfl⟩
          inside := fun hne => absurd rfl hne }
        kept := htrim.held
        returned := htrim.returned
        obtained := htrim.obtained
        last := fun _ => rfl
        empty := fun h => absurd h hnil
        pageSize := rfl
        index := fun _ => rfl
        current := fun _ hne => absurd rfl hne
        touches := htrim.touches }
    · simp only [if_neg hk]
      -- the first page stays, and is the current one again
      have htake : s.pages.take keepCount = ((held s.log).take keepCount).map Region.base := by
        rw [hinv.pages, List.map_take]
      obtain ⟨r, l, hrl⟩ : ∃ r l, (held s.log).take keepCount = r :: l := by
        refine List.exists_cons_of_ne_nil ?_
        intro htn
        rw [← List.map_eq_nil_iff (f := Region.base), ← htake, List.take_eq_nil_iff] at htn
        exact htn.elim hk hnil
      have hheld : held log = r :: l := htrim.held.trans hrl
      have hapart := hinv.apart.sublist (List.take_sublist keepCount _)
      have hregion := fun q (hq : q ∈ r :: l) =>
        hinv.region q (List.mem_of_mem_take (hrl.symm ▸ hq))
      obtain ⟨hpos, hsize, hend⟩ := hregion r List.mem_cons_self
      have hps := hinv.pageSize_pos
      rw [hrl] at htake hapart
      rw [htake, List.map_cons, List.getD_cons_zero, Target.add_eq (by omega)]
      exact {
        inv := {
          pages := by simp [hheld]
          apart := by simpa [hheld] using hapart
          region := by simpa [hheld] using hregion
          pageSize_pos := hps
          current_lt := by dsimp only; omega
          returns := htrim.returns
          increasing := by simp
          empty := fun h => absurd h (by simp)
          inside := fun _ => ⟨⟨r, by simp [hheld], Nat.le_refl _, by dsimp only; omega,
            by dsimp only; omega⟩, rfl⟩ }
        kept := htrim.held
        returned := htrim.returned
        obtained := htrim.obtained
        last := fun _ => rfl
        empty := fun h => absurd h hnil
        pageSize := rfl
        index := fun _ => rfl
        current := fun _ _ => rfl
        touches := htrim.touches }

/-- Giving up the arena returns every page. -/
theorem done_spec {t : Target} {s : World} (hinv : PageInv t s) :
    held (done s).log = [] ∧ ReturnsOk (done s).log ∧
    returnedPages (done s).log = s.pages.reverse ++ returnedPages s.log ∧
    obtainedPages (done s).log = obtainedPages s.log := by
  have hnd : ((held s.log).map Region.base).Nodup := hinv.pages ▸ hinv.nodup
  have hsplit : held s.log = [] ++ held s.log := rfl
  obtain ⟨hheld, hreturns⟩ := returnAll_spec hsplit hnd hinv.returns
  rw [← hinv.pages] at hheld hreturns
  unfold done
  rw [foldl_freePage]
  exact ⟨hheld, hreturns, returnedPages_returnAll _ _, obtainedPages_returnAll _ _⟩

end MulleStorage.Arena
