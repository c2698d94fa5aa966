import MulleStorage.Arena.Effect
import MulleStorage.Lib.Tape

/-!
# An arena on its tape

Between two resets, and as long as its clients make direct calls that fit a page,
an arena is a head on a tape (`OnTape`): its pages are the tape, and those it has
still to obtain only make it longer. Nothing else about it matters, neither what
is in memory nor what became of older blocks.

A direct call is one request (`Op.asks`), and all of them place their block the
way `_mulle_arena_realloc` does (`exec_asks`). `exec_onTape` is the refinement in
one direction: the call is answered as the tape answers that has the pages it
leaves. `exec_of_serve` is the other one: what the tape can answer, the call
answers, and the default allocator is not asked.
-/

namespace MulleStorage.Arena

open MulleStorage.Lib

variable {t : Target} {sys : Nat → Option Nat}

/-! ## What a direct call asks for -/

/-- The request a direct call makes. -/
def Op.asks (t : Target) (m : Mem) : Op → Option Request
  | .alloc size alignment | .calloc size alignment => some ⟨0, size, alignment⟩
  | .memdup _ size => some ⟨0, size, 1⟩
  | .strdup str => (strlen m str t.modulus).map fun len => ⟨0, t.add len 1, 1⟩
  | .realloc block _ newSize alignment => some ⟨block, newSize, alignment⟩
  | _ => none

/-- The arena, and the pages it has obtained so far: all of the world that a
client's data is not. -/
def World.layout (s : World) : MulleArena × List Nat := (s.toMulleArena, obtainedPages s.log)

theorem Op.fill_layout (op : Op) (m : Mem) (p : Nat) (s : World) :
    (op.fill t m p s).layout = s.layout := by
  cases op with
  | realloc => simp only [Op.fill]; split <;> rfl
  | reallocarrayV => simp only [Op.fill]; split <;> rfl
  | _ => rfl

/-- A request, whatever is copied. -/
def placeRequest (t : Target) (sys : Nat → Option Nat) (q : Request) (s : World) :
    Option (Nat × World) :=
  realloc t sys q.block q.size q.size q.alignment s

/-- A pointer, and the layout it comes with. -/
def layoutOf (r : Nat × World) : Nat × MulleArena × List Nat := (r.1, r.2.layout)

theorem map_fill_layout (x : Option (Nat × World)) (op : Op) (m : Mem) :
    (x.map fun r => (r.1, op.fill t m r.1 r.2)).map layoutOf = x.map layoutOf := by
  cases x with
  | none => rfl
  | some r => simp only [Option.map_some, layoutOf, Op.fill_layout]

/-- Without a block it is an allocation, -/
theorem placeRequest_alloc (size alignment : Nat) (s : World) :
    placeRequest t sys ⟨0, size, alignment⟩ s = alloc t sys size alignment s := by
  unfold placeRequest realloc
  exact if_pos rfl

/-- a block that is moved is allocated anew, -/
theorem placeRequest_moved {q : Request} {s : World}
    (h : ¬ InPlace t s (.realloc q.block q.size q.size q.alignment)) :
    (placeRequest t sys q s).map layoutOf = (alloc t sys q.size q.alignment s).map layoutOf := by
  unfold placeRequest
  rw [realloc_moved h, map_fill_layout]

/-- and every direct call places its block the same way. -/
theorem exec_asks (sys : Nat → Option Nat) {op : Op} {q : Request} {s : World}
    (hq : op.asks t s.mem = some q) :
    (exec t sys op s).map (fun r => (r.1, r.2.layout)) =
      ((placeRequest t sys q s).map layoutOf).map fun x => (some x.1, x.2) := by
  cases op with
  | alloc size alignment =>
    cases hq
    rw [placeRequest_alloc]
    simp only [exec, Option.map_map]
    rfl
  | calloc size alignment =>
    cases hq
    rw [placeRequest_alloc, ← map_fill_layout _ (.calloc size alignment) s.mem, ← calloc_eq]
    simp only [exec, Option.map_map]
    rfl
  | memdup src size =>
    cases hq
    rw [placeRequest_alloc, ← map_fill_layout _ (.memdup src size) s.mem, ← memdup_eq]
    simp only [exec, Option.map_map]
    rfl
  | strdup str =>
    obtain ⟨len, hlen, rfl⟩ := Option.map_eq_some_iff.mp hq
    rw [placeRequest_alloc, ← map_fill_layout _ (.memdup str (t.add len 1)) s.mem, ← memdup_eq]
    simp only [exec, strdup, hlen, Option.map_map]
    rfl
  | realloc block oldSize newSize alignment =>
    cases hq
    by_cases hplace : InPlace t s (.realloc block oldSize newSize alignment)
    · have hplace' : InPlace t s (.realloc block newSize newSize alignment) := hplace
      simp only [exec, placeRequest, realloc_inPlace hplace, realloc_inPlace hplace']
      rfl
    · have hplace' : ¬ InPlace t s (.realloc block newSize newSize alignment) := hplace
      rw [placeRequest_moved hplace',
        ← map_fill_layout _ (.realloc block oldSize newSize alignment) s.mem, ← realloc_moved hplace]
      simp only [exec, Option.map_map]
      rfl
  | _ => cases hq

/-! ## An arena on its tape -/

/-- The arena is on the page that the head is on, which is at `base`. -/
structure OnPage (s : World) (h : Head) (base : Nat) : Prop where
  page : s.pages[h.page]? = some base
  index : s.pageIndex = h.page
  current : s.current = base + h.used
  sentinel : s.sentinel = base + s.pageSize
  newest : h.last = 0 ∨ base ≤ h.last

/-- The arena is where the head is; without pages that is the start of a tape. -/
structure OnTape (s : World) (h : Head) : Prop where
  last : s.last = h.last
  fresh : s.pages = [] → h = .start
  page : s.pages ≠ [] → ∃ base, OnPage s h base

/-- Nothing has been placed since the arena was made, or reset. -/
def AtStart (s : World) : Prop := OnTape s .start

/-- An arena starts at the start. -/
theorem atStart_init (pageSize : Nat) (mem : Mem) : AtStart (init pageSize mem) :=
  ⟨rfl, fun _ => rfl, fun hne => absurd rfl hne⟩

/-- A page in use is at least `_page_size` long. -/
theorem PageInv.page_lt {s : World} (hinv : PageInv t s) {k base : Nat}
    (hk : s.pages[k]? = some base) : 0 < base ∧ base + s.pageSize < t.modulus := by
  rw [hinv.pages, List.getElem?_map] at hk
  obtain ⟨r, hr, rfl⟩ := Option.map_eq_some_iff.mp hk
  obtain ⟨hpos, hsize, hend⟩ := hinv.region r (List.mem_of_getElem? hr)
  exact ⟨hpos, by omega⟩

theorem OnTape.onPage {s : World} {h : Head} {base : Nat} (hon : OnTape s h)
    (hbase : s.pages[h.page]? = some base) : OnPage s h base := by
  obtain ⟨base', hpage⟩ := hon.page (List.ne_nil_of_mem (List.mem_of_getElem? hbase))
  rwa [Option.some.inj (hbase.symm.trans hpage.page)]

/-- The room `_mulle_arena_alloc` finds behind the head, in plain arithmetic. -/
theorem OnTape.fitsPage_iff {s : World} {h : Head} {q : Request} {base : Nat} (hon : OnTape s h)
    (hinv : PageInv t s) (hbase : s.pages[h.page]? = some base) (hal : t.IsAlignment q.alignment)
    (hreg : q.Regular s.pageSize) (hnw : AllocNoWrap t s q.size q.alignment) :
    (FitsPage t s q.size q.alignment ↔
      alignUp q.alignment (base + h.used) + q.size ≤ base + s.pageSize) ∧
    s.current + (q.alignment - 1) < t.modulus := by
  obtain ⟨-, -, hcurrent, hsentinel, -⟩ := hon.onPage hbase
  obtain ⟨hpos, hlt⟩ := hinv.page_lt hbase
  have hfits := hreg.fits
  unfold AllocNoWrap at hnw
  have hpad : s.current + (q.alignment - 1) < t.modulus := by
    by_cases hfit : FitsPage t s q.size q.alignment
    · rw [if_pos hfit] at hnw
      exact hnw.1
    · -- a wrapped sum would be taken for room at address 0
      refine Nat.lt_of_not_le fun hwrap => hfit ?_
      unfold FitsPage
      rw [alignPointer_wrap hal hinv.current_lt hwrap, Target.add_eq (by omega)]
      omega
  refine ⟨?_, hpad⟩
  rw [← hcurrent, ← hsentinel]
  constructor
  · intro hfit
    rw [if_pos hfit] at hnw
    unfold FitsPage at hfit
    rw [alignPointer_eq hal hpad] at hnw hfit
    rwa [Target.add_eq hnw.2] at hfit
  · intro hroom
    unfold FitsPage
    rw [alignPointer_eq hal hpad, Target.add_eq (by omega)]
    exact hroom

/-- A block placed behind the head. -/
theorem OnPage.place {s : World} {h : Head} {q : Request} {base : Nat} (hon : OnPage s h base)
    (hinv : PageInv t s) (hal : t.IsAlignment q.alignment)
    (hpad : s.current + (q.alignment - 1) < t.modulus)
    (hroom : alignUp q.alignment (base + h.used) + q.size ≤ base + s.pageSize) :
    (placeAligned t q.size q.alignment s).1 = (Head.place q h.page base h.used).1 ∧
    OnTape (placeAligned t q.size q.alignment s).2 (Head.place q h.page base h.used).2 := by
  obtain ⟨hpos, hlt⟩ := hinv.page_lt hon.page
  have hle := le_alignUp hal.pos (base + h.used)
  have hcurrent := hon.current
  rw [placeAligned_eq hal hpad (by rw [hcurrent]; omega), hcurrent]
  refine ⟨rfl, rfl, ?_, ?_⟩
  · intro hnil
    exact absurd hnil (List.ne_nil_of_mem (List.mem_of_getElem? hon.page))
  · intro _
    refine ⟨base, hon.page, hon.index, ?_, hon.sentinel, Or.inr (by dsimp only [Head.place]; omega)⟩
    show alignUp q.alignment (base + h.used) + q.size
      = base + (alignUp q.alignment (base + h.used) + q.size - base)
    omega

/-- A regular request gets the next page of the tape, which may have to be made
longer for it. -/
structure NextPage (s s' : World) : Prop where
  pages : s.pages <+: s'.pages
  pageSize : s'.pageSize = s.pageSize
  page : s'.pages[s'.pageIndex]? = some s'.current
  index : s'.pageIndex = if s.pages = [] then 0 else s.pageIndex + 1
  sentinel : s'.sentinel = s'.current + s'.pageSize

/-- The first of the pages that a reset keeps. -/
theorem first_kept {s : World} (hinv : PageInv t s) (hne : s.pages ≠ []) {keepCount : Nat}
    (hk : keepCount ≠ 0) : ∃ p, (s.pages.take keepCount)[0]? = some p ∧
      (s.pages.take keepCount).getD 0 0 = p ∧ t.add p s.pageSize = p + s.pageSize := by
  obtain ⟨p, more, hpages⟩ := List.exists_cons_of_ne_nil hne
  have hp : s.pages[0]? = some p := by
    rw [hpages]
    rfl
  have hkept : (s.pages.take keepCount)[0]? = some p := by
    rw [List.getElem?_take, if_pos (Nat.pos_of_ne_zero hk)]
    exact hp
  refine ⟨p, hkept, ?_, Target.add_eq (hinv.page_lt hp).2⟩
  rw [List.getD_eq_getElem?_getD, hkept, Option.getD_some]

/-- The two ways to another page, in plain arithmetic: the next one that is kept,
or a fresh one behind them all. -/
theorem newPage_cases {need page : Nat} {s s' : World} (hinv : PageInv t s)
    (hsys : SysOk t s sys) (h : newPage t sys need s = some (page, s')) :
    (need ≤ s.pageSize ∧ s.pages[s.pageIndex + 1]? = some page ∧
      s' = { s with
        pageIndex := s.pageIndex + 1
        current := page
        sentinel := page + s.pageSize
        log := .entered (s.pageIndex + 1) :: s.log }) ∨
    ∃ n, n = (if need > s.pageSize then need else s.pageSize) ∧ sys n = some page ∧
      ¬ (need ≤ s.pageSize ∧ s.pageIndex + 1 < s.pages.length) ∧
      s' = { s with
        pages := s.pages ++ [page]
        pageIndex := s.pages.length
        current := page
        sentinel := page + n
        mem := blit s.mem page n fun _ => 0
        log := .entered s.pages.length :: .obtained ⟨page, n⟩ :: s.log } := by
  unfold newPage at h
  split at h
  next hkept =>
    cases h
    have hget := List.getElem?_eq_getElem hkept.2
    have hpage : s.pages.getD (s.pageIndex + 1) 0 = s.pages[s.pageIndex + 1] := by
      rw [List.getD_eq_getElem?_getD, hget, Option.getD_some]
    refine Or.inl ⟨hkept.1, hpage ▸ hget, ?_⟩
    rw [Target.add_eq (hpage ▸ (hinv.page_lt hget).2)]
  next hnone =>
    dsimp only at h
    split at h
    next => cases h
    next p hp =>
      simp only [Option.some.injEq, Prod.mk.injEq] at h
      obtain ⟨rfl, rfl⟩ := h
      refine Or.inr ⟨_, rfl, hp, hnone, ?_⟩
      rw [Target.add_eq (hsys _ p hp).2.1]

theorem newPage_next {need page : Nat} {s s' : World} (hinv : PageInv t s)
    (hsys : SysOk t s sys) (hneed : need ≤ s.pageSize)
    (h : newPage t sys need s = some (page, s')) : NextPage s s' := by
  rcases newPage_cases hinv hsys h with ⟨-, hget, rfl⟩ | ⟨n, hn, -, hnone, rfl⟩
  · have hne : s.pages ≠ [] := List.ne_nil_of_mem (List.mem_of_getElem? hget)
    exact ⟨List.prefix_refl _, rfl, hget, (if_neg hne).symm, rfl⟩
  · rw [if_neg (Nat.not_lt.mpr hneed)] at hn
    subst hn
    refine ⟨List.prefix_append _ _, rfl, ?_, ?_, rfl⟩
    · simp
    · dsimp only
      split
      next hnil => rw [hnil, List.length_nil]
      next hne =>
        have := hinv.pageIndex_lt hne
        omega

/-- With a page left, the default allocator is not asked. -/
theorem newPage_kept (sys : Nat → Option Nat) {need : Nat} {s : World} (hinv : PageInv t s) (hneed : need ≤ s.pageSize)
    (hkept : s.pageIndex + 1 < s.pages.length) :
    ∃ page s', newPage t sys need s = some (page, s') ∧ NextPage s s' ∧ PageInv t s' ∧
      s'.pages = s.pages ∧ obtainedPages s'.log = obtainedPages s.log := by
  have hpage : ∀ sys', newPage t sys' need s = some (s.pages.getD (s.pageIndex + 1) 0, { s with
      pageIndex := s.pageIndex + 1
      current := s.pages.getD (s.pageIndex + 1) 0
      sentinel := t.add (s.pages.getD (s.pageIndex + 1) 0) s.pageSize
      log := .entered (s.pageIndex + 1) :: s.log }) := by
    intro sys'
    unfold newPage
    exact if_pos ⟨hneed, hkept⟩
  have hnone : SysOk t s fun _ => none := fun _ _ hp => nomatch hp
  exact ⟨_, _, hpage sys, newPage_next hinv hnone hneed (hpage _),
    (newPage_opened hinv hnone (hpage _)).inv, rfl, rfl⟩

/-- On a page just entered there is room for a regular request. -/
theorem regular_room {q : Request} {pageSize base : Nat} (hreg : q.Regular pageSize) :
    alignUp q.alignment (base + 0) + q.size ≤ base + pageSize := by
  have hup := alignUp_lt hreg.alignment_pos (base + 0)
  have hfits := hreg.fits
  omega

section

variable {s s' : World} {h h' : Head} {q : Request} {p base : Nat}

/-- A block at the start of the page just entered. -/
theorem NextPage.place (hnext : NextPage s s') (hinv : PageInv t s') (hal : t.IsAlignment q.alignment)
    (hreg : q.Regular s.pageSize) :
    (placeAligned t q.size q.alignment s').1 = (Head.place q s'.pageIndex s'.current 0).1 ∧
    OnTape (placeAligned t q.size q.alignment s').2 (Head.place q s'.pageIndex s'.current 0).2 := by
  have hlt := (hinv.page_lt hnext.page).2
  have hsize := hnext.pageSize
  have hfits := hreg.fits
  have hpos := hreg.size_pos
  have hon : OnPage s' ⟨s'.pageIndex, 0, 0⟩ s'.current :=
    ⟨hnext.page, rfl, rfl, hnext.sentinel, Or.inl rfl⟩
  refine hon.place hinv hal (by omega) ?_
  rw [hsize]
  exact regular_room hreg

/-- **Allocating** goes forward on the tape, which may get longer. -/
theorem alloc_onTape (hon : OnTape s h) (hinv : PageInv t s) (hsys : SysOk t s sys)
    (hal : t.IsAlignment q.alignment) (hreg : q.Regular s.pageSize)
    (hnw : AllocNoWrap t s q.size q.alignment)
    (halloc : alloc t sys q.size q.alignment s = some (p, s')) :
    s.pages <+: s'.pages ∧ s'.pageSize = s.pageSize ∧
    ∃ base h', s'.pages[h.page]? = some base ∧
      h.advance s'.pages s'.pageSize base q = some (p, h') ∧ OnTape s' h' := by
  by_cases hfit : FitsPage t s q.size q.alignment
  · -- behind the head
    rw [alloc_here sys hfit] at halloc
    have hne : s.pages ≠ [] := by
      intro hnil
      obtain ⟨hcurrent, hsentinel, -⟩ := hinv.empty hnil
      have hpos := hreg.size_pos
      unfold AllocNoWrap at hnw
      rw [if_pos hfit] at hnw
      unfold FitsPage at hfit
      rw [Target.add_eq hnw.2, hsentinel] at hfit
      omega
    obtain ⟨base, honpage⟩ := hon.page hne
    obtain ⟨hiff, hpad⟩ := hon.fitsPage_iff hinv honpage.page hal hreg hnw
    have hroom := hiff.mp hfit
    obtain ⟨hp, hon'⟩ := honpage.place hinv hal hpad hroom
    obtain ⟨rfl, rfl⟩ := Prod.mk.inj (Option.some.inj halloc)
    refine ⟨List.prefix_refl _, rfl, base, _, honpage.page, ?_, hon'⟩
    unfold Head.advance
    rw [if_pos hroom]
    exact congrArg some (Prod.ext hp.symm rfl)
  · have hneed : q.size + (q.alignment - 1) < t.modulus := by
      unfold AllocNoWrap at hnw
      rwa [if_neg hfit] at hnw
    rw [alloc_elsewhere sys hfit, sub_add_one hal.pos hneed] at halloc
    obtain ⟨⟨page, s₁⟩, hpage, hplaced⟩ := Option.map_eq_some_iff.mp halloc
    have hnext := newPage_next hinv hsys hreg.fits hpage
    have hinv₁ := (newPage_opened hinv hsys hpage).inv
    obtain ⟨hp, hon'⟩ := hnext.place hinv₁ hal hreg
    obtain ⟨rfl, rfl⟩ := Prod.mk.inj hplaced
    refine ⟨hnext.pages, hnext.pageSize, ?_⟩
    have hindex := hnext.index
    by_cases hnil : s.pages = []
    · -- the first page of the tape
      rw [if_pos hnil] at hindex
      obtain rfl := hon.fresh hnil
      refine ⟨s₁.current, _, hindex ▸ hnext.page, ?_, hon'⟩
      unfold Head.advance
      rw [if_pos (by
        show alignUp q.alignment (s₁.current + 0) + q.size ≤ s₁.current + s₁.pageSize
        rw [hnext.pageSize]
        exact regular_room hreg)]
      rw [hindex] at hp ⊢
      exact congrArg some (Prod.ext hp.symm rfl)
    · -- the next one
      obtain ⟨base, hbase, hindex', -, -, -⟩ := hon.page hnil
      have hroom := mt (hon.fitsPage_iff hinv hbase hal hreg hnw).1.mpr hfit
      rw [if_neg hnil, hindex'] at hindex
      refine ⟨base, _, Head.getElem?_of_more hnext.pages hbase, ?_, hon'⟩
      have hpage' := hnext.page
      rw [hindex] at hp hpage' ⊢
      unfold Head.advance
      dsimp only
      rw [hnext.pageSize, if_neg hroom]
      show s₁.pages[h.page + 1]?.map _ = _
      rw [hpage']
      exact congrArg some (Prod.ext hp.symm rfl)

/-- **And back.** On a tape that is long enough the arena obtains nothing. -/
theorem alloc_of_advance (sys : Nat → Option Nat) (hon : OnTape s h) (hinv : PageInv t s)
    (hal : t.IsAlignment q.alignment) (hreg : q.Regular s.pageSize) (hnw : AllocNoWrap t s q.size q.alignment)
    (hbase : s.pages[h.page]? = some base)
    (hserve : h.advance s.pages s.pageSize base q = some (p, h')) :
    ∃ s', alloc t sys q.size q.alignment s = some (p, s') ∧ OnTape s' h' ∧ s'.pages = s.pages ∧
      obtainedPages s'.log = obtainedPages s.log := by
  have honpage := hon.onPage hbase
  have hindex := honpage.index
  obtain ⟨hiff, hpad⟩ := hon.fitsPage_iff hinv hbase hal hreg hnw
  unfold Head.advance at hserve
  by_cases hroom : alignUp q.alignment (base + h.used) + q.size ≤ base + s.pageSize
  · rw [if_pos hroom] at hserve
    obtain ⟨hp, hon'⟩ := honpage.place hinv hal hpad hroom
    rw [Option.some.inj hserve] at hp hon'
    refine ⟨_, ?_, hon', rfl, rfl⟩
    rw [alloc_here sys (hiff.mpr hroom)]
    exact congrArg some (Prod.ext hp rfl)
  · -- the page is there already
    rw [if_neg hroom] at hserve
    obtain ⟨next, hnext, hplaced⟩ := Option.map_eq_some_iff.mp hserve
    have hkept : s.pageIndex + 1 < s.pages.length := by
      rw [hindex]
      exact (List.getElem?_eq_some_iff.mp hnext).1
    have hneed : q.size + (q.alignment - 1) < t.modulus := by
      have hfits := hreg.fits
      have hlt := (hinv.page_lt hbase).2
      omega
    obtain ⟨page, s₁, hpage, hnext', hinv₁, hpages, hobtained⟩ :=
      newPage_kept sys hinv hreg.fits hkept
    have hindex₁ : s₁.pageIndex = h.page + 1 := by
      rw [hnext'.index, if_neg (List.ne_nil_of_mem (List.mem_of_getElem? hbase)), hindex]
    have hcurrent₁ : s₁.current = next := by
      have hget := hnext'.page
      rw [hpages, hindex₁, hnext] at hget
      exact (Option.some.inj hget).symm
    obtain ⟨hp, hon'⟩ := hnext'.place hinv₁ hal hreg
    rw [hindex₁, hcurrent₁, hplaced] at hp hon'
    refine ⟨_, ?_, hon', hpages, hobtained⟩
    rw [alloc_elsewhere sys (mt hiff.mp hroom), sub_add_one hal.pos hneed, hpage]
    exact congrArg some (Prod.ext hp rfl)

/-! ## A request -/

/-- The newest block is resized where it is on the tape when it is in the arena. -/
theorem OnTape.inPlace_iff (hon : OnTape s h) (hinv : PageInv t s)
    (hbase : s.pages[h.page]? = some base)
    (hnw : NoWrap t s (.realloc q.block q.size q.size q.alignment)) :
    InPlace t s (.realloc q.block q.size q.size q.alignment) ↔
      q.block ≠ 0 ∧ q.block = h.last ∧ h.last + q.size ≤ base + s.pageSize := by
  have hlt := (hinv.page_lt hbase).2
  rw [← hon.last, ← (hon.onPage hbase).sentinel]
  constructor
  · intro hplace
    dsimp only [NoWrap] at hnw
    rw [if_pos hplace] at hnw
    obtain ⟨hne, hlast, hroom⟩ := hplace
    rw [Target.add_eq hnw] at hroom
    exact ⟨hne, hlast, hroom⟩
  · intro hplace
    obtain ⟨hne, hlast, hroom⟩ := hplace
    have hsentinel := (hon.onPage hbase).sentinel
    refine ⟨hne, hlast, ?_⟩
    rw [Target.add_eq (by omega)]
    exact hroom

/-- The newest block, resized. -/
theorem OnPage.resize (hon : OnPage s h base) (hinv : PageInv t s) (hlast : s.last = h.last)
    (hne : h.last ≠ 0) (hroom : h.last + q.size ≤ base + s.pageSize) :
    OnTape { s with current := t.add s.last q.size } { h with used := h.last + q.size - base } := by
  have hlt := (hinv.page_lt hon.page).2
  have hle := hon.newest.resolve_left hne
  refine ⟨hlast, fun hnil => ?_, fun _ => ⟨base, hon.page, hon.index, ?_, hon.sentinel, hon.newest⟩⟩
  · exact absurd hnil (List.ne_nil_of_mem (List.mem_of_getElem? hon.page))
  · dsimp only
    rw [hlast, Target.add_eq (by omega)]
    omega

/-- Memory has no part in it. -/
theorem OnTape.congr (hon : OnTape s h) (hsame : s'.toMulleArena = s.toMulleArena) :
    OnTape s' h := by
  obtain ⟨arena, mem, log⟩ := s
  obtain ⟨arena', mem', log'⟩ := s'
  dsimp only at hsame
  subst hsame
  refine ⟨hon.last, hon.fresh, fun hne => ?_⟩
  obtain ⟨base, hpage⟩ := hon.page hne
  exact ⟨base, hpage.page, hpage.index, hpage.current, hpage.sentinel, hpage.newest⟩

theorem exists_of_layoutOf {x : Option (Nat × World)}
    (hx : x.map layoutOf = some (p, s'.layout)) :
    ∃ s₁, x = some (p, s₁) ∧ s₁.layout = s'.layout := by
  obtain ⟨⟨p', s₁⟩, rfl, heq⟩ := Option.map_eq_some_iff.mp hx
  obtain ⟨rfl, hlayout⟩ := Prod.mk.inj heq
  exact ⟨s₁, rfl, hlayout⟩

/-- What a request that is no resizing in place needs. -/
theorem allocNoWrap_of_moved (hnw : NoWrap t s (.realloc q.block q.size q.size q.alignment))
    (hmoved : ¬ InPlace t s (.realloc q.block q.size q.size q.alignment)) :
    AllocNoWrap t s q.size q.alignment := by
  dsimp only [NoWrap] at hnw
  rwa [if_neg hmoved] at hnw

/-- **Refinement.** A request is answered as the tape answers it. -/
theorem placeRequest_onTape (hon : OnTape s h) (hinv : PageInv t s) (hsys : SysOk t s sys)
    (hal : t.IsAlignment q.alignment) (hreg : q.Regular s.pageSize)
    (hnw : NoWrap t s (.realloc q.block q.size q.size q.alignment))
    (hplace : (placeRequest t sys q s).map layoutOf = some (p, s'.layout)) :
    s.pages <+: s'.pages ∧ s'.pageSize = s.pageSize ∧
    ∃ h', h.serve s'.pages s'.pageSize q = some (p, h') ∧ OnTape s' h' := by
  by_cases hin : InPlace t s (.realloc q.block q.size q.size q.alignment)
  · -- the newest block, so there are pages
    have hne : s.pages ≠ [] := by
      intro hnil
      have hlast := hin.2.1.trans hon.last
      rw [hon.fresh hnil] at hlast
      exact hin.1 hlast
    obtain ⟨base, honpage⟩ := hon.page hne
    obtain ⟨hnull, hlast, hroom⟩ := (hon.inPlace_iff hinv honpage.page hnw).mp hin
    unfold placeRequest at hplace
    rw [realloc_inPlace hin] at hplace
    obtain ⟨rfl, hlayout⟩ := Prod.mk.inj (Option.some.inj hplace)
    have harena : s'.toMulleArena = { s.toMulleArena with current := t.add s.last q.size } :=
      (congrArg Prod.fst hlayout).symm
    have hpages : s'.pages = s.pages := by rw [harena]
    have hsize : s'.pageSize = s.pageSize := by rw [harena]
    rw [hpages, hsize]
    refine ⟨List.prefix_refl _, rfl, { h with used := h.last + q.size - base }, ?_, ?_⟩
    · unfold Head.serve
      rw [honpage.page]
      exact if_pos ⟨hnull, hlast, hroom⟩
    · exact (honpage.resize hinv hon.last (hlast ▸ hnull) hroom).congr harena
  · have hnw' := allocNoWrap_of_moved hnw hin
    rw [placeRequest_moved hin] at hplace
    obtain ⟨s₁, halloc, hlayout⟩ := exists_of_layoutOf hplace
    have harena : s'.toMulleArena = s₁.toMulleArena := (congrArg Prod.fst hlayout).symm
    obtain ⟨hpages, hsize, base, h', hbase, hadvance, hon'⟩ :=
      alloc_onTape hon hinv hsys hal hreg hnw' halloc
    rw [harena]
    refine ⟨hpages, hsize, h', ?_, hon'.congr harena⟩
    unfold Head.serve
    rw [hbase]
    dsimp only [Option.bind_some]
    rw [if_neg, hadvance]
    intro hplace
    obtain ⟨hnull, hlast, hroom⟩ := hplace
    by_cases hnil : s.pages = []
    · rw [hon.fresh hnil] at hlast
      exact hnull hlast
    · obtain ⟨base', honpage⟩ := hon.page hnil
      have hbase' := Head.getElem?_of_more hpages honpage.page
      obtain rfl := Option.some.inj (hbase.symm.trans hbase')
      rw [hsize] at hroom
      exact hin ((hon.inPlace_iff hinv honpage.page hnw).mpr ⟨hnull, hlast, hroom⟩)

/-- **And back.** What the tape answers, the arena answers, and obtains nothing. -/
theorem placeRequest_of_serve (sys : Nat → Option Nat) (hon : OnTape s h) (hinv : PageInv t s)
    (hal : t.IsAlignment q.alignment) (hreg : q.Regular s.pageSize)
    (hnw : NoWrap t s (.realloc q.block q.size q.size q.alignment))
    (hserve : h.serve s.pages s.pageSize q = some (p, h')) :
    ∃ s', (placeRequest t sys q s).map layoutOf = some (p, s'.layout) ∧ OnTape s' h' ∧
      s'.pages = s.pages ∧ obtainedPages s'.log = obtainedPages s.log := by
  obtain ⟨base, hbase, hserve⟩ := Option.bind_eq_some_iff.mp hserve
  by_cases hin : InPlace t s (.realloc q.block q.size q.size q.alignment)
  · have hcond := (hon.inPlace_iff hinv hbase hnw).mp hin
    rw [if_pos hcond] at hserve
    cases hserve
    have hon' := (hon.onPage hbase).resize hinv hon.last (hcond.2.1 ▸ hcond.1) hcond.2.2
    refine ⟨_, ?_, hon', rfl, rfl⟩
    unfold placeRequest
    rw [realloc_inPlace hin]
    rfl
  · rw [if_neg (mt (hon.inPlace_iff hinv hbase hnw).mpr hin)] at hserve
    obtain ⟨s', halloc, hon', hpages, hobtained⟩ :=
      alloc_of_advance sys hon hinv hal hreg (allocNoWrap_of_moved hnw hin) hbase hserve
    refine ⟨s', ?_, hon', hpages, hobtained⟩
    rw [placeRequest_moved hin, halloc]
    rfl

end

/-! ## A call -/

section

variable {c : Call} {σ σ' : Sys} {h h' : Head} {q : Request} {p : Nat} {s : World}

/-- What a direct call relies on, its request does. -/
theorem noWrap_of_asks {op : Op} (hq : op.asks t s.mem = some q) (hnw : NoWrap t s op) :
    NoWrap t s (.realloc q.block q.size q.size q.alignment) := by
  have hnull : ∀ size alignment, AllocNoWrap t s size alignment →
      NoWrap t s (.realloc 0 size size alignment) := by
    intro size alignment hnw
    have hmoved : ¬ InPlace t s (.realloc 0 size size alignment) := fun hin => hin.1 rfl
    dsimp only [NoWrap]
    rwa [if_neg hmoved]
  cases op with
  | alloc size alignment | calloc size alignment =>
    cases hq
    exact hnull size alignment hnw
  | memdup src size =>
    cases hq
    exact hnull size 1 hnw
  | strdup str =>
    obtain ⟨len, hlen, rfl⟩ := Option.map_eq_some_iff.mp hq
    obtain ⟨hlt, hnw⟩ := hnw len hlen
    rw [← Target.add_eq hlt] at hnw
    exact hnull _ 1 hnw
  | realloc block oldSize newSize alignment =>
    cases hq
    exact hnw
  | _ => cases hq

theorem isAlignment_of_asks (hq : c.op.asks t σ.world.mem = some q) (hproper : Proper t σ c) :
    t.IsAlignment q.alignment := by
  obtain ⟨op, sys⟩ := c
  cases op with
  | alloc | calloc =>
    cases hq
    exact hproper.2.2
  | memdup =>
    cases hq
    exact t.isAlignment_one
  | strdup str =>
    obtain ⟨len, -, rfl⟩ := Option.map_eq_some_iff.mp hq
    exact t.isAlignment_one
  | realloc =>
    cases hq
    exact hproper.2.2.2
  | _ => cases hq

/-- **Step.** A call that returns is answered as the tape answers it. -/
theorem exec_onTape (hon : OnTape σ.world h) (hinv : Inv t σ) (hlegal : Legal t σ c)
    (hq : c.op.asks t σ.world.mem = some q) (hreg : q.Regular σ.world.pageSize)
    (hexec : exec t c.sys c.op σ.world = some (some p, s)) :
    σ.world.pages <+: s.pages ∧ s.pageSize = σ.world.pageSize ∧
    ∃ h', h.serve s.pages s.pageSize q = some (p, h') ∧ OnTape s h' := by
  have hasks := exec_asks c.sys hq
  rw [hexec] at hasks
  obtain ⟨⟨p', L⟩, hplace, heq⟩ := Option.map_eq_some_iff.mp hasks.symm
  obtain ⟨rfl, rfl⟩ : p' = p ∧ L = s.layout := by simpa using heq
  exact placeRequest_onTape hon hinv.pages hlegal.sys (isAlignment_of_asks hq hlegal.proper) hreg
    (noWrap_of_asks hq hlegal.noWrap) hplace

/-- **Step, and back.** What the tape answers, the call answers. -/
theorem exec_of_serve (hon : OnTape σ.world h) (hinv : Inv t σ) (hlegal : Legal t σ c)
    (hq : c.op.asks t σ.world.mem = some q) (hreg : q.Regular σ.world.pageSize)
    (hserve : h.serve σ.world.pages σ.world.pageSize q = some (p, h')) :
    ∃ s, exec t c.sys c.op σ.world = some (some p, s) ∧ OnTape s h' ∧
      s.pages = σ.world.pages ∧ obtainedPages s.log = obtainedPages σ.world.log := by
  obtain ⟨s', hplace, hon', hpages, hobtained⟩ := placeRequest_of_serve c.sys hon hinv.pages
    (isAlignment_of_asks hq hlegal.proper) hreg (noWrap_of_asks hq hlegal.noWrap) hserve
  have hasks := exec_asks c.sys hq
  rw [hplace] at hasks
  obtain ⟨⟨r, s⟩, hexec, heq⟩ := Option.map_eq_some_iff.mp hasks
  obtain ⟨rfl, hlayout⟩ := Prod.mk.inj heq
  have harena : s.toMulleArena = s'.toMulleArena := congrArg Prod.fst hlayout
  refine ⟨s, hexec, hon'.congr harena, ?_, (congrArg Prod.snd hlayout).trans hobtained⟩
  rw [harena]
  exact hpages

end

end MulleStorage.Arena
