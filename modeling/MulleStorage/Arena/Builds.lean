import MulleStorage.Arena.Forget
import MulleStorage.Arena.Poison

/-!
# Debug and release

A debug build fills what it takes back: the pages a reset keeps, which a release
build clears, and the block a `free` steps back over, which a release build leaves
as it was. That is all clients ever see of it:

> `builds_agree`: the release build goes along with every run of the debug build.
> All calls return the same pointers, the same pages are obtained and returned,
> and a byte differs only where the debug build shows the filler.

`Parallel` is what the worlds of the two builds have in common, and every function
of the header keeps it. Two calls go by what is in memory. A `strdup` measures its
string, which must not have the filler in it (`Plain`). A `reallocarray` reads the
header of its block, and those are the same in both builds (`HeadersAgree`) as long
as no block is misaligned so far that the cursor stops inside its header
(`HeadRoom`): then the next block, and the fill when it is freed, starts there.
-/

namespace MulleStorage.Arena

open MulleStorage.Lib

variable {t : Target} {sys : Nat → Option Nat}

/-! ## The two worlds -/

/-- The same target without `DEBUG`. -/
def Target.release (t : Target) : Target := { t with debug := false }

/-- A byte that the filler has. -/
def Target.IsFiller (t : Target) (v : UInt8) : Prop := ∃ i, v = t.poison i

/-- `v` in the release build, where the debug build has `d`. -/
def Target.Shows (t : Target) (d v : UInt8) : Prop := v = d ∨ t.IsFiller d

/-- What a log says about pages. -/
def pageEvents (log : List Event) : List Event :=
  log.filter fun
    | .touched _ _ => false
    | _ => true

/-- The pages held are those of that part of the log. -/
theorem held_pageEvents (log : List Event) : held (pageEvents log) = held log := by
  induction log with
  | nil => rfl
  | cons e log ih =>
    cases e with
    | obtained r => exact congrArg (· ++ [r]) ih
    | returned p => exact congrArg (List.eraseP fun r => r.base == p) ih
    | touched | entered | rewound => exact ih

/-- `x` is in the release build what `s` is in the debug build. -/
structure Parallel (t : Target) (s x : World) : Prop where
  arena : x.toMulleArena = s.toMulleArena
  mem : ∀ a, t.Shows (s.mem a) (x.mem a)
  log : pageEvents x.log = pageEvents s.log

/-- The call returns in both builds, or in neither; the results are the same, and
the worlds stay parallel. -/
def Returns {α : Type} (t : Target) : Option (α × World) → Option (α × World) → Prop :=
  Option.Rel fun r q => q.1 = r.1 ∧ Parallel t r.2 q.2

theorem Returns.map {α β : Type} {r q : Option (α × World)} (h : Returns t r q)
    {f g : α × World → β × World}
    (hfg : ∀ p s x, Parallel t s x →
      (g (p, x)).1 = (f (p, s)).1 ∧ Parallel t (f (p, s)).2 (g (p, x)).2) :
    Returns t (r.map f) (q.map g) := by
  cases h with
  | none => exact .none
  | @some r q h =>
    obtain ⟨p, s⟩ := r
    obtain ⟨p', x⟩ := q
    obtain ⟨rfl, hpar⟩ := h
    exact .some (hfg _ s x hpar)

theorem Returns.fst_eq {α : Type} {r q : Option (α × World)} (h : Returns t r q) :
    q.map Prod.fst = r.map Prod.fst := by
  cases h with
  | none => rfl
  | some h => exact congrArg some h.1

namespace Parallel

variable {s x : World}

/-- They differ in memory and log only. -/
theorem exists_eq (h : Parallel t s x) : ∃ m log, x = { s with mem := m, log := log } := by
  obtain ⟨arena, m, log⟩ := x
  cases h.arena
  exact ⟨m, log, rfl⟩

theorem held_eq (h : Parallel t s x) : held x.log = held s.log := by
  rw [← held_pageEvents, h.log, held_pageEvents]

/-- The cursor is the same, wherever it is put. -/
theorem setCursor (h : Parallel t s x) (c last : Nat) :
    Parallel t { s with current := c, last := last } { x with current := c, last := last } where
  arena := congrArg (fun a : MulleArena => { a with current := c, last := last }) h.arena
  mem := h.mem
  log := h.log

/-- What both builds store, -/
theorem memset (h : Parallel t s x) (p n : Nat) {f g : Nat → UInt8}
    (hfg : ∀ i, i < n → t.Shows (f i) (g i)) :
    Parallel t (s.memset p n f) (x.memset p n g) where
  arena := h.arena
  mem := blit_rel h.mem hfg
  log := h.log

/-- and what only the debug build fills. -/
theorem fill (h : Parallel t s x) (p n : Nat) : Parallel t (s.memset p n t.poison) x where
  arena := h.arena
  mem := blit_rel_left h.mem fun i _ => Or.inr ⟨i, rfl⟩
  log := h.log

theorem memcpy (h : Parallel t s x) (dst src n : Nat) :
    Parallel t (s.memcpy dst src n) (x.memcpy dst src n) where
  arena := h.arena
  mem := (h.memset dst n fun i _ => h.mem (src + i)).mem
  log := h.log

/-- Reading leaves memory as it is. -/
theorem loadSize (h : Parallel t s x) (p : Nat) :
    Parallel t (s.loadSize t p).2 (World.loadSize t.release x p).2 :=
  ⟨h.arena, h.mem, h.log⟩

/-- A block is resized where it is in both builds, or in neither. -/
theorem inPlace_iff (h : Parallel t s x) (op : Op) : InPlace t.release x op ↔ InPlace t s op := by
  obtain ⟨m, log, rfl⟩ := h.exists_eq
  cases op <;> exact Iff.rfl

end Parallel

/-! ## Allocations -/

section

variable {s x : World}

/-- `_mulle_arena_new_page`. -/
theorem newPage_parallel (h : Parallel t s x) (need : Nat) :
    Returns t (newPage t sys need s) (newPage t.release sys need x) := by
  obtain ⟨m, log, rfl⟩ := h.exists_eq
  unfold newPage
  dsimp only
  by_cases hkept : need ≤ s.pageSize ∧ s.pageIndex + 1 < s.pages.length
  · rw [if_pos hkept, if_pos hkept]
    exact .some ⟨rfl, rfl, h.mem, congrArg (_ :: ·) h.log⟩
  · rw [if_neg hkept, if_neg hkept]
    cases sys (if need > s.pageSize then need else s.pageSize) with
    | none => exact .none
    | some page =>
      exact .some ⟨rfl, rfl, (h.memset page _ fun _ _ => Or.inl rfl).mem,
        congrArg (_ :: _ :: ·) h.log⟩

/-- The block goes to the same place, -/
theorem placeAligned_parallel (h : Parallel t s x) (size alignment : Nat) :
    (placeAligned t.release size alignment x).1 = (placeAligned t size alignment s).1 ∧
    Parallel t (placeAligned t size alignment s).2 (placeAligned t.release size alignment x).2 := by
  obtain ⟨m, log, rfl⟩ := h.exists_eq
  exact ⟨rfl, h.setCursor _ _⟩

/-- with the same header. -/
theorem placeHeader_parallel (h : Parallel t s x) (size : Nat) :
    (placeHeader t.release size x).1 = (placeHeader t size s).1 ∧
    Parallel t (placeHeader t size s).2 (placeHeader t.release size x).2 := by
  obtain ⟨m, log, rfl⟩ := h.exists_eq
  exact ⟨rfl, (h.memset _ _ fun _ _ => Or.inl rfl).setCursor _ _⟩

/-- `_mulle_arena_alloc`. -/
theorem alloc_parallel (h : Parallel t s x) (size alignment : Nat) :
    Returns t (alloc t sys size alignment s) (alloc t.release sys size alignment x) := by
  obtain ⟨m, log, rfl⟩ := h.exists_eq
  by_cases hfit : FitsPage t s size alignment
  · rw [alloc_here sys hfit, alloc_here sys (by exact hfit)]
    exact .some (placeAligned_parallel h size alignment)
  · rw [alloc_elsewhere sys hfit, alloc_elsewhere sys (by exact hfit)]
    exact (newPage_parallel h _).map fun _ s x h => placeAligned_parallel h size alignment

/-- `_mulle_arena_alloc_with_size_header`. -/
theorem allocWithSizeHeader_parallel (h : Parallel t s x) (size : Nat) :
    Returns t (allocWithSizeHeader t sys size s) (allocWithSizeHeader t.release sys size x) := by
  obtain ⟨m, log, rfl⟩ := h.exists_eq
  by_cases hfit : FitsPageV t s size
  · rw [allocWithSizeHeader_here sys hfit, allocWithSizeHeader_here sys (by exact hfit)]
    exact .some (placeHeader_parallel h size)
  · rw [allocWithSizeHeader_elsewhere sys hfit, allocWithSizeHeader_elsewhere sys (by exact hfit)]
    refine (newPage_parallel h _).map fun _ s x h => placeHeader_parallel ?_ size
    obtain ⟨m, log, rfl⟩ := h.exists_eq
    exact h.setCursor _ s.last

/-! ## Calls -/

/-- What a call goes by in the memories `m` and `m'`, the string it measures or
the header it reads, is the same. -/
def Op.SameInput (t : Target) (m m' : Mem) : Op → Prop
  | .strdup str => ∃ len, strlen m str t.modulus = some len ∧ strlen m' str t.modulus = some len
  | .reallocarrayV block _ _ =>
    block ≠ 0 → loadWord m' (t.sub block t.sizeofSizeT) t.sizeofSizeT =
      loadWord m (t.sub block t.sizeofSizeT) t.sizeofSizeT
  | _ => True

/-- What a call does to the payload of its block. -/
theorem Op.fill_parallel {op : Op} {m m' : Mem} (hsame : op.SameInput t m m') (p : Nat)
    (h : Parallel t s x) : Parallel t (op.fill t m p s) (op.fill t.release m' p x) := by
  cases op with
  | calloc size => exact h.memset p size fun _ _ => Or.inl rfl
  | callocV n size => exact h.memset p (n * size) fun _ _ => Or.inl rfl
  | memdup src size => exact h.memset p size fun i _ => h.mem (src + i)
  | strdup str =>
    obtain ⟨len, hlen, hlen'⟩ := hsame
    simp only [Op.fill, hlen, show strlen m' str t.release.modulus = some len from hlen']
    exact h.memset p _ fun i _ => h.mem (str + i)
  | realloc block oldSize newSize =>
    simp only [Op.fill]
    by_cases hz : block = 0
    · rw [if_pos hz, if_pos hz]
      exact h
    · rw [if_neg hz, if_neg hz]
      exact h.memcpy p block _
  | reallocarrayV block n size =>
    simp only [Op.fill]
    by_cases hz : block = 0
    · rw [if_pos hz, if_pos hz]
      exact h
    · have hword : loadWord m' (t.release.sub block t.release.sizeofSizeT) t.release.sizeofSizeT =
          loadWord m (t.sub block t.sizeofSizeT) t.sizeofSizeT := hsame hz
      rw [if_neg hz, if_neg hz, hword]
      exact h.memcpy p block _
  | _ => exact h

theorem Op.probe_parallel (op : Op) (h : Parallel t s x) :
    Parallel t (op.probe t s) (op.probe t.release x) := by
  cases op with
  | reallocarrayV block =>
    simp only [Op.probe]
    by_cases hz : block = 0
    · rw [if_pos hz, if_pos hz]
      exact h
    · rw [if_neg hz, if_neg hz]
      exact h.loadSize _
  | _ => exact h

/-- An allocation, and what its call does to the payload. -/
theorem Returns.fill {r q : Option (Nat × World)} (h : Returns t r q) {op : Op} {m m' : Mem}
    (hsame : op.SameInput t m m') :
    Returns t (r.map fun r => (r.1, op.fill t m r.1 r.2))
      (q.map fun q => (q.1, op.fill t.release m' q.1 q.2)) :=
  h.map fun p _ _ hpar => ⟨rfl, Op.fill_parallel hsame p hpar⟩

/-- `_mulle_arena_memdup`. -/
theorem memdup_parallel (h : Parallel t s x) (src size : Nat) :
    Returns t (memdup t sys src size s) (memdup t.release sys src size x) := by
  rw [memdup_eq, memdup_eq]
  exact (alloc_parallel h size 1).fill trivial

/-- `_mulle_arena_realloc`. -/
theorem realloc_parallel (h : Parallel t s x) (block oldSize newSize alignment : Nat) :
    Returns t (realloc t sys block oldSize newSize alignment s)
      (realloc t.release sys block oldSize newSize alignment x) := by
  by_cases hplace : InPlace t s (.realloc block oldSize newSize alignment)
  · obtain ⟨m, log, rfl⟩ := h.exists_eq
    rw [realloc_inPlace hplace, realloc_inPlace (by exact hplace)]
    exact .some ⟨rfl, h.setCursor _ s.last⟩
  · rw [realloc_moved hplace, realloc_moved (mt (h.inPlace_iff _).mp hplace)]
    exact (alloc_parallel h newSize alignment).fill trivial

/-- `_mulle_arena_calloc_v`. -/
theorem callocV_parallel (h : Parallel t s x) (n size : Nat) :
    Returns t (callocV t sys n size s) (callocV t.release sys n size x) := by
  by_cases hsize : 0 < n * size ∧ n * size < t.modulus
  · rw [callocV_eq hsize.1 hsize.2, callocV_eq hsize.1 (by exact hsize.2)]
    exact (allocWithSizeHeader_parallel h (n * size)).fill trivial
  · have hnone : callocV t sys n size s = none :=
      Option.eq_none_iff_forall_ne_some.mpr fun _ hr => hsize (callocV_size hr)
    have hnone' : callocV t.release sys n size x = none :=
      Option.eq_none_iff_forall_ne_some.mpr fun _ hr => hsize (callocV_size hr)
    rw [hnone, hnone']
    exact .none

/-- `_mulle_arena_reallocarray_v`. -/
theorem reallocarrayV_parallel (h : Parallel t s x) {block n size : Nat}
    (hsame : (Op.reallocarrayV block n size).SameInput t s.mem x.mem) :
    Returns t (reallocarrayV t sys block n size s)
      (reallocarrayV t.release sys block n size x) := by
  by_cases hsize : 0 < n * size ∧ n * size < t.modulus
  · by_cases hplace : InPlace t s (.reallocarrayV block n size)
    · obtain ⟨m, log, rfl⟩ := h.exists_eq
      rw [reallocarrayV_inPlace hsize.1 hsize.2 hplace,
        reallocarrayV_inPlace hsize.1 (by exact hsize.2) (by exact hplace)]
      have hread := h.loadSize (t.sub block t.sizeofSizeT)
      exact .some ⟨rfl, (hread.setCursor _ s.last).memset _ _ fun _ _ => Or.inl rfl⟩
    · rw [reallocarrayV_moved hsize.1 hsize.2 hplace,
        reallocarrayV_moved hsize.1 (by exact hsize.2) (mt (h.inPlace_iff _).mp hplace)]
      exact (allocWithSizeHeader_parallel (Op.probe_parallel _ h) (n * size)).fill hsame
  · have hnone : reallocarrayV t sys block n size s = none :=
      Option.eq_none_iff_forall_ne_some.mpr fun _ hr => hsize (reallocarrayV_size hr)
    have hnone' : reallocarrayV t.release sys block n size x = none :=
      Option.eq_none_iff_forall_ne_some.mpr fun _ hr => hsize (reallocarrayV_size hr)
    rw [hnone, hnone']
    exact .none

/-- `_mulle_arena_free_v`: the fill is the debug build's own. -/
theorem freeV_parallel (h : Parallel t s x) (block : Nat) :
    Parallel t (freeV t block s) (freeV t.release block x) := by
  obtain ⟨m, log, rfl⟩ := h.exists_eq
  by_cases hlast : t.sub block t.sizeofSizeT = s.last
  · by_cases hz : block = 0
    · subst hz
      exact h
    · rw [freeV_newest hz hlast, freeV_newest hz (by exact hlast)]
      by_cases hdebug : t.debug = true
      · rw [if_pos hdebug]
        exact (h.fill _ _).setCursor _ _
      · rw [if_neg hdebug]
        exact h.setCursor _ _
  · rw [freeV_other hlast, freeV_other (by exact hlast)]
    exact h

/-- A page that is kept is filled in one build and cleared in the other. -/
theorem keepPage_parallel (h : Parallel t s x) (page : Nat) :
    Parallel t (keepPage t s page) (keepPage t.release x page) := by
  obtain ⟨m, log, rfl⟩ := h.exists_eq
  have hfill : ∀ i, i < s.pageSize →
      t.Shows ((if t.debug then t.poison else fun _ => 0) i) 0 := by
    intro i _
    by_cases hdebug : t.debug = true
    · rw [if_pos hdebug]
      exact Or.inr ⟨i, rfl⟩
    · rw [if_neg hdebug]
      exact Or.inl rfl
  have hclear := h.memset page s.pageSize (g := fun _ => 0) hfill
  exact ⟨rfl, hclear.mem, hclear.log⟩

/-- A loop over pages. -/
theorem Parallel.foldl {f g : World → Nat → World}
    (hfg : ∀ {s x}, Parallel t s x → ∀ page, Parallel t (f s page) (g x page))
    (h : Parallel t s x) (l : List Nat) : Parallel t (l.foldl f s) (l.foldl g x) := by
  induction l generalizing s x with
  | nil => exact h
  | cons page l ih => exact ih (hfg h page)

/-- The two loops of a reset, over the pages it returns and those it keeps. -/
theorem loops_parallel (h : Parallel t s x) (gone kept : List Nat) :
    Parallel t (kept.foldl (keepPage t) { gone.foldl World.freePage s with pages := [] })
      (kept.foldl (keepPage t.release) { gone.foldl World.freePage x with pages := [] }) := by
  refine Parallel.foldl keepPage_parallel ?_ kept
  have hfree := h.foldl (f := World.freePage) (g := World.freePage)
    (fun h page => ⟨h.arena, h.mem, congrArg (Event.returned page :: ·) h.log⟩) gone
  exact ⟨congrArg (fun a : MulleArena => { a with pages := [] }) hfree.arena, hfree.mem, hfree.log⟩

/-- `_mulle_arena_reset_keep_pages`. -/
theorem resetKeepPages_parallel (h : Parallel t s x) (keepCount : Nat) :
    Parallel t (resetKeepPages t keepCount s) (resetKeepPages t.release keepCount x) := by
  obtain ⟨m, log, rfl⟩ := h.exists_eq
  unfold resetKeepPages
  dsimp only
  by_cases hn : s.pages.length = 0
  · rw [if_pos hn, if_pos hn]
    exact h
  · rw [if_neg hn, if_neg hn]
    generalize (if keepCount > s.pages.length then s.pages.length else keepCount) = keepCount
    have hloops := loops_parallel h (s.pages.drop keepCount) (s.pages.take keepCount)
    obtain ⟨m', log', hx⟩ := hloops.exists_eq
    rw [hx] at hloops ⊢
    by_cases hk : keepCount ≠ 0
    · rw [if_pos hk, if_pos hk]
      exact ⟨rfl, hloops.mem, congrArg (Event.entered 0 :: Event.rewound :: ·) hloops.log⟩
    · rw [if_neg hk, if_neg hk]
      exact ⟨rfl, hloops.mem, congrArg (Event.rewound :: ·) hloops.log⟩

/-- **One call, two builds.** -/
theorem exec_parallel (h : Parallel t s x) (sys : Nat → Option Nat) {op : Op}
    (hsame : op.SameInput t s.mem x.mem) :
    Returns t (exec t sys op s) (exec t.release sys op x) := by
  have hblock : ∀ {r q : Option (Nat × World)}, Returns t r q →
      Returns t (r.map fun r => (some r.1, r.2)) (q.map fun q => (some q.1, q.2)) :=
    fun hr => hr.map fun _ _ _ hpar => ⟨rfl, hpar⟩
  cases op with
  | alloc size alignment => exact hblock (alloc_parallel h size alignment)
  | calloc size alignment =>
    refine hblock ?_
    rw [calloc_eq, calloc_eq]
    exact (alloc_parallel h size alignment).fill trivial
  | memdup src size => exact hblock (memdup_parallel h src size)
  | strdup str =>
    obtain ⟨len, hlen, hlen'⟩ := hsame
    refine hblock ?_
    unfold strdup
    rw [hlen, show strlen x.mem str t.release.modulus = some len from hlen']
    exact memdup_parallel h str _
  | realloc block oldSize newSize alignment =>
    exact hblock (realloc_parallel h block oldSize newSize alignment)
  | callocV n size => exact hblock (callocV_parallel h n size)
  | reallocarrayV block n size => exact hblock (reallocarrayV_parallel h hsame)
  | freeV block => exact .some ⟨rfl, freeV_parallel h block⟩
  | reset => exact .some ⟨rfl, resetKeepPages_parallel h 0⟩
  | resetKeepPages keepCount => exact .some ⟨rfl, resetKeepPages_parallel h keepCount⟩
  | resetKeepPercentage percent =>
    obtain ⟨m, log, rfl⟩ := h.exists_eq
    exact .some ⟨rfl, resetKeepPages_parallel h _⟩
  | write p bytes =>
    exact .some ⟨rfl, h.arena, (h.memset p bytes.length fun _ _ => Or.inl rfl).mem, h.log⟩

end

/-! ## Headers -/

section

variable {σ σ' τ τ' : Sys} {c : Call} {r : Option Nat}

/-- Each block leaves the cursor behind its own header. -/
def HeadRoom (t : Target) (σ : Sys) : Prop := ∀ b ∈ σ.live, b.ptr ≤ b.edge t

/-- Then a later block is not put over it. -/
theorem clear_of_after {b d : Block} (hafter : (shape t).After b d) (hroom : d.ptr ≤ d.edge t)
    (hpage : d.page = b.page) : d.ptr ≤ b.start t := by
  rcases hafter with hlt | ⟨-, hedge⟩
  · exact absurd hpage (Nat.ne_of_lt hlt)
  · exact Nat.le_trans hroom hedge

theorem HeadRoom.clear (h : HeadRoom t σ) (hinv : Inv t σ) : Clear t σ := by
  refine (List.Pairwise.and_mem.mp hinv.stacked.order).imp ?_
  rintro b d ⟨-, hd, hafter⟩
  exact clear_of_after hafter (h d hd)

/-- Nor is the block that a call returns. -/
theorem HeadRoom.clear_step (h : HeadRoom t σ) (hinv : Inv t σ) (heff : Effect t c σ r σ') :
    Clear t σ' := by
  have hclear := h.clear hinv
  cases heff with
  | carved _ _ _ halloc =>
    refine List.pairwise_cons.mpr ⟨fun d hd => ?_, hclear.filter _⟩
    have hd' := (List.mem_filter.mp hd).1
    exact clear_of_after (halloc.toCarved.of_probe.after hinv σ.clock hd') (h d hd')
  | extended hlive =>
    unfold Clear at hclear
    rw [hlive] at hclear
    obtain ⟨hfirst, hrest⟩ := List.pairwise_cons.mp hclear
    exact List.pairwise_cons.mpr ⟨hfirst, hrest⟩
  | rewound _ hlive =>
    unfold Clear at hclear
    rw [hlive] at hclear
    exact (List.pairwise_cons.mp hclear).2
  | abandoned => exact hclear.filter _
  | reset => exact .nil
  | written => exact hclear

/-- The rounded end of a block is on its side of an aligned page. -/
theorem edge_le_of_stop_le {b : Block} {p : Nat} (hp : t.defaultAlignment ∣ p) (h : b.stop ≤ p) :
    b.edge t ≤ p := by
  unfold Block.edge edgeOf
  cases b.api with
  | direct => exact h
  | vtable => exact Nat.le_trans (Nat.sub_le _ _) (alignUp_le t.defaultAlignment_pos hp h)

/-- On aligned pages the fill of a debug `free` ends in front of the next one. -/
theorem fillApart_of_aligned (hinv : Inv t σ)
    (hpages : ∀ q ∈ held σ.world.log, t.defaultAlignment ∣ q.base) (op : Op) :
    FillApart t σ op := by
  intro _ b hb _ _ _ d hd hpage hle
  obtain ⟨q, r, -, hr, hstop, hbefore, hrbase⟩ := hinv.page_before hb hd hpage hle
  have hdvd := hpages r (List.mem_of_getElem? hr)
  exact Nat.le_trans (edge_le_of_stop_le hdvd (Nat.le_trans hstop hbefore)) hrbase

/-! ## Runs -/

/-- `τ` is the arena of the release build next to its clients, who hold the same
blocks, with the same headers. -/
structure Companion (t : Target) (σ τ : Sys) : Prop where
  world : Parallel t σ.world τ.world
  live : τ.live = σ.live
  clock : τ.clock = σ.clock

/-- The headers are the same, too. -/
def HeadersAgree (t : Target) (σ τ : Sys) : Prop :=
  ∀ b ∈ σ.live, b.api = .vtable →
    loadWord τ.world.mem (b.start t) t.sizeofSizeT = loadWord σ.world.mem (b.start t) t.sizeofSizeT

/-- A string that is copied is one, and the filler is not in it. -/
def Plain (t : Target) (m : Mem) : Op → Prop
  | .strdup str =>
    (strlen m str t.modulus).isSome ∧
      ∀ len ∈ strlen m str t.modulus, ∀ i, i ≤ len → ¬ t.IsFiller (m (str + i))
  | _ => True

/-- A call that cannot tell the builds apart. -/
structure Careful (t : Target) (σ : Sys) (c : Call) : Prop where
  legal : Legal t σ c
  aligned : SysAligned t c.sys
  room : HeadRoom t σ
  plain : Plain t σ.world.mem c.op

namespace Companion

theorem exists_eq (h : Companion t σ τ) :
    ∃ m log, τ = { σ with world := { σ.world with mem := m, log := log } } := by
  obtain ⟨x, live, clock⟩ := τ
  cases h.live
  cases h.clock
  obtain ⟨m, log, hx⟩ := h.world.exists_eq
  exact ⟨m, log, congrArg (fun x => Sys.mk x σ.live σ.clock) hx⟩

/-- What the next call goes by is the same. -/
theorem sameInput (h : Companion t σ τ) (hheaders : HeadersAgree t σ τ) (hinv : Inv t σ)
    (hc : Careful t σ c) : c.op.SameInput t σ.world.mem τ.world.mem := by
  obtain ⟨op, sys⟩ := c
  cases op with
  | strdup str =>
    obtain ⟨hterm, hclear⟩ := hc.plain
    obtain ⟨len, hlen⟩ := Option.isSome_iff_exists.mp hterm
    refine ⟨len, hlen, strlen_congr hlen fun i hi => ?_⟩
    exact (h.world.mem _).resolve_right (hclear len hlen i hi)
  | reallocarrayV block n size =>
    intro hz
    obtain ⟨b, hb, his⟩ := hc.legal.proper.1.resolve_left hz
    rw [(hinv.raw_eq hb his).2]
    exact hheaders b hb his.1
  | _ => trivial

/-- The size asked for is. -/
theorem size_eq {op : Op} {m m' : Mem} (hsame : op.SameInput t m m') :
    op.size t.release m' = op.size t m := by
  cases op with
  | strdup str =>
    obtain ⟨len, hlen, hlen'⟩ := hsame
    simp only [Op.size, hlen, show strlen m' str t.release.modulus = some len from hlen']
  | _ => rfl

/-- The call is legal in both builds. -/
theorem legal (h : Companion t σ τ) (hlegal : Legal t σ c)
    (hsame : c.op.SameInput t σ.world.mem τ.world.mem) : Legal t.release τ c := by
  obtain ⟨op, sys⟩ := c
  have hheld := h.world.held_eq
  obtain ⟨m, log, rfl⟩ := h.exists_eq
  refine ⟨?_, ?_, ?_⟩
  · intro n p hp
    obtain ⟨hpos, hlt, hdisj⟩ := hlegal.sys n p hp
    exact ⟨hpos, hlt, fun r hr => hdisj r (hheld ▸ hr)⟩
  · have hproper := hlegal.proper
    cases op with
    | _ => exact hproper
  · have hnw := hlegal.noWrap
    cases op with
    | strdup str =>
      obtain ⟨len, hlen, hlen'⟩ := hsame
      intro k hk
      cases hlen'.symm.trans hk
      exact hnw len hlen
    | _ => exact hnw

/-- The clients' books. -/
theorem record (h : Companion t σ τ) {op : Op} (hsame : op.SameInput t σ.world.mem τ.world.mem)
    {p : Option Nat} {s x : World} (hpar : Parallel t s x) :
    Companion t (σ.record t op (p, s)) (τ.record t.release op (p, x)) := by
  have hsize := size_eq hsame
  obtain ⟨m, log, rfl⟩ := h.exists_eq
  obtain ⟨m', log', rfl⟩ := hpar.exists_eq
  cases p with
  | none => cases op <;> exact ⟨hpar, rfl, rfl⟩
  | some p =>
    simp only [Sys.record, Sys.grant, hsize]
    split
    next => exact ⟨hpar, rfl, rfl⟩
    next => exact ⟨hpar, rfl, rfl⟩

/-- A call that returns in the debug build returns the same in the other. -/
theorem exec (h : Companion t σ τ) (hsame : c.op.SameInput t σ.world.mem τ.world.mem) {s : World}
    (hr : Arena.exec t c.sys c.op σ.world = some (r, s)) :
    ∃ x, Arena.exec t.release c.sys c.op τ.world = some (r, x) ∧
      Companion t (σ.record t c.op (r, s)) (τ.record t.release c.op (r, x)) := by
  have hboth := exec_parallel h.world c.sys hsame
  rw [hr] at hboth
  generalize Arena.exec t.release c.sys c.op τ.world = q at hboth ⊢
  cases hboth with
  | @some _ q hq =>
    obtain ⟨p, x⟩ := q
    obtain ⟨rfl, hpar⟩ := hq
    exact ⟨x, rfl, h.record hsame hpar⟩

end Companion

/-- The header of a block that is returned is its size, in both builds. -/
theorem Effect.same_word {d : Block} (heff : Effect t c σ r σ') (heff' : Effect t.release c τ r τ')
    (hinv : Inv t σ) (hinv' : Inv t.release τ)
    (hsame : c.op.SameInput t σ.world.mem τ.world.mem) (hapi : d.api = .vtable)
    (hr : r = some d.ptr ∧ d.api = c.op.api) :
    loadWord τ'.world.mem (d.start t) t.sizeofSizeT =
      loadWord σ'.world.mem (d.start t) t.sizeofSizeT := by
  obtain ⟨rfl, heq⟩ := hr
  have hword := heff.word hinv (heq.symm.trans hapi)
  have hword' := heff'.word hinv' (heq.symm.trans hapi)
  rw [Companion.size_eq hsame] at hword'
  have hstart : d.start t = d.ptr - t.sizeofSizeT := by
    unfold Block.start
    rw [hapi]
    rfl
  rw [hstart]
  exact hword'.trans hword.symm

theorem HeadersAgree.step (h : HeadersAgree t σ τ) (hcomp : Companion t σ τ)
    (hlive : τ'.live = σ'.live) (hinv : Inv t σ) (hinv' : Inv t.release τ)
    (hpages : ∀ q ∈ held σ.world.log, t.defaultAlignment ∣ q.base) (hc : Careful t σ c)
    (hsame : c.op.SameInput t σ.world.mem τ.world.mem) (heff : Effect t c σ r σ')
    (heff' : Effect t.release c τ r τ') : HeadersAgree t σ' τ' := by
  intro d hd hapi
  by_cases hw : ∃ p bytes, c.op = .write p bytes
  · -- both builds store the same bytes
    obtain ⟨p, bytes, hop⟩ := hw
    obtain ⟨hkept, hmem⟩ := heff.of_write hop
    obtain ⟨-, hmem'⟩ := heff'.of_write hop
    rw [hmem, hmem']
    have hbytes := h d (hkept ▸ hd) hapi
    refine loadWord_congr fun i hi => ?_
    exact blit_congr (fun _ _ => rfl) fun _ => bytes_of_loadWord hbytes hi
  · have hnot : ¬ c.op.IsWrite := by
      cases hop : c.op with
      | write p bytes => exact absurd ⟨p, bytes, hop⟩ hw
      | _ => exact id
    have hlegal' := hcomp.legal hc.legal hsame
    have hpages' : ∀ q ∈ held τ.world.log, t.release.defaultAlignment ∣ q.base :=
      fun q hq => hpages q (hcomp.world.held_eq ▸ hq)
    have hroom' : HeadRoom t.release τ := fun b hb => hc.room b (hcomp.live ▸ hb)
    rcases heff.headers_kept hinv hc.legal.sys (hc.room.clear hinv) (hc.room.clear_step hinv heff)
      (fillApart_of_aligned hinv hpages c.op) hnot hd with ⟨hd₀, hframe⟩ | hr
    · rcases heff'.headers_kept hinv' hlegal'.sys (hroom'.clear hinv') (hroom'.clear_step hinv' heff')
        (fillApart_of_aligned hinv' hpages' c.op) hnot (hlive ▸ hd) with ⟨-, hframe'⟩ | hr
      · -- an old block: neither build has written to its header
        have hptr : d.ptr = d.start t + t.sizeofSizeT := (hinv.placed d hd₀).ptr_eq hapi
        have hword : loadWord σ'.world.mem (d.start t) t.sizeofSizeT =
            loadWord σ.world.mem (d.start t) t.sizeofSizeT :=
          loadWord_congr fun i hi => hframe _ (Nat.le_add_right _ _) (by omega)
        have hword' : loadWord τ'.world.mem (d.start t) t.sizeofSizeT =
            loadWord τ.world.mem (d.start t) t.sizeofSizeT :=
          loadWord_congr fun i hi => hframe' _ (Nat.le_add_right _ _) (by omega)
        exact hword'.trans ((h d hd₀ hapi).trans hword.symm)
      · exact heff.same_word heff' hinv hinv' hsame hapi hr
    · exact heff.same_word heff' hinv hinv' hsame hapi hr

/-- What a run of both builds keeps. -/
structure Abreast (t : Target) (σ τ : Sys) : Prop where
  inv : Inv t σ
  inv' : Inv t.release τ
  pages : ∀ q ∈ held σ.world.log, t.defaultAlignment ∣ q.base
  companion : Companion t σ τ
  headers : HeadersAgree t σ τ

namespace Abreast

theorem start (t : Target) (pageSize : Nat) (mem : Mem) :
    Abreast t (Sys.start pageSize mem) (Sys.start pageSize mem) where
  inv := Inv.start t pageSize mem
  inv' := Inv.start t.release pageSize mem
  pages _ hq := absurd hq List.not_mem_nil
  companion := ⟨⟨rfl, fun _ => Or.inl rfl, rfl⟩, rfl, rfl⟩
  headers _ hb := absurd hb List.not_mem_nil

/-- **Step.** -/
theorem step (h : Abreast t σ τ) (hc : Careful t σ c) (hs : σ.step t c = some σ') :
    ∃ τ', Legal t.release τ c ∧ τ.step t.release c = some τ' ∧ Abreast t σ' τ' := by
  have hsame := h.companion.sameInput h.headers h.inv hc
  have hlegal' := h.companion.legal hc.legal hsame
  obtain ⟨⟨r, s⟩, hr, rfl⟩ := Option.map_eq_some_iff.mp hs
  obtain ⟨x, hx, hcomp⟩ := h.companion.exec hsame hr
  have heff := exec_effect h.inv hc.legal hr
  have heff' := exec_effect h.inv' hlegal' hx
  refine ⟨τ.record t.release c.op (r, x), hlegal', ?_, ?_⟩
  · unfold Sys.step
    rw [hx]
    rfl
  · exact ⟨heff.inv h.inv, heff'.inv h.inv', heff.dvd_base hc.aligned h.pages, hcomp,
      h.headers.step h.companion hcomp.live h.inv h.inv' h.pages hc hsame heff heff'⟩

end Abreast

end

variable {pageSize : Nat} {mem : Mem} {l : List Call} {σ : Sys}

/-- **Debug and release.** Clients cannot tell the builds apart but by the filler:
the release build goes along with every run of the debug build, with the same
arena, the same pages and the same blocks. The next call returns the same pointer,
or returns in neither. -/
theorem builds_agree (h : Reach (Sys.step t) (Careful t) (Sys.start pageSize mem) l σ) :
    ∃ τ, Reach (Sys.step t.release) (Legal t.release) (Sys.start pageSize mem) l τ ∧
      τ.world.toMulleArena = σ.world.toMulleArena ∧ τ.live = σ.live ∧
      pageEvents τ.world.log = pageEvents σ.world.log ∧
      (∀ a, t.Shows (σ.world.mem a) (τ.world.mem a)) ∧
      ∀ c, Careful t σ c → (exec t.release c.sys c.op τ.world).map Prod.fst =
        (exec t c.sys c.op σ.world).map Prod.fst := by
  obtain ⟨τ, hτ, habreast⟩ := h.simulated (Abreast.start t pageSize mem) Abreast.step
  have hcomp := habreast.companion
  refine ⟨τ, hτ, hcomp.world.arena, hcomp.live, hcomp.world.log, hcomp.world.mem, ?_⟩
  intro c hc
  have hsame := hcomp.sameInput habreast.headers habreast.inv hc
  exact (exec_parallel hcomp.world c.sys hsame).fst_eq

/-- The filler of the common ABI has two bytes. -/
theorem x64_isFiller (debug : Bool) (v : UInt8) :
    (x64 debug).IsFiller v ↔ v = 0xAD ∨ v = 0xDE := by
  constructor
  · rintro ⟨i, rfl⟩
    unfold x64
    dsimp only
    split
    next => exact Or.inl rfl
    next => exact Or.inr rfl
  · rintro (rfl | rfl)
    · exact ⟨0, rfl⟩
    · exact ⟨1, rfl⟩

instance (debug : Bool) (v : UInt8) : Decidable ((x64 debug).IsFiller v) :=
  decidable_of_iff _ (x64_isFiller debug v).symm

instance (σ : Sys) : Decidable (HeadRoom t σ) := inferInstanceAs (Decidable (∀ b ∈ σ.live, _))

instance (m : Mem) [∀ v, Decidable (t.IsFiller v)] : DecidablePred (Plain t m)
  | .strdup str => inferInstanceAs (Decidable (_ ∧ ∀ len ∈ strlen m str t.modulus,
      ∀ i, i ≤ len → ¬ t.IsFiller (m (str + i))))
  | .alloc .. | .calloc .. | .memdup .. | .realloc .. | .callocV .. | .reallocarrayV .. | .freeV ..
  | .reset | .resetKeepPages .. | .resetKeepPercentage .. | .write .. => isTrue trivial

/-- Both APIs on one page: a block is resized, freed and used again, and so is the
page. -/
def buildsScript : List Line :=
  [⟨.callocV 1 20, [(96, 0x1000)]⟩, ⟨.write 0x1010 [1, 2, 3], []⟩, ⟨.reallocarrayV 0x1010 1 24, []⟩,
    ⟨.freeV 0x1010, []⟩, ⟨.callocV 1 8, []⟩, ⟨.alloc 16 8, []⟩, ⟨.strdup 0x5000, []⟩,
    ⟨.resetKeepPages 1, []⟩, ⟨.alloc 4 4, []⟩, ⟨.memdup 0x1000 4, []⟩,
    ⟨.callocV 2 8, []⟩, ⟨.reallocarrayV 0x1010 5 16, [(96, 0x2000)]⟩]

theorem builds_agree_mixed :
    let σ := scriptEnd (x64 true) 96 (fun _ => 0) buildsScript
    ∃ τ, Reach (Sys.step (x64 true).release) (Legal (x64 true).release)
        (Sys.start 96 fun _ => 0) (buildsScript.map Line.call) τ ∧
      τ.world.toMulleArena = σ.world.toMulleArena ∧ τ.live = σ.live ∧
      pageEvents τ.world.log = pageEvents σ.world.log ∧
      (∀ a, (x64 true).Shows (σ.world.mem a) (τ.world.mem a)) ∧
      ∀ c, Careful (x64 true) σ c → (exec (x64 true).release c.sys c.op τ.world).map Prod.fst =
        (exec (x64 true) c.sys c.op σ.world).map Prod.fst :=
  builds_agree (reach_of_script
    (P := fun σ x => Line.Ok (x64 true) σ x ∧ x.Aligned (x64 true) ∧ HeadRoom (x64 true) σ ∧
      Plain (x64 true) σ.world.mem x.op)
    (fun σ x hx => ⟨Line.legal σ x hx.1, Line.sysAligned hx.2.1, hx.2.2.1, hx.2.2.2⟩)
    (by decide +kernel))

end MulleStorage.Arena
