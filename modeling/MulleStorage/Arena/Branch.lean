import MulleStorage.Arena.System

/-!
# The calls by their branch

One equation for each way through the functions of the header that allocate or
free, under the condition `System` names for it: room on the current page
(`FitsPage`, `FitsPageV`), a block resized where it is (`InPlace`). Every
allocation ends in one of two placements behind the cursor, `placeAligned` and
`placeHeader`, on the page it was made on or at the start of another; what a call
adds to the block it gets is `Op.fill`.

The modules behind this one go by the equations.
-/

namespace MulleStorage.Arena

open MulleStorage.Lib

variable {t : Target} {sys : Nat → Option Nat}

/-! ## Behind the cursor -/

/-- The end of `_mulle_arena_alloc`: the block goes behind the cursor. -/
def placeAligned (t : Target) (size alignment : Nat) (s : World) : Nat × World :=
  let aligned := alignPointer t s.current alignment
  (aligned, { s with current := t.add aligned size, last := aligned })

/-- `_mulle_arena_alloc` on the current page, -/
theorem alloc_here {size alignment : Nat} {s : World} (sys : Nat → Option Nat)
    (h : FitsPage t s size alignment) :
    alloc t sys size alignment s = some (placeAligned t size alignment s) := by
  unfold alloc
  dsimp only
  rw [if_neg (Nat.not_lt.mpr h)]
  rfl

/-- and on another one. -/
theorem alloc_elsewhere {size alignment : Nat} {s : World} (sys : Nat → Option Nat)
    (h : ¬ FitsPage t s size alignment) :
    alloc t sys size alignment s =
      (newPage t sys (t.sub (t.add size alignment) 1) s).map
        fun r => placeAligned t size alignment r.2 := by
  unfold alloc
  dsimp only
  rw [if_pos (Nat.lt_of_not_le h)]
  cases newPage t sys (t.sub (t.add size alignment) 1) s with
  | none => rfl
  | some r => rfl

/-- The end of `_mulle_arena_alloc_with_size_header`: the block goes right behind
the cursor. -/
def placeHeader (t : Target) (size : Nat) (s : World) : Nat × World :=
  let user := t.add s.current t.sizeofSizeT
  let stop := t.add user size
  let s := s.storeSize t (t.sub user t.sizeofSizeT) size
  (user, { s with
    current := t.sub (alignPointer t stop t.defaultAlignment) t.sizeofSizeT
    last := t.sub user t.sizeofSizeT })

/-- `_mulle_arena_alloc_with_size_header` on the current page, -/
theorem allocWithSizeHeader_here {size : Nat} {s : World} (sys : Nat → Option Nat)
    (h : FitsPageV t s size) :
    allocWithSizeHeader t sys size s = some (placeHeader t size s) := by
  unfold allocWithSizeHeader
  dsimp only
  rw [if_neg (by unfold FitsPageV at h; omega)]
  rfl

/-- and on another one, the cursor offset. -/
theorem allocWithSizeHeader_elsewhere {size : Nat} {s : World} (sys : Nat → Option Nat)
    (h : ¬ FitsPageV t s size) :
    allocWithSizeHeader t sys size s =
      (newPage t sys (t.add (t.add t.sizeofSizeT size) (t.defaultAlignment - t.sizeofSizeT)) s).map
        fun r => placeHeader t size
          { r.2 with current := t.add r.2.current (t.defaultAlignment - t.sizeofSizeT) } := by
  unfold allocWithSizeHeader
  dsimp only
  rw [if_pos (by unfold FitsPageV at h; omega)]
  cases newPage t sys (t.add (t.add t.sizeofSizeT size) (t.defaultAlignment - t.sizeofSizeT)) s with
  | none => rfl
  | some r => rfl

/-! ## What a call does around its allocation -/

/-- The world an allocation starts from: `reallocarray` has read the header of
its block by then. -/
def Op.probe (t : Target) (s : World) : Op → World
  | .reallocarrayV block _ _ =>
    if block = 0 then s else (s.loadSize t (t.sub block t.sizeofSizeT)).2
  | _ => s

/-- What a call does to the payload of the block it carved at `p`; `m` is memory
as it was before the call. -/
def Op.fill (t : Target) (m : Mem) (p : Nat) (s : World) : Op → World
  | .calloc size _ => s.memset p size fun _ => 0
  | .memdup src size => s.memcpyFrom p src size
  | .strdup str => s.memcpyFrom p str (((strlen m str t.modulus).map (· + 1)).getD 0)
  | .realloc block oldSize newSize _ =>
    if block = 0 then s
    else s.memcpy p block (if oldSize < newSize then oldSize else newSize)
  | .callocV n size => s.memset p (n * size) fun _ => 0
  | .reallocarrayV block n size =>
    if block = 0 then s
    else
      let oldSize := loadWord m (t.sub block t.sizeofSizeT) t.sizeofSizeT
      s.memcpy p block (if oldSize < n * size then oldSize else n * size)
  | _ => s

/-- A fill does not move the arena, nor does reading a header. -/
@[simp] theorem Op.fill_arena (op : Op) (m : Mem) (p : Nat) (s : World) :
    (op.fill t m p s).toMulleArena = s.toMulleArena := by
  cases op with
  | realloc => simp only [Op.fill]; split <;> rfl
  | reallocarrayV => simp only [Op.fill]; split <;> rfl
  | _ => rfl

@[simp] theorem Op.held_fill (op : Op) (m : Mem) (p : Nat) (s : World) :
    held (op.fill t m p s).log = held s.log := by
  cases op with
  | realloc => simp only [Op.fill]; split <;> rfl
  | reallocarrayV => simp only [Op.fill]; split <;> rfl
  | _ => rfl

@[simp] theorem Op.probe_arena (op : Op) (s : World) :
    (op.probe t s).toMulleArena = s.toMulleArena := by
  cases op with
  | reallocarrayV => simp only [Op.probe]; split <;> rfl
  | _ => rfl

@[simp] theorem Op.held_probe (op : Op) (s : World) : held (op.probe t s).log = held s.log := by
  cases op with
  | reallocarrayV => simp only [Op.probe]; split <;> rfl
  | _ => rfl

/-- Where an allocation finds room does not depend on the header read. -/
theorem Op.fitsPageV_probe (op : Op) (size : Nat) (s : World) :
    FitsPageV t (op.probe t s) size ↔ FitsPageV t s size := by
  unfold FitsPageV
  rw [Op.probe_arena]

theorem Op.headerNoWrap_probe (op : Op) (size : Nat) (s : World) :
    HeaderNoWrap t (op.probe t s) size ↔ HeaderNoWrap t s size := by
  simp only [HeaderNoWrap, Op.fitsPageV_probe, Op.probe_arena]

/-! ## The direct calls -/

theorem calloc_eq (size alignment : Nat) (s : World) :
    calloc t sys size alignment s = (alloc t sys size alignment s).map
      fun r => (r.1, (Op.calloc size alignment).fill t s.mem r.1 r.2) := by
  unfold calloc
  cases alloc t sys size alignment s with
  | none => rfl
  | some r => rfl

theorem memdup_eq (src size : Nat) (s : World) :
    memdup t sys src size s = (alloc t sys size 1 s).map
      fun r => (r.1, (Op.memdup src size).fill t s.mem r.1 r.2) := by
  unfold memdup
  cases alloc t sys size 1 s with
  | none => rfl
  | some r => rfl

/-- `_mulle_arena_strdup` on a terminated string, the terminator included. -/
theorem strdup_eq {str : Nat} {s : World} {r : Nat × World} (h : strdup t sys str s = some r) :
    ∃ len, strlen s.mem str t.modulus = some len ∧ memdup t sys str (t.add len 1) s = some r := by
  unfold strdup at h
  cases hlen : strlen s.mem str t.modulus with
  | none =>
    rw [hlen] at h
    cases h
  | some len =>
    rw [hlen] at h
    exact ⟨len, rfl, h⟩

section

variable {block oldSize newSize alignment : Nat} {s : World}

/-- `_mulle_arena_realloc` of the newest block, with room behind it, -/
theorem realloc_inPlace (h : InPlace t s (.realloc block oldSize newSize alignment)) :
    realloc t sys block oldSize newSize alignment s =
      some (block, { s with current := t.add s.last newSize }) := by
  have hext : Extends t s block newSize := h.2
  unfold realloc
  rw [if_neg h.1]
  exact if_pos hext

/-- and of any other, or `NULL`. -/
theorem realloc_moved (h : ¬ InPlace t s (.realloc block oldSize newSize alignment)) :
    realloc t sys block oldSize newSize alignment s = (alloc t sys newSize alignment s).map
      fun r => (r.1, (Op.realloc block oldSize newSize alignment).fill t s.mem r.1 r.2) := by
  unfold realloc
  simp only [Op.fill]
  by_cases hz : block = 0
  · simp only [if_pos hz]
    exact Option.map_id'.symm
  · have hext : ¬ Extends t s block newSize := fun hext => h ⟨hz, hext⟩
    rw [if_neg hz, if_neg (by exact hext)]
    simp only [if_neg hz]
    cases alloc t sys newSize alignment s with
    | none => rfl
    | some r => rfl

end

/-! ## The resets -/

/-- All of them keep some number of pages, whatever is in memory. -/
theorem exec_reset {op : Op} (hop : op.IsReset) (sys : Nat → Option Nat) (s : World) :
    ∃ keepCount, ∀ m, exec t sys op { s with mem := m } =
      some (none, resetKeepPages t keepCount { s with mem := m }) := by
  cases op with
  | reset => exact ⟨0, fun _ => rfl⟩
  | resetKeepPages keepCount => exact ⟨keepCount, fun _ => rfl⟩
  | resetKeepPercentage percent =>
    exact ⟨t.add (s.pages.length * (if percent > 100 then 100 else percent) % t.modulus) 99 / 100,
      fun _ => rfl⟩
  | _ => exact hop.elim

/-! ## The vtable calls -/

/-- The check a vtable call starts with: a call that gets past it asks for a size
that is neither 0 nor too large. -/
theorem sizeMultiply_eq_some {n size total : Nat} (hzero : ¬ (n = 0 ∨ size = 0))
    (h : sizeMultiply t n size = some total) :
    total = n * size ∧ 0 < n * size ∧ n * size < t.modulus := by
  unfold sizeMultiply at h
  split at h
  next hlt =>
    have hpos : 0 < n * size := Nat.mul_pos (by omega) (by omega)
    exact ⟨(Option.some.inj h).symm, hpos, hlt⟩
  next => cases h

theorem not_zero_of_mul_pos {n size : Nat} (h : 0 < n * size) : ¬ (n = 0 ∨ size = 0) := by
  have hn := Nat.pos_of_mul_pos_right h
  have hsize := Nat.pos_of_mul_pos_left h
  omega

section

variable {n size : Nat} {s : World} {r : Nat × World}

theorem callocV_size (h : callocV t sys n size s = some r) :
    0 < n * size ∧ n * size < t.modulus := by
  unfold callocV at h
  split at h
  next => cases h
  next hzero =>
    split at h
    next => cases h
    next total htotal => exact (sizeMultiply_eq_some hzero htotal).2

theorem callocV_eq (hpos : 0 < n * size) (hlt : n * size < t.modulus) :
    callocV t sys n size s = (allocWithSizeHeader t sys (n * size) s).map
      fun r => (r.1, (Op.callocV n size).fill t s.mem r.1 r.2) := by
  unfold callocV sizeMultiply
  rw [if_neg (not_zero_of_mul_pos hpos), if_pos hlt]
  dsimp only
  cases allocWithSizeHeader t sys (n * size) s with
  | none => rfl
  | some r => rfl

theorem reallocarrayV_size {block : Nat} (h : reallocarrayV t sys block n size s = some r) :
    0 < n * size ∧ n * size < t.modulus := by
  unfold reallocarrayV at h
  split at h
  next => cases h
  next hzero =>
    split at h
    next => cases h
    next total htotal => exact (sizeMultiply_eq_some hzero htotal).2

/-- `_mulle_arena_reallocarray_v` of the newest block, with room behind it, -/
theorem reallocarrayV_inPlace {block : Nat} (hpos : 0 < n * size) (hlt : n * size < t.modulus)
    (h : InPlace t s (.reallocarrayV block n size)) :
    reallocarrayV t sys block n size s = some (block,
      World.storeSize t { (s.loadSize t (t.sub block t.sizeofSizeT)).2 with
        current := t.sub (alignPointer t (t.add block (n * size)) t.defaultAlignment)
          t.sizeofSizeT } (t.sub block t.sizeofSizeT) (n * size)) := by
  have hext : ExtendsV t s block (n * size) := h.2
  unfold reallocarrayV sizeMultiply
  rw [if_neg (not_zero_of_mul_pos hpos), if_pos hlt]
  dsimp only
  rw [if_neg h.1]
  exact if_pos hext

/-- and of any other, or `NULL`. -/
theorem reallocarrayV_moved {block : Nat} (hpos : 0 < n * size) (hlt : n * size < t.modulus)
    (h : ¬ InPlace t s (.reallocarrayV block n size)) :
    reallocarrayV t sys block n size s =
      (allocWithSizeHeader t sys (n * size) ((Op.reallocarrayV block n size).probe t s)).map
        fun r => (r.1, (Op.reallocarrayV block n size).fill t s.mem r.1 r.2) := by
  unfold reallocarrayV sizeMultiply
  rw [if_neg (not_zero_of_mul_pos hpos), if_pos hlt]
  dsimp only
  by_cases hz : block = 0
  · rw [if_pos hz]
    simp only [Op.probe, Op.fill, if_pos hz]
    exact Option.map_id'.symm
  · have hext : ¬ ExtendsV t s block (n * size) := fun hext => h ⟨hz, hext⟩
    rw [if_neg hz, if_neg (by exact hext)]
    simp only [Op.probe, Op.fill, if_neg hz]
    cases allocWithSizeHeader t sys (n * size) (s.loadSize t (t.sub block t.sizeofSizeT)).2 with
    | none => rfl
    | some r => rfl

/-- With `NULL` it is a plain allocation. -/
theorem reallocarrayV_null (hpos : 0 < n * size) (hlt : n * size < t.modulus) :
    reallocarrayV t sys 0 n size s = allocWithSizeHeader t sys (n * size) s := by
  have hmoved : ¬ InPlace t s (.reallocarrayV 0 n size) := fun h => h.1 rfl
  rw [reallocarrayV_moved hpos hlt hmoved]
  exact Option.map_id'

end

/-- `_mulle_arena_free_v` of the newest block steps back over it, -/
theorem freeV_newest {p : Nat} {s : World} (hp : p ≠ 0) (hlast : t.sub p t.sizeofSizeT = s.last) :
    freeV t p s =
      { (if t.debug then s.memset s.last (t.sub s.current s.last) t.poison else s) with
        current := s.last
        last := 0 } := by
  unfold freeV
  rw [if_neg hp]
  dsimp only
  rw [if_pos hlast, hlast]

/-- whatever a debug build writes, -/
theorem freeV_newest_arena {p : Nat} {s : World} (hp : p ≠ 0)
    (hlast : t.sub p t.sizeofSizeT = s.last) :
    (freeV t p s).toMulleArena = { s.toMulleArena with current := s.last, last := 0 } := by
  rw [freeV_newest hp hlast]
  split <;> rfl

/-- and leaves any other alone. -/
theorem freeV_other {p : Nat} {s : World} (h : t.sub p t.sizeofSizeT ≠ s.last) :
    freeV t p s = s := by
  unfold freeV
  dsimp only
  rw [if_neg h]
  exact ite_self s

end MulleStorage.Arena
