import MulleStorage.Arena.Machine

/-!
# The functions of `mulle-arena.h`

One definition per function of the header, under the source's words, computing
what the C computes: every address and `size_t` sum wraps, `NULL` is 0, an
`Option` result is `none` when the call does not return.

Parameters of the environment:
- `sys n` is the answer of the default allocator's `calloc` to a request for `n`
  bytes: an address, or `none` when its `fail` handler ends the program. No
  function makes more than one request.
- `t` is the ABI and the build.

Mirroring notes:
- `_pages` is a list; `_mulle__pointerarray_add` appends, `_get` indexes.
- `_mulle_arena_alloc` computes `aligned` and `end` a second time after
  `_mulle_arena_new_page`; so does `alloc`.
- `reset_keep_pages` frees the tail first and then rebuilds `_pages` while it
  clears the kept pages; both loops are folds here.
- The asserts of `_mulle_arena_alloc` are preconditions of a call
  (`Proper` in `System.lean`).
-/

namespace MulleStorage.Arena

open MulleStorage.Lib

/-- `_mulle_arena_align_pointer`. -/
def alignPointer (t : Target) (p alignment : Nat) : Nat :=
  let mask := t.sub alignment 1
  t.add p mask &&& (t.modulus - 1 - mask)

/-- `_mulle_arena_new_page`. -/
def newPage (t : Target) (sys : Nat → Option Nat) (minSize : Nat) (s : World) :
    Option (Nat × World) :=
  if minSize ≤ s.pageSize ∧ s.pageIndex + 1 < s.pages.length then
    -- a page kept on reset, taken as `page_size` bytes long
    let index := s.pageIndex + 1
    let page := s.pages.getD index 0
    some (page, { s with
      pageIndex := index
      current := page
      sentinel := t.add page s.pageSize
      log := .entered index :: s.log })
  else
    let actualSize := if minSize > s.pageSize then minSize else s.pageSize
    match sys actualSize with
    | none => none
    | some page =>
      some (page, { s with
        pages := s.pages ++ [page]
        pageIndex := s.pages.length
        current := page
        sentinel := t.add page actualSize
        mem := blit s.mem page actualSize fun _ => 0
        log := .entered s.pages.length :: .obtained ⟨page, actualSize⟩ :: s.log })

/-- `_mulle_arena_init`. -/
def init (pageSize : Nat) (mem : Mem) : World where
  pages := []
  current := 0
  sentinel := 0
  last := 0
  pageSize := if pageSize = 0 then 4096 else pageSize
  pageIndex := 0
  mem := mem
  log := []

/-- `_mulle_arena_done`. -/
def done (s : World) : World :=
  { s.pages.foldl World.freePage s with pages := [] }

/-- One turn of the loop that rebuilds `_pages`: clear a kept page, add it. -/
def keepPage (t : Target) (s : World) (page : Nat) : World :=
  let s := s.memset page s.pageSize (if t.debug then t.poison else fun _ => 0)
  { s with pages := s.pages ++ [page] }

/-- `_mulle_arena_reset_keep_pages`. -/
def resetKeepPages (t : Target) (keepCount : Nat) (s : World) : World :=
  let n := s.pages.length
  if n = 0 then s
  else
    let keepCount := if keepCount > n then n else keepCount
    let old := s.pages
    let s := (old.drop keepCount).foldl World.freePage s
    let s := (old.take keepCount).foldl (keepPage t) { s with pages := [] }
    if keepCount ≠ 0 then
      let page := s.pages.getD 0 0
      { s with
        current := page
        sentinel := t.add page s.pageSize
        last := 0
        pageIndex := 0
        log := .entered 0 :: .rewound :: s.log }
    else
      { s with
        current := 0
        sentinel := 0
        last := 0
        pageIndex := 0
        log := .rewound :: s.log }

/-- `_mulle_arena_reset_keep_percentage`. -/
def resetKeepPercentage (t : Target) (percent : Nat) (s : World) : World :=
  let percent := if percent > 100 then 100 else percent
  resetKeepPages t (t.add (s.pages.length * percent % t.modulus) 99 / 100) s

/-- `_mulle_arena_reset`. -/
def reset (t : Target) (s : World) : World := resetKeepPages t 0 s

/-! ## The direct calls -/

/-- `_mulle_arena_alloc`. -/
def alloc (t : Target) (sys : Nat → Option Nat) (size alignment : Nat) (s : World) :
    Option (Nat × World) :=
  let aligned := alignPointer t s.current alignment
  let stop := t.add aligned size
  if stop > s.sentinel then
    match newPage t sys (t.sub (t.add size alignment) 1) s with
    | none => none
    | some (_, s) =>
      let aligned := alignPointer t s.current alignment
      let stop := t.add aligned size
      some (aligned, { s with current := stop, last := aligned })
  else
    some (aligned, { s with current := stop, last := aligned })

/-- `_mulle_arena_calloc`. -/
def calloc (t : Target) (sys : Nat → Option Nat) (size alignment : Nat) (s : World) :
    Option (Nat × World) :=
  match alloc t sys size alignment s with
  | none => none
  | some (p, s) => some (p, s.memset p size fun _ => 0)

/-- `_mulle_arena_realloc`. -/
def realloc (t : Target) (sys : Nat → Option Nat) (block oldSize newSize alignment : Nat)
    (s : World) : Option (Nat × World) :=
  if block = 0 then alloc t sys newSize alignment s
  else
    let stop := t.add s.last newSize
    if block = s.last ∧ stop ≤ s.sentinel then
      some (block, { s with current := stop })
    else
      match alloc t sys newSize alignment s with
      | none => none
      | some (p, s) => some (p, s.memcpy p block (if oldSize < newSize then oldSize else newSize))

/-- `_mulle_arena_memdup`. -/
def memdup (t : Target) (sys : Nat → Option Nat) (src size : Nat) (s : World) :
    Option (Nat × World) :=
  match alloc t sys size 1 s with
  | none => none
  | some (p, s) => some (p, s.memcpyFrom p src size)

/-- `strlen`, looking at no more than `fuel` bytes. -/
def strlen (m : Mem) : Nat → Nat → Option Nat
  | _, 0 => none
  | p, fuel + 1 => if m p = 0 then some 0 else (strlen m (p + 1) fuel).map (· + 1)

/-- `_mulle_arena_strdup`. -/
def strdup (t : Target) (sys : Nat → Option Nat) (str : Nat) (s : World) :
    Option (Nat × World) :=
  match strlen s.mem str t.modulus with
  | none => none
  | some len => memdup t sys str (t.add len 1) s

/-- `_mulle_arena_get_page_count`. -/
def getPageCount (s : World) : Nat := s.pages.length

/-! ## The vtable calls -/

/-- `mulle_allocator_size_multiply`, of `mulle-allocator`, whose source is not part
of this repository: assumed to end in `fail` exactly when the product overflows. -/
def sizeMultiply (t : Target) (n size : Nat) : Option Nat :=
  if n * size < t.modulus then some (n * size) else none

/-- `_mulle_arena_alloc_with_size_header`. -/
def allocWithSizeHeader (t : Target) (sys : Nat → Option Nat) (size : Nat) (s : World) :
    Option (Nat × World) :=
  let total := t.add t.sizeofSizeT size
  let user := t.add s.current t.sizeofSizeT
  let stop := t.add user size
  let opened :=
    if stop > s.sentinel ∨ s.sentinel = 0 then
      match newPage t sys (t.add total (t.defaultAlignment - t.sizeofSizeT)) s with
      | none => none
      | some (_, s) =>
        -- offset `_current` so that `+ sizeof( size_t)` is aligned
        some { s with current := t.add s.current (t.defaultAlignment - t.sizeofSizeT) }
    else some s
  match opened with
  | none => none
  | some s =>
    let user := t.add s.current t.sizeofSizeT
    let stop := t.add user size
    let s := s.storeSize t (t.sub user t.sizeofSizeT) size
    some (user, { s with
      current := t.sub (alignPointer t stop t.defaultAlignment) t.sizeofSizeT
      last := t.sub user t.sizeofSizeT })

/-- `_mulle_arena_reallocarray_v`. -/
def reallocarrayV (t : Target) (sys : Nat → Option Nat) (block n size : Nat) (s : World) :
    Option (Nat × World) :=
  if n = 0 ∨ size = 0 then none
  else
    match sizeMultiply t n size with
    | none => none
    | some total =>
      if block = 0 then allocWithSizeHeader t sys total s
      else
        let raw := t.sub block t.sizeofSizeT
        let (oldSize, s) := s.loadSize t raw
        let stop := t.add block total
        if raw = s.last ∧ stop ≤ s.sentinel then
          let s := { s with
            current := t.sub (alignPointer t stop t.defaultAlignment) t.sizeofSizeT }
          some (block, s.storeSize t raw total)
        else
          match allocWithSizeHeader t sys total s with
          | none => none
          | some (p, s) => some (p, s.memcpy p block (if oldSize < total then oldSize else total))

/-- `_mulle_arena_calloc_v`. -/
def callocV (t : Target) (sys : Nat → Option Nat) (n size : Nat) (s : World) :
    Option (Nat × World) :=
  if n = 0 ∨ size = 0 then none
  else
    match sizeMultiply t n size with
    | none => none
    | some total =>
      match allocWithSizeHeader t sys total s with
      | none => none
      | some (p, s) => some (p, s.memset p total fun _ => 0)

/-- `_mulle_arena_free_v`. -/
def freeV (t : Target) (block : Nat) (s : World) : World :=
  if block = 0 then s
  else
    let raw := t.sub block t.sizeofSizeT
    if raw = s.last then
      let s := if t.debug then s.memset raw (t.sub s.current raw) t.poison else s
      { s with current := raw, last := 0 }
    else s

end MulleStorage.Arena
