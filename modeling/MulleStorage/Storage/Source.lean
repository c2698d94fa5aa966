import MulleStorage.Arena.Machine

/-!
# The functions of `mulle-storage.h` and `mulle-indexedstorage.h`

Both pools keep their nodes in a container of structs (`_structs`) that only
grows, and the nodes given back in a pointer array (`_freed`). They differ in
what a node is to its client: an address that never moves in `mulle_storage`, an
index into an array that does in `mulle_indexedstorage`.

The containers are `mulle-container`'s, whose source is not part of this
repository. They are assumed to do what follows, and nothing else is used of them:
- `mulle__pointerarray` is a list; `add` appends, `pop` takes the last entry off
  and is `NULL` on an empty array.
- `mulle_structqueue_reserve` and `mulle_structarray_reserve` get their answer
  from the environment: where the element, or the whole array, now lies, and
  memory after whatever was done to make room. `none` is an allocator's `fail`
  handler ending the program.

Mirroring notes:
- `size_t` subtraction wraps, and so do the conversions to `unsigned int`.
- The element size is what the container answers after its `init`.
- The asserts of a function are a definition of their own next to it.
- The allocator and the capacities have no influence on any result here.
-/

namespace MulleStorage

open MulleStorage.Lib MulleStorage.Arena

/-! ## `mulle__pointerarray` -/

/-- `mulle__pointerarray_add`, of `mulle-container`: taken to append. -/
def pointerarrayAdd (array : List Nat) (p : Nat) : List Nat := array ++ [p]

/-- `mulle__pointerarray_pop`, of `mulle-container`: taken to remove the last entry,
and to be `NULL` on an empty array. -/
def pointerarrayPop (array : List Nat) : Nat × List Nat := (array.getLastD 0, array.dropLast)

@[simp] theorem pointerarrayPop_nil : pointerarrayPop [] = (0, []) := rfl

@[simp] theorem pointerarrayPop_append (array : List Nat) (p : Nat) :
    pointerarrayPop (array ++ [p]) = (p, array) := by
  simp [pointerarrayPop]

/-! ## `mulle-storage.h` -/

namespace Pool

/-- `struct mulle_structqueue`: the addresses of its elements, oldest first. -/
structure Structqueue where
  elements : List Nat
  elementSize : Nat

/-- `struct mulle_storage`. -/
structure Storage where
  structs : Structqueue
  freed : List Nat

/-- A storage and memory. -/
structure World extends Storage where
  mem : Mem

/-- `_mulle_structqueue_get_element_size( &alloc->_structs)`. -/
def World.size (s : World) : Nat := s.structs.elementSize

/-- `memset`/`mulle_memset_uint32`: `n` bytes from `p`, byte `i` being `f i`. -/
def World.memset (s : World) (p n : Nat) (f : Nat → UInt8) : World :=
  { s with mem := blit s.mem p n f }

/-- `memcpy( p, q, n)`. -/
def World.memcpy (s : World) (p q n : Nat) : World :=
  { s with mem := blit s.mem p n fun i => s.mem (q + i) }

/-- The element a `mulle_structqueue_reserve` returns, and memory after it. -/
structure Reserved where
  ptr : Nat
  mem : Mem

/-- `mulle_structqueue_reserve`. -/
def structqueueReserve (env : Option Reserved) (s : World) : Option (Nat × World) :=
  env.map fun r =>
    (r.ptr, { s with
      structs := { s.structs with elements := s.structs.elements ++ [r.ptr] }
      mem := r.mem })

/-- `_mulle_storage_init`. -/
def init (elementSize : Nat) (mem : Mem) : World where
  structs := ⟨[], elementSize⟩
  freed := []
  mem := mem

/-- `_mulle_storage_malloc`. -/
def malloc (env : Option Reserved) (s : World) : Option (Nat × World) :=
  let (p, freed) := pointerarrayPop s.freed
  let s := { s with freed := freed }
  if p = 0 then structqueueReserve env s else some (p, s)

/-- `_mulle_storage_calloc`. -/
def calloc (env : Option Reserved) (s : World) : Option (Nat × World) :=
  (malloc env s).map fun (p, s) => (p, s.memset p s.size fun _ => 0)

/-- `_mulle_storage_copy`. -/
def copy (env : Option Reserved) (q : Nat) (s : World) : Option (Nat × World) :=
  (malloc env s).map fun (p, s) => (p, s.memcpy p q s.size)

/-- The asserts of `_mulle_storage_free`: `p` is an element that is not freed. -/
def FreeAsserts (p : Nat) (s : World) : Prop := p ∉ s.freed ∧ p ∈ s.structs.elements

/-- `_mulle_storage_free`. -/
def free (t : Target) (p : Nat) (s : World) : World :=
  let s := if t.debug then s.memset p s.size t.poison else s
  { s with freed := pointerarrayAdd s.freed p }

/-- `_mulle_storage_get_count`. -/
def getCount (t : Target) (s : World) : Nat := t.sub s.structs.elements.length s.freed.length

end Pool

/-! ## `mulle-indexedstorage.h` -/

namespace Indexed

/-- `struct mulle_structarray`: where its storage lies, and what is in it. -/
structure Structarray where
  base : Nat
  count : Nat
  elementSize : Nat

/-- `struct mulle_indexedstorage`. -/
structure IndexedStorage where
  structs : Structarray
  freed : List Nat

/-- An indexed storage and memory. -/
structure World extends IndexedStorage where
  mem : Mem

/-- `_mulle_indexedstorage_get_element_size`. -/
def World.size (s : World) : Nat := s.structs.elementSize

/-- `mulle_memset_uint32`: `n` bytes from `p`, byte `i` being `f i`. -/
def World.memset (s : World) (p n : Nat) (f : Nat → UInt8) : World :=
  { s with mem := blit s.mem p n f }

/-- Where the array lies after a `mulle_structarray_reserve`, and memory. -/
structure Grown where
  base : Nat
  mem : Mem

/-- `mulle_structarray_reserve`. -/
def structarrayReserve (env : Option Grown) (s : World) : Option World :=
  env.map fun r =>
    { s with
      structs := { s.structs with base := r.base, count := s.structs.count + 1 }
      mem := r.mem }

/-- `_mulle_structarray_get`. -/
def structarrayGet (array : Structarray) (index : Nat) : Nat :=
  array.base + index * array.elementSize

/-- `_mulle_indexedstorage_init`. -/
def init (elementSize : Nat) (mem : Mem) : World where
  structs := ⟨0, 0, elementSize⟩
  freed := []
  mem := mem

/-- `_mulle_indexedstorage_alloc`. -/
def alloc (t : Target) (env : Option Grown) (s : World) : Option (Nat × World) :=
  let (index1, freed) := pointerarrayPop s.freed
  let s := { s with freed := freed }
  if index1 ≠ 0 then
    let index := t.sub index1 1
    some (index % 2 ^ t.uintBits, s)
  else
    let index := s.structs.count
    (structarrayReserve env s).map fun s => (index % 2 ^ t.uintBits, s)

/-- `(void *) (uintptr_t) (index + 1)`, the sum being one of `unsigned int`s. -/
def encode (t : Target) (index : Nat) : Nat := (index + 1) % 2 ^ t.uintBits

/-- The asserts of `_mulle_indexedstorage_free` and `_mulle_indexedstorage_get`:
`index` is inside the array and not freed. -/
def IndexAsserts (t : Target) (index : Nat) (s : World) : Prop :=
  index < s.structs.count ∧ encode t index ∉ s.freed

/-- `_mulle_indexedstorage_get`. -/
def get (index : Nat) (s : World) : Nat := structarrayGet s.structs index

/-- `_mulle_indexedstorage_free`. -/
def free (t : Target) (index : Nat) (s : World) : World :=
  let index1 := encode t index
  let s := if t.debug then s.memset (structarrayGet s.structs index) s.size t.poison else s
  { s with freed := pointerarrayAdd s.freed index1 }

/-- `_mulle_indexedstorage_get_count`. -/
def getCount (t : Target) (s : World) : Nat := t.sub s.structs.count s.freed.length

end Indexed

end MulleStorage
