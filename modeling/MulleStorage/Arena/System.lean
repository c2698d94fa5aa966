import MulleStorage.Arena.Source
import MulleStorage.Lib.Run

/-!
# An arena and its clients

`Sys` puts the arena next to what its clients hold: the list of live blocks,
newest first. `Sys.step` runs one call of the header's API (`exec`) and keeps
the books the way a client does (`record`): a returned pointer is a block of the
requested size, `realloc` retires the block it was given, `free` retires its
block, a reset retires all of them. `Op.write` is a client storing into one of
its own blocks.

What a call needs of its surroundings is split by who is responsible:
- `SysOk`: the default allocator's `calloc` answers with a fresh region of the
  requested size, or not at all;
- `Proper`: the client's side of the contract (live blocks, true sizes, the
  asserted alignments);
- `NoWrap`: the address computations whose values decide the call's branch and
  result stay inside the address space.

`Sources`, that a copied source is memory the caller may read, only matters to
what the copy holds.
-/

namespace MulleStorage.Arena

open MulleStorage.Lib

/-- Which of the two APIs a block came from. -/
inductive Api
  | direct
  | vtable
  deriving DecidableEq, Repr

/-- Bytes the API keeps in front of a block. -/
def Api.header (t : Target) : Api → Nat
  | .direct => 0
  | .vtable => t.sizeofSizeT

/-- A block a client holds. `page` and `stamp` are ghosts: the page index the
block was carved from and the number of blocks carved before it. -/
structure Block where
  api : Api
  ptr : Nat
  size : Nat
  page : Nat
  stamp : Nat
  deriving DecidableEq, Repr

/-- First address the block occupies, its header included: what `_last` holds
for it. -/
def Block.start (t : Target) (b : Block) : Nat := b.ptr - b.api.header t

/-- One past the last byte of the payload. -/
def Block.stop (b : Block) : Nat := b.ptr + b.size

/-- The addresses of the payload. -/
def Block.payload (b : Block) : Region := ⟨b.ptr, b.size⟩

/-- The addresses of the size header. -/
def Block.headerRegion (t : Target) (b : Block) : Region := ⟨b.start t, b.api.header t⟩

/-- The block `ptr` of `api`. -/
def Block.Is (api : Api) (ptr : Nat) (b : Block) : Prop := b.api = api ∧ b.ptr = ptr

instance (api : Api) (ptr : Nat) : DecidablePred (Block.Is api ptr) :=
  fun _ => inferInstanceAs (Decidable (_ ∧ _))

/-- One call on the arena, or one store of a client. -/
inductive Op
  | alloc (size alignment : Nat)
  | calloc (size alignment : Nat)
  | memdup (src size : Nat)
  | strdup (str : Nat)
  | realloc (block oldSize newSize alignment : Nat)
  | callocV (n size : Nat)
  | reallocarrayV (block n size : Nat)
  | freeV (block : Nat)
  | reset
  | resetKeepPages (keepCount : Nat)
  | resetKeepPercentage (percent : Nat)
  | write (p : Nat) (bytes : List UInt8)
  deriving DecidableEq, Repr

namespace Op

/-- Calls of the direct API that hand out a block. -/
def IsDirect : Op → Prop
  | .alloc .. | .calloc .. | .memdup .. | .strdup .. | .realloc .. => True
  | _ => False

/-- Calls through the `mulle_allocator` vtable. -/
def IsVtable : Op → Prop
  | .callocV .. | .reallocarrayV .. | .freeV .. => True
  | _ => False

/-- The resets. -/
def IsReset : Op → Prop
  | .reset | .resetKeepPages .. | .resetKeepPercentage .. => True
  | _ => False

/-- Stores of a client. -/
def IsWrite : Op → Prop
  | .write .. => True
  | _ => False

instance : DecidablePred IsDirect
  | .alloc .. | .calloc .. | .memdup .. | .strdup .. | .realloc .. => isTrue trivial
  | .callocV .. | .reallocarrayV .. | .freeV .. | .reset | .resetKeepPages ..
  | .resetKeepPercentage .. | .write .. => isFalse id

instance : DecidablePred IsVtable
  | .callocV .. | .reallocarrayV .. | .freeV .. => isTrue trivial
  | .alloc .. | .calloc .. | .memdup .. | .strdup .. | .realloc .. | .reset | .resetKeepPages ..
  | .resetKeepPercentage .. | .write .. => isFalse id

instance : DecidablePred IsReset
  | .reset | .resetKeepPages .. | .resetKeepPercentage .. => isTrue trivial
  | .alloc .. | .calloc .. | .memdup .. | .strdup .. | .realloc .. | .callocV ..
  | .reallocarrayV .. | .freeV .. | .write .. => isFalse id

instance : DecidablePred IsWrite
  | .write .. => isTrue trivial
  | .alloc .. | .calloc .. | .memdup .. | .strdup .. | .realloc .. | .callocV ..
  | .reallocarrayV .. | .freeV .. | .reset | .resetKeepPages ..
  | .resetKeepPercentage .. => isFalse id

/-- The API of a call that hands out a block. -/
def api : Op → Api
  | .callocV .. | .reallocarrayV .. | .freeV .. => .vtable
  | _ => .direct

theorem api_eq_vtable {op : Op} (h : op.IsVtable) : op.api = .vtable := by
  cases op with
  | callocV | reallocarrayV | freeV => rfl
  | _ => exact h.elim

/-- Every call outside the vtable has the direct API. -/
theorem api_eq_direct {op : Op} (h : ¬ op.IsVtable) : op.api = .direct := by
  cases op with
  | callocV | reallocarrayV | freeV => exact absurd trivial h
  | _ => rfl

/-- The block a call is given; `NULL` where it takes none. -/
def block : Op → Nat
  | .realloc block .. | .reallocarrayV block .. | .freeV block => block
  | _ => 0

/-- The payload size a call asks for. -/
def size (t : Target) (m : Mem) : Op → Nat
  | .alloc size _ | .calloc size _ | .memdup _ size | .realloc _ _ size _ => size
  | .strdup str => ((strlen m str t.modulus).map (· + 1)).getD 0
  | .callocV n size | .reallocarrayV _ n size => n * size
  | _ => 0

end Op

/-- A call together with the default allocator's answers while it runs. -/
structure Call where
  op : Op
  sys : Nat → Option Nat

/-- Run the code of a call: the pointer it returns, if it returns one, and the
world it leaves. -/
def exec (t : Target) (sys : Nat → Option Nat) (op : Op) (s : World) :
    Option (Option Nat × World) :=
  match op with
  | .alloc size alignment => (alloc t sys size alignment s).map fun r => (some r.1, r.2)
  | .calloc size alignment => (calloc t sys size alignment s).map fun r => (some r.1, r.2)
  | .memdup src size => (memdup t sys src size s).map fun r => (some r.1, r.2)
  | .strdup str => (strdup t sys str s).map fun r => (some r.1, r.2)
  | .realloc block oldSize newSize alignment =>
    (realloc t sys block oldSize newSize alignment s).map fun r => (some r.1, r.2)
  | .callocV n size => (callocV t sys n size s).map fun r => (some r.1, r.2)
  | .reallocarrayV block n size => (reallocarrayV t sys block n size s).map fun r => (some r.1, r.2)
  | .freeV block => some (none, freeV t block s)
  | .reset => some (none, reset t s)
  | .resetKeepPages keepCount => some (none, resetKeepPages t keepCount s)
  | .resetKeepPercentage percent => some (none, resetKeepPercentage t percent s)
  | .write p bytes =>
    some (none, { s with mem := blit s.mem p bytes.length fun i => bytes.getD i 0 })

/-- The arena, the blocks its clients hold (newest first), and the number of
blocks carved so far. -/
structure Sys where
  world : World
  live : List Block
  clock : Nat

namespace Sys

/-- The pointer `p` came back for a request of `size` bytes that gave up `old`:
either `old` itself, resized, or a newly carved block. -/
def grant (σ : Sys) (api : Api) (old p size : Nat) (s : World) : Sys :=
  if p = old then
    { world := s
      live := σ.live.map fun b => if b.Is api p then { b with size := size } else b
      clock := σ.clock }
  else
    { world := s
      live := ⟨api, p, size, s.pageIndex, σ.clock⟩ :: σ.live.filter fun b => ¬ b.Is api old
      clock := σ.clock + 1 }

/-- The client's books after a call. -/
def record (t : Target) (σ : Sys) (op : Op) : Option Nat × World → Sys
  | (some p, s) => σ.grant op.api op.block p (op.size t σ.world.mem) s
  | (none, s) =>
    match op with
    | .freeV block => { σ with world := s, live := σ.live.filter fun b => ¬ b.Is .vtable block }
    | .reset | .resetKeepPages _ | .resetKeepPercentage _ => { σ with world := s, live := [] }
    | _ => { σ with world := s }

/-- The books follow the code: the world is the one the call left. -/
@[simp] theorem record_world (t : Target) (σ : Sys) (op : Op) (r : Option Nat × World) :
    (σ.record t op r).world = r.2 := by
  obtain ⟨_ | p, s⟩ := r
  · cases op <;> rfl
  · simp only [record, grant]
    split <;> rfl

/-- One call. -/
def step (t : Target) (σ : Sys) (c : Call) : Option Sys :=
  (exec t c.sys c.op σ.world).map (σ.record t c.op)

/-- `_mulle_arena_init`; `mem` is whatever memory holds. -/
def start (pageSize : Nat) (mem : Mem) : Sys := ⟨init pageSize mem, [], 0⟩

end Sys

/-! ## What a call relies on -/

/-- The default allocator: an answer is a region of the requested size, inside
the address space, `NULL` not among it, disjoint from all regions still held. -/
def SysOk (t : Target) (s : World) (sys : Nat → Option Nat) : Prop :=
  ∀ n p, sys n = some p → 0 < p ∧ p + n < t.modulus ∧ ∀ r ∈ held s.log, Region.Disjoint ⟨p, n⟩ r

/-- The default allocator aligns for any fundamental type. -/
def SysAligned (t : Target) (sys : Nat → Option Nat) : Prop :=
  ∀ n p, sys n = some p → t.defaultAlignment ∣ p

/-- The caller's side of the contract. -/
def Proper (t : Target) (σ : Sys) (c : Call) : Prop :=
  match c.op with
  | .alloc size alignment | .calloc size alignment =>
    0 < size ∧ size < t.modulus ∧ t.IsAlignment alignment
  | .memdup _ size => 0 < size ∧ size < t.modulus
  | .strdup _ => True
  | .realloc block oldSize newSize alignment =>
    (block = 0 ∨ ∃ b ∈ σ.live, b.Is .direct block ∧ b.size = oldSize) ∧
      0 < newSize ∧ newSize < t.modulus ∧ t.IsAlignment alignment
  | .callocV n size => 0 < n * size ∧ n < t.modulus ∧ size < t.modulus
  | .reallocarrayV block n size =>
    (block = 0 ∨ ∃ b ∈ σ.live, b.Is .vtable block) ∧
      0 < n * size ∧ n < t.modulus ∧ size < t.modulus
  | .freeV block => ∃ b ∈ σ.live, b.Is .vtable block
  | .write p bytes => ∃ b ∈ σ.live, b.payload.Covers p bytes.length
  | .reset | .resetKeepPages _ | .resetKeepPercentage _ => True

/-- `n` bytes from `src` that the caller may read: part of a live block, or
memory of its own, away from the arena's pages. -/
def Readable (σ : Sys) (sys : Nat → Option Nat) (src n : Nat) : Prop :=
  (∃ b ∈ σ.live, b.payload.Covers src n) ∨
  ((∀ r ∈ held σ.world.log, Region.Disjoint ⟨src, n⟩ r) ∧
    ∀ k p, sys k = some p → Region.Disjoint ⟨src, n⟩ ⟨p, k⟩)

/-- The sources of `memdup` and `strdup` are readable. -/
def Sources (t : Target) (σ : Sys) (c : Call) : Prop :=
  match c.op with
  | .memdup src size => Readable σ c.sys src size
  | .strdup str =>
    ∀ len, strlen σ.world.mem str t.modulus = some len → Readable σ c.sys str (len + 1)
  | _ => True

/-! ## Address computations -/

/-- `_mulle_arena_alloc` finds room behind `_current`. -/
def FitsPage (t : Target) (s : World) (size alignment : Nat) : Prop :=
  t.add (alignPointer t s.current alignment) size ≤ s.sentinel

/-- `_mulle_arena_alloc_with_size_header` finds room behind `_current`. -/
def FitsPageV (t : Target) (s : World) (size : Nat) : Prop :=
  t.add (t.add s.current t.sizeofSizeT) size ≤ s.sentinel ∧ s.sentinel ≠ 0

/-- `_mulle_arena_realloc` extends `block` in place. -/
def Extends (t : Target) (s : World) (block newSize : Nat) : Prop :=
  block = s.last ∧ t.add s.last newSize ≤ s.sentinel

/-- `_mulle_arena_reallocarray_v` extends `block` in place. -/
def ExtendsV (t : Target) (s : World) (block total : Nat) : Prop :=
  t.sub block t.sizeofSizeT = s.last ∧ t.add block total ≤ s.sentinel

instance (t : Target) (s : World) (size alignment : Nat) :
    Decidable (FitsPage t s size alignment) := inferInstanceAs (Decidable (_ ≤ _))

instance (t : Target) (s : World) (size : Nat) : Decidable (FitsPageV t s size) :=
  inferInstanceAs (Decidable (_ ∧ _))

instance (t : Target) (s : World) (block newSize : Nat) : Decidable (Extends t s block newSize) :=
  inferInstanceAs (Decidable (_ ∧ _))

instance (t : Target) (s : World) (block total : Nat) : Decidable (ExtendsV t s block total) :=
  inferInstanceAs (Decidable (_ ∧ _))

/-- The call resizes its block where it is. -/
def InPlace (t : Target) (s : World) : Op → Prop
  | .realloc block _ newSize _ => block ≠ 0 ∧ Extends t s block newSize
  | .reallocarrayV block n size => block ≠ 0 ∧ ExtendsV t s block (n * size)
  | _ => False

instance (t : Target) (s : World) : (op : Op) → Decidable (InPlace t s op)
  | .realloc .. | .reallocarrayV .. => inferInstanceAs (Decidable (_ ∧ _))
  | .alloc .. | .calloc .. | .memdup .. | .strdup .. | .callocV .. | .freeV .. | .reset
  | .resetKeepPages .. | .resetKeepPercentage .. | .write .. => isFalse id

/-- `_mulle_arena_alloc`: behind `_current`, the aligned end is a true sum; on a
new page, the size asked of it is. -/
def AllocNoWrap (t : Target) (s : World) (size alignment : Nat) : Prop :=
  if FitsPage t s size alignment then
    s.current + (alignment - 1) < t.modulus ∧
      alignPointer t s.current alignment + size < t.modulus
  else size + (alignment - 1) < t.modulus

/-- The same for `_mulle_arena_alloc_with_size_header`. -/
def HeaderNoWrap (t : Target) (s : World) (size : Nat) : Prop :=
  if FitsPageV t s size then s.current + t.sizeofSizeT + size < t.modulus
  else t.sizeofSizeT + size + (t.defaultAlignment - t.sizeofSizeT) < t.modulus

/-- The address computations a call goes by do not wrap. -/
def NoWrap (t : Target) (s : World) : Op → Prop
  | .alloc size alignment | .calloc size alignment => AllocNoWrap t s size alignment
  | .memdup _ size => AllocNoWrap t s size 1
  | .strdup str =>
    ∀ len, strlen s.mem str t.modulus = some len →
      len + 1 < t.modulus ∧ AllocNoWrap t s (len + 1) 1
  | .realloc block oldSize newSize alignment =>
    if InPlace t s (.realloc block oldSize newSize alignment) then s.last + newSize < t.modulus
    else AllocNoWrap t s newSize alignment
  | .callocV n size => n * size < t.modulus → HeaderNoWrap t s (n * size)
  | .reallocarrayV block n size =>
    n * size < t.modulus →
      if InPlace t s (.reallocarrayV block n size) then block + n * size < t.modulus
      else HeaderNoWrap t s (n * size)
  | _ => True

/-- A call as the results about runs allow it: any API, any order, a default
allocator that behaves, a client that keeps the contract, no wrapped address. -/
structure Legal (t : Target) (σ : Sys) (c : Call) : Prop where
  sys : SysOk t σ.world c.sys
  proper : Proper t σ c
  noWrap : NoWrap t σ.world c.op

end MulleStorage.Arena
