import MulleStorage.Lib.Loop
import MulleStorage.Storage.Freelist

/-!
# The workloads of the benchmark

`test/30-benchmark/benchmark.c` runs three workloads (`growth_pass`, `lifo_pass`,
`random_pass`) on three allocators (`malloc_ops`, `freelist_ops`, `storage_ops`)
behind one table of functions, `struct alloc_ops`. Each node carries a pattern
that is checked before it is given back; every check that fails calls `abort`.

A run ends early for a reason (`Stop`). What C leaves undefined is one of them,
so that a run that does not end that way never stores behind the end of an array
and never frees what is not allocated.

Parameters of the environment:
- `heap size s` is the answer of `malloc( size)`, respectively of
  `mulle_structqueue_reserve`, in the state `s`.

Mirroring notes:
- `live[]` and `serials[]` are filled and emptied together: one list of pairs,
  `live_count` (`level`) long.
- The clock, the `best` of the repeats and the printout are left out. So are
  `alloc_calls` and the counting allocator: how often `mulle_structqueue` calls
  its allocator is `mulle-container`'s business.
- The `malloc` for the `live` array of `growth_pass` is taken to succeed.
- `unsigned long` is as wide as `size_t`.
-/

namespace MulleStorage.Bench

open MulleStorage.Lib MulleStorage.Arena

/-- Why a run ends early. -/
inductive Stop
  /-- `malloc` failed: `abort()`. -/
  | noMemory
  /-- A check of the benchmark, or an assert of the storage, failed: `abort()`. -/
  | check
  /-- The behaviour of C is undefined. -/
  | undefined
  deriving DecidableEq, Repr

/-! ## The random numbers -/

/-- `rng_next`. -/
def rngNext (state : UInt32) : UInt32 :=
  let state := state ^^^ (state <<< 13)
  let state := state ^^^ (state >>> 17)
  state ^^^ (state <<< 5)

/-! ## `struct bench_node` -/

/-- `node_check`; `false` is an `abort`. -/
def nodeCheck (t : Target) (size serial n : Nat) (m : Mem) : Bool :=
  loadWord m n 8 == Freelist.nodeMagic &&
  loadWord m (n + 8) (t.uintBits / 8) == serial &&
  (List.range (t.sub size (Freelist.sizeofBenchNode t))).all fun i =>
    m (n + Freelist.offsetofData t + i) == UInt8.ofNat serial

/-! ## The allocators -/

/-- `struct alloc_ops`, for contexts of the type `σ`. -/
structure AllocOps (σ : Type) where
  /-- `ctx_init( ctx, size, …)`; the memory is whatever it holds. -/
  ctxInit : Nat → Mem → σ
  /-- `alloc( ctx, size, serial)`. -/
  alloc : Nat → Nat → σ → Except Stop (Nat × σ)
  free : Nat → σ → Except Stop σ
  /-- `teardown( ctx, live, live_count)`. -/
  teardown : List Nat → σ → Except Stop σ
  liveCount : σ → Nat
  mem : σ → Mem

/-- `free` of one block after another; `allocated` are the blocks `malloc` has
handed out and not got back. -/
def freeEach : List Nat → List Nat → Except Stop (List Nat)
  | [], allocated => .ok allocated
  | p :: ps, allocated =>
    if p ∈ allocated then freeEach ps (allocated.erase p) else .error .undefined

section

variable {σ : Type}

/-- `struct malloc_ctx`, and memory. `blocks` is a ghost: the blocks allocated. -/
structure MallocCtx where
  allocCalls : Nat
  freeCalls : Nat
  blocks : List Nat
  mem : Mem

/-- `malloc_alloc`. -/
def mallocAlloc (t : Target) (heap : Nat → MallocCtx → Option Pool.Reserved) (size serial : Nat)
    (s : MallocCtx) : Except Stop (Nat × MallocCtx) :=
  match heap size s with
  | none => .error .noMemory
  | some r => .ok (r.ptr, { s with
      allocCalls := t.add s.allocCalls 1
      blocks := r.ptr :: s.blocks
      mem := Freelist.nodeInit t size serial r.ptr r.mem })

/-- `malloc_free`. -/
def mallocFree (t : Target) (p : Nat) (s : MallocCtx) : Except Stop MallocCtx :=
  (freeEach [p] s.blocks).map fun blocks =>
    { s with freeCalls := t.add s.freeCalls 1, blocks := blocks }

/-- `malloc_teardown`. -/
def mallocTeardown (t : Target) (live : List Nat) (s : MallocCtx) : Except Stop MallocCtx :=
  (freeEach live s.blocks).bind fun blocks =>
    if s.allocCalls ≠ t.add s.freeCalls live.length then .error .check
    else .ok { s with blocks := blocks }

/-- `malloc_ops`. -/
def mallocOps (t : Target) (heap : Nat → MallocCtx → Option Pool.Reserved) :
    AllocOps MallocCtx where
  ctxInit _ mem := ⟨0, 0, [], mem⟩
  alloc := mallocAlloc t heap
  free := mallocFree t
  teardown := mallocTeardown t
  liveCount s := t.sub s.allocCalls s.freeCalls
  mem := MallocCtx.mem

/-- `struct freelist_ctx`, and memory. `allocated` is a ghost: the blocks `malloc`
has handed out and not got back. -/
structure ListWorld extends Freelist.World where
  allocated : List Nat

/-- `freelist_alloc`, which calls `malloc` when the list is empty. -/
def freelistAlloc (t : Target) (heap : Nat → ListWorld → Option Pool.Reserved) (size serial : Nat)
    (s : ListWorld) : Except Stop (Nat × ListWorld) :=
  match Freelist.alloc t (Freelist.nodeInit t size) (heap size s) serial s.toWorld with
  | none => .error .noMemory
  | some (p, w) => .ok (p, {
      toWorld := w
      allocated := if s.freeHead = 0 then p :: s.allocated else s.allocated })

/-- `freelist_free`. -/
def freelistFree (t : Target) (p : Nat) (s : ListWorld) : ListWorld :=
  { s with toWorld := Freelist.free t p s.toWorld }

/-- `freelist_teardown`: the live nodes go on the list, then all blocks are freed. -/
def freelistTeardown (t : Target) (live : List Nat) (s : ListWorld) : Except Stop ListWorld :=
  let s := live.foldl (fun s p => freelistFree t p s) s
  (freeEach s.blocks s.allocated).map fun allocated =>
    { s with blocks := [], allocated := allocated }

/-- `freelist_ops`. -/
def freelistOps (t : Target) (heap : Nat → ListWorld → Option Pool.Reserved) :
    AllocOps ListWorld where
  ctxInit _ mem := ⟨Freelist.ctxInit mem, []⟩
  alloc := freelistAlloc t heap
  free p s := .ok (freelistFree t p s)
  teardown := freelistTeardown t
  liveCount s := Freelist.liveCount s.toWorld
  mem s := s.mem

/-- `storage_alloc`. -/
def storageAlloc (t : Target) (heap : Nat → Pool.World → Option Pool.Reserved) (size serial : Nat)
    (s : Pool.World) : Except Stop (Nat × Pool.World) :=
  match Pool.malloc (heap size s) s with
  | none => .error .noMemory
  | some (p, s) =>
    if p = 0 then .error .noMemory
    else .ok (p, { s with mem := Freelist.nodeInit t size serial p s.mem })

instance (p : Nat) (s : Pool.World) : Decidable (Pool.FreeAsserts p s) :=
  inferInstanceAs (Decidable (_ ∧ _))

/-- `storage_free`, with the asserts of `_mulle_storage_free`. -/
def storageFree (t : Target) (p : Nat) (s : Pool.World) : Except Stop Pool.World :=
  if Pool.FreeAsserts p s then .ok (Pool.free t p s) else .error .check

/-- `_mulle_storage_done`. -/
def storageDone (s : Pool.World) : Pool.World :=
  { s with structs := { s.structs with elements := [] }, freed := [] }

/-- `storage_ops`. -/
def storageOps (t : Target) (heap : Nat → Pool.World → Option Pool.Reserved) :
    AllocOps Pool.World where
  ctxInit := Pool.init
  alloc := storageAlloc t heap
  free := storageFree t
  teardown _ s := .ok (storageDone s)
  liveCount := Pool.getCount t
  mem := Pool.World.mem

/-! ## The workloads -/

/-- The variables of a pass: the nodes in use with their serials. -/
structure Pass (σ : Type) where
  ctx : σ
  live : List (Nat × Nat)
  serial : Nat

/-- `a[ k] = a[ count - 1]; count--`. -/
def swapRemove (a : List (Nat × Nat)) (k : Nat) : List (Nat × Nat) :=
  (a.set k (a.getLastD (0, 0))).dropLast

variable (t : Target) (ops : AllocOps σ) (size : Nat)

/-- `live[ live_count] = alloc( …)` and what goes with it, for arrays of `cap`
entries. -/
def Pass.take (cap : Nat) (w : Pass σ) : Except Stop (Pass σ) :=
  if w.live.length < cap then
    (ops.alloc size w.serial w.ctx).map fun r =>
      { ctx := r.2
        live := w.live ++ [(r.1, w.serial)]
        serial := (w.serial + 1) % 2 ^ t.uintBits }
  else .error .undefined

/-- Check the node at `k`, take it out of the arrays and free it. -/
def Pass.give (k : Nat) (w : Pass σ) : Except Stop (Pass σ) :=
  match w.live[k]? with
  | none => .error .undefined
  | some (p, serial) =>
    if nodeCheck t size serial p (ops.mem w.ctx) then
      (ops.free p w.ctx).map fun ctx => { w with ctx := ctx, live := swapRemove w.live k }
    else .error .check

/-- `while( live_count > 0)`: give back the last one. -/
def Pass.drain (w : Pass σ) : Except Stop (Pass σ) :=
  whileDo (fun w => decide (0 < w.live.length)) (fun w => w.give t ops size (w.live.length - 1))
    w.live.length w

/-- The check behind a drained pass. -/
def Pass.finish (w : Pass σ) : Except Stop σ :=
  if ops.liveCount w.ctx ≠ 0 then .error .check else .ok w.ctx

/-- `growth_pass`, up to the teardown. -/
def growth (n : Nat) (ctx : σ) : Except Stop (Pass σ) :=
  (repeatDo (Pass.take t ops size n) n ⟨ctx, [], 0⟩).bind fun w =>
    if ops.liveCount w.ctx ≠ n then .error .check
    else if (List.range n).all fun i =>
        nodeCheck t size (i % 2 ^ t.uintBits) (w.live.getD i (0, 0)).1 (ops.mem w.ctx) then .ok w
    else .error .check

/-- `growth_pass`. -/
def growthPass (n : Nat) (ctx : σ) : Except Stop σ :=
  (growth t ops size n ctx).bind fun w => ops.teardown (w.live.map Prod.fst) w.ctx

/-- `DEPTH`. -/
def depth : Nat := 64

/-- One turn of `lifo_pass`. -/
def lifoTurn (w : Pass σ) : Except Stop (Pass σ) :=
  if w.live.length = 0 then
    whileDo (fun w => decide (w.live.length < depth)) (Pass.take t ops size depth) depth w
  else w.give t ops size (w.live.length - 1)

/-- `lifo_pass`. -/
def lifoPass (n : Nat) (ctx : σ) : Except Stop σ :=
  (repeatDo (lifoTurn t ops size) n ⟨ctx, [], 0⟩).bind fun w =>
    (w.drain t ops size).bind (Pass.finish ops)

/-- `MAX_LIVE`. -/
def maxLive : Nat := 4096

/-- One turn of `random_pass`; the other variable is `rng_state`. The coin is
thrown only where both ways are open. -/
def randomTurn : Pass σ × UInt32 → Except Stop (Pass σ × UInt32)
  | (w, rng) =>
    let coin := rngNext rng
    let (grow, rng) :=
      if w.live.length = 0 then (true, rng)
      else if w.live.length < maxLive then (coin &&& 1 != 0, coin)
      else (false, rng)
    if grow then (w.take t ops size maxLive).map fun w => (w, rng)
    else
      let rng := rngNext rng
      (w.give t ops size (rng.toNat % w.live.length)).map fun w => (w, rng)

/-- `random_pass`. -/
def randomPass (n : Nat) (rng : UInt32) (ctx : σ) : Except Stop (σ × UInt32) :=
  (repeatDo (randomTurn t ops size) n (⟨ctx, [], 0⟩, rng)).bind fun r =>
    ((r.1.drain t ops size).bind (Pass.finish ops)).map fun ctx => (ctx, r.2)

end

end MulleStorage.Bench
