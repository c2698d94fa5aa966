import MulleStorage.Lib.Chain
import MulleStorage.Lib.Stock
import MulleStorage.Storage.Pool

/-!
# The embedded free list of the benchmark

`test/30-benchmark/benchmark.c` measures `mulle_storage` against the free list
everyone writes first: freed nodes are linked through their own first word, and
a new node comes from `malloc`. It keeps no array of freed nodes, so whatever
clients leave in a node they give back must not get between the links.

`Inv` says that the list in memory is the stack of a `Stock`; every request
keeps it (`serve_stock`), and so does every store of a client into a node that
is live (`Inv.write`).

Mirroring notes:
- `blocks` is the list of the first `nblocks` entries; growing its capacity has
  no influence on any result.
- `malloc` gets its answer from the environment: where the block lies, and
  memory after it. `none` is an `abort`.
- `unsigned long`, the type of `outstanding`, is as wide as `size_t`.
- `alloc` takes `node_init` as a parameter: any code that keeps to the bytes of
  the node it is given (`InitOk`), as `nodeInit` does.
-/

namespace MulleStorage.Freelist

open MulleStorage.Lib MulleStorage.Arena

/-- `struct freelist_ctx`. -/
structure FreelistCtx where
  freeHead : Nat
  blocks : List Nat
  outstanding : Nat

/-- A free list and memory. -/
structure World extends FreelistCtx where
  mem : Mem

/-! ## `struct bench_node` -/

/-- `NODE_MAGIC`. -/
def nodeMagic : Nat := 0x545235454C4C554D

/-- `offsetof( struct bench_node, data)`. -/
def offsetofData (t : Target) : Nat := 8 + t.uintBits / 8

/-- `sizeof( struct bench_node)`, a multiple of the alignment of `uint64_t`. -/
def sizeofBenchNode (t : Target) : Nat := alignUp 8 (offsetofData t)

/-- `node_init`. -/
def nodeInit (t : Target) (size serial n : Nat) (m : Mem) : Mem :=
  let m := blit m n 8 (wordByte nodeMagic)
  let m := blit m (n + 8) (t.uintBits / 8) (wordByte serial)
  blit m (n + offsetofData t) (t.sub size (sizeofBenchNode t)) fun _ => UInt8.ofNat serial

/-- `init` writes to nodes of `size` bytes, and nowhere else. -/
def InitOk (size : Nat) (init : Nat → Nat → Mem → Mem) : Prop :=
  ∀ serial n m a, ¬ Region.Has ⟨n, size⟩ a → init serial n m a = m a

/-- `node_init` keeps to its node when that is a `struct bench_node` at least. -/
theorem nodeInit_ok {t : Target} {size : Nat} (hsize : sizeofBenchNode t ≤ size)
    (hlt : size < t.modulus) : InitOk size (nodeInit t size) := by
  intro serial n m a ha
  have hdata : offsetofData t ≤ sizeofBenchNode t := le_alignUp (by decide) _
  unfold Region.Has at ha
  dsimp only at ha
  unfold offsetofData at hdata
  unfold nodeInit
  rw [Target.sub_eq hsize hlt]
  rw [blit_outside (by unfold offsetofData; omega), blit_outside (by omega),
    blit_outside (by omega)]

/-! ## The functions -/

/-- `freelist_ctx_init`; `mem` is whatever memory holds. -/
def ctxInit (mem : Mem) : World where
  freeHead := 0
  blocks := []
  outstanding := 0
  mem := mem

/-- `freelist_alloc`. -/
def alloc (t : Target) (init : Nat → Nat → Mem → Mem) (env : Option Pool.Reserved) (serial : Nat)
    (s : World) : Option (Nat × World) :=
  let n := s.freeHead
  let opened :=
    if n ≠ 0 then some (n, { s with freeHead := loadWord s.mem n t.sizeofSizeT })
    else env.map fun r => (r.ptr, { s with blocks := s.blocks ++ [r.ptr], mem := r.mem })
  opened.map fun (n, s) =>
    (n, { s with
      outstanding := t.add s.outstanding 1
      mem := init serial n s.mem })

/-- `freelist_free`. -/
def free (t : Target) (p : Nat) (s : World) : World :=
  { s with
    mem := blit s.mem p t.sizeofSizeT (wordByte s.freeHead)
    freeHead := p
    outstanding := t.sub s.outstanding 1 }

/-- `freelist_live_count`. -/
def liveCount (s : World) : Nat := s.outstanding

/-- A client stores `bytes` at offset `off` of the node `p`. -/
def World.write (s : World) (p off : Nat) (bytes : List UInt8) : World :=
  { s with mem := blit s.mem (p + off) bytes.length fun i => bytes.getD i 0 }

/-- A request by number, and what it shows. -/
def serve (t : Target) (init : Nat → Nat → Mem → Mem) (env : Option Pool.Reserved) (serial : Nat)
    (s : World) : Ask → Option (Shown × World)
  | .take => (alloc t init env serial s).map fun (p, s) =>
    (⟨some (s.blocks.idxOf p), s.blocks.length, liveCount s⟩, s)
  | .give k =>
    let s := free t (s.blocks.getD k 0) s
    some (⟨none, s.blocks.length, liveCount s⟩, s)

/-! ## The invariant -/

/-- `malloc` promises what `mulle_structqueue_reserve` does: a new block, apart
from the others, which keep their place and their bytes. -/
def MallocOk (t : Target) (size : Nat) (s : World) (r : Pool.Reserved) : Prop :=
  Pool.ReserveOk t ⟨⟨⟨s.blocks, size⟩, []⟩, s.mem⟩ r

/-- The free list is a stock: its blocks are proper, disjoint memory, the list
in memory is the stack of nodes given back, and `outstanding` counts the rest. -/
structure Inv (t : Target) (size : Nat) (s : World) (st : Stock) : Prop where
  blocks : Pool.Elements t ⟨s.blocks, size⟩
  chain : ∃ stack, Chain s.mem t.sizeofSizeT s.freeHead stack ∧ Numbered s.blocks stack st
  outstanding : s.outstanding = st.live

variable {t : Target} {size serial : Nat} {init : Nat → Nat → Mem → Mem}
  {env : Option Pool.Reserved} {s s' : World} {st : Stock} {p k : Nat}

theorem Inv.start (t : Target) (size : Nat) (mem : Mem) : Inv t size (ctxInit mem) .empty where
  blocks := ⟨nofun, nofun, nofun⟩
  chain := ⟨[], rfl, .empty⟩
  outstanding := rfl

/-- A change to one block spares the words of the others. -/
theorem blocks_frame (hsize : t.sizeofSizeT ≤ size) (h : Pool.Elements t ⟨s.blocks, size⟩)
    {stack : List Nat} (hp : p ∈ s.blocks) (hstack : ∀ q ∈ stack, q ∈ s.blocks)
    (hnot : p ∉ stack) {m m' : Mem} (hm : ∀ a, ¬ Region.Has ⟨p, size⟩ a → m' a = m a) :
    ∀ q ∈ stack, ∀ i, i < t.sizeofSizeT → m' (q + i) = m (q + i) := by
  intro q hq i hi
  have hne : q ≠ p := fun heq => hnot (heq ▸ hq)
  apply hm
  exact (h.apart q (hstack q hq) p hp hne).not_has
    ⟨Nat.le_add_right _ _, Nat.add_lt_add_left (Nat.lt_of_lt_of_le hi hsize) _⟩

/-- The first node of the list is an address. -/
theorem Inv.freeHead_lt (h : Inv t size s st) : s.freeHead < t.modulus := by
  obtain ⟨stack, hchain, hnum⟩ := h.chain
  by_cases hz : s.freeHead = 0
  · rw [hz]
    exact t.modulus_pos
  · obtain ⟨rest, rfl, -⟩ := hchain.eq_cons hz
    exact h.blocks.lt_modulus _ (hnum.mem_stack List.mem_cons_self).1

/-! ## Requests -/

/-- On an empty list, `freelist_alloc` gets a new block, -/
theorem alloc_new (h : s.freeHead = 0) :
    alloc t init env serial s = env.map fun r =>
      (r.ptr, { s with
        blocks := s.blocks ++ [r.ptr]
        outstanding := t.add s.outstanding 1
        mem := init serial r.ptr r.mem }) := by
  unfold alloc
  dsimp only
  rw [if_neg (fun hne => hne h), Option.map_map]
  rfl

/-- and on any other takes the first node off. -/
theorem alloc_again (h : s.freeHead ≠ 0) :
    alloc t init env serial s = some (s.freeHead, { s with
      freeHead := loadWord s.mem s.freeHead t.sizeofSizeT
      outstanding := t.add s.outstanding 1
      mem := init serial s.freeHead s.mem }) := by
  unfold alloc
  dsimp only
  rw [if_pos h]
  rfl

/-- `freelist_alloc` is a `take`. -/
theorem Inv.take (h : Inv t size s st) (hsize : t.sizeofSizeT ≤ size) (hinit : InitOk size init)
    (hmalloc : ∀ r ∈ env, MallocOk t size s r) {o : Shown}
    (hs : serve t init env serial s .take = some (o, s')) :
    o = st.shown .take ∧ Inv t size s' (st.serve .take).2 := by
  obtain ⟨stack, hchain, hnum⟩ := h.chain
  have hlive := hnum.live_eq
  by_cases hz : s.freeHead = 0
  · -- an empty list: a new block
    obtain rfl : stack = [] := by
      rw [hz] at hchain
      exact hchain.eq_nil
    obtain ⟨⟨n, s₁⟩, halloc, heq⟩ := Option.map_eq_some_iff.mp hs
    rw [alloc_new hz] at halloc
    obtain ⟨r, hr, heq'⟩ := Option.map_eq_some_iff.mp halloc
    obtain ⟨rfl, rfl⟩ := Prod.mk.inj heq'
    obtain ⟨rfl, rfl⟩ := Prod.mk.inj heq
    have hok := hmalloc r hr
    obtain ⟨hnumber, hnum'⟩ := hnum.take_new hok.fresh
    have hblocks : Pool.Elements t ⟨s.blocks ++ [r.ptr], size⟩ := h.blocks.reserve hok
    have hlt : (s.blocks ++ [r.ptr]).length < t.modulus := hblocks.length_lt hnum'.nodup
    have hlive' := hnum'.live_eq
    rw [List.length_append, List.length_singleton] at hlt hlive'
    rw [List.length_nil] at hlive hlive'
    have hcount : t.add s.outstanding 1 = (st.serve .take).2.live := by
      rw [h.outstanding, Target.add_eq (by omega)]
      omega
    refine ⟨?_, hblocks, ⟨[], hz, hnum'⟩, hcount⟩
    rw [hnum'.shown_eq hcount, hnumber]
    rfl
  · -- the node on top of the list
    obtain ⟨rest, rfl, hrest⟩ := hchain.eq_cons hz
    obtain ⟨⟨n, s₁⟩, halloc, heq⟩ := Option.map_eq_some_iff.mp hs
    rw [alloc_again hz] at halloc
    obtain ⟨rfl, rfl⟩ := Prod.mk.inj (Option.some.inj halloc)
    obtain ⟨rfl, rfl⟩ := Prod.mk.inj heq
    obtain ⟨hnumber, hnum'⟩ := hnum.take_again
    have hlt : s.blocks.length < t.modulus := h.blocks.length_lt hnum.nodup
    have hlive' := hnum'.live_eq
    rw [List.length_cons] at hlive
    have hcount : t.add s.outstanding 1 = (st.serve .take).2.live := by
      rw [h.outstanding, Target.add_eq (by omega)]
      omega
    have hmem : ∀ q ∈ rest, q ∈ s.blocks := fun q hq => (hnum'.mem_stack hq).1
    have hframe := blocks_frame hsize h.blocks (hnum.mem_stack List.mem_cons_self).1 hmem
      hnum.head_not_mem (hinit serial s.freeHead s.mem)
    refine ⟨?_, h.blocks, ⟨rest, hrest.frame hframe, hnum'⟩, hcount⟩
    rw [hnum'.shown_eq hcount, hnumber]
    rfl

/-- `freelist_free` is a `give`. -/
theorem Inv.give (h : Inv t size s st) (hsize : t.sizeofSizeT ≤ size) (hk : st.Holds k) {o : Shown}
    (hs : serve t init env serial s (.give k) = some (o, s')) :
    o = st.shown (.give k) ∧ Inv t size s' (st.serve (.give k)).2 := by
  obtain ⟨stack, hchain, hnum⟩ := h.chain
  obtain ⟨p, hp⟩ := hnum.exists_node hk
  have hget : s.blocks.getD k 0 = p := getD_of_getElem? hp
  have hmem : p ∈ s.blocks := List.mem_of_getElem? hp
  simp only [serve, hget] at hs
  obtain ⟨rfl, rfl⟩ := Prod.mk.inj (Option.some.inj hs)
  have hnum' := hnum.give hk hp
  have hlive := hnum.live_eq
  have hlive' := hnum'.live_eq
  have hlt : s.blocks.length < t.modulus := h.blocks.length_lt hnum.nodup
  rw [List.length_cons] at hlive'
  have hcount : t.sub s.outstanding 1 = (st.serve (.give k)).2.live := by
    rw [h.outstanding, Target.sub_eq (by omega) (by omega)]
    omega
  have hapart : ∀ q ∈ stack, Region.Disjoint ⟨q, t.sizeofSizeT⟩ ⟨p, t.sizeofSizeT⟩ := by
    intro q hq
    have hne : q ≠ p := fun heq => hnum.not_mem_stack hk hp (heq ▸ hq)
    have hdisj := h.blocks.apart q (hnum.mem_stack hq).1 p hmem hne
    unfold Region.Disjoint at hdisj ⊢
    dsimp only at hdisj ⊢
    omega
  have hpush := hchain.push (Nat.ne_of_gt (h.blocks.nonnull p hmem))
    (t.modulus_eq ▸ h.freeHead_lt) hapart
  refine ⟨?_, h.blocks, ⟨p :: stack, hpush, hnum'⟩, hcount⟩
  rw [hnum'.shown_eq hcount]
  rfl

/-- **Step.** Every request is one to the stock. -/
theorem serve_stock {a : Ask} (h : Inv t size s st) (hsize : t.sizeofSizeT ≤ size)
    (hinit : InitOk size init) (hmalloc : ∀ r ∈ env, MallocOk t size s r) (ha : st.Admits a)
    {o : Shown} (hs : serve t init env serial s a = some (o, s')) :
    o = st.shown a ∧ Inv t size s' (st.serve a).2 := by
  cases a with
  | take => exact h.take hsize hinit hmalloc hs
  | give k => exact h.give hsize ha hs

/-- Stores of clients into live nodes do not reach the list. -/
theorem Inv.write (h : Inv t size s st) (hsize : t.sizeofSizeT ≤ size) (hk : st.Holds k) {off : Nat}
    {bytes : List UInt8} (hfit : off + bytes.length ≤ size) :
    Inv t size (s.write (s.blocks.getD k 0) off bytes) st := by
  obtain ⟨stack, hchain, hnum⟩ := h.chain
  obtain ⟨p, hp⟩ := hnum.exists_node hk
  have hget : s.blocks.getD k 0 = p := getD_of_getElem? hp
  have houtside : ∀ a, ¬ Region.Has ⟨p, size⟩ a → (s.write p off bytes).mem a = s.mem a := by
    intro a ha
    unfold Region.Has at ha
    dsimp only at ha
    unfold World.write
    dsimp only
    exact blit_outside (by omega)
  have hframe := blocks_frame hsize h.blocks (List.mem_of_getElem? hp)
    (fun q hq => (hnum.mem_stack hq).1) (hnum.not_mem_stack hk hp) houtside
  rw [hget]
  exact ⟨h.blocks, ⟨stack, hchain.frame hframe, hnum⟩, h.outstanding⟩

end MulleStorage.Freelist
