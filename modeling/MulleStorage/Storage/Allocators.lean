import MulleStorage.Storage.HighWater
import MulleStorage.Storage.Workload

/-!
# The workloads fail no check

`malloc_ops`, `freelist_ops` and `storage_ops` are lawful when the system's
allocator is what it says it is (`HeapOk`). So every workload runs to its end on
each of them, unless memory runs out:

> `random_pass_ok`, `lifo_pass_ok`, `growth_pass_ok`: no check fails, nothing is
> undefined, no more is obtained than was live at a time, and all of it is given
> back.
-/

namespace MulleStorage.Bench

open MulleStorage.Lib MulleStorage.Arena

variable {t : Target} {size : Nat}

/-- The system's allocator: what it hands out is a block of its own, apart from
those in use, which keep their place and their bytes. -/
def HeapOk {σ : Type} (t : Target) (size : Nat) (blocks : σ → List Nat) (mem : σ → Mem)
    (heap : Nat → σ → Option Pool.Reserved) : Prop :=
  ∀ s, ∀ r ∈ heap size s, Pool.ReserveOk t ⟨⟨⟨blocks s, size⟩, []⟩, mem s⟩ r

/-- Some of the elements. -/
theorem Elements.mono {l l' : List Nat} (h : Pool.Elements t ⟨l, size⟩) (hsub : ∀ p ∈ l', p ∈ l) :
    Pool.Elements t ⟨l', size⟩ where
  nonnull p hp := h.nonnull p (hsub p hp)
  lt_modulus p hp := h.lt_modulus p (hsub p hp)
  apart p hp q hq := h.apart p (hsub p hp) q (hsub q hq)

theorem Elements.nil (t : Target) (size : Nat) : Pool.Elements t ⟨[], size⟩ where
  nonnull _ h := absurd h List.not_mem_nil
  lt_modulus _ h := absurd h List.not_mem_nil
  apart _ h := absurd h List.not_mem_nil

/-- `node_init` leaves the bytes of the other nodes alone. -/
theorem nodeInit_keeps (serial : Nat) {l : List Nat} {p q i : Nat} {m : Mem} (hsize : BenchSize t size)
    (h : Pool.Elements t ⟨l, size⟩) (hp : p ∈ l) (hq : q ∈ l) (hne : q ≠ p) (hi : i < size) :
    Freelist.nodeInit t size serial p m (q + i) = m (q + i) := by
  apply Freelist.nodeInit_ok hsize.holds hsize.lt_modulus
  exact (h.apart q hq p hp hne).not_has ⟨Nat.le_add_right _ _, Nat.add_lt_add_left hi _⟩

/-- Freeing every block once leaves none. -/
theorem freeEach_perm {live blocks : List Nat} (h : live.Perm blocks) :
    freeEach live blocks = .ok [] := by
  induction live generalizing blocks with
  | nil =>
    rw [← h.nil_eq]
    rfl
  | cons p live ih =>
    have hp : p ∈ blocks := h.mem_iff.mp List.mem_cons_self
    have hrest : live.Perm (blocks.erase p) := by
      have := h.erase p
      rwa [List.erase_cons_head] at this
    unfold freeEach
    rw [if_pos hp]
    exact ih hrest

/-! ## `malloc` and `free` -/

/-- `malloc_ctx` in order: the live nodes are the blocks, and the counters
differ by their number. -/
structure MallocOk (t : Target) (size : Nat) (s : MallocCtx) (live : List Nat) : Prop where
  perm : live.Perm s.blocks
  nodup : s.blocks.Nodup
  blocks : Pool.Elements t ⟨s.blocks, size⟩
  calls : s.allocCalls = t.add s.freeCalls live.length
  freeCalls : s.freeCalls < t.modulus

/-- Counting one more. -/
theorem add_succ (a n : Nat) : t.add (t.add a n) 1 = t.add a (n + 1) := by
  unfold Target.add
  rw [Nat.mod_add_mod, Nat.add_assoc]

theorem succ_add (a n : Nat) : t.add (t.add a 1) n = t.add a (n + 1) := by
  unfold Target.add
  rw [Nat.mod_add_mod, Nat.add_right_comm, Nat.add_assoc]

/-- A difference of counters. -/
theorem sub_add {a n : Nat} (ha : a < t.modulus) (hn : n < t.modulus) :
    t.sub (t.add a n) a = n := by
  unfold Target.sub Target.add
  rw [Nat.mod_add_mod, show a + n + (t.modulus - a) = n + t.modulus by omega, Nat.add_mod_right,
    Nat.mod_eq_of_lt hn]

/-- `malloc_ops`. -/
def mallocLawful {heap : Nat → MallocCtx → Option Pool.Reserved} (hsize : BenchSize t size)
    (hheap : HeapOk t size MallocCtx.blocks MallocCtx.mem heap) :
    Lawful t size (mallocOps t heap) where
  Ok := MallocOk t size
  allocated := MallocCtx.blocks
  init mem := ⟨⟨.nil, .nil, Elements.nil t size, (Nat.zero_mod _).symm, t.modulus_pos⟩, rfl⟩
  nodup h := h.perm.nodup_iff.mpr h.nodup
  perm h hperm :=
    { h with
      perm := hperm.symm.trans h.perm
      calls := by
        rw [← hperm.length_eq]
        exact h.calls }
  alloc := by
    intro s live serial h hserial
    show Ensures _ _ (mallocAlloc t heap size serial s)
    unfold mallocAlloc
    cases hr : heap size s with
    | none => exact rfl
    | some r =>
      have hok := hheap s r hr
      have hfresh : r.ptr ∉ s.blocks := hok.fresh
      have hblocks : Pool.Elements t ⟨r.ptr :: s.blocks, size⟩ :=
        Elements.mono (h.blocks.reserve hok) fun p hp => by
          rw [List.mem_append, List.mem_singleton]
          exact (List.mem_cons.mp hp).symm
      refine ⟨⟨?_, ?_, hblocks, ?_, h.freeCalls⟩, nodeCheck_nodeInit hsize hserial, ?_, ?_⟩
      · exact h.perm.cons r.ptr
      · exact List.nodup_cons.mpr ⟨hfresh, h.nodup⟩
      · dsimp only
        rw [h.calls, add_succ, List.length_cons]
      · intro q hq i hi
        have hq' : q ∈ s.blocks := h.perm.mem_iff.mp hq
        have hne : q ≠ r.ptr := fun heq => hfresh (heq ▸ hq')
        have hnode := nodeInit_keeps serial (m := r.mem) hsize hblocks
          List.mem_cons_self (List.mem_cons_of_mem _ hq') hne hi
        exact hnode.trans (hok.keeps q hq' i hi)
      · dsimp only
        rw [List.length_cons, h.perm.length_eq]
        exact Nat.le_max_right _ _
  free := by
    intro s live p h
    show Ensures _ _ (mallocFree t p s)
    have hp : p ∈ s.blocks := h.perm.mem_iff.mp List.mem_cons_self
    have hrest : live.Perm (s.blocks.erase p) := by
      have := h.perm.erase p
      rwa [List.erase_cons_head] at this
    have hcalls := h.calls
    rw [List.length_cons, ← succ_add] at hcalls
    unfold mallocFree freeEach freeEach
    rw [if_pos hp]
    refine ⟨⟨hrest, h.nodup.erase p, ?_, hcalls, Target.add_lt _ _⟩, fun _ _ _ _ => rfl, ?_⟩
    · exact Elements.mono h.blocks fun q hq => List.mem_of_mem_erase hq
    · exact List.length_erase_le
  liveCount := by
    intro s live h
    have hlt := h.blocks.length_lt h.nodup
    show t.sub s.allocCalls s.freeCalls = live.length
    rw [h.calls]
    refine sub_add h.freeCalls ?_
    rw [h.perm.length_eq]
    exact hlt
  teardown := by
    intro s live h
    show Ensures _ _ (mallocTeardown t live s)
    unfold mallocTeardown
    rw [freeEach_perm h.perm]
    dsimp only [Except.bind]
    rw [if_neg (fun hne => hne h.calls)]
    exact rfl

/-! ## The free list -/

/-- `freelist_ctx` in order: the list in memory holds the blocks that are not
live. -/
structure ListOk (t : Target) (size : Nat) (s : Freelist.World) (live : List Nat) : Prop where
  blocks : Pool.Elements t ⟨s.blocks, size⟩
  list : ∃ stack, Chain s.mem t.sizeofSizeT s.freeHead stack ∧ Shared s.blocks stack.reverse live
  outstanding : s.outstanding = live.length

section

variable {s s' : Freelist.World} {live : List Nat} {serial p : Nat} {env : Option Pool.Reserved}

theorem ListOk.nodup (h : ListOk t size s live) : live.Nodup := by
  obtain ⟨stack, -, hshared⟩ := h.list
  exact (List.nodup_append.mp hshared.nodup_append).2.1

/-- The order of the live nodes does not matter. -/
theorem ListOk.perm {live' : List Nat} (h : ListOk t size s live) (hperm : live.Perm live') :
    ListOk t size s live' := by
  obtain ⟨stack, hchain, hshared⟩ := h.list
  refine ⟨h.blocks, ⟨stack, hchain, hshared.nodup, ?_⟩, ?_⟩
  · exact hshared.perm.trans (hperm.append_left _)
  · rw [← hperm.length_eq]
    exact h.outstanding

/-- `freelist_alloc` hands out a node that is not live, with its pattern. -/
theorem ListOk.alloc (hsize : BenchSize t size) (h : ListOk t size s live)
    (hheap : ∀ r ∈ env, Freelist.MallocOk t size s r) (hserial : serial < 2 ^ t.uintBits)
    (hs : Freelist.alloc t (Freelist.nodeInit t size) env serial s = some (p, s')) :
    ListOk t size s' (p :: live) ∧ nodeCheck t size serial p s'.mem = true ∧
    (∀ q ∈ live, ∀ i, i < size → s'.mem (q + i) = s.mem (q + i)) ∧
    s'.blocks.length ≤ max s.blocks.length (live.length + 1) := by
  obtain ⟨stack, hchain, hshared⟩ := h.list
  by_cases hz : s.freeHead = 0
  · -- an empty list: a new block
    obtain rfl : stack = [] := by
      rw [hz] at hchain
      exact hchain.eq_nil
    rw [Freelist.alloc_new hz] at hs
    obtain ⟨r, hr, heq⟩ := Option.map_eq_some_iff.mp hs
    obtain ⟨rfl, rfl⟩ := Prod.mk.inj heq
    have hok := hheap r hr
    have hblocks : Pool.Elements t ⟨s.blocks ++ [r.ptr], size⟩ := h.blocks.reserve hok
    have hshared' := hshared.reserve hok.fresh
    have hlen := hshared'.length_eq
    have hlt := hblocks.length_lt hshared'.nodup
    simp only [List.reverse_nil, List.length_nil, List.length_cons, Nat.zero_add] at hlen
    rw [hlen] at hlt
    refine ⟨⟨hblocks, ⟨[], hz, hshared'⟩, ?_⟩, nodeCheck_nodeInit hsize hserial, ?_, ?_⟩
    · show t.add s.outstanding 1 = live.length + 1
      rw [h.outstanding, Target.add_eq hlt]
    · intro q hq i hi
      have hq' : q ∈ s.blocks := hshared.mem_of_live hq
      have hne : q ≠ r.ptr := fun heq => hok.fresh (heq ▸ hq')
      have hnode := nodeInit_keeps serial (m := r.mem) hsize hblocks (by simp)
        (List.mem_append_left _ hq') hne hi
      exact hnode.trans (hok.keeps q hq' i hi)
    · show (s.blocks ++ [r.ptr]).length ≤ _
      omega
  · -- the node on top of the list
    obtain ⟨rest, rfl, hrest⟩ := hchain.eq_cons hz
    rw [Freelist.alloc_again hz] at hs
    obtain ⟨rfl, rfl⟩ := Prod.mk.inj (Option.some.inj hs)
    rw [List.reverse_cons] at hshared
    have hshared' := hshared.recycle
    have hlen := hshared'.length_eq
    have hlt := h.blocks.length_lt hshared'.nodup
    rw [List.length_cons] at hlen
    dsimp only at hlt
    have hp : s.freeHead ∈ s.blocks := hshared'.mem_of_live List.mem_cons_self
    have hnodup := (List.nodup_append.mp hshared'.nodup_append).2.1
    -- neither a live node nor one still on the list is the one taken off it
    have hlist : s.freeHead ∉ rest := by
      intro hin
      have := hshared.freed_nodup
      rw [List.nodup_append] at this
      exact this.2.2 _ (List.mem_reverse.mpr hin) _ (List.mem_singleton_self _) rfl
    have hframe := Freelist.blocks_frame hsize.word h.blocks hp
      (fun q hq => hshared'.mem_iff.mpr (Or.inl (List.mem_reverse.mpr hq))) hlist
      (Freelist.nodeInit_ok hsize.holds hsize.lt_modulus serial s.freeHead s.mem)
    refine ⟨⟨h.blocks, ⟨rest, hrest.frame hframe, hshared'⟩, ?_⟩,
      nodeCheck_nodeInit hsize hserial, ?_, Nat.le_max_left _ _⟩
    · show t.add s.outstanding 1 = live.length + 1
      rw [h.outstanding, Target.add_eq (by omega)]
    · intro q hq i hi
      have hne : q ≠ s.freeHead := fun heq => (List.nodup_cons.mp hnodup).1 (heq ▸ hq)
      exact nodeInit_keeps _ hsize h.blocks hp (hshared'.mem_of_live (List.mem_cons_of_mem _ hq)) hne
        hi

/-- `freelist_free` puts a live node on the list. -/
theorem ListOk.free (hsize : BenchSize t size) (h : ListOk t size s (p :: live)) :
    ListOk t size (Freelist.free t p s) live ∧
    ∀ q ∈ live, ∀ i, i < size → (Freelist.free t p s).mem (q + i) = s.mem (q + i) := by
  obtain ⟨stack, hchain, hshared⟩ := h.list
  have hnodup := List.nodup_cons.mp h.nodup
  have hp : p ∈ s.blocks := hshared.mem_of_live List.mem_cons_self
  have hlen := hshared.length_eq
  have hlt := h.blocks.length_lt hshared.nodup
  have hout := h.outstanding
  rw [List.length_cons] at hlen hout
  dsimp only at hlt
  have hne : ∀ q ∈ stack, q ≠ p := by
    intro q hq heq
    exact hshared.not_live (List.mem_reverse.mpr hq) (heq ▸ List.mem_cons_self)
  have hstack : ∀ q ∈ stack, q ∈ s.blocks := fun q hq =>
    hshared.mem_iff.mpr (Or.inl (List.mem_reverse.mpr hq))
  have hhead : s.freeHead < 256 ^ t.sizeofSizeT := by
    rw [← t.modulus_eq]
    by_cases hz : s.freeHead = 0
    · rw [hz]
      exact t.modulus_pos
    · obtain ⟨rest, rfl, -⟩ := hchain.eq_cons hz
      exact h.blocks.lt_modulus _ (hstack _ List.mem_cons_self)
  have hword : ∀ q ∈ s.blocks, q ≠ p → Region.Disjoint ⟨q, size⟩ ⟨p, t.sizeofSizeT⟩ := by
    intro q hq hqp
    have hdisj := h.blocks.apart q hq p hp hqp
    have hle := hsize.word
    unfold Region.Disjoint at hdisj ⊢
    dsimp only at hdisj ⊢
    omega
  refine ⟨⟨h.blocks, ⟨p :: stack, ?_, ?_⟩, ?_⟩, ?_⟩
  · refine hchain.push (Nat.ne_of_gt (h.blocks.nonnull p hp)) hhead ?_
    intro q hq
    have hdisj := hword q (hstack q hq) (hne q hq)
    have hle := hsize.word
    unfold Region.Disjoint at hdisj ⊢
    dsimp only at hdisj ⊢
    omega
  · have hrelease := hshared.release (x := p) List.mem_cons_self
    rw [List.erase_cons_head] at hrelease
    rw [List.reverse_cons]
    exact hrelease
  · show t.sub s.outstanding 1 = live.length
    rw [hout, Target.sub_eq (by omega) (by omega), Nat.add_sub_cancel]
  · intro q hq i hi
    have hqp : q ≠ p := fun heq => hnodup.1 (heq ▸ hq)
    have hq' : q ∈ s.blocks := hshared.mem_of_live (List.mem_cons_of_mem p hq)
    refine blit_not_has ?_
    exact (hword q hq' hqp).not_has ⟨Nat.le_add_right _ _, Nat.add_lt_add_left hi _⟩

end

/-- A free list in order, whose blocks are those allocated. -/
structure FreelistOk (t : Target) (size : Nat) (s : ListWorld) (live : List Nat) : Prop where
  list : ListOk t size s.toWorld live
  allocated : s.allocated.Perm s.blocks

section

variable {s s' : ListWorld} {live : List Nat} {serial p : Nat}
  {heap : Nat → ListWorld → Option Pool.Reserved}

theorem FreelistOk.init (t : Target) (size : Nat) (mem : Mem) :
    FreelistOk t size ⟨Freelist.ctxInit mem, []⟩ [] where
  list := ⟨Elements.nil t size, ⟨[], rfl, .nil⟩, rfl⟩
  allocated := .nil

/-- What `malloc` hands out is apart from the blocks of the list. -/
theorem FreelistOk.mallocOk (h : FreelistOk t size s live)
    (hheap : HeapOk t size ListWorld.allocated (fun s => s.mem) heap) :
    ∀ r ∈ heap size s, Freelist.MallocOk t size s.toWorld r := by
  intro r hr
  have hok := hheap s r hr
  have hmem : ∀ q, q ∈ s.blocks → q ∈ s.allocated := fun q => h.allocated.mem_iff.mpr
  exact ⟨hok.nonnull, hok.lt_modulus, fun hq => hok.fresh (hmem _ hq),
    fun q hq => hok.apart q (hmem q hq), fun q hq => hok.keeps q (hmem q hq)⟩

/-- The ghost keeps up with the blocks. -/
theorem FreelistOk.alloc_allocated {env : Option Pool.Reserved} {w : Freelist.World}
    (h : FreelistOk t size s live)
    (hs : Freelist.alloc t (Freelist.nodeInit t size) env serial s.toWorld = some (p, w)) :
    (if s.freeHead = 0 then p :: s.allocated else s.allocated).Perm w.blocks := by
  by_cases hz : s.freeHead = 0
  · rw [if_pos hz]
    rw [Freelist.alloc_new hz] at hs
    obtain ⟨r, -, heq⟩ := Option.map_eq_some_iff.mp hs
    cases heq
    exact (h.allocated.cons r.ptr).trans (List.perm_append_singleton r.ptr s.blocks).symm
  · rw [if_neg hz]
    rw [Freelist.alloc_again hz] at hs
    cases hs
    exact h.allocated

/-- `freelist_alloc` hands out a node that is not live, with its pattern. -/
theorem FreelistOk.alloc (hsize : BenchSize t size)
    (hheap : HeapOk t size ListWorld.allocated (fun s => s.mem) heap)
    (h : FreelistOk t size s live) (hserial : serial < 2 ^ t.uintBits) :
    Ensures NoMemory (fun r => Took (FreelistOk t size) t (freelistOps t heap)
      ListWorld.allocated size serial s live r.1 r.2) (freelistAlloc t heap size serial s) := by
  unfold freelistAlloc
  cases hr : Freelist.alloc t (Freelist.nodeInit t size) (heap size s) serial s.toWorld with
  | none => exact rfl
  | some r =>
    obtain ⟨p, w⟩ := r
    obtain ⟨hok, hnode, hkeeps, hlen⟩ := h.list.alloc hsize (h.mallocOk hheap) hserial hr
    have hallocated := h.alloc_allocated hr
    refine ⟨⟨hok, hallocated⟩, hnode, hkeeps, ?_⟩
    rw [← hallocated.length_eq, ← h.allocated.length_eq] at hlen
    exact hlen

/-- `freelist_free` puts a live node on the list. -/
theorem FreelistOk.free (hsize : BenchSize t size) (h : FreelistOk t size s (p :: live)) :
    FreelistOk t size (freelistFree t p s) live ∧
    ∀ q ∈ live, ∀ i, i < size → (freelistFree t p s).mem (q + i) = s.mem (q + i) := by
  obtain ⟨hlist, hkeeps⟩ := h.list.free hsize
  exact ⟨⟨hlist, h.allocated⟩, hkeeps⟩

/-- Once all live nodes are on the list, the blocks are still those allocated. -/
theorem FreelistOk.foldl_free (hsize : BenchSize t size) (h : FreelistOk t size s live) :
    FreelistOk t size (live.foldl (fun s p => freelistFree t p s) s) [] := by
  induction live generalizing s with
  | nil => exact h
  | cons p live ih => exact ih (h.free hsize).1

end

/-- `freelist_ops`. -/
def freelistLawful {heap : Nat → ListWorld → Option Pool.Reserved} (hsize : BenchSize t size)
    (hheap : HeapOk t size ListWorld.allocated (fun s => s.mem) heap) :
    Lawful t size (freelistOps t heap) where
  Ok := FreelistOk t size
  allocated := ListWorld.allocated
  init mem := ⟨.init t size mem, rfl⟩
  nodup h := h.list.nodup
  perm h hperm := ⟨h.list.perm hperm, h.allocated⟩
  alloc h hserial := h.alloc hsize hheap hserial
  free h := ⟨(h.free hsize).1, (h.free hsize).2, Nat.le_refl _⟩
  liveCount h := h.list.outstanding
  teardown := by
    intro s live h
    show Ensures _ _ (freelistTeardown t live s)
    unfold freelistTeardown
    dsimp only
    rw [freeEach_perm (h.foldl_free hsize).allocated.symm]
    exact rfl

/-! ## `mulle_storage` -/

/-- A storage in order: the freed and the live nodes share out its elements. -/
structure StorageOk (t : Target) (size : Nat) (s : Pool.World) (live : List Nat) : Prop where
  shared : Shared s.structs.elements s.freed live
  elements : Pool.Elements t s.structs
  size_eq : s.size = size

section

variable {s s' : Pool.World} {live : List Nat} {serial p : Nat}
  {heap : Nat → Pool.World → Option Pool.Reserved}

/-- The order of the live nodes does not matter. -/
theorem StorageOk.perm {live' : List Nat} (h : StorageOk t size s live) (hperm : live.Perm live') :
    StorageOk t size s live' :=
  { h with shared := ⟨h.shared.nodup, h.shared.perm.trans (hperm.append_left _)⟩ }

/-- A log in which the live nodes were taken with what they hold. -/
def tookAll (content : Nat → List UInt8) (live : List Nat) : List (Label Nat) :=
  live.map fun p => .took p (content p)

theorem liveNodes_tookAll (content : Nat → List UInt8) (live : List Nat) :
    liveNodes (tookAll content live) = live := by
  induction live with
  | nil => rfl
  | cons p live ih => exact congrArg (p :: ·) ih

theorem tracks_tookAll (content : Nat → List UInt8) {live : List Nat} (h : live.Nodup) :
    Tracks content (tookAll content live) := by
  induction live with
  | nil => exact .nil
  | cons p live ih =>
    obtain ⟨hp, hrest⟩ := List.nodup_cons.mp h
    refine (ih hrest).took ?_ fun _ _ => rfl
    rw [liveNodes_tookAll]
    exact hp

/-- A storage in order is one whose clients have just taken their nodes. -/
theorem StorageOk.inv (h : StorageOk t size s live) :
    ∃ σ : Pool.Sys, σ.world = s ∧ σ.live = live ∧ Pool.Inv t σ := by
  have hnodup := (List.nodup_append.mp h.shared.nodup_append).2.1
  have hlive := liveNodes_tookAll (fun p => bytesAt s.mem p s.size) live
  refine ⟨⟨s, tookAll (fun p => bytesAt s.mem p s.size) live⟩, rfl, hlive, ?_⟩
  refine ⟨?_, h.elements, tracks_tookAll _ hnodup⟩
  unfold Pool.Sys.live
  rw [hlive]
  exact h.shared

/-- What `mulle_structqueue_reserve` answers with is a new element. -/
theorem StorageOk.reserveOk (h : StorageOk t size s live)
    (hheap : HeapOk t size (fun s => s.structs.elements) Pool.World.mem heap) :
    ∀ r ∈ heap size s, Pool.ReserveOk t s r := by
  intro r hr
  have hok := hheap s r hr
  rw [← h.size_eq] at hok
  exact ⟨hok.nonnull, hok.lt_modulus, hok.fresh, hok.apart, hok.keeps⟩

/-- `storage_alloc` hands out a node that is not live, with its pattern. -/
theorem StorageOk.alloc (hsize : BenchSize t size)
    (hheap : HeapOk t size (fun s => s.structs.elements) Pool.World.mem heap)
    (h : StorageOk t size s live) (hserial : serial < 2 ^ t.uintBits) :
    Ensures NoMemory (fun r => Took (StorageOk t size) t (storageOps t heap)
      (fun s => s.structs.elements) size serial s live r.1 r.2)
      (storageAlloc t heap size serial s) := by
  have hres := h.reserveOk hheap
  obtain ⟨σ, rfl, rfl, hinv⟩ := h.inv
  unfold storageAlloc
  cases hm : Pool.malloc (heap size σ.world) σ.world with
  | none => exact rfl
  | some r =>
    obtain ⟨p, s'⟩ := r
    have htaken := Pool.malloc_taken hinv hres hm
    have hsize' : s'.size = size := htaken.size.trans h.size_eq
    have helements : Pool.Elements t ⟨s'.structs.elements, size⟩ := by
      rw [← hsize']
      exact htaken.elements
    have hp : p ∈ s'.structs.elements := htaken.shared.mem_of_live List.mem_cons_self
    dsimp only
    rw [if_neg (Nat.ne_of_gt (helements.nonnull p hp))]
    refine ⟨⟨htaken.shared, htaken.elements, hsize'⟩, nodeCheck_nodeInit hsize hserial, ?_, ?_⟩
    · intro q hq i hi
      have hne : q ≠ p := fun heq => htaken.fresh (heq ▸ hq)
      have hq' := htaken.shared.mem_of_live (List.mem_cons_of_mem p hq)
      have hnode := nodeInit_keeps serial (m := s'.mem) hsize helements hp hq' hne hi
      refine hnode.trans (htaken.keeps q (hinv.shared.mem_of_live hq) i ?_)
      rw [h.size_eq]
      exact hi
    · -- a new element is reserved when nothing is freed
      show s'.structs.elements.length ≤ max σ.world.structs.elements.length (σ.live.length + 1)
      rcases Pool.malloc_grows hinv hm with heq | ⟨hnil, -⟩
      · rw [heq]
        exact Nat.le_max_left _ _
      · have hlen := htaken.shared.length_eq
        rw [hnil, List.length_nil, Nat.zero_add, List.length_cons] at hlen
        omega

/-- `storage_free` passes its asserts. -/
theorem StorageOk.free (h : StorageOk t size s (p :: live)) :
    storageFree t p s = .ok (Pool.free t p s) ∧ StorageOk t size (Pool.free t p s) live ∧
    ∀ q ∈ live, ∀ i, i < size → (Pool.free t p s).mem (q + i) = s.mem (q + i) := by
  have hp : p ∈ s.structs.elements := h.shared.mem_of_live List.mem_cons_self
  have hfreed : p ∉ s.freed := fun hin => h.shared.not_live hin List.mem_cons_self
  have hnodup := (List.nodup_append.mp h.shared.nodup_append).2.1
  unfold storageFree
  rw [if_pos ⟨hfreed, hp⟩]
  refine ⟨rfl, ⟨?_, ?_, ?_⟩, ?_⟩
  · have hrelease := h.shared.release (x := p) List.mem_cons_self
    rw [List.erase_cons_head] at hrelease
    rw [Pool.free_structs, Pool.free_freed]
    exact hrelease
  · rw [Pool.free_structs]
    exact h.elements
  · rw [Pool.free_size]
    exact h.size_eq
  · intro q hq i hi
    have hne : q ≠ p := fun heq => (List.nodup_cons.mp hnodup).1 (heq ▸ hq)
    have hq' := h.shared.mem_of_live (List.mem_cons_of_mem p hq)
    refine Pool.free_outside ?_
    refine (h.elements.apart q hq' p hp hne).not_has ⟨Nat.le_add_right _ _, ?_⟩
    refine Nat.add_lt_add_left ?_ _
    show i < s.size
    rw [h.size_eq]
    exact hi

end

/-- `storage_ops`. -/
def storageLawful {heap : Nat → Pool.World → Option Pool.Reserved} (hsize : BenchSize t size)
    (hheap : HeapOk t size (fun s => s.structs.elements) Pool.World.mem heap) :
    Lawful t size (storageOps t heap) where
  Ok := StorageOk t size
  allocated s := s.structs.elements
  init mem := ⟨⟨.nil, Elements.nil t size, rfl⟩, rfl⟩
  nodup h := (List.nodup_append.mp h.shared.nodup_append).2.1
  perm h hperm := h.perm hperm
  alloc h hserial := h.alloc hsize hheap hserial
  free := by
    intro s live p h
    obtain ⟨hfree, hok, hkeeps⟩ := h.free
    show Ensures _ _ (storageFree t p s)
    rw [hfree]
    refine ⟨hok, hkeeps, ?_⟩
    rw [Pool.free_structs]
  liveCount h := by
    obtain ⟨σ, rfl, rfl, hinv⟩ := h.inv
    exact hinv.getCount_eq
  teardown _ := rfl

/-! ## The workloads -/

section

variable {σ : Type}

/-- Every `random_pass` ends clean, or for want of memory. -/
def RandomOk (t : Target) (size : Nat) (ops : AllocOps σ) (allocated : σ → List Nat) : Prop :=
  ∀ n rng mem, Ensures NoMemory (fun r => Clean ops allocated maxLive r.1)
    (randomPass t ops size n rng (ops.ctxInit size mem))

/-- Every `lifo_pass` ends clean, or for want of memory. -/
def LifoOk (t : Target) (size : Nat) (ops : AllocOps σ) (allocated : σ → List Nat) : Prop :=
  ∀ n mem, Ensures NoMemory (Clean ops allocated depth)
    (lifoPass t ops size n (ops.ctxInit size mem))

/-- Every `growth_pass` has `n` distinct live nodes in the end, on no more than
`n` blocks, and its teardown gives all of them back. -/
def GrowthOk (t : Target) (size : Nat) (ops : AllocOps σ) (allocated : σ → List Nat) : Prop :=
  ∀ n mem,
    Ensures NoMemory (fun w => (w.live.map Prod.fst).Nodup ∧ w.live.length = n ∧
      ops.liveCount w.ctx = n ∧ (allocated w.ctx).length ≤ n)
      (growth t ops size n (ops.ctxInit size mem)) ∧
    Ensures NoMemory (fun s => allocated s = []) (growthPass t ops size n (ops.ctxInit size mem))

theorem Lawful.growthOk {ops : AllocOps σ} (L : Lawful t size ops) (hsize : BenchSize t size) :
    GrowthOk t size ops L.allocated := by
  intro n mem
  have hgrowth := L.growth (n := n) hsize mem
  refine ⟨hgrowth.mono ?_, ?_⟩
  · intro w ⟨hlen, hok, hallocated⟩
    refine ⟨L.nodup hok, hlen, ?_, hallocated⟩
    rw [L.liveCount hok, List.length_map, hlen]
  · refine hgrowth.bind ?_
    intro w hw
    obtain ⟨-, hok, -⟩ := hw
    exact (L.teardown hok).weaken fun _ he => he.elim

end

section

variable {mallocHeap : Nat → MallocCtx → Option Pool.Reserved}
  {freelistHeap : Nat → ListWorld → Option Pool.Reserved}
  {storageHeap : Nat → Pool.World → Option Pool.Reserved}

/-- **`random_pass`.** On each of the three allocators, for every number of
turns, every state of the random numbers and whatever the system's allocator
answers, the pass fails no check and does nothing undefined: it ends with no
live node and at most `MAX_LIVE` blocks obtained, which a teardown gives back,
each once; or memory ran out. -/
theorem random_pass_ok (hsize : BenchSize t size)
    (hmalloc : HeapOk t size MallocCtx.blocks MallocCtx.mem mallocHeap)
    (hfreelist : HeapOk t size ListWorld.allocated (fun s => s.mem) freelistHeap)
    (hstorage : HeapOk t size (fun s => s.structs.elements) Pool.World.mem storageHeap) :
    RandomOk t size (mallocOps t mallocHeap) MallocCtx.blocks ∧
    RandomOk t size (freelistOps t freelistHeap) ListWorld.allocated ∧
    RandomOk t size (storageOps t storageHeap) fun s => s.structs.elements :=
  ⟨fun _ rng mem => (mallocLawful hsize hmalloc).randomPass hsize rng mem,
    fun _ rng mem => (freelistLawful hsize hfreelist).randomPass hsize rng mem,
    fun _ rng mem => (storageLawful hsize hstorage).randomPass hsize rng mem⟩

/-- **`lifo_pass`.** The same, with at most `DEPTH` blocks obtained. -/
theorem lifo_pass_ok (hsize : BenchSize t size)
    (hmalloc : HeapOk t size MallocCtx.blocks MallocCtx.mem mallocHeap)
    (hfreelist : HeapOk t size ListWorld.allocated (fun s => s.mem) freelistHeap)
    (hstorage : HeapOk t size (fun s => s.structs.elements) Pool.World.mem storageHeap) :
    LifoOk t size (mallocOps t mallocHeap) MallocCtx.blocks ∧
    LifoOk t size (freelistOps t freelistHeap) ListWorld.allocated ∧
    LifoOk t size (storageOps t storageHeap) fun s => s.structs.elements :=
  ⟨fun _ mem => (mallocLawful hsize hmalloc).lifoPass hsize mem,
    fun _ mem => (freelistLawful hsize hfreelist).lifoPass hsize mem,
    fun _ mem => (storageLawful hsize hstorage).lifoPass hsize mem⟩

/-- **`growth_pass`.** All checks hold for any number of nodes, their serials
wrapped or not, and the teardown gives back each block obtained, once. -/
theorem growth_pass_ok (hsize : BenchSize t size)
    (hmalloc : HeapOk t size MallocCtx.blocks MallocCtx.mem mallocHeap)
    (hfreelist : HeapOk t size ListWorld.allocated (fun s => s.mem) freelistHeap)
    (hstorage : HeapOk t size (fun s => s.structs.elements) Pool.World.mem storageHeap) :
    GrowthOk t size (mallocOps t mallocHeap) MallocCtx.blocks ∧
    GrowthOk t size (freelistOps t freelistHeap) ListWorld.allocated ∧
    GrowthOk t size (storageOps t storageHeap) fun s => s.structs.elements :=
  ⟨(mallocLawful hsize hmalloc).growthOk hsize, (freelistLawful hsize hfreelist).growthOk hsize,
    (storageLawful hsize hstorage).growthOk hsize⟩

end

/-! ## A heap -/

/-- Blocks one behind the other, each 256 bytes behind the last one in use. -/
def bumpHeap {σ : Type} (blocks : σ → List Nat) (mem : σ → Mem) (size : Nat) (s : σ) :
    Option Pool.Reserved :=
  let p := (blocks s).foldr max 0 + 256
  if p + size < (x64 true).modulus then some ⟨p, mem s⟩ else none

theorem le_foldr_max {l : List Nat} {p : Nat} (h : p ∈ l) : p ≤ l.foldr max 0 := by
  induction l with
  | nil => exact absurd h List.not_mem_nil
  | cons q l ih =>
    rw [List.foldr_cons]
    rcases List.mem_cons.mp h with rfl | h
    · exact Nat.le_max_left _ _
    · exact Nat.le_trans (ih h) (Nat.le_max_right _ _)

theorem bumpHeap_ok {σ : Type} (blocks : σ → List Nat) (mem : σ → Mem) (hsize : size ≤ 256) :
    HeapOk (x64 true) size blocks mem (bumpHeap blocks mem) := by
  intro s r hr
  have hbelow : ∀ q ∈ blocks s, q + 256 ≤ (blocks s).foldr max 0 + 256 := by
    intro q hq
    exact Nat.add_le_add_right (le_foldr_max hq) 256
  unfold bumpHeap at hr
  dsimp only at hr
  split at hr
  next hlt =>
    obtain rfl := Option.some.inj hr
    refine ⟨Nat.succ_pos _, Nat.lt_of_le_of_lt (Nat.le_add_right _ _) hlt, ?_, ?_, fun _ _ _ _ => rfl⟩
    · intro hq
      have hle := hbelow _ hq
      dsimp only at hle
      omega
    · intro q hq
      have hle := hbelow q hq
      left
      show q + size ≤ (blocks s).foldr max 0 + 256
      omega
  next => cases hr

theorem benchSize_x64 : BenchSize (x64 true) 32 := ⟨by decide, by decide, by decide, by decide⟩

theorem random_pass_ok_bump :
    RandomOk (x64 true) 32 (mallocOps (x64 true) (bumpHeap MallocCtx.blocks MallocCtx.mem))
      MallocCtx.blocks ∧
    RandomOk (x64 true) 32
      (freelistOps (x64 true) (bumpHeap ListWorld.allocated fun s => s.mem)) ListWorld.allocated ∧
    RandomOk (x64 true) 32
      (storageOps (x64 true) (bumpHeap (fun s => s.structs.elements) Pool.World.mem))
      fun s => s.structs.elements :=
  random_pass_ok benchSize_x64 (bumpHeap_ok _ _ (by decide)) (bumpHeap_ok _ _ (by decide))
    (bumpHeap_ok _ _ (by decide))

theorem lifo_pass_ok_bump :
    LifoOk (x64 true) 32 (mallocOps (x64 true) (bumpHeap MallocCtx.blocks MallocCtx.mem))
      MallocCtx.blocks ∧
    LifoOk (x64 true) 32
      (freelistOps (x64 true) (bumpHeap ListWorld.allocated fun s => s.mem)) ListWorld.allocated ∧
    LifoOk (x64 true) 32
      (storageOps (x64 true) (bumpHeap (fun s => s.structs.elements) Pool.World.mem))
      fun s => s.structs.elements :=
  lifo_pass_ok benchSize_x64 (bumpHeap_ok _ _ (by decide)) (bumpHeap_ok _ _ (by decide))
    (bumpHeap_ok _ _ (by decide))

theorem growth_pass_ok_bump :
    GrowthOk (x64 true) 32 (mallocOps (x64 true) (bumpHeap MallocCtx.blocks MallocCtx.mem))
      MallocCtx.blocks ∧
    GrowthOk (x64 true) 32
      (freelistOps (x64 true) (bumpHeap ListWorld.allocated fun s => s.mem)) ListWorld.allocated ∧
    GrowthOk (x64 true) 32
      (storageOps (x64 true) (bumpHeap (fun s => s.structs.elements) Pool.World.mem))
      fun s => s.structs.elements :=
  growth_pass_ok benchSize_x64 (bumpHeap_ok _ _ (by decide)) (bumpHeap_ok _ _ (by decide))
    (bumpHeap_ok _ _ (by decide))

/-- On this heap, 12 turns from the benchmark's own seed. -/
example : (match randomPass (x64 true)
      (freelistOps (x64 true) (bumpHeap ListWorld.allocated fun s => s.mem)) 32 12 0x1234ABCD
      ⟨Freelist.ctxInit fun _ => 0, []⟩ with
    | .ok r => r.1.allocated.length
    | .error _ => 0) = 3 := by decide +kernel

end MulleStorage.Bench
