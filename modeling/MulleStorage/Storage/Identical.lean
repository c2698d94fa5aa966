import MulleStorage.Storage.Allocators
import MulleStorage.Storage.Lockstep

/-!
# Identical results

The benchmark holds that "all allocators must produce identical results". For
the free list and `mulle_storage` that goes beyond the counts it compares. Both
are stocks (`Lockstep.lean`), a workload decides by counts and random numbers
alone, and so the two passes stay side by side turn for turn (`Same`): the same
nodes, by number, at the same places of the arrays.

> `passes_identical`: after any number of turns of any workload the arrays hold
> the same nodes with the same serials, and as many nodes were obtained; in the
> end the same nodes lie on the stack of freed ones, in the same order. A pass
> that stops has run out of memory.
-/

namespace MulleStorage.Bench

open MulleStorage.Lib MulleStorage.Arena

/-- Entries moved by their numbers. -/
theorem map_swapRemove (f : Nat × Nat → Nat × Nat) {a : List (Nat × Nat)} (k : Nat)
    (h : a ≠ []) : (swapRemove a k).map f = swapRemove (a.map f) k := by
  unfold swapRemove
  rw [List.map_dropLast, List.map_set]
  congr 2
  rw [List.getLastD_eq_getLast?, List.getLastD_eq_getLast?, List.getLast?_map]
  rw [List.getLast?_eq_some_getLast h]
  rfl

/-! ## The allocators side by side -/

variable {t : Target} {size : Nat}

/-- The free list and the storage are the same stock; `live` and `live'` are
their live nodes. -/
structure SameStock (t : Target) (size : Nat) (s : Freelist.World) (s' : Pool.World)
    (live live' : List Nat) : Prop where
  freelist : ListOk t size s live
  storage : StorageOk t size s' live'
  stock : ∃ st, Freelist.Inv t size s st ∧ Numbered s'.structs.elements s'.freed.reverse st

/-- The free list and the storage have obtained as many nodes, and have freed
the same ones in the same order. -/
def SameFreed (t : Target) (s : Freelist.World) (s' : Pool.World) : Prop :=
  s.blocks.length = s'.structs.elements.length ∧
  ∃ stack, Chain s.mem t.sizeofSizeT s.freeHead stack ∧
    stack.map (fun p => s.blocks.idxOf p) =
      s'.freed.reverse.map fun p => s'.structs.elements.idxOf p

/-- A free list only obtains more, -/
theorem freelist_alloc_more {init : Nat → Nat → Mem → Mem} {env : Option Pool.Reserved}
    {serial p : Nat} {s s' : Freelist.World}
    (h : Freelist.alloc t init env serial s = some (p, s')) : s.blocks <+: s'.blocks := by
  by_cases hz : s.freeHead = 0
  · rw [Freelist.alloc_new hz] at h
    obtain ⟨r, -, heq⟩ := Option.map_eq_some_iff.mp h
    cases heq
    exact List.prefix_append _ _
  · rw [Freelist.alloc_again hz] at h
    cases h
    exact List.prefix_refl _

/-- and so does a storage. -/
theorem pool_malloc_more {env : Option Pool.Reserved} {p : Nat} {s s' : Pool.World}
    (h : Pool.malloc env s = some (p, s')) : s.structs.elements <+: s'.structs.elements := by
  unfold Pool.malloc at h
  dsimp only at h
  split at h
  · obtain ⟨r, -, heq⟩ := Option.map_eq_some_iff.mp h
    cases heq
    exact List.prefix_append _ _
  · cases h
    exact List.prefix_refl _

namespace SameStock

variable {s s₁ : Freelist.World} {s' s₁' : Pool.World} {live live' : List Nat} {p p' : Nat}

theorem start (t : Target) (size : Nat) (mem mem' : Mem) :
    SameStock t size (Freelist.ctxInit mem) (Pool.init size mem') [] [] where
  freelist := (FreelistOk.init t size mem).list
  storage := ⟨.nil, Elements.nil t size, rfl⟩
  stock := ⟨.empty, .start t size mem, .empty⟩

theorem obtained (h : SameStock t size s s' live live') :
    s.blocks.length = s'.structs.elements.length := by
  obtain ⟨st, hinv, hnum'⟩ := h.stock
  obtain ⟨stack, -, hnum⟩ := hinv.chain
  rw [← hnum.count, ← hnum'.count]

theorem freed (h : SameStock t size s s' live live') : SameFreed t s s' := by
  obtain ⟨st, hinv, hnum'⟩ := h.stock
  obtain ⟨stack, hchain, hnum⟩ := hinv.chain
  exact ⟨h.obtained, stack, hchain, hnum.numbers_eq.trans hnum'.numbers_eq.symm⟩

/-- Both take the node with the same number. -/
theorem alloc {env env' : Option Pool.Reserved} {serial : Nat} (hsize : BenchSize t size)
    (henv : ∀ r ∈ env, Freelist.MallocOk t size s r)
    (henv' : ∀ r ∈ env', Pool.ReserveOk t s' r) (h : SameStock t size s s' live live')
    (hs : Freelist.alloc t (Freelist.nodeInit t size) env serial s = some (p, s₁))
    (hs' : Pool.malloc env' s' = some (p', s₁')) :
    s₁.blocks.idxOf p = s₁'.structs.elements.idxOf p' ∧
    ∃ st, Freelist.Inv t size s₁ st ∧ Numbered s₁'.structs.elements s₁'.freed.reverse st := by
  obtain ⟨st, hinv, hnum⟩ := h.stock
  have hserve : Freelist.serve t (Freelist.nodeInit t size) env serial s .take =
      some (⟨some (s₁.blocks.idxOf p), s₁.blocks.length, Freelist.liveCount s₁⟩, s₁) := by
    simp only [Freelist.serve, hs, Option.map_some]
  obtain ⟨hshown, hinv'⟩ := hinv.take hsize.word
    (Freelist.nodeInit_ok hsize.holds hsize.lt_modulus) henv hserve
  obtain ⟨σ, rfl, -, hpool⟩ := h.storage.inv
  obtain ⟨hnumber, hnum'⟩ := Pool.malloc_stocked hpool hnum henv' hs'
  have hshown' : some (s₁.blocks.idxOf p) = (st.serve .take).1 := congrArg Shown.number hshown
  exact ⟨Option.some.inj (hshown'.trans hnumber), (st.serve .take).2, hinv', hnum'⟩

/-- Both free the node with the same number. -/
theorem free (hsize : BenchSize t size) (h : SameStock t size s s' (p :: live) (p' :: live'))
    (hnumber : s.blocks.idxOf p = s'.structs.elements.idxOf p') :
    SameStock t size (Freelist.free t p s) (Pool.free t p' s') live live' := by
  obtain ⟨st, hinv, hnum⟩ := h.stock
  obtain ⟨stack, -, hshared⟩ := h.freelist.list
  have hp : p ∈ s.blocks := hshared.mem_of_live List.mem_cons_self
  have hp' : p' ∈ s'.structs.elements := h.storage.shared.mem_of_live List.mem_cons_self
  have hget : s.blocks.getD (s.blocks.idxOf p) 0 = p := getD_of_getElem? (List.getElem?_idxOf hp)
  have hget' : s'.structs.elements[s.blocks.idxOf p]? = some p' := by
    rw [hnumber]
    exact List.getElem?_idxOf hp'
  -- the node is live in the stock
  have hholds : st.Holds (s.blocks.idxOf p) := by
    obtain ⟨σ, rfl, hlive, hpool⟩ := h.storage.inv
    have hσ : σ.Live (s.blocks.idxOf p) := ⟨p', hlive ▸ List.mem_cons_self, hget'⟩
    exact hσ.holds hpool hnum
  have hserve : Freelist.serve t (Freelist.nodeInit t size) none 0 s (.give (s.blocks.idxOf p)) =
      some (⟨none, s.blocks.length, Freelist.liveCount (Freelist.free t p s)⟩,
        Freelist.free t p s) := by
    simp only [Freelist.serve, hget]
    rfl
  refine ⟨(h.freelist.free hsize).1, h.storage.free.2.1, (st.serve (.give (s.blocks.idxOf p))).2,
    (hinv.give hsize.word hholds hserve).2, ?_⟩
  rw [Pool.free_structs, Pool.free_freed, List.reverse_append, List.reverse_singleton]
  exact hnum.give hholds hget'

end SameStock

/-! ## The passes side by side -/

/-- The entry of a node in the arrays, by number. -/
def byNumber (nodes : List Nat) (x : Nat × Nat) : Nat × Nat := (nodes.idxOf x.1, x.2)

/-- The arrays of the two passes hold the same nodes, by number, with the same
serials. -/
structure SameNodes (w : Pass ListWorld) (w' : Pass Pool.World) : Prop where
  obtained : w.ctx.blocks.length = w'.ctx.structs.elements.length
  live : w.live.map (byNumber w.ctx.blocks) = w'.live.map (byNumber w'.ctx.structs.elements)
  serial : w.serial = w'.serial

/-- What two passes side by side keep. -/
structure Same (t : Target) (size : Nat) (w : Pass ListWorld) (w' : Pass Pool.World) :
    Prop where
  stock : SameStock t size w.ctx.toWorld w'.ctx (w.live.map Prod.fst) (w'.live.map Prod.fst)
  allocated : w.ctx.allocated.Perm w.ctx.blocks
  live : w.live.map (byNumber w.ctx.blocks) = w'.live.map (byNumber w'.ctx.structs.elements)
  serial : w.serial = w'.serial
  serial_lt : w.serial < 2 ^ t.uintBits

/-- A node keeps its number when more are obtained. -/
theorem map_byNumber_of_more {nodes nodes' : List Nat} {live : List (Nat × Nat)}
    (h : nodes <+: nodes') (hlive : ∀ p ∈ live.map Prod.fst, p ∈ nodes) :
    live.map (byNumber nodes') = live.map (byNumber nodes) := by
  obtain ⟨new, rfl⟩ := h
  refine List.map_congr_left ?_
  intro x hx
  unfold byNumber
  rw [List.idxOf_append_of_mem (hlive x.1 (List.mem_map_of_mem hx))]

namespace Same

variable {cap : Nat} {w : Pass ListWorld} {w' : Pass Pool.World}
  {heap : Nat → ListWorld → Option Pool.Reserved}
  {heap' : Nat → Pool.World → Option Pool.Reserved}

theorem length_eq (h : Same t size w w') : w.live.length = w'.live.length := by
  have := congrArg List.length h.live
  rwa [List.length_map, List.length_map] at this

theorem nodes (h : Same t size w w') : SameNodes w w' := ⟨h.stock.obtained, h.live, h.serial⟩

theorem freelist (h : Same t size w w') : FreelistOk t size w.ctx (w.live.map Prod.fst) :=
  ⟨h.stock.freelist, h.allocated⟩

theorem start (t : Target) (size : Nat) (mem mem' : Mem) :
    Same t size ⟨⟨Freelist.ctxInit mem, []⟩, [], 0⟩ ⟨Pool.init size mem', [], 0⟩ where
  stock := .start t size mem mem'
  allocated := .nil
  live := rfl
  serial := rfl
  serial_lt := Nat.two_pow_pos _

/-- The two allocations hand out nodes of the same number. -/
theorem alloc (hsize : BenchSize t size)
    (hheap : HeapOk t size ListWorld.allocated (fun s => s.mem) heap)
    (hheap' : HeapOk t size (fun s => s.structs.elements) Pool.World.mem heap')
    (h : Same t size w w') :
    Agree (fun r r' =>
        SameStock t size r.2.toWorld r'.2 (r.1 :: w.live.map Prod.fst)
          (r'.1 :: w'.live.map Prod.fst) ∧
        r.2.allocated.Perm r.2.blocks ∧
        w.ctx.blocks <+: r.2.blocks ∧ w'.ctx.structs.elements <+: r'.2.structs.elements ∧
        r.2.blocks.idxOf r.1 = r'.2.structs.elements.idxOf r'.1)
      ((freelistOps t heap).alloc size w.serial w.ctx)
      ((storageOps t heap').alloc size w.serial w'.ctx) := by
  show Agree _ (freelistAlloc t heap size w.serial w.ctx) (storageAlloc t heap' size w.serial w'.ctx)
  have hstorage := h.stock.storage.alloc hsize hheap' h.serial_lt
  have hmallocOk := h.freelist.mallocOk hheap
  have hreserveOk := h.stock.storage.reserveOk hheap'
  unfold storageAlloc at hstorage ⊢
  unfold freelistAlloc
  cases halloc : Freelist.alloc t (Freelist.nodeInit t size) (heap size w.ctx) w.serial
      w.ctx.toWorld with
  | none => trivial
  | some r =>
    obtain ⟨p, s⟩ := r
    cases hmalloc : Pool.malloc (heap' size w'.ctx) w'.ctx with
    | none => trivial
    | some r' =>
      obtain ⟨p', s'⟩ := r'
      rw [hmalloc] at hstorage
      dsimp only at hstorage ⊢
      by_cases hnull : p' = 0
      · rw [if_pos hnull]
        trivial
      · rw [if_neg hnull] at hstorage ⊢
        obtain ⟨hlist, -⟩ := h.stock.freelist.alloc hsize hmallocOk h.serial_lt halloc
        obtain ⟨hnumber, hstock⟩ := h.stock.alloc hsize hmallocOk hreserveOk halloc hmalloc
        have hallocated := h.freelist.alloc_allocated halloc
        have hmore' := pool_malloc_more hmalloc
        exact ⟨⟨hlist, hstorage.ok, hstock⟩, hallocated, freelist_alloc_more halloc, hmore',
          hnumber⟩

/-- **Step.** Both passes take the same node. -/
theorem take (hsize : BenchSize t size)
    (hheap : HeapOk t size ListWorld.allocated (fun s => s.mem) heap)
    (hheap' : HeapOk t size (fun s => s.structs.elements) Pool.World.mem heap')
    (h : Same t size w w') :
    Agree (Same t size) (w.take t (freelistOps t heap) size cap)
      (w'.take t (storageOps t heap') size cap) := by
  unfold Pass.take
  rw [h.length_eq, ← h.serial]
  split
  · refine (h.alloc hsize hheap hheap').map ?_
    rintro ⟨p, s⟩ ⟨p', s'⟩ ⟨hstock, hallocated, hmore, hmore', hnumber⟩
    obtain ⟨stack, -, hshared⟩ := h.stock.freelist.list
    refine ⟨⟨?_, ?_, hstock.stock⟩, hallocated, ?_, rfl, Nat.mod_lt _ (Nat.two_pow_pos _)⟩
    · refine hstock.freelist.perm ?_
      simp only [List.map_append, List.map_cons, List.map_nil]
      exact (List.perm_append_singleton p _).symm
    · refine hstock.storage.perm ?_
      simp only [List.map_append, List.map_cons, List.map_nil]
      exact (List.perm_append_singleton p' _).symm
    · simp only [List.map_append, List.map_cons, List.map_nil]
      rw [map_byNumber_of_more hmore fun q hq => hshared.mem_of_live hq,
        map_byNumber_of_more hmore' fun q hq => h.stock.storage.shared.mem_of_live hq, h.live]
      unfold byNumber
      rw [hnumber]
  · trivial

/-- **Step.** Both passes give the same node. -/
theorem give (hsize : BenchSize t size) (k : Nat) (h : Same t size w w') :
    Agree (Same t size) (w.give t (freelistOps t heap) size k)
      (w'.give t (storageOps t heap') size k) := by
  unfold Pass.give
  by_cases hk : k < w.live.length
  · have hk' : k < w'.live.length := h.length_eq ▸ hk
    have hentry := congrArg (fun l => l[k]?) h.live
    have hperm := swapRemove_perm hk
    have hperm' := swapRemove_perm hk'
    have hremoved : (swapRemove w.live k).map (byNumber w.ctx.blocks)
        = (swapRemove w'.live k).map (byNumber w'.ctx.structs.elements) := by
      rw [map_swapRemove _ k (List.ne_nil_of_length_pos (Nat.zero_lt_of_lt hk)),
        map_swapRemove _ k (List.ne_nil_of_length_pos (Nat.zero_lt_of_lt hk')), h.live]
    simp only [List.getElem?_map] at hentry
    rw [List.getElem?_eq_getElem hk, List.getElem?_eq_getElem hk'] at hentry ⊢
    generalize w.live[k] = x at hperm hentry ⊢
    generalize w'.live[k] = x' at hperm' hentry ⊢
    obtain ⟨p, serial⟩ := x
    obtain ⟨p', serial'⟩ := x'
    have hnumber : w.ctx.blocks.idxOf p = w'.ctx.structs.elements.idxOf p' :=
      congrArg Prod.fst (Option.some.inj hentry)
    have hstock : SameStock t size w.ctx.toWorld w'.ctx (p :: (swapRemove w.live k).map Prod.fst)
        (p' :: (swapRemove w'.live k).map Prod.fst) :=
      ⟨h.stock.freelist.perm (hperm.map Prod.fst), h.stock.storage.perm (hperm'.map Prod.fst),
        h.stock.stock⟩
    dsimp only
    generalize nodeCheck t size serial p ((freelistOps t heap).mem w.ctx) = check
    generalize nodeCheck t size serial' p' ((storageOps t heap').mem w'.ctx) = check'
    cases check with
    | false => trivial
    | true =>
      cases check' with
      | false => trivial
      | true =>
        -- both nodes pass, and are freed
        show Agree _ _ ((storageFree t p' w'.ctx).map _)
        rw [hstock.storage.free.1]
        refine ⟨hstock.free hsize hnumber, h.allocated, ?_, h.serial, h.serial_lt⟩
        dsimp only
        rw [Pool.free_structs]
        exact hremoved
  · -- nothing there
    rw [List.getElem?_eq_none (Nat.le_of_not_lt hk)]
    trivial

/-- The arrays are emptied side by side. -/
theorem drain (hsize : BenchSize t size) (h : Same t size w w') :
    Agree (Same t size) (w.drain t (freelistOps t heap) size)
      (w'.drain t (storageOps t heap') size) := by
  unfold Pass.drain
  rw [h.length_eq]
  refine Agree.whileDo h ?_ ?_
  · intro w w' h
    rw [h.length_eq]
  · intro w w' h
    rw [h.length_eq]
    exact h.give hsize _

/-- What is left in the end. -/
theorem finish (h : Same t size w w') :
    Agree (fun s s' => SameFreed t s.toWorld s') (w.finish (freelistOps t heap))
      (w'.finish (storageOps t heap')) := by
  unfold Pass.finish
  split
  · trivial
  · split
    · trivial
    · exact h.stock.freed

/-- What is behind the last turn of a pass. -/
theorem drain_finish (hsize : BenchSize t size) (h : Same t size w w') :
    Agree (fun s s' => SameFreed t s.toWorld s')
      ((w.drain t (freelistOps t heap) size).bind (Pass.finish (freelistOps t heap)))
      ((w'.drain t (storageOps t heap') size).bind (Pass.finish (storageOps t heap'))) :=
  (h.drain hsize).bind fun _ _ h => h.finish

/-- **Step.** A turn of `lifo_pass`. -/
theorem lifoTurn (hsize : BenchSize t size)
    (hheap : HeapOk t size ListWorld.allocated (fun s => s.mem) heap)
    (hheap' : HeapOk t size (fun s => s.structs.elements) Pool.World.mem heap')
    (h : Same t size w w') :
    Agree (Same t size) (lifoTurn t (freelistOps t heap) size w)
      (lifoTurn t (storageOps t heap') size w') := by
  unfold Bench.lifoTurn
  rw [h.length_eq]
  split
  · refine Agree.whileDo h ?_ fun w w' h => h.take hsize hheap hheap'
    intro w w' h
    rw [h.length_eq]
  · exact h.give hsize _

/-- **Step.** A turn of `random_pass`: the coin is the same on both sides. -/
theorem randomTurn (hsize : BenchSize t size)
    (hheap : HeapOk t size ListWorld.allocated (fun s => s.mem) heap)
    (hheap' : HeapOk t size (fun s => s.structs.elements) Pool.World.mem heap')
    (h : Same t size w w') (rng : UInt32) :
    Agree (fun r r' => Same t size r.1 r'.1 ∧ r.2 = r'.2)
      (randomTurn t (freelistOps t heap) size (w, rng))
      (randomTurn t (storageOps t heap') size (w', rng)) := by
  unfold Bench.randomTurn
  dsimp only
  rw [h.length_eq]
  generalize (if w'.live.length = 0 then (true, rng)
    else if w'.live.length < maxLive then (rngNext rng &&& 1 != 0, rngNext rng)
    else (false, rng)) = r
  obtain ⟨grow, rng⟩ := r
  cases grow with
  | true => exact (h.take hsize hheap hheap').map fun _ _ h => ⟨h, rfl⟩
  | false => exact (h.give hsize _).map fun _ _ h => ⟨h, rfl⟩

/-- `growth_pass`, up to the teardown. -/
theorem growth (hsize : BenchSize t size)
    (hheap : HeapOk t size ListWorld.allocated (fun s => s.mem) heap)
    (hheap' : HeapOk t size (fun s => s.structs.elements) Pool.World.mem heap')
    (n : Nat) (mem mem' : Mem) :
    Agree SameNodes (growth t (freelistOps t heap) size n ⟨Freelist.ctxInit mem, []⟩)
      (growth t (storageOps t heap') size n (Pool.init size mem')) := by
  refine Agree.bind (R := Same t size) (Agree.repeatDo (Same.start t size mem mem') ?_) ?_
  · intro w w' h
    exact h.take hsize hheap hheap'
  · intro w w' h
    split
    · trivial
    · split
      · split
        · trivial
        · split
          · exact h.nodes
          · trivial
      · trivial

/-- The turns of `lifo_pass`. -/
theorem lifoTurns (hsize : BenchSize t size)
    (hheap : HeapOk t size ListWorld.allocated (fun s => s.mem) heap)
    (hheap' : HeapOk t size (fun s => s.structs.elements) Pool.World.mem heap')
    (n : Nat) (mem mem' : Mem) :
    Agree (Same t size)
      (repeatDo (Bench.lifoTurn t (freelistOps t heap) size) n
        ⟨⟨Freelist.ctxInit mem, []⟩, [], 0⟩)
      (repeatDo (Bench.lifoTurn t (storageOps t heap') size) n ⟨Pool.init size mem', [], 0⟩) :=
  Agree.repeatDo (Same.start t size mem mem') fun _ _ h => h.lifoTurn hsize hheap hheap'

/-- The turns of `random_pass`. -/
theorem randomTurns (hsize : BenchSize t size)
    (hheap : HeapOk t size ListWorld.allocated (fun s => s.mem) heap)
    (hheap' : HeapOk t size (fun s => s.structs.elements) Pool.World.mem heap')
    (n : Nat) (rng : UInt32) (mem mem' : Mem) :
    Agree (fun r r' => Same t size r.1 r'.1 ∧ r.2 = r'.2)
      (repeatDo (Bench.randomTurn t (freelistOps t heap) size) n
        (⟨⟨Freelist.ctxInit mem, []⟩, [], 0⟩, rng))
      (repeatDo (Bench.randomTurn t (storageOps t heap') size) n
        (⟨Pool.init size mem', [], 0⟩, rng)) := by
  refine Agree.repeatDo ⟨Same.start t size mem mem', rfl⟩ ?_
  intro x x' hx
  obtain ⟨w, rng⟩ := x
  obtain ⟨w', rng'⟩ := x'
  obtain ⟨h, rfl⟩ := hx
  exact h.randomTurn hsize hheap hheap' rng

end Same

/-! ## The workloads -/

/-- The workloads of `n` turns on the free list and on the storage, compared. -/
structure Identical (t : Target) (size : Nat) (freelist : AllocOps ListWorld)
    (storage : AllocOps Pool.World) (n : Nat) (rng : UInt32) (mem mem' : Mem) : Prop where
  growth : AgreeUnless NoMemory SameNodes (growth t freelist size n (freelist.ctxInit size mem))
    (growth t storage size n (storage.ctxInit size mem'))
  lifo : AgreeUnless NoMemory SameNodes
    (repeatDo (lifoTurn t freelist size) n ⟨freelist.ctxInit size mem, [], 0⟩)
    (repeatDo (lifoTurn t storage size) n ⟨storage.ctxInit size mem', [], 0⟩)
  lifoEnd : AgreeUnless NoMemory (fun s s' => SameFreed t s.toWorld s')
    (lifoPass t freelist size n (freelist.ctxInit size mem))
    (lifoPass t storage size n (storage.ctxInit size mem'))
  random : AgreeUnless NoMemory (fun r r' => SameNodes r.1 r'.1 ∧ r.2 = r'.2)
    (repeatDo (randomTurn t freelist size) n (⟨freelist.ctxInit size mem, [], 0⟩, rng))
    (repeatDo (randomTurn t storage size) n (⟨storage.ctxInit size mem', [], 0⟩, rng))
  randomEnd : AgreeUnless NoMemory (fun r r' => SameFreed t r.1.toWorld r'.1 ∧ r.2 = r'.2)
    (randomPass t freelist size n rng (freelist.ctxInit size mem))
    (randomPass t storage size n rng (storage.ctxInit size mem'))

/-- **Identical results.** Whatever the system's allocators answer, the free
list and `mulle_storage` go through each workload with the same nodes, by number,
at the same places of their arrays, with the same serials and the same random
numbers, turn for turn; and at the end of a pass they have obtained as many
nodes and freed the same ones in the same order. A pass that stops, on either
side, has run out of memory: no check fails, and nothing is undefined. -/
theorem passes_identical {heap : Nat → ListWorld → Option Pool.Reserved}
    {heap' : Nat → Pool.World → Option Pool.Reserved} (hsize : BenchSize t size)
    (hheap : HeapOk t size ListWorld.allocated (fun s => s.mem) heap)
    (hheap' : HeapOk t size (fun s => s.structs.elements) Pool.World.mem heap')
    (n : Nat) (rng : UInt32) (mem mem' : Mem) :
    Identical t size (freelistOps t heap) (storageOps t heap') n rng mem mem' := by
  have L := freelistLawful hsize hheap
  have L' := storageLawful hsize hheap'
  have hgrowth := Same.growth hsize hheap hheap' n mem mem'
  have hlifo := Same.lifoTurns hsize hheap hheap' n mem mem'
  have hrandom := Same.randomTurns hsize hheap hheap' n rng mem mem'
  -- each side stops for want of memory only
  have hlifoStop := L.lifoPass (n := n) hsize mem
  have hlifoStop' := L'.lifoPass (n := n) hsize mem'
  have hrandomStop := L.randomPass (n := n) hsize rng mem
  have hrandomStop' := L'.randomPass (n := n) hsize rng mem'
  exact {
    growth := hgrowth.and_ensures (L.growth hsize mem) (L'.growth hsize mem')
    lifo := by
      have hnodes := hlifo.mono fun _ _ h => h.nodes
      exact hnodes.and_ensures hlifoStop.of_bind hlifoStop'.of_bind
    lifoEnd := by
      refine Agree.and_ensures (hlifo.bind ?_) hlifoStop hlifoStop'
      exact fun _ _ h => h.drain_finish hsize
    random := by
      have hnodes := hrandom.mono fun _ _ h => And.intro h.1.nodes h.2
      exact hnodes.and_ensures hrandomStop.of_bind hrandomStop'.of_bind
    randomEnd := by
      refine Agree.and_ensures (hrandom.bind ?_) hrandomStop hrandomStop'
      intro x x' hx
      obtain ⟨h, hrng⟩ := hx
      exact (h.drain_finish hsize).map fun _ _ hfreed => ⟨hfreed, hrng⟩ }

/-- 100 turns from the benchmark's own seed, on memory that differs. -/
theorem passes_identical_bump :
    Identical (x64 true) 32
      (freelistOps (x64 true) (bumpHeap ListWorld.allocated fun s => s.mem))
      (storageOps (x64 true) (bumpHeap (fun s => s.structs.elements) Pool.World.mem)) 100
      0x1234ABCD (fun _ => 0) fun _ => 0xFF :=
  passes_identical benchSize_x64 (bumpHeap_ok _ _ (by decide)) (bumpHeap_ok _ _ (by decide)) _ _ _ _

end MulleStorage.Bench
