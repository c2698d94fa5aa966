import MulleStorage.Storage.Freelist

/-!
# `mulle_storage` and the embedded free list in lockstep

The benchmark takes `mulle_storage` and the naive free list for two allocators
that do the same work, and compares their speed. That they do the same work is a
fact about both: each is a `Stock` to its client, who knows nodes by the order
in which they came. `mulle_storage` keeps the stack of freed nodes in `_freed`
(`Pool.serve_stock`), the free list in the nodes (`Freelist.serve_stock`).

`Both` puts them side by side. Requests go to both at once, by number; stores of
clients go to either, whenever and whatever they like, as long as the node is
live. Each request leaves on either side what it showed.

> `storage_freelist_lockstep`: both show the same, and what they show is what a
> stack of numbers shows.
-/

namespace MulleStorage

open MulleStorage.Lib MulleStorage.Arena

variable {t : Target} {st : Stock} {k : Nat}

/-! ## `mulle_storage` as a stock -/

namespace Pool

/-- The call that a request by number is. -/
def Sys.opOf (σ : Sys) : Ask → Op
  | .take => .malloc
  | .give k => .free (σ.world.structs.elements.getD k 0)

/-- A request by number, and what it shows. -/
def Sys.serve (t : Target) (env : Option Reserved) (σ : Sys) (a : Ask) : Option (Shown × Sys) :=
  (exec t env (σ.opOf a) σ.world).map fun (r, s) =>
    (⟨r.map fun p => s.structs.elements.idxOf p, s.structs.elements.length, getCount t s⟩,
      σ.record (σ.opOf a) (r, s))

/-- The node `k` is live. -/
def Sys.Live (σ : Sys) (k : Nat) : Prop := ∃ p ∈ σ.live, σ.world.structs.elements[k]? = some p

/-- Only live nodes are given back. -/
def Sys.Admits (σ : Sys) : Ask → Prop
  | .take => True
  | .give k => σ.Live k

/-- `_freed` is the stack of a stock. -/
def Stocked (σ : Sys) (st : Stock) : Prop :=
  Numbered σ.world.structs.elements σ.world.freed.reverse st

variable {σ σ' : Sys} {env : Option Reserved}

/-- The same nodes are live on either view. -/
theorem Sys.Live.holds (h : σ.Live k) (hinv : Inv t σ) (hstock : Stocked σ st) : st.Holds k := by
  obtain ⟨p, hlive, hp⟩ := h
  refine ⟨hstock.count ▸ (List.getElem?_eq_some_iff.mp hp).1, ?_⟩
  intro hfreed
  have hmem : p ∈ σ.world.freed := List.mem_reverse.mp (hstock.mem_of_freed hfreed hp)
  exact hinv.shared.not_live hmem hlive

/-- What a request shows, once the number is known. -/
theorem Inv.shown_eq {a : Ask} (hinv : Inv t σ') (hstock : Stocked σ' (st.serve a).2) :
    (⟨(st.serve a).1, σ'.world.structs.elements.length, getCount t σ'.world⟩ : Shown)
      = st.shown a := by
  have hlen := hinv.shared.length_eq
  have hlive := hstock.live_eq
  rw [List.length_reverse] at hlive
  have hcount : getCount t σ'.world = (st.serve a).2.live := by
    rw [hinv.getCount_eq]
    omega
  exact (hstock.shown_eq hcount).symm

/-- `_mulle_storage_malloc` is a `take`. -/
theorem malloc_stocked (hinv : Inv t σ) (hstock : Stocked σ st)
    (hres : ∀ r ∈ env, ReserveOk t σ.world r) {p : Nat} {s : World}
    (h : malloc env σ.world = some (p, s)) :
    (st.serve .take).1 = some (s.structs.elements.idxOf p) ∧
    Numbered s.structs.elements s.freed.reverse (st.serve .take).2 := by
  unfold Stocked at hstock
  rcases List.eq_nil_or_concat σ.world.freed with hnil | ⟨front, x, hcons⟩
  · rw [malloc_reserve hnil] at h
    obtain ⟨r, hr, heq⟩ := Option.map_eq_some_iff.mp h
    obtain ⟨rfl, rfl⟩ := Prod.mk.inj heq
    rw [hnil] at hstock
    obtain ⟨hnumber, hstock'⟩ := hstock.take_new (hres r hr).fresh
    refine ⟨hnumber, ?_⟩
    show Numbered _ σ.world.freed.reverse _
    rw [hnil]
    exact hstock'
  · rw [List.concat_eq_append] at hcons
    have hmem : x ∈ σ.world.structs.elements := hinv.shared.mem_iff.mpr (Or.inl (by simp [hcons]))
    rw [malloc_recycle hcons (Nat.ne_of_gt (hinv.elements.nonnull x hmem))] at h
    obtain ⟨rfl, rfl⟩ := Prod.mk.inj (Option.some.inj h)
    rw [hcons, List.reverse_append, List.reverse_singleton] at hstock
    exact hstock.take_again

/-- **Step.** Every request is one to the stock. -/
theorem serve_stock {a : Ask} (hinv : Inv t σ) (hstock : Stocked σ st)
    (hres : ∀ r ∈ env, ReserveOk t σ.world r) (ha : σ.Admits a) {o : Shown}
    (hs : σ.serve t env a = some (o, σ')) :
    o = st.shown a ∧ Inv t σ' ∧ Stocked σ' (st.serve a).2 := by
  obtain ⟨⟨r, s⟩, hexec, heq⟩ := Option.map_eq_some_iff.mp hs
  obtain ⟨rfl, rfl⟩ := Prod.mk.inj heq
  have heff := exec_effect (c := ⟨σ.opOf a, env⟩) hexec
  cases a with
  | take =>
    have hinv' := heff.inv hinv ⟨hres, trivial⟩
    obtain ⟨⟨p, s⟩, hm, heq'⟩ := Option.map_eq_some_iff.mp hexec
    cases heq'
    obtain ⟨hnumber, hstock'⟩ := malloc_stocked hinv hstock hres hm
    refine ⟨?_, hinv', hstock'⟩
    rw [← hinv'.shown_eq hstock', hnumber]
    rfl
  | give k =>
    obtain ⟨p, hlive, hp⟩ := ha
    have hget : σ.world.structs.elements.getD k 0 = p :=
      getD_of_getElem? hp
    have hproper : σ.world.structs.elements.getD k 0 ∈ σ.live := hget ▸ hlive
    have hinv' := heff.inv hinv ⟨hres, hproper⟩
    cases hexec
    have hstock' : Stocked (σ.record (σ.opOf (.give k))
        (none, free t (σ.world.structs.elements.getD k 0) σ.world)) (st.serve (.give k)).2 := by
      show Numbered (free t _ σ.world).structs.elements (free t _ σ.world).freed.reverse _
      rw [free_structs, free_freed, hget, List.reverse_append, List.reverse_singleton]
      exact hstock.give (Sys.Live.holds ⟨p, hlive, hp⟩ hinv hstock) hp
    refine ⟨?_, hinv', hstock'⟩
    rw [← hinv'.shown_eq hstock']
    rfl

end Pool

/-! ## Side by side -/

/-- A storage and a free list, and what each has shown so far. -/
structure Both where
  storage : Pool.Sys
  freelist : Freelist.World
  storageShown : List Shown
  freelistShown : List Shown

namespace Both

/-- A request to both, or a client's store into the node `k` of one of them. -/
inductive Op
  | ask (a : Ask)
  | writeStorage (k off : Nat) (bytes : List UInt8)
  | writeFreelist (k off : Nat) (bytes : List UInt8)
  deriving DecidableEq

/-- An operation together with the answers of `mulle_structqueue_reserve` and
`malloc`, and the serial for `node_init`. -/
structure Call where
  op : Op
  reserve : Option Pool.Reserved
  malloc : Option Pool.Reserved
  serial : Nat

/-- The request of a call, if it is one. -/
def Call.ask (c : Call) : Option Ask :=
  match c.op with
  | .ask a => some a
  | _ => none

theorem Call.op_of_ask {c : Call} {a : Ask} (h : c.ask = some a) : c.op = .ask a := by
  unfold Call.ask at h
  split at h
  next hop =>
    cases h
    exact hop
  next => cases h

/-- Nothing obtained on either side; `mem` and `mem'` are whatever memory holds. -/
def start (size : Nat) (mem mem' : Mem) : Both :=
  ⟨Pool.Sys.start size mem, Freelist.ctxInit mem', [], []⟩

/-- One call. -/
def step (t : Target) (init : Nat → Nat → Mem → Mem) (b : Both) (c : Call) : Option Both :=
  match c.op with
  | .ask a =>
    (b.storage.serve t c.reserve a).bind fun (o, σ) =>
      (Freelist.serve t init c.malloc c.serial b.freelist a).map fun (o', s) =>
        ⟨σ, s, b.storageShown ++ [o], b.freelistShown ++ [o']⟩
  | .writeStorage k off bytes =>
    (b.storage.step t ⟨.write (b.storage.world.structs.elements.getD k 0) off bytes, none⟩).map
      fun σ => { b with storage := σ }
  | .writeFreelist k off bytes =>
    some { b with freelist := b.freelist.write (b.freelist.blocks.getD k 0) off bytes }

/-- The clients' side of the contract. -/
def Proper (size : Nat) (b : Both) (c : Call) : Prop :=
  match c.op with
  | .ask a => b.storage.Admits a
  | .writeStorage k off bytes =>
    b.storage.Live k ∧ off + bytes.length ≤ b.storage.world.size
  | .writeFreelist k off bytes => b.storage.Live k ∧ off + bytes.length ≤ size

/-- A call as the documentation of both sides allows it. -/
structure Legal (t : Target) (size : Nat) (b : Both) (c : Call) : Prop where
  reserve : ∀ r ∈ c.reserve, Pool.ReserveOk t b.storage.world r
  malloc : ∀ r ∈ c.malloc, Freelist.MallocOk t size b.freelist r
  proper : Proper size b c

/-- Both sides are the stock that `x` says, and have shown what it did. -/
structure Locked (t : Target) (size : Nat) (b : Both) (x : Stock × List Shown) : Prop where
  storage : Pool.Inv t b.storage
  stocked : Pool.Stocked b.storage x.1
  freelist : Freelist.Inv t size b.freelist x.1
  storageShown : b.storageShown = x.2
  freelistShown : b.freelistShown = x.2

variable {size : Nat} {init : Nat → Nat → Mem → Mem} {b b' : Both} {x : Stock × List Shown}

theorem Locked.start (t : Target) (size : Nat) (mem mem' : Mem) :
    Locked t size (start size mem mem') (Stock.after []) where
  storage := .start t size mem
  stocked := .empty
  freelist := .start t size mem'
  storageShown := rfl
  freelistShown := rfl

/-- **Step.** A request takes both sides to the next stock. -/
theorem Locked.ask {c : Call} {a : Ask} (h : Locked t size b x) (hsize : t.sizeofSizeT ≤ size)
    (hinit : Freelist.InitOk size init) (hlegal : Legal t size b c) (hop : c.op = .ask a)
    (hs : b.step t init c = some b') :
    Locked t size b' ((x.1.serve a).2, x.2 ++ [x.1.shown a]) := by
  have hproper := hlegal.proper
  unfold Proper at hproper
  unfold step at hs
  rw [hop] at hproper hs
  obtain ⟨⟨o, σ⟩, hstorage, hrest⟩ := Option.bind_eq_some_iff.mp hs
  obtain ⟨⟨o', s⟩, hfreelist, heq⟩ := Option.map_eq_some_iff.mp hrest
  cases heq
  obtain ⟨rfl, hinv', hstock'⟩ :=
    Pool.serve_stock h.storage h.stocked hlegal.reserve hproper hstorage
  -- what is live in the storage is live in the free list
  have hadmits : x.1.Admits a := by
    cases a with
    | take => trivial
    | give k => exact hproper.holds h.storage h.stocked
  obtain ⟨rfl, hlist'⟩ :=
    Freelist.serve_stock h.freelist hsize hinit hlegal.malloc hadmits hfreelist
  exact {
    storage := hinv'
    stocked := hstock'
    freelist := hlist'
    storageShown := congrArg (· ++ _) h.storageShown
    freelistShown := congrArg (· ++ _) h.freelistShown }

/-- **Step.** A store leaves both where they are. -/
theorem Locked.write {c : Call} (h : Locked t size b x) (hsize : t.sizeofSizeT ≤ size)
    (hlegal : Legal t size b c) (hop : c.ask = none) (hs : b.step t init c = some b') :
    Locked t size b' x := by
  have hproper := hlegal.proper
  unfold Proper at hproper
  unfold step at hs
  cases hc : c.op with
  | ask a =>
    unfold Call.ask at hop
    rw [hc] at hop
    cases hop
  | writeStorage k off bytes =>
    rw [hc] at hproper hs
    obtain ⟨⟨p, hlive, hp⟩, hfit⟩ := hproper
    have hget : b.storage.world.structs.elements.getD k 0 = p :=
      getD_of_getElem? hp
    obtain ⟨σ, hstep, rfl⟩ := Option.map_eq_some_iff.mp hs
    rw [hget] at hstep
    obtain ⟨r, heff⟩ := Pool.step_effect hstep
    have hinv' := heff.inv h.storage ⟨nofun, hlive, hfit⟩
    refine { h with storage := hinv', stocked := ?_ }
    cases heff with
    | took halloc => exact halloc.elim
    | gave hgive => cases hgive
    | wrote _ hworld =>
      subst hworld
      exact h.stocked
  | writeFreelist k off bytes =>
    rw [hc] at hproper hs
    obtain rfl := Option.some.inj hs
    have hholds := hproper.1.holds h.storage h.stocked
    exact { h with freelist := h.freelist.write hsize hholds hproper.2 }

/-- The requests of a run. -/
def asks (l : List Call) : List Ask := l.filterMap Call.ask

/-- **Lockstep.** After every run of requests and stores of clients, to nodes of
at least pointer size, `mulle_storage` and the free list have shown the same for
each request: the number handed out, how many nodes were obtained, and how many
are live. It is what a stack of numbers shows for these requests. -/
theorem storage_freelist_lockstep {mem mem' : Mem} {l : List Call}
    (hsize : t.sizeofSizeT ≤ size) (hinit : Freelist.InitOk size init)
    (h : Reach (Both.step t init) (Legal t size) (start size mem mem') l b) :
    b.storageShown = b.freelistShown ∧ b.storageShown = (Stock.after (asks l)).2 := by
  have hlocked : Locked t size b (Stock.after (asks l)) := by
    induction h with
    | nil => exact .start t size mem mem'
    | @snoc l b b' c _ hlegal hs ih =>
      rw [asks, List.filterMap_append]
      cases ha : c.ask with
      | none =>
        rw [List.filterMap_cons_none ha, List.filterMap_nil, List.append_nil]
        exact ih.write hsize hlegal ha hs
      | some a =>
        rw [List.filterMap_cons_some ha, List.filterMap_nil, Stock.after_snoc]
        exact ih.ask hsize hinit hlegal (Call.op_of_ask ha) hs
  exact ⟨hlocked.storageShown.trans hlocked.freelistShown.symm, hlocked.storageShown⟩

/-! ## A run, computed -/

instance (s : Freelist.World) (r : Pool.Reserved) : Decidable (Freelist.MallocOk t size s r) :=
  inferInstanceAs (Decidable (Pool.ReserveOk _ _ _))

instance (σ : Pool.Sys) (k : Nat) : Decidable (σ.Live k) :=
  inferInstanceAs (Decidable (∃ p ∈ σ.live, _))

instance (σ : Pool.Sys) : (a : Ask) → Decidable (σ.Admits a)
  | .take => isTrue trivial
  | .give k => inferInstanceAs (Decidable (σ.Live k))

instance (b : Both) : (c : Call) → Decidable (Proper size b c)
  | ⟨.ask a, _, _, _⟩ => inferInstanceAs (Decidable (b.storage.Admits a))
  | ⟨.writeStorage .., _, _, _⟩ | ⟨.writeFreelist .., _, _, _⟩ =>
    inferInstanceAs (Decidable (_ ∧ _))

instance (b : Both) (c : Call) : Decidable (Legal t size b c) :=
  decidable_of_iff ((∀ r ∈ c.reserve, Pool.ReserveOk t b.storage.world r) ∧
      (∀ r ∈ c.malloc, Freelist.MallocOk t size b.freelist r) ∧ Proper size b c)
    ⟨fun ⟨h₁, h₂, h₃⟩ => ⟨h₁, h₂, h₃⟩, fun h => ⟨h.reserve, h.malloc, h.proper⟩⟩

/-- Two nodes are taken, the link word of one is written to, both are given back
and taken again. -/
def lockstepCalls : List Call :=
  [⟨.ask .take, some ⟨0x1000, fun _ => 0⟩, some ⟨0x1000, fun _ => 0⟩, 0⟩,
    ⟨.ask .take, some ⟨0x2000, fun _ => 0⟩,
      some ⟨0x3000, Freelist.nodeInit (x64 true) 32 0 0x1000 fun _ => 0⟩, 1⟩,
    ⟨.writeFreelist 0 0 [1, 2, 3, 4, 5, 6, 7, 8], none, none, 0⟩, ⟨.ask (.give 0), none, none, 0⟩,
    ⟨.ask (.give 1), none, none, 0⟩, ⟨.ask .take, none, none, 2⟩,
    ⟨.writeStorage 1 24 [1, 2, 3, 4, 5, 6, 7, 8], none, none, 0⟩, ⟨.ask .take, none, none, 3⟩]

theorem storage_freelist_lockstep_recycled :
    let b := runEnd (Both.step (x64 true) (Freelist.nodeInit (x64 true) 32))
      (start 32 (fun _ => 0) fun _ => 0) lockstepCalls
    b.storageShown = b.freelistShown ∧ b.storageShown = [⟨some 0, 1, 1⟩, ⟨some 1, 2, 2⟩,
      ⟨none, 2, 1⟩, ⟨none, 2, 0⟩, ⟨some 1, 2, 1⟩, ⟨some 0, 2, 2⟩] := by
  intro b
  have hinit : Freelist.InitOk 32 (Freelist.nodeInit (x64 true) 32) :=
    Freelist.nodeInit_ok (by decide) (by decide)
  have hrun : Reach (Both.step (x64 true) (Freelist.nodeInit (x64 true) 32))
      (Legal (x64 true) 32) (start 32 (fun _ => 0) fun _ => 0) lockstepCalls b :=
    Reach.of_runEnd (by decide +kernel)
  exact storage_freelist_lockstep (by decide) hinit hrun

end Both

end MulleStorage
