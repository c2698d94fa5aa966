import MulleStorage.Lib.Nodes
import MulleStorage.Lib.Recycler
import MulleStorage.Lib.Run
import MulleStorage.Storage.Source

/-!
# `mulle_indexedstorage` is a map from indices to nodes

The items shared out are now the indices below the array's count, and `_freed`
holds each freed one as `index + 1`, so that no entry is `NULL`. As long as the
count leaves `index + 1` inside an `unsigned int` (`Below`), nothing is lost on
the way in or out of that encoding.

An array that grows may move. What a client sees is the bytes behind `get`, and
those are the same before and after (`Taken.keeps`).

> `indexed_refines`: after every run the bookkeeping is right, and the bytes
> behind every live index are what its client left there.
-/

namespace MulleStorage.Indexed

open MulleStorage.Lib MulleStorage.Arena

/-- One call on the storage, or a client storing through `get( index)`. -/
inductive Op
  | alloc
  | free (index : Nat)
  | write (index off : Nat) (bytes : List UInt8)
  deriving DecidableEq

/-- A call together with the answer of `mulle_structarray_reserve`. -/
structure Call where
  op : Op
  env : Option Grown

/-- Run the code of a call: the index it returns, if it returns one, and the
world it leaves. -/
def exec (t : Target) (env : Option Grown) (op : Op) (s : World) : Option (Option Nat × World) :=
  match op with
  | .alloc => (alloc t env s).map fun r => (some r.1, r.2)
  | .free index => some (none, free t index s)
  | .write index off bytes =>
    some (none, { s with
      mem := blit s.mem (get index s + off) bytes.length fun i => bytes.getD i 0 })

/-- The bytes behind `_mulle_indexedstorage_get( alloc, index)`. -/
def World.bytes (s : World) (index : Nat) : List UInt8 := bytesAt s.mem (get index s) s.size

/-- An indexed storage and the log of its nodes. -/
structure Sys where
  world : World
  log : List (Label Nat)

namespace Sys

/-- The indices clients hold. -/
def live (σ : Sys) : List Nat := liveNodes σ.log

/-- What is behind a live index; `none` for everything else. -/
def contents (σ : Sys) (index : Nat) : Option (List UInt8) :=
  if index ∈ σ.live then some (σ.world.bytes index) else none

/-- The log after a call. -/
def record (σ : Sys) (op : Op) : Option Nat × World → Sys
  | (some index, s) => ⟨s, .took index (s.bytes index) :: σ.log⟩
  | (none, s) =>
    match op with
    | .free index => ⟨s, .gave index :: σ.log⟩
    | .write index off bytes => ⟨s, .wrote index off bytes :: σ.log⟩
    | .alloc => ⟨s, σ.log⟩

/-- One call. -/
def step (t : Target) (σ : Sys) (c : Call) : Option Sys :=
  (exec t c.env c.op σ.world).map (σ.record c.op)

/-- `_mulle_indexedstorage_init`; `mem` is whatever memory holds. -/
def start (elementSize : Nat) (mem : Mem) : Sys := ⟨init elementSize mem, []⟩

end Sys

/-! ## What a call relies on -/

/-- `mulle_structarray_reserve`: wherever the array lies now, the elements it
had hold what they held. -/
def ReserveOk (s : World) (r : Grown) : Prop :=
  ∀ index, index < s.structs.count → ∀ i, i < s.size →
    r.mem (r.base + index * s.size + i) = s.mem (get index s + i)

/-- The client's side of the contract. -/
def Proper (σ : Sys) (c : Call) : Prop :=
  match c.op with
  | .alloc => True
  | .free index => index ∈ σ.live
  | .write index off bytes => index ∈ σ.live ∧ off + bytes.length ≤ σ.world.size

/-- A call as its documentation allows it. -/
structure Legal (σ : Sys) (c : Call) : Prop where
  reserve : ∀ r ∈ c.env, ReserveOk σ.world r
  proper : Proper σ c

/-- An allocation is made while the array holds fewer than `UINT_MAX` elements. -/
def Below (t : Target) (σ : Sys) (c : Call) : Prop :=
  c.op = .alloc → σ.world.structs.count + 1 < 2 ^ t.uintBits

/-! ## The invariant -/

/-- What every call keeps. -/
structure Inv (t : Target) (σ : Sys) : Prop where
  shared : ∃ indices, σ.world.freed = indices.map (· + 1) ∧
    Shared (List.range σ.world.structs.count) indices σ.live
  limit : σ.world.structs.count < 2 ^ t.uintBits
  tracks : Tracks σ.world.bytes σ.log

variable {t : Target} {σ σ' : Sys} {index : Nat} {s s' : World}

theorem Inv.start (t : Target) (elementSize : Nat) (mem : Mem) :
    Inv t (Sys.start elementSize mem) where
  shared := ⟨[], rfl, .nil⟩
  limit := Nat.two_pow_pos _
  tracks := .nil

/-- A live index is inside the array. -/
theorem Inv.lt_count (h : Inv t σ) (hi : index ∈ σ.live) : index < σ.world.structs.count := by
  obtain ⟨indices, -, hshared⟩ := h.shared
  exact List.mem_range.mp (hshared.mem_of_live hi)

/-- Indices inside the array are encoded without loss. -/
theorem Inv.encode_eq (h : Inv t σ) (hi : index < σ.world.structs.count) :
    encode t index = index + 1 := by
  have := h.limit
  exact Nat.mod_eq_of_lt (by omega)

/-- The asserts of `free` and `get` hold of the live indices and no others. -/
theorem Inv.indexAsserts_iff (h : Inv t σ) : IndexAsserts t index σ.world ↔ index ∈ σ.live := by
  obtain ⟨indices, hfreed, hshared⟩ := h.shared
  have hiff := hshared.mem_iff (x := index)
  rw [List.mem_range] at hiff
  unfold IndexAsserts
  constructor
  · rintro ⟨hlt, hcode⟩
    refine (hiff.mp hlt).resolve_left fun hin => hcode ?_
    rw [h.encode_eq hlt, hfreed]
    exact List.mem_map_of_mem hin
  · intro hlive
    have hlt := h.lt_count hlive
    refine ⟨hlt, ?_⟩
    intro hcode
    rw [h.encode_eq hlt, hfreed] at hcode
    obtain ⟨j, hj, heq⟩ := List.mem_map.mp hcode
    exact hshared.not_live (Nat.succ.inj heq ▸ hj) hlive

/-- `_mulle_indexedstorage_get_count` counts the live indices. -/
theorem Inv.getCount_eq (h : Inv t σ) : getCount t σ.world = σ.live.length := by
  obtain ⟨indices, hfreed, hshared⟩ := h.shared
  have hlen := hshared.length_eq
  have hlimit := h.limit
  have hmod : 2 ^ t.uintBits ≤ t.modulus := Nat.pow_le_pow_right (by decide) t.uintBits_le
  rw [List.length_range] at hlen
  rw [getCount, hfreed, List.length_map, Target.sub_eq (by omega) (by omega)]
  omega

/-! ## Elements of the array -/

/-- Two elements share no byte. -/
theorem structarrayGet_disjoint (array : Structarray) {i j : Nat} (h : i ≠ j) :
    Region.Disjoint ⟨structarrayGet array i, array.elementSize⟩
      ⟨structarrayGet array j, array.elementSize⟩ := by
  unfold Region.Disjoint structarrayGet
  dsimp only
  rcases Nat.lt_or_gt_of_ne h with hlt | hgt
  · have := Nat.mul_le_mul_right array.elementSize (show i + 1 ≤ j from hlt)
    rw [Nat.succ_mul] at this
    omega
  · have := Nat.mul_le_mul_right array.elementSize (show j + 1 ≤ i from hgt)
    rw [Nat.succ_mul] at this
    omega

/-- A change to one element leaves the bytes of the others alone. -/
theorem World.bytes_eq (hstructs : s'.structs = s.structs) {i j : Nat} (h : i ≠ j)
    (hm : ∀ a, ¬ Region.Has ⟨get j s, s.size⟩ a → s'.mem a = s.mem a) : s'.bytes i = s.bytes i := by
  have hget : get i s' = get i s := by unfold get; rw [hstructs]
  have hsize : s'.size = s.size := by unfold World.size; rw [hstructs]
  unfold World.bytes
  rw [hget, hsize]
  refine bytesAt_congr fun k hk => hm _ ?_
  exact (structarrayGet_disjoint s.structs h).not_has
    ⟨Nat.le_add_right _ _, Nat.add_lt_add_left hk _⟩

/-! ## Allocation -/

/-- What `_mulle_indexedstorage_alloc` does: `index` was not live, and is now;
the bytes behind the indices there were are as they were. -/
structure Taken (t : Target) (σ : Sys) (index : Nat) (s' : World) : Prop where
  fresh : index ∉ σ.live
  lt_count : index < s'.structs.count
  shared : ∃ indices, s'.freed = indices.map (· + 1) ∧
    Shared (List.range s'.structs.count) indices (index :: σ.live)
  limit : s'.structs.count < 2 ^ t.uintBits
  keeps : ∀ i, i < σ.world.structs.count → s'.bytes i = σ.world.bytes i

/-- Nothing to recycle: the array grows, -/
theorem alloc_reserve (t : Target) (env : Option Grown) (hfreed : s.freed = []) :
    alloc t env s = (structarrayReserve env s).map fun s' =>
      (s.structs.count % 2 ^ t.uintBits, s') := by
  obtain ⟨⟨structs, freed⟩, mem⟩ := s
  cases hfreed
  rfl

/-- and otherwise the entry added last goes back to its index. -/
theorem alloc_recycle {front : List Nat} {env : Option Grown}
    (hfreed : s.freed = front ++ [index + 1]) (hi : index + 1 < 2 ^ t.uintBits) :
    alloc t env s = some (index, { s with freed := front }) := by
  have hmod : 2 ^ t.uintBits ≤ t.modulus := Nat.pow_le_pow_right (by decide) t.uintBits_le
  have hsub : t.sub (index + 1) 1 = index := Target.sub_eq (by omega) (by omega)
  have hcut : index % 2 ^ t.uintBits = index := Nat.mod_eq_of_lt (by omega)
  simp only [alloc, hfreed, pointerarrayPop_append, ne_eq, Nat.add_one_ne_zero, not_false_eq_true,
    if_true, hsub, hcut]

theorem alloc_taken {env : Option Grown} (hinv : Inv t σ)
    (hres : ∀ r ∈ env, ReserveOk σ.world r) (hbelow : σ.world.structs.count + 1 < 2 ^ t.uintBits)
    (h : alloc t env σ.world = some (index, s')) : Taken t σ index s' := by
  obtain ⟨indices, hfreed, hshared⟩ := hinv.shared
  rcases List.eq_nil_or_concat indices with rfl | ⟨front, x, rfl⟩
  · rw [alloc_reserve t env hfreed, Nat.mod_eq_of_lt (by omega)] at h
    obtain ⟨s, hs, heq⟩ := Option.map_eq_some_iff.mp h
    obtain ⟨r, hr, rfl⟩ := Option.map_eq_some_iff.mp hs
    obtain ⟨rfl, rfl⟩ := Prod.mk.inj heq
    have hnew : σ.world.structs.count ∉ List.range σ.world.structs.count := by simp
    exact {
      fresh := fun hlive => hnew (hshared.mem_of_live hlive)
      lt_count := Nat.lt_succ_self _
      shared := ⟨[], hfreed, by
        show Shared (List.range (σ.world.structs.count + 1)) _ _
        rw [List.range_succ]
        exact hshared.reserve hnew⟩
      limit := hbelow
      keeps := fun i hi => bytesAt_congr fun k hk => hres r hr i hi k hk }
  · rw [List.concat_eq_append] at hfreed hshared
    rw [List.map_append, List.map_singleton] at hfreed
    have hx : x < σ.world.structs.count :=
      List.mem_range.mp (hshared.mem_iff.mpr (Or.inl (by simp)))
    rw [alloc_recycle hfreed (by omega)] at h
    obtain ⟨rfl, rfl⟩ := Prod.mk.inj (Option.some.inj h)
    exact {
      fresh := hshared.not_live (by simp)
      lt_count := hx
      shared := ⟨front, rfl, hshared.recycle⟩
      limit := hinv.limit
      keeps := fun _ _ => rfl }

/-! ## Release -/

@[simp] theorem free_structs (t : Target) (index : Nat) (s : World) :
    (free t index s).structs = s.structs := by
  unfold free
  split <;> rfl

@[simp] theorem free_freed (t : Target) (index : Nat) (s : World) :
    (free t index s).freed = s.freed ++ [encode t index] := by
  unfold free
  split <;> rfl

/-- Only the node behind the index is poisoned. -/
theorem free_outside {a : Nat} (ha : ¬ Region.Has ⟨get index s, s.size⟩ a) :
    (free t index s).mem a = s.mem a := by
  unfold free
  split
  · exact blit_not_has ha
  · rfl

/-! ## What a call does -/

/-- The three things a call can be. -/
inductive Effect (t : Target) (c : Call) (σ : Sys) : Option Nat → Sys → Prop
  | took {index : Nat} {s : World} : c.op = .alloc → alloc t c.env σ.world = some (index, s) →
      Effect t c σ (some index) ⟨s, .took index (s.bytes index) :: σ.log⟩
  | gave {index : Nat} : c.op = .free index →
      Effect t c σ none ⟨free t index σ.world, .gave index :: σ.log⟩
  | wrote {index off : Nat} {bytes : List UInt8} {s : World} : c.op = .write index off bytes →
      s = { σ.world with
        mem := blit σ.world.mem (get index σ.world + off) bytes.length fun i => bytes.getD i 0 } →
      Effect t c σ none ⟨s, .wrote index off bytes :: σ.log⟩

theorem exec_effect {c : Call} {r : Option Nat} (h : exec t c.env c.op σ.world = some (r, s')) :
    Effect t c σ r (σ.record c.op (r, s')) := by
  obtain ⟨op, env⟩ := c
  cases op with
  | alloc =>
    obtain ⟨⟨index, s⟩, halloc, heq⟩ := Option.map_eq_some_iff.mp h
    cases heq
    exact .took rfl halloc
  | free index =>
    cases h
    exact .gave rfl
  | write index off bytes =>
    cases h
    exact .wrote rfl rfl

theorem step_effect {c : Call} (h : Sys.step t σ c = some σ') : ∃ r, Effect t c σ r σ' := by
  obtain ⟨⟨r, s⟩, hexec, rfl⟩ := Option.map_eq_some_iff.mp h
  exact ⟨r, exec_effect hexec⟩

/-- **Step lemma.** Every legal call below the limit keeps the invariant. -/
theorem Effect.inv {c : Call} {r : Option Nat} (heff : Effect t c σ r σ') (hinv : Inv t σ)
    (hlegal : Legal σ c) (hbelow : Below t σ c) : Inv t σ' := by
  obtain ⟨op, env⟩ := c
  cases heff with
  | took hop halloc =>
    have htaken := alloc_taken hinv hlegal.reserve (hbelow hop) halloc
    refine ⟨htaken.shared, htaken.limit, ?_⟩
    exact hinv.tracks.took htaken.fresh fun i hi => htaken.keeps i (hinv.lt_count hi)
  | @gave index hop =>
    cases hop
    have hlive : index ∈ σ.live := hlegal.proper
    obtain ⟨indices, hfreed, hshared⟩ := hinv.shared
    refine ⟨⟨indices ++ [index], ?_, ?_⟩, ?_, ?_⟩
    · simp [hfreed, hinv.encode_eq (hinv.lt_count hlive)]
    · show Shared (List.range (free t index σ.world).structs.count) _ (σ.live.erase index)
      simpa using hshared.release hlive
    · simpa using hinv.limit
    · refine hinv.tracks.gave hlive ?_
      intro i _ hne
      exact World.bytes_eq (free_structs t index σ.world) hne fun a ha => free_outside ha
  | @wrote index off bytes s hop hs =>
    cases hop
    obtain ⟨hlive, hfit⟩ := hlegal.proper
    have hstructs : s.structs = σ.world.structs := by rw [hs]
    refine ⟨?_, by rw [hstructs]; exact hinv.limit, ?_⟩
    · subst hs
      exact hinv.shared
    refine hinv.tracks.wrote hlive ?_ fun i _ hne => World.bytes_eq hstructs hne ?_
    · subst hs
      exact bytesAt_blit_overwrite hfit
    · intro a ha
      subst hs
      dsimp only
      refine blit_outside ?_
      simp only [Region.Has] at ha
      omega

/-! ## Runs -/

variable {elementSize : Nat} {mem : Mem} {l : List Call}

theorem reach_inv
    (h : Reach (Sys.step t) (fun σ c => Legal σ c ∧ Below t σ c) (Sys.start elementSize mem) l σ) :
    Inv t σ :=
  h.inv (Inv.start t elementSize mem) fun hinv hc hs =>
    let ⟨_, heff⟩ := step_effect hs
    heff.inv hinv hc.1 hc.2

/-- **A map from indices to nodes.** After every run below the limit, `_freed`
holds `index + 1` for indices that share out the array with the live ones,
`_mulle_indexedstorage_get_count` counts these, an index was handed out once
more often than it was freed if it is live and as often if not, and the bytes
behind a live index are those it was handed out with and what its client stored
since, wherever the array lies. A further allocation returns an index of the
array that is not live. -/
theorem indexed_refines
    (h : Reach (Sys.step t) (fun σ c => Legal σ c ∧ Below t σ c) (Sys.start elementSize mem) l σ) :
    (∃ indices, σ.world.freed = indices.map (· + 1) ∧ indices.Nodup ∧
      Shared (List.range σ.world.structs.count) indices σ.live) ∧
    getCount t σ.world = σ.live.length ∧
    (∀ i, timesTaken i σ.log = timesGiven i σ.log + if i ∈ σ.live then 1 else 0) ∧
    Lawful σ.log ∧ σ.contents = replay σ.log ∧
    ∀ c index s, Legal σ c → Below t σ c → exec t c.env c.op σ.world = some (some index, s) →
      index ∉ σ.live ∧ index < s.structs.count := by
  have hinv := reach_inv h
  obtain ⟨indices, hfreed, hshared⟩ := hinv.shared
  refine ⟨⟨indices, hfreed, hshared.freed_nodup, hshared⟩, hinv.getCount_eq,
    timesTaken_eq hinv.tracks.lawful, hinv.tracks.lawful, ?_, ?_⟩
  · funext i
    exact (hinv.tracks.replay_eq i).symm
  · rintro ⟨op, env⟩ index s hlegal hbelow hexec
    cases exec_effect (c := ⟨op, env⟩) hexec with
    | took hop halloc =>
      have htaken := alloc_taken hinv hlegal.reserve (hbelow hop) halloc
      exact ⟨htaken.fresh, htaken.lt_count⟩

/-! ## A run, computed -/

instance (s : World) (r : Grown) : Decidable (ReserveOk s r) :=
  inferInstanceAs (Decidable (∀ index, index < s.structs.count → ∀ i, i < s.size → _))

instance (σ : Sys) : (c : Call) → Decidable (Proper σ c)
  | ⟨.alloc, _⟩ => isTrue trivial
  | ⟨.free index, _⟩ => inferInstanceAs (Decidable (index ∈ σ.live))
  | ⟨.write .., _⟩ => inferInstanceAs (Decidable (_ ∧ _))

instance (σ : Sys) (c : Call) : Decidable (Legal σ c) :=
  decidable_of_iff ((∀ r ∈ c.env, ReserveOk σ.world r) ∧ Proper σ c)
    ⟨fun ⟨h₁, h₂⟩ => ⟨h₁, h₂⟩, fun h => ⟨h.reserve, h.proper⟩⟩

instance (σ : Sys) (c : Call) : Decidable (Below t σ c) := inferInstanceAs (Decidable (_ → _))

/-- Index 0 written, the array moved, index 0 freed and handed out again. -/
def indexedCalls : List Call :=
  [⟨.alloc, some ⟨0x1000, fun _ => 7⟩⟩, ⟨.write 0 1 [2, 3], none⟩,
    ⟨.alloc, some ⟨0x2000, fun a => if a = 0x2001 then 2 else if a = 0x2002 then 3 else 7⟩⟩,
    ⟨.free 0, none⟩, ⟨.alloc, none⟩]

theorem indexed_refines_moved :
    let σ := runEnd (Sys.step (x64 true)) (Sys.start 4 fun _ => 0) indexedCalls
    (∃ indices, σ.world.freed = indices.map (· + 1) ∧ indices.Nodup ∧
      Shared (List.range σ.world.structs.count) indices σ.live) ∧
    getCount (x64 true) σ.world = σ.live.length ∧
    (∀ i, timesTaken i σ.log = timesGiven i σ.log + if i ∈ σ.live then 1 else 0) ∧
    Lawful σ.log ∧ σ.contents = replay σ.log ∧
    ∀ c index s, Legal σ c → Below (x64 true) σ c →
      exec (x64 true) c.env c.op σ.world = some (some index, s) →
      index ∉ σ.live ∧ index < s.structs.count :=
  indexed_refines (Reach.of_runEnd (by decide +kernel))

end MulleStorage.Indexed
