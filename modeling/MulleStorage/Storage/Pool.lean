import Mathlib.Data.List.Perm.Subperm
import MulleStorage.Lib.Nodes
import MulleStorage.Lib.Recycler
import MulleStorage.Lib.Run
import MulleStorage.Storage.Source

/-!
# `mulle_storage` is a node pool

`Sys` is a storage next to the log of what its clients did with its nodes; the
live nodes are those of the log. `Inv` is what every call keeps: the freed and
the live nodes share out the elements of `_structs`, whose memory never
overlaps, and memory tracks the log.

All three allocations are one `malloc` and a `fill` of the node it hands out, so
there is one lemma for what `malloc` does (`malloc_taken`), one for what a fill
leaves alone, and the rest is the bookkeeping of `Shared` and `Tracks`.

> `storage_pool`: after every run the bookkeeping is right, live nodes hold what
> their clients put there, and the next node handed out is a new one.
-/

namespace MulleStorage.Pool

open MulleStorage.Lib MulleStorage.Arena

/-- One call on the storage, or one store of a client. -/
inductive Op
  | malloc
  | calloc
  | copy (q : Nat)
  | free (p : Nat)
  | write (p off : Nat) (bytes : List UInt8)
  deriving DecidableEq

/-- A call together with the answer of `mulle_structqueue_reserve`. -/
structure Call where
  op : Op
  env : Option Reserved

/-- Run the code of a call: the node it returns, if it returns one, and the
world it leaves. -/
def exec (t : Target) (env : Option Reserved) (op : Op) (s : World) :
    Option (Option Nat × World) :=
  match op with
  | .malloc => (malloc env s).map fun r => (some r.1, r.2)
  | .calloc => (calloc env s).map fun r => (some r.1, r.2)
  | .copy q => (copy env q s).map fun r => (some r.1, r.2)
  | .free p => some (none, free t p s)
  | .write p off bytes =>
    some (none, { s with mem := blit s.mem (p + off) bytes.length fun i => bytes.getD i 0 })

/-- A storage and the log of its nodes. -/
structure Sys where
  world : World
  log : List (Label Nat)

namespace Sys

/-- The nodes clients hold. -/
def live (σ : Sys) : List Nat := liveNodes σ.log

/-- What a live node holds; `none` for everything else. -/
def contents (σ : Sys) (p : Nat) : Option (List UInt8) :=
  if p ∈ σ.live then some (bytesAt σ.world.mem p σ.world.size) else none

/-- The log after a call. -/
def record (σ : Sys) (op : Op) : Option Nat × World → Sys
  | (some p, s) => ⟨s, .took p (bytesAt s.mem p s.size) :: σ.log⟩
  | (none, s) =>
    match op with
    | .free p => ⟨s, .gave p :: σ.log⟩
    | .write p off bytes => ⟨s, .wrote p off bytes :: σ.log⟩
    | _ => ⟨s, σ.log⟩

/-- One call. -/
def step (t : Target) (σ : Sys) (c : Call) : Option Sys :=
  (exec t c.env c.op σ.world).map (σ.record c.op)

/-- `_mulle_storage_init`; `mem` is whatever memory holds. -/
def start (elementSize : Nat) (mem : Mem) : Sys := ⟨init elementSize mem, []⟩

end Sys

/-! ## What a call relies on -/

/-- `mulle_structqueue_reserve`: a new element, apart from the others, which
keep their place and their bytes. -/
structure ReserveOk (t : Target) (s : World) (r : Reserved) : Prop where
  nonnull : 0 < r.ptr
  lt_modulus : r.ptr < t.modulus
  fresh : r.ptr ∉ s.structs.elements
  apart : ∀ q ∈ s.structs.elements, Region.Disjoint ⟨q, s.size⟩ ⟨r.ptr, s.size⟩
  keeps : ∀ q ∈ s.structs.elements, ∀ i, i < s.size → r.mem (q + i) = s.mem (q + i)

/-- `q` is memory outside the storage: not part of an element, and left alone by
`mulle_structqueue_reserve`. -/
def Outside (s : World) (env : Option Reserved) (q : Nat) : Prop :=
  (∀ p ∈ s.structs.elements, Region.Disjoint ⟨q, s.size⟩ ⟨p, s.size⟩) ∧
  ∀ r ∈ env, Region.Disjoint ⟨q, s.size⟩ ⟨r.ptr, s.size⟩ ∧
    ∀ i, i < s.size → r.mem (q + i) = s.mem (q + i)

/-- The client's side of the contract. -/
def Proper (σ : Sys) (c : Call) : Prop :=
  match c.op with
  | .malloc | .calloc => True
  | .copy q => q ∈ σ.live ∨ Outside σ.world c.env q
  | .free p => p ∈ σ.live
  | .write p off bytes => p ∈ σ.live ∧ off + bytes.length ≤ σ.world.size

/-- A call as its documentation allows it. -/
structure Legal (t : Target) (σ : Sys) (c : Call) : Prop where
  reserve : ∀ r ∈ c.env, ReserveOk t σ.world r
  proper : Proper σ c

/-! ## The invariant -/

/-- The elements of `_structs` are proper, disjoint memory. -/
structure Elements (t : Target) (q : Structqueue) : Prop where
  nonnull : ∀ p ∈ q.elements, 0 < p
  lt_modulus : ∀ p ∈ q.elements, p < t.modulus
  apart : ∀ p ∈ q.elements, ∀ p' ∈ q.elements, p ≠ p' →
    Region.Disjoint ⟨p, q.elementSize⟩ ⟨p', q.elementSize⟩

/-- What every call keeps. -/
structure Inv (t : Target) (σ : Sys) : Prop where
  shared : Shared σ.world.structs.elements σ.world.freed σ.live
  elements : Elements t σ.world.structs
  tracks : Tracks (fun p => bytesAt σ.world.mem p σ.world.size) σ.log

variable {t : Target} {σ σ' : Sys} {p : Nat} {s s' : World}

theorem Inv.start (t : Target) (elementSize : Nat) (mem : Mem) :
    Inv t (Sys.start elementSize mem) where
  shared := .nil
  elements := ⟨nofun, nofun, nofun⟩
  tracks := .nil

/-- The asserts of `_mulle_storage_free` hold of the live nodes and no others. -/
theorem Inv.freeAsserts_iff (h : Inv t σ) : FreeAsserts p σ.world ↔ p ∈ σ.live := by
  unfold FreeAsserts
  rw [h.shared.mem_iff]
  refine ⟨fun ⟨hfreed, hmem⟩ => hmem.resolve_left hfreed, ?_⟩
  intro hlive
  exact ⟨fun hfreed => h.shared.not_live hfreed hlive, Or.inr hlive⟩

/-- There are fewer elements than addresses. -/
theorem Elements.length_lt {q : Structqueue} (h : Elements t q) (hnodup : q.elements.Nodup) :
    q.elements.length < t.modulus := by
  have hcons : (0 :: q.elements).Nodup :=
    List.nodup_cons.mpr ⟨fun h0 => Nat.lt_irrefl 0 (h.nonnull 0 h0), hnodup⟩
  have hsub : (0 :: q.elements).Subperm (List.range t.modulus) := by
    refine hcons.subperm fun p hp => List.mem_range.mpr ?_
    rcases List.mem_cons.mp hp with rfl | hp
    · exact t.modulus_pos
    · exact h.lt_modulus p hp
  have hlen := hsub.length_le
  rwa [List.length_cons, List.length_range] at hlen

/-- `_mulle_storage_get_count` counts the live nodes. -/
theorem Inv.getCount_eq (h : Inv t σ) : getCount t σ.world = σ.live.length := by
  have hlen := h.shared.length_eq
  rw [getCount, Target.sub_eq (by omega) (h.elements.length_lt h.shared.nodup)]
  omega

/-- A change to one node leaves the bytes of the others alone. -/
theorem Elements.bytesAt_eq {q : Structqueue} (h : Elements t q) {p' : Nat} (hp : p ∈ q.elements)
    (hp' : p' ∈ q.elements) (hne : p' ≠ p) {m m' : Mem}
    (hm : ∀ a, ¬ Region.Has ⟨p, q.elementSize⟩ a → m' a = m a) :
    bytesAt m' p' q.elementSize = bytesAt m p' q.elementSize := by
  refine bytesAt_congr fun i hi => hm _ ?_
  exact (h.apart p' hp' p hp hne).not_has ⟨Nat.le_add_right _ _, Nat.add_lt_add_left hi _⟩

/-! ## Allocation -/

/-- What `_mulle_storage_malloc` does: `p` was not live, and is now; the nodes
there were are as they were. -/
structure Taken (t : Target) (σ : Sys) (env : Option Reserved) (p : Nat) (s' : World) : Prop where
  size : s'.size = σ.world.size
  fresh : p ∉ σ.live
  shared : Shared s'.structs.elements s'.freed (p :: σ.live)
  elements : Elements t s'.structs
  keeps : ∀ q ∈ σ.world.structs.elements, ∀ i, i < σ.world.size →
    s'.mem (q + i) = σ.world.mem (q + i)
  origin : (p ∈ σ.world.structs.elements ∧ s'.mem = σ.world.mem) ∨
    ∃ r ∈ env, p = r.ptr ∧ s'.mem = r.mem

/-- One more element. -/
theorem Elements.reserve {r : Reserved} (h : Elements t s.structs) (hr : ReserveOk t s r) :
    Elements t { s.structs with elements := s.structs.elements ++ [r.ptr] } where
  nonnull p hp := by
    rcases List.mem_append.mp hp with hp | hp
    · exact h.nonnull p hp
    · exact List.mem_singleton.mp hp ▸ hr.nonnull
  lt_modulus p hp := by
    rcases List.mem_append.mp hp with hp | hp
    · exact h.lt_modulus p hp
    · exact List.mem_singleton.mp hp ▸ hr.lt_modulus
  apart p hp q hq hne := by
    rcases List.mem_append.mp hp with hp | hp <;> rcases List.mem_append.mp hq with hq | hq
    · exact h.apart p hp q hq hne
    · exact List.mem_singleton.mp hq ▸ hr.apart p hp
    · exact List.mem_singleton.mp hp ▸ (hr.apart q hq).symm
    · exact absurd ((List.mem_singleton.mp hp).trans (List.mem_singleton.mp hq).symm) hne

/-- Nothing to recycle: a new element, -/
theorem malloc_reserve {env : Option Reserved} (h : s.freed = []) :
    malloc env s = structqueueReserve env s := by
  obtain ⟨⟨structs, freed⟩, mem⟩ := s
  cases h
  rfl

/-- and otherwise the node freed last. -/
theorem malloc_recycle {env : Option Reserved} {front : List Nat} (h : s.freed = front ++ [p])
    (hp : p ≠ 0) : malloc env s = some (p, { s with freed := front }) := by
  simp only [malloc, h, pointerarrayPop_append, if_neg hp]

theorem malloc_taken {env : Option Reserved} (hinv : Inv t σ)
    (hres : ∀ r ∈ env, ReserveOk t σ.world r) (h : malloc env σ.world = some (p, s')) :
    Taken t σ env p s' := by
  rcases List.eq_nil_or_concat σ.world.freed with hnil | ⟨front, x, hcons⟩
  · rw [malloc_reserve hnil] at h
    obtain ⟨r, hr, heq⟩ := Option.map_eq_some_iff.mp h
    obtain ⟨rfl, rfl⟩ := Prod.mk.inj heq
    have hok := hres r hr
    have hshared := hinv.shared.reserve hok.fresh
    exact {
      size := rfl
      fresh := fun hlive => hok.fresh (hinv.shared.mem_of_live hlive)
      shared := hshared
      elements := hinv.elements.reserve hok
      keeps := hok.keeps
      origin := Or.inr ⟨r, hr, rfl, rfl⟩ }
  · rw [List.concat_eq_append] at hcons
    have hx : x ∈ σ.world.freed := by simp [hcons]
    have hmem : x ∈ σ.world.structs.elements := hinv.shared.mem_iff.mpr (Or.inl hx)
    rw [malloc_recycle hcons (Nat.ne_of_gt (hinv.elements.nonnull x hmem))] at h
    obtain ⟨rfl, rfl⟩ := Prod.mk.inj (Option.some.inj h)
    have hshared := hinv.shared
    rw [hcons] at hshared
    exact {
      size := rfl
      fresh := hinv.shared.not_live hx
      shared := hshared.recycle
      elements := hinv.elements
      keeps := fun _ _ _ _ => rfl
      origin := Or.inl ⟨hmem, rfl⟩ }

/-- The calls that hand out a node. -/
def Op.IsAlloc : Op → Prop
  | .malloc | .calloc | .copy _ => True
  | _ => False

/-- What an allocation stores into its node. -/
def Op.fill (op : Op) (p : Nat) (s : World) : World :=
  match op with
  | .calloc => s.memset p s.size fun _ => 0
  | .copy q => s.memcpy p q s.size
  | _ => s

@[simp] theorem Op.fill_structs (op : Op) (p : Nat) (s : World) :
    (op.fill p s).structs = s.structs := by cases op <;> rfl

@[simp] theorem Op.fill_size (op : Op) (p : Nat) (s : World) : (op.fill p s).size = s.size := by
  cases op <;> rfl

@[simp] theorem Op.fill_freed (op : Op) (p : Nat) (s : World) :
    (op.fill p s).freed = s.freed := by cases op <;> rfl

/-- Only the node is filled. -/
theorem Op.fill_outside (op : Op) {a : Nat} (ha : ¬ Region.Has ⟨p, s.size⟩ a) :
    (op.fill p s).mem a = s.mem a := by
  cases op with
  | calloc =>
    simp only [Op.fill, World.memset]
    exact blit_not_has ha
  | copy q =>
    simp only [Op.fill, World.memcpy]
    exact blit_not_has ha
  | _ => rfl

/-! ## Release -/

@[simp] theorem free_structs (t : Target) (p : Nat) (s : World) :
    (free t p s).structs = s.structs := by
  unfold free
  split <;> rfl

@[simp] theorem free_size (t : Target) (p : Nat) (s : World) : (free t p s).size = s.size := by
  unfold free
  split <;> rfl

@[simp] theorem free_freed (t : Target) (p : Nat) (s : World) :
    (free t p s).freed = s.freed ++ [p] := by
  unfold free
  split <;> rfl

/-- Only the node is poisoned. -/
theorem free_outside {a : Nat} (ha : ¬ Region.Has ⟨p, s.size⟩ a) :
    (free t p s).mem a = s.mem a := by
  unfold free
  split
  · exact blit_not_has ha
  · rfl

/-! ## What a call does -/

/-- The three things a call can be. -/
inductive Effect (t : Target) (c : Call) (σ : Sys) : Option Nat → Sys → Prop
  | took {p : Nat} {s : World} : c.op.IsAlloc → malloc c.env σ.world = some (p, s) →
      Effect t c σ (some p) ⟨c.op.fill p s, .took p (bytesAt (c.op.fill p s).mem p s.size) :: σ.log⟩
  | gave {p : Nat} : c.op = .free p →
      Effect t c σ none ⟨free t p σ.world, .gave p :: σ.log⟩
  | wrote {p off : Nat} {bytes : List UInt8} {s : World} : c.op = .write p off bytes →
      s = { σ.world with
        mem := blit σ.world.mem (p + off) bytes.length fun i => bytes.getD i 0 } →
      Effect t c σ none ⟨s, .wrote p off bytes :: σ.log⟩

theorem exec_effect {c : Call} {r : Option Nat} (h : exec t c.env c.op σ.world = some (r, s')) :
    Effect t c σ r (σ.record c.op (r, s')) := by
  obtain ⟨op, env⟩ := c
  cases op with
  | malloc =>
    obtain ⟨⟨p, s⟩, hm, heq⟩ := Option.map_eq_some_iff.mp h
    cases heq
    exact .took (c := ⟨.malloc, env⟩) trivial hm
  | calloc =>
    obtain ⟨⟨p, s⟩, hc, heq⟩ := Option.map_eq_some_iff.mp h
    obtain ⟨⟨p', s'⟩, hm, heq'⟩ := Option.map_eq_some_iff.mp hc
    cases heq
    cases heq'
    exact .took (c := ⟨.calloc, env⟩) trivial hm
  | copy q =>
    obtain ⟨⟨p, s⟩, hc, heq⟩ := Option.map_eq_some_iff.mp h
    obtain ⟨⟨p', s'⟩, hm, heq'⟩ := Option.map_eq_some_iff.mp hc
    cases heq
    cases heq'
    exact .took (c := ⟨.copy q, env⟩) trivial hm
  | free p =>
    cases h
    exact .gave rfl
  | write p off bytes =>
    cases h
    exact .wrote rfl rfl

theorem step_effect {c : Call} (h : Sys.step t σ c = some σ') : ∃ r, Effect t c σ r σ' := by
  obtain ⟨⟨r, s⟩, hexec, rfl⟩ := Option.map_eq_some_iff.mp h
  exact ⟨r, exec_effect hexec⟩

/-- **Step lemma.** Every legal call keeps the invariant. -/
theorem Effect.inv {c : Call} {r : Option Nat} (heff : Effect t c σ r σ') (hinv : Inv t σ)
    (hlegal : Legal t σ c) : Inv t σ' := by
  obtain ⟨op, env⟩ := c
  cases heff with
  | @took p s hop hm =>
    have htaken := malloc_taken hinv hlegal.reserve hm
    have hp : p ∈ s.structs.elements := htaken.shared.mem_of_live List.mem_cons_self
    refine ⟨?_, ?_, ?_⟩
    · show Shared (op.fill p s).structs.elements (op.fill p s).freed (p :: σ.live)
      simpa using htaken.shared
    · show Elements t (op.fill p s).structs
      simpa using htaken.elements
    · show Tracks (fun q => bytesAt (op.fill p s).mem q (op.fill p s).size) _
      rw [Op.fill_size]
      refine hinv.tracks.took htaken.fresh ?_
      intro q hq
      -- another live node: neither the `malloc` nor the fill writes to it
      have hne : q ≠ p := fun heq => htaken.fresh (heq ▸ hq)
      have hq' : q ∈ s.structs.elements := htaken.shared.mem_of_live (List.mem_cons_of_mem p hq)
      have hfill := htaken.elements.bytesAt_eq hp hq' hne fun a ha => op.fill_outside ha
      rw [← htaken.size]
      refine hfill.trans (bytesAt_congr ?_)
      intro i hi
      exact htaken.keeps q (hinv.shared.mem_of_live hq) i (htaken.size ▸ hi)
  | @gave p hop =>
    cases hop
    have hp : p ∈ σ.live := hlegal.proper
    refine ⟨?_, ?_, ?_⟩
    · show Shared (free t p σ.world).structs.elements (free t p σ.world).freed (σ.live.erase p)
      simpa using hinv.shared.release hp
    · show Elements t (free t p σ.world).structs
      simpa using hinv.elements
    · show Tracks (fun q => bytesAt (free t p σ.world).mem q (free t p σ.world).size) _
      rw [free_size]
      refine hinv.tracks.gave hp ?_
      intro q hq hne
      exact hinv.elements.bytesAt_eq (hinv.shared.mem_of_live hp) (hinv.shared.mem_of_live hq) hne
        fun a ha => free_outside ha
  | @wrote p off bytes s hop hs =>
    cases hop
    subst hs
    obtain ⟨hp, hfit⟩ := hlegal.proper
    refine ⟨hinv.shared, hinv.elements, ?_⟩
    refine hinv.tracks.wrote hp (bytesAt_blit_overwrite hfit) ?_
    intro q hq hne
    refine hinv.elements.bytesAt_eq (hinv.shared.mem_of_live hp) (hinv.shared.mem_of_live hq) hne
      ?_
    intro a ha
    dsimp only
    refine blit_outside ?_
    simp only [Region.Has, World.size] at ha hfit
    omega

/-! ## What an allocation delivers -/

/-- What the node `p` an allocation returns must hold; `m'` is memory after the
call. The ranges of a `memcpy` may not overlap. -/
def Delivers (σ : Sys) (p : Nat) (m' : Mem) : Op → Prop
  | .calloc => bytesAt m' p σ.world.size = List.replicate σ.world.size 0
  | .copy q =>
    Region.Disjoint ⟨q, σ.world.size⟩ ⟨p, σ.world.size⟩ ∧
      bytesAt m' p σ.world.size = bytesAt σ.world.mem q σ.world.size
  | _ => True

theorem Effect.delivers {c : Call} (heff : Effect t c σ (some p) σ') (hinv : Inv t σ)
    (hlegal : Legal t σ c) : p ∉ σ.live ∧ Delivers σ p σ'.world.mem c.op := by
  obtain ⟨op, env⟩ := c
  cases heff with
  | @took p s hop hm =>
    have htaken := malloc_taken hinv hlegal.reserve hm
    refine ⟨htaken.fresh, ?_⟩
    cases op with
    | calloc =>
      show bytesAt (blit s.mem p s.size fun _ => 0) p σ.world.size = _
      rw [htaken.size]
      exact bytesAt_blit_const s.mem p σ.world.size 0
    | copy q =>
      -- the source is apart from the node and unchanged by the `malloc`
      have hsource : Region.Disjoint ⟨q, σ.world.size⟩ ⟨p, σ.world.size⟩ ∧
          ∀ i, i < σ.world.size → s.mem (q + i) = σ.world.mem (q + i) := by
        rcases hlegal.proper with hq | hout
        · have hqs := htaken.shared.mem_of_live (List.mem_cons_of_mem p hq)
          have hps := htaken.shared.mem_of_live List.mem_cons_self
          have hapart := htaken.elements.apart q hqs p hps fun heq => htaken.fresh (heq ▸ hq)
          have hsize : s.structs.elementSize = σ.world.size := htaken.size
          rw [hsize] at hapart
          exact ⟨hapart, htaken.keeps q (hinv.shared.mem_of_live hq)⟩
        · rcases htaken.origin with ⟨hp, hmem⟩ | ⟨r, hr, rfl, hmem⟩
          · exact ⟨hout.1 p hp, fun i _ => by rw [hmem]⟩
          · exact ⟨(hout.2 r hr).1, fun i hi => by rw [hmem]; exact (hout.2 r hr).2 i hi⟩
      refine ⟨hsource.1, bytesAt_congr ?_⟩
      intro i hi
      show blit s.mem p s.size (fun i => s.mem (q + i)) (p + i) = _
      rw [htaken.size, blit_at hi]
      exact hsource.2 i hi
    | _ => trivial

/-! ## Runs -/

variable {elementSize : Nat} {mem : Mem} {l : List Call}

theorem reach_inv (h : Reach (Sys.step t) (Legal t) (Sys.start elementSize mem) l σ) : Inv t σ :=
  h.inv (Inv.start t elementSize mem) fun hinv hlegal hs =>
    let ⟨_, heff⟩ := step_effect hs
    heff.inv hinv hlegal

/-- **A correct node pool.** After every run the freed and the live nodes share
out the elements of `_structs`, `_mulle_storage_get_count` counts the live ones,
and each of these holds what it was handed out with and what its client stored
into it since, whatever happened to other nodes. The node a further allocation
returns is not live, and holds what that allocation promises. -/
theorem storage_pool (h : Reach (Sys.step t) (Legal t) (Sys.start elementSize mem) l σ) :
    Shared σ.world.structs.elements σ.world.freed σ.live ∧ σ.world.freed.Nodup ∧
    σ.world.freed.length ≤ σ.world.structs.elements.length ∧
    getCount t σ.world = σ.live.length ∧
    Lawful σ.log ∧ σ.contents = replay σ.log ∧
    ∀ c p s, Legal t σ c → exec t c.env c.op σ.world = some (some p, s) →
      p ∉ σ.live ∧ Delivers σ p s.mem c.op := by
  have hinv := reach_inv h
  have hlen := hinv.shared.length_eq
  refine ⟨hinv.shared, hinv.shared.freed_nodup, by omega, hinv.getCount_eq, hinv.tracks.lawful,
    ?_, ?_⟩
  · funext p
    exact (hinv.tracks.replay_eq p).symm
  · intro c p s hlegal hexec
    exact (exec_effect hexec).delivers hinv hlegal

/-! ## A run, computed -/

instance (s : World) (r : Reserved) : Decidable (ReserveOk t s r) :=
  decidable_of_iff (0 < r.ptr ∧ r.ptr < t.modulus ∧ r.ptr ∉ s.structs.elements ∧
      (∀ q ∈ s.structs.elements, Region.Disjoint ⟨q, s.size⟩ ⟨r.ptr, s.size⟩) ∧
      ∀ q ∈ s.structs.elements, ∀ i, i < s.size → r.mem (q + i) = s.mem (q + i))
    ⟨fun ⟨h₁, h₂, h₃, h₄, h₅⟩ => ⟨h₁, h₂, h₃, h₄, h₅⟩,
      fun h => ⟨h.nonnull, h.lt_modulus, h.fresh, h.apart, h.keeps⟩⟩

instance (s : World) (env : Option Reserved) (q : Nat) : Decidable (Outside s env q) :=
  inferInstanceAs (Decidable (_ ∧ _))

instance (σ : Sys) : (c : Call) → Decidable (Proper σ c)
  | ⟨.malloc, _⟩ | ⟨.calloc, _⟩ => isTrue trivial
  | ⟨.copy q, env⟩ => inferInstanceAs (Decidable (q ∈ σ.live ∨ Outside σ.world env q))
  | ⟨.free p, _⟩ => inferInstanceAs (Decidable (p ∈ σ.live))
  | ⟨.write .., _⟩ => inferInstanceAs (Decidable (_ ∧ _))

instance (σ : Sys) (c : Call) : Decidable (Legal t σ c) :=
  decidable_of_iff ((∀ r ∈ c.env, ReserveOk t σ.world r) ∧ Proper σ c)
    ⟨fun ⟨h₁, h₂⟩ => ⟨h₁, h₂⟩, fun h => ⟨h.reserve, h.proper⟩⟩

/-- Two nodes, one written, copied and freed, its memory recycled. -/
def poolCalls : List Call :=
  [⟨.malloc, some ⟨0x1000, fun _ => 7⟩⟩, ⟨.write 0x1000 1 [2, 3], none⟩,
    ⟨.copy 0x1000, some ⟨0x1004, fun a => if a = 0x1001 then 2 else if a = 0x1002 then 3 else 7⟩⟩,
    ⟨.free 0x1000, none⟩, ⟨.calloc, none⟩]

theorem storage_pool_recycled :
    let σ := runEnd (Sys.step (x64 true)) (Sys.start 4 fun _ => 0) poolCalls
    Shared σ.world.structs.elements σ.world.freed σ.live ∧ σ.world.freed.Nodup ∧
    σ.world.freed.length ≤ σ.world.structs.elements.length ∧
    getCount (x64 true) σ.world = σ.live.length ∧
    Lawful σ.log ∧ σ.contents = replay σ.log ∧
    ∀ c p s, Legal (x64 true) σ c → exec (x64 true) c.env c.op σ.world = some (some p, s) →
      p ∉ σ.live ∧ Delivers σ p s.mem c.op :=
  storage_pool (Reach.of_runEnd (by decide +kernel))

end MulleStorage.Pool
