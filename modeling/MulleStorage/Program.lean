import MulleStorage.Arena.Script
import MulleStorage.Arena.Tenant
import MulleStorage.Storage.Tenant

/-!
# A program that uses the library

A program has any number of arenas, storages and indexed storages, made with
sizes of their own, and clients that use them in any order. All of them are in
one memory: pages come from the default allocator, elements and arrays from the
containers, and other code stores wherever nothing of this is.

> `program_apart`: what belongs to one object belongs to no other, and only calls
> on the object change it. Blocks that lie over each other make no difference,
> which is a matter between the blocks of one arena. So the clients of an arena
> only have to keep the contract, and in a debug build must not free, as the newest
> one, a block whose rounded end is behind its page: the fill runs up to there.

> `program_contents`: to its client every object is a map from nodes to bytes, as
> if it were alone: pointers of the arena's blocks, of the storage's nodes, or
> indices. An arena has to be used in an orderly way for that (`Fair`): by direct
> calls that copy from readable memory, or by vtable calls on aligned pages that
> are not reset, no header being put over a live tail or what is to be copied.
-/

namespace MulleStorage

open MulleStorage.Lib MulleStorage.Arena

variable {t : Target}

/-- An object of the library. For an arena it says how it is used, which is
through one of its APIs with care, or (`none`) anyhow. -/
inductive Object
  | arena (pageSize : Nat) (use : Option Api)
  | storage (elementSize : Nat)
  | indexedstorage (elementSize : Nat)

namespace Object

abbrev State : Object → Type
  | .arena _ _ => Arena.Client
  | .storage _ => Pool.Sys
  | .indexedstorage _ => Indexed.Sys

abbrev Call : Object → Type
  | .arena _ _ => Arena.Call
  | .storage _ => Pool.Call
  | .indexedstorage _ => Indexed.Call

def tenant (t : Target) : (o : Object) → Tenant o.State o.Call
  | .arena _ use => Arena.tenant t use
  | .storage _ => Pool.tenant t
  | .indexedstorage _ => Indexed.tenant t

/-- `_mulle_arena_init`, `_mulle_storage_init` or `_mulle_indexedstorage_init`. -/
def start (mem : Mem) : (o : Object) → o.State
  | .arena pageSize _ => Arena.Client.start pageSize mem
  | .storage elementSize => Pool.Sys.start elementSize mem
  | .indexedstorage elementSize => Indexed.Sys.start elementSize mem

/-- Memory, as the object sees it. -/
def mem : (o : Object) → o.State → Mem
  | .arena _ _, x => x.sys.world.mem
  | .storage _, σ => σ.world.mem
  | .indexedstorage _, σ => σ.world.mem

/-- The memory that belongs to the object: pages, elements, or the array. -/
def regions : (o : Object) → o.State → List Region
  | .arena _ _, x => held x.sys.world.log
  | .storage _, σ => σ.world.structs.elements.map fun p => ⟨p, σ.world.size⟩
  | .indexedstorage _, σ => [σ.world.region]

/-- What clients did with the nodes of the object, newest first. -/
def labels : (o : Object) → o.State → List (Label Nat)
  | .arena _ _, x => x.labels
  | .storage _, σ => σ.log
  | .indexedstorage _, σ => σ.log

/-- What is in a live node of the object; `none` for everything else. -/
def contents : (o : Object) → o.State → Nat → Option (List UInt8)
  | .arena _ _, x => x.contents
  | .storage _, σ => σ.contents
  | .indexedstorage _, σ => σ.contents

/-- All but an arena that is used anyhow. -/
def Orderly : Object → Prop
  | .arena _ use => use ≠ none
  | .storage _ | .indexedstorage _ => True

/-- What the object keeps. -/
def Inv (t : Target) : (o : Object) → o.State → Prop
  | .arena _ use => Homely t use
  | .storage _ => Pool.Inv t
  | .indexedstorage _ => Indexed.Inv t

variable (o : Object)

theorem inv_start (mem : Mem) : o.Inv t (o.start mem) := by
  cases o with
  | arena pageSize use => exact Homely.start t use pageSize mem
  | storage elementSize => exact Pool.Inv.start t elementSize mem
  | indexedstorage elementSize => exact Indexed.Inv.start t elementSize mem

theorem settled (t : Target) : (o.tenant t).Settled (o.Inv t) := by
  cases o with
  | arena pageSize use => exact Homely.settled t use
  | storage elementSize => exact Pool.settled t
  | indexedstorage elementSize => exact Indexed.settled t

theorem tenant_mem (s : o.State) : (o.tenant t).mem s = o.mem s := by
  cases o <;> rfl

theorem owns_iff (s : o.State) (a : Nat) :
    (o.tenant t).owns s a ↔ ∃ r ∈ o.regions s, r.Has a := by
  cases o with
  | arena pageSize use => exact Iff.rfl
  | storage elementSize =>
    constructor
    · intro howns
      obtain ⟨p, hp, ha⟩ := howns
      exact ⟨_, List.mem_map_of_mem hp, ha⟩
    · intro hin
      obtain ⟨r, hr, ha⟩ := hin
      obtain ⟨p, hp, rfl⟩ := List.mem_map.mp hr
      exact ⟨p, hp, ha⟩
  | indexedstorage elementSize =>
    constructor
    · intro ha
      exact ⟨_, List.mem_singleton_self _, ha⟩
    · intro hin
      obtain ⟨r, hr, ha⟩ := hin
      cases List.mem_singleton.mp hr
      exact ha

/-- A new object owns nothing. -/
theorem not_owns_start (mem : Mem) (a : Nat) : ¬ (o.tenant t).owns (o.start mem) a := by
  cases o with
  | arena pageSize use =>
    intro howns
    obtain ⟨r, hr, -⟩ := howns
    exact absurd hr List.not_mem_nil
  | storage elementSize =>
    intro howns
    obtain ⟨p, hp, -⟩ := howns
    exact absurd hp List.not_mem_nil
  | indexedstorage elementSize =>
    intro howns
    obtain ⟨hle, hlt⟩ := howns
    have hzero : (0 : Nat) * elementSize = 0 := Nat.zero_mul _
    have hlt' : a < 0 + 0 * elementSize := hlt
    omega

end Object

/-! ## Runs -/

namespace Program

variable {ι : Type} [DecidableEq ι] (t) (object : ι → Object)

/-- What happens next: a call on an object, or a store of other code. -/
abbrev Act := Lib.Act fun i => (object i).Call

/-- One act. -/
def step : (∀ i, (object i).State) → Act object → Option (∀ i, (object i).State) :=
  Company.step fun i => (object i).tenant t

/-- The clients keep the contract of their object, a debug `free` on an arena has
`FillOk`, an arena that is used with care is used so (`Fair`), and whatever an
object is given belongs to no other; other code stores where no object is. -/
def Ok : (∀ i, (object i).State) → Act object → Prop :=
  Company.Ok fun i => (object i).tenant t

/-- All objects are new. -/
def start (mem : Mem) : ∀ i, (object i).State := fun i => (object i).start mem

variable {t object} {mem : Mem} {l : List (Act object)} {s s' : ∀ i, (object i).State}

theorem reach_peace (h : Reach (step t object) (Ok t object) (start object mem) l s) :
    Company.Peace (fun i => (object i).tenant t) (fun i => (object i).Inv t) s := by
  refine Company.run (fun i => (object i).settled t) ⟨?_, ?_, ?_⟩ h
  · exact fun i => (object i).inv_start mem
  · intro i j
    rw [Object.tenant_mem, Object.tenant_mem]
    unfold start
    cases object i <;> cases object j <;> rfl
  · exact fun i _ _ a ha => absurd ha ((object i).not_owns_start mem a)

end Program

open Program

variable {ι : Type} {object : ι → Object}

/-! ## A program, computed -/

/-- A call on an object, with what the default allocator or the container answers. -/
abbrev Object.Line : Object → Type
  | .arena _ _ => Arena.Line
  | .storage _ => Pool.Call
  | .indexedstorage _ => Indexed.Call

def Object.Line.call : (o : Object) → o.Line → o.Call
  | .arena _ _, x => Arena.Line.call x
  | .storage _, c => c
  | .indexedstorage _, c => c

/-- The client copies from its own blocks only. -/
def CopiesOwn (σ : Arena.Sys) : Arena.Op → Prop
  | .memdup src size => ∃ b ∈ σ.live, b.payload.Covers src size
  | .strdup _ => False
  | _ => True

instance (σ : Arena.Sys) : DecidablePred (CopiesOwn σ)
  | .memdup src size => inferInstanceAs (Decidable (∃ b ∈ σ.live, b.payload.Covers src size))
  | .strdup _ => isFalse id
  | .alloc .. | .calloc .. | .realloc .. | .callocV .. | .reallocarrayV .. | .freeV .. | .reset
  | .resetKeepPages .. | .resetKeepPercentage .. | .write .. => isTrue trivial

/-- `Fair`, as far as a line tells. -/
def FairLine (t : Target) (σ : Arena.Sys) (x : Arena.Line) : Api → Prop
  | .direct => ¬ x.op.IsVtable ∧ CopiesOwn σ x.op
  | .vtable => x.Aligned t ∧ ¬ x.op.IsDirect ∧ ¬ x.op.IsReset ∧ MoveOk t σ x.op

instance (σ : Arena.Sys) (x : Arena.Line) : DecidablePred (FairLine t σ x)
  | .direct => inferInstanceAs (Decidable (_ ∧ _))
  | .vtable => inferInstanceAs (Decidable (_ ∧ _))

theorem FairLine.fair {σ : Arena.Sys} {x : Arena.Line} {api : Api} (h : FairLine t σ x api) :
    Fair t σ x.call api := by
  cases api with
  | direct =>
    refine ⟨h.1, ?_⟩
    have hcopies := h.2
    unfold Sources Arena.Line.call
    dsimp only
    cases hop : x.op with
    | memdup =>
      rw [hop] at hcopies
      exact Or.inl hcopies
    | strdup =>
      rw [hop] at hcopies
      exact hcopies.elim
    | _ => trivial
  | vtable => exact ⟨Arena.Line.sysAligned h.1, h.2⟩

/-- The call keeps the contract of its object. -/
def Object.Line.Ok (t : Target) : (o : Object) → o.State → o.Line → Prop
  | .arena _ use, s, x =>
    Arena.Line.Ok t s.sys x ∧ FillOk t s.sys x.op ∧ ∀ api ∈ use, FairLine t s.sys x api
  | .storage _, s, c => Pool.Legal t s c
  | .indexedstorage _, s, c => Indexed.Legal s c ∧ Indexed.Below t s c

/-- Nothing the object is given for the call is in `q`, a region of another object. -/
def Object.Line.Spares : (o : Object) → o.State → o.Line → Region → Prop
  | .arena _ _, _, x, q => ∀ e ∈ x.answers, Region.Disjoint ⟨e.2, e.1⟩ q
  | .storage _, s, c, q => ∀ r ∈ c.env, Region.Disjoint ⟨r.ptr, s.world.size⟩ q ∧
      ∀ i, i < q.size → r.mem (q.base + i) = s.world.mem (q.base + i)
  | .indexedstorage _, s, c, q => ∀ r ∈ c.env,
      Region.Disjoint ⟨r.base, (s.world.structs.count + 1) * s.world.size⟩ q ∧
      ∀ i, i < q.size → r.mem (q.base + i) = s.world.mem (q.base + i)

instance : (o : Object) → (s : o.State) → DecidablePred (Object.Line.Ok t o s)
  | .arena .., _ => fun _ => inferInstanceAs (Decidable (_ ∧ _))
  | .storage _, s => fun c => inferInstanceAs (Decidable (Pool.Legal t s c))
  | .indexedstorage _, _ => fun _ => inferInstanceAs (Decidable (_ ∧ _))

instance : (o : Object) → (s : o.State) → (x : o.Line) → DecidablePred (Object.Line.Spares o s x)
  | .arena .., _, x => fun _ => inferInstanceAs (Decidable (∀ e ∈ x.answers, _))
  | .storage _, _, c => fun _ => inferInstanceAs (Decidable (∀ r ∈ c.env, _ ∧ _))
  | .indexedstorage _, _, c => fun _ => inferInstanceAs (Decidable (∀ r ∈ c.env, _ ∧ _))

theorem Object.Line.ok {o : Object} {s : o.State} {x : o.Line} (h : Object.Line.Ok t o s x) :
    (o.tenant t).ok s (Object.Line.call o x) := by
  cases o with
  | arena pageSize use =>
    obtain ⟨hok, hfill, hfair⟩ := h
    exact ⟨Arena.Line.legal _ _ hok, hfill, fun api hapi => (hfair api hapi).fair⟩
  | storage elementSize => exact h
  | indexedstorage elementSize => exact h

/-- Nothing in a region that is spared is given for the call. -/
theorem Object.Line.Spares.not_given {o : Object} {s : o.State} {x : o.Line} {q : Region}
    (h : Object.Line.Spares o s x q) {a : Nat} (ha : q.Has a) :
    ¬ (o.tenant t).given s (Object.Line.call o x) a := by
  have hoff : a - q.base < q.size ∧ q.base + (a - q.base) = a := by
    have hle := ha.1
    have hlt := ha.2
    omega
  cases o with
  | arena pageSize use =>
    intro hgiven
    obtain ⟨n, p, hp, hhas⟩ := hgiven
    exact (h (n, p) (mem_of_lookup hp)).not_has hhas ha
  | storage elementSize =>
    intro hgiven
    obtain ⟨r, hr, hhas | hne⟩ := hgiven
    · exact (h r hr).1.not_has hhas ha
    · have hsame := (h r hr).2 _ hoff.1
      rw [hoff.2] at hsame
      exact hne hsame
  | indexedstorage elementSize =>
    intro hgiven
    obtain ⟨r, hr, hhas | hne⟩ := hgiven
    · exact (h r hr).1.not_has hhas ha
    · have hsame := (h r hr).2 _ hoff.1
      rw [hoff.2] at hsame
      exact hne hsame

namespace Program

/-- What happens next, with all answers. -/
abbrev Turn (object : ι → Object) := Lib.Act fun i => (object i).Line

def Turn.act : Turn object → Act object
  | .call i x => .call i (Object.Line.call (object i) x)
  | .store p bytes => .store p bytes

/-- The turn keeps the contract and spares all other objects. -/
def Turn.Ok (t : Target) (object : ι → Object) (s : ∀ i, (object i).State) : Turn object → Prop
  | .call i x => Object.Line.Ok t (object i) (s i) x ∧
      ∀ j, j ≠ i → ∀ r ∈ (object j).regions (s j), Object.Line.Spares (object i) (s i) x r
  | .store p bytes => ∀ j, ∀ r ∈ (object j).regions (s j), Region.Disjoint ⟨p, bytes.length⟩ r

instance {n : Nat} {object : Fin n → Object} (s : ∀ i, (object i).State) :
    DecidablePred (Turn.Ok t object s)
  | .call .. => inferInstanceAs (Decidable (_ ∧ ∀ j, j ≠ _ → ∀ r ∈ (object j).regions (s j), _))
  | .store p bytes => inferInstanceAs (Decidable
      (∀ j, ∀ r ∈ (object j).regions (s j), Region.Disjoint ⟨p, bytes.length⟩ r))

theorem Turn.ok {s : ∀ i, (object i).State} {x : Turn object} (h : Turn.Ok t object s x) :
    Program.Ok t object s x.act := by
  cases x with
  | call i x =>
    refine ⟨Object.Line.ok h.1, ?_⟩
    intro j hj a hgiven howns
    obtain ⟨r, hr, ha⟩ := ((object j).owns_iff (s j) a).mp howns
    exact (h.2 j hj r hr).not_given ha hgiven
  | store p bytes =>
    intro j a hle hlt howns
    obtain ⟨r, hr, ha⟩ := ((object j).owns_iff (s j) a).mp howns
    exact (h j r hr).not_has ⟨hle, hlt⟩ ha

variable [DecidableEq ι] {mem : Mem}

/-- Where the turns lead. -/
def turnsEnd (t : Target) (object : ι → Object) (mem : Mem) (l : List (Turn object)) :
    ∀ i, (object i).State :=
  (runCalls (fun s x => step t object s (Turn.act x)) (start object mem) l).getD (start object mem)

/-- Turns that are in order are a run. -/
theorem reach_of_turns {l : List (Turn object)}
    (h : OkAlong (fun s x => step t object s (Turn.act x)) (Turn.Ok t object) (start object mem) l ∧
      (runCalls (fun s x => step t object s (Turn.act x)) (start object mem) l).isSome) :
    Reach (step t object) (Ok t object) (start object mem) (l.map Turn.act)
      (turnsEnd t object mem l) := by
  obtain ⟨s, hs⟩ := Option.isSome_iff_exists.mp h.2
  have hrun := Reach.of_runCalls (P := Turn.Ok t object) Turn.act Turn.ok .nil h.1 hs
  rw [turnsEnd, hs]
  simpa using hrun

/-- An arena behind its vtable, a storage and an indexed storage. -/
def oneOfEach : Fin 3 → Object
  | 0 => .arena 96 (some .vtable)
  | 1 => .storage 4
  | 2 => .indexedstorage 4

/-- Nodes of all three are had, stored into and given back, and a block moves. -/
def oneOfEachTurns : List (Turn oneOfEach) :=
  [.call 1 ⟨.malloc, some ⟨0x2000, fun _ => 7⟩⟩, .call 2 ⟨.alloc, some ⟨0x3000, fun _ => 7⟩⟩,
    .call 0 ⟨.callocV 3 8, [(96, 0x1000)]⟩, .call 1 ⟨.write 0x2000 1 [2, 3], none⟩,
    .call 0 ⟨.write 0x1010 [9], []⟩, .store 0x5000 [1], .call 2 ⟨.write 0 0 [5], none⟩,
    .call 1 ⟨.free 0x2000, none⟩, .call 0 ⟨.reallocarrayV 0x1010 12 8, [(112, 0x4000)]⟩]

end Program

variable [DecidableEq ι] {mem : Mem} {l : List (Program.Act object)} {s : ∀ i, (object i).State}

/-- **Isolation.** In every run of a program, however the clients take turns, no
byte belongs to two objects, and what is not a call on an object changes no byte
that belongs to it. -/
theorem program_apart (h : Reach (step t object) (Ok t object) (start object mem) l s) :
    (∀ i j, i ≠ j → ∀ r ∈ (object i).regions (s i), ∀ q ∈ (object j).regions (s j),
      ∀ a, r.Has a → ¬ q.Has a) ∧
    ∀ x s', Ok t object s x → step t object s x = some s' →
      ∀ j, (∀ i c, x = .call i c → j ≠ i) → ∀ r ∈ (object j).regions (s j), ∀ a, r.Has a →
        (object j).mem (s' j) a = (object j).mem (s j) a := by
  have hpeace := reach_peace h
  refine ⟨?_, ?_⟩
  · intro i j hij r hr q hq a ha hb
    exact hpeace.apart i j hij a (((object i).owns_iff (s i) a).mpr ⟨r, hr, ha⟩)
      (((object j).owns_iff (s j) a).mpr ⟨q, hq, hb⟩)
  · intro x s' hok hs j hj r hr a ha
    have hframe := Company.frame (fun i => (object i).settled t) hpeace hok hs hj
      (((object j).owns_iff (s j) a).mpr ⟨r, hr, ha⟩)
    rwa [Object.tenant_mem, Object.tenant_mem] at hframe

/-- The three objects, after the turns. -/
theorem program_apart_three :
    let s := turnsEnd (x64 true) oneOfEach (fun _ => 7) oneOfEachTurns
    (∀ i j, i ≠ j → ∀ r ∈ (oneOfEach i).regions (s i), ∀ q ∈ (oneOfEach j).regions (s j),
      ∀ a, r.Has a → ¬ q.Has a) ∧
    ∀ x s', Ok (x64 true) oneOfEach s x → step (x64 true) oneOfEach s x = some s' →
      ∀ j, (∀ i c, x = .call i c → j ≠ i) → ∀ r ∈ (oneOfEach j).regions (s j), ∀ a, r.Has a →
        (oneOfEach j).mem (s' j) a = (oneOfEach j).mem (s j) a :=
  program_apart (reach_of_turns (by decide +kernel))

end MulleStorage
