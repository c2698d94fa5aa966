import Mathlib.Data.List.Perm.Basic
import MulleStorage.Storage.Benchmark

/-!
# What the workloads rely on

A workload sees an allocator through `alloc_ops` alone, so what it needs of one
is a short list (`Lawful`): a node handed out is not live and carries its
pattern, the bytes of the other live nodes stay, `live_count` counts, and a
teardown gives back what was obtained.

That is enough for all three workloads, whatever the allocator does inside.
`PassOk` is the invariant of their loops; `Lawful.take` and `Lawful.give` keep
it, and with them every turn.
-/

namespace MulleStorage.Bench

open MulleStorage.Lib MulleStorage.Arena

/-- The only way a run may end early. -/
def NoMemory (e : Stop) : Prop := e = .noMemory

/-- No run ends early. -/
def Never (_ : Stop) : Prop := False

/-! ## Nodes -/

/-- Nodes of `size` bytes hold a `struct bench_node`, and a pointer. -/
structure BenchSize (t : Target) (size : Nat) : Prop where
  bytes : 8 ∣ t.uintBits
  holds : Freelist.sizeofBenchNode t ≤ size
  word : t.sizeofSizeT ≤ size
  lt_modulus : size < t.modulus

section

variable {t : Target} {size serial n : Nat} {m m' : Mem}

theorem offsetofData_le (t : Target) : Freelist.offsetofData t ≤ Freelist.sizeofBenchNode t :=
  le_alignUp (by decide) _

/-- `node_check` reads nothing but the node. -/
theorem nodeCheck_congr (hsize : BenchSize t size) (h : ∀ i, i < size → m' (n + i) = m (n + i)) :
    nodeCheck t size serial n m' = nodeCheck t size serial n m := by
  have hdata := offsetofData_le t
  have hholds := hsize.holds
  have hoff : Freelist.offsetofData t = 8 + t.uintBits / 8 := rfl
  have hmagic : loadWord m' n 8 = loadWord m n 8 := loadWord_congr fun i hi => h i (by omega)
  have hserial : loadWord m' (n + 8) (t.uintBits / 8) = loadWord m (n + 8) (t.uintBits / 8) := by
    apply loadWord_congr
    intro i hi
    rw [Nat.add_assoc]
    exact h _ (by omega)
  have hall : ∀ i ∈ List.range (t.sub size (Freelist.sizeofBenchNode t)),
      (m' (n + Freelist.offsetofData t + i) == UInt8.ofNat serial)
        = (m (n + Freelist.offsetofData t + i) == UInt8.ofNat serial) := by
    intro i hi
    rw [Target.sub_eq hholds hsize.lt_modulus, List.mem_range] at hi
    rw [Nat.add_assoc, h _ (by omega)]
  unfold nodeCheck
  rw [hmagic, hserial, Bool.eq_iff_iff]
  simp only [Bool.and_eq_true, List.all_eq_true]
  refine and_congr_right fun _ => forall₂_congr fun i hi => ?_
  rw [hall i hi]

/-- What `node_init` stores passes `node_check`. -/
theorem nodeCheck_nodeInit (hsize : BenchSize t size) (hserial : serial < 2 ^ t.uintBits) :
    nodeCheck t size serial n (Freelist.nodeInit t size serial n m) = true := by
  have hoff : Freelist.offsetofData t = 8 + t.uintBits / 8 := rfl
  have hword : 256 ^ (t.uintBits / 8) = 2 ^ t.uintBits := by
    rw [show 256 = 2 ^ 8 from rfl, ← Nat.pow_mul, Nat.mul_div_cancel' hsize.bytes]
  unfold nodeCheck Freelist.nodeInit
  simp only [Bool.and_eq_true, beq_iff_eq, List.all_eq_true, List.mem_range]
  refine ⟨⟨?_, ?_⟩, ?_⟩
  · -- the magic, in front of everything else
    rw [loadWord_of_bytes (v := Freelist.nodeMagic)]
    · decide
    · intro i hi
      rw [blit_outside (by omega), blit_outside (by omega), blit_at hi]
  · rw [loadWord_of_bytes (v := serial), hword, Nat.mod_eq_of_lt hserial]
    intro i hi
    rw [blit_outside (by omega), blit_at hi]
  · intro i hi
    exact blit_at hi

end

/-! ## `swapRemove` -/

/-- The entry at `k` is taken out, the others stay, in another order. -/
theorem swapRemove_perm {a : List (Nat × Nat)} {k : Nat} (h : k < a.length) :
    a.Perm (a[k] :: swapRemove a k) := by
  obtain ⟨front, x, rfl⟩ : ∃ front x, a = front ++ [x] := by
    rcases List.eq_nil_or_concat a with rfl | ⟨front, x, rfl⟩
    · exact absurd h (Nat.not_lt_zero k)
    · exact ⟨front, x, List.concat_eq_append⟩
  unfold swapRemove
  rw [List.getLastD_concat]
  rw [List.length_append, List.length_singleton] at h
  by_cases hk : k < front.length
  · -- the last entry goes to `k`
    rw [List.set_append_left _ _ hk, List.dropLast_concat, List.getElem_append_left hk]
    have hset := List.set_perm_cons_eraseIdx hk x
    have hget := List.getElem_cons_eraseIdx_perm hk
    refine (List.perm_append_singleton x front).trans ?_
    refine ((hget.symm.cons x).trans (List.Perm.swap _ _ _)).trans ?_
    exact hset.symm.cons _
  · obtain rfl : k = front.length := by omega
    rw [List.set_append_right _ _ (Nat.le_refl _), Nat.sub_self]
    simp only [List.set_cons_zero, List.dropLast_concat]
    rw [List.getElem_append_right (Nat.le_refl _)]
    simp

/-! ## What a workload relies on -/

variable {σ : Type}

/-- What an allocation does: `p` was not live and carries its pattern, and the
live nodes keep their bytes. -/
structure Took (Ok : σ → List Nat → Prop) (t : Target) (ops : AllocOps σ) (allocated : σ → List Nat)
    (size serial : Nat) (s : σ) (live : List Nat) (p : Nat) (s' : σ) : Prop where
  ok : Ok s' (p :: live)
  node : nodeCheck t size serial p (ops.mem s') = true
  keeps : ∀ q ∈ live, ∀ i, i < size → ops.mem s' (q + i) = ops.mem s (q + i)
  allocated : (allocated s').length ≤ max (allocated s).length (live.length + 1)

/-- What a release does: the other live nodes keep their bytes. -/
structure Gave (Ok : σ → List Nat → Prop) (ops : AllocOps σ) (allocated : σ → List Nat)
    (size : Nat) (s : σ) (live : List Nat) (s' : σ) : Prop where
  ok : Ok s' live
  keeps : ∀ q ∈ live, ∀ i, i < size → ops.mem s' (q + i) = ops.mem s (q + i)
  allocated : (allocated s').length ≤ (allocated s).length

/-- An allocator that a workload can rely on. `Ok s live` says that the context
is in order and `live` are its live nodes; `allocated` is what it has obtained
and not given back. -/
structure Lawful (t : Target) (size : Nat) (ops : AllocOps σ) where
  Ok : σ → List Nat → Prop
  allocated : σ → List Nat
  init (mem : Mem) : Ok (ops.ctxInit size mem) [] ∧ allocated (ops.ctxInit size mem) = []
  nodup {s : σ} {live : List Nat} : Ok s live → live.Nodup
  perm {s : σ} {live live' : List Nat} : Ok s live → live.Perm live' → Ok s live'
  alloc {s : σ} {live : List Nat} {serial : Nat} : Ok s live → serial < 2 ^ t.uintBits →
    Ensures NoMemory (fun r => Took Ok t ops allocated size serial s live r.1 r.2)
      (ops.alloc size serial s)
  free {s : σ} {live : List Nat} {p : Nat} : Ok s (p :: live) →
    Ensures Never (Gave Ok ops allocated size s live) (ops.free p s)
  liveCount {s : σ} {live : List Nat} : Ok s live → ops.liveCount s = live.length
  teardown {s : σ} {live : List Nat} : Ok s live →
    Ensures Never (fun s' => allocated s' = []) (ops.teardown live s)

/-- A context whose pass is over: nothing is live, no more than `cap` blocks are
allocated, and a teardown gives them back. -/
def Clean (ops : AllocOps σ) (allocated : σ → List Nat) (cap : Nat) (s : σ) : Prop :=
  ops.liveCount s = 0 ∧ (allocated s).length ≤ cap ∧
    Ensures Never (fun s' => allocated s' = []) (ops.teardown [] s)

/-! ## The loops -/

/-- The invariant of a pass over arrays of `cap` entries. -/
structure PassOk {t : Target} {size : Nat} {ops : AllocOps σ} (L : Lawful t size ops) (cap : Nat)
    (w : Pass σ) : Prop where
  ok : L.Ok w.ctx (w.live.map Prod.fst)
  nodes : ∀ x ∈ w.live, nodeCheck t size x.2 x.1 (ops.mem w.ctx) = true
  room : w.live.length ≤ cap
  allocated : (L.allocated w.ctx).length ≤ cap
  serial : w.serial < 2 ^ t.uintBits

namespace Lawful

variable {t : Target} {size cap n : Nat} {ops : AllocOps σ} {w : Pass σ}

theorem start (L : Lawful t size ops) (cap : Nat) (mem : Mem) :
    PassOk L cap ⟨ops.ctxInit size mem, [], 0⟩ where
  ok := (L.init mem).1
  nodes _ hx := absurd hx List.not_mem_nil
  room := Nat.zero_le _
  allocated := by
    rw [(L.init mem).2]
    exact Nat.zero_le _
  serial := Nat.two_pow_pos _

/-- A pass takes a node. -/
theorem take (L : Lawful t size ops) (hsize : BenchSize t size) (h : PassOk L cap w)
    (hroom : w.live.length < cap) :
    Ensures NoMemory (fun w' => PassOk L cap w' ∧ w'.serial = (w.serial + 1) % 2 ^ t.uintBits ∧
      ∃ p, w'.live = w.live ++ [(p, w.serial)]) (w.take t ops size cap) := by
  unfold Pass.take
  rw [if_pos hroom]
  refine (L.alloc h.ok h.serial).map ?_
  intro r htook
  obtain ⟨p, s⟩ := r
  have hallocated := htook.allocated
  have hcap := h.allocated
  rw [List.length_map] at hallocated
  refine ⟨?_, rfl, p, rfl⟩
  exact {
    ok := by
      refine L.perm htook.ok ?_
      simp only [List.map_append, List.map_cons, List.map_nil]
      exact (List.perm_append_singleton p _).symm
    nodes := by
      intro x hx
      rcases List.mem_append.mp hx with hx | hx
      · rw [nodeCheck_congr hsize (htook.keeps x.1 (List.mem_map_of_mem hx))]
        exact h.nodes x hx
      · rw [List.mem_singleton.mp hx]
        exact htook.node
    room := by
      rw [List.length_append, List.length_singleton]
      exact hroom
    allocated := by
      dsimp only at hallocated ⊢
      omega
    serial := Nat.mod_lt _ (Nat.two_pow_pos _) }

/-- A pass gives a node back, after its check. -/
theorem give (L : Lawful t size ops) (hsize : BenchSize t size) (h : PassOk L cap w) {k : Nat}
    (hk : k < w.live.length) :
    Ensures NoMemory (fun w' => PassOk L cap w' ∧ w'.live.length + 1 = w.live.length)
      (w.give t ops size k) := by
  have hperm := swapRemove_perm hk
  have hcheck := h.nodes _ (List.getElem_mem hk)
  unfold Pass.give
  rw [List.getElem?_eq_getElem hk]
  dsimp only
  rw [if_pos hcheck]
  have hok := L.perm h.ok (hperm.map Prod.fst)
  refine ((L.free hok).weaken fun e he => he.elim).map ?_
  intro s hgave
  have hlen := hperm.length_eq
  rw [List.length_cons] at hlen
  have hcap := h.room
  refine ⟨?_, hlen.symm⟩
  exact {
    ok := hgave.ok
    nodes := by
      intro x hx
      rw [nodeCheck_congr hsize (hgave.keeps x.1 (List.mem_map_of_mem hx))]
      exact h.nodes x (hperm.mem_iff.mpr (List.mem_cons_of_mem _ hx))
    room := by
      dsimp only
      omega
    allocated := Nat.le_trans hgave.allocated h.allocated
    serial := h.serial }

/-- `while( live_count > 0)` empties the arrays. -/
theorem drain (L : Lawful t size ops) (hsize : BenchSize t size) (h : PassOk L cap w) :
    Ensures NoMemory (fun w' => PassOk L cap w' ∧ w'.live = []) (w.drain t ops size) := by
  unfold Pass.drain
  refine (Ensures.whileDo (fun w => w.live.length) h ?_ ?_ (Nat.le_refl _)).mono ?_
  · intro w hw hcond
    have hlen := of_decide_eq_true hcond
    refine (L.give hsize hw (by omega)).mono ?_
    intro w' ⟨hw', hlt⟩
    exact ⟨hw', by omega⟩
  · intro w hzero
    exact decide_eq_false (by omega)
  · intro w' ⟨hw', hcond⟩
    have hlen := of_decide_eq_false hcond
    exact ⟨hw', List.eq_nil_of_length_eq_zero (by omega)⟩

/-- A drained pass counts no live node. -/
theorem finish (L : Lawful t size ops) (h : PassOk L cap w) (hnil : w.live = []) :
    Ensures NoMemory (Clean ops L.allocated cap) (w.finish ops) := by
  have hok := h.ok
  rw [hnil] at hok
  have hcount : ops.liveCount w.ctx = 0 := L.liveCount hok
  unfold Pass.finish
  rw [if_neg (fun hne => hne hcount)]
  exact ⟨hcount, h.allocated, L.teardown hok⟩

/-- `random_pass`. -/
theorem randomPass (L : Lawful t size ops) (hsize : BenchSize t size) (rng : UInt32) (mem : Mem) :
    Ensures NoMemory (fun r => Clean ops L.allocated maxLive r.1)
      (randomPass t ops size n rng (ops.ctxInit size mem)) := by
  have hturn : ∀ r : Pass σ × UInt32, PassOk L maxLive r.1 →
      Ensures NoMemory (fun r' => PassOk L maxLive r'.1) (randomTurn t ops size r) := by
    intro x hw
    obtain ⟨w, rng⟩ := x
    have htake : w.live.length < maxLive → ∀ rng : UInt32, Ensures NoMemory
        (fun r' => PassOk L maxLive r'.1)
        ((w.take t ops size maxLive).map fun w => (w, rng)) := by
      intro hroom rng
      exact (L.take hsize hw hroom).map fun w' hw' => hw'.1
    have hgive : w.live.length ≠ 0 → ∀ rng : UInt32, Ensures NoMemory
        (fun r' => PassOk L maxLive r'.1)
        ((w.give t ops size (rng.toNat % w.live.length)).map fun w => (w, rng)) := by
      intro hne rng
      have hk := Nat.mod_lt rng.toNat (Nat.pos_of_ne_zero hne)
      exact (L.give hsize hw hk).map fun w' hw' => hw'.1
    unfold randomTurn
    dsimp only
    by_cases hzero : w.live.length = 0
    · -- nothing to give
      rw [if_pos hzero]
      exact htake (by rw [hzero]; decide) rng
    · rw [if_neg hzero]
      by_cases hroom : w.live.length < maxLive
      · rw [if_pos hroom]
        dsimp only
        split
        next => exact htake hroom _
        next => exact hgive hzero _
      · -- no room to take
        rw [if_neg hroom]
        exact hgive hzero _
  unfold Bench.randomPass
  refine (Ensures.repeatDo (P := fun r => PassOk L maxLive r.1) (L.start maxLive mem) hturn).bind ?_
  intro x hw
  obtain ⟨w, rng'⟩ := x
  refine Ensures.map ((L.drain hsize hw).bind ?_) fun _ hs => hs
  intro w' ⟨hw', hnil⟩
  exact L.finish hw' hnil

/-- `lifo_pass`. -/
theorem lifoPass (L : Lawful t size ops) (hsize : BenchSize t size) (mem : Mem) :
    Ensures NoMemory (Clean ops L.allocated depth)
      (lifoPass t ops size n (ops.ctxInit size mem)) := by
  have hturn : ∀ w : Pass σ, PassOk L depth w →
      Ensures NoMemory (PassOk L depth) (lifoTurn t ops size w) := by
    intro w hw
    unfold lifoTurn
    split
    next hzero =>
      -- the stack is filled, and the loop ends when it is full
      refine (Ensures.whileDo (fun w => depth - w.live.length) hw ?_ ?_ (Nat.sub_le _ _)).mono
        fun _ h => h.1
      · intro w hw hcond
        have hroom := of_decide_eq_true hcond
        refine (L.take hsize hw hroom).mono ?_
        intro w' hturn
        obtain ⟨hw', -, p, hlive⟩ := hturn
        refine ⟨hw', ?_⟩
        rw [hlive, List.length_append, List.length_singleton]
        omega
      · intro w hfull
        exact decide_eq_false (by omega)
    next hne => exact (L.give hsize hw (by omega)).mono fun _ h => h.1
  unfold Bench.lifoPass
  refine (Ensures.repeatDo (L.start depth mem) hturn).bind ?_
  intro w hw
  refine (L.drain hsize hw).bind ?_
  intro w' ⟨hw', hnil⟩
  exact L.finish hw' hnil

/-- The serials of a growing pass are the indices of its array. -/
def InOrder (t : Target) (w : Pass σ) : Prop :=
  w.serial = w.live.length % 2 ^ t.uintBits ∧
    ∀ i (h : i < w.live.length), (w.live[i]).2 = i % 2 ^ t.uintBits

/-- `growth_pass`, up to the teardown. -/
theorem growth (L : Lawful t size ops) (hsize : BenchSize t size) (mem : Mem) :
    Ensures NoMemory (fun w => w.live.length = n ∧ L.Ok w.ctx (w.live.map Prod.fst) ∧
      (L.allocated w.ctx).length ≤ n) (growth t ops size n (ops.ctxInit size mem)) := by
  have hturn : ∀ w : Pass σ, PassOk L n w ∧ InOrder t w → w.live.length < n →
      Ensures NoMemory (fun w' => (PassOk L n w' ∧ InOrder t w') ∧
        w'.live.length = w.live.length + 1) (w.take t ops size n) := by
    intro w hpass hroom
    obtain ⟨hw, hserial, horder⟩ := hpass
    refine (L.take hsize hw hroom).mono ?_
    intro w' hturn
    obtain ⟨hw', hnext, p, hlive⟩ := hturn
    have hlen : w'.live.length = w.live.length + 1 := by
      rw [hlive, List.length_append, List.length_singleton]
    refine ⟨⟨hw', ?_, ?_⟩, hlen⟩
    · rw [hnext, hserial, hlen, Nat.mod_add_mod]
    · intro i hi
      simp only [hlive]
      rcases Nat.lt_or_ge i w.live.length with hlt | hge
      · rw [List.getElem_append_left hlt]
        exact horder i hlt
      · obtain rfl : i = w.live.length := by omega
        rw [List.getElem_append_right (Nat.le_refl _)]
        simpa using hserial
  have hstart : PassOk L n ⟨ops.ctxInit size mem, [], 0⟩ ∧
      InOrder t (⟨ops.ctxInit size mem, [], 0⟩ : Pass σ) :=
    ⟨L.start n mem, (Nat.zero_mod _).symm, fun i hi => absurd hi (Nat.not_lt_zero i)⟩
  unfold Bench.growth
  refine (Ensures.repeatDo_count (P := fun w => PassOk L n w ∧ InOrder t w)
    (fun w => w.live.length) hstart (Nat.zero_add n) hturn).bind ?_
  intro w hpass
  obtain ⟨⟨hw, -, horder⟩, hlen⟩ := hpass
  have hcount : ops.liveCount w.ctx = n := by
    rw [L.liveCount hw.ok, List.length_map, hlen]
  have hall : ((List.range n).all fun i => nodeCheck t size (i % 2 ^ t.uintBits)
      (w.live.getD i (0, 0)).1 (ops.mem w.ctx)) = true := by
    rw [List.all_eq_true]
    intro i hi
    have hi' : i < w.live.length := by
      rw [hlen]
      exact List.mem_range.mp hi
    have hnode := hw.nodes _ (List.getElem_mem hi')
    rw [horder i hi'] at hnode
    rwa [List.getD_eq_getElem?_getD, List.getElem?_eq_getElem hi', Option.getD_some]
  rw [if_neg (fun hne => hne hcount), if_pos hall]
  exact ⟨hlen, hw.ok, hw.allocated⟩

end Lawful

end MulleStorage.Bench
