import Mathlib.Data.List.Forall2
import Mathlib.Data.List.Nodup
import Mathlib.Data.List.Perm.Subperm

/-!
# A stock of nodes, numbered as they come

A pool hands out the node given back last, and obtains a new one when it has
none. Number the nodes in the order they were obtained, and all such pools are
one machine, `Stock`: how many nodes there are, and a stack of the numbers given
back. What a pool shows its client at each request is then a function of the
requests alone (`Stock.after`).

An implementation has its own names for nodes. `Numbered nodes stack st` says
that it is in the state `st`: `nodes` are the names in the order obtained, and
`stack` the names given back, the last one first. There is one rule for each
thing that can happen: `take_new`, `take_again`, `give`.
-/

namespace MulleStorage.Lib

/-- A request to a pool, by number. -/
inductive Ask
  | take
  | give (k : Nat)
  deriving DecidableEq, Repr

/-- What a pool shows for a request: the number it hands out, how many nodes it
has obtained so far, and how many of them are live. -/
structure Shown where
  number : Option Nat
  obtained : Nat
  live : Nat
  deriving DecidableEq, Repr

/-- The number of nodes obtained, and those given back, the last one first. -/
structure Stock where
  count : Nat
  freed : List Nat
  deriving DecidableEq, Repr

namespace Stock

/-- Nothing obtained. -/
def empty : Stock := ⟨0, []⟩

/-- The number of live nodes. -/
def live (st : Stock) : Nat := st.count - st.freed.length

/-- The node `k` is live. -/
def Holds (st : Stock) (k : Nat) : Prop := k < st.count ∧ k ∉ st.freed

/-- Only live nodes are given back. -/
def Admits (st : Stock) : Ask → Prop
  | .take => True
  | .give k => st.Holds k

/-- The answer to a request, and the stock after it. -/
def serve (st : Stock) : Ask → Option Nat × Stock
  | .take =>
    match st.freed with
    | [] => (some st.count, ⟨st.count + 1, []⟩)
    | k :: freed => (some k, ⟨st.count, freed⟩)
  | .give k => (none, ⟨st.count, k :: st.freed⟩)

/-- What is shown for a request. -/
def shown (st : Stock) (a : Ask) : Shown :=
  ⟨(st.serve a).1, (st.serve a).2.count, (st.serve a).2.live⟩

/-- The stock after some requests, and what was shown for each of them. -/
def after (l : List Ask) : Stock × List Shown :=
  l.foldl (fun x a => ((x.1.serve a).2, x.2 ++ [x.1.shown a])) (empty, [])

theorem after_snoc (l : List Ask) (a : Ask) :
    after (l ++ [a]) = (((after l).1.serve a).2, (after l).2 ++ [(after l).1.shown a]) := by
  simp [after, List.foldl_append]

end Stock

/-- An entry, looked up with a default. -/
theorem getD_of_getElem? {α : Type} {l : List α} {k : Nat} {x d : α} (h : l[k]? = some x) :
    l.getD k d = x := by
  rw [List.getD_eq_getElem?_getD, h, Option.getD_some]

/-- The nodes obtained are distinct, and those given back are the ones whose
numbers the stock has. -/
structure Numbered {α : Type} (nodes stack : List α) (st : Stock) : Prop where
  nodup : nodes.Nodup
  count : st.count = nodes.length
  freed : st.freed.Nodup
  stack : List.Forall₂ (fun p k => nodes[k]? = some p) stack st.freed

namespace Numbered

variable {α : Type} {nodes stack : List α} {st : Stock} {p : α} {k : Nat}

theorem empty : Numbered ([] : List α) [] .empty := ⟨.nil, rfl, .nil, .nil⟩

/-- A live number names a node. -/
theorem exists_node (h : Numbered nodes stack st) (hk : st.Holds k) : ∃ p, nodes[k]? = some p :=
  ⟨_, List.getElem?_eq_getElem (h.count ▸ hk.1)⟩

/-- The numbers on the stack are numbers of nodes. -/
theorem lt_count (h : Numbered nodes stack st) (hk : k ∈ st.freed) : k < st.count := by
  obtain ⟨count, freed⟩ := st
  obtain ⟨-, hcount, -, hstack⟩ := h
  dsimp only at hk hcount hstack ⊢
  rw [hcount]
  clear hcount
  induction hstack with
  | nil => exact absurd hk List.not_mem_nil
  | cons hj _ ih =>
    rcases List.mem_cons.mp hk with rfl | hk
    · exact (List.getElem?_eq_some_iff.mp hj).1
    · exact ih hk

/-- The node of a number on the stack was given back. -/
theorem mem_of_freed (h : Numbered nodes stack st) (hk : k ∈ st.freed) (hp : nodes[k]? = some p) :
    p ∈ stack := by
  obtain ⟨count, freed⟩ := st
  obtain ⟨-, -, -, hstack⟩ := h
  dsimp only at hk hstack
  induction hstack with
  | nil => exact absurd hk List.not_mem_nil
  | cons hj _ ih =>
    rcases List.mem_cons.mp hk with rfl | hk
    · rw [Option.some.inj (hp.symm.trans hj)]
      exact List.mem_cons_self
    · exact List.mem_cons_of_mem _ (ih hk)

theorem length_le (h : Numbered nodes stack st) : st.freed.length ≤ st.count := by
  have hsub : st.freed.Subperm (List.range st.count) :=
    h.freed.subperm fun k hk => List.mem_range.mpr (h.lt_count hk)
  have hlen := hsub.length_le
  rwa [List.length_range] at hlen

/-- The live nodes are those that were not given back. -/
theorem live_eq (h : Numbered nodes stack st) : st.live + stack.length = nodes.length := by
  have hle := h.length_le
  have hlen := h.stack.length_eq
  have hcount := h.count
  unfold Stock.live
  omega

/-- What is shown is read off an implementation that counts its live nodes. -/
theorem shown_eq {a : Ask} {n : Nat} (h : Numbered nodes stack (st.serve a).2)
    (hn : n = (st.serve a).2.live) : st.shown a = ⟨(st.serve a).1, nodes.length, n⟩ := by
  rw [Stock.shown, h.count, hn]

/-- **A live node** is given back. -/
theorem give (h : Numbered nodes stack st) (hk : st.Holds k) (hp : nodes[k]? = some p) :
    Numbered nodes (p :: stack) (st.serve (.give k)).2 where
  nodup := h.nodup
  count := h.count
  freed := List.nodup_cons.mpr ⟨hk.2, h.freed⟩
  stack := .cons hp h.stack

variable [DecidableEq α]

/-- The number of a node is where it stands among those obtained. -/
theorem number_eq (hnodup : nodes.Nodup) (hk : nodes[k]? = some p) : nodes.idxOf p = k := by
  obtain ⟨hlt, rfl⟩ := List.getElem?_eq_some_iff.mp hk
  exact hnodup.idxOf_getElem k hlt

/-- The numbers on the stack, read off the names. -/
theorem numbers_eq (h : Numbered nodes stack st) :
    stack.map (fun p => nodes.idxOf p) = st.freed := by
  obtain ⟨count, freed⟩ := st
  obtain ⟨hnodup, -, -, hstack⟩ := h
  dsimp only at hstack ⊢
  induction hstack with
  | nil => rfl
  | cons hk _ ih => rw [List.map_cons, ih, number_eq hnodup hk]

/-- What was given back is one of the nodes, and its number is on the stack. -/
theorem mem_stack (h : Numbered nodes stack st) (hp : p ∈ stack) :
    p ∈ nodes ∧ nodes.idxOf p ∈ st.freed := by
  obtain ⟨count, freed⟩ := st
  obtain ⟨hnodup, -, -, hstack⟩ := h
  dsimp only at hstack ⊢
  induction hstack with
  | nil => exact absurd hp List.not_mem_nil
  | cons hk _ ih =>
    rcases List.mem_cons.mp hp with rfl | hp
    · rw [number_eq hnodup hk]
      exact ⟨List.mem_of_getElem? hk, List.mem_cons_self⟩
    · exact ⟨(ih hp).1, List.mem_cons_of_mem _ (ih hp).2⟩

/-- A live node is none of those given back. -/
theorem not_mem_stack (h : Numbered nodes stack st) (hk : st.Holds k) (hp : nodes[k]? = some p) :
    p ∉ stack := by
  intro hmem
  have hfreed := (h.mem_stack hmem).2
  rw [number_eq h.nodup hp] at hfreed
  exact hk.2 hfreed

/-- No node is given back twice. -/
theorem head_not_mem (h : Numbered nodes (p :: stack) st) : p ∉ stack := by
  obtain ⟨count, freed⟩ := st
  obtain ⟨hnodup, hcount, hfreed, hstack⟩ := h
  obtain ⟨k, rest, hk, hrest, rfl⟩ := List.forall₂_cons_left_iff.mp hstack
  obtain ⟨hnot, hnodup'⟩ := List.nodup_cons.mp hfreed
  have hholds : Stock.Holds ⟨count, rest⟩ k :=
    ⟨hcount ▸ (List.getElem?_eq_some_iff.mp hk).1, hnot⟩
  have hbelow : Numbered nodes stack ⟨count, rest⟩ := ⟨hnodup, hcount, hnodup', hrest⟩
  exact hbelow.not_mem_stack hholds hk

/-- **Nothing to recycle**: a new node gets the next number. -/
theorem take_new (h : Numbered nodes [] st) (hp : p ∉ nodes) :
    (st.serve .take).1 = some ((nodes ++ [p]).idxOf p) ∧
    Numbered (nodes ++ [p]) [] (st.serve .take).2 := by
  obtain ⟨count, freed⟩ := st
  obtain ⟨hnodup, hcount, -, hstack⟩ := h
  obtain rfl : freed = [] := List.forall₂_nil_left_iff.mp hstack
  have hnodup' : (nodes ++ [p]).Nodup := by
    refine List.nodup_append.mpr ⟨hnodup, List.nodup_singleton p, ?_⟩
    rintro a ha b hb rfl
    exact hp (List.mem_singleton.mp hb ▸ ha)
  have hlast : (nodes ++ [p])[nodes.length]? = some p := by simp
  refine ⟨?_, hnodup', ?_, .nil, .nil⟩
  · rw [number_eq hnodup' hlast, ← hcount]
    rfl
  · show count + 1 = (nodes ++ [p]).length
    rw [List.length_append, ← hcount]
    rfl

/-- **The node given back last** is handed out again. -/
theorem take_again (h : Numbered nodes (p :: stack) st) :
    (st.serve .take).1 = some (nodes.idxOf p) ∧ Numbered nodes stack (st.serve .take).2 := by
  obtain ⟨count, freed⟩ := st
  obtain ⟨hnodup, hcount, hfreed, hstack⟩ := h
  obtain ⟨k, rest, hk, hrest, rfl⟩ := List.forall₂_cons_left_iff.mp hstack
  rw [number_eq hnodup hk]
  exact ⟨rfl, hnodup, hcount, (List.nodup_cons.mp hfreed).2, hrest⟩

end Numbered

end MulleStorage.Lib
