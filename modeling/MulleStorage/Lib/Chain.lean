import MulleStorage.Lib.Memory

/-!
# A list threaded through its own nodes

The first word of each node holds the address of the next one, and 0 ends the
list: a free list that needs no memory of its own. `Chain m w p nodes` says that
in the memory `m`, with words of `w` bytes, the list from `p` is `nodes`.

Whoever writes to memory must leave the first words of the nodes alone
(`Chain.frame`); a node that is written to anyway is pushed on by the list
itself (`Chain.push`), or popped off before.
-/

namespace MulleStorage.Lib

/-- The list from `p` on, threaded through the first words of its nodes. -/
def Chain (m : Mem) (w : Nat) : Nat → List Nat → Prop
  | p, [] => p = 0
  | p, q :: nodes => p = q ∧ q ≠ 0 ∧ Chain m w (loadWord m q w) nodes

namespace Chain

variable {m m' : Mem} {w p q : Nat} {nodes : List Nat}

/-- An empty list starts at 0, -/
theorem eq_nil (h : Chain m w 0 nodes) : nodes = [] := by
  cases nodes with
  | nil => rfl
  | cons q nodes => exact absurd h.1.symm h.2.1

/-- and any other at its first node, whose word is the rest. -/
theorem eq_cons (h : Chain m w p nodes) (hp : p ≠ 0) :
    ∃ rest, nodes = p :: rest ∧ Chain m w (loadWord m p w) rest := by
  cases nodes with
  | nil => exact absurd h hp
  | cons q rest =>
    obtain ⟨rfl, -, hrest⟩ := h
    exact ⟨rest, rfl, hrest⟩

/-- The list survives every change that spares its words. -/
theorem frame (h : Chain m w p nodes)
    (hm : ∀ q ∈ nodes, ∀ i, i < w → m' (q + i) = m (q + i)) : Chain m' w p nodes := by
  induction nodes generalizing p with
  | nil => exact h
  | cons q nodes ih =>
    obtain ⟨hp, hq, hrest⟩ := h
    refine ⟨hp, hq, ?_⟩
    rw [loadWord_congr (hm q List.mem_cons_self)]
    exact ih hrest fun q' hq' => hm q' (List.mem_cons_of_mem q hq')

/-- Pushing a node: its word takes the old first node. -/
theorem push (h : Chain m w p nodes) (hq : q ≠ 0) (hp : p < 256 ^ w)
    (hapart : ∀ q' ∈ nodes, Region.Disjoint ⟨q', w⟩ ⟨q, w⟩) :
    Chain (blit m q w (wordByte p)) w q (q :: nodes) := by
  refine ⟨rfl, hq, ?_⟩
  rw [loadWord_blit hp]
  refine h.frame fun q' hq' i hi => blit_not_has ?_
  exact (hapart q' hq').not_has ⟨Nat.le_add_right _ _, Nat.add_lt_add_left hi _⟩

end Chain

end MulleStorage.Lib
