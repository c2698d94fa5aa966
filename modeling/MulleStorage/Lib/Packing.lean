import Mathlib.Algebra.Ring.Nat
import Mathlib.Order.Interval.Finset.Nat
import MulleStorage.Lib.Memory

/-!
# Regions that share an address space

Disjoint regions below an address are no longer than that address, all together.
So there are not many of them when each has some size.
-/

namespace MulleStorage.Lib

namespace Region

variable {l : List Region} {limit size : Nat}

/-- The addresses of disjoint regions, counted. -/
theorem exists_addresses (h : l.Pairwise Disjoint) :
    ∃ A : Finset Nat, A.card = (l.map Region.size).sum ∧ ∀ a, a ∈ A ↔ ∃ r ∈ l, r.Has a := by
  induction l with
  | nil => exact ⟨∅, rfl, by simp⟩
  | cons r l ih =>
    obtain ⟨hr, hl⟩ := List.pairwise_cons.mp h
    obtain ⟨A, hcard, hmem⟩ := ih hl
    have hown : ∀ a, a ∈ Finset.Ico r.base (r.base + r.size) ↔ r.Has a := fun a => Finset.mem_Ico
    refine ⟨Finset.Ico r.base (r.base + r.size) ∪ A, ?_, ?_⟩
    · rw [Finset.card_union_of_disjoint, Nat.card_Ico, hcard, List.map_cons, List.sum_cons,
        Nat.add_sub_cancel_left]
      refine Finset.disjoint_left.mpr ?_
      intro a ha hA
      obtain ⟨q, hq, hhas⟩ := (hmem a).mp hA
      exact (hr q hq).not_has ((hown a).mp ha) hhas
    · intro a
      rw [Finset.mem_union, hown, hmem]
      simp

/-- **Packing.** Disjoint regions below `limit` fit into it. -/
theorem sum_size_le (h : l.Pairwise Disjoint) (hlimit : ∀ r ∈ l, r.base + r.size ≤ limit) :
    (l.map Region.size).sum ≤ limit := by
  obtain ⟨A, hcard, hmem⟩ := exists_addresses h
  have hsub : A ⊆ Finset.range limit := by
    intro a ha
    obtain ⟨r, hr, -, hlt⟩ := (hmem a).mp ha
    exact Finset.mem_range.mpr (Nat.lt_of_lt_of_le hlt (hlimit r hr))
  have hle := Finset.card_le_card hsub
  rwa [hcard, Finset.card_range] at hle

/-- Regions of at least `size` bytes, counted. -/
theorem length_mul_le_sum (hsize : ∀ r ∈ l, size ≤ r.size) :
    l.length * size ≤ (l.map Region.size).sum := by
  induction l with
  | nil => exact Nat.le_of_eq (Nat.zero_mul size)
  | cons r l ih =>
    have hr := hsize r List.mem_cons_self
    have hl := ih fun q hq => hsize q (List.mem_cons_of_mem r hq)
    rw [List.length_cons, List.map_cons, List.sum_cons, Nat.succ_mul]
    omega

end Region

end MulleStorage.Lib
