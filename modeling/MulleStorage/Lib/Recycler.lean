import Mathlib.Data.List.Nodup
import Mathlib.Data.List.Perm.Basic

/-!
# Recycling a growing stock of items

A pool hands out items from a stock that only grows: an item that is given back
goes on a stack of freed ones, and is handed out again before a new one is
reserved. `Shared items freed live` is the bookkeeping every such pool keeps:
the reserved items are distinct, and the freed and the live ones share them out
between them, each item once.

The three moves that keep it are `reserve`, `recycle` and `release`. What the
items are — addresses, indices, tickets — does not matter.
-/

namespace MulleStorage.Lib

variable {α : Type}

/-- `freed` and `live` share the reserved `items` out between them. -/
structure Shared (items freed live : List α) : Prop where
  nodup : items.Nodup
  perm : items.Perm (freed ++ live)

variable {items freed live : List α} {x : α}

namespace Shared

theorem nil : Shared ([] : List α) [] [] := ⟨.nil, .nil⟩

theorem nodup_append (h : Shared items freed live) : (freed ++ live).Nodup :=
  h.perm.nodup_iff.mp h.nodup

/-- No item is on the stack twice. -/
theorem freed_nodup (h : Shared items freed live) : freed.Nodup :=
  (List.nodup_append.mp h.nodup_append).1

/-- A live item is not on the stack of freed ones. -/
theorem not_live (h : Shared items freed live) (hx : x ∈ freed) : x ∉ live :=
  fun hl => (List.nodup_append.mp h.nodup_append).2.2 x hx x hl rfl

theorem mem_iff (h : Shared items freed live) : x ∈ items ↔ x ∈ freed ∨ x ∈ live := by
  rw [h.perm.mem_iff, List.mem_append]

theorem mem_of_live (h : Shared items freed live) (hx : x ∈ live) : x ∈ items :=
  h.mem_iff.mpr (Or.inr hx)

theorem length_eq (h : Shared items freed live) : items.length = freed.length + live.length := by
  rw [h.perm.length_eq, List.length_append]

/-- A new item is reserved and handed out. -/
theorem reserve (h : Shared items freed live) (hx : x ∉ items) :
    Shared (items ++ [x]) freed (x :: live) where
  nodup := by
    refine List.nodup_append.mpr ⟨h.nodup, List.nodup_singleton x, ?_⟩
    rintro a ha b hb rfl
    exact hx (List.mem_singleton.mp hb ▸ ha)
  perm := (List.perm_append_singleton x items).trans ((h.perm.cons x).trans List.perm_middle.symm)

/-- The item on top of the stack is handed out again. -/
theorem recycle (h : Shared items (freed ++ [x]) live) : Shared items freed (x :: live) where
  nodup := h.nodup
  perm := h.perm.trans (by rw [List.append_assoc]; exact .refl _)

/-- A live item goes on the stack. -/
theorem release [DecidableEq α] (h : Shared items freed live) (hx : x ∈ live) :
    Shared items (freed ++ [x]) (live.erase x) where
  nodup := h.nodup
  perm := h.perm.trans (by
    rw [List.append_assoc]
    exact (List.perm_cons_erase hx).append_left freed)

end Shared

end MulleStorage.Lib
