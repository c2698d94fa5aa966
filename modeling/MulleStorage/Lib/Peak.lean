import Mathlib.Order.Bounds.Basic
import MulleStorage.Lib.Recycler
import MulleStorage.Lib.Run

/-!
# The peak of a measure along a run

A run passes through the states its prefixes lead to; a call leaves one state at
most, so each prefix leads to one (`Reach.unique`). `passed` collects the values
a measure takes in these states. A second measure that only follows the first
one up is always the greatest of the values passed, as soon as every step takes
it to the maximum of the two (`Reach.highWater`).

`Shared.follows` is that fact about a stock that recycles, with the number of
live items as the first measure and the number of reserved ones as the second:
a stock grows only when nothing is freed.
-/

namespace MulleStorage.Lib

variable {S C : Type} {step : S → C → Option S} {ok : S → C → Prop} {init : S}

/-- The same calls lead to the same state. -/
theorem Reach.unique {l : List C} {s s' : S} (h : Reach step ok init l s)
    (h' : Reach step ok init l s') : s = s' := by
  induction h generalizing s' with
  | nil =>
    generalize hl : ([] : List C) = l at h'
    cases h' with
    | nil => rfl
    | snoc => simp at hl
  | @snoc l₁ s₁ s₂ c _ _ hs ih =>
    generalize hl : l₁ ++ [c] = l at h'
    cases h' with
    | nil => simp at hl
    | snoc h₁' _ hs' =>
      obtain ⟨rfl, hc⟩ := List.append_inj' hl rfl
      cases hc
      cases ih h₁'
      exact Option.some.inj (hs.symm.trans hs')

/-- The values of `f` in the states the run `l` passes through, its first and
its last one included. -/
def passed (step : S → C → Option S) (ok : S → C → Prop) (init : S) (f : S → Nat) (l : List C) :
    Set Nat :=
  {n | ∃ l₁ s₁, l₁ <+: l ∧ Reach step ok init l₁ s₁ ∧ f s₁ = n}

variable {f g : S → Nat} {l : List C} {s s' : S} {c : C}

theorem passed_nil : passed step ok init f [] = {f init} := by
  ext n
  constructor
  · rintro ⟨l₁, s₁, hl, hs, rfl⟩
    cases List.prefix_nil.mp hl
    rw [hs.unique .nil]
    rfl
  · rintro rfl
    exact ⟨[], init, List.prefix_refl _, .nil, rfl⟩

/-- One more call passes through one more state. -/
theorem passed_snoc (h : Reach step ok init l s) (hok : ok s c) (hs : step s c = some s') :
    passed step ok init f (l ++ [c]) = insert (f s') (passed step ok init f l) := by
  ext n
  constructor
  · rintro ⟨l₁, s₁, hl, hs₁, rfl⟩
    rcases List.prefix_concat_iff.mp hl with rfl | hl
    · rw [hs₁.unique (h.snoc hok hs)]
      exact Set.mem_insert _ _
    · exact Set.mem_insert_of_mem _ ⟨l₁, s₁, hl, hs₁, rfl⟩
  · rintro (rfl | ⟨l₁, s₁, hl, hs₁, rfl⟩)
    · exact ⟨l ++ [c], s', List.prefix_refl _, h.snoc hok hs, rfl⟩
    · exact ⟨l₁, s₁, hl.trans (List.prefix_append _ _), hs₁, rfl⟩

/-- `g` goes no further than `f` takes it, and a step at a time. -/
structure Follows (f g : S → Nat) (s s' : S) : Prop where
  max_eq : g s' = max (f s') (g s)
  le_succ : g s' ≤ g s + 1

/-- After the run `l`, which led to `s`, `g` is the greatest value of `f` so far,
and a further call adds one to it exactly when it takes `f` above that. -/
structure HighWater (step : S → C → Option S) (ok : S → C → Prop) (init : S) (f g : S → Nat)
    (l : List C) (s : S) : Prop where
  greatest : IsGreatest (passed step ok init f l) (g s)
  grows : ∀ c s', ok s c → step s c = some s' →
    (g s' = g s + 1 ↔ ∀ n ∈ passed step ok init f l, n < f s') ∧ (g s' = g s ∨ g s' = g s + 1)

/-- **Run rule.** A measure that follows another one is its peak. -/
theorem Reach.highWater {P : S → Prop} (hinv : ∀ {l s}, Reach step ok init l s → P s)
    (hstart : g init = f init)
    (hstep : ∀ {s c s'}, P s → ok s c → step s c = some s' → Follows f g s s')
    (h : Reach step ok init l s) : HighWater step ok init f g l s := by
  have hgreatest : IsGreatest (passed step ok init f l) (g s) := by
    induction h with
    | nil =>
      rw [passed_nil, hstart]
      exact isGreatest_singleton
    | snoc hl hok hs ih =>
      rw [passed_snoc hl hok hs, (hstep (hinv hl) hok hs).max_eq]
      exact ih.insert _
  refine ⟨hgreatest, ?_⟩
  intro c s' hok hs
  have hfollows := hstep (hinv h) hok hs
  have hmax := hfollows.max_eq
  have hle := hfollows.le_succ
  -- above all values passed is above the greatest of them
  have habove : (∀ n ∈ passed step ok init f l, n < f s') ↔ g s < f s' :=
    ⟨fun hall => hall _ hgreatest.1, fun hlt n hn => Nat.lt_of_le_of_lt (hgreatest.2 hn) hlt⟩
  rw [habove]
  omega

/-- A stock that grows only when nothing is left on the stack. -/
theorem Shared.follows {α : Type} {items items' freed' live' : List α}
    (h' : Shared items' freed' live')
    (hgrow : items'.length = items.length ∨
      freed' = [] ∧ items'.length = items.length + 1) :
    items'.length = max live'.length items.length ∧ items'.length ≤ items.length + 1 := by
  have hlen := h'.length_eq
  rcases hgrow with hsame | ⟨rfl, hmore⟩
  · omega
  · rw [List.length_nil] at hlen
    omega

end MulleStorage.Lib
