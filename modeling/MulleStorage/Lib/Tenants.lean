import Mathlib.Logic.Function.Basic
import MulleStorage.Lib.Memory
import MulleStorage.Lib.Run

/-!
# Tenants of one memory

Several components, of different kinds, share a memory and know nothing of each
other. A `Tenant` is one of them, with its view of that memory: the bytes it
owns, and for each call the bytes it is given for it. What makes neighbours get
along is local to each (`Settled`): a call changes only bytes the tenant owns or
is given, and its invariant does not depend on any others.

`Company.step` lets the tenants take turns, in any order, with stores of somebody
else in between. The rule is that of rely and guarantee:

> `Company.run`: when no tenant is given what another one owns, and somebody
> else stores into no tenant's bytes, every tenant keeps its invariant, and no
> byte has two owners.
-/

namespace MulleStorage.Lib

/-- A component of states `S` and calls `C`, and its view of the memory it shares. -/
structure Tenant (S C : Type) where
  mem : S → Mem
  /-- The component, with memory changed behind its back. -/
  withMem : Mem → S → S
  owns : S → Nat → Prop
  /-- The bytes that become the component's for a call, or are changed for it. -/
  given : S → C → Nat → Prop
  step : S → C → Option S
  ok : S → C → Prop
  mem_withMem : ∀ m s, mem (withMem m s) = m
  owns_withMem : ∀ m s a, owns (withMem m s) a ↔ owns s a

/-- `I` is an invariant of the tenant that it keeps among neighbours. -/
structure Tenant.Settled {S C : Type} (T : Tenant S C) (I : S → Prop) : Prop where
  keeps : ∀ {s c s'}, I s → T.ok s c → T.step s c = some s' → I s'
  takes : ∀ {s c s'}, I s → T.ok s c → T.step s c = some s' →
    ∀ a, T.owns s' a → T.owns s a ∨ T.given s c a
  confined : ∀ {s c s'}, I s → T.ok s c → T.step s c = some s' →
    ∀ a, ¬ T.owns s a → ¬ T.given s c a → T.mem s' a = T.mem s a
  relies : ∀ {s m}, I s → (∀ a, T.owns s a → m a = T.mem s a) → I (T.withMem m s)

variable {ι : Type} {S C : ι → Type}

/-- What happens next: a call of one tenant, or a store of somebody else. -/
inductive Act (C : ι → Type)
  | call (i : ι) (c : C i)
  | store (p : Nat) (bytes : List UInt8)

namespace Company

variable [DecidableEq ι]

/-- Everybody sees what happened to memory. -/
def step (T : ∀ i, Tenant (S i) (C i)) (s : ∀ i, S i) : Act C → Option (∀ i, S i)
  | .call i c => ((T i).step (s i) c).map fun s' =>
      Function.update (fun j => (T j).withMem ((T i).mem s') (s j)) i s'
  | .store p bytes => some fun j =>
      (T j).withMem (blit ((T j).mem (s j)) p bytes.length fun i => bytes.getD i 0) (s j)

/-- A tenant is given nothing that another one owns; somebody else stores into
bytes that no tenant owns. -/
def Ok (T : ∀ i, Tenant (S i) (C i)) (s : ∀ i, S i) : Act C → Prop
  | .call i c => (T i).ok (s i) c ∧ ∀ j, j ≠ i → ∀ a, (T i).given (s i) c a → ¬ (T j).owns (s j) a
  | .store p bytes => ∀ j a, p ≤ a → a < p + bytes.length → ¬ (T j).owns (s j) a

/-- The tenants keep their invariants, one memory, and what is theirs. -/
structure Peace (T : ∀ i, Tenant (S i) (C i)) (I : ∀ i, S i → Prop) (s : ∀ i, S i) : Prop where
  each : ∀ i, I i (s i)
  shared : ∀ i j, (T i).mem (s i) = (T j).mem (s j)
  apart : ∀ i j, i ≠ j → ∀ a, (T i).owns (s i) a → ¬ (T j).owns (s j) a

variable {T : ∀ i, Tenant (S i) (C i)} {I : ∀ i, S i → Prop} {s s' : ∀ i, S i}

/-- **Frame.** Nobody touches what is another tenant's. -/
theorem frame (hset : ∀ i, (T i).Settled (I i)) (h : Peace T I s) {x : Act C} (hok : Ok T s x)
    (hs : step T s x = some s') {j : ι} (hj : ∀ i c, x = .call i c → j ≠ i) {a : Nat}
    (ha : (T j).owns (s j) a) : (T j).mem (s' j) a = (T j).mem (s j) a := by
  cases x with
  | call i c =>
    obtain ⟨si, hsi, rfl⟩ := Option.map_eq_some_iff.mp hs
    have hne : j ≠ i := hj i c rfl
    have hfar : ¬ (T i).owns (s i) a := h.apart j i hne a ha
    have hnot : ¬ (T i).given (s i) c a := fun hg => hok.2 j hne a hg ha
    rw [Function.update_of_ne hne, (T j).mem_withMem,
      (hset i).confined (h.each i) hok.1 hsi a hfar hnot, h.shared i j]
  | store p bytes =>
    cases hs
    rw [(T j).mem_withMem]
    refine blit_outside ?_
    have hfree := hok j a
    by_contra hin
    exact hfree (by omega) (by omega) ha

/-- **Step.** A legal act leaves the peace. -/
theorem peace_step (hset : ∀ i, (T i).Settled (I i)) (h : Peace T I s) {x : Act C}
    (hok : Ok T s x) (hs : step T s x = some s') : Peace T I s' := by
  have hframe := fun {j} => frame hset h hok hs (j := j)
  cases x with
  | call i c =>
    obtain ⟨si, hsi, rfl⟩ := Option.map_eq_some_iff.mp hs
    generalize hs' : Function.update (fun j => (T j).withMem ((T i).mem si) (s j)) i si = s' at *
    have hself : s' i = si := by
      rw [← hs', Function.update_self]
    have hother : ∀ j, j ≠ i → s' j = (T j).withMem ((T i).mem si) (s j) := by
      intro j hji
      rw [← hs', Function.update_of_ne hji]
    have hmem : ∀ j, (T j).mem (s' j) = (T i).mem si := by
      intro j
      by_cases hji : j = i
      · subst hji
        rw [hself]
      · rw [hother j hji, (T j).mem_withMem]
    -- what the caller owns now was its own, or is given to it
    have hfar : ∀ j, j ≠ i → ∀ a, (T i).owns si a → ¬ (T j).owns (s j) a := by
      intro j hne a ha
      rcases (hset i).takes (h.each i) hok.1 hsi a ha with hold | hnew
      · exact h.apart i j (Ne.symm hne) a hold
      · exact hok.2 j hne a hnew
    refine ⟨?_, fun j k => (hmem j).trans (hmem k).symm, ?_⟩
    · intro j
      by_cases hji : j = i
      · subst hji
        rw [hself]
        exact (hset j).keeps (h.each j) hok.1 hsi
      · rw [hother j hji]
        refine (hset j).relies (h.each j) ?_
        intro a ha
        have hkept := hframe (j := j) (fun i' c' heq => by cases heq; exact hji) ha
        rwa [hmem j] at hkept
    · intro j k hjk a hj hk
      by_cases hji : j = i
      · subst hji
        rw [hself] at hj
        rw [hother k (Ne.symm hjk), (T k).owns_withMem] at hk
        exact hfar k (Ne.symm hjk) a hj hk
      · rw [hother j hji, (T j).owns_withMem] at hj
        by_cases hki : k = i
        · subst hki
          rw [hself] at hk
          exact hfar j hji a hk hj
        · rw [hother k hki, (T k).owns_withMem] at hk
          exact h.apart j k hjk a hj hk
  | store p bytes =>
    cases hs
    refine ⟨?_, ?_, ?_⟩
    · intro j
      refine (hset j).relies (h.each j) ?_
      intro a ha
      have hkept := hframe (j := j) (fun i c heq => by cases heq) ha
      rwa [(T j).mem_withMem] at hkept
    · intro j k
      rw [(T j).mem_withMem, (T k).mem_withMem, h.shared j k]
    · intro j k hjk a
      rw [(T j).owns_withMem, (T k).owns_withMem]
      exact h.apart j k hjk a

/-- **Run.** -/
theorem run (hset : ∀ i, (T i).Settled (I i)) {start : ∀ i, S i} (hstart : Peace T I start)
    {l : List (Act C)} (h : Reach (step T) (Ok T) start l s) : Peace T I s :=
  Reach.inv (P := Peace T I) hstart (fun hP hok hs => peace_step hset hP hok hs) h

end Company

end MulleStorage.Lib
