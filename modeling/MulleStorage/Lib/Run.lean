/-!
# Runs of a partial step function

`step s c = some s'` is one call `c` that returned and left `s'`; a call that
does not return ends the run. `Reach` collects the states such runs can reach
when every call satisfies a condition `ok` on the state it is made in, together
with the calls made. An invariant is proved once, by one step lemma, and then
holds after every run (`Reach.inv`).
-/

namespace MulleStorage.Lib

variable {S C : Type} {step : S → C → Option S} {ok ok' : S → C → Prop} {init : S}

/-- `Reach step ok init l s`: the calls `l`, each of them `ok` in its state,
lead from `init` to `s`. -/
inductive Reach (step : S → C → Option S) (ok : S → C → Prop) (init : S) : List C → S → Prop
  | nil : Reach step ok init [] init
  | snoc {l : List C} {s s' : S} {c : C} :
      Reach step ok init l s → ok s c → step s c = some s' → Reach step ok init (l ++ [c]) s'

/-- An invariant of every `ok` step holds in every state reached. -/
theorem Reach.inv {P : S → Prop} (h0 : P init)
    (hstep : ∀ {s c s'}, P s → ok s c → step s c = some s' → P s') {l : List C} {s : S}
    (h : Reach step ok init l s) : P s := by
  induction h with
  | nil => exact h0
  | snoc _ hok hs ih => exact hstep ih hok hs

/-- Runs under a stronger condition are runs under a weaker one. -/
theorem Reach.mono (himp : ∀ {s c}, ok s c → ok' s c) {l : List C} {s : S}
    (h : Reach step ok init l s) : Reach step ok' init l s := by
  induction h with
  | nil => exact .nil
  | snoc _ hok hs ih => exact .snoc ih (himp hok) hs

/-- **Forward simulation.** When each step is matched by one of another function
that keeps two states related, each run is matched by one. -/
theorem Reach.simulated {S' : Type} {step' : S' → C → Option S'} {ok'' : S' → C → Prop}
    {R : S → S' → Prop} {init' : S'} {l : List C} {s : S} (h : Reach step ok init l s)
    (h0 : R init init')
    (hstep : ∀ {s x c s'}, R s x → ok s c → step s c = some s' →
      ∃ x', ok'' x c ∧ step' x c = some x' ∧ R s' x') :
    ∃ x, Reach step' ok'' init' l x ∧ R s x := by
  induction h with
  | nil => exact ⟨init', .nil, h0⟩
  | snoc _ hok hs ih =>
    obtain ⟨x, hx, hR⟩ := ih
    obtain ⟨x', hok', hx', hR'⟩ := hstep hR hok hs
    exact ⟨x', .snoc hx hok' hx', hR'⟩

/-! ## Computed runs -/

/-- The state after the calls `l`, when each of them returns. -/
def runCalls (step : S → C → Option S) : S → List C → Option S
  | s, [] => some s
  | s, c :: l => (step s c).bind fun s' => runCalls step s' l

/-- Each call of `l` is `ok` in the state it is made in. -/
def OkAlong (step : S → C → Option S) (ok : S → C → Prop) : S → List C → Prop
  | _, [] => True
  | s, c :: l => ok s c ∧ ∀ s' ∈ step s c, OkAlong step ok s' l

instance decidableOkAlong [∀ s c, Decidable (ok s c)] :
    ∀ (s : S) (l : List C), Decidable (OkAlong step ok s l)
  | _, [] => isTrue trivial
  | s, c :: l =>
    have := fun s' => decidableOkAlong s' l
    inferInstanceAs (Decidable (ok s c ∧ ∀ s' ∈ step s c, OkAlong step ok s' l))

/-- A computed run is a run; the calls may be given by descriptions `f` reads. -/
theorem Reach.of_runCalls {D : Type} (f : D → C) {P : S → D → Prop}
    (himp : ∀ {s d}, P s d → ok s (f d)) {pre : List C} {s s' : S} {l : List D}
    (hpre : Reach step ok init pre s) (hok : OkAlong (fun s d => step s (f d)) P s l)
    (hrun : runCalls (fun s d => step s (f d)) s l = some s') :
    Reach step ok init (pre ++ l.map f) s' := by
  -- the run so far grows by one call at its end with each description read
  induction l generalizing pre s with
  | nil =>
    cases hrun
    simpa using hpre
  | cons d l ih =>
    obtain ⟨s₁, hs₁, hrest⟩ := Option.bind_eq_some_iff.mp hrun
    have := ih (hpre.snoc (himp hok.1) hs₁) (hok.2 s₁ hs₁) hrest
    simpa using this

/-- Where a run from `init` ends; `init` when one of its calls does not return. -/
def runEnd (step : S → C → Option S) (init : S) (l : List C) : S :=
  (runCalls step init l).getD init

/-- A run is checked by computing it. -/
theorem Reach.of_runEnd {l : List C}
    (h : OkAlong step ok init l ∧ (runCalls step init l).isSome) :
    Reach step ok init l (runEnd step init l) := by
  obtain ⟨s, hs⟩ := Option.isSome_iff_exists.mp h.2
  have hrun : Reach step ok init ([] ++ l.map id) s := .of_runCalls id id .nil h.1 hs
  rw [runEnd, hs]
  simpa using hrun

end MulleStorage.Lib
