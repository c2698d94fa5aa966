/-!
# Loops that may stop

A program that checks its own results runs loops in which every turn may stop
the whole program, for a reason `ε`. Its result is an `Except ε S`: the state
behind the loop, or the reason.

`Ensures E P r` is the postcondition of such a program: a state in `P`, or a
reason in `E`. `Agree R r r'` compares two programs that run side by side:
unless one of them stops, their states are in `R`. There is one rule for each
way to build a program: sequence (`bind`), `for` (`repeatDo`) and `while`
(`whileDo`), whose fuel is enough when a measure of the state says so.

`Agree` is silent on a stop. `AgreeUnless E R r r'` is not: who stops has a
reason in `E`. It is put together from an `Agree` and an `Ensures` for each of
the two (`Agree.and_ensures`).
-/

namespace MulleStorage.Lib

variable {ε ε' S S' T T' : Type}

/-- `n` turns of `body`. -/
def repeatDo (body : S → Except ε S) : Nat → S → Except ε S
  | 0, s => .ok s
  | n + 1, s => (body s).bind (repeatDo body n)

/-- Turns of `body` while `cond` holds, `fuel` of them at most. -/
def whileDo (cond : S → Bool) (body : S → Except ε S) : Nat → S → Except ε S
  | 0, s => .ok s
  | fuel + 1, s => if cond s then (body s).bind (whileDo cond body fuel) else .ok s

/-! ## One program -/

/-- The program ends in a state of `P`, or stops for a reason of `E`. -/
def Ensures (E : ε → Prop) (P : S → Prop) : Except ε S → Prop
  | .ok s => P s
  | .error e => E e

namespace Ensures

variable {E : ε → Prop} {P Q : S → Prop} {R : T → Prop} {r : Except ε S}

theorem mono (h : Ensures E P r) (hPQ : ∀ s, P s → Q s) : Ensures E Q r := by
  cases r with
  | ok s => exact hPQ s h
  | error e => exact h

/-- More reasons to stop. -/
theorem weaken {E' : ε → Prop} (h : Ensures E P r) (hE : ∀ e, E e → E' e) : Ensures E' P r := by
  cases r with
  | ok s => exact h
  | error e => exact hE e h

theorem bind {f : S → Except ε T} (h : Ensures E P r) (hf : ∀ s, P s → Ensures E R (f s)) :
    Ensures E R (r.bind f) := by
  cases r with
  | ok s => exact hf s h
  | error e => exact h

theorem map {f : S → T} (h : Ensures E P r) (hf : ∀ s, P s → R (f s)) :
    Ensures E R (r.map f) := by
  cases r with
  | ok s => exact hf s h
  | error e => exact h

/-- A sequence stops for the reasons of its first part. -/
theorem of_bind {f : S → Except ε T} (h : Ensures E R (r.bind f)) :
    Ensures E (fun _ => True) r := by
  cases r with
  | ok s => trivial
  | error e => exact h

/-- What every turn keeps, the loop keeps. -/
theorem repeatDo {body : S → Except ε S} {n : Nat} {s : S} (h : P s)
    (hbody : ∀ s, P s → Ensures E P (body s)) : Ensures E P (repeatDo body n s) := by
  induction n generalizing s with
  | zero => exact h
  | succ n ih => exact (hbody s h).bind fun s' hs' => ih hs'

/-- A turn counted: after `n` of them, the count is `n` higher. -/
theorem repeatDo_count (count : S → Nat) {body : S → Except ε S} {n m : Nat} {s : S} (h : P s)
    (hm : count s + n = m)
    (hbody : ∀ s, P s → count s < m →
      Ensures E (fun s' => P s' ∧ count s' = count s + 1) (body s)) :
    Ensures E (fun s' => P s' ∧ count s' = m) (Lib.repeatDo body n s) := by
  induction n generalizing s with
  | zero => exact ⟨h, hm⟩
  | succ n ih =>
    refine (hbody s h (by omega)).bind ?_
    intro s' ⟨hs', hcount⟩
    exact ih hs' (by omega)

/-- A loop whose measure goes down with every turn ends because of its
condition. -/
theorem whileDo {cond : S → Bool} {body : S → Except ε S} (μ : S → Nat) {fuel : Nat} {s : S}
    (h : P s) (hbody : ∀ s, P s → cond s = true →
      Ensures E (fun s' => P s' ∧ μ s' < μ s) (body s))
    (hzero : ∀ s, μ s = 0 → cond s = false) (hfuel : μ s ≤ fuel) :
    Ensures E (fun s' => P s' ∧ cond s' = false) (whileDo cond body fuel s) := by
  induction fuel generalizing s with
  | zero => exact ⟨h, hzero s (Nat.le_zero.mp hfuel)⟩
  | succ fuel ih =>
    unfold Lib.whileDo
    split
    next hcond =>
      refine (hbody s h hcond).bind ?_
      intro s' ⟨hs', hlt⟩
      exact ih hs' (by omega)
    next hcond => exact ⟨h, Bool.eq_false_iff.mpr hcond⟩

end Ensures

/-! ## Two programs -/

/-- Unless one of them stops, the two programs end in states of `R`. -/
def Agree (R : S → S' → Prop) : Except ε S → Except ε' S' → Prop
  | .ok s, .ok s' => R s s'
  | _, _ => True

/-- The two programs end in states of `R`; one that stops does so for a reason
of `E`. -/
def AgreeUnless (E : ε → Prop) (R : S → S' → Prop) : Except ε S → Except ε S' → Prop
  | .ok s, .ok s' => R s s'
  | .error e, .ok _ => E e
  | .ok _, .error e' => E e'
  | .error e, .error e' => E e ∧ E e'

namespace Agree

variable {R : S → S' → Prop} {Q : T → T' → Prop} {r : Except ε S} {r' : Except ε' S'}

theorem mono {R' : S → S' → Prop} (h : Agree R r r') (hR : ∀ s s', R s s' → R' s s') :
    Agree R' r r' := by
  cases r with
  | error e => trivial
  | ok s =>
    cases r' with
    | ok s' => exact hR s s' h
    | error e => trivial

theorem bind {f : S → Except ε T} {f' : S' → Except ε' T'} (h : Agree R r r')
    (hf : ∀ s s', R s s' → Agree Q (f s) (f' s')) : Agree Q (r.bind f) (r'.bind f') := by
  cases r with
  | error e => trivial
  | ok s =>
    cases r' with
    | ok s' => exact hf s s' h
    | error e =>
      show Agree Q (f s) (.error e)
      cases f s <;> trivial

theorem map {f : S → T} {f' : S' → T'} (h : Agree R r r')
    (hf : ∀ s s', R s s' → Q (f s) (f' s')) : Agree Q (r.map f) (r'.map f') := by
  cases r with
  | error e => trivial
  | ok s =>
    cases r' with
    | ok s' => exact hf s s' h
    | error e => trivial

/-- Two loops of as many turns. -/
theorem repeatDo {body : S → Except ε S} {body' : S' → Except ε' S'} {n : Nat} {s : S} {s' : S'}
    (h : R s s') (hbody : ∀ s s', R s s' → Agree R (body s) (body' s')) :
    Agree R (repeatDo body n s) (repeatDo body' n s') := by
  induction n generalizing s s' with
  | zero => exact h
  | succ n ih => exact (hbody s s' h).bind fun s₁ s₁' h₁ => ih h₁

/-- Two loops whose conditions hold together. -/
theorem whileDo {cond : S → Bool} {cond' : S' → Bool} {body : S → Except ε S}
    {body' : S' → Except ε' S'} {fuel : Nat} {s : S} {s' : S'} (h : R s s')
    (hcond : ∀ s s', R s s' → cond s = cond' s')
    (hbody : ∀ s s', R s s' → Agree R (body s) (body' s')) :
    Agree R (whileDo cond body fuel s) (whileDo cond' body' fuel s') := by
  induction fuel generalizing s s' with
  | zero => exact h
  | succ fuel ih =>
    unfold Lib.whileDo
    rw [hcond s s' h]
    split
    next => exact (hbody s s' h).bind fun s₁ s₁' h₁ => ih h₁
    next => exact h

/-- With the reasons each of them may have. -/
theorem and_ensures {E : ε → Prop} {P : S → Prop} {P' : S' → Prop} {r' : Except ε S'}
    (h : Agree R r r') (hr : Ensures E P r) (hr' : Ensures E P' r') : AgreeUnless E R r r' := by
  cases r with
  | ok s =>
    cases r' with
    | ok s' => exact h
    | error e' => exact hr'
  | error e =>
    cases r' with
    | ok s' => exact hr
    | error e' => exact ⟨hr, hr'⟩

end Agree

end MulleStorage.Lib
