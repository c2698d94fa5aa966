import Mathlib.Data.Nat.Bitwise

/-!
# Rounding addresses up to an alignment

`alignUp a p` is the least multiple of `a` at or above `p`. The bit-mask form
`(p + mask) & ~mask` with `mask = 2^k - 1`, which is how C code spells it, is
the same function as long as the addition does not leave the address space:

> `and_not_mask`: clearing the low `k` bits of a `w`-bit word rounds it *down*
> to a multiple of `2^k`.

Nothing here is about a particular allocator; the arena model uses it for both
its direct calls (any power of two) and its vtable calls (one fixed alignment).
-/

namespace MulleStorage.Lib

/-- The least multiple of `a` at or above `p`. -/
def alignUp (a p : Nat) : Nat := (p + (a - 1)) / a * a

theorem dvd_alignUp (a p : Nat) : a ∣ alignUp a p := Nat.dvd_mul_left _ _

theorem le_alignUp {a : Nat} (ha : 0 < a) (p : Nat) : p ≤ alignUp a p := by
  unfold alignUp
  have hdiv := Nat.div_add_mod (p + (a - 1)) a
  have hmod := Nat.mod_lt (p + (a - 1)) ha
  rw [Nat.mul_comm] at hdiv
  omega

/-- The padding in front of an aligned address is less than the alignment. -/
theorem alignUp_lt {a : Nat} (ha : 0 < a) (p : Nat) : alignUp a p < p + a := by
  unfold alignUp
  have hdiv := Nat.div_mul_le_self (p + (a - 1)) a
  omega

/-- Two multiples of `a` closer than `a` apart, the lower one first, are equal. -/
theorem le_of_dvd_of_lt_add {a x y : Nat} (hx : a ∣ x) (hy : a ∣ y) (h : x < y + a) : x ≤ y := by
  obtain ⟨i, rfl⟩ := hx
  obtain ⟨j, rfl⟩ := hy
  have hij : i < j + 1 := by
    rw [← Nat.mul_succ] at h
    exact Nat.lt_of_mul_lt_mul_left h
  exact Nat.mul_le_mul_left a (Nat.le_of_lt_succ hij)

/-- The next multiple of `a` is `a` further. -/
theorem add_le_of_dvd_of_lt {a x y : Nat} (hx : a ∣ x) (hy : a ∣ y) (h : x < y) : x + a ≤ y := by
  refine Nat.le_of_not_lt fun hnear => ?_
  exact Nat.not_le_of_lt h (le_of_dvd_of_lt_add hy hx hnear)

/-- `alignUp` is the least such multiple. -/
theorem alignUp_le {a p q : Nat} (ha : 0 < a) (hq : a ∣ q) (h : p ≤ q) : alignUp a p ≤ q :=
  le_of_dvd_of_lt_add (dvd_alignUp a p) hq (by have := alignUp_lt ha p; omega)

theorem alignUp_of_dvd {a p : Nat} (ha : 0 < a) (hp : a ∣ p) : alignUp a p = p :=
  Nat.le_antisymm (alignUp_le ha hp (Nat.le_refl p)) (le_alignUp ha p)

/-- The padding of `p` depends only on the residue of `p`: with `p` on a
multiple of `a` plus `n`, it is the padding of `n`. -/
theorem alignUp_add_of_dvd {a p : Nat} (ha : 0 < a) (hp : a ∣ p) (n : Nat) :
    alignUp a (p + n) = p + alignUp a n := by
  obtain ⟨i, rfl⟩ := hp
  unfold alignUp
  rw [Nat.add_assoc, Nat.mul_add_div ha, Nat.add_mul, Nat.mul_comm i a]

/-- Rounding `n` up leaves `w` bytes of padding exactly when the last, partial
unit of `n` does. -/
theorem add_le_alignUp_iff {a n w : Nat} (ha : 0 < a) (hw : 0 < w) :
    n + w ≤ alignUp a n ↔ 0 < n % a ∧ n % a + w ≤ a := by
  have hn := Nat.div_add_mod n a
  rcases Nat.eq_zero_or_pos (n % a) with hzero | hpos
  · -- whole units: no padding at all
    rw [alignUp_of_dvd ha (Nat.dvd_of_mod_eq_zero hzero)]
    omega
  · -- otherwise the padding is the rest of the last unit
    have hup : alignUp a n = a * (n / a) + a := by
      have hlt := Nat.mod_lt n ha
      have hle := le_alignUp ha n
      have hdvd : a ∣ a * (n / a) + a := Nat.dvd_add (Nat.dvd_mul_right _ _) (Nat.dvd_refl _)
      exact Nat.le_antisymm (alignUp_le ha hdvd (by omega))
        (le_of_dvd_of_lt_add hdvd (dvd_alignUp a n) (by omega))
    omega

/-- Rounding `n` up stays within `w` bytes of `s`, unless `n` reaches into a last,
partial unit of `s` that is more than `w` bytes short. -/
theorem alignUp_le_add_iff {a n s w : Nat} (ha : 0 < a) (hn : n ≤ s) :
    alignUp a n ≤ s + w ↔ n ≤ s - s % a ∨ a ≤ s % a + w := by
  have hs := Nat.div_add_mod s a
  have hmod := Nat.mod_lt s ha
  rcases Nat.lt_or_ge (s - s % a) n with hlt | hle
  · -- in the last unit, which then is rounded up as a whole
    have hup : alignUp a n = a * (s / a) + a := by
      have hpad := alignUp_lt ha n
      have hge := le_alignUp ha n
      have hdvd : a ∣ a * (s / a) + a := Nat.dvd_add (Nat.dvd_mul_right _ _) (Nat.dvd_refl _)
      exact Nat.le_antisymm (alignUp_le ha hdvd (by omega))
        (le_of_dvd_of_lt_add hdvd (dvd_alignUp a n) (by omega))
    omega
  · have hup : alignUp a n ≤ s - s % a := by
      refine alignUp_le ha ?_ hle
      rw [show s - s % a = a * (s / a) by omega]
      exact Nat.dvd_mul_right _ _
    omega

/-- Clearing the low `k` bits of a `w`-bit word rounds it down to a multiple
of `2^k`. -/
theorem and_not_mask {w k x : Nat} (hx : x < 2 ^ w) (hk : k ≤ w) :
    x &&& (2 ^ w - 1 - (2 ^ k - 1)) = x / 2 ^ k * 2 ^ k := by
  have hpos : 0 < 2 ^ k := Nat.two_pow_pos k
  have hle : 2 ^ k ≤ 2 ^ w := Nat.pow_le_pow_right (by decide) hk
  have hmask : 2 ^ w - 1 - (2 ^ k - 1) = 2 ^ w - ((2 ^ k - 1) + 1) := by omega
  apply Nat.eq_of_testBit_eq
  intro i
  rw [hmask, Nat.testBit_and, Nat.testBit_two_pow_sub_succ (by omega),
    Nat.testBit_two_pow_sub_one, Nat.testBit_mul_two_pow, Nat.testBit_div_two_pow]
  -- bit by bit: `x` between `k` and `w`, and 0 below and above
  by_cases hki : k ≤ i
  · rw [show i - k + k = i from by omega]
    by_cases hiw : i < w
    · simp [hki, hiw, Nat.not_lt.mpr hki]
    · have hhigh : x.testBit i = false :=
        Nat.testBit_eq_false_of_lt (Nat.lt_of_lt_of_le hx
          (Nat.pow_le_pow_right (by decide) (Nat.le_of_not_lt hiw)))
      simp [hhigh]
  · simp [hki, Nat.lt_of_not_le hki]

end MulleStorage.Lib
