import Mathlib.Algebra.Group.Nat.Defs
import Mathlib.Order.Basic

/-!
# Byte-addressed memory and address ranges

A memory is a total function from addresses to bytes. Every bulk write of a C
program — `memset`, `memcpy`, a store of a machine word, a poison fill — is one
`blit`: the bytes of a range are replaced, everything else stays. So there is
exactly one frame lemma (`blit_outside`) and one read-back lemma (`blit_at`),
and the word store/load pair is an instance (`loadWord_blit`).

A `Region` is a half-open address range `[base, base + size)`, and
`Region.Disjoint` is the order form of "share no byte" (`disjoint_iff` for
nonempty ones).
-/

namespace MulleStorage.Lib

/-- The contents of the address space. -/
abbrev Mem := Nat → UInt8

/-- Replace the `n` bytes from `p` on; `f i` is the byte at offset `i`. -/
def blit (m : Mem) (p n : Nat) (f : Nat → UInt8) : Mem :=
  fun a => if p ≤ a ∧ a < p + n then f (a - p) else m a

theorem blit_outside {m : Mem} {p n a : Nat} {f : Nat → UInt8} (h : a < p ∨ p + n ≤ a) :
    blit m p n f a = m a := by
  unfold blit
  rw [if_neg (by omega)]

theorem blit_at {m : Mem} {p n i : Nat} {f : Nat → UInt8} (h : i < n) :
    blit m p n f (p + i) = f i := by
  unfold blit
  rw [if_pos (by omega), Nat.add_sub_cancel_left]

/-- The frame of several stores, one after the other. -/
theorem foldl_blit_outside {l : List Nat} {n a : Nat} {f : Nat → UInt8}
    (h : ∀ p ∈ l, a < p ∨ p + n ≤ a) (m : Mem) :
    l.foldl (fun m p => blit m p n f) m a = m a := by
  induction l generalizing m with
  | nil => rfl
  | cons p l ih =>
    rw [List.foldl_cons, ih fun q hq => h q (List.mem_cons_of_mem p hq)]
    exact blit_outside (h p List.mem_cons_self)

/-- The same store into two memories: they differ where they did, at most. -/
theorem blit_congr {m m' : Mem} {p n a : Nat} {f g : Nat → UInt8} (hg : ∀ i, i < n → g i = f i)
    (hm : ¬ (p ≤ a ∧ a < p + n) → m' a = m a) : blit m' p n g a = blit m p n f a := by
  unfold blit
  by_cases ha : p ≤ a ∧ a < p + n
  · rw [if_pos ha, if_pos ha]
    exact hg _ (by omega)
  · rw [if_neg ha, if_neg ha]
    exact hm ha

/-- A relation between the bytes of two memories is kept by a store into both, -/
theorem blit_rel {ρ : UInt8 → UInt8 → Prop} {m m' : Mem} {p n : Nat} {f g : Nat → UInt8}
    (hm : ∀ a, ρ (m a) (m' a)) (hfg : ∀ i, i < n → ρ (f i) (g i)) (a : Nat) :
    ρ (blit m p n f a) (blit m' p n g a) := by
  unfold blit
  by_cases ha : p ≤ a ∧ a < p + n
  · rw [if_pos ha, if_pos ha]
    exact hfg _ (by omega)
  · rw [if_neg ha, if_neg ha]
    exact hm a

/-- and by one into the first, of bytes that are related to all others. -/
theorem blit_rel_left {ρ : UInt8 → UInt8 → Prop} {m m' : Mem} {p n : Nat} {f : Nat → UInt8}
    (hm : ∀ a, ρ (m a) (m' a)) (hf : ∀ i v, ρ (f i) v) (a : Nat) : ρ (blit m p n f a) (m' a) := by
  unfold blit
  by_cases ha : p ≤ a ∧ a < p + n
  · rw [if_pos ha]
    exact hf _ _
  · rw [if_neg ha]
    exact hm a

/-- The same stores, several of them. -/
theorem foldl_blit_congr {l : List Nat} {n a : Nat} {f : Nat → UInt8} {m m' : Mem}
    (h : (∃ p ∈ l, p ≤ a ∧ a < p + n) ∨ m' a = m a) :
    l.foldl (fun m p => blit m p n f) m' a = l.foldl (fun m p => blit m p n f) m a := by
  induction l generalizing m m' with
  | nil =>
    rcases h with ⟨p, hp, -⟩ | hm
    · exact absurd hp List.not_mem_nil
    · exact hm
  | cons p l ih =>
    rw [List.foldl_cons, List.foldl_cons]
    apply ih
    rcases h with ⟨q, hq, ha⟩ | hm
    · rcases List.mem_cons.mp hq with rfl | hq'
      · exact Or.inr (blit_congr (fun _ _ => rfl) fun hnot => absurd ha hnot)
      · exact Or.inl ⟨q, hq', ha⟩
    · exact Or.inr (blit_congr (fun _ _ => rfl) fun _ => hm)

/-- What is true of the bytes stored is true of each byte it was true of before,
or that was stored. -/
theorem foldl_blit_of {P : UInt8 → Prop} {l : List Nat} {n a : Nat} {f : Nat → UInt8} {m : Mem}
    (hf : ∀ i, P (f i)) (h : (∃ p ∈ l, p ≤ a ∧ a < p + n) ∨ P (m a)) :
    P (l.foldl (fun m p => blit m p n f) m a) := by
  induction l generalizing m with
  | nil =>
    rcases h with ⟨p, hp, -⟩ | hm
    · exact absurd hp List.not_mem_nil
    · exact hm
  | cons p l ih =>
    rw [List.foldl_cons]
    apply ih
    by_cases ha : p ≤ a ∧ a < p + n
    · refine Or.inr ?_
      unfold blit
      rw [if_pos ha]
      exact hf _
    · rcases h with ⟨q, hq, hin⟩ | hm
      · rcases List.mem_cons.mp hq with rfl | hq'
        · exact absurd hin ha
        · exact Or.inl ⟨q, hq', hin⟩
      · rw [blit_outside (by omega)]
        exact Or.inr hm

/-! ## Machine words -/

/-- Byte `i` of the little-endian encoding of `v`. -/
def wordByte (v i : Nat) : UInt8 := UInt8.ofNat (v / 256 ^ i)

/-- The `k`-byte little-endian word stored at `p`. -/
def loadWord (m : Mem) : Nat → Nat → Nat
  | _, 0 => 0
  | p, k + 1 => (m p).toNat + 256 * loadWord m (p + 1) k

/-- A load reads only its own bytes. -/
theorem loadWord_congr {m m' : Mem} {k p : Nat} (h : ∀ i, i < k → m' (p + i) = m (p + i)) :
    loadWord m' p k = loadWord m p k := by
  induction k generalizing p with
  | zero => rfl
  | succ k ih =>
    have hhead : m' p = m p := h 0 (Nat.succ_pos k)
    have htail : loadWord m' (p + 1) k = loadWord m (p + 1) k := by
      apply ih
      intro i hi
      have := h (i + 1) (by omega)
      rwa [show p + (i + 1) = p + 1 + i from by omega] at this
    simp only [loadWord, hhead, htail]

/-- A load of the encoding of `v` yields `v`, cut to the bytes loaded. -/
theorem loadWord_of_bytes {m : Mem} {k p v : Nat} (h : ∀ i, i < k → m (p + i) = wordByte v i) :
    loadWord m p k = v % 256 ^ k := by
  induction k generalizing p v with
  | zero => simp [loadWord, Nat.mod_one]
  | succ k ih =>
    have hhead : (m p).toNat = v % 256 := by
      rw [show m p = wordByte v 0 from h 0 (Nat.succ_pos k)]
      simp [wordByte]
    -- the bytes behind the first one encode `v / 256`
    have htail : loadWord m (p + 1) k = v / 256 % 256 ^ k := by
      apply ih
      intro i hi
      rw [show p + 1 + i = p + (i + 1) from by omega, h (i + 1) (by omega)]
      simp only [wordByte, Nat.pow_succ, Nat.div_div_eq_div_mul, Nat.mul_comm]
    rw [loadWord, hhead, htail, Nat.pow_succ, Nat.mul_comm (256 ^ k) 256, Nat.mod_mul]

/-- Words that load alike have the same bytes. -/
theorem bytes_of_loadWord {m m' : Mem} {k p : Nat} (h : loadWord m' p k = loadWord m p k) {i : Nat}
    (hi : i < k) : m' (p + i) = m (p + i) := by
  induction k generalizing p i with
  | zero => exact absurd hi (Nat.not_lt_zero i)
  | succ k ih =>
    have hlt := (m p).toNat_lt
    have hlt' := (m' p).toNat_lt
    simp only [loadWord] at h
    cases i with
    | zero =>
      have hhead : (m' p).toNat = (m p).toNat := by omega
      exact UInt8.toNat_inj.mp hhead
    | succ i =>
      have htail : loadWord m' (p + 1) k = loadWord m (p + 1) k := by omega
      have := ih htail (Nat.lt_of_succ_lt_succ hi)
      rwa [show p + 1 + i = p + (i + 1) by omega] at this

/-- The store/load round trip for a value that fits the word. -/
theorem loadWord_blit {m : Mem} {p k v : Nat} (hv : v < 256 ^ k) :
    loadWord (blit m p k (wordByte v)) p k = v := by
  rw [loadWord_of_bytes fun i hi => blit_at hi, Nat.mod_eq_of_lt hv]

/-! ## Byte strings -/

/-- The `n` bytes from `p`. -/
def bytesAt (m : Mem) (p n : Nat) : List UInt8 := (List.range n).map fun i => m (p + i)

/-- `l` with the bytes from `off` on replaced. -/
def overwrite (l : List UInt8) (off : Nat) (bytes : List UInt8) : List UInt8 :=
  l.take off ++ bytes ++ l.drop (off + bytes.length)

@[simp] theorem length_bytesAt (m : Mem) (p n : Nat) : (bytesAt m p n).length = n := by
  simp [bytesAt]

/-- Bytes are compared offset by offset. -/
theorem bytesAt_congr {m m' : Mem} {p p' n : Nat} (h : ∀ i, i < n → m' (p' + i) = m (p + i)) :
    bytesAt m' p' n = bytesAt m p n :=
  List.map_congr_left fun i hi => h i (List.mem_range.mp hi)

/-- Bytes of one value. -/
theorem bytesAt_eq_replicate {m : Mem} {p n : Nat} {v : UInt8} (h : ∀ i, i < n → m (p + i) = v) :
    bytesAt m p n = List.replicate n v := by
  refine List.ext_getElem (by simp) ?_
  intro i hi _
  simp only [bytesAt, List.getElem_map, List.getElem_range, List.getElem_replicate]
  exact h i (by simpa using hi)

theorem bytesAt_append (m : Mem) (p n k : Nat) :
    bytesAt m p (n + k) = bytesAt m p n ++ bytesAt m (p + n) k := by
  simp [bytesAt, List.range_add, Nat.add_assoc]

theorem take_bytesAt (m : Mem) (p n k : Nat) :
    (bytesAt m p n).take k = bytesAt m p (min k n) := by
  simp [bytesAt, ← List.map_take, List.take_range]

/-- A range of one value. -/
theorem bytesAt_blit_const (m : Mem) (p n : Nat) (v : UInt8) :
    bytesAt (blit m p n fun _ => v) p n = List.replicate n v := by
  refine List.ext_getElem (by simp) ?_
  intro i hi _
  simp only [bytesAt, List.getElem_map, List.getElem_range, List.getElem_replicate]
  exact blit_at (by simpa using hi)

/-- A store inside a range overwrites a part of its bytes. -/
theorem bytesAt_blit_overwrite {m : Mem} {p n off : Nat} {bytes : List UInt8}
    (h : off + bytes.length ≤ n) :
    bytesAt (blit m (p + off) bytes.length fun i => bytes.getD i 0) p n
      = overwrite (bytesAt m p n) off bytes := by
  refine List.ext_getElem (by simp [overwrite]; omega) ?_
  intro i hi _
  have hi' : i < n := by simpa using hi
  simp only [bytesAt, overwrite, List.getElem_map, List.getElem_range]
  -- an offset is in front of the stored bytes, among them, or behind them
  rcases Nat.lt_or_ge i off with hlt | hge
  · rw [blit_outside (by omega), List.getElem_append_left (by simp; omega),
      List.getElem_append_left (by simp; omega)]
    simp
  · rcases Nat.lt_or_ge i (off + bytes.length) with hin | hout
    · rw [show p + i = p + off + (i - off) from by omega, blit_at (by omega),
        List.getElem_append_left (by simp; omega), List.getElem_append_right (by simp; omega)]
      have hmin : min off n = off := by omega
      have hlt : i - off < bytes.length := by omega
      simp [hmin, List.getD_eq_getElem?_getD, List.getElem?_eq_getElem hlt]
    · rw [blit_outside (by omega), List.getElem_append_right (by simp; omega)]
      have hmin : min off n = off := by omega
      simp only [List.length_append, List.length_take, List.length_map, List.length_range, hmin,
        List.getElem_drop, List.getElem_map, List.getElem_range]
      congr 1
      omega

/-! ## Regions -/

/-- The addresses `[base, base + size)`. -/
structure Region where
  base : Nat
  size : Nat
  deriving DecidableEq, Repr

/-- `a` is one of the addresses of `r`. -/
def Region.Has (r : Region) (a : Nat) : Prop := r.base ≤ a ∧ a < r.base + r.size

/-- The range of `n` bytes from `p` lies inside `r`. -/
def Region.Covers (r : Region) (p n : Nat) : Prop := r.base ≤ p ∧ p + n ≤ r.base + r.size

/-- One of the two regions ends before the other starts. -/
def Region.Disjoint (r q : Region) : Prop :=
  r.base + r.size ≤ q.base ∨ q.base + q.size ≤ r.base

instance (r : Region) (a : Nat) : Decidable (r.Has a) := inferInstanceAs (Decidable (_ ∧ _))

instance (r : Region) (p n : Nat) : Decidable (r.Covers p n) :=
  inferInstanceAs (Decidable (_ ∧ _))

instance (r q : Region) : Decidable (r.Disjoint q) := inferInstanceAs (Decidable (_ ∨ _))

theorem Region.Disjoint.symm {r q : Region} (h : r.Disjoint q) : q.Disjoint r := Or.symm h

/-- Disjoint regions share no address. -/
theorem Region.Disjoint.not_has {r q : Region} {a : Nat} (h : r.Disjoint q) (hr : r.Has a) :
    ¬ q.Has a := by
  unfold Region.Disjoint at h
  unfold Region.Has at hr ⊢
  omega

/-- The frame of a store, as a region. -/
theorem blit_not_has {m : Mem} {p n a : Nat} {f : Nat → UInt8} (h : ¬ Region.Has ⟨p, n⟩ a) :
    blit m p n f a = m a := by
  unfold Region.Has at h
  exact blit_outside (by dsimp only at h; omega)

end MulleStorage.Lib
