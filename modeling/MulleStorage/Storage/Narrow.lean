import MulleStorage.Storage.Index

/-!
# Indices are `unsigned int`

The array counts its elements in a `size_t`, `_mulle_indexedstorage_alloc`
returns the count as an `unsigned int`, and `_mulle_indexedstorage_free` adds
one to an `unsigned int` before it makes a pointer of it. Nothing checks either
step. The first loses bits once the array has as many elements as there are
values of the type, the second at the last of these values, whose code is
`NULL`.

`Fits` says of a call that it does neither. Below the limit that is no demand
(`Below.fits`); at the limit, `_mulle_indexedstorage_alloc` still recycles.

> `lossless_iff`: in runs whose calls fit, every index is the position of its
> element, and every freed one is found again; and that is so of the next call
> exactly when it fits.
-/

namespace MulleStorage.Indexed

open MulleStorage.Lib MulleStorage.Arena

variable {t : Target} {σ σ' : Sys} {index : Nat} {s s' : World}

/-- The conversions of a call change no value: the position of a new element is
an `unsigned int`, and so is a freed index after one is added. -/
def Fits (t : Target) (σ : Sys) (c : Call) : Prop :=
  match c.op with
  | .alloc => σ.world.freed = [] → σ.world.structs.count < 2 ^ t.uintBits
  | .free index => index + 1 < 2 ^ t.uintBits
  | .write .. => True

/-- What a call is to return or leave behind: an index that is not live, and is
the position of the element if that is new; for a freed index an entry that is
not `NULL`, and that the next allocation makes this index of again. -/
def Lossless (t : Target) (σ : Sys) (c : Call) : Prop :=
  match c.op with
  | .alloc => ∀ index s, alloc t c.env σ.world = some (index, s) →
      index ∉ σ.live ∧ (σ.world.freed = [] → index = σ.world.structs.count)
  | .free index => encode t index ≠ 0 ∧
      ∀ env, (alloc t env (free t index σ.world)).map Prod.fst = some index
  | .write .. => True

/-- Nothing has been lost: `_freed` holds `index + 1` for indices that share out
the array with the live ones, and no index was handed out while it was live. -/
structure Intact (t : Target) (σ : Sys) : Prop where
  shared : ∃ indices, σ.world.freed = indices.map (· + 1) ∧
    (∀ i ∈ indices, i + 1 < 2 ^ t.uintBits) ∧
    Shared (List.range σ.world.structs.count) indices σ.live
  limit : σ.world.structs.count ≤ 2 ^ t.uintBits
  lawful : Lawful σ.log

theorem Intact.start (t : Target) (elementSize : Nat) (mem : Mem) :
    Intact t (Sys.start elementSize mem) where
  shared := ⟨[], rfl, nofun, .nil⟩
  limit := Nat.zero_le _
  lawful := trivial

/-- A live index is inside the array. -/
theorem Intact.lt_count (h : Intact t σ) (hi : index ∈ σ.live) :
    index < σ.world.structs.count := by
  obtain ⟨indices, -, -, hshared⟩ := h.shared
  exact List.mem_range.mp (hshared.mem_of_live hi)

/-- A call below the limit fits. -/
theorem Below.fits {c : Call} (hinv : Inv t σ) (hproper : Proper σ c) (h : Below t σ c) :
    Fits t σ c := by
  obtain ⟨op, env⟩ := c
  cases op with
  | alloc =>
    intro _
    have := h rfl
    omega
  | free index =>
    have hlt := hinv.lt_count hproper
    have hlimit := hinv.limit
    show index + 1 < 2 ^ t.uintBits
    omega
  | write => trivial

/-! ## Codes -/

/-- The code of an index is `NULL` at the last `unsigned int` only. -/
theorem encode_ne_zero_iff (hi : index < 2 ^ t.uintBits) :
    encode t index ≠ 0 ↔ index + 1 < 2 ^ t.uintBits := by
  unfold encode
  rcases Nat.lt_or_ge (index + 1) (2 ^ t.uintBits) with hlt | hge
  · rw [Nat.mod_eq_of_lt hlt]
    exact ⟨fun _ => hlt, fun _ => Nat.succ_ne_zero index⟩
  · rw [show index + 1 = 2 ^ t.uintBits by omega, Nat.mod_self]
    exact ⟨fun h => absurd rfl h, fun h => absurd h (Nat.lt_irrefl _)⟩

/-! ## Calls -/

/-- **Step.** A call that fits loses nothing. -/
theorem Effect.intact {c : Call} {r : Option Nat} (heff : Effect t c σ r σ') (h : Intact t σ)
    (hproper : Proper σ c) (hfits : Fits t σ c) : Intact t σ' := by
  obtain ⟨op, env⟩ := c
  obtain ⟨indices, hfreed, hsmall, hshared⟩ := h.shared
  cases heff with
  | @took index s hop halloc =>
    cases hop
    rcases List.eq_nil_or_concat indices with rfl | ⟨front, x, rfl⟩
    · -- the array grows
      have hcount : σ.world.structs.count < 2 ^ t.uintBits := hfits hfreed
      rw [alloc_reserve t env hfreed, Nat.mod_eq_of_lt hcount] at halloc
      obtain ⟨s', hs', heq⟩ := Option.map_eq_some_iff.mp halloc
      obtain ⟨rfl, rfl⟩ := Prod.mk.inj heq
      obtain ⟨g, -, rfl⟩ := Option.map_eq_some_iff.mp hs'
      have hnew : σ.world.structs.count ∉ List.range σ.world.structs.count := by simp
      refine ⟨⟨[], hfreed, nofun, ?_⟩, hcount, fun hl => hnew (hshared.mem_of_live hl), h.lawful⟩
      show Shared (List.range (σ.world.structs.count + 1)) _ _
      rw [List.range_succ]
      exact hshared.reserve hnew
    · -- the index freed last
      rw [List.concat_eq_append] at hfreed hsmall hshared
      rw [List.map_append, List.map_singleton] at hfreed
      rw [alloc_recycle hfreed (hsmall x (by simp))] at halloc
      obtain ⟨rfl, rfl⟩ := Prod.mk.inj (Option.some.inj halloc)
      exact ⟨⟨front, rfl, fun i hi => hsmall i (List.mem_append_left _ hi), hshared.recycle⟩,
        h.limit, hshared.not_live (by simp), h.lawful⟩
  | @gave index hop =>
    cases hop
    have hlive : index ∈ σ.live := hproper
    have hcode : encode t index = index + 1 := Nat.mod_eq_of_lt hfits
    refine ⟨⟨indices ++ [index], ?_, ?_, ?_⟩, ?_, hlive, h.lawful⟩
    · simp [hfreed, hcode]
    · intro i hi
      rcases List.mem_append.mp hi with hi | hi
      · exact hsmall i hi
      · exact List.mem_singleton.mp hi ▸ hfits
    · show Shared (List.range (free t index σ.world).structs.count) _ (σ.live.erase index)
      simpa using hshared.release hlive
    · simpa using h.limit
  | @wrote index off bytes s hop hs =>
    cases hop
    subst hs
    exact ⟨⟨indices, hfreed, hsmall, hshared⟩, h.limit, hproper.1, h.lawful⟩

/-- A call that returns loses nothing exactly when it fits. -/
theorem Intact.lossless_step {c : Call} (h : Intact t σ) (hproper : Proper σ c)
    (hs : σ.step t c = some σ') : Lossless t σ c ↔ Fits t σ c := by
  obtain ⟨op, env⟩ := c
  obtain ⟨indices, hfreed, hsmall, hshared⟩ := h.shared
  cases op with
  | alloc =>
    rcases List.eq_nil_or_concat indices with rfl | ⟨front, x, rfl⟩
    · have hreserve := alloc_reserve t env hfreed
      obtain ⟨⟨r, s⟩, hexec, -⟩ := Option.map_eq_some_iff.mp hs
      obtain ⟨⟨index, s⟩, halloc, -⟩ := Option.map_eq_some_iff.mp hexec
      have hindex : index = σ.world.structs.count % 2 ^ t.uintBits := by
        rw [hreserve] at halloc
        obtain ⟨s', -, heq⟩ := Option.map_eq_some_iff.mp halloc
        exact (Prod.mk.inj heq).1.symm
      constructor
      · intro hlossless _
        have hposition := (hlossless index s halloc).2 hfreed
        rw [← hposition, hindex]
        exact Nat.mod_lt _ (Nat.two_pow_pos _)
      · intro hfits index' s' halloc'
        obtain ⟨rfl, rfl⟩ := Prod.mk.inj (Option.some.inj (halloc.symm.trans halloc'))
        rw [Nat.mod_eq_of_lt (hfits hfreed)] at hindex
        subst hindex
        exact ⟨fun hl => Nat.lt_irrefl _ (h.lt_count hl), fun _ => rfl⟩
    · rw [List.concat_eq_append] at hfreed hsmall hshared
      rw [List.map_append, List.map_singleton] at hfreed
      have hne : σ.world.freed ≠ [] := by simp [hfreed]
      refine ⟨fun _ hnil => absurd hnil hne, fun _ index s halloc => ?_⟩
      rw [alloc_recycle hfreed (hsmall x (by simp))] at halloc
      obtain ⟨rfl, rfl⟩ := Prod.mk.inj (Option.some.inj halloc)
      exact ⟨hshared.not_live (by simp), fun hnil => absurd hnil hne⟩
  | free index =>
    have hlt : index < 2 ^ t.uintBits := Nat.lt_of_lt_of_le (h.lt_count hproper) h.limit
    refine ⟨fun hlossless => (encode_ne_zero_iff hlt).mp hlossless.1, ?_⟩
    intro hfits
    refine ⟨(encode_ne_zero_iff hlt).mpr hfits, fun env => ?_⟩
    have hentry : (free t index σ.world).freed = σ.world.freed ++ [index + 1] := by
      rw [free_freed, show encode t index = index + 1 from Nat.mod_eq_of_lt hfits]
    rw [alloc_recycle hentry hfits]
    rfl
  | write => exact Iff.rfl

/-! ## Runs -/

variable {elementSize : Nat} {mem : Mem} {l : List Call}

theorem reach_intact
    (h : Reach (Sys.step t) (fun σ c => Legal σ c ∧ Fits t σ c) (Sys.start elementSize mem) l σ) :
    Intact t σ :=
  h.inv (Intact.start t elementSize mem) fun hintact hc hs =>
    let ⟨_, heff⟩ := step_effect hs
    heff.intact hintact hc.1.proper hc.2

/-- **Narrowing.** After every run whose calls fit, `_freed` and the live indices
share out the array and no index was handed out while it was live; and the next
call loses nothing exactly when it fits as well. -/
theorem lossless_iff
    (h : Reach (Sys.step t) (fun σ c => Legal σ c ∧ Fits t σ c) (Sys.start elementSize mem) l σ) :
    Intact t σ ∧ ∀ c σ', Legal σ c → σ.step t c = some σ' → (Lossless t σ c ↔ Fits t σ c) :=
  ⟨reach_intact h, fun _ _ hlegal hs => (reach_intact h).lossless_step hlegal.proper hs⟩

instance (σ : Sys) : (c : Call) → Decidable (Fits t σ c)
  | ⟨.alloc, _⟩ => inferInstanceAs (Decidable (_ → _))
  | ⟨.free index, _⟩ => inferInstanceAs (Decidable (index + 1 < 2 ^ t.uintBits))
  | ⟨.write .., _⟩ => isTrue trivial

/-- Of the calls on a small array, each fits. -/
theorem lossless_iff_small :
    let σ := runEnd (Sys.step (x64 true)) (Sys.start 4 fun _ => 0) indexedCalls
    Intact (x64 true) σ ∧ ∀ c σ', Legal σ c → σ.step (x64 true) c = some σ' →
      (Lossless (x64 true) σ c ↔ Fits (x64 true) σ c) :=
  lossless_iff (Reach.of_runEnd (by decide +kernel))

/-! ## A full array -/

/-- An allocation from an array that stays at `base`. -/
def growCall (base : Nat) (mem : Mem) : Call := ⟨.alloc, some ⟨base, mem⟩⟩

/-- `n` allocations and no release: the array holds `n` elements, all of them
live. -/
structure Filled (base n elementSize : Nat) (mem : Mem) (σ : Sys) : Prop where
  count : σ.world.structs.count = n
  elementSize : σ.world.structs.elementSize = elementSize
  base : n ≠ 0 → σ.world.structs.base = base
  mem : σ.world.mem = mem
  freed : σ.world.freed = []
  live : ∀ i, i < n → i ∈ σ.live

theorem Filled.legal {base n : Nat} (h : Filled base n elementSize mem σ) :
    Legal σ (growCall base mem) where
  reserve r hr := by
    cases Option.mem_some_iff.mp hr
    intro index hindex i _
    have hn : n ≠ 0 := by
      have := h.count
      omega
    show mem _ = _
    rw [h.mem]
    show _ = mem (σ.world.structs.base + index * σ.world.structs.elementSize + i)
    rw [h.base hn]
    rfl
  proper := trivial

/-- The array can be filled up to any count that an `unsigned int` can index. -/
theorem reach_filled (base elementSize : Nat) (mem : Mem) :
    ∀ n, n ≤ 2 ^ t.uintBits → ∃ σ, Reach (Sys.step t) (fun σ c => Legal σ c ∧ Fits t σ c)
      (Sys.start elementSize mem) (List.replicate n (growCall base mem)) σ ∧
      Filled base n elementSize mem σ := by
  intro n
  induction n with
  | zero => exact fun _ => ⟨_, .nil, rfl, rfl, fun h => absurd rfl h, rfl, rfl, nofun⟩
  | succ n ih =>
    intro hn
    obtain ⟨σ, hreach, hfilled⟩ := ih (by omega)
    have hcount : σ.world.structs.count % 2 ^ t.uintBits = n := by
      rw [hfilled.count, Nat.mod_eq_of_lt (by omega)]
    have halloc := alloc_reserve t (some ⟨base, mem⟩) hfilled.freed
    rw [hcount] at halloc
    have hfits : Fits t σ (growCall base mem) := fun _ => by rw [hfilled.count]; omega
    have hstep : ∃ σ', σ.step t (growCall base mem) = some σ' ∧
        Filled base (n + 1) elementSize mem σ' := by
      refine ⟨_, by simp only [Sys.step, exec, growCall, halloc, structarrayReserve,
        Option.map_some]; rfl, ?_⟩
      refine ⟨congrArg (· + 1) hfilled.count, hfilled.elementSize, fun _ => rfl, rfl,
        hfilled.freed, ?_⟩
      intro i hi
      show i ∈ n :: σ.live
      rcases Nat.lt_succ_iff_lt_or_eq.mp hi with hlt | rfl
      · exact List.mem_cons_of_mem _ (hfilled.live i hlt)
      · exact List.mem_cons_self
    obtain ⟨σ', hs, hfilled'⟩ := hstep
    refine ⟨σ', ?_, hfilled'⟩
    rw [List.replicate_succ']
    exact hreach.snoc ⟨hfilled.legal, hfits⟩ hs

/-- After 2^32 allocations the next one returns index 0, which is live, for the
element at 2^32; and freeing the last index leaves `NULL` in `_freed`. -/
theorem index_narrowed :
    ∃ σ s, Reach (Sys.step (x64 false)) (fun σ c => Legal σ c ∧ Fits (x64 false) σ c)
        (Sys.start 1 fun _ => 0) (List.replicate (2 ^ 32) (growCall 0x1000 fun _ => 0)) σ ∧
      Legal σ (growCall 0x1000 fun _ => 0) ∧ σ.world.structs.count = 2 ^ 32 ∧
      alloc (x64 false) (growCall 0x1000 fun _ => 0).env σ.world = some (0, s) ∧ 0 ∈ σ.live ∧
      2 ^ 32 - 1 ∈ σ.live ∧ (free (x64 false) (2 ^ 32 - 1) σ.world).freed = [0] := by
  obtain ⟨σ, hreach, hfilled⟩ := reach_filled (t := x64 false) 0x1000 1 (fun _ => 0) (2 ^ 32)
    (Nat.le_refl _)
  have halloc := alloc_reserve (x64 false) (growCall 0x1000 fun _ => 0).env hfilled.freed
  rw [hfilled.count] at halloc
  refine ⟨σ, _, hreach, hfilled.legal, hfilled.count, halloc, hfilled.live 0 (by decide),
    hfilled.live _ (by decide), ?_⟩
  rw [free_freed, hfilled.freed]
  rfl

end MulleStorage.Indexed
