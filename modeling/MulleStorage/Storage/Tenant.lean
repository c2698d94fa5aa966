import MulleStorage.Lib.Tenants
import MulleStorage.Storage.Index
import MulleStorage.Storage.Pool

/-!
# Storages among neighbours

A `mulle_storage` owns its elements, a `mulle_indexedstorage` the array it has at
the moment. For a call, a container may be given a new element, or a place for
the larger array, and it may store elsewhere as it makes room: all of that is
`given`, and none of it may be a neighbour's.

> `Pool.settled`, `Indexed.settled`: both get along with any neighbours.
-/

namespace MulleStorage

open MulleStorage.Lib MulleStorage.Arena

variable {t : Target}

namespace Pool

/-- A storage among others. -/
def tenant (t : Target) : Tenant Sys Call where
  mem σ := σ.world.mem
  withMem m σ := { σ with world := { σ.world with mem := m } }
  owns σ a := ∃ p ∈ σ.world.structs.elements, Region.Has ⟨p, σ.world.size⟩ a
  given σ c a := ∃ r ∈ c.env, Region.Has ⟨r.ptr, σ.world.size⟩ a ∨ r.mem a ≠ σ.world.mem a
  step := Sys.step t
  ok := Legal t
  mem_withMem _ _ := rfl
  owns_withMem _ _ _ := Iff.rfl

/-- The two things a `_mulle_storage_malloc` can be. -/
theorem malloc_cases {env : Option Reserved} {p : Nat} {s s' : World}
    (h : malloc env s = some (p, s')) :
    (s'.structs = s.structs ∧ s'.mem = s.mem) ∨
    ∃ r ∈ env, s'.structs = { s.structs with elements := s.structs.elements ++ [r.ptr] } ∧
      s'.mem = r.mem := by
  unfold malloc at h
  dsimp only at h
  split at h
  · obtain ⟨r, hr, heq⟩ := Option.map_eq_some_iff.mp h
    cases heq
    exact Or.inr ⟨r, hr, rfl, rfl⟩
  · cases h
    exact Or.inl ⟨rfl, rfl⟩

/-- The elements are those there were, and at most one new one. -/
theorem Effect.elements {c : Call} {σ σ' : Sys} {r : Option Nat} (heff : Effect t c σ r σ') :
    σ'.world.size = σ.world.size ∧
    ∀ p ∈ σ'.world.structs.elements, p ∈ σ.world.structs.elements ∨ ∃ q ∈ c.env, p = q.ptr := by
  cases heff with
  | @took p s hop hm =>
    dsimp only
    rw [Op.fill_structs, Op.fill_size]
    rcases malloc_cases hm with ⟨hstructs, -⟩ | ⟨q, hq, hstructs, -⟩
    · exact ⟨congrArg Structqueue.elementSize hstructs, fun x hx => Or.inl (hstructs ▸ hx)⟩
    · have hsize : s.structs.elementSize = σ.world.structs.elementSize := by rw [hstructs]
      refine ⟨hsize, fun x hx => ?_⟩
      rw [hstructs] at hx
      rcases List.mem_append.mp hx with hold | hnew
      · exact Or.inl hold
      · exact Or.inr ⟨q, hq, List.mem_singleton.mp hnew⟩
  | gave =>
    dsimp only
    rw [free_structs, free_size]
    exact ⟨rfl, fun _ hx => Or.inl hx⟩
  | wrote _ hs =>
    subst hs
    exact ⟨rfl, fun _ hx => Or.inl hx⟩

/-- **A storage gets along with its neighbours.** -/
theorem settled (t : Target) : (tenant t).Settled (Inv t) where
  keeps hinv hlegal hs :=
    let ⟨_, heff⟩ := step_effect hs
    heff.inv hinv hlegal
  takes := by
    intro σ c σ' _ _ hs a howns
    obtain ⟨p, hp, ha⟩ := howns
    obtain ⟨_, heff⟩ := step_effect hs
    obtain ⟨hsize, helements⟩ := heff.elements
    rw [hsize] at ha
    rcases helements p hp with hold | ⟨q, hq, rfl⟩
    · exact Or.inl ⟨p, hold, ha⟩
    · exact Or.inr ⟨q, hq, Or.inl ha⟩
  confined := by
    intro σ c σ' hinv hlegal hs a hout hgiven
    obtain ⟨r, heff⟩ := step_effect hs
    -- stores into an element are stores elsewhere
    have helement : ∀ p ∈ σ.world.structs.elements, ¬ Region.Has ⟨p, σ.world.size⟩ a :=
      fun p hp ha => hout ⟨p, hp, ha⟩
    have hlive : ∀ p ∈ σ.live, ¬ Region.Has ⟨p, σ.world.size⟩ a :=
      fun p hp => helement p (hinv.shared.mem_of_live hp)
    obtain ⟨op, env⟩ := c
    cases heff with
    | @took p s hop hm =>
      have htaken := malloc_taken hinv hlegal.reserve hm
      rcases htaken.origin with ⟨hp, hmem⟩ | ⟨q, hq, rfl, hmem⟩
      · have hnot := helement p hp
        rw [← htaken.size] at hnot
        exact (op.fill_outside hnot).trans (congrFun hmem a)
      · have hnot : ¬ Region.Has ⟨q.ptr, s.size⟩ a := by
          rw [htaken.size]
          exact fun ha => hgiven ⟨q, hq, Or.inl ha⟩
        refine (op.fill_outside hnot).trans ((congrFun hmem a).trans ?_)
        by_contra hne
        exact hgiven ⟨q, hq, Or.inr hne⟩
    | @gave p hop =>
      cases hop
      exact free_outside (hlive p hlegal.proper)
    | @wrote p off bytes s hop hworld =>
      cases hop
      subst hworld
      obtain ⟨hp, hfit⟩ := hlegal.proper
      have hnot := hlive p hp
      dsimp only [tenant]
      refine blit_outside ?_
      simp only [Region.Has] at hnot
      omega
  relies := by
    intro σ m hinv hm
    refine ⟨hinv.shared, hinv.elements, hinv.tracks.congr ?_⟩
    intro p hp
    refine bytesAt_congr fun i hi => hm _ ⟨p, hinv.shared.mem_of_live hp, ?_⟩
    exact ⟨Nat.le_add_right _ _, Nat.add_lt_add_left hi _⟩

end Pool

namespace Indexed

/-- The array as it lies now. -/
def World.region (s : World) : Region := ⟨s.structs.base, s.structs.count * s.size⟩

/-- An indexed storage among others. -/
def tenant (t : Target) : Tenant Sys Call where
  mem σ := σ.world.mem
  withMem m σ := { σ with world := { σ.world with mem := m } }
  owns σ a := σ.world.region.Has a
  given σ c a := ∃ r ∈ c.env,
    Region.Has ⟨r.base, (σ.world.structs.count + 1) * σ.world.size⟩ a ∨ r.mem a ≠ σ.world.mem a
  step := Sys.step t
  ok σ c := Legal σ c ∧ Below t σ c
  mem_withMem _ _ := rfl
  owns_withMem _ _ _ := Iff.rfl

/-- The bytes behind an index are inside the array. -/
theorem World.has_get {s : World} {index i : Nat} (hindex : index < s.structs.count)
    (hi : i < s.size) : s.region.Has (get index s + i) := by
  have hle : (index + 1) * s.size ≤ s.structs.count * s.size := Nat.mul_le_mul_right _ hindex
  rw [Nat.succ_mul] at hle
  unfold World.region Region.Has get structarrayGet
  dsimp only
  have hsize : s.structs.elementSize = s.size := rfl
  rw [hsize]
  omega

/-- A store behind an index is a store into the array. -/
theorem World.not_has_get {s : World} {index a : Nat} (hindex : index < s.structs.count)
    (ha : ¬ s.region.Has a) : ¬ Region.Has ⟨get index s, s.size⟩ a := by
  intro hhas
  obtain ⟨hle, hlt⟩ := hhas
  dsimp only at hle hlt
  have hhas := World.has_get (s := s) (i := a - get index s) hindex (by omega)
  rw [show get index s + (a - get index s) = a by omega] at hhas
  exact ha hhas

/-- The two things an `_mulle_indexedstorage_alloc` can be. -/
theorem alloc_cases {env : Option Grown} {index : Nat} {s s' : World}
    (h : alloc t env s = some (index, s')) :
    (s'.structs = s.structs ∧ s'.mem = s.mem) ∨
    ∃ r ∈ env, s'.structs = { s.structs with base := r.base, count := s.structs.count + 1 } ∧
      s'.mem = r.mem := by
  unfold alloc at h
  dsimp only at h
  split at h
  · cases h
    exact Or.inl ⟨rfl, rfl⟩
  · obtain ⟨s₁, hs, heq⟩ := Option.map_eq_some_iff.mp h
    obtain ⟨r, hr, rfl⟩ := Option.map_eq_some_iff.mp hs
    cases heq
    exact Or.inr ⟨r, hr, rfl, rfl⟩

/-- **An indexed storage gets along with its neighbours.** -/
theorem settled (t : Target) : (tenant t).Settled (Inv t) where
  keeps hinv hok hs :=
    let ⟨_, heff⟩ := step_effect hs
    heff.inv hinv hok.1 hok.2
  takes := by
    intro σ c σ' _ _ hs a ha
    obtain ⟨_, heff⟩ := step_effect hs
    cases heff with
    | @took index s hop halloc =>
      rcases alloc_cases halloc with ⟨hstructs, -⟩ | ⟨r, hr, hstructs, -⟩
      · refine Or.inl ?_
        show Region.Has ⟨σ.world.structs.base, σ.world.structs.count * σ.world.structs.elementSize⟩ a
        rw [← hstructs]
        exact ha
      · refine Or.inr ⟨r, hr, Or.inl ?_⟩
        have ha' : Region.Has ⟨s.structs.base, s.structs.count * s.structs.elementSize⟩ a := ha
        rw [hstructs] at ha'
        exact ha'
    | @gave index hop =>
      refine Or.inl ?_
      show Region.Has ⟨σ.world.structs.base, σ.world.structs.count * σ.world.structs.elementSize⟩ a
      rw [← free_structs t index σ.world]
      exact ha
    | wrote hop hworld =>
      subst hworld
      exact Or.inl ha
  confined := by
    intro σ c σ' hinv ⟨hlegal, hbelow⟩ hs a hout hgiven
    obtain ⟨_, heff⟩ := step_effect hs
    obtain ⟨op, env⟩ := c
    cases heff with
    | @took index s hop halloc =>
      rcases alloc_cases halloc with ⟨-, hmem⟩ | ⟨r, hr, -, hmem⟩
      · exact congrFun hmem a
      · refine (congrFun hmem a).trans ?_
        by_contra hne
        exact hgiven ⟨r, hr, Or.inr hne⟩
    | @gave index hop =>
      cases hop
      exact free_outside (World.not_has_get (hinv.lt_count hlegal.proper) hout)
    | @wrote index off bytes s hop hworld =>
      cases hop
      subst hworld
      obtain ⟨hlive, hfit⟩ := hlegal.proper
      have hnot := World.not_has_get (hinv.lt_count hlive) hout
      dsimp only [tenant]
      refine blit_outside ?_
      simp only [Region.Has] at hnot
      omega
  relies := by
    intro σ m hinv hm
    refine ⟨hinv.shared, hinv.limit, hinv.tracks.congr ?_⟩
    intro index hlive
    exact bytesAt_congr fun i hi => hm _ (World.has_get (hinv.lt_count hlive) hi)

end Indexed

end MulleStorage
