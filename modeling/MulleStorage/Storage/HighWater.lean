import MulleStorage.Lib.Peak
import MulleStorage.Storage.Index
import MulleStorage.Storage.Pool

/-!
# `_structs` is as large as it has to be

Neither storage gives memory back before `done`, so what it has reserved is the
high-water mark of its use: the most nodes that were ever live at a time. That
holds exactly, because `_structs` grows in one place only, on an empty `_freed`.
Then all its elements are live, and the new one is one more than ever before.

> `high_water_exact`: after every run the number of reserved elements is the
> greatest number of live nodes so far, and a call reserves one exactly when it
> raises that number.
-/

namespace MulleStorage

open MulleStorage.Lib MulleStorage.Arena

variable {t : Target}

/-! ## `mulle_storage` -/

namespace Pool

/-- The number of elements reserved in `_structs`. -/
def Sys.reserved (σ : Sys) : Nat := σ.world.structs.elements.length

/-- The number of nodes clients hold. -/
def Sys.liveCount (σ : Sys) : Nat := σ.live.length

/-- `_structs` grows on an empty `_freed` only. -/
theorem malloc_grows {env : Option Reserved} {p : Nat} {σ : Sys} {s' : World} (hinv : Inv t σ)
    (h : malloc env σ.world = some (p, s')) :
    s'.structs.elements.length = σ.reserved ∨
      s'.freed = [] ∧ s'.structs.elements.length = σ.reserved + 1 := by
  rcases List.eq_nil_or_concat σ.world.freed with hnil | ⟨front, x, hcons⟩
  · right
    rw [malloc_reserve hnil] at h
    obtain ⟨r, -, heq⟩ := Option.map_eq_some_iff.mp h
    obtain ⟨-, rfl⟩ := Prod.mk.inj heq
    exact ⟨hnil, List.length_append⟩
  · left
    rw [List.concat_eq_append] at hcons
    have hmem : x ∈ σ.world.structs.elements := hinv.shared.mem_iff.mpr (Or.inl (by simp [hcons]))
    rw [malloc_recycle hcons (Nat.ne_of_gt (hinv.elements.nonnull x hmem))] at h
    obtain ⟨-, rfl⟩ := Prod.mk.inj (Option.some.inj h)
    rfl

/-- **Step.** -/
theorem Effect.follows {c : Call} {r : Option Nat} {σ σ' : Sys} (heff : Effect t c σ r σ')
    (hinv : Inv t σ) (hlegal : Legal t σ c) : Follows Sys.liveCount Sys.reserved σ σ' := by
  have hinv' := heff.inv hinv hlegal
  have hgrow : σ'.reserved = σ.reserved ∨
      σ'.world.freed = [] ∧ σ'.reserved = σ.reserved + 1 := by
    cases heff with
    | @took p s hop hm =>
      unfold Sys.reserved
      rw [Op.fill_structs, Op.fill_freed]
      exact malloc_grows hinv hm
    | gave =>
      left
      unfold Sys.reserved
      rw [free_structs]
    | wrote hop hs =>
      left
      unfold Sys.reserved
      rw [hs]
  obtain ⟨hmax, hle⟩ := hinv'.shared.follows hgrow
  exact ⟨hmax, hle⟩

end Pool

/-! ## `mulle_indexedstorage` -/

namespace Indexed

/-- The number of elements reserved in `_structs`. -/
def Sys.reserved (σ : Sys) : Nat := σ.world.structs.count

/-- The number of indices clients hold. -/
def Sys.liveCount (σ : Sys) : Nat := σ.live.length

/-- The array grows on an empty `_freed` only. -/
theorem alloc_grows {env : Option Grown} {index : Nat} {σ : Sys} {s' : World} (hinv : Inv t σ)
    (h : alloc t env σ.world = some (index, s')) :
    s'.structs.count = σ.reserved ∨ s'.freed = [] ∧ s'.structs.count = σ.reserved + 1 := by
  obtain ⟨indices, hfreed, hshared⟩ := hinv.shared
  rcases List.eq_nil_or_concat indices with rfl | ⟨front, x, rfl⟩
  · right
    rw [alloc_reserve t env hfreed] at h
    obtain ⟨s, hs, heq⟩ := Option.map_eq_some_iff.mp h
    obtain ⟨r, -, rfl⟩ := Option.map_eq_some_iff.mp hs
    obtain ⟨-, rfl⟩ := Prod.mk.inj heq
    exact ⟨hfreed, rfl⟩
  · left
    rw [List.concat_eq_append] at hfreed hshared
    rw [List.map_append, List.map_singleton] at hfreed
    have hx : x < σ.world.structs.count :=
      List.mem_range.mp (hshared.mem_iff.mpr (Or.inl (by simp)))
    have hlimit := hinv.limit
    rw [alloc_recycle hfreed (by omega)] at h
    obtain ⟨-, rfl⟩ := Prod.mk.inj (Option.some.inj h)
    rfl

/-- **Step.** -/
theorem Effect.follows {c : Call} {r : Option Nat} {σ σ' : Sys} (heff : Effect t c σ r σ')
    (hinv : Inv t σ) (hlegal : Legal σ c) (hbelow : Below t σ c) :
    Follows Sys.liveCount Sys.reserved σ σ' := by
  have hinv' := heff.inv hinv hlegal hbelow
  have hgrow : σ'.reserved = σ.reserved ∨
      σ'.world.freed = [] ∧ σ'.reserved = σ.reserved + 1 := by
    cases heff with
    | took hop halloc => exact alloc_grows hinv halloc
    | gave =>
      left
      unfold Sys.reserved
      rw [free_structs]
    | wrote hop hs =>
      left
      unfold Sys.reserved
      rw [hs]
  obtain ⟨indices, hfreed, hshared⟩ := hinv'.shared
  have hgrow' : (List.range σ'.reserved).length = (List.range σ.reserved).length ∨
      indices = [] ∧ (List.range σ'.reserved).length = (List.range σ.reserved).length + 1 := by
    rw [List.length_range, List.length_range]
    refine hgrow.imp_right (And.imp_left fun hnil => ?_)
    rw [hfreed] at hnil
    exact List.map_eq_nil_iff.mp hnil
  have hfollows := hshared.follows hgrow'
  rw [List.length_range, List.length_range] at hfollows
  exact ⟨hfollows.1, hfollows.2⟩

end Indexed

/-! ## Runs -/

/-- **The high-water mark is exact.** After every run of allocations, frees of
live nodes and client stores, `_structs` holds as many elements as there ever
were live nodes at a time, and a further call reserves an element exactly when
it raises that number. -/
theorem high_water_exact (t : Target) (elementSize : Nat) (mem : Mem) :
    (∀ l σ, Reach (Pool.Sys.step t) (Pool.Legal t) (Pool.Sys.start elementSize mem) l σ →
      HighWater (Pool.Sys.step t) (Pool.Legal t) (Pool.Sys.start elementSize mem)
        Pool.Sys.liveCount Pool.Sys.reserved l σ) ∧
    ∀ l σ, Reach (Indexed.Sys.step t) (fun σ c => Indexed.Legal σ c ∧ Indexed.Below t σ c)
        (Indexed.Sys.start elementSize mem) l σ →
      HighWater (Indexed.Sys.step t) (fun σ c => Indexed.Legal σ c ∧ Indexed.Below t σ c)
        (Indexed.Sys.start elementSize mem) Indexed.Sys.liveCount Indexed.Sys.reserved l σ := by
  constructor
  · intro l σ h
    refine Reach.highWater Pool.reach_inv ?_ ?_ h
    · rfl
    · intro σ c σ' hinv hlegal hs
      obtain ⟨r, heff⟩ := Pool.step_effect hs
      exact heff.follows hinv hlegal
  · intro l σ h
    refine Reach.highWater Indexed.reach_inv ?_ ?_ h
    · rfl
    · intro σ c σ' hinv hc hs
      obtain ⟨r, heff⟩ := Indexed.step_effect hs
      exact heff.follows hinv hc.1 hc.2

/-- Three allocations with a release between them: two elements. -/
theorem high_water_exact_recycled :
    let σ := runEnd (Pool.Sys.step (x64 true)) (Pool.Sys.start 4 fun _ => 0) Pool.poolCalls
    let τ := runEnd (Indexed.Sys.step (x64 true)) (Indexed.Sys.start 4 fun _ => 0)
      Indexed.indexedCalls
    HighWater (Pool.Sys.step (x64 true)) (Pool.Legal (x64 true)) (Pool.Sys.start 4 fun _ => 0)
      Pool.Sys.liveCount Pool.Sys.reserved Pool.poolCalls σ ∧ σ.reserved = 2 ∧
    HighWater (Indexed.Sys.step (x64 true))
      (fun σ c => Indexed.Legal σ c ∧ Indexed.Below (x64 true) σ c) (Indexed.Sys.start 4 fun _ => 0)
      Indexed.Sys.liveCount Indexed.Sys.reserved Indexed.indexedCalls τ ∧ τ.reserved = 2 :=
  ⟨(high_water_exact _ 4 _).1 _ _ (Reach.of_runEnd (by decide +kernel)), by decide +kernel,
    (high_water_exact _ 4 _).2 _ _ (Reach.of_runEnd (by decide +kernel)), by decide +kernel⟩

end MulleStorage
