import MulleStorage.Arena.Effect
import MulleStorage.Arena.Script
import MulleStorage.Lib.Packing

/-!
# Keeping a percentage of the pages

`_mulle_arena_reset_keep_percentage` multiplies and adds in a `size_t`, which
wraps. That it gets the number of pages right is owed to the pages themselves:
they share one address space, so there cannot be many of them, unless they are
small.

> `keep_percentage`: with pages of 200 bytes or more, the smallest number of
> pages that is at least the percentage stays, the oldest ones, and all others go
> back to the default allocator.
-/

namespace MulleStorage.Arena

open MulleStorage.Lib

variable {t : Target}

/-- The pages fit into the address space. -/
theorem PageInv.length_mul_le {s : World} (h : PageInv t s) :
    s.pages.length * s.pageSize ≤ t.modulus := by
  rw [← h.held_length]
  refine Nat.le_trans (Region.length_mul_le_sum fun r hr => (h.region r hr).2.1) ?_
  exact Region.sum_size_le h.apart fun r hr => Nat.le_of_lt (h.region r hr).2.2

/-- So a percentage of them is computed without loss. -/
theorem PageInv.percentage_lt {s : World} (h : PageInv t s) (hsize : 200 ≤ s.pageSize)
    {percent : Nat} (hpercent : percent ≤ 100) :
    s.pages.length * percent + 99 < t.modulus := by
  have hfit := Nat.le_trans (Nat.mul_le_mul_left s.pages.length hsize) h.length_mul_le
  have hscale := Nat.mul_le_mul_left s.pages.length hpercent
  have hpos := t.sizeofSizeT_pos
  -- even a one-byte `size_t` has room for 99
  have hmod : 2 ^ 8 ≤ t.modulus := Nat.pow_le_pow_right (by omega) (by omega)
  omega

/-- What keeping `percent` of the pages does. -/
structure KeptPercentage (t : Target) (percent : Nat) (s s' : World) : Prop where
  inv : PageInv t s'
  /-- The number kept is the least that is enough. -/
  enough : ∀ k, getPageCount s' ≤ k ↔ getPageCount s * min percent 100 ≤ 100 * k
  oldest : s'.pages <+: s.pages
  returned : returnedPages s'.log = (s.pages.drop (getPageCount s')).reverse ++ returnedPages s.log
  obtained : obtainedPages s'.log = obtainedPages s.log
  /-- The first page kept is the current one. -/
  rewound : s'.pages ≠ [] → s'.pageIndex = 0 ∧ s'.pages[0]? = some s'.current

theorem resetKeepPercentage_kept {s : World} (h : PageInv t s) (hsize : 200 ≤ s.pageSize)
    (percent : Nat) : KeptPercentage t percent s (resetKeepPercentage t percent s) := by
  have hpercent : (if percent > 100 then 100 else percent) = min percent 100 := by
    split <;> omega
  have hlt := h.percentage_lt hsize (Nat.min_le_right percent 100)
  unfold resetKeepPercentage
  dsimp only
  rw [hpercent, Nat.mod_eq_of_lt (by omega), Target.add_eq hlt]
  have hreset := resetKeepPages_reset ((s.pages.length * min percent 100 + 99) / 100) h
  have hpages : (resetKeepPages t ((s.pages.length * min percent 100 + 99) / 100) s).pages
      = s.pages.take ((s.pages.length * min percent 100 + 99) / 100) := by
    rw [hreset.inv.pages, hreset.kept, h.pages, List.map_take]
  have hcount : (resetKeepPages t ((s.pages.length * min percent 100 + 99) / 100) s).pages.length
      = (s.pages.length * min percent 100 + 99) / 100 := by
    rw [hpages, List.length_take]
    have := Nat.mul_le_mul_left s.pages.length (Nat.min_le_right percent 100)
    omega
  refine ⟨hreset.inv, ?_, ?_, ?_, hreset.obtained, ?_⟩
  · intro k
    unfold getPageCount
    rw [hcount]
    omega
  · rw [hpages]
    exact List.take_prefix _ _
  · unfold getPageCount
    rw [hcount]
    exact hreset.returned
  · intro hkept
    have hne : s.pages ≠ [] := by
      intro hnil
      rw [hpages, hnil, List.take_nil] at hkept
      exact hkept rfl
    have hindex := hreset.index hne
    exact ⟨hindex, hindex ▸ hreset.current hne hkept⟩

variable {pageSize : Nat} {mem : Mem} {l : List Call} {σ : Sys}

/-- **The percentage is exact.** After every run of direct calls, vtable calls and
resets on an arena with pages of at least 200 bytes, keeping a percentage of the
pages keeps that percentage of them, rounded up, in their order from the oldest,
which is the current one then, and returns each of the others once. More than 100
is 100. -/
theorem keep_percentage (h : Reach (Sys.step t) (Legal t) (Sys.start pageSize mem) l σ)
    (hsize : 200 ≤ σ.world.pageSize) (percent : Nat) :
    KeptPercentage t percent σ.world (resetKeepPercentage t percent σ.world) :=
  resetKeepPercentage_kept (reach_inv (fun hc => hc) h).pages hsize percent

/-- Three pages, one of them oversized. -/
def thirdScript : List Line :=
  [⟨.alloc 200 1, [(200, 0x1000)]⟩, ⟨.callocV 1 300, [(316, 0x2000)]⟩,
    ⟨.alloc 9 8, [(200, 0x3000)]⟩]

/-- 33 percent of them is one. -/
theorem keep_percentage_third :
    let s := (scriptEnd (x64 true) 200 (fun _ => 0) thirdScript).world
    KeptPercentage (x64 true) 33 s (resetKeepPercentage (x64 true) 33 s) ∧
      (resetKeepPercentage (x64 true) 33 s).pages = [0x1000] := by
  intro s
  have hrun : Reach (Sys.step (x64 true)) (Legal (x64 true)) (Sys.start 200 fun _ => 0)
      (thirdScript.map Line.call) (scriptEnd (x64 true) 200 (fun _ => 0) thirdScript) :=
    reach_of_script Line.legal (by decide +kernel)
  exact ⟨keep_percentage hrun (by decide +kernel) 33, by decide +kernel⟩

end MulleStorage.Arena
