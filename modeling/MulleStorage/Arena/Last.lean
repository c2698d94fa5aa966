import MulleStorage.Arena.Effect
import MulleStorage.Arena.Script

/-!
# What `_last` names

`_last` holds the user pointer of a direct block and the header address of a
vtable block, and five operations set, keep or clear it. The tests against it
decide whether a `realloc`, a `reallocarray` or a `free` may move the cursor, so
they must not match any block but the newest.

- `Stamps` orders the live blocks by age and says that the block `_last` names,
  if any, is the last one carved at all, dead blocks included;
- `reach_origin` finds the call of a run that handed out a live block;
- `last_test_newest` puts both together for a block that passes the test.
-/

namespace MulleStorage.Arena

open MulleStorage.Lib

variable {t : Target}

/-- The test against `_last` that the block's API makes of it. -/
def LastTest (t : Target) (s : World) (b : Block) : Prop :=
  match b.api with
  | .direct => b.ptr = s.last
  | .vtable => t.sub b.ptr t.sizeofSizeT = s.last

instance (t : Target) (s : World) : (b : Block) → Decidable (LastTest t s b)
  | ⟨.direct, _, _, _, _⟩ | ⟨.vtable, _, _, _, _⟩ => inferInstanceAs (Decidable (_ = _))

/-- For a live block, both tests compare its start. -/
theorem Inv.start_eq_of_lastTest {σ : Sys} (h : Inv t σ) {b : Block} (hb : b ∈ σ.live)
    (htest : LastTest t σ.world b) : b.start t = σ.world.last := by
  unfold LastTest at htest
  cases hapi : b.api with
  | direct =>
    rw [hapi] at htest
    unfold Block.start
    rw [hapi]
    exact htest
  | vtable =>
    rw [hapi] at htest
    exact (h.raw_eq hb ⟨hapi, rfl⟩).2.symm.trans htest

/-! ## Age -/

/-- Live blocks are stamped in the order they were carved, and while `_last` is
set no block has been carved since the newest of them. -/
structure Stamps (σ : Sys) : Prop where
  older : σ.live.Pairwise fun b d => d.stamp < b.stamp
  lt_clock : ∀ b ∈ σ.live, b.stamp < σ.clock
  top : ∀ b l, σ.live = b :: l → σ.world.last ≠ 0 → b.stamp + 1 = σ.clock

namespace Stamps

variable {σ : Sys}

theorem start (pageSize : Nat) (mem : Mem) : Stamps (Sys.start pageSize mem) where
  older := .nil
  lt_clock _ hb := absurd hb List.not_mem_nil
  top _ _ hlive := nomatch hlive

theorem tail (h : Stamps σ) {b : Block} {l : List Block} (hlive : σ.live = b :: l) :
    l.Pairwise (fun b d => d.stamp < b.stamp) ∧ (∀ d ∈ l, d.stamp < b.stamp) ∧
    ∀ d ∈ l, d.stamp < σ.clock := by
  have holder := h.older
  rw [hlive] at holder
  obtain ⟨hhead, htail⟩ := List.pairwise_cons.mp holder
  exact ⟨htail, hhead, fun d hd => h.lt_clock d (hlive ▸ List.mem_cons_of_mem b hd)⟩

end Stamps

theorem Effect.stamps {c : Call} {σ σ' : Sys} {r : Option Nat} (h : Effect t c σ r σ')
    (hinv : Inv t σ) (hst : Stamps σ) : Stamps σ' := by
  cases h with
  | carved =>
    refine ⟨List.pairwise_cons.mpr ⟨?_, hst.older.filter _⟩,
      List.forall_mem_cons.mpr ⟨Nat.lt_succ_self _, ?_⟩, ?_⟩
    · intro d hd
      exact hst.lt_clock d (List.mem_filter.mp hd).1
    · intro d hd
      exact Nat.lt_succ_of_lt (hst.lt_clock d (List.mem_filter.mp hd).1)
    · intro b l hlive _
      cases hlive
      rfl
  | @extended b l s hlive _ _ _ _ hext =>
    obtain ⟨htail, hhead, hclock⟩ := hst.tail hlive
    have hb := hst.lt_clock b (hlive ▸ List.mem_cons_self)
    refine ⟨List.pairwise_cons.mpr ⟨hhead, htail⟩, List.forall_mem_cons.mpr ⟨hb, hclock⟩,
      ?_⟩
    intro b' l' hlive' hlast
    cases hlive'
    refine hst.top b l hlive ?_
    rw [← hext.last]
    exact hlast
  | rewound _ hlive _ _ _ _ _ hfree =>
    obtain ⟨htail, -, hclock⟩ := hst.tail hlive
    exact ⟨htail, hclock, fun _ _ _ hlast => absurd hfree.last hlast⟩
  | @abandoned ptr _ hother =>
    refine ⟨hst.older.filter _, fun b hb => hst.lt_clock b (List.mem_filter.mp hb).1,
      ?_⟩
    intro b l hlive hlast
    -- the block `_last` names is not the one freed, so it is still on top
    obtain ⟨d, l', hlive', -, hkey, -⟩ := hinv.stacked.top hlast
    have hkeep : ¬ d.Is .vtable ptr := fun his => hother d (hlive' ▸ List.mem_cons_self) his hkey
    dsimp only at hlive
    rw [hlive', List.filter_cons_of_pos (by simpa using hkeep)] at hlive
    cases hlive
    exact hst.top b l' hlive' hlast
  | reset => exact ⟨.nil, fun b hb => absurd hb List.not_mem_nil, fun _ _ hlive => nomatch hlive⟩
  | written => exact ⟨hst.older, hst.lt_clock, hst.top⟩

/-! ## Along a run -/

variable {pageSize : Nat} {mem : Mem} {l : List Call} {σ : Sys}

theorem reach_stamps (h : Reach (Sys.step t) (Legal t) (Sys.start pageSize mem) l σ) :
    Stamps σ := by
  have hboth := reach_inv_and id (Stamps.start pageSize mem)
    (fun hinv _ heff hst => heff.stamps hinv hst) h
  exact hboth.2

/-- The call `c` of the run `l` returned `ptr` for a new block, the one with the
given stamp. -/
def CarvedIn (t : Target) (pageSize : Nat) (mem : Mem) (l : List Call) (ptr stamp : Nat) : Prop :=
  ∃ l₁ c l₂ σ₁ σ₂, l = l₁ ++ c :: l₂ ∧
    Reach (Sys.step t) (Legal t) (Sys.start pageSize mem) l₁ σ₁ ∧ σ₁.step t c = some σ₂ ∧
    (exec t c.sys c.op σ₁.world).map Prod.fst = some (some ptr) ∧
    σ₁.clock = stamp ∧ σ₂.clock = stamp + 1

/-- Every live block was handed out by a call of the run. -/
theorem reach_origin (h : Reach (Sys.step t) (Legal t) (Sys.start pageSize mem) l σ) :
    ∀ b ∈ σ.live, CarvedIn t pageSize mem l b.ptr b.stamp := by
  induction h with
  | nil => exact fun b hb => absurd hb List.not_mem_nil
  | @snoc l σ σ' c hrun hlegal hs ih =>
    intro b hb
    obtain ⟨r, hr, heff⟩ := step_effect (reach_inv id hrun) hlegal hs
    rcases heff.mem_live hb with ⟨d, hd, -, hptr, hstamp⟩ | ⟨rfl, -, hstamp, hclock⟩
    · -- there before: the call that carved it is further back in the run
      obtain ⟨l₁, c₁, l₂, σ₁, σ₂, hl, hrest⟩ := ih d hd
      rw [hptr, hstamp] at hrest
      exact ⟨l₁, c₁, l₂ ++ [c], σ₁, σ₂, by rw [hl]; simp, hrest⟩
    · -- carved by this call
      exact ⟨l, c, [], σ, σ', rfl, hrun, hs, hr, hstamp.symm, hstamp ▸ hclock⟩

/-- `b` is the newest block: no other has been carved since, and the arena's
cursor may be moved anywhere behind its start. -/
structure Newest (t : Target) (pageSize : Nat) (mem : Mem) (l : List Call) (σ : Sys)
    (b : Block) : Prop where
  /-- A call of the run returned it, … -/
  origin : CarvedIn t pageSize mem l b.ptr b.stamp
  /-- … and that was the last one to carve a block. -/
  newest : b.stamp + 1 = σ.clock
  /-- The other live blocks are older, -/
  older : ∀ d ∈ σ.live, d ≠ b → d.stamp < b.stamp
  /-- and those of its page leave the cursor's range from its start on alone. -/
  below : ∀ d ∈ σ.live, d ≠ b → d.page = b.page → d.edge t ≤ b.start t
  /-- It lies in the current page. -/
  page : b.page = σ.world.pageIndex
  inside : ∃ r ∈ held σ.world.log, σ.world.pages[σ.world.pageIndex]? = some r.base ∧
    r.base ≤ b.start t ∧ b.stop ≤ r.base + r.size

/-- **The fast path fires only for the newest block**, whichever API `_last` was
set by and whichever tests it. -/
theorem last_test_newest (h : Reach (Sys.step t) (Legal t) (Sys.start pageSize mem) l σ)
    {b : Block} (hb : b ∈ σ.live) (htest : LastTest t σ.world b) :
    Newest t pageSize mem l σ b := by
  have hinv := reach_inv id h
  have hst := reach_stamps h
  have hstart := hinv.start_eq_of_lastTest hb htest
  have hplaced := hinv.placed b hb
  obtain ⟨l', hlive, hpage, -⟩ := hinv.top_of_start hb hstart
  have hlast : σ.world.last ≠ 0 := by
    have := (hplaced.bounds hinv.pages).1
    omega
  have hother : ∀ d ∈ σ.live, d ≠ b → d ∈ l' := by
    intro d hd hne
    rw [hlive] at hd
    exact (List.mem_cons.mp hd).resolve_left hne
  refine ⟨reach_origin h b hb, hst.top b l' hlive hlast,
    fun d hd hne => (hst.tail hlive).2.1 d (hother d hd hne), ?_, hpage, ?_⟩
  · intro d hd hne hdpage
    have hafter := hinv.after_of_top hlive d (hother d hd hne)
    unfold Shape.After shape at hafter
    dsimp only at hafter
    omega
  · obtain ⟨r, hr, hbase, hstop⟩ := hplaced.covers
    refine ⟨r, List.mem_of_getElem? hr, ?_, hbase, hstop⟩
    rw [hinv.pages.pages, List.getElem?_map, ← hpage, hr]
    rfl

/-- Both APIs on one page, and a vtable block on top. -/
def mixedScript : List Line :=
  [⟨.callocV 1 16, [(64, 0x1000)]⟩, ⟨.alloc 8 4, []⟩, ⟨.callocV 1 1, []⟩]

theorem last_test_newest_mixed :
    Newest (x64 false) 64 (fun _ => 0) (mixedScript.map Line.call)
      (scriptEnd (x64 false) 64 (fun _ => 0) mixedScript) ⟨.vtable, 4136, 1, 0, 2⟩ :=
  last_test_newest (reach_of_script Line.legal (by decide +kernel)) (by decide +kernel)
    (by decide +kernel)

end MulleStorage.Arena
