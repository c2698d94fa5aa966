import MulleStorage.Arena.Ownership

/-!
# What a call can reach

An arena stays at home. A call changes only bytes of pages the arena holds, or
of a page the default allocator has for it, and that is where the pages come
from that it holds afterwards:

> `step_confined`, `Effect.held_subset`.

One call is the exception: the fill of a debug `free` may run past the end of its
page, which `FillOk` excludes. Blocks that lie over each other make no
difference here: they do so within a page.
-/

namespace MulleStorage.Arena

open MulleStorage.Lib

variable {t : Target}

/-- Pages are obtained from the default allocator, and nowhere else. -/
theorem Effect.held_subset {c : Call} {σ σ' : Sys} {r : Option Nat} (heff : Effect t c σ r σ') :
    ∀ q ∈ held σ'.world.log, q ∈ held σ.world.log ∨ c.sys q.size = some q.base := by
  cases heff with
  | carved _ _ _ halloc =>
    intro q hq
    dsimp only at hq
    rw [Op.held_fill] at hq
    have := halloc.source q hq
    rwa [Op.held_probe] at this
  | extended _ _ _ _ _ hext =>
    intro q hq
    exact Or.inl (hext.held ▸ hq)
  | rewound _ _ _ _ _ _ _ hfree =>
    intro q hq
    exact Or.inl (hfree.held ▸ hq)
  | abandoned => exact fun q hq => Or.inl hq
  | reset _ hreset =>
    intro q hq
    dsimp only at hq
    rw [hreset.kept] at hq
    exact Or.inl (List.mem_of_mem_take hq)
  | written => exact fun q hq => Or.inl hq

/-- A reset clears pages of the arena. -/
theorem resetKeepPages_confined {s : World} (hinv : PageInv t s) (keepCount : Nat) {a : Nat}
    (hout : ∀ r ∈ held s.log, ¬ r.Has a) : (resetKeepPages t keepCount s).mem a = s.mem a := by
  rw [resetKeepPages_eq]
  split
  · rfl
  · refine foldl_blit_outside ?_ s.mem
    intro p hp
    have hp' := List.mem_of_mem_take hp
    rw [hinv.pages] at hp'
    obtain ⟨r, hr, rfl⟩ := List.mem_map.mp hp'
    -- a kept page is at least `_page_size` long
    have hsize := (hinv.region r hr).2.1
    have hnot := hout r hr
    unfold Region.Has at hnot
    omega

theorem exec_reset_confined {σ : Sys} {c : Call} (hinv : Inv t σ) (hop : c.op.IsReset)
    {r : Option Nat × World} (h : exec t c.sys c.op σ.world = some r) {a : Nat}
    (hout : ∀ q ∈ held σ.world.log, ¬ q.Has a) : r.2.mem a = σ.world.mem a := by
  obtain ⟨keepCount, hkeep⟩ := exec_reset (t := t) hop c.sys σ.world
  cases (hkeep σ.world.mem).symm.trans h
  exact resetKeepPages_confined hinv.pages keepCount hout

/-- **Confinement.** A call changes no byte but those of the arena's pages, and
of a page the default allocator has for it. -/
theorem step_confined {σ σ' : Sys} {c : Call} (hinv : Inv t σ) (hlegal : Legal t σ c)
    (hfill : FillOk t σ c.op) (hs : σ.step t c = some σ') {a : Nat}
    (hout : ∀ q ∈ held σ.world.log, ¬ q.Has a) (hold : Old c.sys a) :
    σ'.world.mem a = σ.world.mem a := by
  by_cases hreset : c.op.IsReset
  · obtain ⟨r, hr, rfl⟩ := Option.map_eq_some_iff.mp hs
    rw [Sys.record_world]
    exact exec_reset_confined hinv hreset hr hout
  obtain ⟨r, -, heff⟩ := step_effect hinv hlegal hs
  have hsub := heff.held_subset
  cases heff with
  | @carved p s₁ hsize hlive hmoved halloc =>
    -- the new block, its header included, is inside one of the pages held now
    obtain ⟨q, hq, hbase, hend⟩ := halloc.covers
    dsimp only at hsub
    rw [Op.held_fill] at hsub
    have hnot : ¬ q.Has a := by
      intro ha
      rcases hsub q (List.mem_of_getElem? hq) with hheld | hnew
      · exact hout q hheld ha
      · exact hold q.size q.base hnew ha
    refine halloc.of_probe.fill.mem a hold ?_
    rw [Op.fill_arena]
    unfold Region.Has at hnot
    omega
  | @extended b l s hlive hpage his hplace hsize hext =>
    -- at most the header of the newest block
    obtain ⟨q, hq, hbase, hend⟩ := hinv.held_block (hlive ▸ List.mem_cons_self)
    have hstart := hext.start_eq
    have hlast := hext.last
    have hnot := hout q hq
    refine hext.mem a ?_
    unfold Region.Has at hnot
    unfold Block.stop at hend
    omega
  | @rewound b l s hop hlive hpage hapi hlast hedge hpages hfreed =>
    refine hfreed.mem a ?_
    intro hdebug
    have hb : b ∈ σ.live := hlive ▸ List.mem_cons_self
    obtain ⟨q, hq, hbase, -⟩ := (hinv.placed b hb).covers
    rw [hop] at hfill
    have hend := hfill.edge_le hinv hdebug hb ⟨hapi, rfl⟩ hlast hq
    have hnot := hout q (List.mem_of_getElem? hq)
    unfold Region.Has at hnot
    omega
  | abandoned => rfl
  | reset hop => exact absurd hop hreset
  | @written q bytes hop =>
    have hproper := hlegal.proper
    unfold Proper at hproper
    rw [hop] at hproper
    obtain ⟨b, hb, hbase, hend⟩ := hproper
    obtain ⟨r, hr, hrbase, hrend⟩ := hinv.held_block hb
    have hstart : b.start t ≤ b.ptr := Nat.sub_le _ _
    have hnot := hout r hr
    dsimp only
    refine blit_outside ?_
    unfold Region.Has at hnot
    unfold Block.stop at hrend
    simp only [Block.payload] at hbase hend
    omega

end MulleStorage.Arena
