import MulleStorage.Arena.Last

/-!
# Freeing the newest block

A vtable `free` of the newest block steps the cursor back to the block's header
and clears `_last`. Whatever the block went through in place since it was
allocated, its start did not move, so the step back undoes all of it; and with
`_last` cleared, a second `free` finds nothing to undo.

What `placeHeader` returns and where it leaves the arena depends on the cursor
alone, so on the same cursor it returns the same pointer.

> `free_last_reclaims`: after a vtable allocation of `p`, resizes of `p` in place
> and frees of `p`, the next vtable allocation that fits in front of `_sentinel`
> returns `p`; and a `free` of another block does nothing at all.
-/

namespace MulleStorage.Arena

open MulleStorage.Lib

variable {t : Target}

/-! ## Calls that leave the newest block where it is -/

/-- `s'` is `s` up to the end of its newest block: same page, same `_last`. -/
structure SameTop (s s' : World) : Prop where
  pages : s'.pages = s.pages
  pageIndex : s'.pageIndex = s.pageIndex
  sentinel : s'.sentinel = s.sentinel
  last : s'.last = s.last

theorem SameTop.refl (s : World) : SameTop s s := ⟨rfl, rfl, rfl, rfl⟩

theorem SameTop.trans {s s' s'' : World} (h : SameTop s s') (h' : SameTop s' s'') :
    SameTop s s'' where
  pages := h'.pages.trans h.pages
  pageIndex := h'.pageIndex.trans h.pageIndex
  sentinel := h'.sentinel.trans h.sentinel
  last := h'.last.trans h.last

/-- A `reallocarray` in place. -/
theorem reallocarrayV_sameTop {sys : Nat → Option Nat} {block n size p : Nat} {s s' : World}
    (h : reallocarrayV t sys block n size s = some (p, s'))
    (hplace : InPlace t s (.reallocarrayV block n size)) : SameTop s s' := by
  obtain ⟨hpos, hlt⟩ := reallocarrayV_size h
  rw [reallocarrayV_inPlace hpos hlt hplace] at h
  cases h
  exact ⟨rfl, rfl, rfl, rfl⟩

/-- A `reallocarray` of `p`. -/
def Op.IsReallocarrayOf (p : Nat) : Op → Prop
  | .reallocarrayV block _ _ => block = p
  | _ => False

/-- The call resizes the vtable block `p` and returns `p`. -/
def Resizes (t : Target) (p : Nat) (σ : Sys) (c : Call) : Prop :=
  c.op.IsReallocarrayOf p ∧ (exec t c.sys c.op σ.world).map Prod.fst = some (some p)

instance (p : Nat) : DecidablePred (Op.IsReallocarrayOf p)
  | .reallocarrayV block _ _ => inferInstanceAs (Decidable (block = p))
  | .alloc .. | .calloc .. | .memdup .. | .strdup .. | .realloc .. | .callocV .. | .freeV ..
  | .reset | .resetKeepPages .. | .resetKeepPercentage .. | .write .. => isFalse id

instance (p : Nat) (σ : Sys) (c : Call) : Decidable (Resizes t p σ c) :=
  inferInstanceAs (Decidable (_ ∧ _))

/-- A vtable block that a call returned starts where `_last` says. -/
theorem Effect.last_eq {c : Call} {σ σ' : Sys} {p : Nat} (h : Effect t c σ (some p) σ')
    (hapi : c.op.api = .vtable) : p = σ'.world.last + t.sizeofSizeT := by
  cases h with
  | carved hsize hold hmoved halloc =>
    rw [Op.fill_arena, halloc.start, hapi]
    rfl
  | @extended b l s hlive hpage his hplace hsize hext =>
    rw [hext.last, hext.start, his.1, hapi]
    rfl

/-- A `reallocarray` that returned its block resized it in place. -/
theorem Resizes.sameTop {p : Nat} {σ σ' : Sys} {c : Call} (h : Resizes t p σ c) (hinv : Inv t σ)
    (hlegal : Legal t σ c) (hs : σ.step t c = some σ') : SameTop σ.world σ'.world := by
  obtain ⟨hresize, hret⟩ := h
  obtain ⟨n, size, hop⟩ : ∃ n size, c.op = .reallocarrayV p n size := by
    cases hc : c.op with
    | reallocarrayV block n size =>
      rw [hc] at hresize
      exact ⟨n, size, by rw [show block = p from hresize]⟩
    | _ =>
      rw [hc] at hresize
      exact hresize.elim
  obtain ⟨r, hr, heff⟩ := step_effect hinv hlegal hs
  obtain rfl : r = some p := Option.some.inj (hr.symm.trans hret)
  cases heff with
  | carved hsize hold hmoved halloc =>
    -- a new block is not where the old one is
    have hpos := halloc.pos.2
    rw [hop] at hold
    rcases hold with hzero | ⟨b, hb, hapi, hptr⟩
    · exact absurd hzero (Nat.ne_of_gt hpos)
    · have hne := halloc.of_probe.ptr_ne hinv hsize hb (hapi.trans (by rw [hop]))
      exact absurd hptr.symm hne
  | extended hlive hpage his hplace =>
    obtain ⟨⟨q, s⟩, hexec, hrec⟩ := Option.map_eq_some_iff.mp hs
    rw [hop] at hexec hplace
    obtain ⟨⟨p', s'⟩, hx, heq⟩ := Option.map_eq_some_iff.mp hexec
    cases heq
    have hsame := reallocarrayV_sameTop hx hplace
    rw [← hrec, Sys.record_world]
    exact hsame

/-! ## The step back -/

/-- Freeing the newest block again does nothing: `_last` is cleared. -/
theorem freeV_iterate {p : Nat} {s : World} (hp : p ≠ 0)
    (hlast : t.sub p t.sizeofSizeT = s.last) (hpos : 0 < s.last) (k : Nat) :
    (freeV t p)^[k + 1] s = freeV t p s := by
  rw [Function.iterate_succ_apply]
  apply Function.iterate_fixed
  apply freeV_other
  have hcleared : (freeV t p s).last = 0 := by rw [freeV_newest_arena hp hlast]
  rw [hcleared, hlast]
  exact Nat.ne_of_gt hpos

/-- The size in front of a block placed behind the cursor, its payload filled. -/
theorem loadWord_placeHeader {size : Nat} {s : World}
    (hlt : s.current + t.sizeofSizeT + size < t.modulus) {m : Mem}
    (hm : ∀ a, a < s.current + t.sizeofSizeT → m a = (placeHeader t size s).2.mem a) :
    loadWord m s.current t.sizeofSizeT = size := by
  have hbytes : loadWord m s.current t.sizeofSizeT
      = loadWord (placeHeader t size s).2.mem s.current t.sizeofSizeT :=
    loadWord_congr fun i hi => hm _ (Nat.add_lt_add_left hi _)
  rw [hbytes, placeHeader_eq hlt]
  exact loadWord_blit (by rw [← t.modulus_eq]; omega)

/-! ## Runs -/

variable {pageSize : Nat} {mem : Mem} {l : List Call} {σ : Sys}

/-- A vtable allocation of `n * size` bytes. -/
def Op.AllocatesV (n size : Nat) (op : Op) : Prop :=
  op = .callocV n size ∨ op = .reallocarrayV 0 n size

/-- A vtable allocation with room behind the cursor. -/
theorem exec_allocatesV {op : Op} {n size : Nat} {s : World} (sys : Nat → Option Nat)
    (hop : op.AllocatesV n size) (hpos : 0 < n * size) (hsentinel : s.sentinel < t.modulus)
    (hfit : s.current + t.sizeofSizeT + n * size ≤ s.sentinel) :
    ∃ s', exec t sys op s = some (some (s.current + t.sizeofSizeT), s') ∧
      s'.pages = s.pages ∧ s'.pageIndex = s.pageIndex ∧
      loadWord s'.mem s.current t.sizeofSizeT = n * size := by
  have hlt : s.current + t.sizeofSizeT + n * size < t.modulus := by omega
  have hfits : FitsPageV t s (n * size) := by
    unfold FitsPageV
    rw [Target.add_eq (b := t.sizeofSizeT) (by omega), Target.add_eq hlt]
    exact ⟨hfit, by omega⟩
  have halloc := allocWithSizeHeader_here sys hfits
  have hplaced : (placeHeader t (n * size) s).1 = s.current + t.sizeofSizeT := by
    rw [placeHeader_eq hlt]
  rcases hop with rfl | rfl
  · have hexec : exec t sys (.callocV n size) s = some (some (s.current + t.sizeofSizeT),
        (placeHeader t (n * size) s).2.memset (s.current + t.sizeofSizeT) (n * size) fun _ => 0) := by
      rw [← hplaced]
      simp only [exec, callocV_eq hpos (Nat.lt_of_le_of_lt (Nat.le_add_left _ _) hlt), halloc,
        Option.map_some, Op.fill]
    refine ⟨_, hexec, rfl, rfl, loadWord_placeHeader hlt ?_⟩
    intro a ha
    simp only [World.memset]
    exact blit_outside (Or.inl ha)
  · have hexec : exec t sys (.reallocarrayV 0 n size) s = some (some (s.current + t.sizeofSizeT),
        (placeHeader t (n * size) s).2) := by
      rw [← hplaced]
      simp only [exec, reallocarrayV_null hpos (Nat.lt_of_le_of_lt (Nat.le_add_left _ _) hlt),
        halloc, Option.map_some]
    exact ⟨_, hexec, rfl, rfl, loadWord_placeHeader hlt fun _ _ => rfl⟩

/-- After frees of the newest block, the same: the allocation returns that block. -/
theorem exec_reclaims {op : Op} {n size p : Nat} {s : World} (sys : Nat → Option Nat)
    (hinv : PageInv t s) (hpos : 0 < s.last) (hp : p = s.last + t.sizeofSizeT)
    (hraw : t.sub p t.sizeofSizeT = s.last) (hop : op.AllocatesV n size) (hsize : 0 < n * size)
    (hfit : p + n * size ≤ s.sentinel) (k : Nat) :
    ∃ s', exec t sys op ((freeV t p)^[k + 1] s) = some (some p, s') ∧
      s'.pages = s.pages ∧ s'.pageIndex = s.pageIndex ∧
      loadWord s'.mem (p - t.sizeofSizeT) t.sizeofSizeT = n * size := by
  have hne : p ≠ 0 := by omega
  have hfreed := freeV_newest_arena hne hraw
  have hpages : (freeV t p s).pages = s.pages := by rw [hfreed]
  have hindex : (freeV t p s).pageIndex = s.pageIndex := by rw [hfreed]
  have hsentinel : (freeV t p s).sentinel = s.sentinel := by rw [hfreed]
  have hcurrent : (freeV t p s).current = s.last := by rw [hfreed]
  have hlt := hinv.sentinel_lt
  rw [freeV_iterate hne hraw hpos]
  obtain ⟨s', hexec, hpages', hindex', hword⟩ := exec_allocatesV (t := t)
    (s := freeV t p s) sys hop hsize (by omega) (by omega)
  rw [hcurrent, ← hp] at hexec
  refine ⟨s', hexec, hpages'.trans hpages, hindex'.trans hindex, ?_⟩
  rw [show p - t.sizeofSizeT = (freeV t p s).current by omega]
  exact hword

/-- Resizes of a block leave its page and `_last` as they are. -/
theorem Resizes.reach_sameTop {p : Nat} {σ₁ σ₂ : Sys} {l' : List Call} (hinv : Inv t σ₁)
    (h : Reach (Sys.step t) (fun τ d => Legal t τ d ∧ Resizes t p τ d) σ₁ l' σ₂) :
    Inv t σ₂ ∧ SameTop σ₁.world σ₂.world := by
  apply Reach.inv (P := fun τ => Inv t τ ∧ SameTop σ₁.world τ.world) ⟨hinv, SameTop.refl _⟩ _ h
  intro τ d τ' ⟨hτ, hsame⟩ ⟨hd, hres⟩ hstep
  obtain ⟨_, _, heff⟩ := step_effect hτ hd hstep
  exact ⟨heff.inv hτ, hsame.trans (hres.sameTop hτ hd hstep)⟩

/-- A `free` of a block that `_last` does not name, or that is not the youngest. -/
theorem freeV_older (h : Reach (Sys.step t) (Legal t) (Sys.start pageSize mem) l σ) {b : Block}
    (hb : b ∈ σ.live) (hapi : b.api = .vtable)
    (hnot : ¬ LastTest t σ.world b ∨ ∃ d ∈ σ.live, b.stamp < d.stamp) :
    freeV t b.ptr σ.world = σ.world := by
  have hinv := reach_inv id h
  apply freeV_other
  intro hraw
  have htest : LastTest t σ.world b := by
    unfold LastTest
    rw [hapi]
    exact hraw
  rcases hnot with hno | ⟨d, hd, hyounger⟩
  · exact hno htest
  · -- the block `_last` names is the youngest
    obtain ⟨l', hlive, -⟩ := hinv.top_of_start hb (hinv.start_eq_of_lastTest hb htest)
    have holder := ((reach_stamps h).tail hlive).2.1
    rw [hlive] at hd
    rcases List.mem_cons.mp hd with rfl | hd'
    · exact Nat.lt_irrefl _ hyounger
    · exact absurd (holder d hd') (Nat.lt_asymm hyounger)

/-- **Freeing the newest block reclaims it.** A vtable call returns `p`, resizes
of `p` return `p`, and `p` is freed, once or more often: then each vtable
allocation that fits between `p` and `_sentinel` returns `p` on the same page. A
`free` of a block that `_last` does not name, or that a younger live block
follows, leaves arena and memory as they are. -/
theorem free_last_reclaims (h : Reach (Sys.step t) (Legal t) (Sys.start pageSize mem) l σ) :
    (∀ c p σ₁ l' σ₂, Legal t σ c → c.op.IsVtable → σ.step t c = some σ₁ →
      (exec t c.sys c.op σ.world).map Prod.fst = some (some p) →
      Reach (Sys.step t) (fun τ d => Legal t τ d ∧ Resizes t p τ d) σ₁ l' σ₂ →
      ∀ k op n size sys, op.AllocatesV n size → 0 < n * size →
        p + n * size ≤ σ₂.world.sentinel →
        ∃ s, exec t sys op ((freeV t p)^[k + 1] σ₂.world) = some (some p, s) ∧
          s.pages = σ₁.world.pages ∧ s.pageIndex = σ₁.world.pageIndex ∧
          loadWord s.mem (p - t.sizeofSizeT) t.sizeofSizeT = n * size) ∧
    ∀ b ∈ σ.live, b.api = .vtable →
      (¬ LastTest t σ.world b ∨ ∃ d ∈ σ.live, b.stamp < d.stamp) →
      freeV t b.ptr σ.world = σ.world := by
  have hinv := reach_inv id h
  refine ⟨?_, fun b hb hapi hnot => freeV_older h hb hapi hnot⟩
  intro c p σ₁ l' σ₂ hlegal hop hs hret hresize k op n size sys halloc hpos hfit
  have hapi := Op.api_eq_vtable hop
  obtain ⟨r, hr, heff⟩ := step_effect hinv hlegal hs
  obtain rfl : r = some p := Option.some.inj (hr.symm.trans hret)
  have hinv₁ := heff.inv hinv
  obtain ⟨hinv₂, hsame⟩ := Resizes.reach_sameTop hinv₁ hresize
  have hlast := hsame.last
  -- `_last` names the block that was returned
  have hp := heff.last_eq hapi
  obtain ⟨b, hb, his, -⟩ := heff.returned
  obtain ⟨hptr, hraw⟩ := hinv₁.raw_eq hb ⟨his.1.trans hapi, his.2⟩
  have hstart := ((hinv₁.placed b hb).bounds hinv₁.pages).1
  obtain ⟨s, hexec, hpages, hindex, hword⟩ := exec_reclaims sys hinv₂.pages
    (by omega) (by omega) (hraw.trans (by omega)) halloc hpos hfit k
  exact ⟨s, hexec, hpages.trans hsame.pages, hindex.trans hsame.pageIndex, hword⟩

/-- A direct block of one byte in front. -/
def misphasedScript : List Line := [⟨.alloc 1 1, [(64, 0x1000)]⟩]

/-- A block behind it is grown and shrunk, … -/
def resizeScript : List Line := [⟨.reallocarrayV 0x1009 5 9, []⟩, ⟨.reallocarrayV 0x1009 1 3, []⟩]

/-- … and freed twice. -/
theorem free_last_reclaims_resized :
    let t := x64 true
    let σ := scriptEnd t 64 (fun _ => 0) misphasedScript
    let σ₁ := (σ.step t (Line.call ⟨.callocV 1 8, []⟩)).getD σ
    let σ₂ := scriptFrom t σ₁ resizeScript
    ∃ s, exec t (fun _ => none) (.callocV 5 4) ((freeV t 0x1009)^[2] σ₂.world)
        = some (some 0x1009, s) ∧
      s.pages = σ₁.world.pages ∧ s.pageIndex = σ₁.world.pageIndex ∧
      loadWord s.mem (0x1009 - 8) 8 = 5 * 4 := by
  intro t σ σ₁ σ₂
  have hreclaims := free_last_reclaims (t := t) (σ := σ)
    (reach_of_script Line.legal (l := misphasedScript) (by decide +kernel))
  have hcalloc : σ.step t (Line.call ⟨.callocV 1 8, []⟩) = some σ₁ := by
    have hsome : (σ.step t (Line.call ⟨.callocV 1 8, []⟩)).isSome := by decide +kernel
    obtain ⟨τ, hτ⟩ := Option.isSome_iff_exists.mp hsome
    show _ = some ((σ.step t (Line.call ⟨.callocV 1 8, []⟩)).getD σ)
    rw [hτ]
    rfl
  have hresize : Reach (Sys.step t) (fun τ d => Legal t τ d ∧ Resizes t 0x1009 τ d) σ₁
      (resizeScript.map Line.call) σ₂ :=
    reach_from_script (P := fun τ x => Line.Ok t τ x ∧ Resizes t 0x1009 τ x.call)
      (fun τ x hx => ⟨Line.legal τ x hx.1, hx.2⟩) (by decide +kernel)
  exact hreclaims.1 (Line.call ⟨.callocV 1 8, []⟩) 0x1009 σ₁ _ σ₂
    (Line.legal _ ⟨.callocV 1 8, []⟩ (by decide +kernel)) trivial hcalloc (by decide +kernel)
    hresize 1 (.callocV 5 4) 5 4 (fun _ => none) (Or.inl rfl) (by decide) (by decide +kernel)

end MulleStorage.Arena
