import MulleStorage.Arena.Layout

/-!
# The poison of a debug `free`

`_mulle_arena_free_v` poisons the newest block in a debug build. How much it
poisons it takes from the cursor, which stands at the block's edge: behind the
block's end, rounded up to the default alignment and stepped back by the size of
a header. So the fill may be longer than the block, and there are two places
where it is too long:

- a block that ends in the last, partial unit of its page is rounded up to
  behind the page, unless a header fits into what is missing of that unit
  (`PageRoom`);
- a block whose header is placed over the tail of the block before it starts
  inside the payload of that one (`EndRoom`).

> `poison_inside_iff`: with vtable calls and resets alone, these are the only two.

Unlike in `Phase`, blocks may be misaligned here: `Settled` only says that each
block starts in phase or on the very start of its page.
-/

namespace MulleStorage.Arena

open MulleStorage.Lib

variable {t : Target}

/-- The regions touched since the log was `old`. -/
def touchedSince (old new : List Event) : List Region :=
  (new.take (new.length - old.length)).filterMap fun
    | .touched p n => some ⟨p, n⟩
    | _ => none

/-- What the code of a vtable `free` of `b` touches. -/
def freeTouches (t : Target) (σ : Sys) (b : Block) : List Region :=
  touchedSince σ.world.log (freeV t b.ptr σ.world).log

/-- A vtable `free` of `b` stays inside the bytes obtained for the page that
holds `b`, and off the payloads of the other live blocks. -/
structure PoisonInside (t : Target) (σ : Sys) (b : Block) : Prop where
  page : ∀ q ∈ freeTouches t σ b, ∃ r ∈ held σ.world.log, r.Has b.ptr ∧ r.Covers q.base q.size
  apart : ∀ q ∈ freeTouches t σ b, ∀ d ∈ σ.live, d ≠ b → q.Disjoint d.payload

/-- The block ends before the last, partial unit of its page, or what is missing
of that unit is no more than a header. -/
def PageRoom (t : Target) (r : Region) (b : Block) : Prop :=
  b.stop - r.base ≤ r.size - r.size % t.defaultAlignment ∨
    t.defaultAlignment ≤ r.size % t.defaultAlignment + t.sizeofSizeT

/-- When a debug build frees the newest block: its page has room for the rounded
end, and the block right before it has room for its header. -/
def PoisonOk (t : Target) (σ : Sys) (b : Block) : Prop :=
  t.debug = true → b.start t = σ.world.last →
    (∀ r ∈ (held σ.world.log)[b.page]?, PageRoom t r b) ∧
    ∀ d ∈ σ.live, d ≠ b → d.page = b.page → d.edge t = b.start t → EndRoom t d

instance (r : Region) (b : Block) : Decidable (PageRoom t r b) := inferInstanceAs (Decidable (_ ∨ _))

instance (σ : Sys) (b : Block) : Decidable (PoisonOk t σ b) :=
  inferInstanceAs (Decidable (_ → _ → (∀ r ∈ (held σ.world.log)[b.page]?, PageRoom t r b) ∧
    ∀ d ∈ σ.live, d ≠ b → d.page = b.page → d.edge t = b.start t → EndRoom t d))

/-! ## Where vtable blocks start -/

/-- Vtable blocks only; each starts in phase or on the start of its page, and so
will the next one on the current page. -/
structure Settled (t : Target) (σ : Sys) : Prop where
  pages : ∀ r ∈ held σ.world.log, t.defaultAlignment ∣ r.base
  vtable : ∀ b ∈ σ.live, b.api = .vtable
  blocks : ∀ b ∈ σ.live, t.defaultAlignment ∣ b.start t + t.sizeofSizeT ∨
    ∃ r, (held σ.world.log)[b.page]? = some r ∧ b.start t = r.base
  cursor : σ.world.pages ≠ [] →
    t.defaultAlignment ∣ σ.world.current + t.sizeofSizeT ∨ AtPageStart σ.world

namespace Settled

variable {σ : Sys}

theorem start (t : Target) (pageSize : Nat) (mem : Mem) : Settled t (Sys.start pageSize mem) where
  pages _ hr := absurd hr List.not_mem_nil
  vtable _ hb := absurd hb List.not_mem_nil
  blocks _ hb := absurd hb List.not_mem_nil
  cursor hne := absurd rfl hne

end Settled

/-- Where a vtable allocation starts its block. -/
theorem Settled.carved {σ : Sys} {c : Call} {p : Nat} {s : World} (h : Settled t σ)
    (hinv : Inv t σ) (hsys : SysAligned t c.sys)
    (halloc : Allocated t c.sys .vtable (c.op.size t σ.world.mem) p (c.op.probe t σ.world) s) :
    t.defaultAlignment ∣ s.last + t.sizeofSizeT ∨
      ∃ r, (held s.log)[s.pageIndex]? = some r ∧ s.last = r.base := by
  have hp : p = s.last + t.sizeofSizeT := halloc.start
  by_cases hfit : FitsPageV t σ.world (c.op.size t σ.world.mem)
  · -- at the cursor
    obtain ⟨hcur, hindex⟩ := halloc.here_of_probe hfit
    have hlast : s.last = σ.world.current := by omega
    rw [hlast, hindex]
    refine (h.cursor (hinv.pages.pages_ne_nil hfit.2)).imp_right ?_
    intro hstart
    obtain ⟨r, hr, hbase⟩ := base_of_atPageStart hinv.pages hstart
    exact ⟨r, getElem?_mono halloc.of_probe.grows hr, hbase⟩
  · -- on another page, where the vtable path offsets the cursor
    obtain ⟨-, r, hr, hbase⟩ := halloc.fresh_of_probe hfit
    have hdvd := halloc.dvd_base hsys (by rw [Op.held_probe]; exact h.pages) r hr
    rw [← hp, hbase]
    exact Or.inl (Nat.dvd_add hdvd (Nat.dvd_refl _))

/-- Calls that are not direct keep the blocks settled. -/
theorem Effect.settled {c : Call} {σ σ' : Sys} {r : Option Nat} (heff : Effect t c σ r σ')
    (hinv : Inv t σ) (h : Settled t σ) (hsys : SysAligned t c.sys) (hdirect : ¬ c.op.IsDirect) :
    Settled t σ' := by
  have hpages := heff.dvd_base hsys h.pages
  have hvtable := heff.all_vtable hdirect h.vtable
  cases heff with
  | @carved p s hsize hold hmoved halloc =>
    have hapi : c.op.api = .vtable := hvtable _ List.mem_cons_self
    have hlast := halloc.start_eq σ.clock
    rw [hapi] at halloc hlast
    refine ⟨hpages, hvtable, List.forall_mem_cons.mpr ⟨?_, ?_⟩, ?_⟩
    · dsimp only
      rw [Op.held_fill, hapi, hlast]
      exact h.carved hinv hsys halloc
    · intro b hb
      dsimp only
      rw [Op.held_fill]
      refine (h.blocks b (List.mem_filter.mp hb).1).imp_right ?_
      rintro ⟨r, hr, hbase⟩
      exact ⟨r, getElem?_mono halloc.of_probe.grows hr, hbase⟩
    · intro _
      dsimp only
      rw [Op.fill_arena, halloc.edge]
      have hstart : p = s.last + t.sizeofSizeT := halloc.start
      exact Or.inl (dvd_edge t (by omega))
  | @extended b l s hlive hpage his hplace hsize hext =>
    have hb : b ∈ σ.live := hlive ▸ List.mem_cons_self
    have hblocks := h.blocks
    rw [← hext.held, hlive] at hblocks
    obtain ⟨hfirst, hrest⟩ := List.forall_mem_cons.mp hblocks
    refine ⟨hpages, hvtable, List.forall_mem_cons.mpr ⟨hfirst, hrest⟩, ?_⟩
    intro _
    have hstart := hext.start
    dsimp only
    rw [hext.edge]
    rw [h.vtable b hb] at hstart ⊢
    exact Or.inl (dvd_edge t (by simp only [Api.header] at hstart; omega))
  | @rewound b l s hop hlive hpage hapi hlast hedge hinv' hfree =>
    have hblocks := h.blocks
    rw [← hfree.held, hlive] at hblocks
    obtain ⟨hfirst, hrest⟩ := List.forall_mem_cons.mp hblocks
    refine ⟨hpages, hvtable, hrest, ?_⟩
    -- the cursor is back where the block started
    intro _
    dsimp only
    rw [hfree.current, ← hlast]
    refine hfirst.imp_right ?_
    rintro ⟨r, hr, hbase⟩
    unfold AtPageStart
    rw [hinv'.pages, List.getElem?_map, hfree.pageIndex, ← hpage, hr, hfree.current, ← hlast,
      hbase]
    rfl
  | abandoned =>
    exact ⟨hpages, hvtable, fun b hb => h.blocks b (List.mem_filter.mp hb).1, h.cursor⟩
  | reset hop hreset =>
    exact ⟨hpages, hvtable, fun _ hb => absurd hb List.not_mem_nil,
      fun hne => Or.inr (hreset.atPageStart hne)⟩
  | written => exact ⟨hpages, hvtable, h.blocks, h.cursor⟩

/-! ## The fill -/

/-- What a vtable `free` touches: in a debug build, for the newest block,
everything from its start to the cursor. -/
theorem freeTouches_eq {σ : Sys} {b : Block} (hinv : Inv t σ) (hb : b ∈ σ.live)
    (hapi : b.api = .vtable) :
    freeTouches t σ b =
      if t.debug = true ∧ b.start t = σ.world.last then [⟨b.start t, b.edge t - b.start t⟩]
      else [] := by
  obtain ⟨hptr, hraw⟩ := hinv.raw_eq hb ⟨hapi, rfl⟩
  have hpos := t.sizeofSizeT_pos
  unfold freeTouches
  by_cases hlast : b.start t = σ.world.last
  · obtain ⟨l, hlive, hpage, hedge⟩ := hinv.top_of_start hb hlast
    have hlt := (hinv.placed b hb).start_lt_edge
    have hlen : t.sub σ.world.current σ.world.last = b.edge t - b.start t := by
      rw [← hedge, ← hlast]
      exact Target.sub_eq (Nat.le_of_lt hlt) (hedge ▸ hinv.pages.current_lt)
    rw [freeV_newest (by omega) (hraw.trans hlast), hlen, ← hlast]
    by_cases hdebug : t.debug = true
    · rw [if_pos hdebug, if_pos ⟨hdebug, rfl⟩]
      simp [touchedSince, World.memset]
    · rw [if_neg hdebug, if_neg fun h => hdebug h.1]
      simp [touchedSince]
  · rw [freeV_other (hraw ▸ hlast), if_neg fun h => hlast h.2]
    simp [touchedSince]

/-- The rounded end of a block stays on its page. -/
theorem pageRoom_iff {s : World} {b : Block} {r : Region} (h : Placed t s b)
    (hapi : b.api = .vtable) (hdvd : t.defaultAlignment ∣ r.base) (hbase : r.base ≤ b.stop)
    (hstop : b.stop ≤ r.base + r.size) : b.edge t ≤ r.base + r.size ↔ PageRoom t r b := by
  have hA := t.defaultAlignment_pos
  have hedge := edge_add_header hapi (h.ptr_eq hapi)
  rw [show b.stop = r.base + (b.stop - r.base) by omega, alignUp_add_of_dvd hA hdvd] at hedge
  unfold PageRoom
  rw [← alignUp_le_add_iff hA (by omega)]
  omega

/-- The fill is off the payload of an older block of the page, exactly when the
block starts behind that payload. -/
theorem fill_disjoint_iff {s : World} {b d : Block} (hb : Placed t s b) (hd : Placed t s d)
    (hbapi : b.api = .vtable) (hdapi : d.api = .vtable) (hle : d.edge t ≤ b.start t)
    (hphase : t.defaultAlignment ∣ b.start t + t.sizeofSizeT) :
    Region.Disjoint ⟨b.start t, b.edge t - b.start t⟩ d.payload ↔
      (d.edge t = b.start t → EndRoom t d) := by
  have hA := t.defaultAlignment_pos
  have hW := t.sizeofSizeT_le
  have hbs := hb.ptr_eq hbapi
  have hds := hd.ptr_eq hdapi
  have hbedge := edge_add_header hbapi hbs
  have hdedge := edge_add_header hdapi hds
  have hdup := le_alignUp hA d.stop
  have hbup := le_alignUp hA b.stop
  have hbpos := hb.size_pos
  have hdpos := hd.size_pos
  have hdstop : d.stop = d.ptr + d.size := rfl
  have hbstop : b.stop = b.ptr + b.size := rfl
  -- the edge is a whole alignment behind the start, so it is behind `d`'s payload
  have hfar := add_le_of_dvd_of_lt hphase (dvd_alignUp t.defaultAlignment b.stop) (by omega)
  rw [← stop_le_iff_endRoom hdapi hds hphase hle]
  unfold Region.Disjoint Block.payload
  dsimp only
  omega

section

variable {σ : Sys} {b d : Block}

/-- The fill stays inside the bytes of its page, exactly when the edge does. -/
theorem fill_covered_iff {r : Region} (hinv : Inv t σ) (hb : b ∈ σ.live)
    (hr : (held σ.world.log)[b.page]? = some r) (hbase : r.base ≤ b.start t)
    (hstop : b.stop ≤ r.base + r.size) :
    (∃ q ∈ held σ.world.log, q.Has b.ptr ∧ q.Covers (b.start t) (b.edge t - b.start t)) ↔
      b.edge t ≤ r.base + r.size := by
  have hplaced := hinv.placed b hb
  have hlt := hplaced.start_lt_edge
  have hpos := hplaced.size_pos
  have hstart := hplaced.start
  have hend : b.stop = b.ptr + b.size := rfl
  have hhas : r.Has b.ptr := ⟨by omega, by omega⟩
  constructor
  · rintro ⟨q, hq, hqhas, hqcovers⟩
    -- the only region with the block in it is that of its page
    obtain ⟨j, hj⟩ := List.getElem?_of_mem hq
    have hsame := index_eq_of_has hinv.pages.apart hr hj hhas hqhas
    rw [hsame] at hr
    cases hr.symm.trans hj
    have hcovers := hqcovers.2
    omega
  · intro hedge
    exact ⟨r, List.mem_of_getElem? hr, hhas, hbase, by omega⟩

/-- The fill of the newest block and another block of its page, which is in front
of it: there, only blocks in phase start. -/
theorem Settled.fill_front_iff (h : Settled t σ) (hinv : Inv t σ) (hb : b ∈ σ.live)
    (hlast : b.start t = σ.world.last) (hd : d ∈ σ.live) (hne : d ≠ b) (hpage : d.page = b.page) :
    Region.Disjoint ⟨b.start t, b.edge t - b.start t⟩ d.payload ↔
      (d.edge t = b.start t → EndRoom t d) := by
  have hdplaced := hinv.placed d hd
  obtain ⟨l, hlive, -⟩ := hinv.top_of_start hb hlast
  have hdl : d ∈ l := by
    rw [hlive] at hd
    exact (List.mem_cons.mp hd).resolve_left hne
  have hafter := hinv.after_of_top hlive d hdl
  unfold Shape.After shape at hafter
  dsimp only at hafter
  have hle : d.edge t ≤ b.start t := by omega
  have hphase : t.defaultAlignment ∣ b.start t + t.sizeofSizeT := by
    refine (h.blocks b hb).resolve_right ?_
    rintro ⟨r, hr, hbase⟩
    obtain ⟨q, hq, hqbase, -⟩ := hdplaced.covers
    rw [hpage] at hq
    cases hr.symm.trans hq
    have hlt := hdplaced.start_lt_edge
    omega
  exact fill_disjoint_iff (hinv.placed b hb) hdplaced (h.vtable b hb) (h.vtable d hd) hle
    hphase

/-- A fill that stays on its page is off the blocks of the others. -/
theorem fill_disjoint_of_page_ne {r : Region} (hinv : Inv t σ) (hb : b ∈ σ.live)
    (hr : (held σ.world.log)[b.page]? = some r) (hbase : r.base ≤ b.start t)
    (hedge : b.edge t ≤ r.base + r.size) (hd : d ∈ σ.live) (hpage : d.page ≠ b.page) :
    Region.Disjoint ⟨b.start t, b.edge t - b.start t⟩ d.payload := by
  obtain ⟨q, hq, hqbase, hqstop⟩ := (hinv.placed d hd).covers
  have hdisj := disjoint_of_index_ne hinv.pages.apart hr hq (Ne.symm hpage)
  have hlt := (hinv.placed b hb).start_lt_edge
  have hstart := (hinv.placed d hd).start
  have hstop : d.stop = d.ptr + d.size := rfl
  unfold Region.Disjoint Block.payload at *
  dsimp only
  omega

end

/-! ## Runs -/

variable {pageSize : Nat} {mem : Mem} {l : List Call} {σ : Sys}

theorem reach_settled
    (h : Reach (Sys.step t) (fun σ c => Legal t σ c ∧ SysAligned t c.sys ∧ ¬ c.op.IsDirect)
      (Sys.start pageSize mem) l σ) : Inv t σ ∧ Settled t σ :=
  reach_inv_and And.left (Settled.start t pageSize mem)
    (fun hinv hc heff hsettled => heff.settled hinv hsettled hc.2.1 hc.2.2) h

/-- **The poison of a debug `free`.** After every run of vtable calls and resets,
freeing a live block stays inside its page and off the other payloads exactly
when the page has room for the rounded end of the block, and the block before it
has room for its header. -/
theorem poison_inside_iff
    (h : Reach (Sys.step t) (fun σ c => Legal t σ c ∧ SysAligned t c.sys ∧ ¬ c.op.IsDirect)
      (Sys.start pageSize mem) l σ) {b : Block} (hb : b ∈ σ.live) :
    PoisonInside t σ b ↔ PoisonOk t σ b := by
  obtain ⟨hinv, hsettled⟩ := reach_settled h
  have hapi := hsettled.vtable b hb
  have htouches := freeTouches_eq hinv hb hapi
  by_cases hfill : t.debug = true ∧ b.start t = σ.world.last
  · rw [if_pos hfill] at htouches
    obtain ⟨r, hr, hbase, hstop⟩ := (hinv.placed b hb).covers
    have hle : r.base ≤ b.stop := by
      have hstart := (hinv.placed b hb).start
      unfold Block.stop
      omega
    have hcovered := fill_covered_iff hinv hb hr hbase hstop
    have hroom := pageRoom_iff (hinv.placed b hb) hapi
      (hsettled.pages r (List.mem_of_getElem? hr)) hle hstop
    have hfront := fun d (hd : d ∈ σ.live) => hsettled.fill_front_iff hinv hb hfill.2 hd
    constructor
    · intro hin _ _
      have hone : ⟨b.start t, b.edge t - b.start t⟩ ∈ freeTouches t σ b :=
        htouches ▸ List.mem_singleton_self _
      refine ⟨?_, fun d hd hne hpage => (hfront d hd hne hpage).mp (hin.apart _ hone d hd hne)⟩
      intro r' hr'
      cases hr.symm.trans hr'
      exact hroom.mp (hcovered.mp (hin.page _ hone))
    · intro hok
      obtain ⟨hpageroom, hend⟩ := hok hfill.1 hfill.2
      have hedge := hroom.mpr (hpageroom r hr)
      constructor
      · intro q hq
        rw [htouches, List.mem_singleton] at hq
        rw [hq]
        exact hcovered.mpr hedge
      · intro q hq d hd hne
        rw [htouches, List.mem_singleton] at hq
        rw [hq]
        by_cases hpage : d.page = b.page
        · exact (hfront d hd hne hpage).mpr (hend d hd hne hpage)
        · exact fill_disjoint_of_page_ne hinv hb hr hbase hedge hd hpage
  · -- nothing is poisoned
    rw [if_neg hfill] at htouches
    refine ⟨fun _ hdebug hlast => absurd ⟨hdebug, hlast⟩ hfill, ?_⟩
    intro _
    exact ⟨fun q hq => absurd (htouches ▸ hq) List.not_mem_nil,
      fun q hq => absurd (htouches ▸ hq) List.not_mem_nil⟩

/-- On a page kept by a reset, a block of 8 bytes behind a misaligned one of 13. -/
def roomyPoisonScript : List Line :=
  [⟨.callocV 1 8, [(64, 0x1000)]⟩, ⟨.resetKeepPages 1, []⟩, ⟨.callocV 1 13, []⟩, ⟨.callocV 1 8, []⟩]

theorem poison_inside_iff_roomy :
    PoisonInside (x64 true) (scriptEnd (x64 true) 64 (fun _ => 0) roomyPoisonScript)
      ⟨.vtable, 0x1020, 8, 0, 2⟩ :=
  (poison_inside_iff (reach_of_aligned (l := roomyPoisonScript) (by decide +kernel))
    (by decide +kernel)).mpr (by decide +kernel)

/-- An oversized block of 65 bytes, whose page fits it exactly. -/
def oversizedPoisonScript : List Line := [⟨.callocV 1 65, [(81, 0x1000)]⟩]

/-- Freeing it poisons the seven bytes behind its page as well. -/
theorem oversized_poison_outside :
    let σ := scriptEnd (x64 true) 64 (fun _ => 0) oversizedPoisonScript
    Reach (Sys.step (x64 true)) (fun σ c => Legal (x64 true) σ c ∧ SysAligned (x64 true) c.sys ∧
        ¬ c.op.IsDirect) (Sys.start 64 fun _ => 0) (oversizedPoisonScript.map Line.call) σ ∧
      ⟨.vtable, 0x1010, 65, 0, 0⟩ ∈ σ.live ∧ held σ.world.log = [⟨0x1000, 81⟩] ∧
      ¬ PoisonInside (x64 true) σ ⟨.vtable, 0x1010, 65, 0, 0⟩ := by
  refine ⟨reach_of_aligned (by decide +kernel), by decide +kernel, by decide +kernel, ?_⟩
  intro hin
  have hpage := hin.page ⟨0x1008, 80⟩ (by decide +kernel)
  revert hpage
  decide +kernel

end MulleStorage.Arena
