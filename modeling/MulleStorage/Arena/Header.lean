import MulleStorage.Arena.Layout

/-!
# What `reallocarray` keeps

`_mulle_arena_reallocarray_v` reads the size of a block from the word in front of
it, which is only as good as the layout: a header placed over a live tail is
client data to its owner. While blocks are laid out (`Laid`), the word in front
of each live block is its size (`Headers`), no call changes a byte of a block it
was not given, and:

> `reallocarray_keeps`: the block returned starts with the bytes the old one had,
> its header is the new size, and all other blocks are as they were.

The new header is written before the old bytes are copied, so the block being
moved needs the same care as the ones that stay (`MoveOk`).
-/

namespace MulleStorage.Arena

open MulleStorage.Lib

variable {t : Target}

/-- A block put here is not put over the tail of a live one, nor over the bytes
to be copied from the one the call gives up. -/
def MoveOk (t : Target) (σ : Sys) (op : Op) : Prop :=
  LayOk t σ op ∧
  (CarvesHere t σ.world op → ∀ b ∈ σ.live, b.Is .vtable op.block →
    b.page = σ.world.pageIndex → b.edge t = σ.world.current →
    TailRoom t b ∨ b.ptr + op.size t σ.world.mem ≤ σ.world.current)

instance (t : Target) (σ : Sys) (op : Op) : Decidable (MoveOk t σ op) :=
  inferInstanceAs (Decidable (_ ∧ (_ → _)))

/-- The word in front of each live block is its size. -/
def Headers (t : Target) (σ : Sys) : Prop :=
  ∀ b ∈ σ.live, loadWord σ.world.mem (b.start t) t.sizeofSizeT = b.size

/-! ## Frames -/

/-- A word is what the bytes of it are. -/
theorem loadWord_frame {m m' : Mem} {d : Block} (hd : AlignedBlock t d)
    (h : ∀ a, d.start t ≤ a → a < d.stop → m' a = m a) :
    loadWord m' (d.start t) t.sizeofSizeT = loadWord m (d.start t) t.sizeofSizeT := by
  refine loadWord_congr fun i hi => h _ (Nat.le_add_right _ _) ?_
  have hstart := hd.start
  have hpos := hd.size_pos
  unfold Block.stop
  omega

/-- The fill of a debug `free` ends before the next page. -/
theorem VtableInv.edge_le_start {σ : Sys} (h : VtableInv t σ) {b d : Block} (hb : b ∈ σ.live)
    (hd : d ∈ σ.live) (hne : d.page ≠ b.page) (hle : b.stop ≤ d.start t) :
    b.edge t ≤ d.start t := by
  obtain ⟨q, r, -, hr, hstop, hbefore, hrbase⟩ := h.inv.page_before hb hd hne hle
  have hup := alignUp_le t.defaultAlignment_pos (h.phased.pages r (List.mem_of_getElem? hr))
    (Nat.le_trans hstop hbefore)
  rw [← (h.aligned hb).edge_add] at hup
  omega

/-- **Frame.** A vtable call leaves the blocks alone that it does not return,
headers included, when it leaves all blocks laid out. -/
theorem Effect.span_frame {c : Call} {σ σ' : Sys} {r : Option Nat} (heff : Effect t c σ r σ')
    (h : VtableInv t σ) (h' : VtableInv t σ') (hlaid : Laid t σ) (hlaid' : Laid t σ')
    (hsys : SysOk t σ.world c.sys) (hw : ¬ c.op.IsWrite) {d : Block} (hd : d ∈ σ.live)
    (hd' : d ∈ σ'.live) (hr : r ≠ some d.ptr) {a : Nat} (hstart : d.start t ≤ a)
    (hstop : a < d.stop) : σ'.world.mem a = σ.world.mem a := by
  cases heff with
  | @carved p s₁ hsize hold hmoved halloc =>
    have hapart := h'.spans_apart hlaid' List.mem_cons_self hd' fun heq => hr (heq ▸ rfl)
    have hnew := halloc.start_eq σ.clock
    rw [hnew] at hapart
    refine halloc.of_probe.fill.mem a (h.inv.old hsys hd hstart hstop) ?_
    rw [Op.fill_arena]
    exact hapart.symm.imp (Nat.lt_of_lt_of_le hstop) fun hle => Nat.le_trans hle hstart
  | @extended b l s hlive hpage his hplace hsize hext =>
    have hb : b ∈ σ.live := hlive ▸ List.mem_cons_self
    have hapart := h.spans_apart hlaid hb hd fun heq => hr (heq ▸ rfl)
    have hbs := (h.aligned hb).start
    have hbstop : b.stop = b.ptr + b.size := rfl
    have hx := hext.start
    rw [h.vtable b hb] at hx
    simp only [Api.header] at hx
    exact hext.mem a (by omega)
  | @rewound b l s hop hlive hpage hapi hlast hedge hpages hfree =>
    refine hfree.mem a ?_
    intro _
    have hb : b ∈ σ.live := hlive ▸ List.mem_cons_self
    have hafter := h.inv.after_of_top hlive d hd'
    have hlt := (h.inv.placed d hd).start_lt_edge
    have hltb := (h.inv.placed b hb).start_lt_edge
    have hne : b ≠ d := by
      rintro rfl
      rcases hafter with hpage' | ⟨-, hle⟩
      · exact Nat.lt_irrefl _ hpage'
      · exact absurd hle (Nat.not_le_of_lt hltb)
    rw [← hlast, ← hedge]
    rcases h.spans_apart hlaid hb hd hne with hbd | hdb
    · -- `d` is behind the freed block, so on another page
      have hbs := (h.aligned hb).start
      have hbpos := (h.aligned hb).size_pos
      have hbstop : b.stop = b.ptr + b.size := rfl
      have hpage' : d.page ≠ b.page := by
        rcases hafter with hpage' | ⟨-, hle⟩
        · exact Nat.ne_of_lt hpage'
        · have hle' : d.edge t ≤ b.start t := hle
          omega
      have := h.edge_le_start hb hd hpage' hbd
      omega
    · omega
  | abandoned => rfl
  | reset => exact absurd hd' List.not_mem_nil
  | written hop => exact absurd (hop ▸ trivial) hw

/-! ## Headers -/

/-- The header written for a block of that many bytes reads as that. -/
theorem loadWord_header {m : Mem} {start size : Nat} (hlt : size < t.modulus)
    (h : ∀ i, i < t.sizeofSizeT → m (start + i) = wordByte size i) :
    loadWord m start t.sizeofSizeT = size := by
  rw [loadWord_of_bytes h, ← t.modulus_eq, Nat.mod_eq_of_lt hlt]

/-- A block of an arena is smaller than the address space. -/
theorem Inv.size_lt {σ : Sys} (h : Inv t σ) {b : Block} (hb : b ∈ σ.live) : b.size < t.modulus := by
  have hlt := ((h.placed b hb).bounds h.pages).2
  unfold Block.stop at hlt
  omega

/-- A vtable call that returns a block has put its size in front of it. -/
theorem Effect.word {c : Call} {σ σ' : Sys} {p : Nat} (h : Effect t c σ (some p) σ')
    (hinv : Inv t σ) (hapi : c.op.api = .vtable) :
    loadWord σ'.world.mem (p - t.sizeofSizeT) t.sizeofSizeT = c.op.size t σ.world.mem := by
  have hinv' := h.inv hinv
  cases h with
  | @carved p s₁ hsize hold hmoved halloc =>
    have hlt : c.op.size t σ.world.mem < t.modulus := hinv'.size_lt List.mem_cons_self
    have hstart := halloc.start
    have hheader := halloc.of_probe.fill.header hapi
    rw [Op.fill_arena] at hheader
    rw [hapi] at hstart
    rw [show p - t.sizeofSizeT = s₁.last by rw [hstart]; exact Nat.add_sub_cancel _ _]
    exact loadWord_header hlt hheader
  | @extended b l s hlive hpage his hplace hsize hext =>
    have hlt : c.op.size t σ.world.mem < t.modulus := hinv'.size_lt List.mem_cons_self
    have hb : b.api = .vtable := his.1.trans hapi
    have hstart := hext.start
    rw [hb] at hstart
    rw [show b.ptr - t.sizeofSizeT = σ.world.last by rw [hstart]; exact Nat.add_sub_cancel _ _]
    exact loadWord_header hlt (hext.header hb)

/-- What a legal `reallocarray` puts in front of the block it returns. -/
theorem reallocarrayV_word {σ : Sys} {sys : Nat → Option Nat} {block n size : Nat}
    {r : Nat × World} (hinv : Inv t σ)
    (hlegal : Legal t σ ⟨.reallocarrayV block n size, sys⟩)
    (h : reallocarrayV t sys block n size σ.world = some r) :
    loadWord r.2.mem (r.1 - t.sizeofSizeT) t.sizeofSizeT = n * size := by
  have hexec : exec t sys (.reallocarrayV block n size) σ.world = some (some r.1, r.2) := by
    simp only [exec, h, Option.map_some]
  have hword := (exec_effect (c := ⟨.reallocarrayV block n size, sys⟩) hinv hlegal hexec).word
    hinv rfl
  rwa [Sys.record_world] at hword

/-- A call that asks for a block is no client's store. -/
theorem not_isWrite_of_size {op : Op} {m : Mem} (hsize : 0 < op.size t m) : ¬ op.IsWrite := by
  cases op with
  | write => exact absurd hsize (Nat.lt_irrefl 0)
  | _ => exact id

theorem Effect.headers {c : Call} {σ σ' : Sys} {r : Option Nat} (heff : Effect t c σ r σ')
    (h : VtableInv t σ) (h' : VtableInv t σ') (hlaid : Laid t σ) (hlaid' : Laid t σ')
    (hlegal : Legal t σ c) (hheaders : Headers t σ) : Headers t σ' := by
  intro d hd'
  -- a block that was there before, and is not returned
  have hframe : ¬ c.op.IsWrite → d ∈ σ.live → r ≠ some d.ptr →
      loadWord σ'.world.mem (d.start t) t.sizeofSizeT = d.size := fun hw hd hr =>
    (loadWord_frame (h.aligned hd) fun a hstart hstop =>
      heff.span_frame h h' hlaid hlaid' hlegal.sys hw hd hd' hr hstart hstop).trans (hheaders d hd)
  -- `hframe` still speaks about the effect, so a copy of it is split
  have hcases := heff
  cases hcases with
  | @carved p s₁ hsize hold hmoved halloc =>
    have hapi : c.op.api = .vtable := h'.vtable _ List.mem_cons_self
    rcases List.mem_cons.mp hd' with rfl | hd''
    · -- the new block
      have hword := heff.word h.inv hapi
      unfold Block.start
      rw [hapi]
      exact hword
    · have hd := (List.mem_filter.mp hd'').1
      apply hframe (not_isWrite_of_size hsize) hd
      intro heq
      exact halloc.of_probe.ptr_ne h.inv hsize hd ((h.vtable d hd).trans hapi.symm)
        (Option.some.inj heq)
  | @extended b l s hlive hpage his hplace hsize hext =>
    have hb : b ∈ σ.live := hlive ▸ List.mem_cons_self
    rcases List.mem_cons.mp hd' with rfl | hd''
    · have hapi := h.vtable b hb
      have hword := heff.word h.inv (his.1.symm.trans hapi)
      unfold Block.start
      rw [hapi]
      exact hword
    · have hd : d ∈ σ.live := hlive ▸ List.mem_cons_of_mem b hd''
      apply hframe (not_isWrite_of_size hsize) hd
      intro heq
      have hapi := (h.vtable d hd).trans (h.vtable b hb).symm
      exact h.inv.not_is_of_top hlive d hd'' ⟨hapi, (Option.some.inj heq).symm⟩
  | @rewound b l s hop hlive =>
    exact hframe (fun hw => by rw [hop] at hw; exact hw) (hlive ▸ List.mem_cons_of_mem b hd') nofun
  | abandoned hop =>
    exact hframe (fun hw => by rw [hop] at hw; exact hw) (List.mem_filter.mp hd').1 nofun
  | reset => exact absurd hd' List.not_mem_nil
  | @written q bytes hop =>
    -- a client's store stays inside a payload, and headers are apart from those
    have hproper := hlegal.proper
    unfold Proper at hproper
    rw [hop] at hproper
    obtain ⟨b, hb, hbase, hend⟩ := hproper
    have hapart := hlaid.2 b hb d hd'
    have hlen : loadWord (blit σ.world.mem q bytes.length fun i => bytes.getD i 0) (d.start t)
        t.sizeofSizeT = loadWord σ.world.mem (d.start t) t.sizeofSizeT := by
      refine loadWord_congr fun i hi => blit_outside ?_
      unfold Region.Disjoint Block.headerRegion at hapart
      rw [h.vtable d hd'] at hapart
      simp only [Api.header] at hapart
      omega
    exact hlen.trans (hheaders d hd')

/-! ## Moving a block -/

/-- The bytes to be copied are not where the new header goes. -/
theorem copied_kept {σ : Sys} {c : Call} {p : Nat} {s₁ : World} {b : Block} (h : VtableInv t σ)
    (hok : MoveOk t σ c.op) (hsize : 0 < c.op.size t σ.world.mem)
    (hmoved : ¬ InPlace t σ.world c.op) (hapi : c.op.api = .vtable)
    (halloc : Allocated t c.sys .vtable (c.op.size t σ.world.mem) p (c.op.probe t σ.world) s₁)
    (hsys : SysOk t σ.world c.sys) (hb : b ∈ σ.live) (his : b.Is .vtable c.op.block) {i : Nat}
    (hi : i < min b.size (c.op.size t σ.world.mem)) :
    s₁.mem (b.ptr + i) = σ.world.mem (b.ptr + i) := by
  have hbal := h.aligned hb
  have hbs := hbal.start
  have hbstop : b.stop = b.ptr + b.size := rfl
  have hlast := halloc.start
  simp only [Api.header] at hlast
  refine halloc.of_probe.mem _ (h.inv.old hsys hb (by omega) (by omega)) ?_
  -- on another page, all of the old block is apart from all of the new one
  have hfar : b.page ≠ s₁.pageIndex → b.ptr + i < s₁.last ∨ p + 0 ≤ b.ptr + i := by
    intro hne
    have hnew := halloc.toCarved.placed hsize σ.clock
    have hold := (h.inv.placed b hb).mono halloc.of_probe.grows
    have hapart := hold.apart hnew halloc.inv hne
    have hstart := halloc.toCarved.start_eq σ.clock
    have hstop : Block.stop ⟨.vtable, p, c.op.size t σ.world.mem, s₁.pageIndex, σ.clock⟩
        = p + c.op.size t σ.world.mem := rfl
    rw [hstart, hstop] at hapart
    omega
  by_cases hpage : b.page = s₁.pageIndex
  · by_cases hfit : FitsPageV t σ.world (c.op.size t σ.world.mem)
    · -- on its own page, only the bytes behind the cursor are in the way
      obtain ⟨hp, hindex⟩ := halloc.here_of_probe hfit
      have hphase := h.phase (h.inv.pages.pages_ne_nil hfit.2)
      have hhere := (carvesHere_iff hapi hsize hmoved).mpr hfit
      have hbelow := h.inv.stacked.below b hb (hpage.trans hindex)
      have hstop := hbal.stop_le_iff hphase hbelow
      by_cases hedge : b.edge t = σ.world.current
      · rcases hok.2 hhere b hb his (hpage.trans hindex) hedge with hroom | hshort
        · have := hstop.mpr fun _ => hroom
          omega
        · omega
      · have := hstop.mpr fun heq => absurd heq hedge
        omega
    · have hlater := (halloc.fresh_of_probe hfit).1.resolve_left (h.inv.pages_ne_nil hb)
      have hle : b.page ≤ σ.world.pageIndex := h.inv.stacked.page_le b hb
      exact hfar (by omega)
  · exact hfar hpage

/-- **Step.** The block returned starts with what the old one held. -/
theorem Effect.kept {c : Call} {σ σ' : Sys} {p block n size : Nat}
    (heff : Effect t c σ (some p) σ') (h : VtableInv t σ) (hheaders : Headers t σ)
    (hlegal : Legal t σ c) (hok : MoveOk t σ c.op) (hop : c.op = .reallocarrayV block n size)
    {b : Block} (hb : b ∈ σ.live) (his : b.Is .vtable block) {i : Nat}
    (hi : i < min b.size (n * size)) : σ'.world.mem (p + i) = σ.world.mem (b.ptr + i) := by
  have hz : block ≠ 0 := by
    have := (h.aligned hb).start
    have hpos := t.sizeofSizeT_pos
    have hptr := his.2
    omega
  obtain ⟨op, sys⟩ := c
  cases hop
  cases heff with
  | @carved p s₁ hsize hold hmoved halloc =>
    have hraw := (h.inv.raw_eq hb his).2
    have hword := hheaders b hb
    have hptr := his.2
    simp only [Op.fill, if_neg hz, World.memcpy, hraw, hword]
    rw [blit_at (by split <;> omega), ← hptr]
    exact copied_kept h hok hsize hmoved rfl halloc hlegal.sys hb his hi
  | @extended d l s hlive hpage his' hplace hsize hext =>
    have hd : d ∈ σ.live := hlive ▸ List.mem_cons_self
    have heq : b = d := h.inv.eq_of_is hd hb (by rw [his'.1, his'.2]; exact his)
    rw [heq]
    exact hext.mem _ (Or.inr (Nat.le_add_right _ _))

/-! ## Runs -/

variable {pageSize : Nat} {mem : Mem} {l : List Call} {σ : Sys}

theorem reach_headers
    (h : Reach (Sys.step t) (fun σ c => Legal t σ c ∧ SysAligned t c.sys ∧ ¬ c.op.IsDirect ∧
      ¬ c.op.IsReset ∧ MoveOk t σ c.op) (Sys.start pageSize mem) l σ) :
    VtableInv t σ ∧ Laid t σ ∧ Headers t σ := by
  refine (reach_inv_and (X := fun σ => VtableInv t σ ∧ Laid t σ ∧ Headers t σ) And.left
    ⟨VtableInv.start t pageSize mem, Laid.start t pageSize mem, nofun⟩ ?_ h).2
  intro σ c r σ' _ ⟨hlegal, hsys, hdirect, hreset, hok⟩ heff ⟨hinv, hlaid, hheaders⟩
  have hinv' := heff.vtableInv hinv hsys hdirect hreset
  have hlaid' := (heff.laid_step hinv hsys hdirect hreset hlaid).mpr hok.1
  exact ⟨hinv', hlaid', heff.headers hinv hinv' hlaid hlaid' hlegal hheaders⟩

/-- **`reallocarray` keeps data.** In a run of vtable calls and client stores in
which no block is put over a live tail, or over bytes still to be copied, moving
or resizing a live block keeps its first bytes, records the new size, and leaves
all other blocks and their recorded sizes alone. -/
theorem reallocarray_keeps
    (h : Reach (Sys.step t) (fun σ c => Legal t σ c ∧ SysAligned t c.sys ∧ ¬ c.op.IsDirect ∧
      ¬ c.op.IsReset ∧ MoveOk t σ c.op) (Sys.start pageSize mem) l σ)
    {b : Block} (hb : b ∈ σ.live) {n size : Nat} {sys : Nat → Option Nat}
    (hlegal : Legal t σ ⟨.reallocarrayV b.ptr n size, sys⟩) (hsys : SysAligned t sys)
    (hok : MoveOk t σ (.reallocarrayV b.ptr n size)) {p : Nat} {s : World}
    (hexec : reallocarrayV t sys b.ptr n size σ.world = some (p, s)) :
    (∀ i, i < min b.size (n * size) → s.mem (p + i) = σ.world.mem (b.ptr + i)) ∧
    loadWord s.mem (p - t.sizeofSizeT) t.sizeofSizeT = n * size ∧
    ∀ d ∈ σ.live, d ≠ b →
      (∀ a, d.payload.Has a → s.mem a = σ.world.mem a) ∧
      loadWord s.mem (d.ptr - t.sizeofSizeT) t.sizeofSizeT
        = loadWord σ.world.mem (d.ptr - t.sizeofSizeT) t.sizeofSizeT := by
  obtain ⟨hinv, hlaid, hheaders⟩ := reach_headers h
  have heff := exec_effect (c := ⟨.reallocarrayV b.ptr n size, sys⟩) (r := (some p, s)) hinv.inv
    hlegal (by simp only [exec, hexec, Option.map_some])
  have hinv' := heff.vtableInv hinv hsys id id
  have hlaid' := (heff.laid_step hinv hsys id id hlaid).mpr hok.1
  have hbapi := hinv.vtable b hb
  have hworld := Sys.record_world t σ (.reallocarrayV b.ptr n size) (some p, s)
  refine ⟨?_, reallocarrayV_word hinv.inv hlegal hexec, ?_⟩
  · intro i hi
    have := heff.kept hinv hheaders hlegal hok rfl hb ⟨hbapi, rfl⟩ hi
    rwa [hworld] at this
  · -- every other block outlives the call, and is not the one returned
    intro d hd hne
    have hdb : ¬ d.Is .vtable b.ptr := fun his =>
      hne (hinv.inv.eq_of_is hb hd (by rw [hbapi]; exact his))
    have hsurvives := heff.survives hinv.inv hd (hinv.vtable d hd) hdb
    have hds := (hinv.aligned hd).start
    have hframe : ∀ a, d.start t ≤ a → a < d.stop → s.mem a = σ.world.mem a := by
      intro a hstart hstop
      have := heff.span_frame hinv hinv' hlaid hlaid' hlegal.sys id hd hsurvives.1
        (fun heq => hsurvives.2 (Option.some.inj heq)) hstart hstop
      rwa [hworld] at this
    refine ⟨fun a ha => hframe a ?_ ha.2, ?_⟩
    · exact Nat.le_trans (Nat.sub_le _ _) ha.1
    · rw [show d.ptr - t.sizeofSizeT = d.start t by omega]
      exact loadWord_frame (hinv.aligned hd) hframe

/-- Two blocks of 24 bytes, and a client's store in the older one. -/
def roomyMoveScript : List Line :=
  [⟨.callocV 3 8, [(96, 0x1000)]⟩, ⟨.callocV 3 8, []⟩, ⟨.write 0x1020 [1, 2, 3, 4], []⟩]

/-- The older block grows to 40 bytes, on another page. -/
theorem reallocarray_keeps_roomy :
    let σ := scriptEnd (x64 false) 96 (fun _ => 0) roomyMoveScript
    ∃ s, reallocarrayV (x64 false) (fun k => [(96, 0x2000)].lookup k) 0x1010 5 8 σ.world
        = some (0x2010, s) ∧
      (∀ i, i < min 24 (5 * 8) → s.mem (0x2010 + i) = σ.world.mem (0x1010 + i)) ∧
      loadWord s.mem (0x2010 - 8) 8 = 5 * 8 ∧
      ∀ d ∈ σ.live, d ≠ ⟨.vtable, 0x1010, 24, 0, 0⟩ →
        (∀ a, d.payload.Has a → s.mem a = σ.world.mem a) ∧
        loadWord s.mem (d.ptr - 8) 8 = loadWord σ.world.mem (d.ptr - 8) 8 := by
  have hexec : ((reallocarrayV (x64 false) (fun k => [(96, 0x2000)].lookup k) 0x1010 5 8
      (scriptEnd (x64 false) 96 (fun _ => 0) roomyMoveScript).world).map Prod.fst)
      = some 0x2010 := by decide +kernel
  obtain ⟨⟨p, s⟩, hs, rfl⟩ := Option.map_eq_some_iff.mp hexec
  let x : Line := ⟨.reallocarrayV 0x1010 5 8, [(96, 0x2000)]⟩
  exact ⟨s, hs, reallocarray_keeps (b := ⟨.vtable, 0x1010, 24, 0, 0⟩)
    (reach_of_aligned (l := roomyMoveScript) (by decide +kernel))
    (by decide +kernel) (Line.legal _ x (by decide +kernel))
    (Line.sysAligned (x := x) (by decide)) (by decide +kernel) hs⟩

/-- One byte, a block of 16, and a client's store in the last byte of that. -/
def tightMoveScript : List Line :=
  [⟨.callocV 1 1, [(96, 0x1000)]⟩, ⟨.callocV 1 16, []⟩, ⟨.write 0x102F [7], []⟩]

/-- Moving the first block puts its new header over the end of the other one. -/
theorem reallocarray_clobbers :
    let σ := scriptEnd (x64 false) 96 (fun _ => 0) tightMoveScript
    let b : Block := ⟨.vtable, 0x1020, 16, 0, 1⟩
    Reach (Sys.step (x64 false)) (fun σ c => Legal (x64 false) σ c ∧ SysAligned (x64 false) c.sys ∧
        ¬ c.op.IsDirect ∧ ¬ c.op.IsReset) (Sys.start 96 fun _ => 0)
        (tightMoveScript.map Line.call) σ ∧
      Legal (x64 false) σ (Line.call ⟨.reallocarrayV 0x1010 1 8, []⟩) ∧
      b ∈ σ.live ∧ b.payload.Has 0x102F ∧
      ∃ s, reallocarrayV (x64 false) (fun k => [].lookup k) 0x1010 1 8 σ.world
          = some (0x1030, s) ∧ s.mem 0x102F ≠ σ.world.mem 0x102F := by
  have hexec : ((reallocarrayV (x64 false) (fun k => [].lookup k) 0x1010 1 8
      (scriptEnd (x64 false) 96 (fun _ => 0) tightMoveScript).world).map
        fun r => (r.1, r.2.mem 0x102F)) = some (0x1030, 0) := by decide +kernel
  obtain ⟨⟨p, s⟩, hs, heq⟩ := Option.map_eq_some_iff.mp hexec
  simp only [Prod.mk.injEq] at heq
  obtain ⟨rfl, hbyte⟩ := heq
  refine ⟨reach_of_aligned (by decide +kernel), Line.legal _ _ (by decide +kernel),
    by decide +kernel, by decide, s, hs, ?_⟩
  rw [hbyte]
  decide +kernel

end MulleStorage.Arena
