import MulleStorage.Arena.Phase

/-!
# The layout of vtable blocks

After a vtable block the cursor is rounded up to the default alignment and then
stepped back by the size of a header, so that the next payload is aligned and
its header sits in the padding. If there is that much padding: a block whose
size leaves less than a header's worth of it in its last unit (`TailRoom`) has
the header of the next block placed over its own tail.

> `laid_iff`: with the vtable calls alone, payloads and headers stay apart in
> every step that puts no block right behind one without tail room, and in no
> other step.

Payloads never overlap each other; it is always a header that lies over a tail.
-/

namespace MulleStorage.Arena

open MulleStorage.Lib

variable {t : Target}

/-- The padding up to the next aligned address has room for a header. -/
def TailRoom (t : Target) (d : Block) : Prop :=
  0 < d.size % t.defaultAlignment ∧ d.size % t.defaultAlignment + t.sizeofSizeT ≤ t.defaultAlignment

/-- The same wherever the block starts: the padding behind its end has room for a
header. -/
def EndRoom (t : Target) (d : Block) : Prop :=
  0 < d.stop % t.defaultAlignment ∧
    d.stop % t.defaultAlignment + t.sizeofSizeT ≤ t.defaultAlignment

/-- A block put here is not put right behind a live block without tail room,
except for one that the call gives up. -/
def LayOk (t : Target) (σ : Sys) (op : Op) : Prop :=
  CarvesHere t σ.world op → ∀ d ∈ σ.live, ¬ d.Is .vtable op.block →
    d.page = σ.world.pageIndex → d.edge t = σ.world.current → TailRoom t d

instance (t : Target) (d : Block) : Decidable (TailRoom t d) := inferInstanceAs (Decidable (_ ∧ _))

instance (t : Target) (d : Block) : Decidable (EndRoom t d) := inferInstanceAs (Decidable (_ ∧ _))

instance (t : Target) (σ : Sys) (op : Op) : Decidable (LayOk t σ op) :=
  inferInstanceAs (Decidable (_ → _))

/-- Payloads are disjoint from each other and from all headers. -/
def Laid (t : Target) (σ : Sys) : Prop :=
  (σ.live.Pairwise fun b d => b.payload.Disjoint d.payload) ∧
  ∀ b ∈ σ.live, ∀ q ∈ σ.live, b.payload.Disjoint (q.headerRegion t)

theorem Laid.start (t : Target) (pageSize : Nat) (mem : Mem) : Laid t (Sys.start pageSize mem) :=
  ⟨.nil, nofun⟩

/-! ## One block and its successor -/

/-- A vtable block's edge, and a header, is its rounded end. -/
theorem edge_add_header {d : Block} (hapi : d.api = .vtable)
    (hstart : d.ptr = d.start t + t.sizeofSizeT) :
    d.edge t + t.sizeofSizeT = alignUp t.defaultAlignment d.stop := by
  have hle := le_alignUp t.defaultAlignment_pos d.stop
  unfold Block.edge edgeOf Block.stop at *
  rw [hapi]
  exact Nat.sub_add_cancel (by omega)

/-- A header that starts in phase, at or behind the edge, is behind the payload
unless it starts right at the edge and there is no room. -/
theorem stop_le_iff_endRoom {d : Block} (hapi : d.api = .vtable)
    (hstart : d.ptr = d.start t + t.sizeofSizeT) {x : Nat}
    (hx : t.defaultAlignment ∣ x + t.sizeofSizeT) (hle : d.edge t ≤ x) :
    d.stop ≤ x ↔ (d.edge t = x → EndRoom t d) := by
  have hA := t.defaultAlignment_pos
  have hedge := edge_add_header hapi hstart
  have hup := le_alignUp hA d.stop
  rcases Nat.lt_or_eq_of_le hle with hlt | heq
  · refine ⟨fun _ heq => absurd heq (Nat.ne_of_lt hlt), ?_⟩
    intro _
    -- the next phase is a whole alignment further, and a header is no longer than that
    have hW := t.sizeofSizeT_le
    have hnext := add_le_of_dvd_of_lt (hedge ▸ dvd_alignUp _ _) hx (Nat.add_lt_add_right hlt _)
    omega
  · unfold EndRoom
    rw [← add_le_alignUp_iff hA t.sizeofSizeT_pos, ← hedge, heq]
    omega

/-- An aligned vtable block. -/
structure AlignedBlock (t : Target) (d : Block) : Prop where
  api : d.api = .vtable
  dvd : t.defaultAlignment ∣ d.ptr
  size_pos : 0 < d.size
  start : d.ptr = d.start t + t.sizeofSizeT

namespace AlignedBlock

variable {d : Block}

theorem edge_add (h : AlignedBlock t d) :
    d.edge t + t.sizeofSizeT = alignUp t.defaultAlignment d.stop :=
  edge_add_header h.api h.start

/-- The padding behind an aligned payload depends on its size only. -/
theorem endRoom_iff (h : AlignedBlock t d) : EndRoom t d ↔ TailRoom t d := by
  obtain ⟨i, hi⟩ := h.dvd
  unfold EndRoom TailRoom Block.stop
  rw [hi, Nat.mul_add_mod]

/-- The edge is behind the header. -/
theorem ptr_le_edge (h : AlignedBlock t d) : d.ptr ≤ d.edge t := by
  have hW := t.sizeofSizeT_le
  have hpos := h.size_pos
  have hedge := h.edge_add
  have hlt : d.ptr < alignUp t.defaultAlignment d.stop :=
    Nat.lt_of_lt_of_le (by unfold Block.stop; omega) (le_alignUp t.defaultAlignment_pos d.stop)
  have hup := add_le_of_dvd_of_lt h.dvd (dvd_alignUp _ _) hlt
  omega

/-- A header that starts in phase, behind the edge, is behind the payload unless
it starts right at the edge of a block without tail room. -/
theorem stop_le_iff (h : AlignedBlock t d) {x : Nat} (hx : t.defaultAlignment ∣ x + t.sizeofSizeT)
    (hle : d.edge t ≤ x) : d.stop ≤ x ↔ (d.edge t = x → TailRoom t d) := by
  rw [stop_le_iff_endRoom h.api h.start hx hle, h.endRoom_iff]

end AlignedBlock

/-! ## The vtable calls alone -/

/-- The invariant of an arena only used through its vtable. -/
structure VtableInv (t : Target) (σ : Sys) : Prop where
  inv : Inv t σ
  phased : Phased t False False σ
  vtable : ∀ b ∈ σ.live, b.api = .vtable

namespace VtableInv

variable {σ : Sys}

theorem aligned (h : VtableInv t σ) {b : Block} (hb : b ∈ σ.live) : AlignedBlock t b where
  api := h.vtable b hb
  dvd := h.phased.blocks b hb (h.vtable b hb)
  size_pos := (h.inv.placed b hb).size_pos
  start := (h.inv.raw_eq hb ⟨h.vtable b hb, rfl⟩).1

theorem phase (h : VtableInv t σ) (hne : σ.world.pages ≠ []) :
    t.defaultAlignment ∣ σ.world.current + t.sizeofSizeT :=
  (h.phased.cursor hne).resolve_right fun hex => hex.elim And.left And.left

theorem start (t : Target) (pageSize : Nat) (mem : Mem) :
    VtableInv t (Sys.start pageSize mem) where
  inv := Inv.start t pageSize mem
  phased := Phased.start t _ _ pageSize mem
  vtable := nofun

/-- The newer of two blocks is apart from the older one, headers included, when
it is not put over its tail. -/
theorem apart_of_stair (h : VtableInv t σ) {b d : Block} (hb : b ∈ σ.live) (hd : d ∈ σ.live)
    (hafter : (shape t).After b d) (hstair : d.page = b.page → d.stop ≤ b.start t) :
    d.stop ≤ b.start t ∨ b.stop ≤ d.start t := by
  rcases hafter with hpage | ⟨hpage, -⟩
  · exact h.inv.apart_of_page_ne hd hb (Nat.ne_of_lt hpage)
  · exact Or.inl (hstair hpage)

/-- Being laid out comes down to the older of two blocks of a page ending before
the newer one, its header included, starts. -/
theorem laid_iff_pairwise (h : VtableInv t σ) :
    Laid t σ ↔ σ.live.Pairwise fun b d => d.page = b.page → d.stop ≤ b.start t := by
  have hpos := t.sizeofSizeT_pos
  constructor
  · -- the newer block's header is apart from the older one's payload, and starts
    -- behind that
    rintro ⟨-, hheader⟩
    refine (List.Pairwise.and_mem.mp h.inv.stacked.order).imp ?_
    rintro b d ⟨hb, hd, hafter⟩ hpage
    have hbal := (h.aligned hb).start
    have hedge := (h.aligned hd).ptr_le_edge
    have hdisj : d.stop ≤ b.start t ∨ b.start t + t.sizeofSizeT ≤ d.ptr := by
      have := hheader d hd b hb
      unfold Region.Disjoint Block.payload Block.headerRegion at this
      rw [h.vtable b hb] at this
      exact this
    unfold Shape.After shape at hafter
    dsimp only at hafter
    omega
  · intro hstairs
    have hboth := h.inv.stacked.order.and hstairs
    refine ⟨?_, ?_⟩
    · refine (List.Pairwise.and_mem.mp hboth).imp ?_
      rintro b d ⟨hb, hd, hafter, hstair⟩
      have hpair := h.apart_of_stair hb hd hafter hstair
      have hbs := (h.aligned hb).start
      have hds := (h.aligned hd).start
      show b.stop ≤ d.ptr ∨ d.stop ≤ b.ptr
      omega
    · intro b hb q hq
      have hbs := (h.aligned hb).start
      have hqs := (h.aligned hq).start
      have hqpos := (h.aligned hq).size_pos
      have hqstop : q.stop = q.ptr + q.size := rfl
      unfold Region.Disjoint Block.payload Block.headerRegion
      rw [h.vtable q hq]
      show b.stop ≤ q.start t ∨ q.start t + t.sizeofSizeT ≤ b.ptr
      rcases pairwise_trichotomy hboth hb hq with rfl | hbq | hqb
      · omega
      · have := h.apart_of_stair hb hq hbq.1 hbq.2
        omega
      · have := h.apart_of_stair hq hb hqb.1 hqb.2
        omega

/-- Blocks that are laid out are apart, headers included. -/
theorem spans_apart (h : VtableInv t σ) (hlaid : Laid t σ) {b d : Block} (hb : b ∈ σ.live)
    (hd : d ∈ σ.live) (hne : b ≠ d) : b.stop ≤ d.start t ∨ d.stop ≤ b.start t := by
  have hboth := h.inv.stacked.order.and (h.laid_iff_pairwise.mp hlaid)
  rcases (pairwise_trichotomy hboth hb hd).resolve_left hne with hbd | hdb
  · exact (h.apart_of_stair hb hd hbd.1 hbd.2).symm
  · exact h.apart_of_stair hd hb hdb.1 hdb.2

end VtableInv

/-! ## One call -/

/-- Calls that are neither direct nor resets leave the invariant of the vtable
calls alone. -/
theorem Effect.vtableInv {c : Call} {σ σ' : Sys} {r : Option Nat} (heff : Effect t c σ r σ')
    (h : VtableInv t σ) (hsys : SysAligned t c.sys) (hdirect : ¬ c.op.IsDirect)
    (hreset : ¬ c.op.IsReset) : VtableInv t σ' where
  inv := heff.inv h.inv
  phased := heff.phased h.inv h.phased hsys hreset hdirect ⟨False.elim, False.elim⟩
  vtable := heff.all_vtable hdirect h.vtable

/-- **Step.** A call keeps payloads and headers apart exactly when it puts no
block right behind one without tail room. -/
theorem Effect.laid_step {c : Call} {σ σ' : Sys} {r : Option Nat} (heff : Effect t c σ r σ')
    (h : VtableInv t σ) (hsys : SysAligned t c.sys) (hdirect : ¬ c.op.IsDirect)
    (hreset : ¬ c.op.IsReset) (hlaid : Laid t σ) : Laid t σ' ↔ LayOk t σ c.op := by
  have h' := heff.vtableInv h hsys hdirect hreset
  rw [h'.laid_iff_pairwise]
  have hstairs := h.laid_iff_pairwise.mp hlaid
  cases heff with
  | @carved p s₁ hsize hold hmoved halloc =>
    have hapi : c.op.api = .vtable := h'.vtable _ List.mem_cons_self
    have hstart := halloc.start_eq σ.clock
    rw [hapi] at halloc hstart
    unfold LayOk
    rw [List.pairwise_cons, carvesHere_iff hapi hsize hmoved]
    rw [and_iff_left (hstairs.filter _)]
    by_cases hfit : FitsPageV t σ.world (c.op.size t σ.world.mem)
    · -- right at the cursor
      obtain ⟨hp, hindex⟩ := halloc.here_of_probe hfit
      have hcur : s₁.last = σ.world.current := by
        have := halloc.start
        simp only [Api.header] at this
        omega
      have hphase := h.phase (h.inv.pages.pages_ne_nil hfit.2)
      have hpair : ∀ d ∈ σ.live, d.page = σ.world.pageIndex →
          (d.stop ≤ σ.world.current ↔ (d.edge t = σ.world.current → TailRoom t d)) :=
        fun d hd hpage => (h.aligned hd).stop_le_iff hphase (h.inv.stacked.below d hd hpage)
      rw [hapi, hstart, hcur, hindex]
      -- the new header starts at the cursor, so each older block is asked for room
      constructor
      · intro hnew _ d hd hne hpage
        exact (hpair d hd hpage).mp (hnew d (List.mem_filter.mpr ⟨hd, decide_eq_true hne⟩) hpage)
      · intro hok d hd hpage
        obtain ⟨hd', hne⟩ := List.mem_filter.mp hd
        exact (hpair d hd' hpage).mpr (hok hfit d hd' (of_decide_eq_true hne) hpage)
    · -- on another page
      refine ⟨fun _ hyes => absurd hyes hfit, ?_⟩
      intro _ d hd hpage
      have hd' := (List.mem_filter.mp hd).1
      have hlater := (halloc.fresh_of_probe hfit).1.resolve_left (h.inv.pages_ne_nil hd')
      have hle := h.inv.stacked.page_le d hd'
      have hpage' : d.page = s₁.pageIndex := hpage
      have hle' : d.page ≤ σ.world.pageIndex := hle
      omega
  | @extended b l s hlive hpage his hplace hsize hext =>
    rw [hlive] at hstairs
    have hcons := List.pairwise_cons.mp hstairs
    exact ⟨fun _ hhere => absurd hplace hhere.not_inPlace,
      fun _ => List.pairwise_cons.mpr ⟨hcons.1, hcons.2⟩⟩
  | @rewound b l s hop hlive =>
    rw [hlive] at hstairs
    refine ⟨?_, fun _ => (List.pairwise_cons.mp hstairs).2⟩
    intro _ hhere
    rw [hop] at hhere
    exact hhere.elim
  | abandoned hop =>
    refine ⟨?_, fun _ => hstairs.filter _⟩
    intro _ hhere
    rw [hop] at hhere
    exact hhere.elim
  | reset hop => exact absurd hop hreset
  | written hop =>
    refine ⟨?_, fun _ => hstairs⟩
    intro _ hhere
    rw [hop] at hhere
    exact hhere.elim

/-! ## Runs -/

variable {pageSize : Nat} {mem : Mem} {l : List Call} {σ : Sys}

theorem reach_laid
    (h : Reach (Sys.step t) (fun σ c => Legal t σ c ∧ SysAligned t c.sys ∧ ¬ c.op.IsDirect ∧
      ¬ c.op.IsReset ∧ LayOk t σ c.op) (Sys.start pageSize mem) l σ) :
    VtableInv t σ ∧ Laid t σ := by
  refine (reach_inv_and (X := fun σ => VtableInv t σ ∧ Laid t σ) And.left
    ⟨VtableInv.start t pageSize mem, Laid.start t pageSize mem⟩ ?_ h).2
  rintro σ c r σ' _ ⟨-, hsys, hdirect, hreset, hok⟩ heff ⟨hinv, hlaid⟩
  exact ⟨heff.vtableInv hinv hsys hdirect hreset,
    (heff.laid_step hinv hsys hdirect hreset hlaid).mpr hok⟩

/-- **Layout of a run.** As long as no block is put right behind a live one
without tail room, payloads and headers are apart; and the next call keeps them
apart exactly when it does not do so either. -/
theorem laid_iff
    (h : Reach (Sys.step t) (fun σ c => Legal t σ c ∧ SysAligned t c.sys ∧ ¬ c.op.IsDirect ∧
      ¬ c.op.IsReset ∧ LayOk t σ c.op) (Sys.start pageSize mem) l σ) :
    Laid t σ ∧
    ∀ c σ', Legal t σ c → SysAligned t c.sys → ¬ c.op.IsDirect → ¬ c.op.IsReset →
      σ.step t c = some σ' → (Laid t σ' ↔ LayOk t σ c.op) := by
  obtain ⟨hinv, hlaid⟩ := reach_laid h
  refine ⟨hlaid, ?_⟩
  intro c σ' hlegal hsys hdirect hreset hs
  obtain ⟨_, _, heff⟩ := step_effect hinv.inv hlegal hs
  exact heff.laid_step hinv hsys hdirect hreset hlaid

/-- Blocks with room in their tails, one of them freed and one moved. -/
def roomyScript : List Line :=
  [⟨.callocV 1 8, [(64, 0x1000)]⟩, ⟨.reallocarrayV 0 5 1, []⟩, ⟨.freeV 0x1010, []⟩,
    ⟨.reallocarrayV 0x1020 1 40, [(64, 0x2000)]⟩]

theorem laid_iff_roomy :
    let σ := scriptEnd (x64 false) 64 (fun _ => 0) roomyScript
    Laid (x64 false) σ ∧
    ∀ c σ', Legal (x64 false) σ c → SysAligned (x64 false) c.sys → ¬ c.op.IsDirect →
      ¬ c.op.IsReset → σ.step (x64 false) c = some σ' →
      (Laid (x64 false) σ' ↔ LayOk (x64 false) σ c.op) :=
  laid_iff (reach_of_aligned (l := roomyScript) (by decide +kernel))

/-- 16 bytes and then one. -/
def tightScript : List Line := [⟨.callocV 1 16, [(64, 0x1000)]⟩, ⟨.callocV 1 1, []⟩]

/-- The header of the second block is the last eight bytes of the first. -/
theorem tight_not_laid :
    let σ := scriptEnd (x64 false) 64 (fun _ => 0) tightScript
    Reach (Sys.step (x64 false)) (fun σ c => Legal (x64 false) σ c ∧ SysAligned (x64 false) c.sys ∧
        ¬ c.op.IsDirect ∧ ¬ c.op.IsReset) (Sys.start 64 fun _ => 0) (tightScript.map Line.call) σ ∧
      σ.live = [⟨.vtable, 0x1020, 1, 0, 1⟩, ⟨.vtable, 0x1010, 16, 0, 0⟩] ∧
      ¬ Laid (x64 false) σ := by
  refine ⟨reach_of_aligned (by decide +kernel), by decide +kernel, ?_⟩
  intro hlaid
  have hdisj := hlaid.2 ⟨.vtable, 0x1010, 16, 0, 0⟩ (by decide +kernel) ⟨.vtable, 0x1020, 1, 0, 1⟩
    (by decide +kernel)
  revert hdisj
  decide

end MulleStorage.Arena
