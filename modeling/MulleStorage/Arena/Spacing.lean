import MulleStorage.Arena.Header

/-!
# Where blocks are put

`_mulle_arena_reallocarray_v` believes what is in front of its block. That is the
size of the block for as long as nobody writes over it, and only another block
can bring that about:

- the cursor may stand inside the header of a block that is not aligned, and the
  next block goes there;
- it may stand in front of the end of a block, and if the next one has a header,
  clients of the first one write to it.

`PlaceOk` says of a call that it does neither. Besides, a debug `free` fills up to
the rounded end of its block, which may be behind its page (`FillOk`).

> `Kempt.step`, `reach_kempt`: in runs of such calls, both APIs and all resets, each
> vtable block has its size in front of it.
-/

namespace MulleStorage.Arena

open MulleStorage.Lib

variable {t : Target}

/-! ## The conditions on a call -/

/-- The alignment a direct call asks for. -/
def Op.alignment : Op → Nat
  | .alloc _ alignment | .calloc _ alignment | .realloc _ _ _ alignment => alignment
  | _ => 1

/-- The call carves a direct block on the current page. -/
def CarvesDirect (t : Target) (s : World) (op : Op) : Prop :=
  op.IsDirect ∧ ¬ InPlace t s op ∧ FitsPage t s (op.size t s.mem) op.alignment

/-- A vtable block is not put behind the cursor when that is in front of the end
of a live block, but for the one the call gives up; a direct block is not put over
the header of one. -/
def PlaceOk (t : Target) (σ : Sys) (op : Op) : Prop :=
  (CarvesHere t σ.world op → ∀ d ∈ σ.live, ¬ d.Is .vtable op.block →
    d.page = σ.world.pageIndex → d.stop ≤ σ.world.current) ∧
  (CarvesDirect t σ.world op → ∀ d ∈ σ.live, d.api = .vtable →
    d.page = σ.world.pageIndex → d.ptr ≤ alignPointer t σ.world.current op.alignment)

/-- When a debug build frees the newest block, the rounded end of the block is at
most a header behind its page. A release build fills nothing. -/
def FillOk (t : Target) (σ : Sys) : Op → Prop
  | .freeV block => t.debug = true → ∀ b ∈ σ.live, b.Is .vtable block → b.start t = σ.world.last →
    ∀ r ∈ (held σ.world.log)[b.page]?,
      alignUp t.defaultAlignment b.stop ≤ r.base + r.size + t.sizeofSizeT
  | _ => True

instance (t : Target) (s : World) (op : Op) : Decidable (CarvesDirect t s op) :=
  inferInstanceAs (Decidable (_ ∧ _))

instance (t : Target) (σ : Sys) (op : Op) : Decidable (PlaceOk t σ op) :=
  inferInstanceAs (Decidable ((_ → _) ∧ (_ → _)))

instance (t : Target) (σ : Sys) : (op : Op) → Decidable (FillOk t σ op)
  | .freeV block => inferInstanceAs (Decidable (_ → ∀ b ∈ σ.live, b.Is .vtable block → _ →
    ∀ r ∈ (held σ.world.log)[b.page]?, _))
  | .alloc .. | .calloc .. | .memdup .. | .strdup .. | .realloc .. | .callocV .. | .reallocarrayV ..
  | .reset | .resetKeepPages .. | .resetKeepPercentage .. | .write .. => isTrue trivial

/-! ## Where a direct block goes -/

/-- `_mulle_arena_alloc` puts its block at the aligned cursor, or on a later page. -/
theorem alloc_place {sys : Nat → Option Nat} {size alignment p : Nat} {s s' : World}
    (hinv : PageInv t s) (hsys : SysOk t s sys) (h : alloc t sys size alignment s = some (p, s')) :
    FitsPage t s size alignment ∧ p = alignPointer t s.current alignment ∨
      s.pages = [] ∨ s.pageIndex < s'.pageIndex := by
  by_cases hfit : FitsPage t s size alignment
  · rw [alloc_here sys hfit] at h
    cases h
    exact Or.inl ⟨hfit, rfl⟩
  · rw [alloc_elsewhere sys hfit] at h
    obtain ⟨⟨page, s₁⟩, hpage, hplaced⟩ := Option.map_eq_some_iff.mp h
    cases hplaced
    exact Or.inr (newPage_opened hinv hsys hpage).later

/-- Every direct call that does not stay in place is an allocation, and a fill. -/
theorem exec_direct {sys : Nat → Option Nat} {op : Op} {s s' : World} {p : Nat}
    (hdirect : op.IsDirect) (hmoved : ¬ InPlace t s op) (hnw : NoWrap t s op)
    (h : exec t sys op s = some (some p, s')) :
    ∃ s₁, alloc t sys (op.size t s.mem) op.alignment s = some (p, s₁) ∧
      s' = op.fill t s.mem p s₁ := by
  -- what `exec` makes of an allocation that is filled
  have hfilled : ∀ {x : Option (Nat × World)},
      (x.map fun r => (r.1, op.fill t s.mem r.1 r.2)) = some (p, s') →
      ∃ s₁, x = some (p, s₁) ∧ s' = op.fill t s.mem p s₁ := by
    intro x hx
    obtain ⟨⟨q, s₁⟩, hq, heq⟩ := Option.map_eq_some_iff.mp hx
    cases heq
    exact ⟨s₁, hq, rfl⟩
  cases op with
  | alloc size alignment =>
    obtain ⟨⟨q, s₁⟩, hq, heq⟩ := Option.map_eq_some_iff.mp h
    cases heq
    exact ⟨_, hq, rfl⟩
  | calloc size alignment =>
    obtain ⟨⟨q, s₁⟩, hq, heq⟩ := Option.map_eq_some_iff.mp h
    cases heq
    rw [calloc_eq] at hq
    exact hfilled hq
  | memdup src size =>
    obtain ⟨⟨q, s₁⟩, hq, heq⟩ := Option.map_eq_some_iff.mp h
    cases heq
    rw [memdup_eq] at hq
    exact hfilled hq
  | strdup str =>
    obtain ⟨⟨q, s₁⟩, hq, heq⟩ := Option.map_eq_some_iff.mp h
    cases heq
    obtain ⟨len, hlen, hdup⟩ := strdup_eq hq
    have hsize : (Op.strdup str).size t s.mem = len + 1 := by
      simp only [Op.size, hlen, Option.map_some, Option.getD_some]
    rw [Target.add_eq (hnw len hlen).1, memdup_eq] at hdup
    rw [hsize]
    refine hfilled ?_
    simp only [Op.fill, hlen, Option.map_some, Option.getD_some] at hdup ⊢
    exact hdup
  | realloc block oldSize newSize alignment =>
    obtain ⟨⟨q, s₁⟩, hq, heq⟩ := Option.map_eq_some_iff.mp h
    cases heq
    rw [realloc_moved hmoved] at hq
    exact hfilled hq
  | _ => exact hdirect.elim

/-- A direct block goes to the aligned cursor, or on a later page. -/
theorem direct_place {σ : Sys} {c : Call} {p : Nat} {s : World} (hinv : Inv t σ)
    (hlegal : Legal t σ c) (hdirect : c.op.IsDirect) (hmoved : ¬ InPlace t σ.world c.op)
    (h : exec t c.sys c.op σ.world = some (some p, s)) :
    CarvesDirect t σ.world c.op ∧ p = alignPointer t σ.world.current c.op.alignment ∨
      σ.world.pages = [] ∨ σ.world.pageIndex < s.pageIndex := by
  obtain ⟨s₁, halloc, rfl⟩ := exec_direct hdirect hmoved hlegal.noWrap h
  rw [Op.fill_arena]
  exact (alloc_place hinv.pages hlegal.sys halloc).imp_left fun ⟨hfit, hp⟩ =>
    ⟨⟨hdirect, hmoved, hfit⟩, hp⟩

/-! ## Blocks apart -/

/-- No block starts in front of the payload of an older one of its page. -/
def Clear (t : Target) (σ : Sys) : Prop :=
  σ.live.Pairwise fun b d => d.page = b.page → d.ptr ≤ b.start t

/-- Nor does a vtable block start in front of the end of one. -/
def Spaced (t : Target) (σ : Sys) : Prop :=
  σ.live.Pairwise fun b d =>
    d.page = b.page → d.ptr ≤ b.start t ∧ (b.api = .vtable → d.stop ≤ b.start t)

theorem Spaced.clear {σ : Sys} (h : Spaced t σ) : Clear t σ :=
  h.imp fun hbd hpage => (hbd hpage).1

/-- **Step.** A call that is `PlaceOk` keeps the blocks apart. -/
theorem Spaced.step {σ σ' : Sys} {c : Call} (h : Spaced t σ) (hinv : Inv t σ)
    (hlegal : Legal t σ c) (hok : PlaceOk t σ c.op) (hs : σ.step t c = some σ') : Spaced t σ' := by
  obtain ⟨⟨r, s⟩, hexec, hrec⟩ := Option.map_eq_some_iff.mp hs
  have heff := exec_effect hinv hlegal hexec
  have hworld : s = σ'.world := by rw [← hrec, Sys.record_world]
  rw [hrec] at heff
  subst hworld
  cases heff with
  | @carved p s₁ hsize hold hmoved halloc =>
    refine List.pairwise_cons.mpr ⟨fun d hd hpage => ?_, h.filter _⟩
    obtain ⟨hd, hkeep⟩ := List.mem_filter.mp hd
    have hcarved := halloc.toCarved.of_probe
    rw [hcarved.start_eq σ.clock]
    -- the new block is on the page of an older one, the current one
    have hpage' : d.page = s₁.pageIndex := hpage
    have hle : d.page ≤ σ.world.pageIndex := hinv.stacked.page_le d hd
    obtain ⟨hindex, hcur⟩ := (hcarved.later hinv hd).resolve_left (by omega)
    have hne : ¬ (σ.world.pages = [] ∨ σ.world.pageIndex < s₁.pageIndex) := by
      rintro (hnil | hlt)
      · exact hinv.pages_ne_nil hd hnil
      · omega
    have hdpage : d.page = σ.world.pageIndex := hpage'.trans hindex.symm
    have hstart := halloc.start
    cases hapi : c.op.api with
    | vtable =>
      rw [hapi] at halloc hstart
      have hfit : FitsPageV t σ.world (c.op.size t σ.world.mem) :=
        Decidable.byContradiction fun hno => hne (halloc.fresh_of_probe hno).1
      have hp := (halloc.here_of_probe hfit).1
      have hstop := hok.1 ((carvesHere_iff hapi hsize hmoved).mpr hfit) d hd
        (hapi ▸ of_decide_eq_true hkeep) hdpage
      have hlast : s₁.last = σ.world.current := by
        simp only [Api.header] at hstart
        omega
      rw [hlast]
      exact ⟨Nat.le_trans (Nat.le_add_right _ _) hstop, fun _ => hstop⟩
    | direct =>
      rw [hapi] at hstart
      refine ⟨?_, fun hvtable => Api.noConfusion hvtable⟩
      cases hdapi : d.api with
      | vtable =>
        have hplace := direct_place hinv hlegal (isDirect_of_api hapi hsize) hmoved hexec
        rw [Op.fill_arena] at hplace
        obtain ⟨hhere, hp⟩ := hplace.resolve_right hne
        have hlast : s₁.last = alignPointer t σ.world.current c.op.alignment := hstart.symm.trans hp
        rw [hlast]
        exact hok.2 hhere d hd hdapi hdpage
      | direct =>
        -- a direct block has no header, and the cursor is behind it
        have hbelow : d.edge t ≤ σ.world.current := hinv.stacked.below d hd hdpage
        have hedge := (hinv.placed d hd).start_lt_edge
        have hdstart := (hinv.placed d hd).start
        rw [hdapi] at hdstart
        simp only [Api.header] at hdstart
        omega
  | @extended b l s hlive =>
    unfold Spaced at h
    rw [hlive] at h
    obtain ⟨hfirst, hrest⟩ := List.pairwise_cons.mp h
    exact List.pairwise_cons.mpr ⟨hfirst, hrest⟩
  | rewound _ hlive =>
    unfold Spaced at h
    rw [hlive] at h
    exact (List.pairwise_cons.mp h).2
  | abandoned => exact h.filter _
  | reset => exact .nil
  | written => exact h

section

variable {σ σ' : Sys} {c : Call} {op : Op} {r : Option Nat} {b d : Block}

/-- The header of a block is in front of another one that keeps clear of it, or
behind its page. -/
theorem Placed.header_apart {s : World} (hb : Placed t s b) (hd : Placed t s d)
    (hinv : PageInv t s) (hclear : d.page = b.page → d.ptr ≤ b.start t) :
    d.ptr ≤ b.start t ∨ d.page ≠ b.page ∧ b.stop ≤ d.start t := by
  by_cases hpage : d.page = b.page
  · exact Or.inl (hclear hpage)
  · rcases hb.apart hd hinv (Ne.symm hpage) with hle | hle
    · exact Or.inr ⟨hpage, hle⟩
    · exact Or.inl (Nat.le_trans (Nat.le_add_right _ _) hle)

/-- No payload is over the header of a vtable block. -/
theorem Spaced.header_apart (h : Spaced t σ) (hinv : Inv t σ) (hb : b ∈ σ.live) (hd : d ∈ σ.live)
    (hapi : d.api = .vtable) : d.ptr ≤ b.ptr ∨ b.stop ≤ d.start t := by
  have hbstart : b.start t ≤ b.ptr := Nat.sub_le _ _
  have hdstop : d.ptr ≤ d.stop := Nat.le_add_right _ _
  by_cases hpage : d.page = b.page
  · rcases pairwise_trichotomy h hb hd with rfl | hbd | hdb
    · exact Or.inl (Nat.le_refl _)
    · exact Or.inl (Nat.le_trans (hbd hpage).1 hbstart)
    · exact Or.inr ((hdb hpage.symm).2 hapi)
  · rcases hinv.apart_of_page_ne hd hb hpage with hle | hle
    · exact Or.inl (by omega)
    · exact Or.inr hle

/-! ## The fill of a debug `free` -/

/-- The fill of a debug `free` ends in front of the blocks of later pages. -/
def FillApart (t : Target) (σ : Sys) (op : Op) : Prop :=
  t.debug = true → ∀ b ∈ σ.live, op = .freeV b.ptr → b.api = .vtable → b.start t = σ.world.last →
    ∀ d ∈ σ.live, d.page ≠ b.page → b.stop ≤ d.start t → b.edge t ≤ d.start t

/-- The edge of a block freed with `FillOk` is on its page. -/
theorem FillOk.edge_le {block : Nat} (h : FillOk t σ (.freeV block)) (hinv : Inv t σ)
    (hdebug : t.debug = true) (hb : b ∈ σ.live) (his : b.Is .vtable block)
    (hlast : b.start t = σ.world.last) {q : Region} (hq : (held σ.world.log)[b.page]? = some q) :
    b.edge t ≤ q.base + q.size := by
  have hroom := h hdebug b hb his hlast q hq
  rw [← edge_add_header his.1 ((hinv.placed b hb).ptr_eq his.1)] at hroom
  exact Nat.le_of_add_le_add_right hroom

theorem FillOk.apart (h : FillOk t σ op) (hinv : Inv t σ) : FillApart t σ op := by
  intro hdebug b hb hop hapi hlast d hd hpage hle
  subst hop
  obtain ⟨q, r, hq, -, -, hbefore, hrbase⟩ := hinv.page_before hb hd hpage hle
  have hedge := h.edge_le hinv hdebug hb ⟨hapi, rfl⟩ hlast hq
  exact Nat.le_trans hedge (Nat.le_trans hbefore hrbase)

/-! ## Headers -/

/-- **Frame.** No call writes to the header of a block, unless it returns it. -/
theorem Effect.headers_kept (heff : Effect t c σ r σ') (hinv : Inv t σ)
    (hsys : SysOk t σ.world c.sys) (hclear : Clear t σ) (hclear' : Clear t σ')
    (hfill : FillApart t σ c.op) (hw : ¬ c.op.IsWrite) (hd' : d ∈ σ'.live) :
    (d ∈ σ.live ∧ ∀ a, d.start t ≤ a → a < d.ptr → σ'.world.mem a = σ.world.mem a) ∨
    (r = some d.ptr ∧ d.api = c.op.api) := by
  cases heff with
  | @carved p s₁ hsize hold hmoved halloc =>
    rcases List.mem_cons.mp hd' with rfl | hd''
    · exact Or.inr ⟨rfl, rfl⟩
    · have hd := (List.mem_filter.mp hd'').1
      have hcarved := halloc.toCarved.of_probe
      have hplaced := (hinv.placed d hd).mono hcarved.grows
      have hpos := hplaced.size_pos
      have happart := (hcarved.placed hsize σ.clock).header_apart hplaced halloc.inv
        ((List.pairwise_cons.mp hclear').1 d hd'')
      rw [hcarved.start_eq σ.clock] at happart
      refine Or.inl ⟨hd, fun a hstart hptr => ?_⟩
      refine hcarved.fill.mem a (hinv.old hsys hd hstart (by unfold Block.stop; omega)) ?_
      rw [Op.fill_arena]
      unfold Block.stop at happart
      dsimp only at happart
      omega
  | @extended b l s hlive hpage his hplace hsize hext =>
    rcases List.mem_cons.mp hd' with rfl | hd''
    · exact Or.inr ⟨rfl, his.1⟩
    · have hb : b ∈ σ.live := hlive ▸ List.mem_cons_self
      have hd : d ∈ σ.live := hlive ▸ List.mem_cons_of_mem b hd''
      unfold Clear at hclear
      rw [hlive] at hclear
      have happart := (hinv.placed b hb).header_apart (hinv.placed d hd) hinv.pages
        ((List.pairwise_cons.mp hclear).1 d hd'')
      rw [hext.start_eq] at happart
      refine Or.inl ⟨hd, fun a hstart hptr => hext.mem a ?_⟩
      unfold Block.stop at happart
      omega
  | @rewound b l s hop hlive hpage hapi hlast hedge hpages' hfree =>
    have hb : b ∈ σ.live := hlive ▸ List.mem_cons_self
    have hd : d ∈ σ.live := hlive ▸ List.mem_cons_of_mem b hd'
    unfold Clear at hclear
    rw [hlive] at hclear
    have happart := (hinv.placed b hb).header_apart (hinv.placed d hd) hinv.pages
      ((List.pairwise_cons.mp hclear).1 d hd')
    refine Or.inl ⟨hd, fun a hstart hptr => hfree.mem a fun hdebug => ?_⟩
    rcases happart with hle | ⟨hne, hle⟩
    · omega
    · -- the fill ends before the page of `d`
      have := hfill hdebug b hb hop hapi hlast d hd hne hle
      omega
  | abandoned => exact Or.inl ⟨(List.mem_filter.mp hd').1, fun _ _ _ => rfl⟩
  | reset => exact absurd hd' List.not_mem_nil
  | written hop => exact absurd (hop ▸ trivial) hw

/-- The word in front of each vtable block is its size. -/
def Words (t : Target) (σ : Sys) : Prop :=
  ∀ b ∈ σ.live, b.api = .vtable → loadWord σ.world.mem (b.start t) t.sizeofSizeT = b.size

/-- The header of a vtable block that is returned is its size. -/
theorem Effect.word_returned (heff : Effect t c σ r σ') (hinv : Inv t σ) (hd : d ∈ σ'.live)
    (hapi : d.api = .vtable) (hr : r = some d.ptr ∧ d.api = c.op.api) :
    loadWord σ'.world.mem (d.start t) t.sizeofSizeT = d.size := by
  obtain ⟨rfl, heq⟩ := hr
  obtain ⟨b, hb, his, hsize⟩ := heff.returned
  have hsame : b = d := (heff.inv hinv).eq_of_is hd hb (by rw [heq]; exact his)
  have hword := heff.word hinv (heq.symm.trans hapi)
  have hstart : d.start t = d.ptr - t.sizeofSizeT := by
    unfold Block.start
    rw [hapi]
    rfl
  rw [hstart, hword, ← hsame, hsize]

/-- **Step.** Calls that keep blocks and fills apart leave the headers readable. -/
theorem Words.step (h : Words t σ) (hinv : Inv t σ) (hlegal : Legal t σ c) (hspaced : Spaced t σ)
    (hclear' : Clear t σ') (hfill : FillApart t σ c.op) (heff : Effect t c σ r σ') : Words t σ' := by
  intro d hd hapi
  by_cases hw : c.op.IsWrite
  · -- a client stores into one of its payloads
    obtain ⟨p, bytes, hop⟩ : ∃ p bytes, c.op = .write p bytes := by
      cases hop : c.op with
      | write p bytes => exact ⟨p, bytes, rfl⟩
      | _ =>
        rw [hop] at hw
        exact hw.elim
    obtain ⟨hlive, hmem⟩ := heff.of_write hop
    rw [hlive] at hd
    have hproper := hlegal.proper
    unfold Proper at hproper
    rw [hop] at hproper
    obtain ⟨b, hb, hbase, hend⟩ := hproper
    have hapart := hspaced.header_apart hinv hb hd hapi
    have hptr := (hinv.placed d hd).ptr_eq hapi
    rw [hmem, ← h d hd hapi]
    refine loadWord_congr fun i hi => blit_outside ?_
    unfold Block.stop at hapart
    unfold Block.payload at hbase hend
    dsimp only at hbase hend
    omega
  · rcases heff.headers_kept hinv hlegal.sys hspaced.clear hclear' hfill hw hd with ⟨hd₀, hframe⟩ | hr
    · have hptr := (hinv.placed d hd₀).ptr_eq hapi
      rw [← h d hd₀ hapi]
      exact loadWord_congr fun i hi => hframe _ (Nat.le_add_right _ _) (by omega)
    · exact heff.word_returned hinv hd hapi hr

/-- Blocks that are apart, with headers that can be believed. -/
structure Kempt (t : Target) (σ : Sys) : Prop where
  spaced : Spaced t σ
  words : Words t σ

namespace Kempt

/-- Without blocks there is nothing to keep. -/
theorem of_nil (h : σ.live = []) : Kempt t σ where
  spaced := by
    unfold Spaced
    rw [h]
    exact .nil
  words b hb := by
    rw [h] at hb
    exact absurd hb List.not_mem_nil

/-- **Step.** -/
theorem step (h : Kempt t σ) (hinv : Inv t σ) (hlegal : Legal t σ c) (hplace : PlaceOk t σ c.op)
    (hfill : FillOk t σ c.op) (hs : σ.step t c = some σ') : Kempt t σ' := by
  have hspaced' := h.spaced.step hinv hlegal hplace hs
  obtain ⟨r, -, heff⟩ := step_effect hinv hlegal hs
  exact ⟨hspaced', h.words.step hinv hlegal h.spaced hspaced'.clear (hfill.apart hinv) heff⟩

end Kempt

end

/-! ## Runs -/

/-- In a run of calls that put their blocks and end their fills where they should,
headers can be believed. -/
theorem reach_kempt {pageSize : Nat} {mem : Mem} {l : List Call} {σ : Sys}
    (h : Reach (Sys.step t) (fun σ c => Legal t σ c ∧ PlaceOk t σ c.op ∧ FillOk t σ c.op)
      (Sys.start pageSize mem) l σ) : Inv t σ ∧ Kempt t σ := by
  refine Reach.inv (P := fun σ => Inv t σ ∧ Kempt t σ) ⟨Inv.start t pageSize mem, .of_nil rfl⟩ ?_ h
  intro σ c σ' ⟨hinv, hkempt⟩ ⟨hlegal, hplace, hfill⟩ hs
  obtain ⟨_, -, heff⟩ := step_effect hinv hlegal hs
  exact ⟨heff.inv hinv, hkempt.step hinv hlegal hplace hfill hs⟩

end MulleStorage.Arena
