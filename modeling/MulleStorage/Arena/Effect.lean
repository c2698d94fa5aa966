import MulleStorage.Arena.Blocks

/-!
# What a call can do

`Effect` lists what a legal call can do to an arena in order (`Inv`), once:

- `carved`: a new block goes on top and is filled (the block given up goes);
- `extended`: the newest block is resized where it is;
- `rewound`: the newest block is freed and the cursor steps back to its start;
- `abandoned`: any other block is freed, and the arena does not move;
- `reset`: all blocks go, and the pages behind the kept ones;
- `written`: a client stores into one of its blocks.

`exec_effect` is the inversion lemma, `Effect.inv` its invariant, `reach_inv`
the two along a run. Everything later about runs is a case analysis on `Effect`.
-/

namespace MulleStorage.Arena

open MulleStorage.Lib

variable {t : Target}

/-! ## The effects -/

/-- What a call `c` made in `σ` can do: the pointer it returns, and the state it
leaves. -/
inductive Effect (t : Target) (c : Call) (σ : Sys) : Option Nat → Sys → Prop
  | carved {p : Nat} {s₁ : World}
      (hsize : 0 < c.op.size t σ.world.mem)
      (hold : c.op.block = 0 ∨ ∃ b ∈ σ.live, b.Is c.op.api c.op.block)
      (hmoved : ¬ InPlace t σ.world c.op)
      (halloc : Allocated t c.sys c.op.api (c.op.size t σ.world.mem) p (c.op.probe t σ.world) s₁) :
      Effect t c σ (some p)
        { world := c.op.fill t σ.world.mem p s₁
          live := ⟨c.op.api, p, c.op.size t σ.world.mem, s₁.pageIndex, σ.clock⟩ ::
            σ.live.filter fun b => ¬ b.Is c.op.api c.op.block
          clock := σ.clock + 1 }
  | extended {b : Block} {l : List Block} {s : World}
      (hlive : σ.live = b :: l)
      (hpage : b.page = σ.world.pageIndex)
      (his : b.Is c.op.api c.op.block)
      (hplace : InPlace t σ.world c.op)
      (hsize : 0 < c.op.size t σ.world.mem)
      (hext : Extended t b.api (c.op.size t σ.world.mem) b.ptr σ.world s) :
      Effect t c σ (some b.ptr)
        { world := s
          live := { b with size := c.op.size t σ.world.mem } :: l
          clock := σ.clock }
  | rewound {b : Block} {l : List Block} {s : World}
      (hop : c.op = .freeV b.ptr)
      (hlive : σ.live = b :: l)
      (hpage : b.page = σ.world.pageIndex)
      (hapi : b.api = .vtable)
      (hlast : b.start t = σ.world.last)
      (hedge : b.edge t = σ.world.current)
      (hinv : PageInv t s)
      (hfree : Freed t σ.world s) :
      Effect t c σ none { world := s, live := l, clock := σ.clock }
  | abandoned {ptr : Nat}
      (hop : c.op = .freeV ptr)
      (hother : ∀ b ∈ σ.live, b.Is .vtable ptr → b.start t ≠ σ.world.last) :
      Effect t c σ none { σ with live := σ.live.filter fun b => ¬ b.Is .vtable ptr }
  | reset {keepCount : Nat} {s : World}
      (hop : c.op.IsReset)
      (hreset : WasReset t keepCount σ.world s) :
      Effect t c σ none { world := s, live := [], clock := σ.clock }
  | written {p : Nat} {bytes : List UInt8}
      (hop : c.op = .write p bytes) :
      Effect t c σ none { σ with world :=
        { σ.world with mem := blit σ.world.mem p bytes.length fun i => bytes.getD i 0 } }

/-! ## Inversion -/

/-- Reading a header leaves everything but the log of touches as it was. -/
theorem Carved.of_probe {sys : Nat → Option Nat} {api : Api} {size p dirty : Nat} {op : Op}
    {s s' : World} (h : Carved t sys api size p dirty (op.probe t s) s') :
    Carved t sys api size p dirty s s' := by
  cases op with
  | reallocarrayV block n size =>
    simp only [Op.probe] at h
    split at h
    · exact h
    · exact { h with }
  | _ => exact h

/-- What a vtable allocation says about where it put its block, read from the
state before the header was read. -/
theorem Allocated.here_of_probe {sys : Nat → Option Nat} {size p : Nat} {op : Op} {s s' : World}
    (h : Allocated t sys .vtable size p (op.probe t s) s') (hfit : FitsPageV t s size) :
    p = s.current + t.sizeofSizeT ∧ s'.pageIndex = s.pageIndex := by
  have := h.here rfl ((op.fitsPageV_probe size s).mpr hfit)
  rwa [Op.probe_arena] at this

theorem Allocated.fresh_of_probe {sys : Nat → Option Nat} {size p : Nat} {op : Op} {s s' : World}
    (h : Allocated t sys .vtable size p (op.probe t s) s') (hfit : ¬ FitsPageV t s size) :
    (s.pages = [] ∨ s.pageIndex < s'.pageIndex) ∧
    ∃ r ∈ held s'.log, p = r.base + t.defaultAlignment := by
  have := h.fresh rfl (mt (op.fitsPageV_probe size s).mp hfit)
  rwa [Op.probe_arena] at this

theorem Op.probe_inv {s : World} (op : Op) (h : PageInv t s) : PageInv t (op.probe t s) := by
  cases op with
  | reallocarrayV block n size =>
    simp only [Op.probe]
    split
    · exact h
    · exact h.touch s.mem _ _
  | _ => exact h

/-- Filling the payload of a block keeps it carved. -/
theorem Carved.fill {sys : Nat → Option Nat} {api : Api} {p : Nat} {op : Op} {m : Mem}
    {s s' : World} (h : Carved t sys api (op.size t m) p 0 s s') :
    Carved t sys api (op.size t m) p (op.size t m) s (op.fill t m p s') := by
  cases op with
  | calloc => exact h.memset _
  | memdup => exact h.memcpyFrom _
  | strdup => exact h.memcpyFrom _
  | callocV => exact h.memset _
  | realloc =>
    simp only [Op.fill]
    split
    · exact h.weaken
    · exact h.memcpy _ (by simp only [Op.size]; split <;> omega)
  | reallocarrayV =>
    simp only [Op.fill]
    split
    · exact h.weaken
    · exact h.memcpy _ (by simp only [Op.size]; split <;> omega)
  | _ => exact h.weaken

section

variable {c : Call} {σ : Sys} {p : Nat} {s : World}

/-- A new block starts where `_last` says. -/
theorem Carved.start_eq {sys : Nat → Option Nat} {api : Api} {size dirty : Nat} {s₀ : World}
    (h : Carved t sys api size p dirty s₀ s) (stamp : Nat) :
    Block.start t ⟨api, p, size, s.pageIndex, stamp⟩ = s.last := by
  have := h.start
  unfold Block.start
  dsimp only
  omega

/-- A new block lies inside the current page. -/
theorem Carved.placed {sys : Nat → Option Nat} {api : Api} {size dirty : Nat} {s₀ : World}
    (h : Carved t sys api size p dirty s₀ s) (hsize : 0 < size) (stamp : Nat) :
    Placed t s ⟨api, p, size, s.pageIndex, stamp⟩ := by
  have hstart := h.start_eq stamp
  obtain ⟨r, hr, hbase, hstop⟩ := h.covers
  exact ⟨hsize, by rw [hstart]; exact h.start, r, hr, by rw [hstart]; exact hbase, hstop⟩

/-- With a live block around, a new block is on a later page or behind the
cursor. -/
theorem Carved.later {sys : Nat → Option Nat} {api : Api} {size dirty : Nat}
    (h : Carved t sys api size p dirty σ.world s) (hinv : Inv t σ) {b : Block} (hb : b ∈ σ.live) :
    σ.world.pageIndex < s.pageIndex ∨
      σ.world.pageIndex = s.pageIndex ∧ σ.world.current ≤ s.last :=
  h.place.resolve_left (hinv.pages_ne_nil hb)

/-- A new block was carved after every live one. -/
theorem Carved.after {sys : Nat → Option Nat} {api : Api} {size dirty : Nat}
    (h : Carved t sys api size p dirty σ.world s) (hinv : Inv t σ) (stamp : Nat) {b : Block}
    (hb : b ∈ σ.live) : (shape t).After ⟨api, p, size, s.pageIndex, stamp⟩ b := by
  have hle := hinv.stacked.page_le b hb
  have hbelow := hinv.stacked.below b hb
  have hstart := h.start_eq stamp
  have hlater := h.later hinv hb
  unfold Shape.After shape at *
  dsimp only at *
  omega

/-- The pointer of a new block is that of no live one. -/
theorem Carved.ptr_ne {sys : Nat → Option Nat} {api : Api} {size dirty : Nat}
    (h : Carved t sys api size p dirty σ.world s) (hinv : Inv t σ) (hsize : 0 < size) {b : Block}
    (hb : b ∈ σ.live) (hapi : b.api = api) : p ≠ b.ptr := fun heq =>
  (h.placed hsize 0).not_is ((hinv.placed b hb).mono h.grows) h.inv (h.after hinv 0 hb)
    ⟨hapi, heq.symm⟩

/-- The client's books after a carving call. -/
theorem effect_of_allocated (hinv : Inv t σ) (hsize : 0 < c.op.size t σ.world.mem)
    (hold : c.op.block = 0 ∨ ∃ b ∈ σ.live, b.Is c.op.api c.op.block)
    (hmoved : ¬ InPlace t σ.world c.op)
    (h : Allocated t c.sys c.op.api (c.op.size t σ.world.mem) p (c.op.probe t σ.world) s) :
    Effect t c σ (some p) (σ.record t c.op (some p, c.op.fill t σ.world.mem p s)) := by
  have hne : p ≠ c.op.block := by
    rcases hold with hzero | ⟨b, hb, hapi, hptr⟩
    · have := h.pos
      omega
    · exact hptr ▸ h.of_probe.ptr_ne hinv hsize hb hapi
  simp only [Sys.record, Sys.grant, if_neg hne, Op.fill_arena]
  exact .carved hsize hold hmoved h

/-- The client's books after resizing a block in place. -/
theorem effect_of_extended {b : Block} (hinv : Inv t σ) (hb : b ∈ σ.live)
    (his : b.Is c.op.api c.op.block) (hlast : b.start t = σ.world.last)
    (hsize : 0 < c.op.size t σ.world.mem) (hplace : InPlace t σ.world c.op)
    (h : Extended t b.api (c.op.size t σ.world.mem) b.ptr σ.world s) :
    Effect t c σ (some b.ptr) (σ.record t c.op (some b.ptr, s)) := by
  obtain ⟨l, hlive, hpage, hedge⟩ := hinv.top_of_start hb hlast
  have htail : l.map (fun c' => if c'.Is c.op.api b.ptr then
      { c' with size := c.op.size t σ.world.mem } else c') = l := by
    refine (List.map_congr_left ?_).trans (List.map_id l)
    intro c' hc'
    rw [if_neg (his.1 ▸ hinv.not_is_of_top hlive c' hc')]
    rfl
  simp only [Sys.record, Sys.grant, if_pos his.2, hlive, List.map_cons, htail]
  rw [if_pos ⟨his.1, rfl⟩]
  exact .extended hlive hpage his hplace hsize h

/-- `_mulle_arena_alloc`, and the calls that fill what it returns. -/
theorem direct_effect {size alignment : Nat} (hinv : Inv t σ) (hsys : SysOk t σ.world c.sys)
    (hsize : 0 < size) (hal : t.IsAlignment alignment)
    (hnw : AllocNoWrap t σ.world size alignment) (hop : c.op.size t σ.world.mem = size)
    (hapi : c.op.api = .direct) (hprobe : c.op.probe t σ.world = σ.world)
    (hold : c.op.block = 0 ∨ ∃ b ∈ σ.live, b.Is c.op.api c.op.block)
    (hmoved : ¬ InPlace t σ.world c.op)
    (h : (alloc t c.sys size alignment σ.world).map
      (fun r => (r.1, c.op.fill t σ.world.mem r.1 r.2)) = some (p, s)) :
    Effect t c σ (some p) (σ.record t c.op (some p, s)) := by
  obtain ⟨⟨q, s₁⟩, halloc, hfill⟩ := Option.map_eq_some_iff.mp h
  cases hfill
  refine effect_of_allocated hinv (hop ▸ hsize) hold hmoved ?_
  rw [hapi, hop, hprobe]
  exact alloc_carved hinv.pages hsys hsize hal hnw halloc

/-- `_mulle_arena_alloc_with_size_header`, and the calls that fill what it
returns. -/
theorem header_effect {size : Nat} (hinv : Inv t σ) (hsys : SysOk t σ.world c.sys)
    (hsize : 0 < size) (hnw : HeaderNoWrap t σ.world size)
    (hop : c.op.size t σ.world.mem = size) (hapi : c.op.api = .vtable)
    (hold : c.op.block = 0 ∨ ∃ b ∈ σ.live, b.Is c.op.api c.op.block)
    (hmoved : ¬ InPlace t σ.world c.op)
    (h : (allocWithSizeHeader t c.sys size (c.op.probe t σ.world)).map
      (fun r => (r.1, c.op.fill t σ.world.mem r.1 r.2)) = some (p, s)) :
    Effect t c σ (some p) (σ.record t c.op (some p, s)) := by
  obtain ⟨⟨q, s₁⟩, halloc, hfill⟩ := Option.map_eq_some_iff.mp h
  cases hfill
  refine effect_of_allocated hinv (hop ▸ hsize) hold hmoved ?_
  have hsys' : SysOk t (c.op.probe t σ.world) c.sys := by
    unfold SysOk
    rw [Op.held_probe]
    exact hsys
  rw [hapi, hop]
  exact allocWithSizeHeader_carved (c.op.probe_inv hinv.pages) hsys' hsize
    ((c.op.headerNoWrap_probe size σ.world).mpr hnw) halloc

theorem alloc_effect {size alignment : Nat} (hinv : Inv t σ)
    (hop : c.op = .alloc size alignment) (hlegal : Legal t σ c)
    (h : alloc t c.sys size alignment σ.world = some (p, s)) :
    Effect t c σ (some p) (σ.record t c.op (some p, s)) := by
  obtain ⟨op, sys⟩ := c
  subst hop
  obtain ⟨hsys, ⟨hsize, -, hal⟩, hnw⟩ := hlegal
  rw [← Option.map_id' (x := alloc t sys size alignment σ.world)] at h
  exact direct_effect hinv hsys hsize hal hnw rfl rfl rfl (Or.inl rfl) id h

theorem calloc_effect {size alignment : Nat} (hinv : Inv t σ)
    (hop : c.op = .calloc size alignment) (hlegal : Legal t σ c)
    (h : calloc t c.sys size alignment σ.world = some (p, s)) :
    Effect t c σ (some p) (σ.record t c.op (some p, s)) := by
  obtain ⟨op, sys⟩ := c
  subst hop
  obtain ⟨hsys, ⟨hsize, -, hal⟩, hnw⟩ := hlegal
  rw [calloc_eq] at h
  exact direct_effect hinv hsys hsize hal hnw rfl rfl rfl (Or.inl rfl) id h

theorem memdup_effect {src size : Nat} (hinv : Inv t σ) (hop : c.op = .memdup src size)
    (hlegal : Legal t σ c) (h : memdup t c.sys src size σ.world = some (p, s)) :
    Effect t c σ (some p) (σ.record t c.op (some p, s)) := by
  obtain ⟨op, sys⟩ := c
  subst hop
  obtain ⟨hsys, ⟨hsize, -⟩, hnw⟩ := hlegal
  rw [memdup_eq] at h
  exact direct_effect hinv hsys hsize t.isAlignment_one hnw rfl rfl rfl (Or.inl rfl) id h

theorem strdup_effect {str : Nat} (hinv : Inv t σ) (hop : c.op = .strdup str)
    (hlegal : Legal t σ c) (h : strdup t c.sys str σ.world = some (p, s)) :
    Effect t c σ (some p) (σ.record t c.op (some p, s)) := by
  obtain ⟨op, sys⟩ := c
  subst hop
  obtain ⟨hsys, -, hnw⟩ := hlegal
  obtain ⟨len, hlen, hdup⟩ := strdup_eq h
  obtain ⟨hlt, hnw⟩ := hnw len hlen
  -- the terminator is copied as well
  have hlen' : ((strlen σ.world.mem str t.modulus).map (· + 1)).getD 0 = len + 1 := by
    rw [hlen]
    rfl
  rw [Target.add_eq hlt, memdup_eq] at hdup
  refine direct_effect hinv hsys (Nat.succ_pos len) t.isAlignment_one hnw hlen' rfl rfl
    (Or.inl rfl) id ?_
  simp only [Op.fill, hlen'] at hdup ⊢
  exact hdup

/-- `_mulle_arena_realloc` on `NULL` or a live block. -/
theorem realloc_effect {block oldSize newSize alignment : Nat} (hinv : Inv t σ)
    (hop : c.op = .realloc block oldSize newSize alignment) (hlegal : Legal t σ c)
    (h : realloc t c.sys block oldSize newSize alignment σ.world = some (p, s)) :
    Effect t c σ (some p) (σ.record t c.op (some p, s)) := by
  obtain ⟨op, sys⟩ := c
  subst hop
  obtain ⟨hsys, ⟨hold, hsize, -, hal⟩, hnw⟩ := hlegal
  dsimp only [NoWrap] at hnw
  have hold' : block = 0 ∨ ∃ b ∈ σ.live, b.Is .direct block :=
    hold.imp_right fun ⟨b, hb, his, _⟩ => ⟨b, hb, his⟩
  by_cases hplace : InPlace t σ.world (.realloc block oldSize newSize alignment)
  · -- the newest block, with room behind it
    obtain ⟨b, hb, his⟩ := hold'.resolve_left hplace.1
    rw [if_pos hplace] at hnw
    rw [realloc_inPlace hplace] at h
    cases h
    obtain ⟨hblock, hroom⟩ := hplace.2
    have hstart : b.start t = σ.world.last := by
      unfold Block.start
      rw [his.1, his.2]
      exact hblock
    obtain ⟨l, hlive, hpage, hedge⟩ := hinv.top_of_start hb hstart
    obtain ⟨r, hr, hbase, -⟩ := (hinv.placed b hb).covers
    rw [hpage] at hr
    rw [Target.add_eq hnw] at hroom ⊢
    have hx := direct_extended hinv.pages (hinv.pages_ne_nil hb) hr (hstart ▸ hbase) hroom hnw
    have heff := effect_of_extended (c := ⟨.realloc p oldSize newSize alignment, sys⟩) hinv hb
      his hstart hsize hplace (by rw [his.1, his.2, hblock]; exact hx)
    rwa [his.2] at heff
  · -- `NULL`, or moved
    rw [if_neg hplace] at hnw
    rw [realloc_moved hplace] at h
    exact direct_effect hinv hsys hsize hal hnw rfl rfl rfl hold' hplace h

/-- `_mulle_arena_reallocarray_v` on `NULL` or a live block. -/
theorem reallocarrayV_effect {block n size : Nat} (hinv : Inv t σ)
    (hop : c.op = .reallocarrayV block n size) (hlegal : Legal t σ c)
    (h : reallocarrayV t c.sys block n size σ.world = some (p, s)) :
    Effect t c σ (some p) (σ.record t c.op (some p, s)) := by
  obtain ⟨op, sys⟩ := c
  subst hop
  obtain ⟨hsys, ⟨hold, hsize, -, -⟩, hnw⟩ := hlegal
  dsimp only [NoWrap] at hnw
  have hfit := (reallocarrayV_size h).2
  replace hnw := hnw hfit
  by_cases hplace : InPlace t σ.world (.reallocarrayV block n size)
  · -- the newest block, with room behind it
    obtain ⟨b, hb, his⟩ := hold.resolve_left hplace.1
    obtain ⟨hptr, hraw⟩ := hinv.raw_eq hb his
    rw [if_pos hplace] at hnw
    rw [reallocarrayV_inPlace hsize hfit hplace] at h
    cases h
    obtain ⟨hlast, hroom⟩ := hplace.2
    have hstart : b.start t = σ.world.last := hraw.symm.trans hlast
    obtain ⟨l, hlive, hpage, hedge⟩ := hinv.top_of_start hb hstart
    have hplaced := hinv.placed b hb
    obtain ⟨r, hr, hbase, hend⟩ := hplaced.covers
    rw [hpage] at hr
    rw [Target.add_eq hnw] at hroom ⊢
    rw [stepBack_eq (by omega) hnw, hraw]
    rw [hstart] at hptr hbase ⊢
    unfold Block.stop at hend
    rw [his.2] at hend
    rw [hptr] at hroom hnw hend ⊢
    have hx := header_extended hinv.pages (hinv.pages_ne_nil hb) hr hbase (by omega) hroom hnw
    have heff := effect_of_extended (c := ⟨.reallocarrayV p n size, sys⟩) hinv hb his hstart
      hsize hplace (by rw [his.1, his.2, hptr]; exact hx)
    rwa [his.2, hptr] at heff
  · -- `NULL`, or moved
    rw [if_neg hplace] at hnw
    rw [reallocarrayV_moved hsize hfit hplace] at h
    exact header_effect (c := ⟨.reallocarrayV block n size, sys⟩) hinv hsys hsize hnw rfl rfl hold
      hplace h

/-- `_mulle_arena_calloc_v`. -/
theorem callocV_effect {n size : Nat} (hinv : Inv t σ) (hop : c.op = .callocV n size)
    (hlegal : Legal t σ c) (h : callocV t c.sys n size σ.world = some (p, s)) :
    Effect t c σ (some p) (σ.record t c.op (some p, s)) := by
  obtain ⟨op, sys⟩ := c
  subst hop
  obtain ⟨hsys, ⟨hsize, -⟩, hnw⟩ := hlegal
  have hfit := (callocV_size h).2
  rw [callocV_eq hsize hfit] at h
  exact header_effect hinv hsys hsize (hnw hfit) rfl rfl (Or.inl rfl) id h

/-- `_mulle_arena_free_v` on a live block. -/
theorem freeV_effect {block : Nat} (hinv : Inv t σ) (hop : c.op = .freeV block)
    (hlegal : Legal t σ c) :
    Effect t c σ none (σ.record t c.op (none, freeV t block σ.world)) := by
  have hproper := hlegal.proper
  unfold Proper at hproper
  rw [hop] at hproper
  obtain ⟨b, hb, his⟩ := hproper
  have hplaced := hinv.placed b hb
  obtain ⟨hptr, hraw⟩ := hinv.raw_eq hb his
  have hpos := t.sizeofSizeT_pos
  rw [hop]
  by_cases hlast : b.start t = σ.world.last
  · -- the newest block: the cursor steps back over it
    rw [freeV_newest (by omega) (hraw.trans hlast)]
    obtain ⟨l, hlive, hpage, hedge⟩ := hinv.top_of_start hb hlast
    have htail : σ.live.filter (fun b' => decide (¬ b'.Is .vtable block)) = l := by
      rw [hlive, List.filter_cons_of_neg (by simp [his]), List.filter_eq_self]
      intro c' hc'
      have := hinv.not_is_of_top hlive c' hc'
      rw [his.1, his.2] at this
      exact decide_eq_true this
    simp only [Sys.record, htail]
    obtain ⟨r, hr, hbase, -⟩ := hplaced.covers
    rw [hpage] at hr
    have hle : b.start t ≤ σ.world.current := by
      have hedge := hinv.stacked.below b hb hpage
      exact Nat.le_trans (Nat.le_of_lt hplaced.start_lt_edge) hedge
    have hcur := hinv.pages.current_lt
    rw [hlast] at hle hbase
    by_cases hdebug : t.debug = true
    · rw [if_pos hdebug, Target.sub_eq hle hcur]
      refine .rewound (hop.trans (by rw [his.2])) hlive hpage his.1 hlast hedge
        ((hinv.pages.touch _ _ _).setCursor (hinv.pages_ne_nil hb) hr hbase (by omega))
        ⟨rfl, rfl, rfl, rfl, fun a ha => blit_outside ?_, fun hfill ht => ⟨hfill hdebug, ht⟩⟩
      have := ha hdebug
      omega
    · rw [if_neg hdebug]
      exact .rewound (hop.trans (by rw [his.2])) hlive hpage his.1 hlast hedge
        (hinv.pages.setCursor (hinv.pages_ne_nil hb) hr hbase (by omega))
        ⟨rfl, rfl, rfl, rfl, fun _ _ => rfl, fun _ ht => ht⟩
  · -- any other: the arena does not move
    rw [freeV_other (hraw ▸ hlast)]
    refine .abandoned hop ?_
    intro b' hb' his'
    have hsame : b'.start t = b.start t := by
      unfold Block.start
      rw [his'.1, his'.2, his.1, his.2]
    exact hsame ▸ hlast

/-- The number of pages a percentage amounts to is immaterial: a reset keeps
some number of them. -/
theorem reset_effect (hinv : Inv t σ) (hop : c.op.IsReset) {r : Option Nat × World}
    (h : exec t c.sys c.op σ.world = some r) : Effect t c σ r.1 (σ.record t c.op r) := by
  cases hc : c.op with
  | reset =>
    rw [hc] at h
    cases h
    exact .reset hop (resetKeepPages_reset 0 hinv.pages)
  | resetKeepPages keepCount =>
    rw [hc] at h
    cases h
    exact .reset hop (resetKeepPages_reset keepCount hinv.pages)
  | resetKeepPercentage percent =>
    rw [hc] at h
    cases h
    exact .reset hop (resetKeepPages_reset _ hinv.pages)
  | _ =>
    rw [hc] at hop
    exact hop.elim

/-- **Inversion.** What a legal call can do to an arena in order. -/
theorem exec_effect (hinv : Inv t σ) (hlegal : Legal t σ c) {r : Option Nat × World}
    (h : exec t c.sys c.op σ.world = some r) : Effect t c σ r.1 (σ.record t c.op r) := by
  cases hop : c.op with
  | alloc size alignment =>
    rw [hop] at h
    obtain ⟨⟨p, s⟩, hr, rfl⟩ := Option.map_eq_some_iff.mp h
    exact hop ▸ alloc_effect hinv hop hlegal hr
  | calloc size alignment =>
    rw [hop] at h
    obtain ⟨⟨p, s⟩, hr, rfl⟩ := Option.map_eq_some_iff.mp h
    exact hop ▸ calloc_effect hinv hop hlegal hr
  | memdup src size =>
    rw [hop] at h
    obtain ⟨⟨p, s⟩, hr, rfl⟩ := Option.map_eq_some_iff.mp h
    exact hop ▸ memdup_effect hinv hop hlegal hr
  | strdup str =>
    rw [hop] at h
    obtain ⟨⟨p, s⟩, hr, rfl⟩ := Option.map_eq_some_iff.mp h
    exact hop ▸ strdup_effect hinv hop hlegal hr
  | realloc block oldSize newSize alignment =>
    rw [hop] at h
    obtain ⟨⟨p, s⟩, hr, rfl⟩ := Option.map_eq_some_iff.mp h
    exact hop ▸ realloc_effect hinv hop hlegal hr
  | callocV n size =>
    rw [hop] at h
    obtain ⟨⟨p, s⟩, hr, rfl⟩ := Option.map_eq_some_iff.mp h
    exact hop ▸ callocV_effect hinv hop hlegal hr
  | reallocarrayV block n size =>
    rw [hop] at h
    obtain ⟨⟨p, s⟩, hr, rfl⟩ := Option.map_eq_some_iff.mp h
    exact hop ▸ reallocarrayV_effect hinv hop hlegal hr
  | freeV block =>
    rw [hop] at h
    cases h
    exact hop ▸ freeV_effect hinv hop hlegal
  | reset => exact hop ▸ reset_effect hinv (by rw [hop]; trivial) h
  | resetKeepPages keepCount => exact hop ▸ reset_effect hinv (by rw [hop]; trivial) h
  | resetKeepPercentage percent => exact hop ▸ reset_effect hinv (by rw [hop]; trivial) h
  | write q bytes =>
    rw [hop] at h
    cases h
    exact .written hop

/-- The inversion for a step of the system. -/
theorem step_effect (hinv : Inv t σ) (hlegal : Legal t σ c) {σ' : Sys}
    (h : σ.step t c = some σ') : ∃ r, (exec t c.sys c.op σ.world).map Prod.fst = some r ∧
      Effect t c σ r σ' := by
  obtain ⟨r, hr, rfl⟩ := Option.map_eq_some_iff.mp h
  exact ⟨r.1, by rw [hr]; rfl, exec_effect hinv hlegal hr⟩

end

/-! ## The invariant -/

/-- A new block goes on top of the stack: without pages the cursor is at 0. -/
theorem Carved.on_top {sys : Nat → Option Nat} {api : Api} {size p dirty : Nat} {s s' : World}
    (h : Carved t sys api size p dirty s s') (hinv : PageInv t s) :
    s.pageIndex < s'.pageIndex ∨ s.pageIndex = s'.pageIndex ∧ s.current ≤ s'.last := by
  rcases h.place with hnil | hplace
  · obtain ⟨hcur, -, hindex, -⟩ := hinv.empty hnil
    omega
  · exact hplace

theorem Inv.carved {sys : Nat → Option Nat} {api : Api} {size p dirty : Nat} {σ : Sys} {s : World}
    (hinv : Inv t σ) (hsize : 0 < size) (h : Carved t sys api size p dirty σ.world s)
    (keep : Block → Bool) :
    Inv t { world := s
            live := ⟨api, p, size, s.pageIndex, σ.clock⟩ :: σ.live.filter keep
            clock := σ.clock + 1 } where
  pages := h.inv
  stacked := by
    have hstart := h.start_eq σ.clock
    have hplaced := h.placed hsize σ.clock
    have htop := h.on_top hinv.pages
    rw [← hstart] at htop ⊢
    exact (hinv.stacked.clear.filter keep (absurd rfl)).push
      (b := ⟨api, p, size, s.pageIndex, σ.clock⟩) htop hplaced.start_lt_edge h.edge.symm
  placed := List.forall_mem_cons.mpr ⟨h.placed hsize σ.clock,
    fun b hb => (hinv.placed b (List.mem_filter.mp hb).1).mono h.grows⟩

theorem Extended.start_eq {b : Block} {size : Nat} {s s' : World}
    (h : Extended t b.api size b.ptr s s') : b.start t = s.last := by
  have := h.start
  unfold Block.start
  omega

/-- A resized block starts where it did. -/
theorem Inv.extended {σ : Sys} {b : Block} {l : List Block} {size : Nat} {s : World}
    (hinv : Inv t σ) (hlive : σ.live = b :: l) (hpage : b.page = σ.world.pageIndex)
    (hsize : 0 < size) (h : Extended t b.api size b.ptr σ.world s) :
    Inv t { world := s, live := { b with size := size } :: l, clock := σ.clock } := by
  have hstart := h.start_eq
  have hstacked := hinv.stacked
  have hplaced := hinv.placed
  rw [hlive] at hstacked hplaced
  have hb := hplaced b List.mem_cons_self
  refine ⟨h.inv, ?_, List.forall_mem_cons.mpr ⟨⟨hsize, hb.start, ?_⟩, fun c hc =>
    (hplaced c (List.mem_cons_of_mem b hc)).mono (h.held ▸ List.prefix_refl _)⟩⟩
  · have hresize : Stacked (shape t) σ.world.pageIndex s.current (b.start t)
        ({ b with size := size } :: l) :=
      hstacked.resize hpage hpage rfl (lt_edgeOf hb.start hsize) h.edge.symm
    dsimp only
    rw [h.pageIndex, h.last, ← hstart]
    exact hresize
  · obtain ⟨r, hr, hbase, -⟩ := hb.covers
    obtain ⟨⟨q, hq, -, -, hend⟩, -⟩ := hinv.pages.inside h.pages
    rw [hpage] at hr
    cases hr.symm.trans hq
    have hroom := h.room
    refine ⟨r, ?_, hbase, Nat.le_trans hroom hend⟩
    show (held s.log)[b.page]? = some r
    rw [h.held, hpage]
    exact hr

/-- **Preservation.** No effect breaks the invariant. -/
theorem Effect.inv {c : Call} {σ σ' : Sys} {r : Option Nat} (h : Effect t c σ r σ')
    (hinv : Inv t σ) : Inv t σ' := by
  cases h with
  | carved hsize _ _ halloc =>
    have hinv' := hinv.carved hsize halloc.of_probe.fill fun b => ¬ b.Is c.op.api c.op.block
    rw [Op.fill_arena] at hinv'
    exact hinv'
  | extended hlive hpage _ _ hsize hext => exact hinv.extended hlive hpage hsize hext
  | @rewound b l s _ hlive hpage _ hlast _ hpages hfree =>
    have hstacked := hinv.stacked
    rw [hlive] at hstacked
    refine ⟨hpages, ?_, fun c hc => (hinv.placed c (hlive ▸ List.mem_cons_of_mem b hc)).mono
      (hfree.held ▸ List.prefix_refl _)⟩
    have hrewind := hstacked.rewind hpage
    dsimp only
    rw [hfree.pageIndex, hfree.current, hfree.last, ← hlast]
    exact hrewind
  | abandoned _ hother =>
    refine ⟨hinv.pages, hinv.stacked.filter _ ?_,
      fun b hb => hinv.placed b (List.mem_filter.mp hb).1⟩
    intro _ b hb _ hlast
    exact decide_eq_true fun his => hother b hb his hlast
  | @reset keepCount s hop hreset =>
    refine ⟨hreset.inv, ?_, fun b hb => absurd hb List.not_mem_nil⟩
    by_cases hnil : σ.world.pages = []
    · -- nothing to reset: no page, so no block
      have hlive : σ.live = [] :=
        List.eq_nil_iff_forall_not_mem.mpr fun b hb => hinv.pages_ne_nil hb hnil
      rw [hreset.empty hnil]
      exact hlive ▸ hinv.stacked
    · rw [hreset.last hnil]
      exact Stacked.nil _ _ _
  | written =>
    exact ⟨hinv.pages.setMem _, hinv.stacked, fun b hb =>
      (hinv.placed b hb).mono (List.prefix_refl _)⟩

/-- A block live after a call was live before it, or was carved by it. -/
theorem Effect.mem_live {c : Call} {σ σ' : Sys} {r : Option Nat} (h : Effect t c σ r σ')
    {b : Block} (hb : b ∈ σ'.live) :
    (∃ d ∈ σ.live, d.api = b.api ∧ d.ptr = b.ptr ∧ d.stamp = b.stamp) ∨
    (r = some b.ptr ∧ b.api = c.op.api ∧ b.stamp = σ.clock ∧ σ'.clock = σ.clock + 1) := by
  cases h with
  | carved =>
    rcases List.mem_cons.mp hb with rfl | hb'
    · exact Or.inr ⟨rfl, rfl, rfl, rfl⟩
    · exact Or.inl ⟨b, (List.mem_filter.mp hb').1, rfl, rfl, rfl⟩
  | @extended b' l s hlive =>
    rcases List.mem_cons.mp hb with rfl | hb'
    · exact Or.inl ⟨b', hlive ▸ List.mem_cons_self, rfl, rfl, rfl⟩
    · exact Or.inl ⟨b, hlive ▸ List.mem_cons_of_mem b' hb', rfl, rfl, rfl⟩
  | @rewound b' l s _ hlive => exact Or.inl ⟨b, hlive ▸ List.mem_cons_of_mem b' hb, rfl, rfl, rfl⟩
  | abandoned => exact Or.inl ⟨b, (List.mem_filter.mp hb).1, rfl, rfl, rfl⟩
  | reset => exact absurd hb List.not_mem_nil
  | written => exact Or.inl ⟨b, hb, rfl, rfl, rfl⟩

/-- A returned pointer is that of a live block of the requested size. -/
theorem Effect.returned {c : Call} {σ σ' : Sys} {p : Nat} (h : Effect t c σ (some p) σ') :
    ∃ b ∈ σ'.live, b.Is c.op.api p ∧ b.size = c.op.size t σ.world.mem := by
  cases h with
  | carved => exact ⟨_, List.mem_cons_self, ⟨rfl, rfl⟩, rfl⟩
  | extended _ _ his => exact ⟨_, List.mem_cons_self, ⟨his.1, rfl⟩, rfl⟩

/-- The other blocks of its API outlive a call that hands out a block. -/
theorem Effect.survives {c : Call} {σ σ' : Sys} {p : Nat} (h : Effect t c σ (some p) σ')
    (hinv : Inv t σ) {d : Block} (hd : d ∈ σ.live) (hapi : d.api = c.op.api)
    (hother : ¬ d.Is c.op.api c.op.block) : d ∈ σ'.live ∧ p ≠ d.ptr := by
  cases h with
  | carved hsize _ _ halloc =>
    exact ⟨List.mem_cons_of_mem _ (List.mem_filter.mpr ⟨hd, decide_eq_true hother⟩),
      halloc.of_probe.ptr_ne hinv hsize hd hapi⟩
  | @extended b l s hlive _ his =>
    refine ⟨List.mem_cons_of_mem _ ?_, fun heq => hother ⟨hapi, heq.symm.trans his.2⟩⟩
    rw [hlive] at hd
    exact (List.mem_cons.mp hd).resolve_left fun heq => hother (heq ▸ his)

/-- A store of a client, as an effect. -/
theorem Effect.of_write {c : Call} {σ σ' : Sys} {r : Option Nat} {p : Nat} {bytes : List UInt8}
    (heff : Effect t c σ r σ') (hop : c.op = .write p bytes) : σ'.live = σ.live ∧
      σ'.world.mem = blit σ.world.mem p bytes.length fun i => bytes.getD i 0 := by
  cases heff with
  | carved hsize | extended _ _ _ _ hsize =>
    rw [hop] at hsize
    exact absurd hsize (Nat.lt_irrefl 0)
  | rewound hfree | abandoned hfree => cases hop.symm.trans hfree
  | reset hreset =>
    rw [hop] at hreset
    exact hreset.elim
  | written hwrite =>
    cases hop.symm.trans hwrite
    exact ⟨rfl, rfl⟩

/-! ## Runs -/

variable {ok : Sys → Call → Prop} {pageSize : Nat} {mem : Mem} {l : List Call} {σ : Sys}

/-- **Run rule.** What every effect of an `ok` call keeps, given the invariant,
holds after every run of `ok` calls, next to the invariant. -/
theorem reach_inv_and {X : Sys → Prop} (hok : ∀ {σ c}, ok σ c → Legal t σ c)
    (hstart : X (Sys.start pageSize mem))
    (hstep : ∀ {σ c r σ'}, Inv t σ → ok σ c → Effect t c σ r σ' → X σ → X σ')
    (h : Reach (Sys.step t) ok (Sys.start pageSize mem) l σ) : Inv t σ ∧ X σ := by
  apply Reach.inv (P := fun σ => Inv t σ ∧ X σ) ⟨Inv.start t pageSize mem, hstart⟩ _ h
  intro σ c σ' ⟨hinv, hX⟩ hc hs
  obtain ⟨r, -, heff⟩ := step_effect hinv (hok hc) hs
  exact ⟨heff.inv hinv, hstep hinv hc heff hX⟩

/-- The invariant holds after every run of legal calls. -/
theorem reach_inv (hok : ∀ {σ c}, ok σ c → Legal t σ c)
    (h : Reach (Sys.step t) ok (Sys.start pageSize mem) l σ) : Inv t σ :=
  (reach_inv_and (X := fun _ => True) hok trivial (fun _ _ _ _ => trivial) h).1

end MulleStorage.Arena
