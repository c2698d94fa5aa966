import MulleStorage.Arena.Spacing

/-!
# Who owns which page

The event log of a run says which regions the arena obtained, which addresses it
returned, and what its code touched in between. `PageInv` already ties `_pages`
and the cursor to it; here it is read as ownership:

- `Owned`: `_pages` is what is held, the cursor's range lies in the current
  page, and no page is entered twice between two resets;
- a reset returns the pages behind the kept ones once, `_mulle_arena_done` the
  rest, so that every page obtained is returned exactly once;
- `TouchOk` is what keeps the code's own reads and writes inside held pages. Two
  places can leave them: `reallocarray` copies as many bytes as the header in
  front of its block says, and a debug `free` fills up to a cursor that may have
  been rounded up behind the end of the page. Where no block is put over a header
  (`PlaceOk`) and the rounded end is on its page (`FillOk`), neither does.

`reallocarray_touches_returned` is a run where the first one happens: a vtable
block's successor is placed over its header.
-/

namespace MulleStorage.Arena

open MulleStorage.Lib

variable {t : Target}

/-- The regions behind the addresses passed back to the default allocator. -/
def returnedRegions : List Event → List Region
  | [] => []
  | .returned p :: log =>
    ((held log).find? fun r => r.base == p).toList ++ returnedRegions log
  | _ :: log => returnedRegions log

/-- No byte of a page is touched once the page has been returned, unless the
default allocator has handed the byte out again. -/
def NoTouchAfterReturn : List Event → Prop
  | [] => True
  | .touched p n :: log =>
    (∀ r ∈ returnedRegions log, ∀ a, Region.Has ⟨p, n⟩ a → r.Has a → ∃ q ∈ held log, q.Has a) ∧
      NoTouchAfterReturn log
  | _ :: log => NoTouchAfterReturn log

/-- Touching held pages only is more than that. -/
theorem TouchesOk.noTouchAfterReturn {log : List Event} (h : TouchesOk log) :
    NoTouchAfterReturn log := by
  induction log with
  | nil => trivial
  | cons e log ih =>
    cases e with
    | touched p n =>
      obtain ⟨⟨q, hq, hbase, hend⟩, h⟩ := h
      exact ⟨fun _ _ a ha _ => ⟨q, hq, Nat.le_trans hbase ha.1, Nat.lt_of_lt_of_le ha.2 hend⟩, ih h⟩
    | _ => exact ih h

/-! ## What a call touches -/

/-- Bytes a moving call copies out of the block it was given. -/
def Op.copied (t : Target) (m : Mem) : Op → Nat
  | .realloc _ oldSize newSize _ => if oldSize < newSize then oldSize else newSize
  | .reallocarrayV block n size =>
    let oldSize := loadWord m (t.sub block t.sizeofSizeT) t.sizeofSizeT
    if oldSize < n * size then oldSize else n * size
  | _ => 0

/-- The call's own reads and writes stay inside held pages: the copy of a moving
`reallocarray`, and the fill of a debug `free`. -/
def TouchOk (t : Target) (s : World) : Op → Prop
  | .reallocarrayV block n size =>
    block ≠ 0 → ∃ r ∈ held s.log, r.Covers block ((Op.reallocarrayV block n size).copied t s.mem)
  | .freeV block =>
    t.debug = true → t.sub block t.sizeofSizeT = s.last →
      ∃ r ∈ held s.log, r.Covers s.last (s.current - s.last)
  | _ => True

/-- A header that can be believed keeps the copy on the page, and the fill ends
with it. -/
theorem Kempt.touchOk {σ : Sys} {c : Call} (h : Kempt t σ) (hinv : Inv t σ) (hlegal : Legal t σ c)
    (hfill : FillOk t σ c.op) : TouchOk t σ.world c.op := by
  obtain ⟨op, sys⟩ := c
  cases op with
  | reallocarrayV block n size =>
    intro hz
    obtain ⟨b, hb, his⟩ := hlegal.proper.1.resolve_left hz
    obtain ⟨r, hr, hbase, hend⟩ := hinv.held_block hb
    have hraw := (hinv.raw_eq hb his).2
    have hword := h.words b hb his.1
    have hstart : b.start t ≤ b.ptr := Nat.sub_le _ _
    have hptr : b.ptr = block := his.2
    unfold Block.stop at hend
    refine ⟨r, hr, by omega, ?_⟩
    simp only [Op.copied, hraw, hword]
    split <;> omega
  | freeV block =>
    intro hdebug hlast
    obtain ⟨b, hb, his⟩ := hlegal.proper
    have hstart : b.start t = σ.world.last := (hinv.raw_eq hb his).2.symm.trans hlast
    obtain ⟨-, -, -, hedge⟩ := hinv.top_of_start hb hstart
    obtain ⟨r, hr, hbase, -⟩ := (hinv.placed b hb).covers
    have hlt := (hinv.placed b hb).start_lt_edge
    have hle := hfill.edge_le hinv hdebug hb his hstart hr
    exact ⟨r, List.mem_of_getElem? hr, by omega, by omega⟩
  | _ => trivial

/-- Filling a block touches the block, and what is copied. -/
theorem Op.fill_touches {op : Op} {m : Mem} {p : Nat} {s : World}
    (hblock : ∃ r ∈ held s.log, r.Covers p (op.size t m))
    (hsrc : op.block ≠ 0 → ∃ r ∈ held s.log, r.Covers op.block (op.copied t m))
    (h : TouchesOk s.log) : TouchesOk (op.fill t m p s).log := by
  obtain ⟨r, hr, hbase, hend⟩ := hblock
  cases op with
  | calloc | memdup | strdup | callocV => exact ⟨⟨r, hr, hbase, hend⟩, h⟩
  | realloc block oldSize newSize alignment =>
    by_cases hz : block = 0
    · simpa only [Op.fill, if_pos hz] using h
    · simp only [Op.fill, if_neg hz]
      simp only [Op.size] at hend
      exact ⟨⟨r, hr, hbase, by split <;> omega⟩, hsrc hz, h⟩
  | reallocarrayV block n size =>
    by_cases hz : block = 0
    · simpa only [Op.fill, if_pos hz] using h
    · simp only [Op.fill, if_neg hz]
      simp only [Op.size] at hend
      exact ⟨⟨r, hr, hbase, by split <;> omega⟩, hsrc hz, h⟩
  | _ => exact h

/-- Reading a header touches the header of a live block. -/
theorem Op.probe_touches {σ : Sys} {op : Op} (hinv : Inv t σ)
    (hold : op.block = 0 ∨ ∃ b ∈ σ.live, b.Is op.api op.block) (h : TouchesOk σ.world.log) :
    TouchesOk (op.probe t σ.world).log := by
  cases op with
  | reallocarrayV block n size =>
    by_cases hz : block = 0
    · simpa only [Op.probe, if_pos hz] using h
    · obtain ⟨b, hb, his⟩ := hold.resolve_left hz
      have hptr : block = b.start t + t.sizeofSizeT := (hinv.raw_eq hb his).1
      have hraw : t.sub block t.sizeofSizeT = b.start t := (hinv.raw_eq hb his).2
      obtain ⟨r, hr, hbase, hend⟩ := hinv.held_block hb
      have hbptr : b.ptr = block := his.2
      simp only [Op.probe, if_neg hz, World.loadSize, hraw]
      unfold Block.stop at hend
      exact ⟨⟨r, hr, hbase, by omega⟩, h⟩
  | _ => exact h

/-- The copy of a moving `realloc` stays inside the block it was given. -/
theorem copied_covered {σ : Sys} {c : Call} (hinv : Inv t σ) (hlegal : Legal t σ c)
    (hok : TouchOk t σ.world c.op) (hz : c.op.block ≠ 0) (hsize : 0 < c.op.size t σ.world.mem) :
    ∃ r ∈ held σ.world.log, r.Covers c.op.block (c.op.copied t σ.world.mem) := by
  obtain ⟨op, sys⟩ := c
  cases op with
  | realloc block oldSize newSize alignment =>
    obtain ⟨b, hb, his, hold⟩ := hlegal.proper.1.resolve_left hz
    obtain ⟨r, hr, hbase, hend⟩ := hinv.held_block hb
    have hstart : b.start t ≤ b.ptr := Nat.sub_le _ _
    have hptr : b.ptr = block := his.2
    unfold Block.stop at hend
    refine ⟨r, hr, ?_, ?_⟩
    · show r.base ≤ block
      omega
    · simp only [Op.block, Op.copied]
      split <;> omega
  | reallocarrayV => exact hok hz
  | freeV => exact absurd hsize (Nat.lt_irrefl 0)
  | _ => exact absurd rfl hz

/-- **Step.** A call that keeps its reads and writes inside held pages. -/
theorem Effect.touches {c : Call} {σ σ' : Sys} {r : Option Nat} (heff : Effect t c σ r σ')
    (hinv : Inv t σ) (hlegal : Legal t σ c) (hok : TouchOk t σ.world c.op)
    (h : TouchesOk σ.world.log) : TouchesOk σ'.world.log := by
  cases heff with
  | @carved p s₁ hsize hold hmoved halloc =>
    obtain ⟨q, hq, hbase, hend⟩ := halloc.covers
    have hstart := halloc.start
    refine Op.fill_touches ⟨q, List.mem_of_getElem? hq, by omega, hend⟩ ?_
      (halloc.touches (Op.probe_touches hinv hold h))
    intro hz
    obtain ⟨r, hr, hcovers⟩ := copied_covered hinv hlegal hok hz hsize
    exact ⟨r, halloc.of_probe.grows.subset hr, hcovers⟩
  | extended _ _ _ _ _ hext => exact hext.touches h
  | @rewound b l s hop hlive hpage hapi hlast hedge hpages hfree =>
    -- the fill of a debug build, up to the cursor
    refine hfree.touches ?_ h
    intro hdebug
    have hraw := (hinv.raw_eq (hlive ▸ List.mem_cons_self) ⟨hapi, rfl⟩).2
    rw [hop] at hok
    exact hok hdebug (hraw.trans hlast)
  | abandoned => exact h
  | reset _ hreset => exact hreset.touches h
  | written => exact h

/-! ## Ownership -/

/-- `_pages` is what the arena holds, and its cursor is inside the current page. -/
structure Owned (s : World) : Prop where
  /-- `_pages` are the pages obtained and not yet returned, -/
  pages : s.pages = (held s.log).map Region.base
  /-- without duplicates. -/
  nodup : s.pages.Nodup
  /-- `[page, _sentinel)` lies inside the bytes obtained for the current page. -/
  page : s.pages ≠ [] → ∃ r ∈ held s.log, s.pages[s.pageIndex]? = some r.base ∧
    r.base ≤ s.current ∧ r.base ≤ s.sentinel ∧ r.Covers r.base (s.sentinel - r.base)
  /-- Without pages there is no cursor. -/
  empty : s.pages = [] → s.current = 0 ∧ s.sentinel = 0
  /-- `_page_index` is the last index entered, -/
  index : s.pages ≠ [] → (entries s.log).head? = some s.pageIndex
  /-- and since the last reset the indices entered only went up. -/
  increasing : (entries s.log).Pairwise (· > ·)

theorem PageInv.owned {s : World} (h : PageInv t s) : Owned s where
  pages := h.pages
  nodup := h.nodup
  page hne := by
    obtain ⟨⟨r, hr, hcur, hbs, hend⟩, -⟩ := h.inside hne
    refine ⟨r, List.mem_of_getElem? hr, ?_, hcur, Nat.le_of_lt hbs, Nat.le_refl _, by omega⟩
    rw [h.pages, List.getElem?_map, hr]
    rfl
  empty hnil := ⟨(h.empty hnil).1, (h.empty hnil).2.1⟩
  index hne := (h.inside hne).2
  increasing := h.increasing

variable {pageSize : Nat} {mem : Mem} {l : List Call} {σ : Sys}

theorem done_touches (s : World) (h : TouchesOk s.log) : TouchesOk (done s).log := by
  unfold done
  rw [foldl_freePage]
  exact returnAll_touches _ h

/-- In a run of calls that put their blocks and end their fills where they should,
only pages held are touched. -/
theorem reach_touches
    (h : Reach (Sys.step t) (fun σ c => Legal t σ c ∧ PlaceOk t σ c.op ∧ FillOk t σ c.op)
      (Sys.start pageSize mem) l σ) : TouchesOk σ.world.log := by
  induction h with
  | nil => trivial
  | snoc hrun hok hs ih =>
    obtain ⟨hinv, hkempt⟩ := reach_kempt hrun
    obtain ⟨hlegal, -, hfill⟩ := hok
    obtain ⟨_, -, heff⟩ := step_effect hinv hlegal hs
    exact heff.touches hinv hlegal (hkempt.touchOk hinv hlegal hfill) ih

/-- **Page ownership.** After every run the arena holds `_pages` and nothing
else; a reset returns what it does not keep, once; giving up the arena leaves
every page obtained returned exactly once; and if no call of the run put a block
over a live header, or a header over a live tail, and no debug `free` had a block
whose rounded end is behind its page, no page was touched after it was returned. -/
theorem pages_owned (h : Reach (Sys.step t) (Legal t) (Sys.start pageSize mem) l σ) :
    Owned σ.world ∧
    (∀ keepCount, (resetKeepPages t keepCount σ.world).pages = σ.world.pages.take keepCount ∧
      returnedPages (resetKeepPages t keepCount σ.world).log =
        (σ.world.pages.drop keepCount).reverse ++ returnedPages σ.world.log) ∧
    ReturnsOk (done σ.world).log ∧
    (obtainedPages (done σ.world).log).Perm (returnedPages (done σ.world).log) ∧
    (Reach (Sys.step t) (fun σ c => Legal t σ c ∧ PlaceOk t σ c.op ∧ FillOk t σ c.op)
      (Sys.start pageSize mem) l σ → NoTouchAfterReturn (done σ.world).log) := by
  have hinv := (reach_inv id h).pages
  obtain ⟨hheld, hreturns, -, -⟩ := done_spec hinv
  refine ⟨hinv.owned, ?_, hreturns, ?_, ?_⟩
  · intro keepCount
    have hreset := resetKeepPages_reset keepCount hinv
    refine ⟨?_, hreset.returned⟩
    rw [hreset.inv.pages, hreset.kept, hinv.pages, List.map_take]
  · have hperm := obtained_perm hreturns
    rwa [hheld, List.map_nil, List.append_nil] at hperm
  · intro hkempt
    exact (done_touches _ (reach_touches hkempt)).noTouchAfterReturn

/-- A reset that returns one of two pages; a block moved afterwards, and freed. -/
def movedScript : List Line :=
  [⟨.alloc 64 1, [(64, 0x1000)]⟩, ⟨.callocV 1 40, [(64, 0x2000)]⟩, ⟨.resetKeepPages 1, []⟩,
    ⟨.alloc 8 8, []⟩, ⟨.callocV 1 8, []⟩, ⟨.alloc 1 1, []⟩, ⟨.reallocarrayV 0x1010 3 8, []⟩,
    ⟨.freeV 0x1021, []⟩]

theorem pages_owned_moved :
    let σ := scriptEnd (x64 true) 64 (fun _ => 0) movedScript
    Owned σ.world ∧
    (∀ keepCount, (resetKeepPages (x64 true) keepCount σ.world).pages
        = σ.world.pages.take keepCount ∧
      returnedPages (resetKeepPages (x64 true) keepCount σ.world).log =
        (σ.world.pages.drop keepCount).reverse ++ returnedPages σ.world.log) ∧
    ReturnsOk (done σ.world).log ∧
    (obtainedPages (done σ.world).log).Perm (returnedPages (done σ.world).log) ∧
    NoTouchAfterReturn (done σ.world).log :=
  let ⟨howned, hreset, hreturns, hperm, htouch⟩ :=
    pages_owned (reach_of_script Line.legal (l := movedScript) (by decide +kernel))
  ⟨howned, hreset, hreturns, hperm, htouch (reach_of_legal (by decide +kernel))⟩

/-- Two pages side by side, the second returned by a reset; on the first, a
vtable block behind 7 bytes, and a copy of 8 bytes behind that. -/
def overlaidScript : List Line :=
  [⟨.alloc 64 1, [(64, 0x1000)]⟩, ⟨.alloc 64 1, [(64, 0x1040)]⟩, ⟨.resetKeepPages 1, []⟩,
    ⟨.alloc 7 1, []⟩, ⟨.callocV 1 1, []⟩, ⟨.memdup 0x10 8, []⟩,
    ⟨.reallocarrayV 0x100F 1 200, [(216, 0x2000)]⟩]

/-- The copy lies over the header of the vtable block, whose size now reads as
all ones but for one byte: moving the block reads 200 bytes, through the page
that was returned. -/
theorem reallocarray_touches_returned :
    let σ := scriptEnd (x64 false) 64 (fun _ => 0xFF) overlaidScript
    Reach (Sys.step (x64 false)) (Legal (x64 false)) (Sys.start 64 fun _ => 0xFF)
        (overlaidScript.map Line.call) σ ∧
      ¬ NoTouchAfterReturn (done σ.world).log := by
  refine ⟨reach_of_script Line.legal (by decide +kernel), ?_⟩
  have hlog : (done (scriptEnd (x64 false) 64 (fun _ => 0xFF) overlaidScript).world).log =
      [.returned 0x2000, .returned 0x1000, .touched 0x2010 200, .touched 0x100F 200,
        .touched 0x2008 8, .entered 1, .obtained ⟨0x2000, 216⟩, .touched 0x1007 8,
        .touched 0x1008 8, .touched 0x100F 1, .touched 0x1007 8, .entered 0, .rewound,
        .touched 0x1000 64, .returned 0x1040, .entered 1, .obtained ⟨0x1040, 64⟩, .entered 0,
        .obtained ⟨0x1000, 64⟩] := by decide +kernel
  rw [hlog]
  rintro ⟨-, hread, -⟩
  have hheld := hread ⟨0x1040, 64⟩ (by decide) 0x1040 (by decide) (by decide)
  revert hheld
  decide

end MulleStorage.Arena
