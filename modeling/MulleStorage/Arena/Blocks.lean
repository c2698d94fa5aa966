import MulleStorage.Arena.Carve
import MulleStorage.Lib.Bump

/-!
# Blocks on the cursor

`Inv` is the invariant of an arena and its clients, for any mix of the two APIs
and any resets: the page bookkeeping (`PageInv`), the blocks stacked on the
cursor (`Lib.Stacked`, with `Block.start` as key and the cursor's stand after
the block as edge), and every live block inside the page it was carved from.

The lemmas here read things off it: which block `_last` names, where a vtable
block keeps its header, and what blocks of different pages, or of one page, have
to do with each other.
-/

namespace MulleStorage.Arena

open MulleStorage.Lib

variable {t : Target}

/-- Where the cursor stood after the block was placed. -/
def Block.edge (t : Target) (b : Block) : Nat := edgeOf t b.api b.ptr b.size

/-- Blocks on the arena's cursor. -/
def shape (t : Target) : Shape Block where
  page := Block.page
  key := Block.start t
  edge := Block.edge t

/-- The block lies inside the page it was carved from. -/
structure Placed (t : Target) (s : World) (b : Block) : Prop where
  size_pos : 0 < b.size
  start : b.ptr = b.start t + b.api.header t
  covers : ∃ r, (held s.log)[b.page]? = some r ∧ r.base ≤ b.start t ∧ b.stop ≤ r.base + r.size

/-- The invariant of an arena and its clients. -/
structure Inv (t : Target) (σ : Sys) : Prop where
  pages : PageInv t σ.world
  stacked : Stacked (shape t) σ.world.pageIndex σ.world.current σ.world.last σ.live
  placed : ∀ b ∈ σ.live, Placed t σ.world b

namespace Placed

variable {s : World} {b c : Block}

theorem mono {s' : World} (h : Placed t s b) (hgrows : held s.log <+: held s'.log) :
    Placed t s' b :=
  ⟨h.size_pos, h.start, h.covers.imp fun _ hr => ⟨getElem?_mono hgrows hr.1, hr.2⟩⟩

/-- The region of a block's page has the block's first address. -/
theorem has (h : Placed t s b) : ∃ r, (held s.log)[b.page]? = some r ∧ r.Has (b.start t) := by
  obtain ⟨r, hr, hbase, hstop⟩ := h.covers
  have hsize := h.size_pos
  have hstart := h.start
  unfold Block.stop at hstop
  exact ⟨r, hr, hbase, by omega⟩

/-- No block starts at `NULL`, and none ends at the top of the address space. -/
theorem bounds (h : Placed t s b) (hinv : PageInv t s) : 0 < b.start t ∧ b.stop < t.modulus := by
  obtain ⟨r, hr, hbase, hstop⟩ := h.covers
  obtain ⟨hpos, -, hend⟩ := hinv.region r (List.mem_of_getElem? hr)
  omega

theorem start_lt_edge (h : Placed t s b) : b.start t < b.edge t := lt_edgeOf h.start h.size_pos

/-- A vtable block keeps a header in front of its payload. -/
theorem ptr_eq (h : Placed t s b) (hapi : b.api = .vtable) : b.ptr = b.start t + t.sizeofSizeT := by
  have hstart := h.start
  rw [hapi] at hstart
  exact hstart

/-- Blocks with the same start lie on the same page. -/
theorem page_eq (hb : Placed t s b) (hc : Placed t s c) (hinv : PageInv t s)
    (hstart : b.start t = c.start t) : b.page = c.page := by
  obtain ⟨r, hr, hhas⟩ := hb.has
  obtain ⟨q, hq, hhas'⟩ := hc.has
  exact index_eq_of_has hinv.apart hr hq hhas (hstart ▸ hhas')

/-- A block carved after another starts elsewhere. -/
theorem start_ne (hb : Placed t s b) (hc : Placed t s c) (hinv : PageInv t s)
    (hafter : (shape t).After b c) : b.start t ≠ c.start t := by
  intro heq
  have hpage := hb.page_eq hc hinv heq
  have hlt := hc.start_lt_edge
  unfold Shape.After shape at hafter
  dsimp only at hafter
  omega

/-- A block carved after another is no block of its API at its address. -/
theorem not_is (hb : Placed t s b) (hc : Placed t s c) (hinv : PageInv t s)
    (hafter : (shape t).After b c) : ¬ c.Is b.api b.ptr := by
  rintro ⟨hapi, hptr⟩
  refine hb.start_ne hc hinv hafter ?_
  unfold Block.start
  rw [hapi, hptr]

/-- Blocks of different pages are apart, headers and payloads. -/
theorem apart (hb : Placed t s b) (hc : Placed t s c) (hinv : PageInv t s)
    (hne : b.page ≠ c.page) : b.stop ≤ c.start t ∨ c.stop ≤ b.start t := by
  obtain ⟨r, hr, hbase, hend⟩ := hb.covers
  obtain ⟨q, hq, hbase', hend'⟩ := hc.covers
  have hdisj := disjoint_of_index_ne hinv.apart hr hq hne
  unfold Region.Disjoint at hdisj
  omega

end Placed

namespace Inv

variable {σ : Sys}

/-- A live block that starts at `_last` is the newest one, on the current page. -/
theorem top_of_start (h : Inv t σ) {b : Block} (hb : b ∈ σ.live)
    (hlast : b.start t = σ.world.last) :
    ∃ l, σ.live = b :: l ∧ b.page = σ.world.pageIndex ∧ b.edge t = σ.world.current := by
  have hplaced := h.placed b hb
  have hpos := (hplaced.bounds h.pages).1
  obtain ⟨c, l, hlive, hpage, hkey, hedge⟩ := h.stacked.top (by omega)
  have hc : c ∈ σ.live := hlive ▸ List.mem_cons_self
  have hkey' : c.start t = σ.world.last := hkey
  have hbc : b.page = c.page := hplaced.page_eq (h.placed c hc) h.pages (hlast.trans hkey'.symm)
  have hstacked := h.stacked
  rw [hlive] at hstacked
  have heq : b = c := hstacked.eq_top (hlive ▸ hb) hpage hkey (hbc.trans hpage) hlast
  exact ⟨l, heq ▸ hlive, hbc.trans hpage, heq ▸ hedge⟩

/-- An arena with a live block has pages. -/
theorem pages_ne_nil (h : Inv t σ) {b : Block} (hb : b ∈ σ.live) : σ.world.pages ≠ [] := by
  obtain ⟨r, hr, -⟩ := (h.placed b hb).covers
  have hlt := (List.getElem?_eq_some_iff.mp hr).1
  rw [h.pages.held_length] at hlt
  exact List.ne_nil_of_length_pos (by omega)

/-- The newest block was carved after the others, -/
theorem after_of_top (h : Inv t σ) {b : Block} {l : List Block} (hlive : σ.live = b :: l) :
    ∀ c ∈ l, (shape t).After b c := by
  have horder := h.stacked.order
  rw [hlive] at horder
  exact (List.pairwise_cons.mp horder).1

/-- and is the only one of its API and address. -/
theorem not_is_of_top (h : Inv t σ) {b : Block} {l : List Block} (hlive : σ.live = b :: l) :
    ∀ c ∈ l, ¬ c.Is b.api b.ptr := by
  intro c hc
  have hplaced := h.placed
  rw [hlive] at hplaced
  exact (hplaced b List.mem_cons_self).not_is (hplaced c (List.mem_cons_of_mem b hc)) h.pages
    (h.after_of_top hlive c hc)

/-- An API and an address name one live block at most. -/
theorem eq_of_is (h : Inv t σ) {b d : Block} (hb : b ∈ σ.live) (hd : d ∈ σ.live)
    (his : d.Is b.api b.ptr) : d = b := by
  have hpb := h.placed b hb
  have hpd := h.placed d hd
  rcases pairwise_trichotomy h.stacked.order hd hb with heq | hdb | hbd
  · exact heq
  · exact absurd ⟨his.1.symm, his.2.symm⟩ (hpd.not_is hpb h.pages hdb)
  · exact absurd his (hpb.not_is hpd h.pages hbd)

/-- Where the header of a live vtable block is. -/
theorem raw_eq (h : Inv t σ) {b : Block} (hb : b ∈ σ.live) {ptr : Nat} (his : b.Is .vtable ptr) :
    ptr = b.start t + t.sizeofSizeT ∧ t.sub ptr t.sizeofSizeT = b.start t := by
  have hplaced := h.placed b hb
  have hptr := hplaced.start
  have hlt := (hplaced.bounds h.pages).2
  rw [his.1, his.2] at hptr
  unfold Block.stop at hlt
  rw [his.2] at hlt
  refine ⟨hptr, ?_⟩
  rw [Target.sub_eq (by simp only [Api.header] at hptr; omega) (by omega)]
  simp only [Api.header] at hptr
  omega

/-- Every live block lies inside a region still held, header and payload. -/
theorem held_block (h : Inv t σ) {b : Block} (hb : b ∈ σ.live) :
    ∃ r ∈ held σ.world.log, r.base ≤ b.start t ∧ b.stop ≤ r.base + r.size := by
  obtain ⟨r, hr, hrest⟩ := (h.placed b hb).covers
  exact ⟨r, List.mem_of_getElem? hr, hrest⟩

/-- An address of a live block, its header included, is old. -/
theorem old (h : Inv t σ) {sys : Nat → Option Nat} (hsys : SysOk t σ.world sys) {b : Block}
    (hb : b ∈ σ.live) {a : Nat} (hstart : b.start t ≤ a) (hstop : a < b.stop) : Old sys a := by
  obtain ⟨r, hr, hbase, hend⟩ := h.held_block hb
  exact old_of_held hsys hr ⟨Nat.le_trans hbase hstart, Nat.lt_of_lt_of_le hstop hend⟩

/-- Blocks of different pages are apart, headers and payloads. -/
theorem apart_of_page_ne (h : Inv t σ) {b d : Block} (hb : b ∈ σ.live) (hd : d ∈ σ.live)
    (hne : b.page ≠ d.page) : b.stop ≤ d.start t ∨ d.stop ≤ b.start t :=
  (h.placed b hb).apart (h.placed d hd) h.pages hne

/-- When a block ends in front of one of another page, so does its page. -/
theorem page_before (h : Inv t σ) {b d : Block} (hb : b ∈ σ.live) (hd : d ∈ σ.live)
    (hne : d.page ≠ b.page) (hle : b.stop ≤ d.start t) :
    ∃ q r, (held σ.world.log)[b.page]? = some q ∧ (held σ.world.log)[d.page]? = some r ∧
      b.stop ≤ q.base + q.size ∧ q.base + q.size ≤ r.base ∧ r.base ≤ d.start t := by
  obtain ⟨q, hq, hqbase, hqend⟩ := (h.placed b hb).covers
  obtain ⟨r, hr, hrbase, hrend⟩ := (h.placed d hd).covers
  have hdisj := disjoint_of_index_ne h.pages.apart hq hr hne.symm
  have hbpos := (h.placed b hb).size_pos
  have hdpos := (h.placed d hd).size_pos
  have hbptr : b.start t ≤ b.ptr := Nat.sub_le _ _
  have hdptr : d.start t ≤ d.ptr := Nat.sub_le _ _
  refine ⟨q, r, hq, hr, hqend, ?_, hrbase⟩
  unfold Region.Disjoint at hdisj
  unfold Block.stop at *
  omega

theorem start (t : Target) (pageSize : Nat) (mem : Mem) : Inv t (Sys.start pageSize mem) where
  pages := PageInv.init t pageSize mem
  stacked := Stacked.nil _ _ _
  placed _ hb := absurd hb List.not_mem_nil

end Inv

end MulleStorage.Arena
