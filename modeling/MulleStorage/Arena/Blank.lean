import MulleStorage.Arena.Direct
import MulleStorage.Arena.OnTape

/-!
# What an allocation finds

Pages are zero when they are obtained, and a reset clears those it keeps, with
zeroes or, in a debug build, with a filler (`Blank`). Clients of the direct calls
store into their blocks, which end in front of the cursor. So what is behind it
is blank, as long as no block is shrunk where it is, which leaves its old tail
there (`NoShrink`):

> `fresh_blank`: no allocation ever hands out a byte that somebody stored, nor
> does a `realloc` behind what the block held. In a release build these bytes are
> zero, and `_mulle_arena_calloc` is `_mulle_arena_alloc`.
-/

namespace MulleStorage.Arena

open MulleStorage.Lib

variable {t : Target} {sys : Nat → Option Nat}

/-- What pages are cleared with. -/
def Blank (t : Target) (v : UInt8) : Prop := v = 0 ∨ t.debug = true ∧ ∃ i, v = t.poison i

theorem Blank.eq_zero {v : UInt8} (h : Blank t v) (hrelease : t.debug = false) : v = 0 := by
  rcases h with hz | ⟨hdebug, -⟩
  · exact hz
  · rw [hrelease] at hdebug
    exact absurd hdebug Bool.false_ne_true

theorem blank_clearFill (t : Target) (i : Nat) : Blank t (clearFill t i) := by
  unfold clearFill
  by_cases hdebug : t.debug = true
  · rw [if_pos hdebug]
    exact Or.inr ⟨hdebug, i, rfl⟩
  · rw [if_neg hdebug]
    exact Or.inl rfl

/-- No block gets shorter where it is. -/
def NoShrink (t : Target) (s : World) : Op → Prop
  | .realloc block oldSize newSize alignment =>
    InPlace t s (.realloc block oldSize newSize alignment) → oldSize ≤ newSize
  | _ => True

instance (s : World) : DecidablePred (NoShrink t s)
  | .realloc .. => inferInstanceAs (Decidable (_ → _))
  | .alloc .. | .calloc .. | .memdup .. | .strdup .. | .callocV .. | .reallocarrayV .. | .freeV ..
  | .reset | .resetKeepPages .. | .resetKeepPercentage .. | .write .. => isTrue trivial

/-- What of the block `p` no client has stored yet is blank; `m` is memory after
the call. -/
def Fresh (t : Target) (p : Nat) (m : Mem) : Op → Prop
  | .alloc size _ => ∀ i, i < size → Blank t (m (p + i))
  | .realloc block oldSize newSize _ =>
    ∀ i, block = 0 ∨ oldSize ≤ i → i < newSize → Blank t (m (p + i))
  | _ => True

/-- What the arena has still to hand out is blank: the rest of the current page,
and the pages behind it, as far as they are used. -/
structure Clean (t : Target) (s : World) : Prop where
  rest : ∀ a, s.current ≤ a → a < s.sentinel → Blank t (s.mem a)
  ahead : ∀ i p, s.pageIndex < i → s.pages[i]? = some p →
    ∀ a, p ≤ a → a < p + s.pageSize → Blank t (s.mem a)

namespace Clean

variable {s s' : World}

theorem init (t : Target) (pageSize : Nat) (mem : Mem) : Clean t (Arena.init pageSize mem) where
  rest a _ hlt := absurd hlt (Nat.not_lt_zero a)
  ahead _ _ _ hp := absurd (List.mem_of_getElem? hp) List.not_mem_nil

/-- Moving the cursor on. -/
theorem advance (h : Clean t s) {c : Nat} (hc : s.current ≤ c) (last : Nat) :
    Clean t { s with current := c, last := last } where
  rest a hle := h.rest a (Nat.le_trans hc hle)
  ahead := h.ahead

/-- A store into a page that is in use, in front of the cursor. -/
theorem store (h : Clean t s) (hinv : PageInv t s) {q n j : Nat} {r : Region}
    (hr : (held s.log)[j]? = some r) (hj : j ≤ s.pageIndex) (hcovers : r.Covers q n)
    (hcur : j = s.pageIndex → q + n ≤ s.current) (f : Nat → UInt8) (log : List Event) :
    Clean t { s with mem := blit s.mem q n f, log := log } := by
  have hother : ∀ {i : Nat} {r' : Region}, (held s.log)[i]? = some r' → j ≠ i → ∀ {a}, r'.Has a →
      blit s.mem q n f a = s.mem a := by
    intro i r' hr' hne a ha
    have hnot := (disjoint_of_index_ne hinv.apart hr hr' hne).symm.not_has ha
    refine blit_outside ?_
    unfold Region.Has at hnot
    unfold Region.Covers at hcovers
    omega
  refine ⟨?_, ?_⟩
  · intro a hle hlt
    dsimp only at hle hlt ⊢
    have hblank := h.rest a hle hlt
    by_cases hpage : j = s.pageIndex
    · have hstop := hcur hpage
      rwa [blit_outside (Or.inr (by omega))]
    · obtain ⟨⟨r', hr', hbase, -, hend⟩, -⟩ := hinv.inside (hinv.pages_ne_nil (by omega))
      rwa [hother hr' hpage ⟨by omega, by omega⟩]
  · intro i p hi hp a hle hlt
    dsimp only at hi hp hlt ⊢
    have hblank := h.ahead i p hi hp a hle hlt
    rw [hinv.pages, List.getElem?_map] at hp
    obtain ⟨r', hr', rfl⟩ := Option.map_eq_some_iff.mp hp
    have hsize := (hinv.region r' (List.mem_of_getElem? hr')).2.1
    rwa [hother hr' (by omega) ⟨hle, by omega⟩]

/-- `_mulle_arena_new_page`. -/
theorem newPage {need page : Nat} (h : Clean t s) (hinv : PageInv t s) (hsys : SysOk t s sys)
    (hs : newPage t sys need s = some (page, s')) : Clean t s' := by
  rcases newPage_cases hinv hsys hs with ⟨-, hget, rfl⟩ | ⟨n, -, -, -, rfl⟩
  · exact ⟨h.ahead _ _ (Nat.lt_succ_self _) hget, fun i p hi => h.ahead i p (Nat.lt_of_succ_lt hi)⟩
  · refine ⟨?_, ?_⟩
    · intro a hle hlt
      dsimp only at hle hlt ⊢
      obtain ⟨i, rfl⟩ := Nat.le.dest hle
      rw [blit_at (by omega)]
      exact Or.inl rfl
    · -- no page is behind a fresh one
      intro i p hi hget
      dsimp only at hi hget
      obtain ⟨hlt, -⟩ := List.getElem?_eq_some_iff.mp hget
      rw [List.length_append, List.length_singleton] at hlt
      omega

/-- A block that is placed behind the cursor. -/
theorem placeAligned {size alignment : Nat} (h : Clean t s) (hal : t.IsAlignment alignment)
    (hcur : s.current + (alignment - 1) < t.modulus) (hlt : s.sentinel < t.modulus)
    (hroom : alignUp alignment s.current + size ≤ s.sentinel) :
    Clean t (placeAligned t size alignment s).2 ∧
    ∀ i, i < size →
      Blank t ((Arena.placeAligned t size alignment s).2.mem
        ((Arena.placeAligned t size alignment s).1 + i)) := by
  have hle := le_alignUp hal.pos s.current
  rw [placeAligned_eq hal hcur (by omega)]
  refine ⟨h.advance (by omega) _, ?_⟩
  intro i hi
  exact h.rest _ (by dsimp only; omega) (by dsimp only; omega)

/-- `_mulle_arena_alloc`. -/
theorem alloc {size alignment p : Nat} (h : Clean t s) (hinv : PageInv t s) (hsys : SysOk t s sys)
    (hal : t.IsAlignment alignment) (hnw : AllocNoWrap t s size alignment)
    (hs : alloc t sys size alignment s = some (p, s')) :
    Clean t s' ∧ ∀ i, i < size → Blank t (s'.mem (p + i)) := by
  unfold AllocNoWrap at hnw
  by_cases hfit : FitsPage t s size alignment
  · rw [if_pos hfit] at hnw
    rw [alloc_here sys hfit] at hs
    cases hs
    unfold FitsPage at hfit
    rw [alignPointer_eq hal hnw.1] at hnw hfit
    rw [Target.add_eq hnw.2] at hfit
    exact h.placeAligned hal hnw.1 hinv.sentinel_lt hfit
  · rw [if_neg hfit] at hnw
    rw [alloc_elsewhere sys hfit, sub_add_one hal.pos hnw] at hs
    obtain ⟨⟨page, s₁⟩, hpage, hplaced⟩ := Option.map_eq_some_iff.mp hs
    cases hplaced
    have hopen := newPage_opened hinv hsys hpage
    have hlt := hopen.inv.sentinel_lt
    have hroom := hopen.room
    have hpad := alignUp_lt hal.pos s₁.current
    exact (h.newPage hinv hsys hpage).placeAligned hal (by omega) hlt (by omega)

/-- An allocation, and a store into its block. -/
theorem alloc_store {size alignment p n : Nat} (h : Clean t s) (hinv : PageInv t s)
    (hsys : SysOk t s sys) (hsize : 0 < size) (hal : t.IsAlignment alignment)
    (hnw : AllocNoWrap t s size alignment) (hs : Arena.alloc t sys size alignment s = some (p, s'))
    (hn : n ≤ size) (f : Nat → UInt8) (log : List Event) :
    Clean t { s' with mem := blit s'.mem p n f, log := log } ∧
    ∀ i, n ≤ i → i < size → Blank t (blit s'.mem p n f (p + i)) := by
  obtain ⟨hclean, hblank⟩ := h.alloc hinv hsys hal hnw hs
  have hcarved := alloc_carved hinv hsys hsize hal hnw hs
  obtain ⟨r, hr, hbase, hend⟩ := hcarved.covers
  have hstart := hcarved.start
  have hedge := hcarved.edge
  simp only [Api.header, edgeOf] at hstart hedge
  refine ⟨hclean.store hcarved.inv hr (Nat.le_refl _) ⟨by omega, by omega⟩ (fun _ => by omega) f log,
    ?_⟩
  intro i hle hlt
  rw [blit_outside (Or.inr (by omega))]
  exact hblank i hlt

/-- A reset, whatever was in the pages. -/
theorem resetKeepPages (hinv : PageInv t s) (keepCount : Nat) :
    Clean t (resetKeepPages t keepCount s) := by
  have hfill : ∀ {l : List Nat} {p a : Nat}, p ∈ l → p ≤ a → a < p + s.pageSize →
      Blank t (l.foldl (fun m p => blit m p s.pageSize (clearFill t)) s.mem a) := by
    intro l p a hp hle hlt
    exact foldl_blit_of (blank_clearFill t) (Or.inl ⟨p, hp, hle, hlt⟩)
  rw [resetKeepPages_eq]
  by_cases hnil : s.pages = []
  · rw [if_pos hnil]
    obtain ⟨-, hsentinel, -⟩ := hinv.empty hnil
    refine ⟨fun a _ hlt => ?_, fun i p _ hp => ?_⟩
    · rw [hsentinel] at hlt
      exact absurd hlt (Nat.not_lt_zero a)
    · rw [hnil] at hp
      exact absurd (List.mem_of_getElem? hp) List.not_mem_nil
  · rw [if_neg hnil]
    dsimp only
    refine ⟨fun a hle hlt => ?_, fun i p _ hp a hle hlt => hfill (List.mem_of_getElem? hp) hle hlt⟩
    dsimp only at hle hlt
    by_cases hk : keepCount = 0
    · rw [if_pos hk] at hlt
      exact absurd hlt (Nat.not_lt_zero a)
    · rw [if_neg hk] at hlt
      obtain ⟨p, hp, hget, hend⟩ := first_kept hinv hnil hk
      rw [hget] at hle hlt
      rw [hend] at hlt
      exact hfill (List.mem_of_getElem? hp) hle hlt

end Clean

/-! ## Calls -/

section

variable {c : Call} {σ : Sys} {s : World} {r : Option Nat}

/-- The end of a direct block is its edge. -/
theorem Inv.direct_stop_le (h : Inv t σ) {b : Block} (hb : b ∈ σ.live) (hapi : b.api = .direct)
    (hpage : b.page = σ.world.pageIndex) : b.stop ≤ σ.world.current := by
  have hbelow := h.stacked.below b hb hpage
  have hedge : b.edge t = b.stop := by
    unfold Block.edge
    rw [hapi]
    rfl
  exact hedge ▸ hbelow

/-- `_mulle_arena_realloc`. -/
theorem realloc_clean {block oldSize newSize alignment p : Nat} (hinv : Inv t σ)
    (hsys : SysOk t σ.world sys)
    (hold : block = 0 ∨ ∃ b ∈ σ.live, b.Is .direct block ∧ b.size = oldSize) (hsize : 0 < newSize)
    (hal : t.IsAlignment alignment)
    (hnw : NoWrap t σ.world (.realloc block oldSize newSize alignment))
    (hclean : Clean t σ.world)
    (h : realloc t sys block oldSize newSize alignment σ.world = some (p, s)) :
    (NoShrink t σ.world (.realloc block oldSize newSize alignment) → Clean t s) ∧
    Fresh t p s.mem (.realloc block oldSize newSize alignment) := by
  dsimp only [NoWrap] at hnw
  by_cases hplace : InPlace t σ.world (.realloc block oldSize newSize alignment)
  · -- the newest block, which ends at the cursor
    rw [if_pos hplace] at hnw
    rw [realloc_inPlace hplace] at h
    obtain ⟨b, hb, his, hbsize⟩ := hold.resolve_left hplace.1
    obtain ⟨hlast, hroom⟩ := hplace.2
    have hstart : b.start t = σ.world.last := by
      unfold Block.start
      rw [his.1, his.2]
      exact hlast
    obtain ⟨-, -, -, hedge⟩ := hinv.top_of_start hb hstart
    have hcur : σ.world.current = block + oldSize := by
      rw [← hedge, Block.edge, his.1, his.2, hbsize]
      rfl
    rw [Target.add_eq hnw] at h hroom
    cases h
    refine ⟨fun hgrow => ?_, ?_⟩
    · have hle := hgrow hplace
      exact hclean.advance (by omega) _
    · intro i hi hlt
      have hge := hi.resolve_left hplace.1
      exact hclean.rest _ (by omega) (by omega)
  · rw [if_neg hplace] at hnw
    rw [realloc_moved hplace] at h
    obtain ⟨⟨q, s₁⟩, halloc, heq⟩ := Option.map_eq_some_iff.mp h
    cases heq
    unfold Op.fill
    by_cases hz : block = 0
    · simp only [if_pos hz]
      obtain ⟨hclean', hblank⟩ := hclean.alloc hinv.pages hsys hal hnw halloc
      exact ⟨fun _ => hclean', fun i _ hlt => hblank i hlt⟩
    · simp only [if_neg hz]
      have hn : (if oldSize < newSize then oldSize else newSize) ≤ newSize := by
        split <;> omega
      obtain ⟨hclean', hblank⟩ := hclean.alloc_store hinv.pages hsys hsize hal hnw halloc hn
        (fun i => s₁.mem (block + i)) (.touched q _ :: .touched block _ :: s₁.log)
      refine ⟨fun _ => hclean', fun i hi hlt => ?_⟩
      have hge := hi.resolve_left hz
      exact hblank i (by split <;> omega) hlt

/-- A store of a client. -/
theorem write_clean {p : Nat} {bytes : List UInt8} (hinv : Inv t σ)
    (hdirect : ∀ b ∈ σ.live, b.api = .direct)
    (hcovers : ∃ b ∈ σ.live, b.payload.Covers p bytes.length) (hclean : Clean t σ.world) :
    Clean t { σ.world with mem := blit σ.world.mem p bytes.length fun i => bytes.getD i 0 } := by
  obtain ⟨b, hb, hbase, hend⟩ := hcovers
  obtain ⟨q, hq, hqbase, hqend⟩ := (hinv.placed b hb).covers
  have hstart : b.start t ≤ b.ptr := Nat.sub_le _ _
  simp only [Block.payload] at hbase hend
  unfold Block.stop at hqend
  refine hclean.store hinv.pages hq (hinv.stacked.page_le b hb) ⟨by omega, by omega⟩ ?_ _ _
  intro hpage
  have hstop := hinv.direct_stop_le hb (hdirect b hb) hpage
  unfold Block.stop at hstop
  omega

/-- **Step.** A call other than a vtable call hands out what nobody has stored,
and keeps that in store, unless it shrinks a block where it is. -/
theorem exec_clean (hinv : Inv t σ) (hdirect : ∀ b ∈ σ.live, b.api = .direct)
    (hlegal : Legal t σ c) (hop : ¬ c.op.IsVtable) (hclean : Clean t σ.world)
    (h : exec t c.sys c.op σ.world = some (r, s)) :
    (NoShrink t σ.world c.op → Clean t s) ∧ ∀ p ∈ r, Fresh t p s.mem c.op := by
  obtain ⟨op, sys⟩ := c
  obtain ⟨hsys, hproper, hnw⟩ := hlegal
  have hpages := hinv.pages
  dsimp only at *
  cases op with
  | alloc size alignment =>
    obtain ⟨⟨p, s₁⟩, halloc, heq⟩ := Option.map_eq_some_iff.mp h
    cases heq
    obtain ⟨hclean', hblank⟩ := hclean.alloc hpages hsys hproper.2.2 hnw halloc
    refine ⟨fun _ => hclean', fun q hq => ?_⟩
    cases hq
    exact hblank
  | calloc size alignment =>
    obtain ⟨⟨p, s'⟩, hr, heq⟩ := Option.map_eq_some_iff.mp h
    cases heq
    rw [calloc_eq] at hr
    obtain ⟨⟨q, s₁⟩, halloc, heq⟩ := Option.map_eq_some_iff.mp hr
    cases heq
    exact ⟨fun _ => (hclean.alloc_store hpages hsys hproper.1 hproper.2.2 hnw halloc
      (Nat.le_refl _) _ _).1, fun _ _ => trivial⟩
  | memdup src size =>
    obtain ⟨⟨p, s'⟩, hr, heq⟩ := Option.map_eq_some_iff.mp h
    cases heq
    rw [memdup_eq] at hr
    obtain ⟨⟨q, s₁⟩, halloc, heq⟩ := Option.map_eq_some_iff.mp hr
    cases heq
    exact ⟨fun _ => (hclean.alloc_store hpages hsys hproper.1 t.isAlignment_one hnw halloc
      (Nat.le_refl _) _ _).1, fun _ _ => trivial⟩
  | strdup str =>
    obtain ⟨⟨p, s'⟩, hr, heq⟩ := Option.map_eq_some_iff.mp h
    cases heq
    obtain ⟨len, hlen, hdup⟩ := strdup_eq hr
    obtain ⟨hlt, hnw'⟩ := hnw len hlen
    rw [Target.add_eq hlt, memdup_eq] at hdup
    obtain ⟨⟨q, s₁⟩, halloc, heq⟩ := Option.map_eq_some_iff.mp hdup
    cases heq
    exact ⟨fun _ => (hclean.alloc_store hpages hsys (Nat.succ_pos len) t.isAlignment_one hnw' halloc
      (Nat.le_refl _) _ _).1, fun _ _ => trivial⟩
  | realloc block oldSize newSize alignment =>
    obtain ⟨hold, hsize, -, hal⟩ := hproper
    obtain ⟨⟨p, s'⟩, hr, heq⟩ := Option.map_eq_some_iff.mp h
    cases heq
    obtain ⟨hclean', hfresh⟩ := realloc_clean hinv hsys hold hsize hal hnw hclean hr
    refine ⟨hclean', fun q hq => ?_⟩
    cases hq
    exact hfresh
  | callocV | reallocarrayV | freeV => exact absurd trivial hop
  | reset | resetKeepPages | resetKeepPercentage =>
    cases h
    exact ⟨fun _ => Clean.resetKeepPages hpages _, fun p hp => absurd hp (Option.not_mem_none p)⟩
  | write p bytes =>
    cases h
    exact ⟨fun _ => write_clean hinv hdirect hproper hclean,
      fun p hp => absurd hp (Option.not_mem_none p)⟩

/-- Clearing what is zero. -/
theorem Clean.calloc_eq_alloc {s : World} (hclean : Clean t s) (hrelease : t.debug = false)
    (hinv : PageInv t s) {size alignment : Nat} (hsys : SysOk t s sys)
    (hal : t.IsAlignment alignment) (hnw : AllocNoWrap t s size alignment) :
    calloc t sys size alignment s = (Arena.alloc t sys size alignment s).map
      fun r => (r.1, { r.2 with log := .touched r.1 size :: r.2.log }) := by
  rw [calloc_eq]
  refine Option.map_congr ?_
  intro r halloc
  obtain ⟨p, s'⟩ := r
  have hblank := (hclean.alloc hinv hsys hal hnw halloc).2
  have hmem : blit s'.mem p size (fun _ => 0) = s'.mem := by
    funext a
    by_cases ha : p ≤ a ∧ a < p + size
    · obtain ⟨i, rfl⟩ := Nat.le.dest ha.1
      rw [blit_at (by omega)]
      exact ((hblank i (by omega)).eq_zero hrelease).symm
    · exact blit_outside (by omega)
  simp only [Op.fill, World.memset, hmem]

end

/-! ## Runs -/

variable {pageSize : Nat} {mem : Mem} {l : List Call} {σ : Sys}

theorem reach_clean
    (h : Reach (Sys.step t) (fun σ c => Legal t σ c ∧ ¬ c.op.IsVtable ∧ NoShrink t σ.world c.op)
      (Sys.start pageSize mem) l σ) :
    Inv t σ ∧ (∀ b ∈ σ.live, b.api = .direct) ∧ Clean t σ.world := by
  apply Reach.inv (P := fun σ => Inv t σ ∧ (∀ b ∈ σ.live, b.api = .direct) ∧ Clean t σ.world) _ _ h
  · exact ⟨Inv.start t pageSize mem, fun b hb => absurd hb List.not_mem_nil, .init t pageSize mem⟩
  · intro σ c σ' ⟨hinv, hdirect, hclean⟩ ⟨hlegal, hop, hgrow⟩ hs
    obtain ⟨⟨r, s⟩, hr, rfl⟩ := Option.map_eq_some_iff.mp hs
    have heff := exec_effect hinv hlegal hr
    refine ⟨heff.inv hinv, heff.all_direct hop hdirect, ?_⟩
    rw [Sys.record_world]
    exact (exec_clean hinv hdirect hlegal hop hclean hr).1 hgrow

/-- **What an allocation finds.** As long as no block is shrunk where it is, no
direct call hands out a byte that was stored by anybody; in a release build they
are zero, and a `calloc` is an `alloc`. -/
theorem fresh_blank
    (h : Reach (Sys.step t) (fun σ c => Legal t σ c ∧ ¬ c.op.IsVtable ∧ NoShrink t σ.world c.op)
      (Sys.start pageSize mem) l σ) :
    (∀ c r s, Legal t σ c → ¬ c.op.IsVtable → exec t c.sys c.op σ.world = some (r, s) →
      ∀ p ∈ r, Fresh t p s.mem c.op) ∧
    (t.debug = false → (∀ v, Blank t v ↔ v = 0) ∧
      ∀ size alignment sys, Legal t σ ⟨.calloc size alignment, sys⟩ →
        calloc t sys size alignment σ.world = (alloc t sys size alignment σ.world).map
          fun r => (r.1, { r.2 with log := .touched r.1 size :: r.2.log })) := by
  obtain ⟨hinv, hdirect, hclean⟩ := reach_clean h
  refine ⟨?_, fun hrelease => ⟨?_, ?_⟩⟩
  · intro c r s hlegal hop hexec
    exact (exec_clean hinv hdirect hlegal hop hclean hexec).2
  · exact fun v => ⟨fun hv => hv.eq_zero hrelease, Or.inl⟩
  · intro size alignment sys hlegal
    exact hclean.calloc_eq_alloc hrelease hinv.pages hlegal.sys hlegal.proper.2.2 hlegal.noWrap

/-- Blocks that grow, two resets, and a page that is used twice. -/
def growingScript : List Line :=
  [⟨.alloc 10 4, [(64, 0x1000)]⟩, ⟨.write 0x1000 [1, 2, 3], []⟩, ⟨.realloc 0x1000 10 40 4, []⟩,
    ⟨.alloc 40 8, [(64, 0x2000)]⟩, ⟨.write 0x2020 [4], []⟩, ⟨.resetKeepPages 2, []⟩,
    ⟨.alloc 60 1, []⟩, ⟨.calloc 8 8, []⟩, ⟨.resetKeepPercentage 50, []⟩, ⟨.memdup 0x5000 3, []⟩]

theorem fresh_blank_grown :
    let σ := scriptEnd (x64 false) 64 (fun _ => 7) growingScript
    (∀ c r s, Legal (x64 false) σ c → ¬ c.op.IsVtable →
      exec (x64 false) c.sys c.op σ.world = some (r, s) → ∀ p ∈ r, Fresh (x64 false) p s.mem c.op) ∧
    ((x64 false).debug = false → (∀ v, Blank (x64 false) v ↔ v = 0) ∧
      ∀ size alignment sys, Legal (x64 false) σ ⟨.calloc size alignment, sys⟩ →
        calloc (x64 false) sys size alignment σ.world =
          (alloc (x64 false) sys size alignment σ.world).map
            fun r => (r.1, { r.2 with log := .touched r.1 size :: r.2.log })) :=
  fresh_blank (reach_of_legal (Q := fun σ c => ¬ c.op.IsVtable ∧ NoShrink (x64 false) σ.world c.op)
    (l := growingScript) (by decide +kernel))

/-- What is cut off a block is handed out again. -/
example : (scriptEnd (x64 false) 64 (fun _ => 0) [⟨.alloc 8 1, [(64, 0x1000)]⟩,
    ⟨.write 0x1007 [9], []⟩, ⟨.realloc 0x1000 8 4 1, []⟩, ⟨.alloc 4 1, []⟩]).world.mem 0x1007 = 9 := by
  decide +kernel

end MulleStorage.Arena
