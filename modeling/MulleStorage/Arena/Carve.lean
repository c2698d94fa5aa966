import MulleStorage.Arena.Branch
import MulleStorage.Arena.Pages

/-!
# What an allocation does

Both allocation functions of the header, `_mulle_arena_alloc` and
`_mulle_arena_alloc_with_size_header`, either stay on the current page or enter
another one, put the block behind the cursor, and leave the cursor at the
block's *edge*: its end for a direct block; for a vtable block the aligned end,
stepped back by the size of a header. `Carved` is that common outcome, stated
once for both APIs, in plain arithmetic: `placeAligned_eq` and `placeHeader_eq`
are where the wrapping sums go.

`Extended` is the other way to get a block: growing or shrinking the newest one
where it is.
-/

namespace MulleStorage.Arena

open MulleStorage.Lib

variable {t : Target} {sys : Nat → Option Nat}

/-! ## `_mulle_arena_align_pointer` -/

theorem alignPointer_eq_div {alignment : Nat} (hal : t.IsAlignment alignment) (p : Nat) :
    alignPointer t p alignment = t.add p (alignment - 1) / alignment * alignment := by
  have hmask : t.sub alignment 1 = alignment - 1 := Target.sub_eq hal.pos hal.lt_modulus
  unfold alignPointer
  dsimp only
  rw [hmask]
  obtain ⟨k, hk, rfl⟩ := hal
  exact and_not_mask (Target.add_lt p _) (Nat.le_trans (Nat.le_of_lt hk) t.uintBits_le)

theorem alignPointer_eq {alignment p : Nat} (hal : t.IsAlignment alignment)
    (h : p + (alignment - 1) < t.modulus) : alignPointer t p alignment = alignUp alignment p := by
  rw [alignPointer_eq_div hal, Target.add_eq h]
  rfl

theorem dvd_alignPointer {alignment : Nat} (hal : t.IsAlignment alignment) (p : Nat) :
    alignment ∣ alignPointer t p alignment := by
  rw [alignPointer_eq_div hal]
  exact Nat.dvd_mul_left _ _

/-- An address too close to the top of the address space aligns to 0. -/
theorem alignPointer_wrap {alignment p : Nat} (hal : t.IsAlignment alignment) (hp : p < t.modulus)
    (h : t.modulus ≤ p + (alignment - 1)) : alignPointer t p alignment = 0 := by
  have hsum : t.add p (alignment - 1) = p + (alignment - 1) - t.modulus := by
    rw [Target.add, Nat.mod_eq_sub_mod h, Nat.mod_eq_of_lt]
    have := hal.lt_modulus
    omega
  have hpos := hal.pos
  rw [alignPointer_eq_div hal, hsum, Nat.div_eq_of_lt (by omega), Nat.zero_mul]

/-- The cursor after a vtable block that ends at `p`. Right at the top of the
address space the two steps wrap, and cancel. -/
theorem stepBack_eq {p : Nat} (hpos : 0 < p) (hp : p < t.modulus) :
    t.sub (alignPointer t p t.defaultAlignment) t.sizeofSizeT
      = alignUp t.defaultAlignment p - t.sizeofSizeT := by
  have hal := t.isAlignment_default
  have hA := hal.pos
  have hW := t.sizeofSizeT_le
  have hge : t.defaultAlignment ≤ alignUp t.defaultAlignment p := by
    have := le_alignUp hA p
    exact Nat.le_of_dvd (by omega) (dvd_alignUp _ _)
  have hle : alignUp t.defaultAlignment p ≤ t.modulus :=
    alignUp_le hA hal.dvd_modulus (Nat.le_of_lt hp)
  -- the alignment's own sum may leave the address space
  rcases Nat.lt_or_ge (p + (t.defaultAlignment - 1)) t.modulus with hlt | hwrap
  · rw [alignPointer_eq hal hlt]
    have hlt' : alignUp t.defaultAlignment p < t.modulus :=
      Nat.lt_of_le_of_lt (Nat.div_mul_le_self _ _) hlt
    exact Target.sub_eq (Nat.le_trans hW hge) hlt'
  · have htop : alignUp t.defaultAlignment p = t.modulus := by
      refine Nat.le_antisymm hle ?_
      obtain ⟨q, hq⟩ := hal.dvd_modulus
      rw [hq] at hwrap ⊢
      rw [Nat.mul_comm] at hwrap ⊢
      exact Nat.mul_le_mul_right _ ((Nat.le_div_iff_mul_le hA).mpr hwrap)
    have hpos' := t.sizeofSizeT_pos
    rw [alignPointer_wrap hal hp hwrap, htop, Target.sub, Nat.zero_add, Nat.mod_eq_of_lt (by omega)]

/-! ## Edges -/

/-- Where the cursor stands once a block of `size` bytes is at `p`. -/
def edgeOf (t : Target) (api : Api) (p size : Nat) : Nat :=
  match api with
  | .direct => p + size
  | .vtable => alignUp t.defaultAlignment (p + size) - t.sizeofSizeT

/-- The edge is behind the payload, but for the bytes of a header. -/
theorem le_edgeOf (t : Target) (api : Api) (p size : Nat) :
    p + size ≤ edgeOf t api p size + api.header t := by
  cases api with
  | direct => exact Nat.le_refl _
  | vtable =>
    have hle := le_alignUp t.defaultAlignment_pos (p + size)
    show p + size ≤ alignUp t.defaultAlignment (p + size) - t.sizeofSizeT + t.sizeofSizeT
    omega

/-- The cursor moves: the edge is behind the start of the block. -/
theorem lt_edgeOf {api : Api} {start p size : Nat} (hp : p = start + api.header t)
    (hsize : 0 < size) : start < edgeOf t api p size := by
  have := le_edgeOf t api p size
  omega

/-! ## Outcomes -/

/-- `s'` is `s` with a new block of `size` bytes at `p`; `dirty` bytes of its
payload have been written. -/
structure Carved (t : Target) (sys : Nat → Option Nat) (api : Api) (size p dirty : Nat)
    (s s' : World) : Prop where
  inv : PageInv t s'
  grows : held s.log <+: held s'.log
  source : ∀ r ∈ held s'.log, r ∈ held s.log ∨ sys r.size = some r.base
  pages : s'.pages ≠ []
  place : s.pages = [] ∨ s.pageIndex < s'.pageIndex ∨
    s.pageIndex = s'.pageIndex ∧ s.current ≤ s'.last
  start : p = s'.last + api.header t
  covers : ∃ r, (held s'.log)[s'.pageIndex]? = some r ∧ r.base ≤ s'.last ∧
    p + size ≤ r.base + r.size
  edge : s'.current = edgeOf t api p size
  mem : ∀ a, Old sys a → a < s'.last ∨ p + dirty ≤ a → s'.mem a = s.mem a
  header : api = .vtable → ∀ i, i < t.sizeofSizeT → s'.mem (s'.last + i) = wordByte size i

/-- `s'` is what an allocation function made of `s`: a new block whose payload is
as it was, on the current page when there was room. -/
structure Allocated (t : Target) (sys : Nat → Option Nat) (api : Api) (size p : Nat)
    (s s' : World) : Prop extends Carved t sys api size p 0 s s' where
  touches : TouchesOk s.log → TouchesOk s'.log
  here : api = .vtable → FitsPageV t s size →
    p = s.current + t.sizeofSizeT ∧ s'.pageIndex = s.pageIndex
  fresh : api = .vtable → ¬ FitsPageV t s size →
    (s.pages = [] ∨ s.pageIndex < s'.pageIndex) ∧ ∃ r ∈ held s'.log, p = r.base + t.defaultAlignment

/-- `s'` is `s` with the newest block, at `p`, resized to `size` bytes. -/
structure Extended (t : Target) (api : Api) (size p : Nat) (s s' : World) : Prop where
  inv : PageInv t s'
  held : held s'.log = held s.log
  pages : s.pages ≠ []
  pageIndex : s'.pageIndex = s.pageIndex
  last : s'.last = s.last
  start : p = s.last + api.header t
  room : p + size ≤ s.sentinel
  edge : s'.current = edgeOf t api p size
  mem : ∀ a, a < s.last ∨ p ≤ a → s'.mem a = s.mem a
  header : api = .vtable → ∀ i, i < t.sizeofSizeT → s'.mem (s.last + i) = wordByte size i
  touches : TouchesOk s.log → TouchesOk s'.log

/-- A block whose payload was not written is one whose payload may have been. -/
theorem Carved.weaken {api : Api} {size p : Nat} {s s' : World}
    (h : Carved t sys api size p 0 s s') : Carved t sys api size p size s s' :=
  { h with mem := fun a hold ha => h.mem a hold (by omega) }

/-- Writing the payload of a new block. -/
theorem Carved.refill {api : Api} {size p dirty : Nat} {s s' : World}
    (h : Carved t sys api size p dirty s s') {m : Mem} {log : List Event}
    (hinv : PageInv t { s' with mem := m, log := log }) (hheld : held log = held s'.log)
    (hm : ∀ a, a < p ∨ p + size ≤ a → m a = s'.mem a) (hdirty : dirty ≤ size) :
    Carved t sys api size p size s { s' with mem := m, log := log } where
  inv := hinv
  grows := hheld ▸ h.grows
  source := hheld ▸ h.source
  pages := h.pages
  place := h.place
  start := h.start
  covers := hheld ▸ h.covers
  edge := h.edge
  mem a hold ha := by
    have hstart := h.start
    dsimp only at ha ⊢
    rw [hm a (by omega), h.mem a hold (by omega)]
  header hapi i hi := by
    have hstart := h.start
    rw [hapi] at hstart
    dsimp only at hstart ⊢
    rw [hm _ (by simp only [Api.header] at hstart; omega)]
    exact h.header hapi i hi

theorem Carved.memset {api : Api} {size p : Nat} {s s' : World}
    (h : Carved t sys api size p 0 s s') (f : Nat → UInt8) :
    Carved t sys api size p size s (s'.memset p size f) :=
  h.refill (h.inv.touch _ _ _) rfl (fun _ ha => blit_outside ha) (Nat.zero_le _)

theorem Carved.memcpyFrom {api : Api} {size p : Nat} {s s' : World}
    (h : Carved t sys api size p 0 s s') (src : Nat) :
    Carved t sys api size p size s (s'.memcpyFrom p src size) :=
  h.refill (h.inv.touch _ _ _) rfl (fun _ ha => blit_outside ha) (Nat.zero_le _)

theorem Carved.memcpy {api : Api} {size p n : Nat} {s s' : World}
    (h : Carved t sys api size p 0 s s') (src : Nat) (hn : n ≤ size) :
    Carved t sys api size p size s (s'.memcpy p src n) :=
  h.refill ((h.inv.touch s'.mem src n).touch _ p n) rfl
    (fun _ ha => blit_outside (by omega)) (Nat.zero_le _)

/-- A block carved right after another page was entered. -/
theorem Carved.reopened {api : Api} {size p dirty need : Nat} {s s₁ s' : World}
    (h : Carved t sys api size p dirty s₁ s') (hopen : Opened t sys need s s₁) :
    Carved t sys api size p dirty s s' :=
  { h with
    grows := hopen.grows.trans h.grows
    source := fun r hr => (h.source r hr).elim (hopen.source r) Or.inr
    place := by
      rcases hopen.later with hnil | hlt
      · exact Or.inl hnil
      · have hplace := h.place.resolve_left hopen.pages
        exact Or.inr (Or.inl (by omega))
    mem := fun a hold ha => (h.mem a hold ha).trans (hopen.mem a hold) }

/-- A block carved after the cursor was moved on. -/
theorem Carved.advance {api : Api} {size p dirty cursor : Nat} {s s' : World}
    (h : Carved t sys api size p dirty { s with current := cursor } s')
    (hle : s.current ≤ cursor) : Carved t sys api size p dirty s s' :=
  { h with place := h.place.imp_right (Or.imp_right fun hp => ⟨hp.1, Nat.le_trans hle hp.2⟩) }

/-- The new block is not at address 0. -/
theorem Carved.pos {api : Api} {size p dirty : Nat} {s s' : World}
    (h : Carved t sys api size p dirty s s') : 0 < s'.last ∧ 0 < p := by
  obtain ⟨r, hr, hbase, -⟩ := h.covers
  have hpos := (h.inv.region r (List.mem_of_getElem? hr)).1
  have hstart := h.start
  omega

/-! ## `_mulle_arena_alloc` -/

/-- The size a direct allocation asks of a new page. -/
theorem sub_add_one {size alignment : Nat} (hpos : 0 < alignment)
    (h : size + (alignment - 1) < t.modulus) :
    t.sub (t.add size alignment) 1 = size + (alignment - 1) := by
  have hM := t.modulus_pos
  unfold Target.sub Target.add
  rw [Nat.mod_add_mod, show size + alignment + (t.modulus - 1)
    = size + (alignment - 1) + t.modulus from by omega, Nat.add_mod_right, Nat.mod_eq_of_lt h]

/-- The end of `_mulle_arena_alloc` in plain arithmetic. -/
theorem placeAligned_eq {size alignment : Nat} {s : World} (hal : t.IsAlignment alignment)
    (hcur : s.current + (alignment - 1) < t.modulus)
    (hlt : alignUp alignment s.current + size < t.modulus) :
    placeAligned t size alignment s = (alignUp alignment s.current, { s with
      current := alignUp alignment s.current + size
      last := alignUp alignment s.current }) := by
  unfold placeAligned
  dsimp only
  rw [alignPointer_eq hal hcur, Target.add_eq hlt]

/-- Placing a direct block behind the cursor of `s`, when there is room. -/
theorem placeAligned_carved {size alignment : Nat} {s : World} (hinv : PageInv t s)
    (hsize : 0 < size) (hal : t.IsAlignment alignment)
    (hcur : s.current + (alignment - 1) < t.modulus)
    (hroom : alignUp alignment s.current + size ≤ s.sentinel) :
    Allocated t sys .direct size (placeAligned t size alignment s).1 s
      (placeAligned t size alignment s).2 := by
  have hne := hinv.pages_ne_nil (by omega)
  obtain ⟨⟨r, hr, hbase, -, hend⟩, -⟩ := hinv.inside hne
  have hlt := (hinv.region r (List.mem_of_getElem? hr)).2.2
  have hle := le_alignUp hal.pos s.current
  rw [placeAligned_eq hal hcur (by omega)]
  exact {
    inv := hinv.setCursor hne hr (by omega) (by omega)
    grows := List.prefix_refl _
    source := fun _ hr => Or.inl hr
    pages := hne
    place := Or.inr (Or.inr ⟨rfl, hle⟩)
    start := rfl
    covers := ⟨r, hr, by dsimp only; omega, by dsimp only; omega⟩
    edge := rfl
    mem := fun _ _ _ => rfl
    header := nofun
    touches := fun ht => ht
    here := nofun
    fresh := nofun }

/-- `_mulle_arena_alloc` aligns, sums that wrap included. -/
theorem alloc_aligned {size alignment p : Nat} {s s' : World} (hal : t.IsAlignment alignment)
    (h : alloc t sys size alignment s = some (p, s')) : alignment ∣ p := by
  by_cases hfit : FitsPage t s size alignment
  · rw [alloc_here sys hfit] at h
    cases h
    exact dvd_alignPointer hal _
  · rw [alloc_elsewhere sys hfit] at h
    obtain ⟨⟨page, s₁⟩, -, hplaced⟩ := Option.map_eq_some_iff.mp h
    cases hplaced
    exact dvd_alignPointer hal _

/-- `_mulle_arena_alloc` puts the block where its alignment asks for it. -/
theorem alloc_carved {size alignment p : Nat} {s s' : World} (hinv : PageInv t s)
    (hsys : SysOk t s sys) (hsize : 0 < size) (hal : t.IsAlignment alignment)
    (hnw : AllocNoWrap t s size alignment) (h : alloc t sys size alignment s = some (p, s')) :
    Allocated t sys .direct size p s s' := by
  unfold AllocNoWrap at hnw
  by_cases hfit : FitsPage t s size alignment
  · -- on the current page
    rw [if_pos hfit] at hnw
    rw [alloc_here sys hfit] at h
    cases h
    unfold FitsPage at hfit
    rw [alignPointer_eq hal hnw.1] at hnw hfit
    rw [Target.add_eq hnw.2] at hfit
    exact placeAligned_carved hinv hsize hal hnw.1 hfit
  · -- on another page, which has room for the padding as well
    rw [if_neg hfit] at hnw
    rw [alloc_elsewhere sys hfit, sub_add_one hal.pos hnw] at h
    obtain ⟨⟨page, s₁⟩, hpage, hplaced⟩ := Option.map_eq_some_iff.mp h
    cases hplaced
    have hopen := newPage_opened hinv hsys hpage
    have hlt := hopen.inv.sentinel_lt
    have hroom := hopen.room
    have hpad := alignUp_lt hal.pos s₁.current
    have hpos := hal.pos
    have hc : Allocated t sys .direct size (placeAligned t size alignment s₁).1 s₁
        (placeAligned t size alignment s₁).2 :=
      placeAligned_carved hopen.inv hsize hal (by omega) (by omega)
    exact ⟨hc.toCarved.reopened hopen, fun ht => hc.touches (hopen.touches ht), nofun, nofun⟩

/-! ## `_mulle_arena_alloc_with_size_header` -/

/-- The end of `_mulle_arena_alloc_with_size_header` in plain arithmetic. -/
theorem placeHeader_eq {size : Nat} {s : World}
    (hlt : s.current + t.sizeofSizeT + size < t.modulus) :
    placeHeader t size s = (s.current + t.sizeofSizeT, { s.storeSize t s.current size with
      current := alignUp t.defaultAlignment (s.current + t.sizeofSizeT + size) - t.sizeofSizeT
      last := s.current }) := by
  have hpos := t.sizeofSizeT_pos
  unfold placeHeader
  dsimp only
  rw [Target.add_eq (b := t.sizeofSizeT) (by omega), Target.add_eq hlt, stepBack_eq (by omega) hlt,
    Target.sub_eq (Nat.le_add_left _ _) (by omega), Nat.add_sub_cancel]

/-- Placing a vtable block behind the cursor of `s`, when there is room. -/
theorem header_carved {size : Nat} {s : World} (hinv : PageInv t s) (hsize : 0 < size)
    (hroom : s.current + t.sizeofSizeT + size ≤ s.sentinel) :
    Carved t sys .vtable size (s.current + t.sizeofSizeT) 0 s
      { s.storeSize t s.current size with
        current := alignUp t.defaultAlignment (s.current + t.sizeofSizeT + size) - t.sizeofSizeT
        last := s.current } := by
  have hne := hinv.pages_ne_nil (by omega)
  obtain ⟨⟨r, hr, hbase, -, hend⟩, -⟩ := hinv.inside hne
  have hlt := (hinv.region r (List.mem_of_getElem? hr)).2.2
  have hle := le_alignUp t.defaultAlignment_pos (s.current + t.sizeofSizeT + size)
  have hup : alignUp t.defaultAlignment (s.current + t.sizeofSizeT + size) ≤ t.modulus :=
    alignUp_le t.defaultAlignment_pos t.isAlignment_default.dvd_modulus (by omega)
  have hpos := t.sizeofSizeT_pos
  exact {
    -- the cursor may stand behind `_sentinel`, but not at the top of memory
    inv := (hinv.touch _ s.current t.sizeofSizeT).setCursor hne hr (by omega) (by omega)
    grows := List.prefix_refl _
    source := fun _ hr => Or.inl hr
    pages := hne
    place := Or.inr (Or.inr ⟨rfl, Nat.le_refl _⟩)
    start := rfl
    covers := ⟨r, hr, hbase, by omega⟩
    edge := rfl
    mem := by
      intro a _ ha
      dsimp only at ha
      exact blit_outside (by omega)
    header := fun _ i hi => blit_at hi }

/-- The header store stays on the current page. -/
theorem storeSize_touches {size : Nat} {s : World} (hinv : PageInv t s)
    (hroom : s.current + t.sizeofSizeT + size ≤ s.sentinel) (hsize : 0 < size)
    (ht : TouchesOk s.log) : TouchesOk (s.storeSize t s.current size).log := by
  obtain ⟨⟨r, hr, hbase, -, hend⟩, -⟩ := hinv.inside (hinv.pages_ne_nil (by omega))
  exact ⟨⟨r, List.mem_of_getElem? hr, hbase, by omega⟩, ht⟩

/-- `_mulle_arena_alloc_with_size_header` puts the payload a header behind the
cursor, or at the default alignment from the start of a page. -/
theorem allocWithSizeHeader_carved {size p : Nat} {s s' : World} (hinv : PageInv t s)
    (hsys : SysOk t s sys) (hsize : 0 < size) (hnw : HeaderNoWrap t s size)
    (h : allocWithSizeHeader t sys size s = some (p, s')) :
    Allocated t sys .vtable size p s s' := by
  have hW := t.sizeofSizeT_le
  have hWpos := t.sizeofSizeT_pos
  unfold HeaderNoWrap at hnw
  by_cases hfit : FitsPageV t s size
  · -- on the current page
    rw [if_pos hfit] at hnw
    rw [allocWithSizeHeader_here sys hfit, placeHeader_eq hnw] at h
    cases h
    have hroom := hfit.1
    rw [Target.add_eq (b := t.sizeofSizeT) (by omega), Target.add_eq hnw] at hroom
    exact ⟨header_carved hinv hsize hroom, storeSize_touches hinv hroom hsize,
      fun _ _ => ⟨rfl, rfl⟩, fun _ hno => absurd hfit hno⟩
  · -- on another page, the cursor offset so that the payload is aligned
    rw [if_neg hfit] at hnw
    rw [allocWithSizeHeader_elsewhere sys hfit, Target.add_eq (a := t.sizeofSizeT) (by omega),
      Target.add_eq hnw] at h
    obtain ⟨⟨page, s₁⟩, hpage, hplaced⟩ := Option.map_eq_some_iff.mp h
    have hopen := newPage_opened hinv hsys hpage
    obtain ⟨q, hq, hcur⟩ := hopen.page
    have hmem := List.mem_of_getElem? hq
    have hlt := hopen.inv.sentinel_lt
    have hroom := hopen.room
    have hroom₂ : s₁.current + (t.defaultAlignment - t.sizeofSizeT) + t.sizeofSizeT + size
        ≤ s₁.sentinel := by omega
    dsimp only at hplaced
    rw [Target.add_eq (a := s₁.current) (by omega),
      placeHeader_eq (Nat.lt_of_le_of_lt hroom₂ hlt)] at hplaced
    cases hplaced
    have hinv₂ : PageInv t { s₁ with
        current := s₁.current + (t.defaultAlignment - t.sizeofSizeT) } :=
      hopen.inv.setCursor hopen.pages hq (by omega) (by omega)
    exact ⟨((header_carved hinv₂ hsize hroom₂).advance (Nat.le_add_right _ _)).reopened hopen,
      fun ht => storeSize_touches hinv₂ hroom₂ hsize (hopen.touches ht),
      fun _ hyes => absurd hyes hfit, fun _ _ => ⟨hopen.later, q, hmem, by dsimp only; omega⟩⟩

/-! ## The newest block in place -/

/-- `_mulle_arena_realloc` with room behind the newest block. -/
theorem direct_extended {size : Nat} {s : World} {r : Region} (hinv : PageInv t s)
    (hne : s.pages ≠ []) (hr : (held s.log)[s.pageIndex]? = some r) (hbase : r.base ≤ s.last)
    (hroom : s.last + size ≤ s.sentinel) (hlt : s.last + size < t.modulus) :
    Extended t .direct size s.last s { s with current := s.last + size } where
  inv := hinv.setCursor hne hr (by omega) hlt
  held := rfl
  pages := hne
  pageIndex := rfl
  last := rfl
  start := rfl
  room := hroom
  edge := rfl
  mem _ _ := rfl
  header := nofun
  touches ht := ht

/-- `_mulle_arena_reallocarray_v` with room behind the newest block. -/
theorem header_extended {size : Nat} {s : World} {r : Region} (hinv : PageInv t s)
    (hne : s.pages ≠ []) (hr : (held s.log)[s.pageIndex]? = some r) (hbase : r.base ≤ s.last)
    (hbend : s.last + t.sizeofSizeT ≤ r.base + r.size)
    (hroom : s.last + t.sizeofSizeT + size ≤ s.sentinel)
    (hlt : s.last + t.sizeofSizeT + size < t.modulus) :
    Extended t .vtable size (s.last + t.sizeofSizeT) s
      (World.storeSize t { s with
        current := alignUp t.defaultAlignment (s.last + t.sizeofSizeT + size) - t.sizeofSizeT
        log := .touched s.last t.sizeofSizeT :: s.log } s.last size) := by
  have hle := le_alignUp t.defaultAlignment_pos (s.last + t.sizeofSizeT + size)
  have hup : alignUp t.defaultAlignment (s.last + t.sizeofSizeT + size) ≤ t.modulus :=
    alignUp_le t.defaultAlignment_pos t.isAlignment_default.dvd_modulus (by omega)
  have hpos := t.sizeofSizeT_pos
  have hcovers : ∃ r ∈ held s.log, r.Covers s.last t.sizeofSizeT :=
    ⟨r, List.mem_of_getElem? hr, hbase, hbend⟩
  -- the header is read, and written anew
  have htouched := (hinv.touch s.mem s.last t.sizeofSizeT).touch
    (blit s.mem s.last t.sizeofSizeT (wordByte size)) s.last t.sizeofSizeT
  exact {
    inv := htouched.setCursor hne hr (by omega) (by omega)
    held := rfl
    pages := hne
    pageIndex := rfl
    last := rfl
    start := rfl
    room := hroom
    edge := rfl
    mem := fun a ha => blit_outside (by omega)
    header := fun _ i hi => blit_at hi
    touches := fun ht => ⟨hcovers, hcovers, ht⟩ }

/-- `s'` is `s` with the newest block, which starts at `_last`, given up. A
debug build fills everything up to the cursor. -/
structure Freed (t : Target) (s s' : World) : Prop where
  held : held s'.log = held s.log
  pageIndex : s'.pageIndex = s.pageIndex
  current : s'.current = s.last
  last : s'.last = 0
  mem : ∀ a, (t.debug = true → a < s.last ∨ s.current ≤ a) → s'.mem a = s.mem a
  touches : (t.debug = true → ∃ r ∈ Arena.held s.log, r.Covers s.last (s.current - s.last)) →
    TouchesOk s.log → TouchesOk s'.log

end MulleStorage.Arena
