import MulleStorage.Arena.Effect
import MulleStorage.Arena.Script

/-!
# The phase of the cursor

The vtable path never computes the alignment of a block. It relies on the
cursor being in *phase*, `_current + sizeof( size_t)` a multiple of the default
alignment, which a page entered by the vtable path and every vtable call leave
behind. Two things do not:

- a reset that keeps pages puts the cursor on the very start of a page;
- a direct block leaves it wherever the block ends.

`Phased` is the invariant with both exceptions in it, `aligned_iff` what the next
vtable allocation makes of it. For runs that means:

> `aligned_across_resets_iff`: without direct calls, the only misaligned blocks
> are those put on the start of a page after a reset.

> `aligned_across_apis_iff`: without resets, they are those put right behind a
> direct block that ends out of phase.
-/

namespace MulleStorage.Arena

open MulleStorage.Lib

variable {t : Target}

/-- The call carves a vtable block on the current page. -/
def CarvesHere (t : Target) (s : World) : Op → Prop
  | .callocV n size => FitsPageV t s (n * size)
  | .reallocarrayV block n size =>
    ¬ InPlace t s (.reallocarrayV block n size) ∧ FitsPageV t s (n * size)
  | _ => False

instance (t : Target) (s : World) : (op : Op) → Decidable (CarvesHere t s op)
  | .callocV n size => inferInstanceAs (Decidable (FitsPageV t s (n * size)))
  | .reallocarrayV .. => inferInstanceAs (Decidable (¬ _ ∧ _))
  | .alloc .. | .calloc .. | .memdup .. | .strdup .. | .realloc .. | .freeV .. | .reset
  | .resetKeepPages .. | .resetKeepPercentage .. | .write .. => isFalse id

/-- The cursor is on the start of the current page. -/
def AtPageStart (s : World) : Prop := s.pages[s.pageIndex]? = some s.current

instance (s : World) : Decidable (AtPageStart s) := inferInstanceAs (Decidable (_ = _))

/-- No vtable block is put on the start of a page, where the header alone would
have to keep the payload aligned. -/
def RestartOk (t : Target) (s : World) (op : Op) : Prop :=
  CarvesHere t s op → AtPageStart s → t.sizeofSizeT = t.defaultAlignment

/-- A vtable block put right behind a direct one finds it ending in phase. -/
def TailOk (t : Target) (σ : Sys) (op : Op) : Prop :=
  CarvesHere t σ.world op → ∀ d ∈ σ.live, d.api = .direct → d.stop = σ.world.current →
    t.defaultAlignment ∣ d.stop + t.sizeofSizeT

instance (t : Target) (s : World) (op : Op) : Decidable (RestartOk t s op) :=
  inferInstanceAs (Decidable (_ → _))

instance (t : Target) (σ : Sys) (op : Op) : Decidable (TailOk t σ op) :=
  inferInstanceAs (Decidable (_ → _))

/-- Vtable blocks are aligned, and the cursor is in phase but for the exceptions:
`R` allows resets, `D` direct calls. -/
structure Phased (t : Target) (R D : Prop) (σ : Sys) : Prop where
  pages : ∀ r ∈ held σ.world.log, t.defaultAlignment ∣ r.base
  blocks : ∀ b ∈ σ.live, b.api = .vtable → t.defaultAlignment ∣ b.ptr
  cursor : σ.world.pages ≠ [] →
    t.defaultAlignment ∣ σ.world.current + t.sizeofSizeT ∨
    (R ∧ AtPageStart σ.world) ∨
    D ∧ ∃ d ∈ σ.live, d.api = .direct ∧ d.stop = σ.world.current

/-! ## One allocation -/

/-- An allocation of the vtable API is a carving call of it. -/
theorem carvesHere_iff {s : World} {op : Op} {m : Mem} (hapi : op.api = .vtable)
    (hsize : 0 < op.size t m) (hmoved : ¬ InPlace t s op) :
    CarvesHere t s op ↔ FitsPageV t s (op.size t m) := by
  cases op with
  | callocV => exact Iff.rfl
  | reallocarrayV => exact and_iff_right hmoved
  | freeV => exact absurd hsize (Nat.lt_irrefl 0)
  | _ => cases hapi

theorem CarvesHere.not_inPlace {s : World} {op : Op} (h : CarvesHere t s op) :
    ¬ InPlace t s op := by
  cases op with
  | callocV => exact id
  | reallocarrayV => exact h.1
  | _ => exact h.elim

/-- A header in front of an aligned payload starts in phase: on the start of a
page it must be a whole alignment long. -/
theorem eq_of_dvd_header (hdvd : t.defaultAlignment ∣ t.sizeofSizeT) :
    t.sizeofSizeT = t.defaultAlignment :=
  Nat.le_antisymm t.sizeofSizeT_le (Nat.le_of_dvd t.sizeofSizeT_pos hdvd)

/-- The base of the page the cursor is on the start of. -/
theorem base_of_atPageStart {s : World} (hinv : PageInv t s) (h : AtPageStart s) :
    ∃ r, (held s.log)[s.pageIndex]? = some r ∧ s.current = r.base := by
  unfold AtPageStart at h
  rw [hinv.pages, List.getElem?_map] at h
  obtain ⟨r, hr, hcur⟩ := Option.map_eq_some_iff.mp h
  exact ⟨r, hr, hcur.symm⟩

theorem dvd_of_atPageStart {σ : Sys} {R D : Prop} (hinv : Inv t σ) (h : Phased t R D σ)
    (hstart : AtPageStart σ.world) : t.defaultAlignment ∣ σ.world.current := by
  obtain ⟨r, hr, hcur⟩ := base_of_atPageStart hinv.pages hstart
  exact hcur ▸ h.pages r (List.mem_of_getElem? hr)

/-- A reset leaves the cursor on the start of a page. -/
theorem WasReset.atPageStart {keepCount : Nat} {s s' : World} (h : WasReset t keepCount s s')
    (hne : s'.pages ≠ []) : AtPageStart s' := by
  have hne' : s.pages ≠ [] := fun hnil => hne ((h.empty hnil).symm ▸ hnil)
  exact h.current hne' hne

/-- The cursor is in phase for a block carved here, exactly when neither
exception applies. -/
theorem phase_iff {σ : Sys} {R D : Prop} (hinv : Inv t σ) (h : Phased t R D σ)
    (hne : σ.world.pages ≠ []) :
    t.defaultAlignment ∣ σ.world.current + t.sizeofSizeT ↔
      (R → AtPageStart σ.world → t.sizeofSizeT = t.defaultAlignment) ∧
      (D → ∀ d ∈ σ.live, d.api = .direct → d.stop = σ.world.current →
        t.defaultAlignment ∣ d.stop + t.sizeofSizeT) := by
  constructor
  · intro hdvd
    refine ⟨?_, fun _ d _ _ hstop => hstop ▸ hdvd⟩
    intro _ hstart
    exact eq_of_dvd_header ((Nat.dvd_add_right (dvd_of_atPageStart hinv h hstart)).mp hdvd)
  · rintro ⟨hrestart, htail⟩
    rcases h.cursor hne with hdvd | ⟨hR, hstart⟩ | ⟨hD, d, hd, hapi, hstop⟩
    · exact hdvd
    · rw [hrestart hR hstart]
      exact Nat.dvd_add (dvd_of_atPageStart hinv h hstart) (Nat.dvd_refl _)
    · exact hstop ▸ htail hD d hd hapi hstop

/-- The conditions on a call that the exceptions allowed call for. -/
def PhaseOk (t : Target) (R D : Prop) (σ : Sys) (op : Op) : Prop :=
  (R → RestartOk t σ.world op) ∧ (D → TailOk t σ op)

theorem phaseOk_iff {σ : Sys} {op : Op} {R D : Prop} :
    PhaseOk t R D σ op ↔ (CarvesHere t σ.world op →
      (R → AtPageStart σ.world → t.sizeofSizeT = t.defaultAlignment) ∧
      (D → ∀ d ∈ σ.live, d.api = .direct → d.stop = σ.world.current →
        t.defaultAlignment ∣ d.stop + t.sizeofSizeT)) :=
  ⟨fun h hhere => ⟨fun hR => h.1 hR hhere, fun hD => h.2 hD hhere⟩,
    fun h => ⟨fun hR hhere => (h hhere).1 hR, fun hD hhere => (h hhere).2 hD⟩⟩

/-- The pages stay aligned when the default allocator aligns. -/
theorem Allocated.dvd_base {sys : Nat → Option Nat} {api : Api} {size p : Nat} {s s' : World}
    (h : Allocated t sys api size p s s') (hsys : SysAligned t sys)
    (hpages : ∀ r ∈ held s.log, t.defaultAlignment ∣ r.base) :
    ∀ r ∈ held s'.log, t.defaultAlignment ∣ r.base := fun r hr =>
  (h.source r hr).elim (hpages r) (hsys r.size r.base)

/-- A block carved by the vtable path is aligned exactly when the condition on
the call holds. -/
theorem aligned_iff {σ : Sys} {c : Call} {R D : Prop} {p : Nat} {s : World} (hinv : Inv t σ)
    (h : Phased t R D σ) (hsys : SysAligned t c.sys) (hapi : c.op.api = .vtable)
    (hsize : 0 < c.op.size t σ.world.mem) (hmoved : ¬ InPlace t σ.world c.op)
    (halloc : Allocated t c.sys c.op.api (c.op.size t σ.world.mem) p (c.op.probe t σ.world) s) :
    t.defaultAlignment ∣ p ↔ PhaseOk t R D σ c.op := by
  rw [phaseOk_iff, carvesHere_iff hapi hsize hmoved]
  by_cases hfit : FitsPageV t σ.world (c.op.size t σ.world.mem)
  · -- behind the cursor, whose phase decides
    have hp : p = σ.world.current + t.sizeofSizeT := (hapi ▸ halloc).here_of_probe hfit |>.1
    have hne : σ.world.pages ≠ [] := hinv.pages.pages_ne_nil hfit.2
    rw [hp, phase_iff hinv h hne]
    exact ⟨fun h _ => h, fun h => h hfit⟩
  · -- on another page, where the vtable path offsets the cursor
    obtain ⟨-, r, hr, hp⟩ := (hapi ▸ halloc).fresh_of_probe hfit
    have hbase := halloc.dvd_base hsys (by rw [Op.held_probe]; exact h.pages) r hr
    exact ⟨fun _ hyes => absurd hyes hfit, fun _ => hp ▸ Nat.dvd_add hbase (Nat.dvd_refl _)⟩

/-! ## One call -/

/-- A vtable block leaves the cursor in phase. -/
theorem dvd_edge (t : Target) {p size : Nat} (hp : t.sizeofSizeT ≤ p) :
    t.defaultAlignment ∣ edgeOf t .vtable p size + t.sizeofSizeT := by
  have hle := le_alignUp t.defaultAlignment_pos (p + size)
  unfold edgeOf
  rw [Nat.sub_add_cancel (by omega)]
  exact dvd_alignUp _ _

/-- Only the direct calls carve direct blocks. -/
theorem isDirect_of_api {op : Op} {m : Mem} (hapi : op.api = .direct) (hsize : 0 < op.size t m) :
    op.IsDirect := by
  cases op with
  | alloc | calloc | memdup | strdup | realloc => trivial
  | callocV | reallocarrayV | freeV => cases hapi
  | _ => exact absurd hsize (Nat.lt_irrefl 0)

/-- A call that hands out a block and is not direct is one of the vtable. -/
theorem Effect.api_eq_vtable {c : Call} {σ σ' : Sys} {p : Nat} (heff : Effect t c σ (some p) σ')
    (hdirect : ¬ c.op.IsDirect) : c.op.api = .vtable := by
  have hsize : 0 < c.op.size t σ.world.mem := by
    cases heff with
    | carved hsize => exact hsize
    | extended _ _ _ _ hsize => exact hsize
  cases hapi : c.op.api with
  | direct => exact absurd (isDirect_of_api hapi hsize) hdirect
  | vtable => rfl

theorem Effect.all_vtable {c : Call} {σ σ' : Sys} {r : Option Nat} (heff : Effect t c σ r σ')
    (hdirect : ¬ c.op.IsDirect) (h : ∀ b ∈ σ.live, b.api = .vtable) :
    ∀ b ∈ σ'.live, b.api = .vtable := by
  intro b hb
  rcases heff.mem_live hb with ⟨d, hd, hapi, -⟩ | ⟨rfl, hapi, -⟩
  · exact hapi ▸ h d hd
  · exact hapi.trans (heff.api_eq_vtable hdirect)

/-- The pages stay aligned, whatever is called. -/
theorem Effect.dvd_base {c : Call} {σ σ' : Sys} {r : Option Nat} (heff : Effect t c σ r σ')
    (hsys : SysAligned t c.sys) (h : ∀ r ∈ held σ.world.log, t.defaultAlignment ∣ r.base) :
    ∀ r ∈ held σ'.world.log, t.defaultAlignment ∣ r.base := by
  cases heff with
  | carved _ _ _ halloc =>
    dsimp only
    rw [Op.held_fill]
    exact halloc.dvd_base hsys (by rw [Op.held_probe]; exact h)
  | extended _ _ _ _ _ hext =>
    dsimp only
    rw [hext.held]
    exact h
  | rewound _ _ _ _ _ _ _ hfree =>
    dsimp only
    rw [hfree.held]
    exact h
  | abandoned => exact h
  | reset _ hreset =>
    dsimp only
    rw [hreset.kept]
    exact fun r hr => h r (List.mem_of_mem_take hr)
  | written => exact h

theorem Effect.phased {c : Call} {σ σ' : Sys} {r : Option Nat} {R D : Prop}
    (heff : Effect t c σ r σ') (hinv : Inv t σ) (h : Phased t R D σ) (hsys : SysAligned t c.sys)
    (hR : c.op.IsReset → R) (hD : c.op.IsDirect → D) (hok : PhaseOk t R D σ c.op) :
    Phased t R D σ' := by
  have hpages := heff.dvd_base hsys h.pages
  cases heff with
  | @carved p s hsize hold hmoved halloc =>
    refine ⟨hpages, List.forall_mem_cons.mpr ⟨?_, fun b hb =>
      h.blocks b (List.mem_filter.mp hb).1⟩, ?_⟩
    · intro hapi
      exact (aligned_iff hinv h hsys hapi hsize hmoved halloc).mpr hok
    · intro _
      dsimp only
      rw [Op.fill_arena, halloc.edge]
      cases hapi : c.op.api with
      | direct =>
        -- out of phase maybe, but right behind the new block
        exact Or.inr (Or.inr ⟨hD (isDirect_of_api hapi hsize), _, List.mem_cons_self, rfl, rfl⟩)
      | vtable =>
        have hstart := halloc.start
        rw [hapi] at hstart
        exact Or.inl (dvd_edge t (by simp only [Api.header] at hstart; omega))
  | @extended b l s hlive hpage his hplace hsize hext =>
    have hb : b ∈ σ.live := hlive ▸ List.mem_cons_self
    refine ⟨hpages, List.forall_mem_cons.mpr ⟨h.blocks b hb, fun d hd =>
      h.blocks d (hlive ▸ List.mem_cons_of_mem b hd)⟩, ?_⟩
    intro _
    dsimp only
    rw [hext.edge]
    cases hapi : b.api with
    | direct =>
      exact Or.inr (Or.inr ⟨hD (isDirect_of_api (his.1.symm.trans hapi) hsize), _,
        List.mem_cons_self, rfl, rfl⟩)
    | vtable =>
      have hstart := hext.start
      rw [hapi] at hstart
      exact Or.inl (dvd_edge t (by simp only [Api.header] at hstart; omega))
  | @rewound b l s hop hlive hpage hapi hlast hedge _ hfree =>
    have hb : b ∈ σ.live := hlive ▸ List.mem_cons_self
    refine ⟨hpages, fun d hd => h.blocks d (hlive ▸ List.mem_cons_of_mem b hd), ?_⟩
    -- the cursor is back in front of an aligned block
    intro _
    have hptr := (hinv.raw_eq hb ⟨hapi, rfl⟩).1
    dsimp only
    rw [hfree.current, ← hlast, ← hptr]
    exact Or.inl (h.blocks b hb hapi)
  | abandoned =>
    refine ⟨hpages, fun b hb => h.blocks b (List.mem_filter.mp hb).1, ?_⟩
    intro hne
    refine (h.cursor hne).imp_right (Or.imp_right ?_)
    rintro ⟨hD', d, hd, hapi, hstop⟩
    refine ⟨hD', d, List.mem_filter.mpr ⟨hd, decide_eq_true ?_⟩, hapi, hstop⟩
    intro his
    cases hapi.symm.trans his.1
  | reset hop hreset =>
    refine ⟨hpages, fun b hb => absurd hb List.not_mem_nil, ?_⟩
    intro hne
    exact Or.inr (Or.inl ⟨hR hop, hreset.atPageStart hne⟩)
  | written => exact ⟨hpages, h.blocks, h.cursor⟩

/-! ## Runs -/

theorem Phased.start (t : Target) (R D : Prop) (pageSize : Nat) (mem : Mem) :
    Phased t R D (Sys.start pageSize mem) where
  pages _ hr := absurd hr List.not_mem_nil
  blocks _ hb := absurd hb List.not_mem_nil
  cursor hne := absurd rfl hne

theorem reach_phased {ok : Sys → Call → Prop} {R D : Prop}
    (hok : ∀ {σ c}, ok σ c → Legal t σ c ∧ SysAligned t c.sys ∧ (c.op.IsReset → R) ∧
      (c.op.IsDirect → D) ∧ PhaseOk t R D σ c.op)
    {pageSize : Nat} {mem : Mem} {l : List Call} {σ : Sys}
    (h : Reach (Sys.step t) ok (Sys.start pageSize mem) l σ) : Inv t σ ∧ Phased t R D σ := by
  apply reach_inv_and (fun hc => (hok hc).1) (Phased.start t R D pageSize mem) _ h
  intro σ c r σ' hinv hc heff hphased
  obtain ⟨-, hsys, hR, hD, hphase⟩ := hok hc
  exact heff.phased hinv hphased hsys hR hD hphase

/-- What the vtable returns next is aligned exactly when the condition holds. -/
theorem returned_aligned_iff {σ : Sys} {c : Call} {R D : Prop} {p : Nat} {s : World}
    (hinv : Inv t σ) (h : Phased t R D σ) (hlegal : Legal t σ c) (hsys : SysAligned t c.sys)
    (hop : c.op.IsVtable) (hexec : exec t c.sys c.op σ.world = some (some p, s)) :
    t.defaultAlignment ∣ p ↔ PhaseOk t R D σ c.op := by
  have hapi := Op.api_eq_vtable hop
  have heff := exec_effect hinv hlegal hexec
  generalize σ.record t c.op (some p, s) = σ' at heff
  dsimp only at heff
  cases heff with
  | carved hsize hold hmoved halloc => exact aligned_iff hinv h hsys hapi hsize hmoved halloc
  | @extended b l s hlive hpage his hplace hsize =>
    -- an aligned block stays where it is
    refine ⟨fun _ => phaseOk_iff.mpr fun hhere => absurd hplace hhere.not_inPlace, ?_⟩
    intro _
    exact h.blocks b (hlive ▸ List.mem_cons_self) (his.1.trans hapi)

variable {pageSize : Nat} {mem : Mem} {l : List Call} {σ : Sys}

/-- **Alignment across resets.** Without direct calls, as long as no vtable block
is put on the start of a page, all vtable blocks are aligned, and what the next
call returns is aligned exactly when it keeps to that. -/
theorem aligned_across_resets_iff
    (h : Reach (Sys.step t) (fun σ c => Legal t σ c ∧ SysAligned t c.sys ∧ ¬ c.op.IsDirect ∧
      RestartOk t σ.world c.op) (Sys.start pageSize mem) l σ) :
    (∀ b ∈ σ.live, b.api = .vtable → t.defaultAlignment ∣ b.ptr) ∧
    ∀ c p s, Legal t σ c → SysAligned t c.sys → c.op.IsVtable →
      exec t c.sys c.op σ.world = some (some p, s) →
      (t.defaultAlignment ∣ p ↔ RestartOk t σ.world c.op) := by
  obtain ⟨hinv, hphased⟩ := reach_phased (R := True) (D := False)
    (fun ⟨hlegal, hsys, hdirect, hrestart⟩ =>
      ⟨hlegal, hsys, fun _ => trivial, hdirect, fun _ => hrestart, False.elim⟩) h
  refine ⟨hphased.blocks, ?_⟩
  intro c p s hlegal hsys hop hexec
  rw [returned_aligned_iff hinv hphased hlegal hsys hop hexec]
  exact ⟨fun hok => hok.1 trivial, fun hrestart => ⟨fun _ => hrestart, False.elim⟩⟩

/-- Two pages, the second kept and entered anew after the reset. -/
def keptPageScript : List Line :=
  [⟨.callocV 1 40, [(64, 0x1000)]⟩, ⟨.callocV 1 40, [(64, 0x2000)]⟩, ⟨.resetKeepPages 2, []⟩,
    ⟨.callocV 1 60, [(76, 0x3000)]⟩]

theorem aligned_across_resets_iff_kept :
    let σ := scriptEnd (x64 false) 64 (fun _ => 0) keptPageScript
    (∀ b ∈ σ.live, b.api = .vtable → 16 ∣ b.ptr) ∧
    ∀ c p s, Legal (x64 false) σ c → SysAligned (x64 false) c.sys → c.op.IsVtable →
      exec (x64 false) c.sys c.op σ.world = some (some p, s) →
      (16 ∣ p ↔ RestartOk (x64 false) σ.world c.op) :=
  aligned_across_resets_iff (reach_of_aligned (l := keptPageScript) (by decide +kernel))

/-- A page is kept, and a vtable block goes on its start: its payload is only the
size of a header behind the page's alignment. -/
def restartScript : List Line :=
  [⟨.callocV 1 16, [(64, 0x1000)]⟩, ⟨.resetKeepPages 1, []⟩, ⟨.callocV 1 16, []⟩]

theorem restart_misaligned :
    let σ := scriptEnd (x64 false) 64 (fun _ => 0) restartScript
    Reach (Sys.step (x64 false)) (fun σ c => Legal (x64 false) σ c ∧ SysAligned (x64 false) c.sys ∧
        ¬ c.op.IsDirect) (Sys.start 64 fun _ => 0) (restartScript.map Line.call) σ ∧
      ⟨.vtable, 0x1008, 16, 0, 1⟩ ∈ σ.live ∧ ¬ 16 ∣ 0x1008 :=
  ⟨reach_of_aligned (by decide +kernel), by decide +kernel, by decide⟩

/-- **Alignment across the APIs.** Without resets, as long as a vtable block put
right behind a direct one finds it ending in phase, all vtable blocks are
aligned, and what the next call returns is aligned exactly when it keeps to
that. -/
theorem aligned_across_apis_iff
    (h : Reach (Sys.step t) (fun σ c => Legal t σ c ∧ SysAligned t c.sys ∧ ¬ c.op.IsReset ∧
      TailOk t σ c.op) (Sys.start pageSize mem) l σ) :
    (∀ b ∈ σ.live, b.api = .vtable → t.defaultAlignment ∣ b.ptr) ∧
    ∀ c p s, Legal t σ c → SysAligned t c.sys → c.op.IsVtable →
      exec t c.sys c.op σ.world = some (some p, s) →
      (t.defaultAlignment ∣ p ↔ TailOk t σ c.op) := by
  obtain ⟨hinv, hphased⟩ := reach_phased (R := False) (D := True)
    (fun ⟨hlegal, hsys, hreset, htail⟩ =>
      ⟨hlegal, hsys, hreset, fun _ => trivial, False.elim, fun _ => htail⟩) h
  refine ⟨hphased.blocks, ?_⟩
  intro c p s hlegal hsys hop hexec
  rw [returned_aligned_iff hinv hphased hlegal hsys hop hexec]
  exact ⟨fun hok => hok.2 trivial, fun htail => ⟨False.elim, fun _ => htail⟩⟩

/-- A direct block that ends in phase, and a vtable block behind it. -/
def phasedTailScript : List Line := [⟨.alloc 24 8, [(64, 0x1000)]⟩, ⟨.callocV 1 8, []⟩]

theorem aligned_across_apis_iff_tail :
    let σ := scriptEnd (x64 false) 64 (fun _ => 0) phasedTailScript
    (∀ b ∈ σ.live, b.api = .vtable → 16 ∣ b.ptr) ∧
    ∀ c p s, Legal (x64 false) σ c → SysAligned (x64 false) c.sys → c.op.IsVtable →
      exec (x64 false) c.sys c.op σ.world = some (some p, s) →
      (16 ∣ p ↔ TailOk (x64 false) σ c.op) :=
  aligned_across_apis_iff (reach_of_aligned (l := phasedTailScript) (by decide +kernel))

/-- A direct block of one byte, and a vtable block behind it. -/
def oddTailScript : List Line := [⟨.alloc 1 1, [(64, 0x1000)]⟩, ⟨.callocV 1 1, []⟩]

theorem tail_misaligned :
    let σ := scriptEnd (x64 false) 64 (fun _ => 0) oddTailScript
    Reach (Sys.step (x64 false)) (fun σ c => Legal (x64 false) σ c ∧ SysAligned (x64 false) c.sys ∧
        ¬ c.op.IsReset) (Sys.start 64 fun _ => 0) (oddTailScript.map Line.call) σ ∧
      ⟨.vtable, 0x1009, 1, 0, 1⟩ ∈ σ.live ∧ ¬ 16 ∣ 0x1009 :=
  ⟨reach_of_aligned (by decide +kernel), by decide +kernel, by decide⟩

end MulleStorage.Arena
