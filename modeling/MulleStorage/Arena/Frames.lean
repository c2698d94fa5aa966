import MulleStorage.Arena.OnTape
import MulleStorage.Arena.Script

/-!
# One frame after another

The arena is made for programs that allocate as they go, drop everything at once,
and start over. A reset that keeps all pages is there to make the next round
cheap. How cheap? When the rounds are alike, it costs the default allocator
nothing, and every pointer is the same as before.

The first round is played on a tape that grows with it (`Frame.played`); in the
others the tape is there from the start, and they stay on it (`Frame.replaying`).

> `frames_steady`: after the first frame, frames that ask for the same obtain no
> page and get the same pointers, and an exhausted default allocator cannot stop
> them.
-/

namespace MulleStorage.Arena

open MulleStorage.Lib

variable {t : Target}

/-! ## A frame -/

/-- A frame: direct calls with what they asked for and got, and clients' stores
in between. -/
inductive Frame (t : Target) (σ : Sys) : List (Request × Nat) → Sys → Prop
  | nil : Frame t σ [] σ
  | call {tr : List (Request × Nat)} {σ₁ : Sys} {c : Call} {q : Request} {p : Nat} {s : World} :
      Frame t σ tr σ₁ → Legal t σ₁ c → c.op.asks t σ₁.world.mem = some q →
      exec t c.sys c.op σ₁.world = some (some p, s) →
      Frame t σ (tr ++ [(q, p)]) (σ₁.record t c.op (some p, s))
  | write {tr : List (Request × Nat)} {σ₁ σ₂ : Sys} {c : Call} :
      Frame t σ tr σ₁ → Legal t σ₁ c → c.op.IsWrite → σ₁.step t c = some σ₂ → Frame t σ tr σ₂

section

variable {σ σ₁ σ₂ : Sys} {tr tr' : List (Request × Nat)} {h : Head} {c : Call}

/-- A client's store leaves the layout alone. -/
theorem step_write_layout (hwrite : c.op.IsWrite) (hs : σ₁.step t c = some σ₂) :
    σ₂.world.layout = σ₁.world.layout := by
  obtain ⟨op, sys⟩ := c
  cases op with
  | write p bytes =>
    cases hs
    rfl
  | _ => exact hwrite.elim

/-- A frame keeps the invariant. -/
theorem Frame.inv (hf : Frame t σ tr σ₁) (hinv : Inv t σ) : Inv t σ₁ := by
  induction hf with
  | nil => exact hinv
  | call _ hlegal _ hexec ih => exact (exec_effect ih hlegal hexec).inv ih
  | write _ hlegal _ hs ih =>
    obtain ⟨r, -, heff⟩ := step_effect ih hlegal hs
    exact heff.inv ih

/-- **A frame on its tape.** It is answered as the tape answers that has the pages
the frame ends with. -/
theorem Frame.played (hf : Frame t σ tr σ₁) (hinv : Inv t σ) (hstart : AtStart σ.world)
    (hreg : ∀ x ∈ tr, x.1.Regular σ.world.pageSize) :
    σ₁.world.pageSize = σ.world.pageSize ∧
    ∃ h, Played σ₁.world.pages σ.world.pageSize tr h ∧ OnTape σ₁.world h := by
  induction hf with
  | nil => exact ⟨rfl, _, .nil, hstart⟩
  | @call tr σ₁ c q p s hf hlegal hq hexec ih =>
    obtain ⟨hsize, h, hplayed, hon⟩ := ih fun x hx => hreg x (List.mem_append_left _ hx)
    have hregq : q.Regular σ₁.world.pageSize := by
      rw [hsize]
      exact hreg (q, p) (by simp)
    obtain ⟨hpages, hsize', h', hserve, hon'⟩ :=
      exec_onTape hon (hf.inv hinv) hlegal hq hregq hexec
    rw [Sys.record_world]
    rw [hsize', hsize] at hserve
    exact ⟨hsize'.trans hsize, h', (hplayed.mono hpages).snoc hserve, hon'⟩
  | write _ _ hwrite hs ih =>
    obtain ⟨hsize, h, hplayed, hon⟩ := ih hreg
    have harena := congrArg Prod.fst (step_write_layout hwrite hs)
    refine ⟨?_, h, ?_, hon.congr harena⟩
    · exact (congrArg MulleArena.pageSize harena).trans hsize
    · exact (congrArg MulleArena.pages harena).symm ▸ hplayed

/-- What a frame that stays on its tape keeps. -/
structure Replaying (σ σ₁ : Sys) (tr : List (Request × Nat)) : Prop where
  pages : σ₁.world.pages = σ.world.pages
  pageSize : σ₁.world.pageSize = σ.world.pageSize
  obtained : obtainedPages σ₁.world.log = obtainedPages σ.world.log
  played : ∃ h, Played σ.world.pages σ.world.pageSize tr h ∧ OnTape σ₁.world h

/-- **A frame on a tape that is long enough** stays on it. -/
theorem Frame.replaying (hf : Frame t σ tr' σ₁) (hinv : Inv t σ) (hstart : AtStart σ.world)
    (htape : Played σ.world.pages σ.world.pageSize tr h)
    (hreg : ∀ x ∈ tr, x.1.Regular σ.world.pageSize)
    (hasked : tr'.map Prod.fst <+: tr.map Prod.fst) : Replaying σ σ₁ tr' := by
  induction hf with
  | nil => exact ⟨rfl, rfl, rfl, _, .nil, hstart⟩
  | @call tr' σ₁ c q p s hf hlegal hq hexec ih =>
    rw [List.map_append, List.map_singleton] at hasked
    obtain ⟨hpages, hsize, hobtained, h₁, hplayed, hon⟩ :=
      ih ((List.prefix_append _ _).trans hasked)
    obtain ⟨p', h₂, hserve, -⟩ := htape.next hplayed hasked
    have hregq : q.Regular σ₁.world.pageSize := by
      rw [hsize]
      obtain ⟨x, hx, rfl⟩ := List.mem_map.mp
        (hasked.subset (List.mem_append_right _ (List.mem_singleton_self q)))
      exact hreg x hx
    have hsize' := (exec_onTape hon (hf.inv hinv) hlegal hq hregq hexec).2.1
    rw [← hpages, ← hsize] at hserve
    obtain ⟨s', hexec', hon', hpages', hobtained'⟩ :=
      exec_of_serve hon (hf.inv hinv) hlegal hq hregq hserve
    rw [hexec] at hexec'
    cases hexec'
    rw [hpages, hsize] at hserve
    refine ⟨?_, ?_, ?_, h₂, hplayed.snoc hserve, ?_⟩ <;> rw [Sys.record_world]
    · exact hpages'.trans hpages
    · exact hsize'.trans hsize
    · exact hobtained'.trans hobtained
    · exact hon'
  | write _ _ hwrite hs ih =>
    obtain ⟨hpages, hsize, hobtained, h₁, hplayed, hon⟩ := ih hasked
    have hlayout := step_write_layout hwrite hs
    have harena := congrArg Prod.fst hlayout
    exact ⟨(congrArg MulleArena.pages harena).trans hpages,
      (congrArg MulleArena.pageSize harena).trans hsize,
      (congrArg Prod.snd hlayout).trans hobtained, h₁, hplayed, hon.congr harena⟩

end

/-! ## Frame after frame -/

/-- Frames, each after a reset that kept all pages. -/
inductive Frames (t : Target) (σ : Sys) : List (List (Request × Nat)) → Sys → Prop
  | nil : Frames t σ [] σ
  | snoc {trs : List (List (Request × Nat))} {tr : List (Request × Nat)} {σ₁ σ₂ σ₃ : Sys} {c : Call} :
      Frames t σ trs σ₁ → Legal t σ₁ c → c.op.IsReset → σ₁.step t c = some σ₂ →
      σ₂.world.pages = σ₁.world.pages → Frame t σ₂ tr σ₃ → Frames t σ (trs ++ [tr]) σ₃

section

variable {σ σ₁ σ₂ : Sys} {tr : List (Request × Nat)} {trs : List (List (Request × Nat))} {c : Call}

/-- A reset that keeps all pages rewinds the tape. -/
theorem resetKeepPages_atStart {keepCount : Nat} {s : World} (hinv : PageInv t s)
    (hlast : s.pages = [] → s.last = 0)
    (hkept : (resetKeepPages t keepCount s).pages = s.pages) :
    AtStart (resetKeepPages t keepCount s) := by
  have hreset := resetKeepPages_reset keepCount hinv
  by_cases hnil : s.pages = []
  · rw [hreset.empty hnil]
    exact ⟨hlast hnil, fun _ => rfl, fun hne => absurd hnil hne⟩
  · rw [resetKeepPages_eq, if_neg hnil] at hkept ⊢
    dsimp only at hkept ⊢
    have hzero : keepCount ≠ 0 := by
      intro hzero
      subst hzero
      exact hnil hkept.symm
    obtain ⟨base, more, hpages⟩ := List.exists_cons_of_ne_nil hnil
    have hbase : s.pages[0]? = some base := by
      rw [hpages]
      rfl
    have hlt := (hinv.page_lt hbase).2
    rw [hkept, hpages, if_neg hzero, List.getD_cons_zero, Target.add_eq hlt]
    exact ⟨rfl, fun h => absurd h (List.cons_ne_nil _ _), fun _ =>
      ⟨base, rfl, rfl, rfl, rfl, Or.inl rfl⟩⟩

/-- Without pages nothing has been placed. -/
theorem Inv.last_of_nil (hinv : Inv t σ) (hnil : σ.world.pages = []) : σ.world.last = 0 := by
  by_contra hne
  obtain ⟨b, l, hlive, -⟩ := hinv.stacked.top hne
  exact hinv.pages_ne_nil (hlive ▸ List.mem_cons_self) hnil

/-- A reset that keeps all pages, as a step. -/
theorem step_reset (hinv : Inv t σ₁) (hreset : c.op.IsReset) (hs : σ₁.step t c = some σ₂)
    (hkept : σ₂.world.pages = σ₁.world.pages) :
    AtStart σ₂.world ∧ σ₂.world.pageSize = σ₁.world.pageSize ∧
    obtainedPages σ₂.world.log = obtainedPages σ₁.world.log := by
  obtain ⟨r, hexec, rfl⟩ := Option.map_eq_some_iff.mp hs
  obtain ⟨keepCount, hkeep⟩ := exec_reset (t := t) hreset c.sys σ₁.world
  cases (hkeep σ₁.world.mem).symm.trans hexec
  rw [Sys.record_world] at hkept ⊢
  have hwas := resetKeepPages_reset keepCount hinv.pages
  exact ⟨resetKeepPages_atStart hinv.pages hinv.last_of_nil hkept, hwas.pageSize, hwas.obtained⟩

/-- What frames like the first one, which ended in `σ₁`, have done by `σ₂`. -/
structure Steady (t : Target) (σ₁ : Sys) (tr : List (Request × Nat))
    (trs : List (List (Request × Nat))) (σ₂ : Sys) : Prop where
  /-- Every one of them got the same pointers. -/
  same : ∀ tr' ∈ trs, tr' <+: tr
  pages : σ₂.world.pages = σ₁.world.pages
  /-- Nothing was obtained from the default allocator. -/
  obtained : obtainedPages σ₂.world.log = obtainedPages σ₁.world.log
  /-- Nothing needs to be: the next request of the last one is answered, whatever
  the default allocator has left. -/
  serves : ∀ tr' ∈ trs.getLast?, ∀ c q, Legal t σ₂ c → c.op.asks t σ₂.world.mem = some q →
    tr'.map Prod.fst ++ [q] <+: tr.map Prod.fst → (exec t c.sys c.op σ₂.world).isSome

/-- What the frames keep, on their way. -/
structure Cycling (t : Target) (σ₁ : Sys) (size : Nat) (trs : List (List (Request × Nat)))
    (σ₂ : Sys) : Prop where
  inv : Inv t σ₂
  pages : σ₂.world.pages = σ₁.world.pages
  pageSize : σ₂.world.pageSize = size
  obtained : obtainedPages σ₂.world.log = obtainedPages σ₁.world.log
  played : ∀ tr ∈ trs, ∃ h, Played σ₁.world.pages size tr h
  last : ∀ tr ∈ trs.getLast?, ∃ h, Played σ₁.world.pages size tr h ∧ OnTape σ₂.world h

variable {pageSize : Nat} {h : Head}

theorem Frames.cycling (hf : Frames t σ₁ trs σ₂) (hinv : Inv t σ₁)
    (hsize : σ₁.world.pageSize = pageSize) (htape : Played σ₁.world.pages pageSize tr h)
    (hreg : ∀ x ∈ tr, x.1.Regular pageSize)
    (hasked : ∀ tr' ∈ trs, tr'.map Prod.fst <+: tr.map Prod.fst) :
    Cycling t σ₁ pageSize trs σ₂ := by
  induction hf with
  | nil =>
    exact ⟨hinv, rfl, hsize, rfl, fun _ hm => absurd hm List.not_mem_nil,
      fun _ hm => absurd hm (Option.not_mem_none _)⟩
  | @snoc trs tr' σ₂ σ₃ σ₄ c _ hlegal hreset hs hkept hframe ih =>
    have hcyc := ih fun tr' hm => hasked tr' (List.mem_append_left _ hm)
    obtain ⟨r, -, heff⟩ := step_effect hcyc.inv hlegal hs
    have hinv₃ := heff.inv hcyc.inv
    obtain ⟨hstart, hsize₃, hobtained₃⟩ := step_reset hcyc.inv hreset hs hkept
    have hpages₃ := hkept.trans hcyc.pages
    have hsize₃' := hsize₃.trans hcyc.pageSize
    have htape₃ : Played σ₃.world.pages σ₃.world.pageSize tr h := by
      rw [hpages₃, hsize₃']
      exact htape
    have hrep := hframe.replaying hinv₃ hstart htape₃ (by rw [hsize₃']; exact hreg)
      (hasked tr' (by simp))
    obtain ⟨h', hplayed, hon⟩ := hrep.played
    rw [hpages₃, hsize₃'] at hplayed
    refine ⟨hframe.inv hinv₃, hrep.pages.trans hpages₃, hrep.pageSize.trans hsize₃',
      (hrep.obtained.trans hobtained₃).trans hcyc.obtained, ?_, ?_⟩
    · intro tr'' hm
      rcases List.mem_append.mp hm with hm | hm
      · exact hcyc.played tr'' hm
      · exact List.mem_singleton.mp hm ▸ ⟨h', hplayed⟩
    · intro tr'' hm
      rw [List.getLast?_concat] at hm
      cases hm
      exact ⟨h', hplayed, hon⟩

variable {mem : Mem} {l : List Call}

/-- **A steady state.** However the arena came to be at the start of a frame: after
a frame of direct calls that fit a page, and any number of resets that keep all
pages, each followed by a frame that asks for the same as the first one or less,
all frames have got the same pointers, and no page was obtained after the first
one; none of them can fail. -/
theorem frames_steady (hrun : Reach (Sys.step t) (Legal t) (Sys.start pageSize mem) l σ)
    (hstart : AtStart σ.world) (hfirst : Frame t σ tr σ₁)
    (hreg : ∀ x ∈ tr, x.1.Regular σ.world.pageSize) (hframes : Frames t σ₁ trs σ₂)
    (hasked : ∀ tr' ∈ trs, tr'.map Prod.fst <+: tr.map Prod.fst) : Steady t σ₁ tr trs σ₂ := by
  have hinv := reach_inv (fun hc => hc) hrun
  obtain ⟨hsize, h, htape, -⟩ := hfirst.played hinv hstart hreg
  have hcyc := hframes.cycling (hfirst.inv hinv) hsize htape hreg hasked
  refine ⟨?_, hcyc.pages, hcyc.obtained, ?_⟩
  · intro tr' hm
    obtain ⟨h', hplayed⟩ := hcyc.played tr' hm
    exact htape.prefix_of_asked hplayed (hasked tr' hm)
  · intro tr' hm c q hlegal hq hnext
    obtain ⟨h', hplayed, hon⟩ := hcyc.last tr' hm
    obtain ⟨p, h'', hserve, -⟩ := htape.next hplayed hnext
    have hregq : q.Regular σ₂.world.pageSize := by
      rw [hcyc.pageSize]
      obtain ⟨x, hx, rfl⟩ := List.mem_map.mp
        (hnext.subset (List.mem_append_right _ (List.mem_singleton_self q)))
      exact hreg x hx
    rw [← hcyc.pages, ← hcyc.pageSize] at hserve
    obtain ⟨s, hexec, -⟩ := exec_of_serve hon hcyc.inv hlegal hq hregq hserve
    rw [hexec]
    rfl

end

/-! ## Frames, computed -/

/-- A line of a frame: a direct call is noted, a store is not. -/
def frameStep (t : Target) (x : List (Request × Nat) × Sys) (y : Line) :
    Option (List (Request × Nat) × Sys) :=
  match y.op.asks t x.2.world.mem, exec t y.call.sys y.op x.2.world with
  | some q, some (some p, s) => some (x.1 ++ [(q, p)], x.2.record t y.op (some p, s))
  | none, some r => some (x.1, x.2.record t y.op r)
  | _, _ => none

/-- A line that a frame may have. -/
def FrameOk (t : Target) (x : List (Request × Nat) × Sys) (y : Line) : Prop :=
  Line.Ok t x.2 y ∧ (y.op.asks t x.2.world.mem = none → y.op.IsWrite)

instance (x : List (Request × Nat) × Sys) (y : Line) : Decidable (FrameOk t x y) :=
  inferInstanceAs (Decidable (_ ∧ _))

/-- What the lines `l` add to a frame. -/
theorem Frame.of_script {σ : Sys} {x x' : List (Request × Nat) × Sys} {l : List Line}
    (hf : Frame t σ x.1 x.2) (hok : OkAlong (frameStep t) (FrameOk t) x l)
    (hrun : runCalls (frameStep t) x l = some x') : Frame t σ x'.1 x'.2 := by
  induction l generalizing x with
  | nil =>
    cases hrun
    exact hf
  | cons y l ih =>
    obtain ⟨x₁, hstep, hrest⟩ := Option.bind_eq_some_iff.mp hrun
    refine ih ?_ (hok.2 x₁ hstep) hrest
    have hlegal := Line.legal x.2 y hok.1.1
    unfold frameStep at hstep
    split at hstep
    next q p s hq hexec =>
      cases hstep
      exact hf.call hlegal hq hexec
    next r hq hexec =>
      cases hstep
      have hs : x.2.step t y.call = some (x.2.record t y.op r) := congrArg _ hexec
      exact hf.write hlegal (hok.1.2 hq) hs
    next => cases hstep

/-- Two pages full of requests, and stores. -/
def frameScript : List Line :=
  [⟨.alloc 10 4, [(64, 0x1000)]⟩, ⟨.memdup 0x20 40, []⟩, ⟨.write 0x1000 [1, 2, 3], []⟩,
    ⟨.alloc 30 8, [(64, 0x2000)]⟩, ⟨.realloc 0x2000 30 34 8, []⟩]

/-- The same requests by other calls, without a default allocator. -/
def frameScript' : List Line :=
  [⟨.calloc 10 4, []⟩, ⟨.alloc 40 1, []⟩, ⟨.write 0x100A [7], []⟩, ⟨.calloc 30 8, []⟩,
    ⟨.realloc 0x2000 30 34 8, []⟩]

/-- The end of a frame, computed. -/
def frameEnd (t : Target) (σ : Sys) (l : List Line) : List (Request × Nat) × Sys :=
  runEnd (frameStep t) ([], σ) l

theorem frame_of_script {σ : Sys} {l : List Line}
    (h : OkAlong (frameStep t) (FrameOk t) ([], σ) l ∧ (runCalls (frameStep t) ([], σ) l).isSome) :
    Frame t σ (frameEnd t σ l).1 (frameEnd t σ l).2 := by
  obtain ⟨x, hx⟩ := Option.isSome_iff_exists.mp h.2
  have hend : frameEnd t σ l = x := by
    show (runCalls _ _ _).getD _ = x
    rw [hx]
    rfl
  rw [hend]
  exact Frame.of_script (x := ([], σ)) .nil h.1 hx

theorem frames_steady_twice :
    let first := frameEnd (x64 true) (Sys.start 64 fun _ => 0) frameScript
    let reset := scriptFrom (x64 true) first.2 [⟨.resetKeepPages 2, []⟩]
    let second := frameEnd (x64 true) reset frameScript'
    Steady (x64 true) first.2 first.1 [second.1] second.2 ∧
      second.1.map Prod.snd = [0x1000, 0x100A, 0x2000, 0x2000] := by
  intro first reset second
  have hfirst : Frame (x64 true) (Sys.start 64 fun _ => 0) first.1 first.2 :=
    frame_of_script (by decide +kernel)
  have hsecond : Frame (x64 true) reset second.1 second.2 := frame_of_script (by decide +kernel)
  have hframes : Frames (x64 true) first.2 ([] ++ [second.1]) second.2 :=
    .snoc (c := (⟨.resetKeepPages 2, []⟩ : Line).call) .nil
      (Line.legal first.2 ⟨.resetKeepPages 2, []⟩ (by decide +kernel)) trivial rfl
      (by decide +kernel) hsecond
  refine ⟨frames_steady .nil (atStart_init 64 _) hfirst (by decide +kernel) hframes
    (by decide +kernel), by decide +kernel⟩

end MulleStorage.Arena
