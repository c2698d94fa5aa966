import MulleStorage.Arena.Effect
import MulleStorage.Arena.Script

/-!
# The direct calls

For a direct block the edge is the end of the payload, so the stack of blocks is
a stack of disjoint payloads. Everything a client of the direct calls expects
follows for every run of them, across resets and partly kept pages:

> `direct_safe`: live blocks are disjoint and lie in pages the arena holds, a
> call leaves all blocks alone but the one it returns, and that one holds what
> the call promises (`Delivers`).
-/

namespace MulleStorage.Arena

open MulleStorage.Lib

variable {t : Target}

/-- What a direct call promises about the block `p` it returns; `m'` is memory
after the call. -/
def Delivers (t : Target) (σ : Sys) (p : Nat) (m' : Mem) : Op → Prop
  | .calloc size _ => ∀ i, i < size → m' (p + i) = 0
  | .memdup src size => ∀ i, i < size → m' (p + i) = σ.world.mem (src + i)
  | .strdup str =>
    ∀ len, strlen σ.world.mem str t.modulus = some len →
      ∀ i, i ≤ len → m' (p + i) = σ.world.mem (str + i)
  | .realloc block oldSize newSize _ =>
    block ≠ 0 → ∀ i, i < min oldSize newSize → m' (p + i) = σ.world.mem (block + i)
  | _ => True

/-! ## Contents -/

/-- Placing a direct block writes nothing. -/
theorem Allocated.mem_old {sys : Nat → Option Nat} {size p : Nat} {s s' : World}
    (h : Allocated t sys .direct size p s s') {a : Nat} (ha : Old sys a) : s'.mem a = s.mem a := by
  have hstart := h.start
  simp only [Api.header] at hstart
  exact h.mem a ha (by omega)

/-- Readable memory is not part of a page about to be obtained. -/
theorem Readable.old {σ : Sys} {sys : Nat → Option Nat} {src n : Nat} (hinv : Inv t σ)
    (hsys : SysOk t σ.world sys) (h : Readable σ sys src n) {i : Nat} (hi : i < n) :
    Old sys (src + i) := by
  rcases h with ⟨b, hb, hle, hend⟩ | ⟨-, hfresh⟩
  · have hstart : b.start t ≤ b.ptr := Nat.sub_le _ _
    simp only [Block.payload] at hle hend
    exact hinv.old hsys hb (by omega) (by unfold Block.stop; omega)
  · intro k p hp
    exact (hfresh k p hp).not_has ⟨Nat.le_add_right _ _, Nat.add_lt_add_left hi _⟩

/-- What a newly carved block holds. -/
theorem fill_delivers {σ : Sys} {c : Call} {p : Nat} {s₁ : World} (hinv : Inv t σ)
    (hlegal : Legal t σ c) (hsources : Sources t σ c)
    (halloc : Allocated t c.sys .direct (c.op.size t σ.world.mem) p (c.op.probe t σ.world) s₁) :
    Delivers t σ p (c.op.fill t σ.world.mem p s₁).mem c.op := by
  obtain ⟨op, sys⟩ := c
  cases op with
  | calloc size alignment =>
    intro i hi
    simp only [Op.fill, World.memset]
    exact blit_at hi
  | memdup src size =>
    intro i hi
    simp only [Op.fill, World.memcpyFrom]
    rw [blit_at hi]
    exact halloc.mem_old (hsources.old hinv hlegal.sys hi)
  | strdup str =>
    intro len hlen i hi
    have hi' : i < ((strlen σ.world.mem str t.modulus).map (· + 1)).getD 0 := by
      rw [hlen]
      exact Nat.lt_succ_of_le hi
    have hold := (hsources len hlen).old hinv hlegal.sys (Nat.lt_succ_of_le hi)
    simp only [Op.fill, World.memcpyFrom]
    rw [blit_at hi']
    exact halloc.mem_old hold
  | realloc block oldSize newSize alignment =>
    intro hz i hi
    obtain ⟨b, hb, his, hsize⟩ := hlegal.proper.1.resolve_left hz
    have hstart : b.start t ≤ b.ptr := Nat.sub_le _ _
    have hptr := his.2
    have hold : Old sys (block + i) :=
      hinv.old hlegal.sys hb (by omega) (by unfold Block.stop; omega)
    simp only [Op.fill, if_neg hz, World.memcpy]
    rw [blit_at (by split <;> omega)]
    exact halloc.mem_old hold
  | _ => trivial

/-- A direct block resized in place: memory is as it was. -/
theorem Extended.mem_eq {size p : Nat} {s s' : World} (h : Extended t .direct size p s s')
    (a : Nat) : s'.mem a = s.mem a := by
  have hstart := h.start
  simp only [Api.header] at hstart
  exact h.mem a (by omega)

theorem Effect.delivers {c : Call} {σ σ' : Sys} {p : Nat} (heff : Effect t c σ (some p) σ')
    (hinv : Inv t σ) (hlegal : Legal t σ c) (hsources : Sources t σ c) (hop : ¬ c.op.IsVtable) :
    Delivers t σ p σ'.world.mem c.op := by
  have hapi := Op.api_eq_direct hop
  cases heff with
  | carved _ _ _ halloc =>
    rw [hapi] at halloc
    exact fill_delivers hinv hlegal hsources halloc
  | @extended b l s hlive hpage his hplace hsize hext =>
    have hptr := his.2
    rw [his.1.trans hapi] at hext
    generalize c.op = op at hplace hptr ⊢
    cases op with
    | realloc block oldSize newSize alignment =>
      intro _ i _
      rw [hptr]
      exact hext.mem_eq _
    | reallocarrayV => trivial
    | _ => exact hplace.elim

/-! ## Separation -/

/-- Live direct blocks are stacked payload on payload. -/
theorem Inv.direct_disjoint {σ : Sys} (h : Inv t σ) (hdirect : ∀ b ∈ σ.live, b.api = .direct) :
    σ.live.Pairwise fun b d => b.payload.Disjoint d.payload := by
  refine (List.Pairwise.and_mem.mp h.stacked.order).imp ?_
  rintro b d ⟨hb, hd, hafter⟩
  have hbs : b.start t = b.ptr := by unfold Block.start; rw [hdirect b hb]; rfl
  have hds : d.start t = d.ptr := by unfold Block.start; rw [hdirect d hd]; rfl
  have hde : d.edge t = d.stop := by unfold Block.edge; rw [hdirect d hd]; rfl
  show b.stop ≤ d.ptr ∨ d.stop ≤ b.ptr
  -- a direct block ends at its edge
  rcases hafter with hpage | ⟨-, hedge⟩
  · have := h.apart_of_page_ne hb hd (Nat.ne_of_gt hpage)
    omega
  · exact Or.inr (hde ▸ hbs ▸ hedge)

/-- **Frame.** A direct call leaves the blocks alone that it does not return. -/
theorem Effect.direct_frame {c : Call} {σ σ' : Sys} {r : Option Nat} (heff : Effect t c σ r σ')
    (hinv : Inv t σ) (hsys : SysOk t σ.world c.sys) (hop : ¬ c.op.IsVtable) (hw : ¬ c.op.IsWrite)
    (hdirect : ∀ b ∈ σ'.live, b.api = .direct) {b : Block} (hb : b ∈ σ.live) (hb' : b ∈ σ'.live)
    (hr : r ≠ some b.ptr) {a : Nat} (ha : b.payload.Has a) : σ'.world.mem a = σ.world.mem a := by
  have hinv' := heff.inv hinv
  have hapi := Op.api_eq_direct hop
  cases heff with
  | @carved p s₁ hsize hold hmoved halloc =>
    -- the call writes inside the new block, which is apart from `b`
    have hpair := List.pairwise_cons.mp (hinv'.direct_disjoint hdirect)
    have hbl := (List.mem_cons.mp hb').resolve_left fun heq => hr (heq ▸ rfl)
    have hnot := (hpair.1 b hbl).symm.not_has ha
    have hstart : b.start t ≤ b.ptr := Nat.sub_le _ _
    have hlast := halloc.start
    rw [hapi] at hlast
    simp only [Block.payload, Region.Has, Api.header] at ha hnot hlast
    refine halloc.of_probe.fill.mem a (hinv.old hsys hb (by omega) (by unfold Block.stop; omega)) ?_
    rw [Op.fill_arena]
    omega
  | @extended d l s hlive hpage his hplace hsize hext =>
    rw [his.1.trans hapi] at hext
    exact hext.mem_eq a
  | rewound hfree => exact absurd (hfree ▸ trivial) hop
  | abandoned hfree => rfl
  | reset => exact absurd hb' List.not_mem_nil
  | written hwrite => exact absurd (hwrite ▸ trivial) hw

/-! ## Runs -/

variable {pageSize : Nat} {mem : Mem} {l : List Call} {σ : Sys}

theorem Effect.all_direct {c : Call} {σ' : Sys} {r : Option Nat} (heff : Effect t c σ r σ')
    (hop : ¬ c.op.IsVtable) (h : ∀ b ∈ σ.live, b.api = .direct) :
    ∀ b ∈ σ'.live, b.api = .direct := by
  intro b hb
  rcases heff.mem_live hb with ⟨d, hd, hapi, -⟩ | ⟨-, hapi, -⟩
  · exact hapi ▸ h d hd
  · exact hapi.trans (Op.api_eq_direct hop)

/-- **Safety of the direct calls.** -/
theorem direct_safe
    (h : Reach (Sys.step t) (fun σ c => Legal t σ c ∧ ¬ c.op.IsVtable)
      (Sys.start pageSize mem) l σ) :
    (σ.live.Pairwise fun b d => b.payload.Disjoint d.payload) ∧
    (∀ b ∈ σ.live, ∃ r ∈ held σ.world.log, r.base ∈ σ.world.pages ∧ r.Covers b.ptr b.size) ∧
    ∀ c r s, Legal t σ c → ¬ c.op.IsVtable → exec t c.sys c.op σ.world = some (r, s) →
      (¬ c.op.IsWrite → ∀ b ∈ σ.live, b ∈ (σ.record t c.op (r, s)).live → r ≠ some b.ptr →
        ∀ a, b.payload.Has a → s.mem a = σ.world.mem a) ∧
      (Sources t σ c → ∀ p, r = some p → Delivers t σ p s.mem c.op) := by
  obtain ⟨hinv, hdirect⟩ := reach_inv_and (X := fun σ => ∀ b ∈ σ.live, b.api = .direct) And.left
    nofun (fun _ hc heff => heff.all_direct hc.2) h
  refine ⟨hinv.direct_disjoint hdirect, ?_, fun c r s hlegal hop hexec => ⟨?_, ?_⟩⟩
  · intro b hb
    obtain ⟨q, hq, hbase, hstop⟩ := hinv.held_block hb
    have hstart : b.start t ≤ b.ptr := Nat.sub_le _ _
    exact ⟨q, hq, hinv.pages.pages ▸ List.mem_map_of_mem hq, by omega, hstop⟩
  · intro hw b hb hb' hr a ha
    have heff := exec_effect hinv hlegal hexec
    have hdirect' := heff.all_direct hop hdirect
    have hframe := heff.direct_frame hinv hlegal.sys hop hw hdirect' hb hb' hr ha
    rwa [Sys.record_world] at hframe
  · rintro hsources p rfl
    have hdel := (exec_effect hinv hlegal hexec).delivers hinv hlegal hsources hop
    rwa [Sys.record_world] at hdel

/-- A block moved, a reset that keeps its page, and a copy on that page. -/
def directScript : List Line :=
  [⟨.alloc 10 4, [(64, 0x1000)]⟩, ⟨.calloc 8 8, []⟩, ⟨.realloc 0x1000 10 20 4, []⟩,
    ⟨.resetKeepPages 1, []⟩, ⟨.memdup 0x20 5, []⟩, ⟨.alloc 3 1, []⟩]

theorem direct_safe_moved :
    let σ := scriptEnd (x64 false) 64 (fun _ => 0) directScript
    (σ.live.Pairwise fun b d => b.payload.Disjoint d.payload) ∧
    (∀ b ∈ σ.live, ∃ r ∈ held σ.world.log, r.base ∈ σ.world.pages ∧ r.Covers b.ptr b.size) ∧
    ∀ c r s, Legal (x64 false) σ c → ¬ c.op.IsVtable →
      exec (x64 false) c.sys c.op σ.world = some (r, s) →
      (¬ c.op.IsWrite → ∀ b ∈ σ.live, b ∈ (σ.record (x64 false) c.op (r, s)).live →
        r ≠ some b.ptr → ∀ a, b.payload.Has a → s.mem a = σ.world.mem a) ∧
      (Sources (x64 false) σ c → ∀ p, r = some p → Delivers (x64 false) σ p s.mem c.op) :=
  direct_safe (reach_of_legal (l := directScript) (by decide +kernel))

end MulleStorage.Arena
