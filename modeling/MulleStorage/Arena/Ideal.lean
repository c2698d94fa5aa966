import MulleStorage.Arena.Confined
import MulleStorage.Arena.Direct
import MulleStorage.Arena.Header
import MulleStorage.Lib.Nodes

/-!
# The heap a client believes in

A client of an arena thinks of blocks that are its own: each holds what the call
promised that handed it out, then what the client stored, and a block that moves
takes its bytes along. That is a log of labels (`Lib/Nodes.lean`), one or two for
each call (`Op.labels`), and it mentions the arena nowhere but in the addresses
of blocks and in the bytes that no call promises.

`Client` keeps that log next to the arena. An arena that is used by the direct
calls, or through its vtable with care (`Fair`), is such a heap:

> `Ideal.step`: whatever the call, the blocks the client believes in are the live
> ones, and memory holds what it believes.

`Ideal.withMem` is the other half: only bytes in pages of the arena matter.
-/

namespace MulleStorage.Arena

open MulleStorage.Lib

variable {t : Target}

/-! ## What a call means to its client -/

/-- A block moved to `p`, of which `m` is the new memory: its old bytes, as many as fit,
and whatever is behind them. -/
def moved (old : Option (List UInt8)) (size : Nat) (m : Mem) (p : Nat) : List UInt8 :=
  let first := (old.getD []).take size
  first ++ bytesAt m (p + first.length) (size - first.length)

/-- What the block at `p` holds that a call hands out. `old` are the blocks as
the client knows them, `m` and `m'` is memory before and after. -/
def Op.content (t : Target) (old : Nat → Option (List UInt8)) (m m' : Mem) (p : Nat) :
    Op → List UInt8
  | .calloc size _ => List.replicate size 0
  | .callocV n size => List.replicate (n * size) 0
  | .memdup src size => bytesAt m src size
  | .strdup str => bytesAt m str (((strlen m str t.modulus).map (· + 1)).getD 0)
  | .realloc block _ size _ => moved (old block) size m' p
  | .reallocarrayV block n size => moved (old block) (n * size) m' p
  | op => bytesAt m' p (op.size t m)

/-- What a call that returned `r` is to its client, newest first; `m'` is memory
afterwards. -/
def Op.labels (t : Target) (σ : Sys) (old : Nat → Option (List UInt8)) (op : Op) (r : Option Nat)
    (m' : Mem) : List (Label Nat) :=
  match r with
  | some p =>
    .took p (op.content t old σ.world.mem m' p) :: if op.block = 0 then [] else [.gave op.block]
  | none =>
    match op with
    | .freeV block => [.gave block]
    | .reset | .resetKeepPages _ | .resetKeepPercentage _ => (σ.live.map Block.ptr).map .gave
    | .write q bytes =>
      ((σ.live.find? fun b => b.payload.Covers q bytes.length).map fun b =>
        Label.wrote b.ptr (q - b.ptr) bytes).toList
    | _ => []

/-- An arena, and the log of what it is to its client. -/
structure Client where
  sys : Sys
  labels : List (Label Nat)

namespace Client

/-- One call. -/
def step (t : Target) (x : Client) (c : Call) : Option Client :=
  (exec t c.sys c.op x.sys.world).map fun r =>
    ⟨x.sys.record t c.op r, c.op.labels t x.sys (replay x.labels) r.1 r.2.mem ++ x.labels⟩

def start (pageSize : Nat) (mem : Mem) : Client := ⟨Sys.start pageSize mem, []⟩

/-- What the live block at `p` holds; `none` for everything else. -/
def contents (x : Client) (p : Nat) : Option (List UInt8) :=
  (x.sys.live.find? fun b => b.ptr = p).map fun b => bytesAt x.sys.world.mem p b.size

end Client

/-! ## Orderly use -/

/-- A client that uses one API, and that one as its blocks need it: of the direct
calls it is asked that they copy from readable memory, and of those of the vtable
what `reallocarray_keeps` asks. -/
def Fair (t : Target) (σ : Sys) (c : Call) : Api → Prop
  | .direct => ¬ c.op.IsVtable ∧ Sources t σ c
  | .vtable => SysAligned t c.sys ∧ ¬ c.op.IsDirect ∧ ¬ c.op.IsReset ∧ MoveOk t σ c.op

/-- What such a client keeps of its arena. -/
def Orderly (t : Target) (σ : Sys) : Api → Prop
  | .direct => ∀ b ∈ σ.live, b.api = .direct
  | .vtable => VtableInv t σ ∧ Laid t σ ∧ Headers t σ

namespace Orderly

variable {σ : Sys} {api : Api}

theorem start (t : Target) (pageSize : Nat) (mem : Mem) : Orderly t (Sys.start pageSize mem) api := by
  cases api with
  | direct => exact fun _ hb => absurd hb List.not_mem_nil
  | vtable =>
    exact ⟨VtableInv.start t pageSize mem, Laid.start t pageSize mem,
      fun _ hb => absurd hb List.not_mem_nil⟩

theorem api_eq (h : Orderly t σ api) : ∀ b ∈ σ.live, b.api = api := by
  cases api with
  | direct => exact h
  | vtable => exact h.1.vtable

theorem disjoint (h : Orderly t σ api) (hinv : Inv t σ) :
    σ.live.Pairwise fun b d => b.payload.Disjoint d.payload := by
  cases api with
  | direct => exact hinv.direct_disjoint h
  | vtable => exact h.2.1.1

/-- An address names one block at most. -/
theorem eq_of_ptr (h : Orderly t σ api) (hinv : Inv t σ) {b d : Block} (hb : b ∈ σ.live)
    (hd : d ∈ σ.live) (hptr : d.ptr = b.ptr) : d = b :=
  hinv.eq_of_is hb hd ⟨(h.api_eq d hd).trans (h.api_eq b hb).symm, hptr⟩

/-- The blocks are those of one API, so an address is all that names them. -/
theorem is_iff (h : Orderly t σ api) {b : Block} (hb : b ∈ σ.live) (ptr : Nat) :
    b.Is api ptr ↔ b.ptr = ptr := and_iff_right (h.api_eq b hb)

end Orderly

section

variable {σ σ' : Sys} {api : Api} {c : Call} {r : Option Nat}

theorem Fair.api_eq {p : Nat} (hfair : Fair t σ c api) (heff : Effect t c σ (some p) σ') :
    c.op.api = api := by
  cases api with
  | direct => exact Op.api_eq_direct hfair.1
  | vtable => exact heff.api_eq_vtable hfair.2.1

theorem Effect.orderly (heff : Effect t c σ r σ') (hlegal : Legal t σ c) (hfair : Fair t σ c api)
    (h : Orderly t σ api) : Orderly t σ' api := by
  cases api with
  | direct => exact heff.all_direct hfair.1 h
  | vtable =>
    obtain ⟨hinv, hlaid, hheaders⟩ := h
    obtain ⟨hsys, hdirect, hreset, hok⟩ := hfair
    have hinv' := heff.vtableInv hinv hsys hdirect hreset
    have hlaid' := (heff.laid_step hinv hsys hdirect hreset hlaid).mpr hok.1
    exact ⟨hinv', hlaid', heff.headers hinv hinv' hlaid hlaid' hlegal hheaders⟩

/-- **Frame.** Whatever the use, a call leaves the blocks alone that it does not
return. -/
theorem Effect.fair_frame (heff : Effect t c σ r σ') (hinv : Inv t σ) (hlegal : Legal t σ c)
    (hfair : Fair t σ c api) (h : Orderly t σ api) (hw : ¬ c.op.IsWrite) {d : Block}
    (hd : d ∈ σ.live) (hd' : d ∈ σ'.live) (hr : r ≠ some d.ptr) {a : Nat} (ha : d.payload.Has a) :
    σ'.world.mem a = σ.world.mem a := by
  have h' := heff.orderly hlegal hfair h
  cases api with
  | direct => exact heff.direct_frame hinv hlegal.sys hfair.1 hw h' hd hd' hr ha
  | vtable =>
    have hstart : d.start t ≤ d.ptr := Nat.sub_le _ _
    exact heff.span_frame h.1 h'.1 h.2.1 h'.2.1 hlegal.sys hw hd hd' hr
      (Nat.le_trans hstart ha.1) ha.2

/-! ## What a call hands out -/

/-- The addresses of live blocks after a call that hands one out. -/
theorem Effect.handed {p : Nat} (heff : Effect t c σ (some p) σ') (hinv : Inv t σ) (q : Nat) :
    (∃ b ∈ σ'.live, b.ptr = q) ↔
      q = p ∨ ∃ d ∈ σ.live, ¬ d.Is c.op.api c.op.block ∧ d.ptr = q := by
  cases heff with
  | carved =>
    simp only [List.mem_cons, List.mem_filter, decide_eq_true_eq, or_and_right, exists_or,
      exists_eq_left, and_assoc]
    exact or_congr_left eq_comm
  | @extended b l s hlive hpage his hplace hsize hext =>
    rw [hlive]
    simp only [List.mem_cons, or_and_right, exists_or, exists_eq_left]
    have hrest : ∀ d ∈ l, ¬ d.Is c.op.api c.op.block := by
      intro d hd
      rw [← his.1, ← his.2]
      exact hinv.not_is_of_top hlive d hd
    refine or_congr eq_comm ⟨?_, ?_⟩
    · intro hlive
      obtain ⟨d, hd, hq⟩ := hlive
      exact Or.inr ⟨d, hd, hrest d hd, hq⟩
    · intro hcase
      rcases hcase with ⟨hnot, -⟩ | ⟨d, hd, -, hq⟩
      · exact absurd his hnot
      · exact ⟨d, hd, hq⟩

/-- The block a call is given up to, when it is given one. -/
theorem Effect.given_up {p : Nat} (heff : Effect t c σ (some p) σ') :
    c.op.block = 0 ∨ ∃ b ∈ σ.live, b.Is c.op.api c.op.block := by
  cases heff with
  | carved _ hold => exact hold
  | extended hlive _ his => exact Or.inr ⟨_, hlive ▸ List.mem_cons_self, his⟩

/-- `calloc` of the vtable clears what it hands out. -/
theorem Effect.cleared {p n size : Nat} (heff : Effect t c σ (some p) σ')
    (hop : c.op = .callocV n size) {i : Nat} (hi : i < n * size) : σ'.world.mem (p + i) = 0 := by
  obtain ⟨op, sys⟩ := c
  cases hop
  cases heff with
  | carved =>
    dsimp only [Op.fill, World.memset]
    exact blit_at hi
  | extended _ _ _ hplace => exact hplace.elim

/-- A block that starts with the old bytes is the old one, moved. -/
theorem moved_eq {m m' : Mem} {p q n size : Nat}
    (h : ∀ i, i < min n size → m' (p + i) = m (q + i)) :
    moved (some (bytesAt m q n)) size m' p = bytesAt m' p size := by
  have hfirst : bytesAt m q (min size n) = bytesAt m' p (min size n) :=
    (bytesAt_congr fun i hi => h i (by omega)).symm
  unfold moved
  dsimp only [Option.getD_some]
  rw [take_bytesAt, length_bytesAt, hfirst, ← bytesAt_append]
  congr 1
  omega

theorem moved_none (size : Nat) (m : Mem) (p : Nat) : moved none size m p = bytesAt m p size := by
  simp [moved]

/-- **Contents.** A call hands out what it promises: to a client that knows its
blocks, the new one holds what it should. -/
theorem Effect.content {p : Nat} {old : Nat → Option (List UInt8)}
    (heff : Effect t c σ (some p) σ') (hinv : Inv t σ) (hlegal : Legal t σ c)
    (hfair : Fair t σ c api) (h : Orderly t σ api) (hnull : old 0 = none)
    (hold : ∀ b ∈ σ.live, old b.ptr = some (bytesAt σ.world.mem b.ptr b.size)) :
    c.op.content t old σ.world.mem σ'.world.mem p
      = bytesAt σ'.world.mem p (c.op.size t σ.world.mem) := by
  have hapi := hfair.api_eq heff
  -- what a direct call delivers
  have hdel : api = .direct → Delivers t σ p σ'.world.mem c.op := by
    rintro rfl
    exact heff.delivers hinv hlegal hfair.2 hfair.1
  obtain ⟨op, sys⟩ := c
  cases op with
  | calloc size alignment => exact (bytesAt_eq_replicate (hdel hapi.symm)).symm
  | callocV n size => exact (bytesAt_eq_replicate fun i hi => heff.cleared rfl hi).symm
  | memdup src size => exact (bytesAt_congr (hdel hapi.symm)).symm
  | strdup str =>
    refine (bytesAt_congr ?_).symm
    intro i hi
    cases hlen : strlen σ.world.mem str t.modulus with
    | none =>
      rw [hlen] at hi
      exact absurd hi (Nat.not_lt_zero i)
    | some len =>
      rw [hlen] at hi
      exact hdel hapi.symm len hlen i (Nat.le_of_lt_succ hi)
  | realloc block oldSize newSize alignment =>
    show moved (old block) newSize σ'.world.mem p = bytesAt σ'.world.mem p newSize
    by_cases hz : block = 0
    · rw [hz, hnull, moved_none]
    · obtain ⟨b, hb, his, hsize⟩ := hlegal.proper.1.resolve_left hz
      rw [← his.2, hold b hb]
      refine moved_eq ?_
      rw [his.2, hsize]
      exact hdel hapi.symm hz
  | reallocarrayV block n size =>
    show moved (old block) (n * size) σ'.world.mem p = bytesAt σ'.world.mem p (n * size)
    by_cases hz : block = 0
    · rw [hz, hnull, moved_none]
    · cases hapi
      obtain ⟨b, hb, his⟩ := hlegal.proper.1.resolve_left hz
      rw [← his.2, hold b hb]
      exact moved_eq fun i hi => heff.kept h.1 h.2.2 hlegal hfair.2.2.2 rfl hb his hi
  | _ => rfl

end

/-! ## The heap -/

/-- What memory holds of the block at `p`. -/
def Sys.bytes (σ : Sys) (p : Nat) : List UInt8 := ((Client.mk σ []).contents p).getD []

theorem Orderly.bytes_eq {σ : Sys} {api : Api} (h : Orderly t σ api) (hinv : Inv t σ) {b : Block}
    (hb : b ∈ σ.live) : σ.bytes b.ptr = bytesAt σ.world.mem b.ptr b.size := by
  obtain ⟨d, hd⟩ : ∃ d, σ.live.find? (fun d => d.ptr = b.ptr) = some d := by
    rw [← Option.isSome_iff_exists, List.find?_isSome]
    exact ⟨b, hb, decide_eq_true rfl⟩
  have hptr : d.ptr = b.ptr := by
    have := List.find?_some hd
    exact of_decide_eq_true this
  have heq := h.eq_of_ptr hinv hb (List.mem_of_find?_eq_some hd) hptr
  unfold Sys.bytes Client.contents
  rw [hd, heq]
  rfl

/-- The arena and its clients, with other memory. -/
def Sys.withMem (m : Mem) (σ : Sys) : Sys := { σ with world := { σ.world with mem := m } }

/-- The client's log is about the live blocks, and memory is as it says. -/
structure Ideal (x : Client) : Prop where
  tracks : Tracks x.sys.bytes x.labels
  live : ∀ p, p ∈ liveNodes x.labels ↔ ∃ b ∈ x.sys.live, b.ptr = p

namespace Ideal

variable {σ σ' : Sys} {labels : List (Label Nat)} {api : Api} {c : Call} {r : Option Nat}

theorem start (pageSize : Nat) (mem : Mem) : Ideal (Client.start pageSize mem) where
  tracks := .nil
  live p := by simp [Client.start, Sys.start, liveNodes]

/-- What the client knows of its blocks. -/
theorem replay_eq (h : Ideal ⟨σ, labels⟩) (horder : Orderly t σ api) (hinv : Inv t σ) {b : Block}
    (hb : b ∈ σ.live) : replay labels b.ptr = some (bytesAt σ.world.mem b.ptr b.size) := by
  have hmem : b.ptr ∈ liveNodes labels := (h.live b.ptr).mpr ⟨b, hb, rfl⟩
  have htracks := h.tracks.replay_eq b.ptr
  rw [if_pos hmem] at htracks
  rw [htracks]
  exact congrArg some (horder.bytes_eq hinv hb)

/-- It knows nothing of others. -/
theorem replay_none (h : Ideal ⟨σ, labels⟩) {p : Nat} (hp : ∀ b ∈ σ.live, b.ptr ≠ p) :
    replay labels p = none := by
  rw [h.tracks.replay_eq p, if_neg]
  intro hmem
  obtain ⟨b, hb, hptr⟩ := (h.live p).mp hmem
  exact hp b hb hptr

/-- A block given up, or none. -/
theorem giveUp (h : Ideal ⟨σ, labels⟩) (horder : Orderly t σ api) (hinv : Inv t σ) {block : Nat}
    (hold : block = 0 ∨ ∃ b ∈ σ.live, b.Is api block) :
    Tracks σ.bytes ((if block = 0 then [] else [.gave block]) ++ labels) ∧
    ∀ p, p ∈ liveNodes ((if block = 0 then [] else [.gave block]) ++ labels) ↔
      ∃ b ∈ σ.live, ¬ b.Is api block ∧ b.ptr = p := by
  have hiff : ∀ p, (∃ b ∈ σ.live, ¬ b.Is api block ∧ b.ptr = p) ↔
      p ≠ block ∧ ∃ b ∈ σ.live, b.ptr = p := by
    intro p
    constructor
    · intro hlive
      obtain ⟨b, hb, hnot, rfl⟩ := hlive
      exact ⟨fun heq => hnot ((horder.is_iff hb _).mpr heq), b, hb, rfl⟩
    · intro hlive
      obtain ⟨hne, b, hb, rfl⟩ := hlive
      exact ⟨b, hb, fun his => hne his.2, rfl⟩
  by_cases hz : block = 0
  · rw [if_pos hz]
    refine ⟨h.tracks, fun p => ((h.live p).trans ?_).trans (hiff p).symm⟩
    -- no block is at `NULL`
    refine ⟨fun hb => ⟨?_, hb⟩, And.right⟩
    obtain ⟨b, hb, rfl⟩ := hb
    have hpos := ((hinv.placed b hb).bounds hinv.pages).1
    have hstart : b.start t ≤ b.ptr := Nat.sub_le _ _
    omega
  · obtain ⟨b, hb, his⟩ := hold.resolve_left hz
    have hmem : block ∈ liveNodes labels := (h.live block).mpr ⟨b, hb, his.2⟩
    rw [if_neg hz]
    refine ⟨h.tracks.gave hmem fun _ _ _ => rfl, fun p => ?_⟩
    rw [List.singleton_append, liveNodes_gave, h.tracks.lawful.nodup.mem_erase_iff, hiff]
    exact and_congr_right fun _ => h.live p

/-- Blocks live before and after a call keep their bytes, unless it returns them. -/
theorem bytes_keep (heff : Effect t c σ r σ') (hinv : Inv t σ) (hlegal : Legal t σ c)
    (hfair : Fair t σ c api) (horder : Orderly t σ api) (hw : ¬ c.op.IsWrite) {d : Block}
    (hd : d ∈ σ.live) (hd' : d ∈ σ'.live) (hr : r ≠ some d.ptr) :
    σ'.bytes d.ptr = σ.bytes d.ptr := by
  rw [horder.bytes_eq hinv hd, (heff.orderly hlegal hfair horder).bytes_eq (heff.inv hinv) hd']
  refine bytesAt_congr fun i hi => ?_
  exact heff.fair_frame hinv hlegal hfair horder hw hd hd' hr
    ⟨Nat.le_add_right _ _, Nat.add_lt_add_left hi _⟩

/-- **A block is handed out.** -/
theorem handed {p : Nat} (h : Ideal ⟨σ, labels⟩) (heff : Effect t c σ (some p) σ')
    (hinv : Inv t σ) (hlegal : Legal t σ c) (hfair : Fair t σ c api) (horder : Orderly t σ api) :
    Ideal ⟨σ', c.op.labels t σ (replay labels) (some p) σ'.world.mem ++ labels⟩ := by
  have hapi := hfair.api_eq heff
  have hlive := heff.handed hinv
  have hold := heff.given_up
  rw [hapi] at hlive hold
  obtain ⟨htracks, hgone⟩ := h.giveUp horder hinv hold
  obtain ⟨b, hb, his, hsize⟩ := heff.returned
  have hw : ¬ c.op.IsWrite := by
    intro hwrite
    cases hop : c.op with
    | write =>
      have hpos := ((heff.inv hinv).placed b hb).size_pos
      rw [hsize, hop] at hpos
      exact absurd hpos (Nat.lt_irrefl 0)
    | _ =>
      rw [hop] at hwrite
      exact hwrite.elim
  -- the new block is no old one, and the old ones are as they were
  have hsurvives : ∀ d ∈ σ.live, ¬ d.Is api c.op.block → d ∈ σ'.live ∧ p ≠ d.ptr := by
    intro d hd hnot
    exact heff.survives hinv hd ((horder.api_eq d hd).trans hapi.symm) (hapi ▸ hnot)
  have hnew : p ∉ liveNodes ((if c.op.block = 0 then [] else [.gave c.op.block]) ++ labels) := by
    intro hmem
    obtain ⟨d, hd, hnot, hptr⟩ := (hgone p).mp hmem
    exact (hsurvives d hd hnot).2 hptr.symm
  have hkeep : ∀ q ∈ liveNodes ((if c.op.block = 0 then [] else [.gave c.op.block]) ++ labels),
      σ'.bytes q = σ.bytes q := by
    intro q hq
    obtain ⟨d, hd, hnot, rfl⟩ := (hgone q).mp hq
    obtain ⟨hd', hne⟩ := hsurvives d hd hnot
    exact bytes_keep heff hinv hlegal hfair horder hw hd hd' fun heq => hne (Option.some.inj heq)
  have hcontent : c.op.content t (replay labels) σ.world.mem σ'.world.mem p = σ'.bytes p := by
    have hnull : replay labels 0 = none := by
      refine h.replay_none fun d hd => ?_
      have hpos := ((hinv.placed d hd).bounds hinv.pages).1
      have hstart : d.start t ≤ d.ptr := Nat.sub_le _ _
      omega
    rw [heff.content hinv hlegal hfair horder hnull fun d hd => h.replay_eq horder hinv hd, ← hsize,
      ← his.2]
    exact ((heff.orderly hlegal hfair horder).bytes_eq (heff.inv hinv) hb).symm
  unfold Op.labels
  dsimp only
  rw [hcontent]
  refine ⟨htracks.took hnew hkeep, fun q => ?_⟩
  dsimp only
  rw [List.cons_append, liveNodes_took, List.mem_cons, hlive q, hgone q]

/-- **A block is given back.** -/
theorem freed {block : Nat} (h : Ideal ⟨σ, labels⟩) (heff : Effect t c σ none σ')
    (hop : c.op = .freeV block) (hinv : Inv t σ) (hlegal : Legal t σ c) (hfair : Fair t σ c api)
    (horder : Orderly t σ api) :
    Ideal ⟨σ', c.op.labels t σ (replay labels) none σ'.world.mem ++ labels⟩ := by
  have hproper := hlegal.proper
  unfold Proper at hproper
  rw [hop] at hproper
  obtain ⟨b, hb, his⟩ := hproper
  have hmem : block ∈ liveNodes labels := (h.live block).mpr ⟨b, hb, his.2⟩
  have hw : ¬ c.op.IsWrite := by
    rw [hop]
    exact id
  -- all blocks but one are live afterwards
  have hlive : ∀ d, d ∈ σ'.live ↔ d ∈ σ.live ∧ d.ptr ≠ block := by
    have hptr : ∀ d ∈ σ.live, d.Is .vtable block ↔ d.ptr = block := by
      intro d hd
      rw [← his.1, horder.api_eq b hb]
      exact horder.is_iff hd block
    cases heff with
    | @rewound b' l s hop' hlive =>
      have hblock : b'.ptr = block := by
        rw [hop] at hop'
        exact (Op.freeV.inj hop').symm
      intro d
      rw [hlive, List.mem_cons]
      constructor
      · intro hd
        refine ⟨Or.inr hd, fun hdp => hinv.not_is_of_top hlive d hd ⟨?_, hdp.trans hblock.symm⟩⟩
        exact (horder.api_eq d (hlive ▸ List.mem_cons_of_mem b' hd)).trans
          (horder.api_eq b' (hlive ▸ List.mem_cons_self)).symm
      · intro hlive
        obtain ⟨rfl | hd, hne⟩ := hlive
        · exact absurd hblock hne
        · exact hd
    | @abandoned ptr hop' =>
      have hblock : ptr = block := by
        rw [hop] at hop'
        exact (Op.freeV.inj hop').symm
      intro d
      rw [List.mem_filter, decide_eq_true_eq, hblock]
      exact and_congr_right fun hd => not_congr (hptr d hd)
    | reset hreset =>
      rw [hop] at hreset
      exact hreset.elim
    | written hwrite =>
      rw [hop] at hwrite
      cases hwrite
  rw [hop]
  refine ⟨h.tracks.gave hmem ?_, fun p => ?_⟩
  · intro q hq hne
    obtain ⟨d, hd, rfl⟩ := (h.live q).mp hq
    exact bytes_keep heff hinv hlegal hfair horder hw hd ((hlive d).mpr ⟨hd, hne⟩)
      (Option.some_ne_none _).symm
  · show p ∈ liveNodes (.gave block :: labels) ↔ _
    rw [liveNodes_gave, h.tracks.lawful.nodup.mem_erase_iff, h.live p]
    constructor
    · intro hlive
      obtain ⟨hne, d, hd, rfl⟩ := hlive
      exact ⟨d, (hlive d).mpr ⟨hd, hne⟩, rfl⟩
    · intro hlive
      obtain ⟨d, hd, rfl⟩ := hlive
      exact ⟨((hlive d).mp hd).2, d, ((hlive d).mp hd).1, rfl⟩

/-- **All blocks are given back.** -/
theorem cleared (h : Ideal ⟨σ, labels⟩) (hinv : Inv t σ) (horder : Orderly t σ api)
    (hlive : σ'.live = []) : Ideal ⟨σ', (σ.live.map Block.ptr).map .gave ++ labels⟩ := by
  have hnodup : (σ.live.map Block.ptr).Nodup := by
    refine List.Nodup.map_on ?_ (hinv.stacked.order.imp_of_mem ?_)
    · exact fun b hb d hd hptr => horder.eq_of_ptr hinv hd hb hptr
    · rintro b d hb hd hafter rfl
      exact (hinv.placed b hb).start_ne (hinv.placed b hb) hinv.pages hafter rfl
  have hks : ∀ p ∈ σ.live.map Block.ptr, p ∈ liveNodes labels := by
    intro p hp
    obtain ⟨b, hb, rfl⟩ := List.mem_map.mp hp
    exact (h.live b.ptr).mpr ⟨b, hb, rfl⟩
  obtain ⟨htracks, hgone⟩ := h.tracks.gaveAll hks hnodup
  have hnone : ∀ p, p ∉ liveNodes ((σ.live.map Block.ptr).map .gave ++ labels) := by
    intro p hp
    obtain ⟨hmem, hnot⟩ := (hgone p).mp hp
    obtain ⟨b, hb, rfl⟩ := (h.live p).mp hmem
    exact hnot (List.mem_map_of_mem hb)
  refine ⟨htracks.congr fun p hp => absurd hp (hnone p), fun p => ?_⟩
  refine ⟨fun hp => absurd hp (hnone p), ?_⟩
  intro hlive
  obtain ⟨b, hb, -⟩ := hlive
  rw [hlive] at hb
  exact absurd hb List.not_mem_nil

/-- **A client stores** into one of its blocks. -/
theorem written {q : Nat} {bytes : List UInt8} (h : Ideal ⟨σ, labels⟩) (hinv : Inv t σ)
    (horder : Orderly t σ api) (hcovers : ∃ b ∈ σ.live, b.payload.Covers q bytes.length)
    {m : Mem} (hm : m = blit σ.world.mem q bytes.length fun i => bytes.getD i 0)
    (hinv' : Inv t (σ.withMem m)) (horder' : Orderly t (σ.withMem m) api) :
    Ideal ⟨σ.withMem m, (Op.write q bytes).labels t σ (replay labels) none m ++ labels⟩ := by
  obtain ⟨b, hfind⟩ : ∃ b, σ.live.find? (fun b => b.payload.Covers q bytes.length) = some b := by
    rw [← Option.isSome_iff_exists, List.find?_isSome]
    exact hcovers.imp fun b hb => ⟨hb.1, decide_eq_true hb.2⟩
  have hb : b ∈ σ.live := List.mem_of_find?_eq_some hfind
  obtain ⟨hbase, hend⟩ : b.payload.Covers q bytes.length := by
    have := List.find?_some hfind
    exact of_decide_eq_true this
  simp only [Block.payload] at hbase hend
  unfold Op.labels
  dsimp only
  rw [hfind]
  refine ⟨h.tracks.wrote ((h.live b.ptr).mpr ⟨b, hb, rfl⟩) ?_ ?_, h.live⟩
  · rw [horder.bytes_eq hinv hb, horder'.bytes_eq hinv' hb]
    have hput : bytesAt (blit σ.world.mem (b.ptr + (q - b.ptr)) bytes.length fun i =>
        bytes.getD i 0) b.ptr b.size = overwrite (bytesAt σ.world.mem b.ptr b.size) (q - b.ptr) bytes :=
      bytesAt_blit_overwrite (by omega)
    rwa [show b.ptr + (q - b.ptr) = q by omega, ← hm] at hput
  · intro p hp hne
    obtain ⟨d, hd, rfl⟩ := (h.live p).mp hp
    rw [horder.bytes_eq hinv hd, horder'.bytes_eq hinv' hd]
    refine bytesAt_congr fun i hi => ?_
    show m (d.ptr + i) = σ.world.mem (d.ptr + i)
    rw [hm]
    refine blit_outside ?_
    -- the store is inside one block, and the others are apart from that
    have hdisj : d.payload.Disjoint b.payload := by
      rcases pairwise_trichotomy (horder.disjoint hinv) hd hb with rfl | hdb | hbd
      · exact absurd rfl hne
      · exact hdb
      · exact hbd.symm
    have hnot := hdisj.not_has (a := d.ptr + i) ⟨Nat.le_add_right _ _, Nat.add_lt_add_left hi _⟩
    simp only [Block.payload, Region.Has] at hnot
    omega

/-- **Step.** Whatever a client does, its blocks are what it believes. -/
theorem step (h : Ideal ⟨σ, labels⟩) (heff : Effect t c σ r σ') (hinv : Inv t σ)
    (hlegal : Legal t σ c) (hfair : Fair t σ c api) (horder : Orderly t σ api) :
    Ideal ⟨σ', c.op.labels t σ (replay labels) r σ'.world.mem ++ labels⟩ := by
  cases hr : r with
  | some p =>
    subst hr
    exact h.handed heff hinv hlegal hfair horder
  | none =>
    subst hr
    have heff' := heff
    cases heff' with
    | rewound hop => exact h.freed heff hop hinv hlegal hfair horder
    | abandoned hop => exact h.freed heff hop hinv hlegal hfair horder
    | @reset keepCount s hop =>
      have hlabels : c.op.labels t σ (replay labels) none s.mem
          = (σ.live.map Block.ptr).map .gave := by
        cases hc : c.op with
        | reset | resetKeepPages | resetKeepPercentage => rfl
        | _ =>
          rw [hc] at hop
          exact hop.elim
      dsimp only
      rw [hlabels]
      exact h.cleared hinv horder rfl
    | written hop =>
      have hproper := hlegal.proper
      unfold Proper at hproper
      rw [hop] at hproper ⊢
      exact h.written hinv horder hproper rfl (heff.inv hinv) (heff.orderly hlegal hfair horder)

end Ideal

/-! ## Memory that changes behind its back -/

section

variable {σ : Sys} {api : Api} {m : Mem}

/-- Nothing the arena keeps about itself is in the blocks, -/
theorem Inv.withMem (h : Inv t σ) (m : Mem) : Inv t (σ.withMem m) :=
  ⟨h.pages.setMem m, h.stacked, fun b hb => (h.placed b hb).mono (List.prefix_refl _)⟩

/-- and what is in its pages, -/
theorem Inv.agrees (h : Inv t σ) (hm : ∀ a, (∃ r ∈ held σ.world.log, r.Has a) → m a = σ.world.mem a)
    {b : Block} (hb : b ∈ σ.live) {a : Nat} (hstart : b.start t ≤ a) (hstop : a < b.stop) :
    m a = σ.world.mem a := by
  obtain ⟨r, hr, hbase, hend⟩ := h.held_block hb
  exact hm a ⟨r, hr, Nat.le_trans hbase hstart, Nat.lt_of_lt_of_le hstop hend⟩

/-- the headers of its blocks -/
theorem Orderly.withMem (h : Orderly t σ api) (hinv : Inv t σ)
    (hm : ∀ a, (∃ r ∈ held σ.world.log, r.Has a) → m a = σ.world.mem a) :
    Orderly t (σ.withMem m) api := by
  cases api with
  | direct => exact h
  | vtable =>
    obtain ⟨hvtable, hlaid, hheaders⟩ := h
    refine ⟨⟨hvtable.inv.withMem m, ⟨hvtable.phased.pages, hvtable.phased.blocks,
      hvtable.phased.cursor⟩, hvtable.vtable⟩, hlaid, fun b hb => ?_⟩
    exact (loadWord_frame (hvtable.aligned hb) fun a hstart hstop =>
      hinv.agrees hm hb hstart hstop).trans (hheaders b hb)

/-- and their bytes, nobody else changes. -/
theorem Ideal.withMem {labels : List (Label Nat)} (h : Ideal ⟨σ, labels⟩) (hinv : Inv t σ)
    (horder : Orderly t σ api)
    (hm : ∀ a, (∃ r ∈ held σ.world.log, r.Has a) → m a = σ.world.mem a) :
    Ideal ⟨σ.withMem m, labels⟩ := by
  refine ⟨h.tracks.congr fun p hp => ?_, h.live⟩
  obtain ⟨b, hb, rfl⟩ := (h.live p).mp hp
  have hb' : b ∈ (σ.withMem m).live := hb
  rw [horder.bytes_eq hinv hb, (horder.withMem hinv hm).bytes_eq (hinv.withMem m) hb']
  refine bytesAt_congr fun i hi => ?_
  have hstart : b.start t ≤ b.ptr := Nat.sub_le _ _
  exact hinv.agrees hm hb (Nat.le_trans hstart (Nat.le_add_right _ _)) (Nat.add_lt_add_left hi _)

end

end MulleStorage.Arena
