import Mathlib.Data.List.Nodup
import Mathlib.Logic.Function.Basic
import MulleStorage.Lib.Memory

/-!
# A store of nodes, as its clients see it

Clients of a node pool know a node by a key, and between taking a node and
giving it back they expect one thing of its contents: nobody else changes them.
A `Label` is one step of that life. A log of labels (newest first) determines
the keys that are live (`liveNodes`) and what each of them must hold (`replay`);
`Lawful` says that it makes sense: nothing is taken twice, and only live nodes
are given back or written.

An implementation is right when its memory `Tracks` its log: the log is lawful,
and the bytes behind every live key are what `replay` says. Each kind of label
has one rule that keeps this (`Tracks.took`, `.gave`, `.wrote`).
-/

namespace MulleStorage.Lib

/-- One step in the life of a node. -/
inductive Label (κ : Type)
  /-- The node `k` is handed out, holding `content`. -/
  | took (k : κ) (content : List UInt8)
  /-- It is given back. -/
  | gave (k : κ)
  /-- Its client stores `bytes` at offset `off`. -/
  | wrote (k : κ) (off : Nat) (bytes : List UInt8)
  deriving DecidableEq

variable {κ : Type} [DecidableEq κ]

/-- The nodes taken and not given back, newest first. -/
def liveNodes : List (Label κ) → List κ
  | [] => []
  | .took k _ :: log => k :: liveNodes log
  | .gave k :: log => (liveNodes log).erase k
  | .wrote _ _ _ :: log => liveNodes log

/-- What the live nodes hold after a log. -/
def replay : List (Label κ) → κ → Option (List UInt8)
  | [] => fun _ => none
  | .took k content :: log => Function.update (replay log) k (some content)
  | .gave k :: log => Function.update (replay log) k none
  | .wrote k off bytes :: log =>
    Function.update (replay log) k ((replay log k).map fun c => overwrite c off bytes)

/-- Nodes are taken when they are not live; only live ones are given or written. -/
def Lawful : List (Label κ) → Prop
  | [] => True
  | .took k _ :: log => k ∉ liveNodes log ∧ Lawful log
  | .gave k :: log => k ∈ liveNodes log ∧ Lawful log
  | .wrote k _ _ :: log => k ∈ liveNodes log ∧ Lawful log

/-- How often the node was handed out. -/
def timesTaken (k : κ) : List (Label κ) → Nat
  | [] => 0
  | .took k' _ :: log => timesTaken k log + if k' = k then 1 else 0
  | _ :: log => timesTaken k log

/-- How often it was given back. -/
def timesGiven (k : κ) : List (Label κ) → Nat
  | [] => 0
  | .gave k' :: log => timesGiven k log + if k' = k then 1 else 0
  | _ :: log => timesGiven k log

section

variable (k : κ) (off : Nat) (bytes content : List UInt8) (log : List (Label κ))

@[simp] theorem liveNodes_took : liveNodes (.took k content :: log) = k :: liveNodes log := rfl
@[simp] theorem liveNodes_gave : liveNodes (.gave k :: log) = (liveNodes log).erase k := rfl
@[simp] theorem liveNodes_wrote : liveNodes (.wrote k off bytes :: log) = liveNodes log := rfl

end

/-- A node is live once. -/
theorem Lawful.nodup {log : List (Label κ)} (h : Lawful log) : (liveNodes log).Nodup := by
  induction log with
  | nil => exact .nil
  | cons e log ih =>
    cases e with
    | took k content => exact List.nodup_cons.mpr ⟨h.1, ih h.2⟩
    | gave k => exact (ih h.2).erase k
    | wrote k off bytes => exact ih h.2

/-- **Once per release.** A node is handed out once more often than it is given
back while it is live, and as often while it is not. -/
theorem timesTaken_eq {log : List (Label κ)} (h : Lawful log) (k : κ) :
    timesTaken k log = timesGiven k log + if k ∈ liveNodes log then 1 else 0 := by
  induction log with
  | nil => rfl
  | cons e log ih =>
    have hstep := ih (by cases e <;> exact h.2)
    cases e with
    | took k' content =>
      -- only a node that is not live is taken, so its count is level before
      simp only [timesTaken, timesGiven, liveNodes_took, List.mem_cons]
      by_cases hk : k' = k
      · subst hk
        rw [hstep, if_neg h.1]
        simp
      · simp [hk, Ne.symm hk, hstep]
    | gave k' =>
      simp only [timesTaken, timesGiven, liveNodes_gave, h.2.nodup.mem_erase_iff]
      by_cases hk : k' = k
      · subst hk
        rw [hstep, if_pos h.1]
        simp
      · simp [hk, Ne.symm hk, hstep]
    | wrote k' off bytes => exact hstep

/-! ## Implementations -/

/-- `content k` is what the memory of an implementation holds for `k`. -/
structure Tracks (content : κ → List UInt8) (log : List (Label κ)) : Prop where
  lawful : Lawful log
  replay_eq : ∀ k, replay log k = if k ∈ liveNodes log then some (content k) else none

namespace Tracks

variable {content content' : κ → List UInt8} {log : List (Label κ)} {k : κ}

theorem nil : Tracks content ([] : List (Label κ)) := ⟨trivial, fun _ => rfl⟩

/-- Only the bytes behind live keys matter. -/
theorem congr (h : Tracks content log) (hkeep : ∀ j ∈ liveNodes log, content' j = content j) :
    Tracks content' log where
  lawful := h.lawful
  replay_eq j := by
    rw [h.replay_eq j]
    by_cases hl : j ∈ liveNodes log
    · rw [if_pos hl, if_pos hl, hkeep j hl]
    · rw [if_neg hl, if_neg hl]

/-- A node is handed out and the live ones keep their bytes. -/
theorem took (h : Tracks content log) (hk : k ∉ liveNodes log)
    (hkeep : ∀ j ∈ liveNodes log, content' j = content j) :
    Tracks content' (.took k (content' k) :: log) where
  lawful := ⟨hk, h.lawful⟩
  replay_eq j := by
    by_cases hj : j = k
    · subst hj
      simp [replay]
    · rw [replay, Function.update_of_ne hj, h.replay_eq j, liveNodes_took]
      by_cases hl : j ∈ liveNodes log
      · rw [if_pos hl, if_pos (List.mem_cons_of_mem k hl), hkeep j hl]
      · rw [if_neg hl, if_neg (by simp [hj, hl])]

/-- A live node is given back and the others keep their bytes. -/
theorem gave (h : Tracks content log) (hk : k ∈ liveNodes log)
    (hkeep : ∀ j ∈ liveNodes log, j ≠ k → content' j = content j) :
    Tracks content' (.gave k :: log) where
  lawful := ⟨hk, h.lawful⟩
  replay_eq j := by
    simp only [liveNodes_gave, h.lawful.nodup.mem_erase_iff]
    by_cases hj : j = k
    · subst hj
      simp [replay]
    · rw [replay, Function.update_of_ne hj, h.replay_eq j]
      by_cases hl : j ∈ liveNodes log
      · rw [if_pos hl, if_pos ⟨hj, hl⟩, hkeep j hl hj]
      · rw [if_neg hl, if_neg fun hc => hl hc.2]

/-- The client of a live node stores into it and the others keep their bytes. -/
theorem wrote (h : Tracks content log) (hk : k ∈ liveNodes log) {off : Nat}
    {bytes : List UInt8} (hput : content' k = overwrite (content k) off bytes)
    (hkeep : ∀ j ∈ liveNodes log, j ≠ k → content' j = content j) :
    Tracks content' (.wrote k off bytes :: log) where
  lawful := ⟨hk, h.lawful⟩
  replay_eq j := by
    by_cases hj : j = k
    · subst hj
      simp [replay, h.replay_eq, hk, hput]
    · rw [replay, Function.update_of_ne hj, h.replay_eq j, liveNodes_wrote]
      by_cases hl : j ∈ liveNodes log
      · rw [if_pos hl, if_pos hl, hkeep j hl hj]
      · rw [if_neg hl, if_neg hl]

/-- Live nodes are given back one after the other. -/
theorem gaveAll (h : Tracks content log) {ks : List κ} (hks : ∀ k ∈ ks, k ∈ liveNodes log)
    (hnodup : ks.Nodup) :
    Tracks content (ks.map .gave ++ log) ∧
    ∀ j, j ∈ liveNodes (ks.map .gave ++ log) ↔ j ∈ liveNodes log ∧ j ∉ ks := by
  induction ks with
  | nil => exact ⟨h, fun j => by simp⟩
  | cons k ks ih =>
    obtain ⟨hk, hnodup⟩ := List.nodup_cons.mp hnodup
    obtain ⟨htracks, hlive⟩ := ih (fun j hj => hks j (List.mem_cons_of_mem k hj)) hnodup
    have hmem : k ∈ liveNodes (ks.map .gave ++ log) := (hlive k).mpr ⟨hks k List.mem_cons_self, hk⟩
    refine ⟨htracks.gave hmem fun _ _ _ => rfl, ?_⟩
    intro j
    rw [List.map_cons, List.cons_append, liveNodes_gave, htracks.lawful.nodup.mem_erase_iff, hlive,
      List.mem_cons]
    exact ⟨fun hj => ⟨hj.2.1, fun hor => hor.elim hj.1 hj.2.2⟩,
      fun hj => ⟨fun heq => hj.2 (Or.inl heq), hj.1, fun hin => hj.2 (Or.inr hin)⟩⟩

end Tracks

end MulleStorage.Lib
