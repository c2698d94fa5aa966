import MulleStorage.Arena.System

/-!
# Runs that can be computed

A script is a run written down: calls, each with the finitely many answers the
default allocator has for it. On a script everything `Legal` asks can be
decided, so a concrete run is checked by evaluation and then is a run like any
other (`reach_of_script`).
-/

namespace MulleStorage.Arena

open MulleStorage.Lib

/-- A call, and for some sizes the page the default allocator has for them. -/
structure Line where
  op : Op
  answers : List (Nat × Nat) := []

/-- The call of a line. -/
def Line.call (x : Line) : Call := ⟨x.op, fun n => x.answers.lookup n⟩

section

variable (t : Target) (σ : Sys)

instance (alignment : Nat) : Decidable (t.IsAlignment alignment) :=
  inferInstanceAs (Decidable (∃ k, k < t.uintBits ∧ alignment = 2 ^ k))

instance : (c : Call) → Decidable (Proper t σ c)
  | ⟨.alloc .., _⟩ | ⟨.calloc .., _⟩ | ⟨.memdup .., _⟩ | ⟨.realloc .., _⟩ | ⟨.callocV .., _⟩
  | ⟨.reallocarrayV .., _⟩ => inferInstanceAs (Decidable (_ ∧ _))
  | ⟨.freeV block, _⟩ => inferInstanceAs (Decidable (∃ b ∈ σ.live, b.Is .vtable block))
  | ⟨.write p bytes, _⟩ =>
    inferInstanceAs (Decidable (∃ b ∈ σ.live, b.payload.Covers p bytes.length))
  | ⟨.strdup .., _⟩ | ⟨.reset, _⟩ | ⟨.resetKeepPages .., _⟩ | ⟨.resetKeepPercentage .., _⟩ =>
    isTrue trivial

instance (s : World) (size alignment : Nat) : Decidable (AllocNoWrap t s size alignment) :=
  inferInstanceAs (Decidable (if FitsPage t s size alignment then _ ∧ _ else _ < _))

instance (s : World) (size : Nat) : Decidable (HeaderNoWrap t s size) :=
  inferInstanceAs (Decidable (if FitsPageV t s size then _ < _ else _ < _))

instance (s : World) : (op : Op) → Decidable (NoWrap t s op)
  | .alloc size alignment | .calloc size alignment =>
    inferInstanceAs (Decidable (AllocNoWrap t s size alignment))
  | .memdup _ size => inferInstanceAs (Decidable (AllocNoWrap t s size 1))
  | .strdup str => inferInstanceAs (Decidable (∀ len ∈ strlen s.mem str t.modulus,
      len + 1 < t.modulus ∧ AllocNoWrap t s (len + 1) 1))
  | .realloc block oldSize newSize alignment => inferInstanceAs (Decidable
      (if InPlace t s (.realloc block oldSize newSize alignment) then s.last + newSize < t.modulus
      else AllocNoWrap t s newSize alignment))
  | .callocV n size =>
    inferInstanceAs (Decidable (n * size < t.modulus → HeaderNoWrap t s (n * size)))
  | .reallocarrayV block n size => inferInstanceAs (Decidable (n * size < t.modulus →
      if InPlace t s (.reallocarrayV block n size) then block + n * size < t.modulus
      else HeaderNoWrap t s (n * size)))
  | .freeV .. | .reset | .resetKeepPages .. | .resetKeepPercentage .. | .write .. =>
    isTrue trivial

/-- The line keeps the contract; its sums may wrap. -/
def Line.Lawful (σ : Sys) (x : Line) : Prop :=
  (∀ e ∈ x.answers, 0 < e.2 ∧ e.2 + e.1 < t.modulus ∧
    ∀ r ∈ held σ.world.log, Region.Disjoint ⟨e.2, e.1⟩ r) ∧
  Proper t σ x.call

/-- The line is a legal call. -/
def Line.Ok (σ : Sys) (x : Line) : Prop := Line.Lawful t σ x ∧ NoWrap t σ.world x.op

instance (x : Line) : Decidable (Line.Lawful t σ x) := inferInstanceAs (Decidable (_ ∧ _))

instance (x : Line) : Decidable (Line.Ok t σ x) := inferInstanceAs (Decidable (_ ∧ _))

end

variable {t : Target} {σ : Sys}

theorem mem_of_lookup {l : List (Nat × Nat)} {n p : Nat} (h : l.lookup n = some p) :
    (n, p) ∈ l := by
  obtain ⟨l₁, l₂, rfl, -⟩ := List.lookup_eq_some_iff.mp h
  simp

theorem Line.lawful (σ : Sys) (x : Line) (h : Line.Lawful t σ x) :
    SysOk t σ.world x.call.sys ∧ Proper t σ x.call :=
  ⟨fun n p hp => h.1 (n, p) (mem_of_lookup hp), h.2⟩

theorem Line.legal (σ : Sys) (x : Line) (h : Line.Ok t σ x) : Legal t σ x.call :=
  ⟨(Line.lawful σ x h.1).1, h.1.2, h.2⟩

/-- The line's pages are aligned. -/
def Line.Aligned (t : Target) (x : Line) : Prop := ∀ e ∈ x.answers, t.defaultAlignment ∣ e.2

instance (t : Target) (x : Line) : Decidable (x.Aligned t) :=
  inferInstanceAs (Decidable (∀ e ∈ x.answers, _))

theorem Line.sysAligned {x : Line} (h : x.Aligned t) : SysAligned t x.call.sys :=
  fun n p hp => h (n, p) (mem_of_lookup hp)

/-- The state a script leads to, when each of its calls returns. -/
def runScript (t : Target) (pageSize : Nat) (mem : Mem) (l : List Line) : Option Sys :=
  runCalls (fun σ x => Sys.step t σ (Line.call x)) (Sys.start pageSize mem) l

/-- The same state; the one before any call when one of them does not return. -/
def scriptEnd (t : Target) (pageSize : Nat) (mem : Mem) (l : List Line) : Sys :=
  (runScript t pageSize mem l).getD (Sys.start pageSize mem)

/-- Each line of the script passes its check, and each of its calls returns. -/
def Checks (t : Target) (chk : Sys → Line → Prop) (pageSize : Nat) (mem : Mem)
    (l : List Line) : Prop :=
  OkAlong (fun σ x => Sys.step t σ (Line.call x)) chk (Sys.start pageSize mem) l ∧
    (runScript t pageSize mem l).isSome

instance {chk : Sys → Line → Prop} [∀ σ x, Decidable (chk σ x)] (pageSize : Nat) (mem : Mem)
    (l : List Line) : Decidable (Checks t chk pageSize mem l) :=
  inferInstanceAs (Decidable (_ ∧ _))

/-- A script whose lines pass their check is a run. -/
theorem reach_of_script {ok : Sys → Call → Prop} {P : Sys → Line → Prop}
    (himp : ∀ σ x, P σ x → ok σ x.call) {pageSize : Nat} {mem : Mem} {l : List Line}
    (h : Checks t P pageSize mem l) :
    Reach (Sys.step t) ok (Sys.start pageSize mem) (l.map Line.call)
      (scriptEnd t pageSize mem l) := by
  obtain ⟨σ, hσ⟩ := Option.isSome_iff_exists.mp h.2
  have hrun := Reach.of_runCalls (P := P) Line.call (himp _ _) .nil h.1 hσ
  rw [scriptEnd, hσ]
  simpa using hrun

/-- The state a script leads to from `σ`. -/
def scriptFrom (t : Target) (σ : Sys) (l : List Line) : Sys :=
  (runCalls (fun σ x => Sys.step t σ (Line.call x)) σ l).getD σ

/-- The same for a script that goes on from some state. -/
theorem reach_from_script {ok : Sys → Call → Prop} {P : Sys → Line → Prop} {l : List Line}
    (himp : ∀ σ x, P σ x → ok σ x.call)
    (h : OkAlong (fun σ x => Sys.step t σ (Line.call x)) P σ l ∧
      (runCalls (fun σ x => Sys.step t σ (Line.call x)) σ l).isSome) :
    Reach (Sys.step t) ok σ (l.map Line.call) (scriptFrom t σ l) := by
  obtain ⟨σ', hσ'⟩ := Option.isSome_iff_exists.mp h.2
  have hrun := Reach.of_runCalls (P := P) Line.call (himp _ _) .nil h.1 hσ'
  rw [scriptFrom, hσ']
  simpa using hrun

/-- A script of legal calls that keep to `Q`. -/
theorem reach_of_legal {Q : Sys → Call → Prop} {pageSize : Nat} {mem : Mem} {l : List Line}
    (h : Checks t (fun σ x => Line.Ok t σ x ∧ Q σ x.call) pageSize mem l) :
    Reach (Sys.step t) (fun σ c => Legal t σ c ∧ Q σ c) (Sys.start pageSize mem)
      (l.map Line.call) (scriptEnd t pageSize mem l) :=
  reach_of_script (fun σ x hx => ⟨Line.legal σ x hx.1, hx.2⟩) h

/-- The same with pages that are aligned. -/
theorem reach_of_aligned {Q : Sys → Call → Prop} {pageSize : Nat} {mem : Mem} {l : List Line}
    (h : Checks t (fun σ x => Line.Ok t σ x ∧ x.Aligned t ∧ Q σ x.call) pageSize mem l) :
    Reach (Sys.step t) (fun σ c => Legal t σ c ∧ SysAligned t c.sys ∧ Q σ c)
      (Sys.start pageSize mem) (l.map Line.call) (scriptEnd t pageSize mem l) :=
  reach_of_script (fun σ x hx => ⟨Line.legal σ x hx.1, Line.sysAligned hx.2.1, hx.2.2⟩) h

/-- A call that returns a pointer leaves some world. -/
theorem exists_exec {c : Call} {p : Nat}
    (h : (exec t c.sys c.op σ.world).map Prod.fst = some (some p)) :
    ∃ s, exec t c.sys c.op σ.world = some (some p, s) := by
  obtain ⟨⟨q, s⟩, hexec, rfl⟩ := Option.map_eq_some_iff.mp h
  exact ⟨s, hexec⟩

end MulleStorage.Arena
