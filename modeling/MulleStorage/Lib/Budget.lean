/-!
# What is held for what is asked

A bump allocator obtains memory by the page. A request is served out of the room
left on the current page, or else another page is entered and that room is lost.
The room lost was too small for the request, so the request itself pays for it:
over any number of requests, what was obtained is at most twice what was asked
for, and a page.

`Spends` is one request. `Budget` is the bound, with the room that is left as the
potential; `Budget.spend` keeps it.
-/

namespace MulleStorage.Lib

/-- The bytes held, and those left on the current page. -/
structure Account where
  held : Nat
  room : Nat

/-- What serving a request of at most `cost` bytes may do. -/
inductive Spends (pageSize cost : Nat) : Account → Account → Prop
  /-- Nothing is obtained, and if room was lost it was no more than `cost`. -/
  | stayed {a a' : Account} (hheld : a'.held = a.held) (hroom : a.room ≤ a'.room + cost) :
      Spends pageSize cost a a'
  /-- A page is obtained, for the want of room. -/
  | obtained {a a' : Account} {size : Nat} (hlost : a.room ≤ cost)
      (hsize : size ≤ max pageSize cost) (hheld : a'.held = a.held + size)
      (hroom : size ≤ a'.room + cost) : Spends pageSize cost a a'

/-- The bound, with and without the room that is left; `kept` is what was held
when the counting of what is asked began. -/
structure Budget (pageSize kept asked : Nat) (a : Account) : Prop where
  room : a.held ≤ kept + 2 * asked + a.room
  page : a.held ≤ kept + 2 * asked + pageSize

namespace Budget

variable {pageSize kept asked cost : Nat} {a a' : Account}

/-- Nothing asked yet. -/
theorem start (pageSize : Nat) (a : Account) : Budget pageSize a.held 0 a := ⟨by omega, by omega⟩

/-- **Step.** A request pays for itself. -/
theorem spend (h : Budget pageSize kept asked a) (hs : Spends pageSize cost a a') :
    Budget pageSize kept (asked + cost) a' := by
  have hroom := h.room
  have hpage := h.page
  cases hs with
  | stayed hheld hleft => exact ⟨by omega, by omega⟩
  | obtained hlost hsize hheld hleft => exact ⟨by omega, by omega⟩

end Budget

end MulleStorage.Lib
