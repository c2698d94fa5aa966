import MulleStorage.Arena.Ideal
import MulleStorage.Lib.Tenants

/-!
# An arena among neighbours

A program has more than one arena, and all of them get their pages from the one
default allocator and keep their clients' bytes in the one memory. `tenant` is an
arena as a tenant of that memory (`Lib/Tenants.lean`): it owns the bytes of the
pages it holds, and a call may be given those of a page the default allocator
has for it.

> `Homely.settled`: an arena gets along with any neighbours.

What can go wrong inside an arena (a header over a tail, a block that is not
aligned) stays inside of it. So in a release build nothing is asked of its clients
but the contract; in a debug build, that no block is freed as the newest one whose
rounded end is behind its page (`FillOk`). An arena that is used in an orderly way
(`Fair`) is, on top of that, the heap its client believes in.
-/

namespace MulleStorage.Arena

open MulleStorage.Lib

variable {t : Target} {use : Option Api}

/-- An arena among others. `use` is how its clients use it: through one of the
APIs with care, or (`none`) anyhow. -/
def tenant (t : Target) (use : Option Api) : Tenant Client Call where
  mem x := x.sys.world.mem
  withMem m x := { x with sys := x.sys.withMem m }
  owns x a := ∃ r ∈ held x.sys.world.log, r.Has a
  given _ c a := ∃ n p, c.sys n = some p ∧ Region.Has ⟨p, n⟩ a
  step := Client.step t
  ok x c := Legal t x.sys c ∧ FillOk t x.sys c.op ∧ ∀ api ∈ use, Fair t x.sys c api
  mem_withMem _ _ := rfl
  owns_withMem _ _ _ := Iff.rfl

/-- What it keeps. -/
structure Homely (t : Target) (use : Option Api) (x : Client) : Prop where
  inv : Inv t x.sys
  orderly : ∀ api ∈ use, Orderly t x.sys api
  ideal : ∀ api ∈ use, Ideal x

namespace Homely

theorem start (t : Target) (use : Option Api) (pageSize : Nat) (mem : Mem) :
    Homely t use (Client.start pageSize mem) where
  inv := Inv.start t pageSize mem
  orderly _ _ := Orderly.start t pageSize mem
  ideal _ _ := Ideal.start pageSize mem

/-- A call of a client is a call on the arena. -/
theorem client_step {x x' : Client} {c : Call} (h : x.step t c = some x') :
    x.sys.step t c = some x'.sys := by
  obtain ⟨r, hr, rfl⟩ := Option.map_eq_some_iff.mp h
  unfold Sys.step
  rw [hr]
  rfl

/-- **An arena gets along with its neighbours.** -/
theorem settled (t : Target) (use : Option Api) : (tenant t use).Settled (Homely t use) where
  keeps := by
    intro x c x' h ⟨hlegal, _, hfair⟩ hs
    obtain ⟨r, hr, rfl⟩ := Option.map_eq_some_iff.mp hs
    have heff := exec_effect h.inv hlegal hr
    refine ⟨heff.inv h.inv, ?_, ?_⟩
    · intro api hapi
      exact heff.orderly hlegal (hfair api hapi) (h.orderly api hapi)
    · intro api hapi
      have hstep := (h.ideal api hapi).step heff h.inv hlegal (hfair api hapi) (h.orderly api hapi)
      rwa [Sys.record_world] at hstep
  takes := by
    intro x c x' h ⟨hlegal, _, _⟩ hs a
    obtain ⟨r, hr, rfl⟩ := Option.map_eq_some_iff.mp hs
    intro howns
    obtain ⟨q, hq, ha⟩ := howns
    rcases (exec_effect h.inv hlegal hr).held_subset q hq with hold | hnew
    · exact Or.inl ⟨q, hold, ha⟩
    · exact Or.inr ⟨q.size, q.base, hnew, ha⟩
  confined := by
    intro x c x' h ⟨hlegal, hfill, _⟩ hs a hout hgiven
    exact step_confined h.inv hlegal hfill (client_step hs) (fun q hq ha => hout ⟨q, hq, ha⟩)
      fun n p hp ha => hgiven ⟨n, p, hp, ha⟩
  relies := by
    intro x m h hm
    refine ⟨h.inv.withMem m, ?_, ?_⟩
    · exact fun api hapi => (h.orderly api hapi).withMem h.inv hm
    · exact fun api hapi => (h.ideal api hapi).withMem h.inv (h.orderly api hapi) hm

/-- What the client of an orderly arena believes, and what memory holds. -/
theorem replay_eq {api : Api} {x : Client} (h : Homely t (some api) x) :
    replay x.labels = x.contents := by
  have horder := h.orderly api rfl
  have hideal := h.ideal api rfl
  funext p
  unfold Client.contents
  cases hfind : x.sys.live.find? fun b => b.ptr = p with
  | none =>
    refine hideal.replay_none fun b hb hptr => ?_
    have := List.find?_eq_none.mp hfind b hb
    exact this (decide_eq_true hptr)
  | some b =>
    have hptr : b.ptr = p := by
      have := List.find?_some hfind
      exact of_decide_eq_true this
    rw [← hptr]
    exact hideal.replay_eq horder h.inv (List.mem_of_find?_eq_some hfind)

end Homely

end MulleStorage.Arena
