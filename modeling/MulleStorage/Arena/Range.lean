import MulleStorage.Arena.Effect
import MulleStorage.Arena.Script

/-!
# Returned ranges

No function of the header checks its sums for overflow. As long as none of the
sums a call goes by wraps (`NoWrap`), what it returns is memory it obtained:

> `returned_range_obtained`: the bytes from the header to the end of the
> payload, as true integers, lie inside one region of the default allocator.

`alloc_wrapped` is a request near `SIZE_MAX` on a fresh arena where the size
asked of the new page wraps to 0: the call returns a page of the usual size.
-/

namespace MulleStorage.Arena

open MulleStorage.Lib

variable {t : Target}

/-- The `size` bytes at `p`, and the header of their API before them, lie inside
one region obtained by the arena. -/
def Obtained (t : Target) (s : World) (api : Api) (p size : Nat) : Prop :=
  ∃ r ∈ held s.log, r.base + api.header t ≤ p ∧ p + size ≤ r.base + r.size

instance (t : Target) (s : World) (api : Api) (p size : Nat) :
    Decidable (Obtained t s api p size) :=
  inferInstanceAs (Decidable (∃ r ∈ held s.log, _))

theorem Placed.obtained {s : World} {b : Block} (h : Placed t s b) :
    Obtained t s b.api b.ptr b.size := by
  obtain ⟨r, hr, hbase, hstop⟩ := h.covers
  have hstart := h.start
  exact ⟨r, List.mem_of_getElem? hr, by omega, hstop⟩

variable {pageSize : Nat} {mem : Mem} {l : List Call} {σ : Sys}

/-- **Returned ranges are obtained.** In a run of calls none of which wraps, a
call that does not wrap either returns a pointer to that many bytes of one page,
or does not return. -/
theorem returned_range_obtained
    (h : Reach (Sys.step t) (Legal t) (Sys.start pageSize mem) l σ) {c : Call}
    (hlegal : Legal t σ c) {p : Nat} {s : World}
    (hexec : exec t c.sys c.op σ.world = some (some p, s)) :
    Obtained t s c.op.api p (c.op.size t σ.world.mem) := by
  have hinv := reach_inv id h
  have heff := exec_effect hinv hlegal hexec
  obtain ⟨b, hb, his, hsize⟩ := heff.returned
  have hobt := ((heff.inv hinv).placed b hb).obtained
  rw [his.1, his.2, hsize, Sys.record_world] at hobt
  exact hobt

/-- An oversized direct block, then a vtable block that needs another page. -/
def oversizedScript : List Line := [⟨.alloc 100 4, [(103, 0x1000)]⟩]

theorem returned_range_obtained_oversized :
    ∃ s, exec (x64 false) (fun n => [(64, 0x2000)].lookup n) (.callocV 3 5)
        (scriptEnd (x64 false) 64 (fun _ => 0) oversizedScript).world = some (some 0x2010, s) ∧
      Obtained (x64 false) s .vtable 0x2010 15 :=
  let ⟨s, hs⟩ := exists_exec (c := Line.call ⟨.callocV 3 5, [(64, 0x2000)]⟩) (by decide +kernel)
  ⟨s, hs, returned_range_obtained (reach_of_script Line.legal (by decide +kernel))
    (Line.legal _ ⟨.callocV 3 5, [(64, 0x2000)]⟩ (by decide +kernel)) hs⟩

/-- `SIZE_MAX` bytes aligned to 2, asked of a fresh arena. -/
def wrappingScript : List Line := [⟨.alloc (2 ^ 64 - 1) 2, [(4096, 0x1000)]⟩]

/-- The size of the page asked for wraps to 0, and the call returns the start of
a page of 4096 bytes. -/
theorem alloc_wrapped :
    let σ := scriptEnd (x64 false) 4096 (fun _ => 0) wrappingScript
    Reach (Sys.step (x64 false)) (fun σ c => SysOk (x64 false) σ.world c.sys ∧
        Proper (x64 false) σ c) (Sys.start 4096 fun _ => 0) (wrappingScript.map Line.call) σ ∧
      ⟨.direct, 0x1000, 2 ^ 64 - 1, 0, 0⟩ ∈ σ.live ∧ held σ.world.log = [⟨0x1000, 4096⟩] ∧
      ¬ Obtained (x64 false) σ.world .direct 0x1000 (2 ^ 64 - 1) :=
  ⟨reach_of_script Line.lawful (by decide +kernel), by decide +kernel, by decide +kernel,
    by decide +kernel⟩

end MulleStorage.Arena
