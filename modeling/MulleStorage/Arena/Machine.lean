import MulleStorage.Lib.Align
import MulleStorage.Lib.Memory

/-!
# The machine under `mulle-arena.h`

`Target` is what the header is compiled for: `sizeof( size_t)`,
`MULLE_ARENA_DEFAULT_ALIGNMENT`, the width of `unsigned int`, and whether
`DEBUG` is on. Addresses and `size_t` values are naturals below `modulus`, and
every addition and subtraction of the source is `add`/`sub`, which wrap.

`World` is the arena's own fields together with memory and an event log. The
log is a ghost: it records what the code did to the default allocator's pages
and in which order, so that "obtained and not yet returned" (`held`) and
"touched after being returned" are facts about one list. Newest event first.

Mirroring notes:
- `MULLE_ALLOCATOR_BASE` (the vtable pointers) is constant after `init`, and no
  function of the header reads it, so it is left out.
- A call that ends in an allocator's `fail` handler does not return; it is
  `none`.
-/

namespace MulleStorage.Arena

open MulleStorage.Lib

/-- The ABI and the build. -/
structure Target where
  /-- `sizeof( size_t)`; `uintptr_t` is as wide. -/
  sizeofSizeT : Nat
  /-- `MULLE_ARENA_DEFAULT_ALIGNMENT`. -/
  defaultAlignment : Nat
  /-- Width of `unsigned int`, the type of an alignment argument. -/
  uintBits : Nat
  /-- `#if DEBUG`. -/
  debug : Bool
  /-- What `mulle_memset_uint32( p, 0xDEADDEAD, n)` leaves at `p + i`. -/
  poison : Nat → UInt8
  sizeofSizeT_pos : 0 < sizeofSizeT
  sizeofSizeT_le : sizeofSizeT ≤ defaultAlignment
  uintBits_le : uintBits ≤ 8 * sizeofSizeT
  defaultAlignment_pow : ∃ k, k < uintBits ∧ defaultAlignment = 2 ^ k

namespace Target

variable (t : Target)

/-- `SIZE_MAX + 1`. -/
def modulus : Nat := 2 ^ (8 * t.sizeofSizeT)

/-- `size_t`/pointer addition. -/
def add (a b : Nat) : Nat := (a + b) % t.modulus

/-- `size_t`/pointer subtraction. -/
def sub (a b : Nat) : Nat := (a + (t.modulus - b)) % t.modulus

theorem modulus_pos : 0 < t.modulus := Nat.two_pow_pos _

theorem modulus_eq : t.modulus = 256 ^ t.sizeofSizeT := by
  rw [modulus, Nat.pow_mul]

theorem defaultAlignment_pos : 0 < t.defaultAlignment :=
  Nat.lt_of_lt_of_le t.sizeofSizeT_pos t.sizeofSizeT_le

variable {t}

theorem add_eq {a b : Nat} (h : a + b < t.modulus) : t.add a b = a + b := Nat.mod_eq_of_lt h

theorem add_lt (a b : Nat) : t.add a b < t.modulus := Nat.mod_lt _ t.modulus_pos

theorem sub_eq {a b : Nat} (hb : b ≤ a) (ha : a < t.modulus) : t.sub a b = a - b := by
  unfold sub
  rw [show a + (t.modulus - b) = (a - b) + t.modulus from by omega, Nat.add_mod_right,
    Nat.mod_eq_of_lt (by omega)]

/-- A power of two that an `unsigned int` can hold: what the asserts of
`_mulle_arena_alloc` demand of an alignment. -/
def IsAlignment (t : Target) (alignment : Nat) : Prop := ∃ k, k < t.uintBits ∧ alignment = 2 ^ k

theorem isAlignment_default : t.IsAlignment t.defaultAlignment := t.defaultAlignment_pow

theorem isAlignment_one : t.IsAlignment 1 := by
  obtain ⟨k, hk, -⟩ := t.defaultAlignment_pow
  exact ⟨0, by omega, rfl⟩

theorem IsAlignment.pos {alignment : Nat} (h : t.IsAlignment alignment) : 0 < alignment := by
  obtain ⟨k, -, rfl⟩ := h
  exact Nat.two_pow_pos k

theorem IsAlignment.dvd_modulus {alignment : Nat} (h : t.IsAlignment alignment) :
    alignment ∣ t.modulus := by
  obtain ⟨k, hk, rfl⟩ := h
  exact Nat.pow_dvd_pow 2 (Nat.le_trans (Nat.le_of_lt hk) t.uintBits_le)

theorem IsAlignment.lt_modulus {alignment : Nat} (h : t.IsAlignment alignment) :
    alignment < t.modulus := by
  obtain ⟨k, hk, rfl⟩ := h
  exact Nat.pow_lt_pow_right (by decide) (Nat.lt_of_lt_of_le hk t.uintBits_le)

end Target

/-- The common 64-bit ABI: 8-byte `size_t`, blocks aligned to 16. -/
def x64 (debug : Bool) : Target where
  sizeofSizeT := 8
  defaultAlignment := 16
  uintBits := 32
  debug := debug
  poison i := if i % 2 = 0 then 0xAD else 0xDE
  sizeofSizeT_pos := by decide
  sizeofSizeT_le := by decide
  uintBits_le := by decide
  defaultAlignment_pow := ⟨4, by decide, rfl⟩

/-! ## Events and the pages they leave -/

/-- One thing the arena did to the outside world. -/
inductive Event
  /-- `_mulle_allocator_calloc( &mulle_allocator_default, …)` returned `r`. -/
  | obtained (r : Region)
  /-- `_mulle_allocator_free( &mulle_allocator_default, p)`. -/
  | returned (p : Nat)
  /-- The arena's code read or wrote the `n` bytes from `p`. -/
  | touched (p n : Nat)
  /-- `_pages[ i]` became the current page. -/
  | entered (i : Nat)
  /-- A reset rewound the arena. -/
  | rewound
  deriving DecidableEq, Repr

/-- The regions obtained from the default allocator and not yet returned, in
the order they were obtained. -/
def held : List Event → List Region
  | [] => []
  | .obtained r :: log => held log ++ [r]
  | .returned p :: log => (held log).eraseP fun r => r.base == p
  | _ :: log => held log

/-- The addresses passed back to the default allocator. -/
def returnedPages : List Event → List Nat
  | [] => []
  | .returned p :: log => p :: returnedPages log
  | _ :: log => returnedPages log

/-- The addresses the default allocator handed out. -/
def obtainedPages : List Event → List Nat
  | [] => []
  | .obtained r :: log => r.base :: obtainedPages log
  | _ :: log => obtainedPages log

/-- The page indices entered since the last reset, newest first. -/
def entries : List Event → List Nat
  | [] => []
  | .entered i :: log => i :: entries log
  | .rewound :: _ => []
  | _ :: log => entries log

@[simp] theorem held_obtained (r : Region) (log : List Event) :
    held (.obtained r :: log) = held log ++ [r] := rfl
@[simp] theorem held_returned (p : Nat) (log : List Event) :
    held (.returned p :: log) = (held log).eraseP fun r => r.base == p := rfl
@[simp] theorem held_touched (p n : Nat) (log : List Event) :
    held (.touched p n :: log) = held log := rfl
@[simp] theorem held_entered (i : Nat) (log : List Event) :
    held (.entered i :: log) = held log := rfl
@[simp] theorem held_rewound (log : List Event) : held (.rewound :: log) = held log := rfl

@[simp] theorem entries_obtained (r : Region) (log : List Event) :
    entries (.obtained r :: log) = entries log := rfl
@[simp] theorem entries_returned (p : Nat) (log : List Event) :
    entries (.returned p :: log) = entries log := rfl
@[simp] theorem entries_touched (p n : Nat) (log : List Event) :
    entries (.touched p n :: log) = entries log := rfl
@[simp] theorem entries_entered (i : Nat) (log : List Event) :
    entries (.entered i :: log) = i :: entries log := rfl
@[simp] theorem entries_rewound (log : List Event) : entries (.rewound :: log) = [] := rfl

/-- Only pages that are held are returned. -/
def ReturnsOk : List Event → Prop
  | [] => True
  | .returned p :: log => p ∈ (held log).map Region.base ∧ ReturnsOk log
  | _ :: log => ReturnsOk log

/-- Only bytes of pages that are held are touched. -/
def TouchesOk : List Event → Prop
  | [] => True
  | .touched p n :: log => (∃ r ∈ held log, r.Covers p n) ∧ TouchesOk log
  | _ :: log => TouchesOk log

/-- Every page obtained has been returned, or is held: counted with
multiplicity, an address obtained twice is returned twice. -/
theorem obtained_perm {log : List Event} (h : ReturnsOk log) :
    (obtainedPages log).Perm (returnedPages log ++ (held log).map Region.base) := by
  induction log with
  | nil => exact .nil
  | cons e log ih =>
    cases e with
    | obtained r =>
      have hperm := (ih h).cons r.base
      refine hperm.trans ?_
      rw [held_obtained, List.map_append, ← List.append_assoc]
      exact (List.perm_append_singleton r.base _).symm
    | returned p =>
      refine (ih h.2).trans ?_
      -- the region taken off `held` is the entry `p` of the list of bases
      have herase : ((held log).eraseP fun r => r.base == p).map Region.base
          = ((held log).map Region.base).erase p := by
        rw [List.erase_eq_eraseP, List.eraseP_map]
        congr 2
        funext r
        exact Bool.beq_comm
      rw [held_returned, herase, returnedPages]
      refine ((List.perm_cons_erase h.1).append_left _).trans ?_
      exact List.perm_middle
    | touched p n => exact ih h
    | entered i => exact ih h
    | rewound => exact ih h

/-! ## The arena and its memory -/

/-- `struct mulle_arena`; `NULL` is 0 and `_pages` is the list of its entries. -/
structure MulleArena where
  pages : List Nat
  current : Nat
  sentinel : Nat
  last : Nat
  pageSize : Nat
  pageIndex : Nat
  deriving DecidableEq, Repr

/-- The arena, memory, and the event log. -/
structure World extends MulleArena where
  mem : Mem
  log : List Event

namespace World

/-- `memset`/`mulle_memset_uint32`: `n` bytes from `p`, byte `i` being `f i`. -/
def memset (s : World) (p n : Nat) (f : Nat → UInt8) : World :=
  { s with mem := blit s.mem p n f, log := .touched p n :: s.log }

/-- `memcpy( dst, src, n)` between blocks of the arena. -/
def memcpy (s : World) (dst src n : Nat) : World :=
  { s with
    mem := blit s.mem dst n fun i => s.mem (src + i)
    log := .touched dst n :: .touched src n :: s.log }

/-- `memcpy( dst, src, n)` from memory of the caller. -/
def memcpyFrom (s : World) (dst src n : Nat) : World :=
  { s with
    mem := blit s.mem dst n fun i => s.mem (src + i)
    log := .touched dst n :: s.log }

/-- `*(size_t *) p = v`. -/
def storeSize (t : Target) (s : World) (p v : Nat) : World :=
  s.memset p t.sizeofSizeT (wordByte v)

/-- `*(size_t *) p`. -/
def loadSize (t : Target) (s : World) (p : Nat) : Nat × World :=
  (loadWord s.mem p t.sizeofSizeT, { s with log := .touched p t.sizeofSizeT :: s.log })

/-- `_mulle_allocator_free( &mulle_allocator_default, page)`. -/
def freePage (s : World) (page : Nat) : World := { s with log := .returned page :: s.log }

end World

end MulleStorage.Arena
