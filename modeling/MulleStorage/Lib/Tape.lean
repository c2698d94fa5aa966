import MulleStorage.Lib.Align

/-!
# A head on a tape of pages

A bump allocator goes through its pages in order and never back, like a head on a
tape. `Head.serve` is one request on a tape of `pages`, all of one `size`: the
newest block is resized where it is, anything else goes behind the head, on the
page it is on or at the start of the next. On a tape that ends there is no answer.

`Played` collects the requests and answers from the start of a tape. They are a
function of the tape and the requests (`Played.unique`); and a tape that was long
enough stays so when pages are added to it (`Played.mono`).
-/

namespace MulleStorage.Lib

/-- A request for `size` aligned bytes, to replace `block` unless that is 0. -/
structure Request where
  block : Nat
  size : Nat
  alignment : Nat
  deriving DecidableEq, Repr

/-- The request fits a page whatever the padding. -/
structure Request.Regular (pageSize : Nat) (q : Request) : Prop where
  size_pos : 0 < q.size
  alignment_pos : 0 < q.alignment
  fits : q.size + (q.alignment - 1) ≤ pageSize

instance (pageSize : Nat) (q : Request) : Decidable (q.Regular pageSize) :=
  decidable_of_iff (0 < q.size ∧ 0 < q.alignment ∧ q.size + (q.alignment - 1) ≤ pageSize)
    ⟨fun ⟨h₁, h₂, h₃⟩ => ⟨h₁, h₂, h₃⟩, fun h => ⟨h.size_pos, h.alignment_pos, h.fits⟩⟩

/-- The number of the page the head is on, how much of it is used, and where the
newest block starts, or 0. -/
structure Head where
  page : Nat
  used : Nat
  last : Nat
  deriving DecidableEq, Repr

namespace Head

/-- At the start of the first page. -/
def start : Head := ⟨0, 0, 0⟩

/-- A block on the page `page` at `base`, of which `used` bytes are used. -/
def place (q : Request) (page base used : Nat) : Nat × Head :=
  let p := alignUp q.alignment (base + used)
  (p, ⟨page, p + q.size - base, p⟩)

/-- A block behind the head, which is on the page at `base`. -/
def advance (pages : List Nat) (size base : Nat) (q : Request) (h : Head) : Option (Nat × Head) :=
  if alignUp q.alignment (base + h.used) + q.size ≤ base + size then
    some (place q h.page base h.used)
  else pages[h.page + 1]?.map fun next => place q (h.page + 1) next 0

/-- One request. -/
def serve (pages : List Nat) (size : Nat) (q : Request) (h : Head) : Option (Nat × Head) :=
  pages[h.page]?.bind fun base =>
    if q.block ≠ 0 ∧ q.block = h.last ∧ h.last + q.size ≤ base + size then
      some (q.block, { h with used := h.last + q.size - base })
    else advance pages size base q h

variable {pages pages' : List Nat} {size base p : Nat} {q : Request} {h h' : Head}

theorem getElem?_of_more (hpages : pages <+: pages') {k : Nat} (hk : pages[k]? = some base) :
    pages'[k]? = some base := by
  obtain ⟨more, rfl⟩ := hpages
  rw [List.getElem?_append_left (List.getElem?_eq_some_iff.mp hk).1]
  exact hk

/-- Pages behind those needed do not matter. -/
theorem serve_mono (hpages : pages <+: pages') (hs : serve pages size q h = some (p, h')) :
    serve pages' size q h = some (p, h') := by
  obtain ⟨base, hbase, hserve⟩ := Option.bind_eq_some_iff.mp hs
  unfold serve
  rw [getElem?_of_more hpages hbase]
  dsimp only [Option.bind_some]
  split at hserve
  next hplace =>
    rw [if_pos hplace]
    exact hserve
  next hplace =>
    rw [if_neg hplace]
    unfold advance at hserve ⊢
    split at hserve
    next hfit =>
      rw [if_pos hfit]
      exact hserve
    next hfit =>
      rw [if_neg hfit]
      obtain ⟨next, hnext, hplaced⟩ := Option.map_eq_some_iff.mp hserve
      rw [getElem?_of_more hpages hnext]
      exact congrArg some hplaced

end Head

/-- The requests `tr.map Prod.fst`, made from the start of the tape, were answered
by `tr.map Prod.snd`, and `h` is where the head is now. -/
inductive Played (pages : List Nat) (size : Nat) : List (Request × Nat) → Head → Prop
  | nil : Played pages size [] .start
  | snoc {tr : List (Request × Nat)} {h h' : Head} {q : Request} {p : Nat} :
      Played pages size tr h → h.serve pages size q = some (p, h') →
      Played pages size (tr ++ [(q, p)]) h'

namespace Played

variable {pages pages' : List Nat} {size p : Nat} {tr tr' : List (Request × Nat)} {h h' : Head}
  {q : Request}

theorem mono (hpages : pages <+: pages') (hp : Played pages size tr h) :
    Played pages' size tr h := by
  induction hp with
  | nil => exact .nil
  | snoc _ hs ih => exact ih.snoc (Head.serve_mono hpages hs)

/-- The last answer. -/
theorem snoc_inv (hp : Played pages size (tr ++ [(q, p)]) h') :
    ∃ h, Played pages size tr h ∧ h.serve pages size q = some (p, h') := by
  generalize heq : tr ++ [(q, p)] = tr' at hp
  cases hp with
  | nil => exact absurd heq (List.append_ne_nil_of_right_ne_nil tr (List.cons_ne_nil _ _))
  | @snoc tr' h _ q' p' hp hs =>
    obtain ⟨rfl, hlast⟩ := List.append_inj' heq rfl
    obtain ⟨rfl, rfl⟩ := Prod.mk.inj (List.singleton_inj.mp hlast)
    exact ⟨h, hp, hs⟩

/-- **A function of the requests.** The same requests get the same answers. -/
theorem unique (hp : Played pages size tr h) (hp' : Played pages size tr' h')
    (hasked : tr'.map Prod.fst = tr.map Prod.fst) : tr' = tr ∧ h' = h := by
  induction hp generalizing tr' h' with
  | nil =>
    obtain rfl : tr' = [] := List.map_eq_nil_iff.mp hasked
    generalize heq : ([] : List (Request × Nat)) = tr' at hp'
    cases hp' with
    | nil => exact ⟨rfl, rfl⟩
    | snoc => exact absurd heq.symm (List.append_ne_nil_of_right_ne_nil _ (List.cons_ne_nil _ _))
  | @snoc tr h₁ h₂ q p _ hs ih =>
    rw [List.map_append] at hasked
    obtain ⟨tr₀, last, rfl, hfront, hlast⟩ := List.map_eq_append_iff.mp hasked
    obtain ⟨⟨q', p'⟩, rfl, rfl⟩ := List.map_eq_singleton_iff.mp hlast
    obtain ⟨h₀, hp₀, hs₀⟩ := hp'.snoc_inv
    obtain ⟨rfl, rfl⟩ := ih hp₀ hfront
    obtain ⟨rfl, rfl⟩ := Prod.mk.inj (Option.some.inj (hs.symm.trans hs₀))
    exact ⟨rfl, rfl⟩

/-- A run that stops early. -/
theorem of_more (hp : Played pages size tr h) (hpre : tr' <+: tr) :
    ∃ h', Played pages size tr' h' := by
  induction hp with
  | nil =>
    obtain rfl := List.prefix_nil.mp hpre
    exact ⟨_, .nil⟩
  | snoc hp hs ih =>
    rcases List.prefix_concat_iff.mp hpre with rfl | hpre
    · exact ⟨_, hp.snoc hs⟩
    · exact ih hpre

/-- What the tape answers next. -/
theorem next (hp : Played pages size tr h) (hp' : Played pages size tr' h')
    (hasked : tr'.map Prod.fst ++ [q] <+: tr.map Prod.fst) :
    ∃ p h'', h'.serve pages size q = some (p, h'') ∧ tr' ++ [(q, p)] <+: tr := by
  obtain ⟨rest, hrest⟩ := hasked
  obtain ⟨front, back, rfl, hfront, -⟩ := List.map_eq_append_iff.mp hrest.symm
  obtain ⟨tr₀, last, rfl, htr₀, hlast⟩ := List.map_eq_append_iff.mp hfront
  obtain ⟨⟨q, p⟩, rfl, rfl⟩ := List.map_eq_singleton_iff.mp hlast
  obtain ⟨h₁, hp₁⟩ := hp.of_more (List.prefix_append _ back)
  obtain ⟨h₀, hp₀, hs₀⟩ := hp₁.snoc_inv
  obtain ⟨rfl, rfl⟩ := hp₀.unique hp' htr₀.symm
  exact ⟨p, h₁, hs₀, List.prefix_append _ back⟩

/-- Requests that are a part of those answered get a part of the answers. -/
theorem prefix_of_asked (hp : Played pages size tr h) (hp' : Played pages size tr' h')
    (hasked : tr'.map Prod.fst <+: tr.map Prod.fst) : tr' <+: tr := by
  obtain ⟨rest, hrest⟩ := hasked
  obtain ⟨front, back, rfl, hfront, -⟩ := List.map_eq_append_iff.mp hrest.symm
  obtain ⟨h₁, hp₁⟩ := hp.of_more (List.prefix_append _ back)
  obtain ⟨rfl, -⟩ := hp₁.unique hp' hfront.symm
  exact List.prefix_append _ back

end Played

end MulleStorage.Lib
