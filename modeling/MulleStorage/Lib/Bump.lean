/-!
# Stacks of blocks on a bump pointer

A bump allocator carves blocks from a sequence of pages by moving one cursor.
Whatever a block is, three numbers of it matter: the `page` it lies on, the
`key` it starts at, and its `edge`, where the cursor stood once it was placed.
`Stacked` says what the cursor discipline buys, for any block type:

- on one page, a newer block starts at or behind the edge of every older one;
- the cursor is at or behind the edge of every block of the current page;
- `last`, when set, is the key of the newest block, which is on the current page
  and whose edge is the cursor.

It is kept by the five moves a bump allocator makes: `push` a block (on the
current page or on a later one), `resize` the newest block in place, `rewind`
over it, and forget (`filter`) any others. In particular `last` can never name
a block with another block behind it (`eq_top`).
-/

namespace MulleStorage.Lib

variable {β : Type}

/-- The three numbers of a block. -/
structure Shape (β : Type) where
  page : β → Nat
  key : β → Nat
  edge : β → Nat

/-- `new` was carved after `old`: on a later page, or behind its edge. -/
def Shape.After (S : Shape β) (new old : β) : Prop :=
  S.page old < S.page new ∨ (S.page old = S.page new ∧ S.edge old ≤ S.key new)

/-- The blocks `l`, newest first, as the cursor discipline leaves them. -/
structure Stacked (S : Shape β) (page cursor last : Nat) (l : List β) : Prop where
  order : l.Pairwise S.After
  width : ∀ b ∈ l, S.key b < S.edge b
  page_le : ∀ b ∈ l, S.page b ≤ page
  below : ∀ b ∈ l, S.page b = page → S.edge b ≤ cursor
  top : last ≠ 0 → ∃ b l', l = b :: l' ∧ S.page b = page ∧ S.key b = last ∧ S.edge b = cursor

variable {S : Shape β} {page cursor last : Nat} {l : List β}

/-- Two entries of a list are the same, or related one way round. -/
theorem pairwise_trichotomy {R : β → β → Prop} (h : l.Pairwise R) {b c : β} (hb : b ∈ l)
    (hc : c ∈ l) : b = c ∨ R b c ∨ R c b := by
  induction l with
  | nil => exact absurd hb List.not_mem_nil
  | cons d l ih =>
    have hd := List.pairwise_cons.mp h
    rcases List.mem_cons.mp hb with rfl | hb' <;> rcases List.mem_cons.mp hc with rfl | hc'
    · exact Or.inl rfl
    · exact Or.inr (Or.inl (hd.1 c hc'))
    · exact Or.inr (Or.inr (hd.1 b hb'))
    · exact ih hd.2 hb' hc'

namespace Stacked

theorem nil (S : Shape β) (page cursor : Nat) : Stacked S page cursor 0 [] where
  order := .nil
  width := by simp
  page_le := by simp
  below := by simp
  top h := absurd rfl h

/-- A block carved behind the cursor, or on a later page, goes on top. -/
theorem push (h : Stacked S page cursor last l) {b : β} {cursor' : Nat}
    (hnew : page < S.page b ∨ page = S.page b ∧ cursor ≤ S.key b)
    (hwidth : S.key b < S.edge b) (hedge : S.edge b = cursor') :
    Stacked S (S.page b) cursor' (S.key b) (b :: l) where
  order := by
    refine List.pairwise_cons.mpr ⟨?_, h.order⟩
    intro c hc
    have hle := h.page_le c hc
    rcases hnew with hlt | ⟨heq, hcur⟩
    · exact Or.inl (Nat.lt_of_le_of_lt hle hlt)
    · rcases Nat.lt_or_eq_of_le hle with hlt | hpage
      · exact Or.inl (heq ▸ hlt)
      · -- both on the current page: behind the cursor is behind every edge
        exact Or.inr ⟨hpage.trans heq, Nat.le_trans (h.below c hc hpage) hcur⟩
  width := List.forall_mem_cons.mpr ⟨hwidth, h.width⟩
  page_le := by
    refine List.forall_mem_cons.mpr ⟨Nat.le_refl _, ?_⟩
    intro c hc
    have hle := h.page_le c hc
    omega
  below := by
    refine List.forall_mem_cons.mpr ⟨fun _ => Nat.le_of_eq hedge, ?_⟩
    intro c hc hpage
    have hle := h.page_le c hc
    rcases hnew with hlt | ⟨heq, hcur⟩
    · omega
    · have hbelow := h.below c hc (hpage.trans heq.symm)
      omega
  top _ := ⟨b, l, rfl, rfl, rfl, hedge⟩

/-- Forgetting blocks keeps the stack, as long as the one `last` names stays. -/
theorem filter (h : Stacked S page cursor last l) (p : β → Bool)
    (hkeep : last ≠ 0 → ∀ b ∈ l, S.page b = page → S.key b = last → p b = true) :
    Stacked S page cursor last (l.filter p) where
  order := h.order.filter p
  width b hb := h.width b (List.mem_filter.mp hb).1
  page_le b hb := h.page_le b (List.mem_filter.mp hb).1
  below b hb := h.below b (List.mem_filter.mp hb).1
  top hlast := by
    obtain ⟨b, l', rfl, hpage, hkey, hedge⟩ := h.top hlast
    refine ⟨b, l'.filter p, ?_, hpage, hkey, hedge⟩
    rw [List.filter_cons_of_pos (hkeep hlast b List.mem_cons_self hpage hkey)]

/-- Forgetting blocks while `last` is cleared. -/
theorem clear (h : Stacked S page cursor last l) : Stacked S page cursor 0 l where
  order := h.order
  width := h.width
  page_le := h.page_le
  below := h.below
  top hlast := absurd rfl hlast

/-- The newest block may be replaced by one with the same page and key. -/
theorem resize {b b' : β} (h : Stacked S page cursor last (b :: l)) {cursor' : Nat}
    (hpage : S.page b = page) (hpage' : S.page b' = page) (hkey : S.key b' = S.key b)
    (hwidth : S.key b' < S.edge b') (hedge : S.edge b' = cursor') :
    Stacked S page cursor' (S.key b) (b' :: l) where
  order := by
    have horder := List.pairwise_cons.mp h.order
    refine List.pairwise_cons.mpr ⟨?_, horder.2⟩
    intro c hc
    have hafter := horder.1 c hc
    unfold Shape.After at hafter ⊢
    rw [hpage', hkey, ← hpage]
    exact hafter
  width := List.forall_mem_cons.mpr ⟨hwidth, (List.forall_mem_cons.mp h.width).2⟩
  page_le := List.forall_mem_cons.mpr ⟨Nat.le_of_eq hpage', (List.forall_mem_cons.mp h.page_le).2⟩
  below := by
    refine List.forall_mem_cons.mpr ⟨fun _ => Nat.le_of_eq hedge, ?_⟩
    intro c hc hc'
    have hafter := (List.pairwise_cons.mp h.order).1 c hc
    unfold Shape.After at hafter
    omega
  top _ := ⟨b', l, rfl, hpage', hkey, hedge⟩

/-- The cursor may step back to the key of the newest block, which goes. -/
theorem rewind {b : β} (h : Stacked S page cursor last (b :: l)) (hpage : S.page b = page) :
    Stacked S page (S.key b) 0 l where
  order := (List.pairwise_cons.mp h.order).2
  width := (List.forall_mem_cons.mp h.width).2
  page_le := (List.forall_mem_cons.mp h.page_le).2
  below c hc hc' := by
    have hafter := (List.pairwise_cons.mp h.order).1 c hc
    unfold Shape.After at hafter
    omega
  top hlast := absurd rfl hlast

/-- A block of the current page whose key is `last` is the newest one. -/
theorem eq_top {b c : β} (h : Stacked S page cursor last (c :: l)) (hb : b ∈ c :: l)
    (hc : S.page c = page) (hckey : S.key c = last) (hpage : S.page b = page)
    (hkey : S.key b = last) : b = c := by
  rcases List.mem_cons.mp hb with heq | hmem
  · exact heq
  · -- an older block ends in front of `c`, and is not empty, so it starts elsewhere
    have hafter := (List.pairwise_cons.mp h.order).1 b hmem
    have hwidth := h.width b hb
    unfold Shape.After at hafter
    omega

end Stacked

end MulleStorage.Lib
