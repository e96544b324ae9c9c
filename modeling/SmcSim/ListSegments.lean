import Mathlib.Data.List.Nodup

/-!
# Segments of a successor function

`Seg next a xs b` says that following `next` from `a` visits the cells `xs` in
order and then arrives at `b`. The cells and the successor function are
arbitrary: an intrusive free list, a chain of list nodes and one level of a skip
list are all segments. The rules below split, extend, splice and unlink a segment
without looking at how the successor function is stored. The last section orders the
elements of a list without repetitions by their positions.
-/

namespace SmcSim.ListSegments
open List

universe u

variable {α : Type u}

/-- Following `next` from `a` visits `xs` in order and stops at `b`. -/
def Seg (next : α → α) : α → List α → α → Prop
  | a, [], b => a = b
  | a, x :: xs, b => a = x ∧ Seg next (next x) xs b

variable {next next' : α → α} {a b m p : α} {xs ys : List α}

@[simp] theorem seg_nil : Seg next a [] b ↔ a = b := .rfl

@[simp] theorem seg_cons {x : α} :
    Seg next a (x :: xs) b ↔ a = x ∧ Seg next (next x) xs b := .rfl

theorem seg_append : Seg next a (xs ++ ys) b ↔ ∃ m, Seg next a xs m ∧ Seg next m ys b := by
  induction xs generalizing a with
  | nil => simp
  | cons x xs ih =>
    simp only [cons_append, seg_cons, ih]
    constructor
    · rintro ⟨ha, m, hx, hy⟩
      exact ⟨m, ⟨ha, hx⟩, hy⟩
    · rintro ⟨m, ⟨ha, hx⟩, hy⟩
      exact ⟨ha, m, hx, hy⟩

theorem Seg.trans (h : Seg next a xs m) (h' : Seg next m ys b) : Seg next a (xs ++ ys) b :=
  seg_append.mpr ⟨m, h, h'⟩

/-- The last cell of a segment points at its end. -/
theorem seg_concat : Seg next a (xs ++ [p]) b ↔ Seg next a xs p ∧ next p = b := by
  rw [seg_append]
  constructor
  · rintro ⟨m, hx, rfl, hp⟩
    exact ⟨hx, hp⟩
  · rintro ⟨hx, hp⟩
    exact ⟨p, hx, rfl, hp⟩

/-- A segment only depends on the successors of its own cells. -/
theorem Seg.congr (h : Seg next a xs b) (he : ∀ x ∈ xs, next' x = next x) :
    Seg next' a xs b := by
  induction xs generalizing a with
  | nil => exact h
  | cons x xs ih =>
    obtain ⟨ha, hx⟩ := h
    refine ⟨ha, ?_⟩
    rw [he x mem_cons_self]
    exact ih hx (fun y hy => he y (mem_cons_of_mem _ hy))

/-- The cells of a segment are determined by where it starts and stops. -/
theorem Seg.unique (h : Seg next a xs b) (h' : Seg next a ys b)
    (hx : b ∉ xs) (hy : b ∉ ys) : xs = ys := by
  induction xs generalizing a ys with
  | nil =>
    cases ys with
    | nil => rfl
    | cons y ys =>
      have hb : b = y := h.symm.trans h'.1
      exact absurd (hb ▸ mem_cons_self) hy
  | cons x xs ih =>
    cases ys with
    | nil =>
      have hb : b = x := h'.symm.trans h.1
      exact absurd (hb ▸ mem_cons_self) hx
    | cons y ys =>
      obtain ⟨rfl, hxs⟩ := h
      obtain ⟨rfl, hys⟩ := h'
      have := ih hxs hys (fun hm => hx (mem_cons_of_mem _ hm))
        (fun hm => hy (mem_cons_of_mem _ hm))
      rw [this]

section Splicing

variable {front back : List α} {n : α}

theorem Seg.splice (h : Seg next a (front ++ p :: back) b)
    (hf : ∀ x ∈ front, next' x = next x) (hp : next' p = n) (hn : next' n = next p)
    (hb : ∀ x ∈ back, next' x = next x) : Seg next' a (front ++ p :: n :: back) b := by
  obtain ⟨m, hfront, rfl, hback⟩ := seg_append.mp h
  refine (hfront.congr hf).trans ⟨rfl, hp, ?_⟩
  rw [hn]
  exact hback.congr hb

/-- Unlinking the cell behind a cell `p` of a segment. -/
theorem Seg.unlink (h : Seg next a (front ++ p :: n :: back) b)
    (hf : ∀ x ∈ front, next' x = next x) (hp : next' p = next n)
    (hb : ∀ x ∈ back, next' x = next x) : Seg next' a (front ++ p :: back) b := by
  obtain ⟨m, hfront, rfl, _, hback⟩ := seg_append.mp h
  refine (hfront.congr hf).trans ⟨rfl, ?_⟩
  rw [hp]
  exact hback.congr hb

end Splicing

/-! ### Positions in a list without repetitions -/

section Positions

variable [DecidableEq α] {l : List α} {x c : α}

/-- `a` stands at or before `b` in the list. -/
def UpTo (l : List α) (a b : α) : Prop := a ∈ l ∧ b ∈ l ∧ l.idxOf a ≤ l.idxOf b

theorem UpTo.refl (h : a ∈ l) : UpTo l a a := ⟨h, h, Nat.le_refl _⟩

theorem UpTo.trans (h : UpTo l a b) (h' : UpTo l b c) : UpTo l a c :=
  ⟨h.1, h'.2.1, Nat.le_trans h.2.2 h'.2.2⟩

theorem UpTo.antisymm (h : UpTo l a b) (h' : UpTo l b a) : a = b :=
  (idxOf_inj h.1).mp (Nat.le_antisymm h.2.2 h'.2.2)

/-- A list that grows at its end keeps the order of its elements. -/
theorem UpTo.append (h : UpTo l a b) (l' : List α) : UpTo (l ++ l') a b := by
  refine ⟨mem_append_left l' h.1, mem_append_left l' h.2.1, ?_⟩
  rw [idxOf_append_of_mem h.1, idxOf_append_of_mem h.2.1]
  exact h.2.2

/-- The position of the element behind `a`. -/
theorem idxOf_of_next (hl : l.Nodup) (h : l[l.idxOf a + 1]? = some x) :
    x ∈ l ∧ l.idxOf x = l.idxOf a + 1 := by
  obtain ⟨hlt, hget⟩ := List.getElem?_eq_some_iff.mp h
  refine ⟨mem_of_getElem? h, ?_⟩
  rw [← hget]
  exact hl.idxOf_getElem _ hlt

theorem upTo_next (hl : l.Nodup) (ha : a ∈ l) (h : l[l.idxOf a + 1]? = some x) : UpTo l a x := by
  obtain ⟨hx, hidx⟩ := idxOf_of_next hl h
  exact ⟨ha, hx, by omega⟩

theorem UpTo.behind (h : UpTo l a b) (hl : l.Nodup) (hne : a ≠ b)
    (hx : l[l.idxOf a + 1]? = some x) : UpTo l x b := by
  obtain ⟨hmem, hidx⟩ := idxOf_of_next hl hx
  have hlt : l.idxOf a ≠ l.idxOf b := fun heq => hne ((idxOf_inj h.1).mp heq)
  have hle := h.2.2
  exact ⟨hmem, h.2.1, by omega⟩

/-- Nothing stands behind the last element. -/
theorem UpTo.last (h : UpTo l a b) (hlast : l[l.idxOf a + 1]? = none) : a = b := by
  have hlen := List.getElem?_eq_none_iff.mp hlast
  have hb := idxOf_lt_length_of_mem h.2.1
  have hle := h.2.2
  exact (idxOf_inj h.1).mp (by omega)

end Positions

end SmcSim.ListSegments
