import Mathlib.Data.List.Perm.Basic
import Mathlib.Algebra.Order.Ring.Int

/-!
# Rearranging a range of an array in place

Positions are integers, as for a program that may step one place outside the
array. `Rearranged xs ys lo hi` is what an in-place algorithm working on
`[lo, hi]` guarantees: a permutation of the whole, untouched outside the range,
and holding inside the range only what the range held before.
-/

namespace SmcSim.ArrayRearrangement

universe u

variable {α : Type u} [Inhabited α]

/-- The entry at a position; only meaningful inside the array. -/
def entry (xs : List α) (t : ℤ) : α := xs.getD t.toNat default

theorem getElem?_toNat {xs : List α} {t : ℤ} (h0 : 0 ≤ t) (h : t < xs.length) :
    xs[t.toNat]? = some (entry xs t) := by
  have hb : t.toNat < xs.length := by omega
  simp [entry, hb]

theorem entry_mem {xs : List α} {t : ℤ} (h0 : 0 ≤ t) (h : t < xs.length) : entry xs t ∈ xs :=
  List.mem_of_getElem? (getElem?_toNat h0 h)

def swap (xs : List α) (i j : ℤ) : List α :=
  (xs.set i.toNat (entry xs j)).set j.toNat (entry xs i)

theorem swap_perm {xs : List α} {i j : ℤ} (hi0 : 0 ≤ i) (hi : i < xs.length) (hj : j < xs.length) :
    (swap xs i j).Perm xs := by
  have hi' : i.toNat < xs.length := by omega
  have hj' : j.toNat < xs.length := by omega
  have he : swap xs i j = (xs.set i.toNat xs[j.toNat]).set j.toNat xs[i.toNat] := by
    simp [swap, entry, hi', hj']
  rw [he]
  exact List.set_set_perm hi' hj'

theorem entry_swap_right {xs : List α} {i j : ℤ} (hj0 : 0 ≤ j) (hj : j < xs.length) :
    entry (swap xs i j) j = entry xs i := by
  have hj' : j.toNat < xs.length := by omega
  simp [swap, entry, hj']

theorem entry_swap_left {xs : List α} {i j : ℤ} (hi0 : 0 ≤ i) (hi : i < xs.length)
    (hj0 : 0 ≤ j) (hij : i ≠ j) : entry (swap xs i j) i = entry xs j := by
  have hi' : i.toNat < xs.length := by omega
  have hne : ¬ j.toNat = i.toNat := by omega
  simp [swap, entry, hi', hne]

theorem entry_swap_other {xs : List α} {i j t : ℤ} (hi0 : 0 ≤ i) (hj0 : 0 ≤ j) (ht : 0 ≤ t)
    (hti : t ≠ i) (htj : t ≠ j) : entry (swap xs i j) t = entry xs t := by
  have hni : ¬ i.toNat = t.toNat := by omega
  have hnj : ¬ j.toNat = t.toNat := by omega
  simp [swap, entry, hni, hnj]

structure Rearranged (xs ys : List α) (lo hi : ℤ) : Prop where
  perm : ys.Perm xs
  outside : ∀ t, 0 ≤ t → t < lo ∨ hi < t → entry ys t = entry xs t
  inside : ∀ t, lo ≤ t → t ≤ hi → ∃ t', lo ≤ t' ∧ t' ≤ hi ∧ entry ys t = entry xs t'

namespace Rearranged

variable {xs ys zs : List α} {lo hi lo' hi' : ℤ}

theorem refl (xs : List α) (lo hi : ℤ) : Rearranged xs xs lo hi :=
  ⟨.refl _, fun _ _ _ => rfl, fun t h h' => ⟨t, h, h', rfl⟩⟩

theorem length_eq (h : Rearranged xs ys lo hi) : ys.length = xs.length := h.perm.length_eq

/-- Working on a smaller range afterwards stays within the larger one. -/
theorem trans (hlo : 0 ≤ lo) (h : Rearranged xs ys lo hi) (h' : Rearranged ys zs lo' hi')
    (hl : lo ≤ lo') (hh : hi' ≤ hi) : Rearranged xs zs lo hi := by
  refine ⟨h'.perm.trans h.perm, ?_, ?_⟩
  · intro t h0 ht
    rw [h'.outside t h0 (by omega), h.outside t h0 ht]
  · intro t ht ht'
    by_cases hin : lo' ≤ t ∧ t ≤ hi'
    · obtain ⟨u, hu, hu', he⟩ := h'.inside t hin.1 hin.2
      obtain ⟨v, hv, hv', he'⟩ := h.inside u (by omega) (by omega)
      exact ⟨v, hv, hv', he.trans he'⟩
    · rw [h'.outside t (by omega) (by omega)]
      exact h.inside t ht ht'

theorem swap {i j : ℤ} (hlo : 0 ≤ lo) (hhi : hi < xs.length) (hi0 : lo ≤ i) (hi1 : i ≤ hi)
    (hj0 : lo ≤ j) (hj1 : j ≤ hi) (hij : i ≠ j) :
    Rearranged xs (ArrayRearrangement.swap xs i j) lo hi := by
  refine ⟨swap_perm (by omega) (by omega) (by omega), ?_, ?_⟩
  · intro t h0 ht
    exact entry_swap_other (by omega) (by omega) h0 (by omega) (by omega)
  · intro t ht ht'
    by_cases hti : t = i
    · subst hti
      exact ⟨j, hj0, hj1, entry_swap_left (by omega) (by omega) (by omega) hij⟩
    by_cases htj : t = j
    · subst htj
      exact ⟨i, hi0, hi1, entry_swap_right (by omega) (by omega)⟩
    exact ⟨t, ht, ht', entry_swap_other (by omega) (by omega) (by omega) hti htj⟩

/-- A property of all entries of the range survives a rearrangement of it. -/
theorem forall_inside {P : α → Prop} (h : Rearranged xs ys lo hi)
    (hP : ∀ t, lo ≤ t → t ≤ hi → P (entry xs t)) : ∀ t, lo ≤ t → t ≤ hi → P (entry ys t) := by
  intro t ht ht'
  obtain ⟨u, hu, hu', he⟩ := h.inside t ht ht'
  rw [he]
  exact hP u hu hu'

end Rearranged

/-- The entries of a range are in order of `rank`. -/
def SortedRange (rank : α → ℕ) (xs : List α) (lo hi : ℤ) : Prop :=
  ∀ a b, lo ≤ a → a ≤ b → b ≤ hi → rank (entry xs a) ≤ rank (entry xs b)

variable {rank : α → ℕ} {xs ys : List α} {lo mid hi : ℤ}

/-- Two sorted halves with a pivot value between them make a sorted range. -/
theorem SortedRange.append {p : ℕ} (hl : SortedRange rank xs lo mid)
    (hr : SortedRange rank xs (mid + 1) hi)
    (hle : ∀ t, lo ≤ t → t ≤ mid → rank (entry xs t) ≤ p)
    (hge : ∀ t, mid + 1 ≤ t → t ≤ hi → p ≤ rank (entry xs t)) :
    SortedRange rank xs lo hi := by
  intro a b ha hab hb
  by_cases hbm : b ≤ mid
  · exact hl a b ha hab hbm
  by_cases ham : a ≤ mid
  · exact (hle a ha ham).trans (hge b (by omega) hb)
  · exact hr a b (by omega) hab hb

theorem SortedRange.of_outside {lo' hi' : ℤ} (h : SortedRange rank xs lo hi) (hlo : 0 ≤ lo)
    (hr : Rearranged xs ys lo' hi') (hd : hi < lo' ∨ hi' < lo) : SortedRange rank ys lo hi := by
  intro a b ha hab hb
  rw [hr.outside a (by omega) (by omega), hr.outside b (by omega) (by omega)]
  exact h a b ha hab hb

theorem SortedRange.pairwise (h : SortedRange rank xs 0 ((xs.length : ℤ) - 1)) :
    xs.Pairwise (fun a b => rank a ≤ rank b) := by
  rw [List.pairwise_iff_getElem]
  intro i j hi hj hij
  have hh := h i j (by omega) (by omega) (by omega)
  simpa [entry, hi, hj] using hh

end SmcSim.ArrayRearrangement
