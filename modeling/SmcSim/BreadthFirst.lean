import Mathlib.Data.Nat.Find
import Mathlib.Data.List.Infix
import Mathlib.Data.List.Nodup
import Mathlib.Algebra.Order.Ring.Nat

/-!
# Breadth-first search

A search keeps the nodes that it has found in the order in which it found them and expands them
in that order; the nodes that wait in the queue are those behind the ones that have been
expanded. Its depths grow along that order and never by more than one beyond the node that is
expanded, so that in the end they are the lengths of shortest walks.
-/

namespace SmcSim.BreadthFirst
open Function List

variable {α : Type} [DecidableEq α]

/-- `b` is at the end of `n` edges that start at `a`. -/
inductive Walk (succ : α → List α) (a : α) : ℕ → α → Prop
  | refl : Walk succ a 0 a
  | snoc {n : ℕ} {b c : α} (h : Walk succ a n b) (hc : c ∈ succ b) : Walk succ a (n + 1) c

open Classical in
/-- The number of edges of a shortest walk. -/
noncomputable def distance (succ : α → List α) (a b : α) : Option ℕ :=
  if h : ∃ n, Walk succ a n b then some (Nat.find h) else none

structure Search (α : Type) where
  order : List α
  depth : α → ℕ

def visit (d : ℕ) (s : Search α) (w : α) : Search α :=
  if w ∈ s.order then s else ⟨s.order ++ [w], update s.depth w d⟩

def visitAll (d : ℕ) (s : Search α) (ws : List α) : Search α := ws.foldl (visit d) s

def start (a : α) : Search α := ⟨[a], fun _ => 0⟩

/-- The search after the first `k` of its nodes have been expanded. -/
def after (succ : α → List α) (a : α) : ℕ → Search α
  | 0 => start a
  | k + 1 =>
      let s := after succ a k
      match s.order[k]? with
      | some v => visitAll (s.depth v + 1) s (succ v)
      | none => s

def Search.depthSum (s : Search α) : ℕ := (s.order.map s.depth).sum

/-! ### What a visit changes -/

section Visits

variable {d k : ℕ} {s : Search α} {u v w : α} {ws : List α}

theorem visit_of_mem (d : ℕ) (h : w ∈ s.order) : visit d s w = s := if_pos h

theorem visit_of_not_mem (d : ℕ) (h : w ∉ s.order) :
    visit d s w = ⟨s.order ++ [w], update s.depth w d⟩ := if_neg h

theorem visitAll_nil (d : ℕ) (s : Search α) : visitAll d s [] = s := rfl

theorem visitAll_cons (d : ℕ) (s : Search α) (w : α) (ws : List α) :
    visitAll d s (w :: ws) = visitAll d (visit d s w) ws := rfl

theorem visitAll_concat (d : ℕ) (s : Search α) (ws : List α) (w : α) :
    visitAll d s (ws ++ [w]) = visit d (visitAll d s ws) w := by
  rw [visitAll, foldl_append]
  rfl

theorem mem_visit : u ∈ (visit d s w).order ↔ u ∈ s.order ∨ u = w := by
  by_cases hw : w ∈ s.order
  · rw [visit_of_mem d hw]
    constructor
    · exact .inl
    · rintro (hu | rfl)
      · exact hu
      · exact hw
  · rw [visit_of_not_mem d hw]
    simp

theorem order_le_visit (d : ℕ) (s : Search α) (w : α) : s.order <+: (visit d s w).order := by
  by_cases hw : w ∈ s.order
  · rw [visit_of_mem d hw]
  · rw [visit_of_not_mem d hw]
    exact prefix_append _ _

theorem depth_visit_of_mem (hu : u ∈ s.order) : (visit d s w).depth u = s.depth u := by
  by_cases hw : w ∈ s.order
  · rw [visit_of_mem d hw]
  · rw [visit_of_not_mem d hw]
    exact update_of_ne (fun huw : u = w => hw (huw ▸ hu)) _ _

theorem order_le_visitAll (d : ℕ) (s : Search α) (ws : List α) :
    s.order <+: (visitAll d s ws).order := by
  induction ws generalizing s with
  | nil => exact prefix_rfl
  | cons w ws ih => exact (order_le_visit d s w).trans (ih (visit d s w))

theorem depth_visitAll_of_mem (hu : u ∈ s.order) : (visitAll d s ws).depth u = s.depth u := by
  induction ws generalizing s with
  | nil => rfl
  | cons w ws ih =>
    rw [visitAll_cons, ih (mem_visit.mpr (.inl hu)), depth_visit_of_mem hu]

theorem mem_visitAll : u ∈ (visitAll d s ws).order ↔ u ∈ s.order ∨ u ∈ ws := by
  induction ws generalizing s with
  | nil => simp [visitAll_nil]
  | cons w ws ih => rw [visitAll_cons, ih, mem_visit, mem_cons, or_assoc]

omit [DecidableEq α] in
theorem getElem?_mono {xs ys : List α} (h : xs <+: ys) (hv : xs[k]? = some v) :
    ys[k]? = some v := by
  obtain ⟨zs, rfl⟩ := h
  rw [getElem?_append_left (List.getElem?_eq_some_iff.mp hv).1, hv]

theorem getElem?_visitAll (hv : s.order[k]? = some v) : (visitAll d s ws).order[k]? = some v :=
  getElem?_mono (order_le_visitAll d s ws) hv

theorem depthSum_visit (hw : w ∉ s.order) : (visit d s w).depthSum = s.depthSum + d := by
  have hold : s.order.map (update s.depth w d) = s.order.map s.depth := by
    refine map_congr_left (fun u hu => update_of_ne (fun huw => hw ?_) _ _)
    exact huw ▸ hu
  rw [visit_of_not_mem d hw, Search.depthSum, Search.depthSum, map_append, hold, sum_append]
  simp

end Visits

/-! ### Layers -/

/-- The first `k` nodes have been expanded, and perhaps some edges of the next one. -/
structure Layered (succ : α → List α) (a : α) (s : Search α) (k : ℕ) : Prop where
  nodup : s.order.Nodup
  first : s.order[0]? = some a
  root : s.depth a = 0
  walk : ∀ w ∈ s.order, Walk succ a (s.depth w) w
  sorted : s.order.Pairwise (fun v w => s.depth v ≤ s.depth w)
  window : ∀ v, s.order[k]? = some v → ∀ w ∈ s.order, s.depth w ≤ s.depth v + 1
  closed : ∀ i < k, ∀ v, s.order[i]? = some v →
    ∀ w ∈ succ v, w ∈ s.order ∧ s.depth w ≤ s.depth v + 1
  bound : ∀ w ∈ s.order, s.depth w < s.order.length

section Layers

variable {succ : α → List α} {a v w : α} {s : Search α} {k n : ℕ} {ws : List α}

omit [DecidableEq α] in
theorem layered_start (succ : α → List α) (a : α) : Layered succ a (start a) 0 where
  nodup := nodup_singleton a
  first := rfl
  root := rfl
  walk w hw := by
    obtain rfl := mem_singleton.mp hw
    exact .refl
  sorted := pairwise_singleton _ _
  window _ _ _ _ := Nat.zero_le _
  closed i hi := absurd hi (Nat.not_lt_zero i)
  bound _ _ := zero_lt_one

theorem Layered.visit (h : Layered succ a s k) (hv : s.order[k]? = some v) (hw : w ∈ succ v) :
    Layered succ a (visit (s.depth v + 1) s w) k := by
  by_cases hmem : w ∈ s.order
  · rw [visit_of_mem _ hmem]
    exact h
  have hvmem : v ∈ s.order := mem_of_getElem? hv
  have hold : ∀ u ∈ s.order, (BreadthFirst.visit (s.depth v + 1) s w).depth u = s.depth u :=
    fun u hu => depth_visit_of_mem hu
  have hnew : (BreadthFirst.visit (s.depth v + 1) s w).depth w = s.depth v + 1 := by
    rw [visit_of_not_mem _ hmem]
    exact update_self _ _ _
  have horder : (BreadthFirst.visit (s.depth v + 1) s w).order = s.order ++ [w] := by
    rw [visit_of_not_mem _ hmem]
  have hk : k < s.order.length := (List.getElem?_eq_some_iff.mp hv).1
  refine ⟨?_, ?_, ?_, fun u hu => ?_, ?_, fun x hx u hu => ?_, fun i hi x hx u hu => ?_,
    fun u hu => ?_⟩
  · rw [horder]
    exact nodup_append.mpr ⟨h.nodup, nodup_singleton w, fun x hx y hy hxy =>
      hmem (mem_singleton.mp hy ▸ hxy ▸ hx)⟩
  · exact getElem?_mono (order_le_visit _ _ _) h.first
  · rw [hold a (mem_of_getElem? h.first), h.root]
  · rcases mem_visit.mp hu with hu | rfl
    · rw [hold u hu]
      exact h.walk u hu
    · rw [hnew]
      exact (h.walk v hvmem).snoc hw
  · rw [horder]
    refine pairwise_append.mpr ⟨?_, pairwise_singleton _ _, fun x hx y hy => ?_⟩
    · refine h.sorted.imp_of_mem (fun {x y} hx hy hxy => ?_)
      rw [hold x hx, hold y hy]
      exact hxy
    · obtain rfl := mem_singleton.mp hy
      rw [hold x hx, hnew]
      exact h.window v hv x hx
  · rw [horder, getElem?_append_left hk, hv] at hx
    cases hx
    rw [hold v hvmem]
    rcases mem_visit.mp hu with hu | rfl
    · rw [hold u hu]
      exact h.window v hv u hu
    · exact le_of_eq hnew
  · rw [horder, getElem?_append_left (lt_trans hi hk)] at hx
    obtain ⟨humem, hle⟩ := h.closed i hi x hx u hu
    rw [hold u humem, hold x (mem_of_getElem? hx)]
    exact ⟨mem_visit.mpr (.inl humem), hle⟩
  · rw [horder, length_append, length_singleton]
    rcases mem_visit.mp hu with hu | rfl
    · rw [hold u hu]
      exact Nat.lt_succ_of_lt (h.bound u hu)
    · rw [hnew]
      exact Nat.succ_lt_succ (h.bound v hvmem)

theorem Layered.visitAll (h : Layered succ a s k) (hv : s.order[k]? = some v)
    (hws : ∀ w ∈ ws, w ∈ succ v) : Layered succ a (visitAll (s.depth v + 1) s ws) k := by
  induction ws generalizing s with
  | nil => exact h
  | cons w ws ih =>
    have hfirst := h.visit hv (hws w mem_cons_self)
    have hdepth : (BreadthFirst.visit (s.depth v + 1) s w).depth v = s.depth v :=
      depth_visit_of_mem (mem_of_getElem? hv)
    have hrest := ih hfirst (getElem?_mono (order_le_visit _ _ _) hv)
      (fun w' hw' => hws w' (mem_cons_of_mem _ hw'))
    rw [hdepth] at hrest
    exact hrest

omit [DecidableEq α] in
/-- A node all of whose edges have been visited is expanded. -/
theorem Layered.expanded (h : Layered succ a s k) (hv : s.order[k]? = some v)
    (hall : ∀ w ∈ succ v, w ∈ s.order) : Layered succ a s (k + 1) := by
  refine ⟨h.nodup, h.first, h.root, h.walk, h.sorted, fun v' hv' w hw => ?_,
    fun i hi x hx w hw => ?_,
    h.bound⟩
  · have hle : s.depth v ≤ s.depth v' := by
      obtain ⟨hk, rfl⟩ := List.getElem?_eq_some_iff.mp hv
      obtain ⟨hk', rfl⟩ := List.getElem?_eq_some_iff.mp hv'
      exact pairwise_iff_getElem.mp h.sorted k (k + 1) hk hk' (Nat.lt_succ_self k)
    have hwindow := h.window v hv w hw
    omega
  · rcases Nat.lt_succ_iff_lt_or_eq.mp hi with hlt | rfl
    · exact h.closed i hlt x hx w hw
    · cases hv.symm.trans hx
      exact ⟨hall w hw, h.window v hv w (hall w hw)⟩

omit [DecidableEq α] in
theorem Layered.exhausted (h : Layered succ a s k) (hlength : s.order.length ≤ k) :
    Layered succ a s (k + 1) := by
  have hnone : ∀ i, k ≤ i → s.order[i]? = none := fun i hi =>
    getElem?_eq_none (hlength.trans hi)
  refine ⟨h.nodup, h.first, h.root, h.walk, h.sorted, fun v hv => ?_, fun i hi x hx => ?_, h.bound⟩
  · rw [hnone (k + 1) (Nat.le_succ k)] at hv
    cases hv
  · rcases Nat.lt_succ_iff_lt_or_eq.mp hi with hlt | rfl
    · exact h.closed i hlt x hx
    · rw [hnone i (le_refl i)] at hx
      cases hx

/-- A node that the search has not expanded. -/
theorem after_succ_of_getElem? (hv : (after succ a k).order[k]? = some v) :
    after succ a (k + 1) =
      visitAll ((after succ a k).depth v + 1) (after succ a k) (succ v) := by
  simp only [after, hv]

theorem after_succ_of_length_le (hlength : (after succ a k).order.length ≤ k) :
    after succ a (k + 1) = after succ a k := by
  simp only [after, getElem?_eq_none hlength]

theorem layered_after (succ : α → List α) (a : α) (k : ℕ) : Layered succ a (after succ a k) k := by
  induction k with
  | zero => exact layered_start succ a
  | succ k ih =>
    cases hv : (after succ a k).order[k]? with
    | none =>
      have hlength := List.getElem?_eq_none_iff.mp hv
      rw [after_succ_of_length_le hlength]
      exact ih.exhausted hlength
    | some v =>
      rw [after_succ_of_getElem? hv]
      exact (ih.visitAll hv (fun w hw => hw)).expanded (getElem?_visitAll hv)
        (fun w hw => mem_visitAll.mpr (.inr hw))

theorem after_of_length_le (hlength : (after succ a k).order.length ≤ k) (hkn : k ≤ n) :
    after succ a n = after succ a k := by
  induction n, hkn using Nat.le_induction with
  | base => rfl
  | succ n hkn ih => rw [after_succ_of_length_le (ih ▸ hlength.trans hkn), ih]

/-- Nodes that have been found do not matter for a visit. -/
theorem visitAll_filter {p : α → Bool} (d : ℕ) (hp : ∀ w ∈ ws, ¬ p w → w ∈ s.order) :
    visitAll d s (ws.filter p) = visitAll d s ws := by
  induction ws generalizing s with
  | nil => rfl
  | cons w ws ih =>
    have hrest : ∀ u ∈ ws, ¬ p u → u ∈ (BreadthFirst.visit d s w).order := fun u hu hpu =>
      mem_visit.mpr (.inl (hp u (mem_cons_of_mem _ hu) hpu))
    by_cases hw : p w
    · rw [filter_cons_of_pos hw, visitAll_cons, visitAll_cons, ih hrest]
    · have hmem := hp w mem_cons_self hw
      rw [filter_cons_of_neg hw, visitAll_cons, visit_of_mem d hmem]
      rw [visit_of_mem d hmem] at hrest
      exact ih hrest

/-- A search does not depend on edges to its start. -/
theorem after_filter {p : α → Bool} (hp : ∀ v, ∀ w ∈ succ v, ¬ p w → w = a) (k : ℕ) :
    after (fun v => (succ v).filter p) a k = after succ a k := by
  induction k with
  | zero => rfl
  | succ k ih =>
    rw [after, after, ih]
    cases hv : (after succ a k).order[k]? with
    | none => rfl
    | some v =>
      refine visitAll_filter _ (fun w hw hclosed => ?_)
      rw [hp v w hw hclosed]
      exact mem_of_getElem? (layered_after succ a k).first

omit [DecidableEq α] in
/-- Every walk ends at a node that is not deeper than the walk is long. -/
theorem Layered.le_of_walk (h : Layered succ a s k) (hlength : s.order.length ≤ k)
    (hwalk : Walk succ a n w) : w ∈ s.order ∧ s.depth w ≤ n := by
  induction hwalk with
  | refl => exact ⟨mem_of_getElem? h.first, le_of_eq h.root⟩
  | snoc _ hc ih =>
    obtain ⟨hmem, hle⟩ := ih
    obtain ⟨i, hi⟩ := mem_iff_getElem?.mp hmem
    have hik : i < k := lt_of_lt_of_le (List.getElem?_eq_some_iff.mp hi).1 hlength
    obtain ⟨hmem', hle'⟩ := h.closed i hik _ hi _ hc
    exact ⟨hmem', hle'.trans (Nat.succ_le_succ hle)⟩

/-- A finished search has found the nodes with a walk, at their distances. -/
theorem Layered.distance_eq (h : Layered succ a s k) (hlength : s.order.length ≤ k) (w : α) :
    distance succ a w = if w ∈ s.order then some (s.depth w) else none := by
  classical
  by_cases hw : w ∈ s.order
  · have hex : ∃ n, Walk succ a n w := ⟨_, h.walk w hw⟩
    rw [distance, dif_pos hex, if_pos hw, Option.some.injEq]
    refine le_antisymm (Nat.find_le (h.walk w hw)) ?_
    exact (h.le_of_walk hlength (Nat.find_spec hex)).2
  · have hnot : ¬ ∃ n, Walk succ a n w := by
      rintro ⟨n, hwalk⟩
      exact hw (h.le_of_walk hlength hwalk).1
    rw [distance, dif_neg hnot, if_neg hw]

end Layers

end SmcSim.BreadthFirst
