import SmcSim.SgraphBfs

/-!
# One pass of Bellman-Ford over a weighted graph

`execute_kernel` of `sgraph_bellman_ford.c` built as `kernel_default`, and `run_golden` of the
application's `utils.hh`, whose value the application compares with the kernel's. Both make the same
pass over the edges. The kernel adds the weight of an edge to its check value only if the edge
lowers a distance; the golden model adds every weight.
-/

namespace SmcSim.SgraphBellmanFord
open SgraphBfs List Function

structure WeightedGraph extends Graph where
  weights : ℕ → List ℕ
  length_weights : ∀ v, (weights v).length = (successors v).length
  weights_lt : ∀ v, ∀ w ∈ weights v, w < word

def WeightedGraph.edges (W : WeightedGraph) (u : ℕ) : List (ℕ × ℕ) :=
  (W.successors u).zip (W.weights u)

/-! ### The two passes -/

structure State where
  distance : ℕ → ℕ
  checksum : ℕ

/-- `u->distance != NC && v->distance > u->distance + w`. -/
def Improves (distance : ℕ → ℕ) (u : ℕ) (e : ℕ × ℕ) : Prop :=
  distance u ≠ nc ∧ (distance u + e.2) % word < distance e.1

instance (distance : ℕ → ℕ) (u : ℕ) (e : ℕ × ℕ) : Decidable (Improves distance u e) :=
  inferInstanceAs (Decidable (_ ∧ _))

/-- `v->distance = u->distance + w`. -/
def relax (distance : ℕ → ℕ) (u : ℕ) (e : ℕ × ℕ) : ℕ → ℕ :=
  update distance e.1 ((distance u + e.2) % word)

/-- The body of the loops of `kernel_default`. -/
def visitEdge (u : ℕ) (s : State) (e : ℕ × ℕ) : State :=
  if Improves s.distance u e then ⟨relax s.distance u e, (s.checksum + e.2) % word⟩ else s

/-- The body of the loops of `run_golden`. -/
def visitEdgeGolden (u : ℕ) (s : State) (e : ℕ × ℕ) : State :=
  let distance := if Improves s.distance u e then relax s.distance u e else s.distance
  ⟨distance, (s.checksum + e.2) % word⟩

/-- The nodes before `r` have been visited. -/
def pass (visit : ℕ → State → ℕ × ℕ → State) (W : WeightedGraph) (distance : ℕ → ℕ) : ℕ → State
  | 0 => ⟨distance, 0⟩
  | r + 1 => (W.edges r).foldl (visit r) (pass visit W distance r)

/-- The check value is left in `SREG[3]`. -/
def executeKernel (W : WeightedGraph) (distance : ℕ → ℕ) : State :=
  pass visitEdge W distance W.nodes

def runGolden (W : WeightedGraph) (distance : ℕ → ℕ) : State :=
  pass visitEdgeGolden W distance W.nodes

/-! ### The check values -/

/-- The weight of an edge that does not lower a distance when it is visited. -/
def skipped (distance : ℕ → ℕ) (u : ℕ) (e : ℕ × ℕ) : ℕ := if Improves distance u e then 0 else e.2

/-- The weights of such edges among those of `u`. -/
def skippedAt (u : ℕ) : State → List (ℕ × ℕ) → ℕ
  | _, [] => 0
  | s, e :: es => skipped s.distance u e + skippedAt u (visitEdge u s e) es

/-- The weights of such edges of the nodes before `r`. -/
def skippedBefore (W : WeightedGraph) (distance : ℕ → ℕ) : ℕ → ℕ
  | 0 => 0
  | r + 1 => skippedBefore W distance r + skippedAt r (pass visitEdge W distance r) (W.edges r)

variable {W : WeightedGraph} {distance : ℕ → ℕ} {u r k : ℕ} {s t : State}

/-- The golden model has the same distances, and the weights that were skipped in addition. -/
structure Ahead (k : ℕ) (s t : State) : Prop where
  distance : t.distance = s.distance
  checksum : t.checksum % word = (s.checksum + k) % word
  bound : s.checksum < word ∧ t.checksum < word

theorem Ahead.visitEdge (h : Ahead k s t) (u : ℕ) (e : ℕ × ℕ) :
    Ahead (k + skipped s.distance u e) (visitEdge u s e) (visitEdgeGolden u t e) := by
  have hchecksum := h.checksum
  rw [SgraphBellmanFord.visitEdge, visitEdgeGolden, skipped, h.distance]
  by_cases himproves : Improves s.distance u e
  · simp only [if_pos himproves]
    refine ⟨rfl, ?_, Nat.mod_lt _ (by decide), Nat.mod_lt _ (by decide)⟩
    change (t.checksum + e.2) % word % word = ((s.checksum + e.2) % word + (k + 0)) % word
    rw [word] at hchecksum ⊢
    omega
  · simp only [if_neg himproves]
    refine ⟨rfl, ?_, h.bound.1, Nat.mod_lt _ (by decide)⟩
    change (t.checksum + e.2) % word % word = (s.checksum + (k + e.2)) % word
    rw [word] at hchecksum ⊢
    omega

theorem Ahead.foldl (h : Ahead k s t) (u : ℕ) (es : List (ℕ × ℕ)) :
    Ahead (k + skippedAt u s es) (es.foldl (SgraphBellmanFord.visitEdge u) s)
      (es.foldl (visitEdgeGolden u) t) := by
  induction es generalizing k s t with
  | nil => exact h
  | cons e es ih =>
    rw [foldl_cons, foldl_cons, skippedAt, ← add_assoc]
    exact ih (h.visitEdge u e)

theorem ahead_pass (W : WeightedGraph) (distance : ℕ → ℕ) (r : ℕ) :
    Ahead (skippedBefore W distance r) (pass visitEdge W distance r)
      (pass visitEdgeGolden W distance r) := by
  induction r with
  | zero => exact ⟨rfl, rfl, (by decide : 0 < word), (by decide : 0 < word)⟩
  | succ r ih => exact ih.foldl r (W.edges r)

/-- The distances always agree; the check values agree exactly if the weights of the edges that do
not lower a distance when they are visited add up to 0 in a `ulong_t`. -/
theorem executeKernel_golden (W : WeightedGraph) (distance : ℕ → ℕ) :
    (executeKernel W distance).distance = (runGolden W distance).distance ∧
      ((executeKernel W distance).checksum = (runGolden W distance).checksum ↔
        skippedBefore W distance W.nodes % word = 0) := by
  have hahead := ahead_pass W distance W.nodes
  refine ⟨hahead.distance.symm, ?_⟩
  have hchecksum := hahead.checksum
  obtain ⟨hkernel, hgolden⟩ := hahead.bound
  change (executeKernel W distance).checksum < word at hkernel
  change (runGolden W distance).checksum < word at hgolden
  change (runGolden W distance).checksum % word =
    ((executeKernel W distance).checksum + _) % word at hchecksum
  rw [word] at *
  omega

/-! ### One node at a time -/

/-- A distance is lowered along an edge from a node at distance `d`. -/
def lower (d : ℕ) (distance : ℕ → ℕ) (e : ℕ × ℕ) : ℕ → ℕ :=
  if (d + e.2) % word < distance e.1 then update distance e.1 ((d + e.2) % word) else distance

/-- The distances when the nodes before `r` have been visited. -/
def distanceBefore (W : WeightedGraph) (distance : ℕ → ℕ) (r : ℕ) : ℕ → ℕ :=
  (pass visitEdge W distance r).distance

/-- The sum of the weights along a path from node 0 with the nodes `us` before its end. The end may
be one of them, but nothing follows it then. -/
inductive PathSum (W : WeightedGraph) : List ℕ → ℕ → ℕ → Prop
  | start : PathSum W [] 0 0
  | edge {us : List ℕ} {u d : ℕ} {e : ℕ × ℕ} (h : PathSum W us u d) (hnew : u ∉ us)
      (he : e ∈ W.edges u) : PathSum W (u :: us) e.1 (d + e.2)

variable {d : ℕ}

variable {e : ℕ × ℕ} {es : List (ℕ × ℕ)}

theorem lower_of_le (d : ℕ) (h : distance e.1 ≤ (d + e.2) % word) :
    lower d distance e = distance := if_neg (Nat.not_lt_of_le h)

theorem lower_apply_of_le (hwrap : d + e.2 < word) (h : distance u ≤ d) :
    lower d distance e u = distance u := by
  by_cases hu : u = e.1
  · subst hu
    rw [lower_of_le]
    rw [Nat.mod_eq_of_lt hwrap]
    exact le_trans h (Nat.le_add_right _ _)
  · rw [lower]
    split
    · exact update_of_ne hu _ _
    · rfl

theorem foldl_lower_apply (hwrap : ∀ e ∈ es, d + e.2 < word) (h : distance u ≤ d) :
    es.foldl (lower d) distance u = distance u := by
  induction es generalizing distance with
  | nil => rfl
  | cons e es ih =>
    have hfirst := lower_apply_of_le (hwrap e mem_cons_self) h
    have hrest : ∀ e ∈ es, d + e.2 < word := fun e he => hwrap e (mem_cons_of_mem _ he)
    rw [foldl_cons, ih hrest (hfirst ▸ h), hfirst]

/-- The edges of a node that has been reached. -/
theorem distance_foldl_visitEdge (hu : s.distance u = d) (hreached : d ≠ nc)
    (hwrap : ∀ e ∈ es, d + e.2 < word) :
    (es.foldl (visitEdge u) s).distance = es.foldl (lower d) s.distance := by
  induction es generalizing s with
  | nil => rfl
  | cons e es ih =>
    have hvisit : (visitEdge u s e).distance = lower d s.distance e := by
      rw [visitEdge, lower]
      simp only [Improves, hu, hreached, ne_eq, not_false_eq_true, true_and]
      split
      · rw [relax, hu]
      · rfl
    have hrest : ∀ e ∈ es, d + e.2 < word := fun e he => hwrap e (mem_cons_of_mem _ he)
    rw [foldl_cons, foldl_cons, ← hvisit]
    refine ih ?_ hrest
    rw [hvisit, lower_apply_of_le (hwrap e mem_cons_self) (le_of_eq hu), hu]

/-- The edges of a node that has not been reached. -/
theorem distance_foldl_visitEdge_of_nc (hu : s.distance u = nc) :
    es.foldl (visitEdge u) s = s := by
  induction es with
  | nil => rfl
  | cons e es ih =>
    have hvisit : visitEdge u s e = s := if_neg (fun himproves => himproves.1 hu)
    rw [foldl_cons, hvisit, ih]

/-- A distance is the sum along a path through nodes before `r`. -/
def AlongPaths (W : WeightedGraph) (r : ℕ) (distance : ℕ → ℕ) : Prop :=
  ∀ v, distance v ≠ nc → ∃ us, PathSum W us v (distance v) ∧ ∀ u ∈ us, u < r

theorem AlongPaths.no_wrap (h : AlongPaths W r distance)
    (hsums : ∀ us v d, PathSum W us v d → d < nc) (hr : distance r ≠ nc) :
    ∀ e ∈ W.edges r, distance r + e.2 < word := by
  intro e he
  obtain ⟨us, hpath, hbefore⟩ := h r hr
  have hsum := hsums _ _ _ (hpath.edge (fun hmem => lt_irrefl r (hbefore r hmem)) he)
  exact lt_trans hsum (by decide)

theorem AlongPaths.mono (h : AlongPaths W r distance) : AlongPaths W (r + 1) distance := by
  intro v hv
  obtain ⟨us, hus, hlt⟩ := h v hv
  exact ⟨us, hus, fun u hu => Nat.lt_succ_of_lt (hlt u hu)⟩

theorem AlongPaths.lower {us : List ℕ} (h : AlongPaths W (r + 1) distance)
    (hpath : PathSum W us r d) (hbefore : ∀ u ∈ us, u < r) (he : e ∈ W.edges r)
    (hwrap : d + e.2 < word) : AlongPaths W (r + 1) (lower d distance e) := by
  intro v hv
  rw [SgraphBellmanFord.lower] at hv ⊢
  split at hv
  · next hlt =>
    rw [if_pos hlt]
    by_cases hve : v = e.1
    · subst hve
      have hnew : r ∉ us := fun hmem => lt_irrefl r (hbefore r hmem)
      rw [update_self, Nat.mod_eq_of_lt hwrap]
      exact ⟨r :: us, hpath.edge hnew he, forall_mem_cons.mpr
        ⟨Nat.lt_succ_self r, fun u hu => Nat.lt_succ_of_lt (hbefore u hu)⟩⟩
    · rw [update_of_ne hve] at hv ⊢
      exact h v hv
  · next hnot =>
    rw [if_neg hnot]
    exact h v hv

theorem AlongPaths.foldl_lower {us : List ℕ} (h : AlongPaths W (r + 1) distance)
    (hpath : PathSum W us r d) (hbefore : ∀ u ∈ us, u < r) (hes : ∀ e ∈ es, e ∈ W.edges r)
    (hwrap : ∀ e ∈ W.edges r, d + e.2 < word) :
    AlongPaths W (r + 1) (es.foldl (SgraphBellmanFord.lower d) distance) := by
  induction es generalizing distance with
  | nil => exact h
  | cons e es ih =>
    have he := hes e mem_cons_self
    exact ih (h.lower hpath hbefore he (hwrap e he)) (fun e' he' => hes e' (mem_cons_of_mem _ he'))

/-- One node of the pass. -/
theorem distanceBefore_succ (h : AlongPaths W r (distanceBefore W distance r))
    (hsums : ∀ us v d, PathSum W us v d → d < nc) :
    distanceBefore W distance (r + 1) =
      if distanceBefore W distance r r = nc then distanceBefore W distance r
      else (W.edges r).foldl (lower (distanceBefore W distance r r))
        (distanceBefore W distance r) := by
  change ((W.edges r).foldl (visitEdge r) (pass visitEdge W distance r)).distance = _
  split
  · next hnc =>
    rw [distance_foldl_visitEdge_of_nc hnc]
    rfl
  · next hnc => exact distance_foldl_visitEdge rfl hnc (h.no_wrap hsums hnc)

theorem alongPaths_distanceBefore (hstart : distance 0 = 0) (hothers : ∀ v, v ≠ 0 → distance v = nc)
    (hsums : ∀ us v d, PathSum W us v d → d < nc) (r : ℕ) :
    AlongPaths W r (distanceBefore W distance r) := by
  induction r with
  | zero =>
    intro v hv
    obtain rfl : v = 0 := by
      by_contra hne
      exact hv (hothers v hne)
    change ∃ us, PathSum W us 0 (distance 0) ∧ _
    rw [hstart]
    exact ⟨[], .start, forall_mem_nil _⟩
  | succ r ih =>
    rw [distanceBefore_succ ih hsums]
    split
    · exact ih.mono
    · next hnc =>
      obtain ⟨us, hpath, hbefore⟩ := ih r hnc
      exact ih.mono.foldl_lower hpath hbefore (fun _ he => he) (ih.no_wrap hsums hnc)

def twoNodes : WeightedGraph where
  nodes := 2
  successors
    | 0 => [1]
    | 1 => [0]
    | _ => []
  successors_lt v w hw := by
    match v with
    | 0 | 1 =>
      simp only [mem_cons, not_mem_nil, or_false] at hw
      omega
    | _ + 2 => cases hw
  weights
    | 0 => [1]
    | 1 => [1]
    | _ => []
  length_weights v := by
    match v with
    | 0 | 1 | _ + 2 => rfl
  weights_lt v w hw := by
    match v with
    | 0 | 1 =>
      rw [mem_singleton.mp hw]
      decide
    | _ + 2 => cases hw

/-- `reset_graph_stats`: node 0 is at distance 0. -/
def resetDistance (i : ℕ) : ℕ := if i = 0 then 0 else nc

/-- The edge back to node 0 is not counted by the kernel. -/
theorem executeKernel_twoNodes :
    (executeKernel twoNodes resetDistance).checksum = 1 ∧
      (runGolden twoNodes resetDistance).checksum = 2 ∧
      (executeKernel twoNodes resetDistance).distance 1 =
        (runGolden twoNodes resetDistance).distance 1 := by
  decide +kernel

end SmcSim.SgraphBellmanFord
