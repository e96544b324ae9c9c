import SmcSim.SgraphBfs
import Mathlib.Algebra.BigOperators.Group.Finset.Piecewise
import Mathlib.Data.Finset.Card

/-!
# The distances of the plain kernel

A kernel represents a search by the distances in memory, the cells of the queue and the sum so
far. No node is pushed twice in an iteration, so that cell `i` of the queue holds the node found
at place `i` and no cell is written twice. Every iteration of `kernel_default` runs the search
from its node, and after one iteration the distances are those of shortest walks.
-/

namespace SmcSim.SgraphBfs
open BreadthFirst Function List Option

/-! ### Representing a search -/

/-- The nodes of a search have their depths; the others keep their distances. -/
def DistancesOf (distance₀ : ℕ → ℕ) (s : Search ℕ) (distance : ℕ → ℕ) : Prop :=
  ∀ w, distance w = if w ∈ s.order then s.depth w else distance₀ w

/-- The queue of a search whose first `next` nodes have been popped. -/
structure QueueOf (nodes : ℕ) (s : Search ℕ) (next : ℕ) (ring : Ring) (cell : ℕ → ℕ) : Prop where
  next_le : next ≤ s.order.length
  head : ring.head = if s.order.length = nodes then 0 else s.order.length
  tail : ring.tail = if next = nodes then 0 else next
  elements : ring.elements = s.order.length - next
  cells : ∀ i v, s.order[i]? = some v → cell i = v

def TotalOf (total₀ : ℕ) (s : Search ℕ) (total : ℕ) : Prop := total = (total₀ + s.depthSum) % word

variable {G : Graph} {distance₀ distance : ℕ → ℕ} {x v w d k : ℕ} {s : Search ℕ}

theorem mem_openSuccessors :
    w ∈ openSuccessors G distance₀ v ↔ w ∈ G.successors v ∧ distance₀ w = nc := by
  simp [openSuccessors]

section

variable (h : Layered (openSuccessors G distance₀) x s k) (hx : x < G.nodes)
include h hx

theorem lt_nodes_of_mem (hw : w ∈ s.order) : w < G.nodes := by
  generalize hn : s.depth w = n
  have hwalk := hn ▸ h.walk w hw
  cases hwalk with
  | refl => exact hx
  | snoc _ hc => exact G.successors_lt _ _ (mem_openSuccessors.mp hc).1

theorem length_order_le : s.order.length ≤ G.nodes := by
  have hsubset : s.order.toFinset ⊆ Finset.range G.nodes := by
    intro w hw
    exact Finset.mem_range.mpr (lt_nodes_of_mem h hx (List.mem_toFinset.mp hw))
  have hcard := Finset.card_le_card hsubset
  rwa [toFinset_card_of_nodup h.nodup, Finset.card_range] at hcard

/-- A node that is found leaves room in the queue. -/
theorem length_order_lt (hv : s.order[k]? = some v) (hw : w ∈ openSuccessors G distance₀ v)
    (hnew : w ∉ s.order) : s.order.length < G.nodes := by
  have hle := length_order_le (h.visit hv hw) hx
  rw [visit_of_not_mem _ hnew, length_append, length_singleton] at hle
  exact hle

theorem depth_lt_nodes (hw : w ∈ s.order) : s.depth w < G.nodes :=
  lt_of_lt_of_le (h.bound w hw) (length_order_le h hx)

end

section

variable (h : DistancesOf distance₀ s distance)
include h

theorem DistancesOf.of_mem (hw : w ∈ s.order) : distance w = s.depth w := by
  rw [h w, if_pos hw]

theorem DistancesOf.eq_nc_iff (hdepth : ∀ w ∈ s.order, s.depth w < nc) :
    distance w = nc ↔ w ∉ s.order ∧ distance₀ w = nc := by
  by_cases hw : w ∈ s.order
  · rw [h.of_mem hw]
    exact ⟨fun heq => absurd heq (ne_of_lt (hdepth w hw)), fun hnot => absurd hw hnot.1⟩
  · rw [h w, if_neg hw]
    exact ⟨fun heq => ⟨hw, heq⟩, And.right⟩

theorem DistancesOf.visit (hw : w ∉ s.order) :
    DistancesOf distance₀ (visit d s w) (update distance w d) := by
  intro u
  rw [visit_of_not_mem d hw]
  by_cases hu : u = w
  · subst hu
    simp
  · rw [update_of_ne hu, h u]
    simp [hu]

end

theorem TotalOf.visit {total₀ total : ℕ} (h : TotalOf total₀ s total) (hw : w ∉ s.order) :
    TotalOf total₀ (visit d s w) ((total + d) % word) := by
  rw [TotalOf, depthSum_visit hw, h, Nat.mod_add_mod, add_assoc]

variable {nodes next : ℕ} {ring : Ring} {cell : ℕ → ℕ}

theorem advance_of_lt {i : ℕ} (hi : i < nodes) (hnodes : nodes < word) :
    advance nodes i = if i + 1 = nodes then 0 else i + 1 := by
  rw [advance, Nat.mod_eq_of_lt (lt_of_le_of_lt hi hnodes)]
  by_cases heq : i + 1 = nodes
  · rw [if_pos heq, if_pos (le_of_eq heq.symm)]
  · rw [if_neg heq, if_neg (by omega)]

section

variable (h : QueueOf nodes s next ring cell)
include h

theorem QueueOf.head_of_lt (hlt : s.order.length < nodes) : ring.head = s.order.length := by
  rw [h.head, if_neg (ne_of_lt hlt)]

theorem QueueOf.visit (hw : w ∉ s.order) (hlt : s.order.length < nodes) (hnodes : nodes < word) :
    QueueOf nodes (visit d s w) next (ring.push nodes) (update cell ring.head w) := by
  have hlength : (BreadthFirst.visit d s w).order.length = s.order.length + 1 := by
    rw [visit_of_not_mem d hw, length_append, length_singleton]
  have hnext := h.next_le
  have helements := h.elements
  refine ⟨by omega, ?_, h.tail, ?_, fun i v hv => ?_⟩
  · change advance nodes ring.head = _
    rw [h.head_of_lt hlt, advance_of_lt hlt hnodes, hlength]
  · change (ring.elements + 1) % word = _
    rw [hlength, Nat.mod_eq_of_lt (by omega)]
    omega
  · rw [h.head_of_lt hlt]
    rw [visit_of_not_mem d hw] at hv
    by_cases hi : i = s.order.length
    · subst hi
      rw [getElem?_concat_length] at hv
      rw [update_self]
      exact some.inj hv
    · rw [update_of_ne hi]
      have hilt : i < s.order.length := by
        have hlast := (List.getElem?_eq_some_iff.mp hv).1
        rw [length_append, length_singleton] at hlast
        omega
      rw [getElem?_append_left hilt] at hv
      exact h.cells i v hv

theorem QueueOf.pop (hnext : next < s.order.length) (hlength : s.order.length ≤ nodes)
    (hnodes : nodes < word) : QueueOf nodes s (next + 1) (ring.pop nodes) cell := by
  have helements := h.elements
  refine ⟨hnext, h.head, ?_, ?_, h.cells⟩
  · change advance nodes ring.tail = _
    rw [h.tail, if_neg (by omega), advance_of_lt (by omega) hnodes]
  · change (ring.elements + (word - 1)) % word = _
    have hword : ring.elements + (word - 1) = (ring.elements - 1) + word := by
      have hpos : 0 < word := by decide
      omega
    rw [hword, Nat.add_mod_right, Nat.mod_eq_of_lt (by omega)]
    omega

theorem QueueOf.top (hnext : next < s.order.length) (hlength : s.order.length ≤ nodes) :
    s.order[next]? = some (cell ring.tail) := by
  obtain ⟨v, hv⟩ : ∃ v, s.order[next]? = some v := ⟨_, getElem?_eq_getElem hnext⟩
  rw [h.tail, if_neg (by omega), h.cells next v hv, hv]

theorem QueueOf.congr {cell' : ℕ → ℕ} (hcells : ∀ i < s.order.length, cell' i = cell i) :
    QueueOf nodes s next ring cell' :=
  ⟨h.next_le, h.head, h.tail, h.elements, fun i v hv =>
    (hcells i (List.getElem?_eq_some_iff.mp hv).1).trans (h.cells i v hv)⟩

theorem QueueOf.not_unread (hlt : s.order.length < nodes) : ¬ ring.Unread nodes ring.head := by
  rintro ⟨k, hk, heq⟩
  have hnext := h.next_le
  rw [h.elements] at hk
  rw [h.tail, if_neg (by omega), h.head_of_lt hlt, Nat.mod_eq_of_lt (by omega)] at heq
  omega

end

theorem queueOf_start (hpos : 0 < nodes) (hnodes : nodes < word) :
    QueueOf nodes (start x) 0 (queueInit.push nodes) (update cell 0 x) := by
  refine ⟨Nat.zero_le _, ?_, ?_, rfl, fun i v hv => ?_⟩
  · change advance nodes 0 = _
    rw [advance_of_lt hpos hnodes]
    rfl
  · change 0 = _
    rw [if_neg (ne_of_lt hpos)]
  · cases i with
    | zero =>
      rw [update_self]
      exact some.inj hv
    | succ i => cases hv

/-! ### One iteration -/

/-- The kernel in the search from `x`; the first `next` nodes have been popped. -/
structure Runs (G : Graph) (distance₀ : ℕ → ℕ) (total₀ : ℕ) (s : Search ℕ) (next : ℕ)
    (K : State) : Prop where
  distance : DistancesOf distance₀ s K.distance
  queue : QueueOf G.nodes s next K.ring K.queue
  total : TotalOf total₀ s K.totalDistance
  kept : K.overwritten = false

variable {total₀ fuel : ℕ} {K : State}

theorem Runs.visitSuccessor (h : Runs G distance₀ total₀ s next K)
    (hs : Layered (openSuccessors G distance₀) x s k) (hx : x < G.nodes) (hnodes : G.nodes < nc)
    (hv : s.order[k]? = some v) (hw : w ∈ G.successors v) :
    Runs G distance₀ total₀ (if distance₀ w = nc then visit (s.depth v + 1) s w else s) next
      (visitSuccessor G.nodes v K w) := by
  have hdepth : ∀ u ∈ s.order, s.depth u < nc := fun u hu =>
    lt_trans (depth_lt_nodes hs hx hu) hnodes
  have hword : G.nodes < word := lt_trans hnodes (by decide)
  have hiff := h.distance.eq_nc_iff (w := w) hdepth
  by_cases hopen : distance₀ w = nc
  · rw [if_pos hopen]
    by_cases hmem : w ∈ s.order
    · rw [visit_of_mem _ hmem, SgraphBfs.visitSuccessor, if_neg (fun hnc => (hiff.mp hnc).1 hmem)]
      exact h
    · have hlt := length_order_lt hs hx hv (mem_openSuccessors.mpr ⟨hw, hopen⟩) hmem
      have hnew : (K.distance v + 1) % word = s.depth v + 1 := by
        have hvmem := mem_of_getElem? hv
        rw [h.distance.of_mem hvmem, Nat.mod_eq_of_lt]
        exact lt_of_le_of_lt (Nat.succ_le_of_lt (hdepth v hvmem)) (by decide)
      rw [SgraphBfs.visitSuccessor, if_pos (hiff.mpr ⟨hmem, hopen⟩)]
      refine ⟨?_, h.queue.visit hmem hlt hword, ?_, ?_⟩
      · rw [← hnew]
        exact h.distance.visit hmem
      · change TotalOf total₀ _ ((K.totalDistance +
          update K.distance w ((K.distance v + 1) % word) w) % word)
        rw [update_self, hnew]
        exact h.total.visit hmem
      · change (K.overwritten || decide (K.ring.Unread G.nodes K.ring.head)) = false
        rw [h.kept, decide_eq_false (h.queue.not_unread hlt)]
        rfl
  · rw [if_neg hopen, SgraphBfs.visitSuccessor, if_neg (fun hnc => hopen (hiff.mp hnc).2)]
    exact h

theorem Runs.foldl_visitSuccessor {ws : List ℕ} (h : Runs G distance₀ total₀ s next K)
    (hs : Layered (openSuccessors G distance₀) x s k) (hx : x < G.nodes) (hnodes : G.nodes < nc)
    (hv : s.order[k]? = some v) (hws : ∀ w ∈ ws, w ∈ G.successors v) :
    Runs G distance₀ total₀
      (visitAll (s.depth v + 1) s (ws.filter (fun w => distance₀ w = nc))) next
      (ws.foldl (SgraphBfs.visitSuccessor G.nodes v) K) := by
  induction ws generalizing s K with
  | nil => exact h
  | cons w ws ih =>
    have hfirst := h.visitSuccessor hs hx hnodes hv (hws w mem_cons_self)
    have hrest : ∀ u ∈ ws, u ∈ G.successors v := fun u hu => hws u (mem_cons_of_mem _ hu)
    rw [foldl_cons]
    by_cases hopen : distance₀ w = nc
    · have hmem := mem_openSuccessors.mpr ⟨hws w mem_cons_self, hopen⟩
      rw [if_pos hopen] at hfirst
      rw [filter_cons, if_pos (decide_eq_true hopen), visitAll_cons]
      have hall := ih hfirst (hs.visit hv hmem) (getElem?_mono (order_le_visit _ _ _) hv) hrest
      rw [depth_visit_of_mem (mem_of_getElem? hv)] at hall
      exact hall
    · rw [if_neg hopen] at hfirst
      rw [filter_cons, if_neg (by simpa using hopen)]
      exact ih hfirst hs hv hrest

theorem Runs.searchLoop (hx : x < G.nodes) (hnodes : G.nodes < nc)
    (h : Runs G distance₀ total₀ (after (openSuccessors G distance₀) x k) k K)
    (hfuel : G.nodes < fuel + k) :
    ∃ K' next, searchLoop G fuel K = some K' ∧
      Runs G distance₀ total₀ (after (openSuccessors G distance₀) x G.nodes) next K' := by
  induction fuel generalizing k K with
  | zero =>
    have hle := length_order_le (layered_after (openSuccessors G distance₀) x k) hx
    have hnext := h.queue.next_le
    omega
  | succ fuel ih =>
    have hs := layered_after (openSuccessors G distance₀) x k
    have hlength := length_order_le hs hx
    have hword : G.nodes < word := lt_trans hnodes (by decide)
    have hnext := h.queue.next_le
    have helements := h.queue.elements
    rw [SgraphBfs.searchLoop]
    by_cases hempty : K.ring.elements = 0
    · have hdone : (after (openSuccessors G distance₀) x k).order.length ≤ k := by omega
      refine ⟨K, k, if_pos hempty, ?_⟩
      rw [after_of_length_le hdone (hnext.trans hlength)]
      exact h
    · have hlt : k < (after (openSuccessors G distance₀) x k).order.length := by omega
      have htop := h.queue.top hlt hlength
      have hpopped : Runs G distance₀ total₀ (after (openSuccessors G distance₀) x k) (k + 1)
          { K with ring := K.ring.pop G.nodes } :=
        ⟨h.distance, h.queue.pop hlt hlength hword, h.total, h.kept⟩
      have hexpanded := hpopped.foldl_visitSuccessor hs hx hnodes htop (fun w hw => hw)
      rw [if_neg hempty]
      refine ih (k := k + 1) ?_ (by omega)
      rw [after_succ_of_getElem? htop]
      exact hexpanded

/-! ### All iterations -/

variable {fuel' maxIterations : ℕ} {K' : State}

theorem distancesOf_start (distance : ℕ → ℕ) (x : ℕ) :
    DistancesOf (update distance x 0) (start x) (update distance x 0) := by
  intro w
  change update distance x 0 w = if w ∈ [x] then 0 else _
  by_cases hw : w = x
  · simp [hw]
  · simp [hw]

theorem DistancesOf.eq_iterate {o : Outcome}
    (h : DistancesOf (update o.distance x 0) (searchFrom G o.distance x G.nodes) distance) :
    distance = (o.iterate G x).distance := by
  have hroot : x ∈ (searchFrom G o.distance x G.nodes).order :=
    mem_of_getElem? (layered_after _ x G.nodes).first
  funext w
  rw [h w]
  change _ = if w ∈ (searchFrom G o.distance x G.nodes).order then _ else _
  by_cases hw : w ∈ (searchFrom G o.distance x G.nodes).order
  · rw [if_pos hw, if_pos hw]
  · rw [if_neg hw, if_neg hw]
    exact update_of_ne (fun hwx : w = x => hw (hwx ▸ hroot)) _ _

theorem iteration_outcome (hx : x < G.nodes) (hnodes : G.nodes < nc) (hfuel : G.nodes < fuel)
    (hkept : K.overwritten = false) {o : Outcome} (hdistance : K.distance = o.distance)
    (htotal : K.totalDistance = o.totalDistance) (hsum : o.totalDistance < word) :
    ∃ K', iteration G fuel x K = some K' ∧ K'.distance = (o.iterate G x).distance ∧
      K'.totalDistance = (o.iterate G x).totalDistance ∧ K'.overwritten = false := by
  have hword : G.nodes < word := lt_trans hnodes (by decide)
  have hstart : Runs G (update o.distance x 0) o.totalDistance
      (after (openSuccessors G (update o.distance x 0)) x 0) 0
      (queuePush G.nodes x
        { K with distance := update K.distance x 0, ring := queueInit }) := by
    refine ⟨hdistance ▸ distancesOf_start o.distance x,
      queueOf_start (Nat.zero_lt_of_lt hx) hword, ?_, ?_⟩
    · change K.totalDistance = (o.totalDistance + 0) % word
      rw [htotal, add_zero, Nat.mod_eq_of_lt hsum]
    · change (K.overwritten || decide (queueInit.Unread G.nodes 0)) = false
      rw [hkept, decide_eq_false (by rintro ⟨k, hk, -⟩; cases hk)]
      rfl
  obtain ⟨K', next, hloop, hruns⟩ := Runs.searchLoop hx hnodes hstart hfuel
  exact ⟨K', hloop, hruns.distance.eq_iterate, hruns.total, hruns.kept⟩

theorem totalDistance_outcome_lt (G : Graph) (distance : ℕ → ℕ) (x : ℕ) :
    (outcome G distance x).totalDistance < word := by
  cases x with
  | zero => exact (by decide : 0 < word)
  | succ x => exact Nat.mod_lt _ (by decide)

theorem iterations_outcome (hnodes : G.nodes < nc) (hfuel : G.nodes < fuel)
    (hkept : K.overwritten = false) (htotal : K.totalDistance = 0) (hx : x ≤ G.nodes) :
    ∃ K', iterations G fuel x K = some K' ∧ K'.distance = (outcome G K.distance x).distance ∧
      K'.totalDistance = (outcome G K.distance x).totalDistance ∧ K'.overwritten = false := by
  induction x with
  | zero => exact ⟨K, rfl, rfl, htotal, hkept⟩
  | succ x ih =>
    obtain ⟨K₁, hK₁, hdistance₁, htotal₁, hkept₁⟩ := ih (Nat.le_of_succ_le hx)
    obtain ⟨K', hK', houtcome⟩ := iteration_outcome hx hnodes hfuel hkept₁ hdistance₁ htotal₁
      (totalDistance_outcome_lt G K.distance x)
    refine ⟨K', ?_, houtcome⟩
    rw [iterations, hK₁, bind_some, hK']

theorem searchLoop_mono (h : searchLoop G fuel K = some K') (hle : fuel ≤ fuel') :
    searchLoop G fuel' K = some K' := by
  induction fuel generalizing fuel' K with
  | zero => cases h
  | succ fuel ih =>
    obtain ⟨fuel', rfl⟩ := Nat.exists_eq_succ_of_ne_zero (Nat.ne_of_gt (lt_of_lt_of_le
      (Nat.succ_pos fuel) hle))
    rw [searchLoop] at h ⊢
    split
    · next hempty => rwa [if_pos hempty] at h
    · next hne =>
      rw [if_neg hne] at h
      exact ih h (Nat.le_of_succ_le_succ hle)

theorem iterations_mono (h : iterations G fuel x K = some K') (hle : fuel ≤ fuel') :
    iterations G fuel' x K = some K' := by
  induction x generalizing K' with
  | zero => exact h
  | succ x ih =>
    obtain ⟨K₁, hK₁, hK'⟩ := bind_eq_some_iff.mp h
    exact bind_eq_some_iff.mpr ⟨K₁, ih hK₁, searchLoop_mono hK' hle⟩

theorem executeKernel_outcome (hnodes : G.nodes < nc) (hiterations : maxIterations ≤ G.nodes)
    (K : State) :
    ∃ K', (∀ fuel, G.nodes < fuel → executeKernel G maxIterations fuel K = some K') ∧
      K'.distance = (outcome G K.distance maxIterations).distance ∧
      K'.sreg3 = (outcome G K.distance maxIterations).totalDistance ∧ K'.overwritten = false := by
  obtain ⟨K', hK', hdistance, htotal, hkept'⟩ := iterations_outcome (x := maxIterations)
    (K := { K with totalDistance := 0, overwritten := false }) hnodes
      (Nat.lt_succ_self G.nodes) rfl rfl
    hiterations
  refine ⟨{ K' with sreg3 := K'.totalDistance }, fun fuel hfuel => ?_, hdistance, htotal, hkept'⟩
  rw [executeKernel, iterations_mono hK' hfuel, map_some]

/-! ### Shortest walks -/

/-- From a graph in which nothing has been reached every edge but those to the start is open. -/
theorem searchFrom_eq_after (hnc : ∀ w < G.nodes, w ≠ 0 → distance₀ w = nc) (k : ℕ) :
    searchFrom G distance₀ 0 k = after G.successors 0 k := by
  refine after_filter (fun v w hw hclosed => ?_) k
  by_contra hne
  refine hclosed (decide_eq_true ?_)
  rw [update_of_ne hne]
  exact hnc w (G.successors_lt v w hw) hne

theorem sum_distance_eq_depthSum (h : Layered G.successors 0 s k)
    (hlength : s.order.length ≤ k) (hlt : ∀ w ∈ s.order, w < G.nodes) :
    ∑ w ∈ Finset.range G.nodes, (BreadthFirst.distance G.successors 0 w).getD 0 = s.depthSum := by
  have hterm : ∀ w, (BreadthFirst.distance G.successors 0 w).getD 0 =
      if w ∈ s.order.toFinset then s.depth w else 0 := by
    intro w
    rw [h.distance_eq hlength w]
    by_cases hw : w ∈ s.order
    · simp [hw]
    · simp [hw]
  have hinter : Finset.range G.nodes ∩ s.order.toFinset = s.order.toFinset := by
    refine Finset.inter_eq_right.mpr (fun w hw => ?_)
    exact Finset.mem_range.mpr (hlt w (List.mem_toFinset.mp hw))
  rw [Finset.sum_congr rfl (fun w _ => hterm w), Finset.sum_ite_mem, hinter,
    sum_toFinset _ h.nodup]
  rfl

/-- From a graph in which no node but the start has been reached, one iteration ends, with the
length of a shortest walk for every node that has one and `NC` for the others, and with the sum of
those lengths in `SREG[3]`; and no push replaces an entry that has not been read. -/
theorem executeKernel_shortest (G : Graph) (hpos : 0 < G.nodes) (hnodes : G.nodes < nc) (K : State)
    (hnc : ∀ w < G.nodes, w ≠ 0 → K.distance w = nc) :
    ∃ K', (∀ fuel, G.nodes < fuel → executeKernel G 1 fuel K = some K') ∧
      (∀ w < G.nodes, K'.distance w = (BreadthFirst.distance G.successors 0 w).getD nc) ∧
      K'.sreg3 = (∑ w ∈ Finset.range G.nodes,
        (BreadthFirst.distance G.successors 0 w).getD 0) % word ∧
      K'.overwritten = false := by
  obtain ⟨K', hrun, hdistance, htotal, hkept'⟩ := executeKernel_outcome hnodes
    (Nat.succ_le_of_lt hpos) K
  have hsearch := searchFrom_eq_after hnc G.nodes
  have hlayered : Layered G.successors 0 (searchFrom G K.distance 0 G.nodes) G.nodes := by
    rw [hsearch]
    exact layered_after G.successors 0 G.nodes
  have hopen := layered_after (openSuccessors G (update K.distance 0 0)) 0 G.nodes
  have hlength : (searchFrom G K.distance 0 G.nodes).order.length ≤ G.nodes :=
    length_order_le hopen hpos
  refine ⟨K', hrun, fun w hw => ?_, ?_, hkept'⟩
  · rw [hdistance, hlayered.distance_eq hlength w]
    change (if w ∈ (searchFrom G K.distance 0 G.nodes).order then _ else K.distance w) = _
    by_cases hmem : w ∈ (searchFrom G K.distance 0 G.nodes).order
    · rw [if_pos hmem, if_pos hmem]
      rfl
    · have hroot : 0 ∈ (searchFrom G K.distance 0 G.nodes).order :=
        mem_of_getElem? hlayered.first
      have hne : w ≠ 0 := fun hzero => hmem (by rwa [hzero])
      rw [if_neg hmem, if_neg hmem, hnc w hw hne]
      rfl
  · rw [htotal,
      sum_distance_eq_depthSum hlayered hlength (fun w hw => lt_nodes_of_mem hopen hpos hw)]
    change (0 + _) % word = _
    rw [zero_add]
    rfl

def fourNodes : Graph where
  nodes := 4
  successors
    | 0 => [1, 1, 2]
    | 1 => [0, 2]
    | 2 => [2]
    | 3 => [0]
    | _ => []
  successors_lt v w hw := by
    match v with
    | 0 | 1 | 2 | 3 =>
      simp only [mem_cons, not_mem_nil, or_false] at hw
      omega
    | _ + 4 => cases hw

def unreached : State := ⟨fun _ => nc, fun _ => 0, queueInit, 0, 0, false⟩

theorem executeKernel_fourNodes : ∃ K', executeKernel fourNodes 1 5 unreached = some K' ∧
    (BreadthFirst.distance fourNodes.successors 0 2).getD nc = 1 ∧
    (BreadthFirst.distance fourNodes.successors 0 3).getD nc = nc ∧ K'.sreg3 = 2 ∧
    K'.overwritten = false := by
  obtain ⟨K', hrun, hdistance, -, hkept⟩ := executeKernel_shortest fourNodes (by decide) (by decide)
    unreached (fun _ _ _ => rfl)
  have hvalues : (executeKernel fourNodes 1 5 unreached).map
      (fun K => (K.distance 2, K.distance 3, K.sreg3)) = some (1, nc, 2) := by
    decide +kernel
  rw [hrun 5 (by decide), map_some] at hvalues
  simp only [some.injEq, Prod.mk.injEq] at hvalues
  obtain ⟨htwo, hthree, hsum⟩ := hvalues
  rw [hdistance 2 (by decide)] at htwo
  rw [hdistance 3 (by decide)] at hthree
  exact ⟨K', hrun 5 (by decide), htwo, hthree, hsum, hkept⟩

end SmcSim.SgraphBfs
