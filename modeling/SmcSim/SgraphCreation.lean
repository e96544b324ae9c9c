import Mathlib.Algebra.Order.BigOperators.Group.List
import Mathlib.Algebra.Group.Action.Defs
import Mathlib.Data.List.Nodup
import Mathlib.Tactic.NormNum

/-!
# The sparse graph generator

`create_graph` of `offload_sgraph` for its four kernels, in the build whose assertions do nothing.
`rand` is any sequence of values, and each call takes the next one. The loop that is to find a new
successor only leaves the node itself; it does not look at the successors that the node has.
-/

namespace SmcSim.SgraphCreation
open List Option

inductive Kernel where
  | teenageFollower
  | pageRank
  | bfs
  | bellmanFord
  deriving DecidableEq, Repr

structure Params where
  kernel : Kernel
  numNodes : ℕ
  maxOutdegree : ℕ
  step : ℕ
  maxWeight : ℕ
  sizeofNode : ℕ
  /-- Of a pointer and of `ulong_t`. -/
  sizeofWord : ℕ
  outdegree_pos : 0 < maxOutdegree
  outdegree_lt : maxOutdegree < numNodes
  step_pos : 0 < step

/-- `QUEUE_SIZE` is set for the breadth-first search. -/
def Params.requiredMemSize (c : Params) : ℕ :=
  c.numNodes * c.sizeofNode + c.numNodes * c.maxOutdegree * c.sizeofWord +
    c.numNodes * c.maxOutdegree * c.sizeofWord +
    if c.kernel = .bfs then c.numNodes * c.sizeofWord else 0

structure Node where
  id : ℕ
  outDegree : ℕ
  /-- Their places in `nodes`. -/
  successors : List ℕ
  teenager : Bool

structure Graph where
  nodes : List Node
  weights : List (List ℕ)

/-- The bytes that `allocate_region` has given. -/
def Graph.allocated (c : Params) (g : Graph) : ℕ :=
  let lists := (g.nodes.map Node.outDegree).sum * c.sizeofWord
  c.numNodes * c.sizeofNode + (if c.kernel = .bfs then c.numNodes * c.sizeofWord else 0) + lists +
    if c.kernel = .bellmanFord then lists else 0

section Code

variable (c : Params) (rand : ℕ → ℕ)

def advance (succ draw : ℕ) : ℕ :=
  let succ := succ + (draw % (c.numNodes / 500) + 1)
  if c.numNodes ≤ succ then succ - c.numNodes else succ

/-- `while (succ==i)`; `n` values have been drawn. It is undefined where the draw divides by
zero. -/
def avoid (i : ℕ) : ℕ → ℕ → ℕ → Option (ℕ × ℕ)
  | 0, _, _ => none
  | fuel + 1, n, succ =>
      if succ = i then
        if c.numNodes / 500 = 0 then none else avoid i fuel (n + 1) (advance c succ (rand n))
      else some (succ, n)

/-- The rest of the successors; `succ` stays from one to the next. -/
def fillSuccessors (fuel i : ℕ) : ℕ → ℕ → ℕ → Option (List ℕ × ℕ)
  | 0, n, _ => some ([], n)
  | count + 1, n, succ =>
      (avoid c rand i fuel n succ).bind (fun x =>
        (fillSuccessors fuel i count x.2 x.1).map (fun y => (x.1 :: y.1, y.2)))

def numSucc (i n : ℕ) : ℕ := if i % c.step = 0 then rand n % c.maxOutdegree else 0

/-- The draw of the first successor. -/
def succDraw (i n : ℕ) : ℕ := if i % c.step = 0 then n + 1 else n

def createNode (fuel i n : ℕ) : Option (Node × ℕ) :=
  let start := succDraw c i n
  (fillSuccessors c rand fuel i (numSucc c rand i n) (start + 1) (rand start % c.numNodes)).map
    (fun x =>
    (⟨i, numSucc c rand i n, x.1, c.kernel = .teenageFollower && rand x.2 % 2 != 0⟩,
      x.2 + if c.kernel = .teenageFollower then 1 else 0))

def createNodes (fuel : ℕ) : ℕ → Option (List Node × ℕ)
  | 0 => some ([], 0)
  | i + 1 => (createNodes fuel i).bind (fun s =>
      (createNode c rand fuel i s.2).map (fun x => (s.1 ++ [x.1], x.2)))

def drawWeights : List Node → ℕ → Option (List (List ℕ))
  | [], _ => some []
  | x :: xs, n =>
      if x.outDegree ≠ 0 ∧ c.maxWeight = 0 then none
      else (drawWeights xs (n + x.outDegree)).map (fun ws =>
        (List.range x.outDegree).map (fun j => rand (n + j) % c.maxWeight + 1) :: ws)

def createWeights (xs : List Node) (n : ℕ) : Option (List (List ℕ)) :=
  if c.kernel = .bellmanFord then drawWeights c rand xs n else some []

def createGraph (fuel : ℕ) : Option Graph :=
  (createNodes c rand fuel c.numNodes).bind (fun s =>
    (createWeights c rand s.1 s.2).map (fun ws => ⟨s.1, ws⟩))

/-! ### What the graph should be -/

structure Sound (x : Node) : Prop where
  length : x.successors.length = x.outDegree
  inside : ∀ v ∈ x.successors, v < c.numNodes ∧ v ≠ x.id
  distinct : x.successors.Nodup

/-- With enough fuel there is a graph, and it is as it should be. -/
def Generated : Prop :=
  ∃ bound, ∀ fuel ≥ bound, ∃ g, createGraph c rand fuel = some g ∧
    g.nodes.map Node.id = List.range c.numNodes ∧ (∀ x ∈ g.nodes, Sound c x) ∧
    g.allocated c ≤ c.requiredMemSize

/-- Node `i`, which has its first draw at `n`, has at most one successor, and the loop for it is not
entered in a graph that is too small for it. -/
def Fresh (i n : ℕ) : Prop :=
  numSucc c rand i n = 0 ∨
    numSucc c rand i n = 1 ∧ (rand (succDraw c i n) % c.numNodes ≠ i ∨ 500 ≤ c.numNodes)

/-- The first draw of the next node, after a node with at most one successor. -/
def nextDraw (i n : ℕ) : ℕ :=
  succDraw c i n + 1 +
    (if numSucc c rand i n ≠ 0 ∧ rand (succDraw c i n) % c.numNodes = i then 1 else 0) +
    if c.kernel = .teenageFollower then 1 else 0

def firstDraw : ℕ → ℕ
  | 0 => 0
  | i + 1 => nextDraw c rand i (firstDraw i)

def degree (i : ℕ) : ℕ := numSucc c rand i (firstDraw c rand i)

end Code

/-! ### One node -/

section Nodes

variable {c : Params} {rand : ℕ → ℕ} {i k n m d fuel succ : ℕ} {l : List ℕ} {x : Node}

theorem advance_ne (hi : i < c.numNodes) (hlarge : 500 ≤ c.numNodes) (draw : ℕ) :
    advance c i draw < c.numNodes ∧ advance c i draw ≠ i := by
  have hstep := Nat.mod_lt draw (Nat.div_pos hlarge (by norm_num))
  unfold advance
  dsimp only
  split <;> omega

private theorem avoid_of_ne (h : succ ≠ i) : avoid c rand i (fuel + 1) n succ = some (succ, n) := by
  rw [avoid, if_neg h]

private theorem avoid_self (hi : i < c.numNodes) (hlarge : 500 ≤ c.numNodes) :
    avoid c rand i (fuel + 2) n i = some (advance c i (rand n), n + 1) := by
  rw [avoid, if_pos rfl, if_neg (Nat.div_pos hlarge (by norm_num)).ne',
    avoid_of_ne (advance_ne hi hlarge _).2]

private theorem avoid_small (hsmall : c.numNodes < 500) : avoid c rand i fuel n i = none := by
  cases fuel with
  | zero => rfl
  | succ fuel => rw [avoid, if_pos rfl, if_pos (Nat.div_eq_of_lt hsmall)]

theorem ne_of_avoid {v : ℕ} (h : avoid c rand i fuel n succ = some (v, m)) : v ≠ i := by
  induction fuel generalizing n succ with
  | zero => cases h
  | succ fuel ih =>
    rw [avoid] at h
    split at h
    · split at h
      · cases h
      · exact ih h
    · next hne =>
      cases h
      exact hne

private theorem fillSuccessors_of_le_one (rand : ℕ → ℕ) (fuel n : ℕ) (hi : i < c.numNodes)
    (hsucc : succ < c.numNodes) (h : d = 0 ∨ d = 1 ∧ (succ ≠ i ∨ 500 ≤ c.numNodes)) :
    ∃ l, fillSuccessors c rand (fuel + 2) i d n succ =
      some (l, n + if d ≠ 0 ∧ succ = i then 1 else 0) ∧
      l.length = d ∧ (∀ v ∈ l, v < c.numNodes ∧ v ≠ i) ∧ l.Nodup := by
  rcases h with rfl | ⟨rfl, h⟩
  · exact ⟨[], rfl, rfl, forall_mem_nil _, nodup_nil⟩
  · by_cases heq : succ = i
    · have hlarge := h.resolve_left (fun hne => hne heq)
      refine ⟨[advance c i (rand n)], ?_, rfl, ?_, nodup_singleton _⟩
      · simp [fillSuccessors, heq, avoid_self hi hlarge]
      · exact forall_mem_singleton.mpr (advance_ne hi hlarge _)
    · refine ⟨[succ], ?_, rfl, forall_mem_singleton.mpr ⟨hsucc, heq⟩, nodup_singleton _⟩
      simp [fillSuccessors, heq, avoid_of_ne heq]

/-- A second successor is the first one again. -/
theorem not_nodup_of_fillSuccessors
    (h : fillSuccessors c rand fuel i (d + 2) n succ = some (l, m)) :
    ¬ l.Nodup := by
  obtain ⟨⟨v, n₁⟩, hfirst, h⟩ := bind_eq_some_iff.mp h
  obtain ⟨y₁, hrest, heq⟩ := map_eq_some_iff.mp h
  obtain ⟨⟨u, n₂⟩, hsecond, h⟩ := bind_eq_some_iff.mp hrest
  obtain ⟨y₂, -, heq₂⟩ := map_eq_some_iff.mp h
  cases fuel with
  | zero => cases hfirst
  | succ fuel =>
    rw [avoid_of_ne (ne_of_avoid hfirst)] at hsecond
    cases hsecond
    cases heq₂
    cases heq
    exact fun hnodup => (nodup_cons.mp hnodup).1 mem_cons_self

private theorem createNode_of_fresh (fuel : ℕ) (hi : i < c.numNodes) (h : Fresh c rand i n) :
    ∃ x, createNode c rand (fuel + 2) i n = some (x, nextDraw c rand i n) ∧ Sound c x ∧ x.id = i ∧
      x.outDegree = numSucc c rand i n := by
  obtain ⟨l, hl, hlength, hinside, hnodup⟩ :=
    fillSuccessors_of_le_one rand fuel (succDraw c i n + 1) hi
      (Nat.mod_lt _ (Nat.zero_lt_of_lt hi)) h
  exact ⟨_, map_eq_some_iff.mpr ⟨_, hl, rfl⟩, ⟨hlength, hinside, hnodup⟩, rfl, rfl⟩

private theorem fresh_of_createNode (h : createNode c rand fuel i n = some (x, m))
    (hx : Sound c x) :
    Fresh c rand i n := by
  obtain ⟨⟨l, m'⟩, hl, heq⟩ := map_eq_some_iff.mp h
  cases heq
  unfold Fresh
  cases hd : numSucc c rand i n with
  | zero => exact .inl rfl
  | succ d =>
    rw [hd] at hl
    cases d with
    | zero =>
      refine .inr ⟨rfl, or_iff_not_imp_left.mpr (fun heq => ?_)⟩
      by_contra hsmall
      rw [not_ne_iff.mp heq, fillSuccessors, avoid_small (not_le.mp hsmall)] at hl
      cases hl
    | succ d => exact absurd hx.distinct (not_nodup_of_fillSuccessors hl)

/-! ### All nodes -/

/-- The nodes before `k` are as they have been drawn. -/
structure Drawn (c : Params) (rand : ℕ → ℕ) (k : ℕ) (xs : List Node) : Prop where
  ids : xs.map Node.id = List.range k
  degrees : xs.map Node.outDegree = (List.range k).map (degree c rand)
  sound : ∀ x ∈ xs, Sound c x

theorem createNodes_of_fresh (fuel : ℕ) (hk : k ≤ c.numNodes)
    (h : ∀ i < k, Fresh c rand i (firstDraw c rand i)) :
    ∃ xs, createNodes c rand (fuel + 2) k = some (xs, firstDraw c rand k) ∧ Drawn c rand k xs := by
  induction k with
  | zero => exact ⟨[], rfl, rfl, rfl, forall_mem_nil _⟩
  | succ k ih =>
    obtain ⟨xs, hxs, hdrawn⟩ := ih (Nat.le_of_succ_le hk) (fun i hi => h i (Nat.lt_succ_of_lt hi))
    obtain ⟨x, hx, hsound, hid, hdegree⟩ := createNode_of_fresh fuel hk (h k (Nat.lt_succ_self k))
    refine ⟨xs ++ [x], ?_, ?_, ?_, ?_⟩
    · rw [createNodes, hxs, bind_some, hx]
      rfl
    · rw [map_append, hdrawn.ids, range_succ, map_singleton, hid]
    · rw [map_append, hdrawn.degrees, range_succ, map_append, map_singleton, hdegree]
      rfl
    · exact forall_mem_append.mpr ⟨hdrawn.sound, forall_mem_singleton.mpr hsound⟩

theorem fresh_of_createNodes {s : List Node × ℕ} (hk : k ≤ c.numNodes)
    (h : createNodes c rand (fuel + 2) k = some s) (hsound : ∀ x ∈ s.1, Sound c x) :
    ∀ i < k, Fresh c rand i (firstDraw c rand i) := by
  induction k generalizing s with
  | zero => exact fun i hi => absurd hi (Nat.not_lt_zero i)
  | succ k ih =>
    obtain ⟨s₀, hs₀, hs⟩ := bind_eq_some_iff.mp h
    obtain ⟨⟨x, m⟩, hx, rfl⟩ := map_eq_some_iff.mp hs
    obtain ⟨hsound₀, hlast⟩ := forall_mem_append.mp hsound
    have hfresh := ih (Nat.le_of_succ_le hk) hs₀ hsound₀
    -- The draws of node `k` are where they should be, since the nodes before it are fresh.
    obtain ⟨xs, hxs, -⟩ := createNodes_of_fresh fuel (Nat.le_of_succ_le hk) hfresh
    cases hs₀.symm.trans hxs
    intro i hi
    rcases Nat.lt_succ_iff_lt_or_eq.mp hi with hi | rfl
    · exact hfresh i hi
    · exact fresh_of_createNode hx (hlast x mem_cons_self)

theorem drawWeights_iff (xs : List Node) (n : ℕ) :
    (∃ ws, drawWeights c rand xs n = some ws) ↔ (c.maxWeight = 0 → ∀ x ∈ xs, x.outDegree = 0) := by
  induction xs generalizing n with
  | nil => simp [drawWeights]
  | cons x xs ih =>
    have ih := ih (n + x.outDegree)
    by_cases hx : x.outDegree ≠ 0 ∧ c.maxWeight = 0
    · simp [drawWeights, hx]
    · rw [drawWeights, if_neg hx]
      simp only [map_eq_some_iff, forall_mem_cons]
      grind

theorem createWeights_iff {xs : List Node} (h : Drawn c rand k xs) (n : ℕ) :
    (∃ ws, createWeights c rand xs n = some ws) ↔
      (c.kernel = .bellmanFord → c.maxWeight = 0 → ∀ i < k, degree c rand i = 0) := by
  unfold createWeights
  split
  · next hkernel =>
    rw [drawWeights_iff, ← List.forall_mem_map (P := (· = 0)), h.degrees, List.forall_mem_map]
    simp only [hkernel, mem_range, true_imp_iff]
  · next hkernel => exact iff_of_true ⟨[], rfl⟩ (fun heq => absurd heq hkernel)

theorem allocated_le {g : Graph} (h : Drawn c rand c.numNodes g.nodes) :
    g.allocated c ≤ c.requiredMemSize := by
  have hdegree : ∀ d ∈ g.nodes.map Node.outDegree, d ≤ c.maxOutdegree := by
    intro d hd
    rw [h.degrees] at hd
    obtain ⟨i, -, rfl⟩ := List.mem_map.mp hd
    unfold degree numSucc
    split
    · exact (Nat.mod_lt _ c.outdegree_pos).le
    · exact Nat.zero_le _
  have hsum := Nat.mul_le_mul_right c.sizeofWord (sum_le_card_nsmul _ _ hdegree)
  rw [h.degrees, length_map, length_range, ← h.degrees, smul_eq_mul] at hsum
  unfold Graph.allocated Params.requiredMemSize
  dsimp only
  split_ifs <;> omega

theorem Generated.fresh (h : Generated c rand) :
    (∀ i < c.numNodes, Fresh c rand i (firstDraw c rand i)) ∧
      (c.kernel = .bellmanFord → c.maxWeight = 0 → ∀ i < c.numNodes, degree c rand i = 0) := by
  obtain ⟨bound, h⟩ := h
  obtain ⟨g, hg, -, hsound, -⟩ := h (bound + 2) (Nat.le_add_right _ _)
  obtain ⟨s, hs, hg⟩ := bind_eq_some_iff.mp hg
  obtain ⟨ws, hws, rfl⟩ := map_eq_some_iff.mp hg
  have hfresh := fresh_of_createNodes le_rfl hs hsound
  obtain ⟨xs, hxs, hdrawn⟩ := createNodes_of_fresh bound le_rfl hfresh
  cases hs.symm.trans hxs
  exact ⟨hfresh, (createWeights_iff hdrawn _).mp ⟨ws, hws⟩⟩

end Nodes

/-- The generator gives a graph as it should be exactly if each node draws at most one successor,
the node itself only where `NODES/500` is positive, and weights are drawn from a range that is not
empty. -/
theorem generated_iff (c : Params) (rand : ℕ → ℕ) :
    Generated c rand ↔ (∀ i < c.numNodes, Fresh c rand i (firstDraw c rand i)) ∧
      (c.kernel = .bellmanFord → c.maxWeight = 0 → ∀ i < c.numNodes, degree c rand i = 0) := by
  refine ⟨Generated.fresh, fun ⟨hfresh, hweights⟩ => ⟨2, fun fuel hfuel => ?_⟩⟩
  obtain ⟨fuel, rfl⟩ := Nat.exists_eq_add_of_le' hfuel
  obtain ⟨xs, hxs, hdrawn⟩ := createNodes_of_fresh fuel le_rfl hfresh
  obtain ⟨ws, hws⟩ := (createWeights_iff hdrawn (firstDraw c rand c.numNodes)).mpr hweights
  refine ⟨⟨xs, ws⟩, ?_, hdrawn.ids, hdrawn.sound, allocated_le hdrawn⟩
  rw [createGraph, hxs, bind_some, hws]
  rfl

def fourNodes : Params where
  kernel := .pageRank
  numNodes := 4
  maxOutdegree := 3
  step := 1
  maxWeight := 1
  sizeofNode := 20
  sizeofWord := 4
  outdegree_pos := Nat.succ_pos _
  outdegree_lt := Nat.lt_succ_self _
  step_pos := Nat.succ_pos _

/-- Each node draws two successors, and they are both node 2. -/
theorem not_generated_fourNodes : ¬ Generated fourNodes (fun _ => 2) :=
  fun h => absurd (h.fresh.1 0 (by decide)) (by unfold Fresh; decide)

end SmcSim.SgraphCreation
