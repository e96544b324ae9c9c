import SmcSim.DmaClashes
import SmcSim.SgraphBellmanFord
import SmcSim.SgraphMemory

/-!
# Bellman-Ford with prefetched records

`execute_kernel` of `sgraph_bellman_ford.c` built as `kernel_atomicmin`, `kernel_simpledma` and
`kernel_best`, the last with or without the atomic commands of the memory. All of them read the node
records in chunks, the distances among them, and add a weight to the distance in the copy of a
record without asking whether that distance is `NC`. In the runs in which every distance that is
read from a copy is the one in memory, and not `NC`, they leave the distances of the plain kernel.
-/

namespace SmcSim.SgraphBellmanFord
open EffectPrograms CommandSpec DmaPrograms SgraphBfs SgraphMemory Interleavings List Function

/-! ### The kernels -/

/-- The members of `node` in this build. -/
def nodeFields : List Field := [.distance, .weights, .id, .outDegree, .successors]

/-- `HMC_ATOMIC___IMIN(succ->distance)`: the memory keeps the smaller word. -/
def imin (succ operand : ℕ) : DmaProg Loc Unit :=
  modify (.node succ .distance) (fun m => if operand < m then operand else m)

/-- `if (operand < succ->distance) succ->distance = operand`. -/
def lowerByStore (succ operand : ℕ) : DmaProg Loc Unit := do
  let distance ← load (.node succ .distance)
  if operand < distance then store (.node succ .distance) operand

/-- `hmc` is `USE_HMC_ATOMIC_CMD`. -/
def lowerDistance (hmc : Bool) (succ operand : ℕ) : DmaProg Loc Unit :=
  if hmc then imin succ operand else lowerByStore succ operand

section Kernels

variable (S : Config nodeFields)

structure Locals where
  nodes : Cursor
  checksum : ℕ

/-! #### `kernel_atomicmin` -/

def visitAtomicmin (k : Cursor) (r c checksum : ℕ) : DmaProg Loc ℕ := do
  let distance ← S.copyField k r .distance
  let weights ← S.copyField k r .weights
  let weight ← load (.weight weights c)
  let successors ← S.copyField k r .successors
  let succ ← load (.successor successors c)
  imin succ ((distance + weight) % word)
  let weights ← S.copyField k r .weights
  let weight ← load (.weight weights c)
  pure ((checksum + weight) % word)

def roundAtomicmin (r : ℕ) (l : Locals) : DmaProg Loc Locals := do
  let k ← S.nodeStream.refill r l.nodes
  let outDegree ← S.copyField k r .outDegree
  let checksum ← Prog.forUp (visitAtomicmin S k r) outDegree 0 l.checksum
  pure ⟨{ k with rr := k.rr + 1 }, checksum⟩

def kernelAtomicmin (nodes : ℕ) : DmaProg Loc ℕ := do
  let k ← S.nodeStream.start 0 S.maxXferSize
  let l ← Prog.forUp (roundAtomicmin S) nodes 0 ⟨k, 0⟩
  pure l.checksum

/-! #### `kernel_simpledma` -/

/-- The requests for the successors and the weights of the record at hand. -/
def requestLists (k : Cursor) (r succ weights : ℕ) : DmaProg Loc Unit := do
  let outDegree ← S.copyField k r .outDegree
  if outDegree ≠ 0 then
    let list ← S.copyField k r .successors
    let outDegree ← S.copyField k r .outDegree
    dmaRead (successorList list outDegree) succ dmaRes1
    let list ← S.copyField k r .weights
    let outDegree ← S.copyField k r .outDegree
    dmaRead (weightList list outDegree) weights dmaRes2

def visitSimpledma (k : Cursor) (r c checksum : ℕ) : DmaProg Loc ℕ := do
  let distance ← S.copyField k r .distance
  let weight ← loadSpm (3 * S.maxXferSize + sizeofUlong * c)
  let succ ← loadSpm (2 * S.maxXferSize + sizeofUlong * c)
  imin succ ((distance + weight) % word)
  let weight ← loadSpm (3 * S.maxXferSize + sizeofUlong * c)
  pure ((checksum + weight) % word)

def roundSimpledma (r : ℕ) (l : Locals) : DmaProg Loc Locals := do
  let k ← S.nodeStream.refill r l.nodes
  requestLists S k r (2 * S.maxXferSize) (3 * S.maxXferSize)
  dmaWait [dmaRes1, dmaRes2]
  let outDegree ← S.copyField k r .outDegree
  let checksum ← Prog.forUp (visitSimpledma S k r) outDegree 0 l.checksum
  pure ⟨{ k with rr := k.rr + 1 }, checksum⟩

def kernelSimpledma (nodes : ℕ) : DmaProg Loc ℕ := do
  let k ← S.nodeStream.start 0 S.maxXferSize
  let l ← Prog.forUp (roundSimpledma S) nodes 0 ⟨k, 0⟩
  pure l.checksum

/-! #### `kernel_best` -/

structure BestLocals extends Locals where
  succPing : ℕ
  weightsPing : ℕ
  succPong : ℕ
  weightsPong : ℕ
  numPongs : ℕ
  currDistance : ℕ

def visitPing (hmc : Bool) (l : BestLocals) (c checksum : ℕ) : DmaProg Loc ℕ := do
  let weight ← loadSpm (l.weightsPing + sizeofUlong * c)
  let succ ← loadSpm (l.succPing + sizeofUlong * c)
  lowerDistance hmc succ ((l.currDistance + weight) % word)
  let weight ← loadSpm (l.weightsPing + sizeofUlong * c)
  pure ((checksum + weight) % word)

def scanPings (hmc : Bool) (l : BestLocals) : DmaProg Loc BestLocals :=
  if l.numPongs ≠ noPongs then do
    let checksum ← Prog.forUp (visitPing hmc l) l.numPongs 0 l.checksum
    pure { l with checksum := checksum, numPongs := noPongs }
  else pure l

def takePongs (r : ℕ) (l : BestLocals) : DmaProg Loc BestLocals := do
  let outDegree ← S.copyField l.nodes r .outDegree
  if outDegree ≠ 0 then
    let numPongs ← S.copyField l.nodes r .outDegree
    let currDistance ← S.copyField l.nodes r .distance
    dmaWait [dmaRes1, dmaRes2]
    pure { l with
      numPongs := numPongs
      currDistance := currDistance
      succPing := l.succPong
      succPong := l.succPing
      weightsPing := l.weightsPong
      weightsPong := l.weightsPing }
  else pure l

def roundBest (hmc : Bool) (r : ℕ) (l : BestLocals) : DmaProg Loc BestLocals := do
  let k ← S.nodeStream.refill r l.nodes
  let l := { l with nodes := k }
  requestLists S l.nodes r l.succPong l.weightsPong
  let l ← scanPings hmc l
  let l ← takePongs S r l
  pure { l with nodes := { l.nodes with rr := l.nodes.rr + 1 } }

def kernelBest (hmc : Bool) (nodes : ℕ) : DmaProg Loc ℕ := do
  let k ← S.nodeStream.start 0 S.maxXferSize
  let l ← Prog.forUp (roundBest S hmc) nodes 0
    ⟨⟨k, 0⟩, 2 * S.maxXferSize, 3 * S.maxXferSize, 4 * S.maxXferSize, 5 * S.maxXferSize, noPongs, 0⟩
  let l ← scanPings hmc l
  pure l.checksum

end Kernels

inductive Variant where
  | atomicmin
  | simpledma
  | best (hmc : Bool)
  deriving DecidableEq, Repr

/-- The value is the one left in `SREG[3]`. -/
def executeVariant (S : Config nodeFields) (nodes : ℕ) : Variant → DmaProg Loc ℕ
  | .atomicmin => kernelAtomicmin S nodes
  | .simpledma => kernelSimpledma S nodes
  | .best hmc => kernelBest S hmc nodes

/-! ### Edges -/

structure Weighted (W : WeightedGraph) (m : Loc → ℕ) : Prop extends Holds W.toGraph m where
  weights : ∀ i < W.nodes, m (.node i .weights) = i
  weight : ∀ i < W.nodes, ∀ c w, (W.weights i)[c]? = some w → m (.weight i c) = w

/-- In the runs with `known`, a distance in a copy is the one in memory, and not `NC`. -/
def Fresh (known : Prop) (l : Loc) (v m : ℕ) : Prop :=
  known → ∀ i, l = .node i .distance → v = m ∧ v ≠ nc

def rules (known : Prop) : Rules Loc := ⟨fun _ => False, Fresh known⟩

variable {S : Config nodeFields} {W : WeightedGraph} {known : Prop}
  {rest : List (ℕ × List (Loc × ℕ))}
  {r s operand : ℕ} {k : Cursor} {w w' : World Loc} {R : Rules Loc}

theorem Weighted.update {m : Loc → ℕ} (h : Weighted W m) (i v : ℕ) :
    Weighted W (update m (.node i .distance) v) := by
  refine ⟨h.toHolds.update (by decide) (by decide), fun j hj => ?_, fun j hj c x hx => ?_⟩
  · rw [update_of_ne (by simp)]
    exact h.weights j hj
  · rw [update_of_ne (by simp)]
    exact h.weight j hj c x hx

abbrev Streaming (S : Config nodeFields) (W : WeightedGraph) := S.nodeStream.Streaming (Weighted W)

/-- The record at hand after an edge from distance `d`. -/
structure Lowered (S : Config nodeFields) (W : WeightedGraph) (rest : List (ℕ × List (Loc × ℕ)))
    (r : ℕ) (k : Cursor) (d : ℕ) (e : ℕ × ℕ) (w w' : World Loc) : Prop where
  streaming : Streaming S W rest r k w'
  spm : w'.spm = w.spm
  distance : w'.field .distance = lower d (w.field .distance) e

variable {e : ℕ × ℕ}

section

variable (h : Streaming S W rest r k w)
include h

private theorem wp_imin {d : ℕ} :
    R.wp (imin e.1 ((d + e.2) % word)) w
      (fun _ w' => Lowered S W rest r k d e w w') := by
  refine wp_modify h.reading ⟨h.set (h.reading.now.update _ _), rfl, ?_⟩
  rw [World.field_set (Loc.node_injective _), lower]
  change update (w.field .distance) e.1
    (if (d + e.2) % word < w.field .distance e.1 then (d + e.2) % word
      else w.field .distance e.1) = _
  split
  · rfl
  · exact update_eq_self e.1 (w.field .distance)

private theorem wp_lowerByStore {d : ℕ} :
    R.wp (lowerByStore e.1 ((d + e.2) % word)) w
      (fun _ w' => Lowered S W rest r k d e w w') := by
  refine wp_seq (wp_load h.reading ?_)
  change R.wp (if (d + e.2) % word < w.field .distance e.1 then _ else _) _ _
  by_cases hlt : (d + e.2) % word < w.field .distance e.1
  · rw [if_pos hlt]
    refine wp_store h.reading ⟨h.set (h.reading.now.update _ _), rfl, ?_⟩
    rw [World.field_set (Loc.node_injective _), lower, if_pos hlt]
  · rw [if_neg hlt]
    exact ⟨h, rfl, (if_neg hlt).symm⟩

private theorem wp_lowerDistance {d : ℕ} {hmc : Bool} :
    R.wp (lowerDistance hmc e.1 ((d + e.2) % word)) w
      (fun _ w' => Lowered S W rest r k d e w w') := by
  rw [lowerDistance]
  split
  · exact wp_imin h
  · exact wp_lowerByStore h

end

/-! ### Copies of the record at hand -/

/-- What the results of the runs with `known` rest on. -/
structure Sound (S : Config nodeFields) (W : WeightedGraph) (distance : ℕ → ℕ) (known : Prop) :
    Prop where
  nodes : W.nodes ≤ word
  degrees : ∀ v < W.nodes, W.outDegree v * sizeofUlong ≤ S.maxXferSize
  sums : known → ∀ us v d, PathSum W us v d → d < nc
  paths : known → ∀ r, AlongPaths W r (distanceBefore W distance r)

variable {distance : ℕ → ℕ} {Q : ℕ → World Loc → Prop}

theorem Sound.list_lt (h : Sound S W distance known) (hr : r < W.nodes) :
    W.outDegree r * sizeofUlong < word := by
  have hdegree := h.degrees r hr
  have haddressable := S.addressable
  have hword : 0 < word := by decide
  omega

theorem Sound.outDegree_lt (h : Sound S W distance known) (hr : r < W.nodes) :
    W.outDegree r < word := by
  have hlist := h.list_lt hr
  rw [sizeofUlong] at hlist
  omega

section

variable (hsound : Sound S W distance known) (h : Streaming S W rest r k w)
  (hrr : k.rr < S.nodesCount) (hr : r < W.nodes)
include hsound h hrr hr

private theorem wp_copyOutDegree (hq : Q (W.outDegree r) w) :
    R.wp (S.copyField k r .outDegree) w Q := by
  refine Config.wp_copyField h hrr (by decide) (fun m hm _ => ?_)
  rw [hm.outDegree r hr, Nat.mod_eq_of_lt (hsound.outDegree_lt hr)]
  exact hq

private theorem wp_copySuccessors (hq : Q r w) : R.wp (S.copyField k r .successors) w Q := by
  refine Config.wp_copyField h hrr (by decide) (fun m hm _ => ?_)
  rw [hm.successors r hr, Nat.mod_eq_of_lt (lt_of_lt_of_le hr hsound.nodes)]
  exact hq

private theorem wp_copyWeights (hq : Q r w) : R.wp (S.copyField k r .weights) w Q := by
  refine Config.wp_copyField h hrr (by decide) (fun m hm _ => ?_)
  rw [hm.weights r hr, Nat.mod_eq_of_lt (lt_of_lt_of_le hr hsound.nodes)]
  exact hq

end

private theorem wp_copyDistance (h : Streaming S W rest r k w) (hrr : k.rr < S.nodesCount)
    (hq : ∀ d, (known → d = w.field .distance r ∧ d ≠ nc) → Q d w) :
    (rules known).wp (S.copyField k r .distance) w Q :=
  Config.wp_copyField h hrr (by decide) (fun _ _ hfresh => hq _ (fun hknown => hfresh hknown r rfl))

/-! ### The edges of one node -/

/-- The first `c` edges of node `r` have been visited. -/
structure Visited (S : Config nodeFields) (W : WeightedGraph) (distance : ℕ → ℕ) (known : Prop)
    (rest : List (ℕ × List (Loc × ℕ))) (r : ℕ) (k : Cursor) (spm : ℕ → ℕ) (c : ℕ) (w : World Loc) :
    Prop where
  streaming : Streaming S W rest r k w
  spm : w.spm = spm
  current : known → w.field .distance = ((W.edges r).take c).foldl
    (lower (distanceBefore W distance r r)) (distanceBefore W distance r)
  reached : known → 0 < c → distanceBefore W distance r r ≠ nc

variable {c d : ℕ} {e : ℕ × ℕ} {spm : ℕ → ℕ}

/-- The distance of the node itself stays while its edges are visited. -/
theorem Visited.distance_self (hsound : Sound S W distance known)
    (h : Visited S W distance known rest r k spm c w) (hknown : known) :
    w.field .distance r = distanceBefore W distance r r := by
  rw [h.current hknown]
  cases c with
  | zero => rfl
  | succ c =>
    have hreached := h.reached hknown (Nat.succ_pos c)
    refine foldl_lower_apply (fun e he => ?_) (le_rfl)
    exact (hsound.paths hknown r).no_wrap (hsound.sums hknown) hreached e (mem_of_mem_take he)

theorem Visited.next (h : Visited S W distance known rest r k spm c w)
    (he : (W.edges r)[c]? = some e) (hd : known → d = distanceBefore W distance r r ∧ d ≠ nc)
    (hlowered : Lowered S W rest r k d e w w') :
    Visited S W distance known rest r k spm (c + 1) w' := by
  refine ⟨hlowered.streaming, hlowered.spm.trans h.spm, fun hknown => ?_, fun hknown _ => ?_⟩
  · rw [hlowered.distance, h.current hknown, (hd hknown).1, take_add_one, he, foldl_append]
    rfl
  · rw [← (hd hknown).1]
    exact (hd hknown).2

theorem length_edges (W : WeightedGraph) (u : ℕ) : (W.edges u).length = W.outDegree u := by
  rw [WeightedGraph.edges, length_zip, W.length_weights, Nat.min_self]
  rfl

theorem Visited.all (hsound : Sound S W distance known)
    (h : Visited S W distance known rest r k spm (W.outDegree r) w) (hknown : known) :
    w.field .distance = distanceBefore W distance (r + 1) := by
  have hlength := length_edges W r
  rw [h.current hknown, distanceBefore_succ (hsound.paths hknown r) (hsound.sums hknown), ← hlength,
    take_length]
  split
  · next hnc =>
    have hempty : W.outDegree r = 0 := by
      by_contra hne
      exact h.reached hknown (Nat.pos_of_ne_zero hne) hnc
    rw [length_eq_zero_iff.mp (hlength.trans hempty)]
    rfl
  · rfl

theorem getElem?_edges (he : (W.edges r)[c]? = some e) :
    (W.successors r)[c]? = some e.1 ∧ (W.weights r)[c]? = some e.2 :=
  getElem?_zip_eq_some.mp he

/-! ### `kernel_atomicmin` -/

/-- A kernel without a list in hand, before round `r`. -/
structure Before (S : Config nodeFields) (W : WeightedGraph) (distance : ℕ → ℕ) (known : Prop)
    (r : ℕ) (l : Locals) (w : World Loc) : Prop where
  streaming : Streaming S W [] r l.nodes w
  current : known → w.field .distance = distanceBefore W distance r

variable {checksum : ℕ} {l : Locals}

private theorem wp_visitAtomicmin (hsound : Sound S W distance known)
    (h : Visited S W distance known [] r k spm c w) (hrr : k.rr < S.nodesCount) (hr : r < W.nodes)
    (he : (W.edges r)[c]? = some e) :
    (rules known).wp (visitAtomicmin S k r c checksum) w
      (fun _ w' => Visited S W distance known [] r k spm (c + 1) w') := by
  obtain ⟨hsucc, hweight⟩ := getElem?_edges he
  have hreading := h.streaming.reading
  refine wp_seq (wp_copyDistance h.streaming hrr (fun d hd => ?_))
  refine wp_seq (wp_copyWeights hsound h.streaming hrr hr (wp_seq (wp_load hreading ?_)))
  rw [hreading.now.weight r hr c e.2 hweight]
  refine wp_seq (wp_copySuccessors hsound h.streaming hrr hr (wp_seq (wp_load hreading ?_)))
  rw [hreading.now.successor r hr c e.1 hsucc]
  refine wp_then (wp_imin (d := d) h.streaming) ?_
  rintro - w' hlowered
  have hd' : known → d = distanceBefore W distance r r ∧ d ≠ nc := fun hknown =>
    ⟨(hd hknown).1.trans (h.distance_self hsound hknown), (hd hknown).2⟩
  refine wp_seq (wp_copyWeights hsound hlowered.streaming hrr hr
    (wp_seq (wp_load hlowered.streaming.reading ?_)))
  exact h.next he hd' hlowered

private theorem wp_roundAtomicmin (hsound : Sound S W distance known) (hr : r < W.nodes)
    (h : Before S W distance known r l w) :
    (rules known).wp (roundAtomicmin S r l) w
      (fun l' w' => Before S W distance known (r + 1) l' w') := by
  refine wp_then (ChunkStream.wp_refill h.streaming rfl) ?_
  rintro k w₁ ⟨hstreaming, hrr, hmem, -⟩
  refine wp_seq (wp_copyOutDegree hsound hstreaming hrr hr ?_)
  have hstart : Visited S W distance known [] r k w₁.spm 0 w₁ :=
    ⟨hstreaming, rfl, fun hknown => (World.field_congr hmem _).trans (h.current hknown),
      fun _ hpos => absurd hpos (lt_irrefl 0)⟩
  refine wp_then (wp_forUp _ (fun c _ w' => Visited S W distance known [] r k w₁.spm c w')
    (fun c checksum w' hc hvisited => ?_) (W.outDegree r) 0 l.checksum w₁ (zero_add _) hstart) ?_
  · exact wp_visitAtomicmin hsound hvisited hrr hr
      (getElem?_eq_getElem (lt_of_lt_of_eq hc (length_edges W r).symm))
  · rintro checksum w₂ hvisited
    exact ⟨hvisited.streaming.next hrr, fun hknown => hvisited.all hsound hknown⟩

/-! ### Lists in the scratchpad -/

/-- The requests for the lists of node `r`. -/
def requestedLists (W : WeightedGraph) (r succ weights : ℕ) : List (ℕ × List (Loc × ℕ)) :=
  if W.outDegree r = 0 then []
  else [(dmaRes2, words (weightList r (W.outDegree r)) weights),
    (dmaRes1, words (successorList r (W.outDegree r)) succ)]

/-- The lists of node `u` have been fetched. -/
def ListsAt (W : WeightedGraph) (u succ weights : ℕ) (w : World Loc) : Prop :=
  ∀ c e, (W.edges u)[c]? = some e →
    ByteMemory.load w.spm (succ + sizeofUlong * c) = e.1 ∧
      ByteMemory.load w.spm (weights + sizeofUlong * c) = e.2

variable {u succ weights a : ℕ}

section

variable (hsound : Sound S W distance known)
include hsound

theorem bounds_requestedLists (hr : r < W.nodes) {p : ℕ × List (Loc × ℕ)}
    (hp : p ∈ requestedLists W r succ weights) :
    p.1 ≠ dmaRes0 ∧ ∀ x ∈ p.2, succ ≤ x.2 ∧ x.2 + 4 ≤ succ + S.maxXferSize ∨
      weights ≤ x.2 ∧ x.2 + 4 ≤ weights + S.maxXferSize := by
  have hlist := hsound.list_lt hr
  have hdegree := hsound.degrees r hr
  rw [sizeofUlong] at hdegree
  rw [requestedLists] at hp
  split at hp
  · cases hp
  · rcases mem_cons.mp hp with rfl | hp
    · refine ⟨(by decide : dmaRes2 ≠ dmaRes0), fun x hx => .inr ?_⟩
      have hbounds := bounds_of_mem_words hx
      rw [length_weightList hlist] at hbounds
      omega
    · rw [mem_singleton.mp hp]
      refine ⟨(by decide : dmaRes1 ≠ dmaRes0), fun x hx => .inl ?_⟩
      have hbounds := bounds_of_mem_words hx
      rw [length_successorList hlist] at hbounds
      omega

private theorem wp_requestLists (hr : r < W.nodes) (h : Streaming S W [] r k w)
    (hrr : k.rr < S.nodesCount) (hsucc : 2 * S.maxXferSize ≤ succ)
    (hweights : succ + S.maxXferSize ≤ weights) :
    R.wp (requestLists S k r succ weights) w (fun _ w' =>
      Streaming S W (requestedLists W r succ weights) r k w' ∧
        w'.spm = w.spm ∧ w'.mem = w.mem) := by
  refine wp_seq (wp_copyOutDegree hsound h hrr hr ?_)
  by_cases hzero : W.outDegree r = 0
  · rw [if_neg (not_not_intro hzero), requestedLists, if_pos hzero]
    exact ⟨h, rfl, rfl⟩
  · have hlist := hsound.list_lt hr
    have hdegree := hsound.degrees r hr
    have hsuccessors := length_successorList (p := r) hlist
    have hweightList := length_weightList (p := r) hlist
    rw [sizeofUlong] at hdegree
    rw [if_pos hzero, requestedLists, if_neg hzero]
    refine wp_seq (wp_copySuccessors hsound h hrr hr (wp_seq (wp_copyOutDegree hsound h hrr hr
      (wp_seq (wp_dmaRead h.reading ?_ (fun p hp => ?_) ?_)))))
    · intro hnil
      rw [hnil] at hsuccessors
      exact hzero hsuccessors.symm
    · rcases mem_append.mp ((h.flying p).mp hp) with hpending | hnil
      · obtain ⟨hres, hbelow⟩ := Config.pending_below h p hpending
        refine ⟨by rw [hres]; decide, fun x hx => .inl ?_⟩
        have hlow := hbelow x hx
        omega
      · cases hnil
    · have hlaunched : Streaming S W
          [(dmaRes1, words (successorList r (W.outDegree r)) succ)] r k _ :=
        h.launch (by decide : dmaRes1 ≠ dmaRes0) (fun x hx => S.outside_nodeStream
          (le_trans hsucc (bounds_of_mem_words hx).1))
      refine wp_seq (wp_copyWeights hsound hlaunched hrr hr (wp_seq
        (wp_copyOutDegree hsound hlaunched hrr hr
          (wp_dmaRead hlaunched.reading ?_ (fun p hp => ?_) ?_))))
      · intro hnil
        rw [hnil] at hweightList
        exact hzero hweightList.symm
      · rcases mem_append.mp ((hlaunched.flying p).mp hp) with hpending | hsingle
        · obtain ⟨hres, hbelow⟩ := Config.pending_below hlaunched p hpending
          refine ⟨by rw [hres]; decide, fun x hx => .inl ?_⟩
          have hlow := hbelow x hx
          omega
        · rw [mem_singleton.mp hsingle]
          refine ⟨(by decide : dmaRes1 ≠ dmaRes2), fun x hx => .inl ?_⟩
          have hbounds := bounds_of_mem_words hx
          omega
      · exact ⟨hlaunched.launch (by decide : dmaRes2 ≠ dmaRes0) (fun x hx => S.outside_nodeStream
          (le_trans (by omega) (bounds_of_mem_words hx).1)), rfl, rfl⟩

/-- The requests of `requestLists` are complete. -/
theorem listsAt_of_fetched (hr : r < W.nodes)
    (h : Streaming S W (requestedLists W r succ weights) r k w)
    (hw' : Fetched (Weighted W) [dmaRes1, dmaRes2] w w') :
    Streaming S W [] r k w' ∧ ListsAt W r succ weights w' := by
  have hlanded := h.landed hw' (by decide : dmaRes0 ∉ [dmaRes1, dmaRes2])
  have hlist := hsound.list_lt hr
  by_cases hzero : W.outDegree r = 0
  · rw [requestedLists, if_pos hzero] at hlanded
    refine ⟨hlanded, fun c e he => ?_⟩
    have hc := (List.getElem?_eq_some_iff.mp he).1
    rw [length_edges, hzero] at hc
    exact absurd hc (Nat.not_lt_zero c)
  · have hrequested : requestedLists W r succ weights =
        [(dmaRes2, words (weightList r (W.outDegree r)) weights),
          (dmaRes1, words (successorList r (W.outDegree r)) succ)] := if_neg hzero
    rw [hrequested] at hlanded h
    refine ⟨hlanded, fun c e he => ?_⟩
    obtain ⟨hsucc, hweight⟩ := getElem?_edges he
    refine ⟨?_, ?_⟩
    · exact fetched_successor hw' (fun _ hm => hm.toHolds)
        ((h.flying _).mpr (mem_append_right _ (mem_cons_of_mem _ (mem_singleton.mpr rfl))))
        (by decide) hr hsound.nodes hlist c e.1 hsucc
    · have hflight :
          (dmaRes2, words ((List.range (listWords (W.weights r).length)).map (Loc.weight r))
          weights) ∈ w.inFlight := by
        rw [W.length_weights]
        exact (h.flying _).mpr (mem_append_right _ mem_cons_self)
      refine fetched_list hw' hflight (by decide) (by rwa [W.length_weights])
        (fun m hm c x hx => ⟨hm.weight r hr c x hx, ?_⟩) c e.2 hweight
      exact W.weights_lt r x (mem_of_getElem? hx)

end

/-! ### `kernel_simpledma` -/

theorem avoids_of_above (h : Streaming S W [] r k w)
    (ha : 2 * S.maxXferSize ≤ a) : w.Avoids a := by
  intro p hp x hx
  rcases mem_append.mp ((h.flying p).mp hp) with hpending | hnil
  · have hbelow := (Config.pending_below h p hpending).2 x hx
    exact .inl (by omega)
  · cases hnil

private theorem wp_visitSimpledma (hsound : Sound S W distance known)
    (h : Visited S W distance known [] r k spm c w) (hrr : k.rr < S.nodesCount)
    (he : (W.edges r)[c]? = some e)
    (hlists : ByteMemory.load spm (2 * S.maxXferSize + sizeofUlong * c) = e.1 ∧
      ByteMemory.load spm (3 * S.maxXferSize + sizeofUlong * c) = e.2) :
    (rules known).wp (visitSimpledma S k r c checksum) w
      (fun _ w' => Visited S W distance known [] r k spm (c + 1) w') := by
  rw [← h.spm] at hlists
  have hsucc : 2 * S.maxXferSize ≤ 2 * S.maxXferSize + sizeofUlong * c := Nat.le_add_right _ _
  have hweights : 2 * S.maxXferSize ≤ 3 * S.maxXferSize + sizeofUlong * c := by omega
  refine wp_seq (wp_copyDistance h.streaming hrr (fun d hd => ?_))
  refine wp_seq (wp_loadSpm (avoids_of_above h.streaming hweights)
    (wp_seq (wp_loadSpm (avoids_of_above h.streaming hsucc) ?_)))
  rw [hlists.1, hlists.2]
  refine wp_then (wp_imin (d := d) h.streaming) ?_
  rintro - w' hlowered
  refine wp_seq (wp_loadSpm (avoids_of_above hlowered.streaming hweights) ?_)
  exact h.next he
    (fun hknown => ⟨(hd hknown).1.trans (h.distance_self hsound hknown), (hd hknown).2⟩) hlowered

private theorem wp_roundSimpledma (hsound : Sound S W distance known) (hr : r < W.nodes)
    (h : Before S W distance known r l w) :
    (rules known).wp (roundSimpledma S r l) w
      (fun l' w' => Before S W distance known (r + 1) l' w') := by
  refine wp_then (ChunkStream.wp_refill h.streaming rfl) ?_
  rintro k w₁ ⟨hstreaming, hrr, hmem, -⟩
  refine wp_then (wp_requestLists hsound hr hstreaming hrr (le_rfl) (by omega)) ?_
  rintro - w₂ ⟨hstreaming₂, -, hmem₂⟩
  refine wp_seq (wp_dmaWait hstreaming₂.reading (fun w₃ hw₃ => ?_))
  obtain ⟨hstreaming₃, hlists⟩ := listsAt_of_fetched hsound hr hstreaming₂ hw₃
  refine wp_seq (wp_copyOutDegree hsound hstreaming₃ hrr hr ?_)
  have hstart : Visited S W distance known [] r k w₃.spm 0 w₃ :=
    ⟨hstreaming₃, rfl, fun hknown => (World.field_congr ((hw₃.mem.trans hmem₂).trans hmem) _).trans
      (h.current hknown), fun _ hpos => absurd hpos (lt_irrefl 0)⟩
  refine wp_then (wp_forUp _ (fun c _ w' => Visited S W distance known [] r k w₃.spm c w')
    (fun c checksum w' hc hvisited => ?_) (W.outDegree r) 0 l.checksum w₃ (zero_add _) hstart) ?_
  · have he := getElem?_eq_getElem (lt_of_lt_of_eq hc (length_edges W r).symm)
    exact wp_visitSimpledma hsound hvisited hrr he (hlists c _ he)
  · rintro checksum w₄ hvisited
    exact ⟨hvisited.streaming.next hrr, fun hknown => hvisited.all hsound hknown⟩

/-! ### `kernel_best` -/

/-- What is left to relax before round `r`. -/
inductive Hand (W : WeightedGraph) (distance : ℕ → ℕ) (known : Prop) (r : ℕ) (l : BestLocals)
    (w : World Loc) : Prop where
  | none (hpongs : l.numPongs = noPongs)
      (hcurrent : known → w.field .distance = distanceBefore W distance r)
  | one {u : ℕ} (hu : u < W.nodes) (hpongs : l.numPongs = W.outDegree u)
      (hlists : ListsAt W u l.succPing l.weightsPing w)
      (hcurrent : known → (W.edges u).foldl (lower l.currDistance) (w.field .distance) =
        distanceBefore W distance r)

def Buffers (S : Config nodeFields) (l : BestLocals) : Prop :=
  l.weightsPing = l.succPing + S.maxXferSize ∧ l.weightsPong = l.succPong + S.maxXferSize ∧
    (l.succPing = 2 * S.maxXferSize ∧ l.succPong = 4 * S.maxXferSize ∨
      l.succPing = 4 * S.maxXferSize ∧ l.succPong = 2 * S.maxXferSize)

def Beside (S : Config nodeFields) (rest : List (ℕ × List (Loc × ℕ))) (l : BestLocals) : Prop :=
  ∀ p ∈ rest, ∀ x ∈ p.2, l.succPong ≤ x.2 ∧ x.2 + 4 ≤ l.succPong + 2 * S.maxXferSize

/-- The kernel before round `r`. -/
structure BeforeBest (S : Config nodeFields) (W : WeightedGraph) (distance : ℕ → ℕ) (known : Prop)
    (r : ℕ) (l : BestLocals) (w : World Loc) : Prop where
  streaming : Streaming S W [] r l.nodes w
  buffers : Buffers S l
  hand : Hand W distance known r l w

section Best

variable {l l' : BestLocals} {hmc : Bool}

section

variable (h : Streaming S W rest r l.nodes w)
include h

theorem avoids_ping (hbuffers : Buffers S l) (hbeside : Beside S rest l) (hlow : l.succPing ≤ a)
    (hhigh : a + 4 ≤ l.succPing + 2 * S.maxXferSize) : w.Avoids a := by
  intro p hp x hx
  rw [Buffers] at hbuffers
  rw [Apart]
  rcases mem_append.mp ((h.flying p).mp hp) with hpending | hother
  · have hbelow := (Config.pending_below h p hpending).2 x hx
    omega
  · have hplace := hbeside p hother x hx
    omega

theorem wp_visitPing (hbuffers : Buffers S l) (hbeside : Beside S rest l)
    (hc : sizeofUlong * c + 4 ≤ S.maxXferSize)
    (hlists : ByteMemory.load w.spm (l.succPing + sizeofUlong * c) = e.1 ∧
      ByteMemory.load w.spm (l.weightsPing + sizeofUlong * c) = e.2) :
    R.wp (visitPing hmc l c checksum) w
      (fun _ w' => Lowered S W rest r l.nodes l.currDistance e w w') := by
  have hweights : ∀ w', Streaming S W rest r l.nodes w' →
      w'.Avoids (l.weightsPing + sizeofUlong * c) := fun w' h' =>
    avoids_ping h' hbuffers hbeside (by rw [hbuffers.1]; omega) (by rw [hbuffers.1]; omega)
  refine wp_seq (wp_loadSpm (hweights w h) (wp_seq
    (wp_loadSpm (avoids_ping h hbuffers hbeside (Nat.le_add_right _ _) (by omega)) ?_)))
  rw [hlists.1, hlists.2]
  refine wp_then (wp_lowerDistance h) ?_
  rintro - w' hlowered
  exact wp_seq (wp_loadSpm (hweights w' hlowered.streaming) hlowered)

end

theorem wp_scanPings (hsound : Sound S W distance known)
    (h : Streaming S W rest r l.nodes w) (hbuffers : Buffers S l)
    (hbeside : Beside S rest l) (hhand : Hand W distance known r l w) :
    R.wp (scanPings hmc l) w (fun l' w' =>
      Streaming S W rest r l.nodes w' ∧
        (∃ checksum, l' = { l with numPongs := noPongs, checksum := checksum }) ∧
        (known → w'.field .distance = distanceBefore W distance r)) := by
  cases hhand with
  | none hpongs hcurrent =>
    rw [scanPings, if_neg (not_not_intro hpongs)]
    exact ⟨h, ⟨l.checksum, by rw [← hpongs]⟩, hcurrent⟩
  | @one u hu hpongs hlists hcurrent =>
    have hne : l.numPongs ≠ noPongs := by
      have hlt := hsound.list_lt hu
      rw [hpongs, noPongs]
      rw [sizeofUlong, word] at hlt
      omega
    have hbody : ∀ c checksum w', c < W.outDegree u →
        (Streaming S W rest r l.nodes w' ∧ w'.spm = w.spm ∧
          w'.field .distance =
            ((W.edges u).take c).foldl (lower l.currDistance) (w.field .distance)) →
        R.wp (visitPing hmc l c checksum) w' (fun _ w'' =>
          Streaming S W rest r l.nodes w'' ∧ w''.spm = w.spm ∧
            w''.field .distance =
              ((W.edges u).take (c + 1)).foldl (lower l.currDistance) (w.field .distance)) := by
      rintro c checksum w' hc ⟨hstreaming, hspm, hdistance⟩
      have he := getElem?_eq_getElem (lt_of_lt_of_eq hc (length_edges W u).symm)
      have hplace : sizeofUlong * c + 4 ≤ S.maxXferSize := by
        have hdegree := hsound.degrees u hu
        rw [sizeofUlong] at hdegree ⊢
        omega
      refine wp_mono (wp_visitPing hstreaming hbuffers hbeside hplace (hspm ▸ hlists c _ he)) ?_
      rintro - w'' hlowered
      refine ⟨hlowered.streaming, hlowered.spm.trans hspm, ?_⟩
      rw [hlowered.distance, hdistance, take_add_one, he, foldl_append]
      rfl
    rw [scanPings, if_pos hne, hpongs]
    refine wp_then (wp_forUp _ _ hbody _ 0 l.checksum w (zero_add _) ⟨h, rfl, rfl⟩) ?_
    rintro checksum w' ⟨hstreaming, -, hdistance⟩
    refine ⟨hstreaming, ⟨checksum, rfl⟩, fun hknown => ?_⟩
    rw [hdistance, ← length_edges, take_length]
    exact hcurrent hknown

theorem wp_takePongs (hsound : Sound S W distance known) (hr : r < W.nodes)
    (h : Streaming S W (requestedLists W r l.succPong l.weightsPong) r l.nodes w)
    (hrr : l.nodes.rr < S.nodesCount) (hbuffers : Buffers S l) (hpongs : l.numPongs = noPongs)
    (hcurrent : known → w.field .distance = distanceBefore W distance r) :
    (rules known).wp (takePongs S r l) w (fun l' w' =>
      Streaming S W [] r l'.nodes w' ∧ l'.nodes = l.nodes ∧ Buffers S l' ∧
        Hand W distance known (r + 1) l' w') := by
  refine wp_seq (wp_copyOutDegree hsound h hrr hr ?_)
  by_cases hzero : W.outDegree r = 0
  · rw [if_neg (not_not_intro hzero)]
    rw [requestedLists, if_pos hzero] at h
    refine ⟨h, rfl, hbuffers, .none hpongs (fun hknown => ?_)⟩
    have hvisited : Visited S W distance known [] r l.nodes w.spm (W.outDegree r) w := by
      refine ⟨h, rfl, fun hknown => ?_, fun _ hpos => absurd hpos (hzero ▸ Nat.lt_irrefl 0)⟩
      rw [hzero]
      exact hcurrent hknown
    exact hvisited.all hsound hknown
  · rw [if_pos hzero]
    refine wp_seq (wp_copyOutDegree hsound h hrr hr (wp_seq (wp_copyDistance h hrr (fun d hd =>
      wp_seq (wp_dmaWait h.reading (fun w' hw' => ?_))))))
    obtain ⟨hstreaming, hlists⟩ := listsAt_of_fetched hsound hr h hw'
    refine ⟨hstreaming, rfl, ⟨hbuffers.2.1, hbuffers.1, hbuffers.2.2.symm.imp And.symm And.symm⟩,
      .one hr rfl hlists (fun hknown => ?_)⟩
    obtain ⟨hdistance, hreached⟩ := hd hknown
    rw [hcurrent hknown] at hdistance
    rw [World.field_congr hw'.mem, hcurrent hknown,
      distanceBefore_succ (hsound.paths hknown r) (hsound.sums hknown),
      if_neg (hdistance ▸ hreached)]
    exact congrArg (fun d => (W.edges r).foldl (lower d) (distanceBefore W distance r)) hdistance

theorem Hand.congr (h : Hand W distance known r l w) (hpongs : l'.numPongs = l.numPongs)
    (hsucc : l'.succPing = l.succPing) (hweights : l'.weightsPing = l.weightsPing)
    (hdistance : l'.currDistance = l.currDistance) (hmem : w'.mem = w.mem)
    (hspm : ∀ a, 2 * S.maxXferSize ≤ a → ByteMemory.load w'.spm a = ByteMemory.load w.spm a)
    (hbuffers : Buffers S l) : Hand W distance known r l' w' := by
  cases h with
  | none hnone hcurrent =>
    exact .none (hpongs.trans hnone)
      (fun hknown => (World.field_congr hmem _).trans (hcurrent hknown))
  | one hu hone hlists hcurrent =>
    rw [Buffers] at hbuffers
    refine .one hu (hpongs.trans hone) (fun c e he => ?_) (fun hknown => ?_)
    · rw [hsucc, hweights, hspm _ (by omega), hspm _ (by omega)]
      exact hlists c e he
    · rw [hdistance, World.field_congr hmem]
      exact hcurrent hknown

private theorem wp_roundBest (hsound : Sound S W distance known) (hr : r < W.nodes)
    (h : BeforeBest S W distance known r l w) :
    (rules known).wp (roundBest S hmc r l) w
      (fun l' w' => BeforeBest S W distance known (r + 1) l' w') := by
  refine wp_then (ChunkStream.wp_refill h.streaming rfl) ?_
  rintro k w₁ ⟨hstreaming, hrr, hmem, hspm⟩
  have hbuffers : Buffers S { l with nodes := k } := h.buffers
  have hplace := h.buffers
  rw [Buffers] at hplace
  have hsucc : 2 * S.maxXferSize ≤ l.succPong := by omega
  have hweights : l.succPong + S.maxXferSize ≤ l.weightsPong := by omega
  refine wp_then (wp_requestLists hsound hr hstreaming hrr hsucc hweights) ?_
  rintro - w₂ ⟨hstreaming₂, hspm₂, hmem₂⟩
  have hhand : Hand W distance known r { l with nodes := k } w₂ := by
    refine h.hand.congr rfl rfl rfl rfl (hmem₂.trans hmem) (fun a ha => ?_) h.buffers
    rw [hspm₂]
    exact hspm a (S.outside_nodeStream ha)
  have hbeside : Beside S (requestedLists W r l.succPong l.weightsPong) { l with nodes := k } := by
    intro p hp x hx
    have hbounds := (bounds_requestedLists hsound hr hp).2 x hx
    change l.succPong ≤ x.2 ∧ x.2 + 4 ≤ l.succPong + 2 * S.maxXferSize
    omega
  refine wp_then (wp_scanPings hsound hstreaming₂ hbuffers hbeside hhand) ?_
  rintro _ w₃ ⟨hstreaming₃, ⟨checksum, rfl⟩, hcurrent⟩
  refine wp_then (wp_takePongs hsound hr hstreaming₃ hrr hbuffers rfl hcurrent) ?_
  rintro l₄ w₄ ⟨hstreaming₄, hnodes₄, hbuffers₄, hhand₄⟩
  have hrr₄ : l₄.nodes.rr < S.nodesCount := hnodes₄ ▸ hrr
  exact ⟨hstreaming₄.next hrr₄, hbuffers₄,
    hhand₄.congr rfl rfl rfl rfl rfl (fun _ _ => rfl) hbuffers₄⟩

end Best

/-! ### All rounds -/

variable {mem : Loc → ℕ}

def Ends (W : WeightedGraph) (distance : ℕ → ℕ) (known : Prop) (_ : ℕ) (w : World Loc) : Prop :=
  Reading (Weighted W) w ∧ (known → w.field .distance = (executeKernel W distance).distance)

/-- A kernel without a list in hand. -/
theorem wp_rounds {round : ℕ → Locals → DmaProg Loc Locals} (hmem : Weighted W mem)
    (hdistance : ∀ i, mem (.node i .distance) = distance i) (spm : ℕ → ℕ)
    (hround : ∀ r l w, r < W.nodes → Before S W distance known r l w →
      (rules known).wp (round r l) w (Before S W distance known (r + 1))) :
    (rules known).wp
      (do
        let k ← S.nodeStream.start 0 S.maxXferSize
        let l ← Prog.forUp round W.nodes 0 ⟨k, 0⟩
        pure l.checksum) ⟨mem, spm, []⟩ (Ends W distance known) := by
  refine wp_then (ChunkStream.wp_start S.nodeStream_apart (reading_start hmem spm) (fun p => .rfl)
    (forall_mem_nil _) (.inl ⟨rfl, rfl⟩) rfl) ?_
  rintro k w₁ ⟨hstreaming, -, hmem₁, -⟩
  have hstart : Before S W distance known 0 ⟨k, 0⟩ w₁ :=
    ⟨hstreaming, fun _ => (World.field_congr hmem₁ _).trans (funext hdistance)⟩
  refine wp_then (wp_forUp _ (Before S W distance known) hround W.nodes 0 _ _ (zero_add _)
    hstart) ?_
  exact fun l w₂ h => ⟨h.streaming.reading, h.current⟩

theorem wp_kernelBest (hsound : Sound S W distance known) (hmem : Weighted W mem)
    (hdistance : ∀ i, mem (.node i .distance) = distance i) (spm : ℕ → ℕ) (hmc : Bool) :
    (rules known).wp (kernelBest S hmc W.nodes) ⟨mem, spm, []⟩ (Ends W distance known) := by
  refine wp_then (ChunkStream.wp_start S.nodeStream_apart (reading_start hmem spm) (fun p => .rfl)
    (forall_mem_nil _) (.inl ⟨rfl, rfl⟩) rfl) ?_
  rintro k w₁ ⟨hstreaming, -, hmem₁, -⟩
  have hstart : BeforeBest S W distance known 0 ⟨⟨k, 0⟩, 2 * S.maxXferSize, 3 * S.maxXferSize,
      4 * S.maxXferSize, 5 * S.maxXferSize, noPongs, 0⟩ w₁ := by
    refine ⟨hstreaming, ⟨?_, ?_, .inl ⟨rfl, rfl⟩⟩, .none rfl (fun _ => ?_)⟩
    · change 3 * S.maxXferSize = 2 * S.maxXferSize + S.maxXferSize
      omega
    · change 5 * S.maxXferSize = 4 * S.maxXferSize + S.maxXferSize
      omega
    · exact (World.field_congr hmem₁ _).trans (funext hdistance)
  refine wp_then (wp_forUp _ (BeforeBest S W distance known)
    (fun r l w hr h => wp_roundBest hsound hr h) W.nodes 0 _ _ (zero_add _) hstart) ?_
  rintro l w₂ ⟨hstreaming₂, hbuffers, hhand⟩
  refine wp_then (wp_scanPings hsound hstreaming₂ hbuffers
    (forall_mem_nil _) hhand) ?_
  rintro l' w₃ ⟨hstreaming₃, -, hcurrent⟩
  exact ⟨hstreaming₃.reading, hcurrent⟩

theorem wp_executeVariant (hsound : Sound S W distance known) (hmem : Weighted W mem)
    (hdistance : ∀ i, mem (.node i .distance) = distance i) (spm : ℕ → ℕ) (variant : Variant) :
    (rules known).wp (executeVariant S W.nodes variant) ⟨mem, spm, []⟩
      (Ends W distance known) := by
  cases variant with
  | atomicmin =>
    exact wp_rounds hmem hdistance spm (fun r l w hr h => wp_roundAtomicmin hsound hr h)
  | simpledma =>
    exact wp_rounds hmem hdistance spm (fun r l w hr h => wp_roundSimpledma hsound hr h)
  | best hmc => exact wp_kernelBest hsound hmem hdistance spm hmc

/-! ### Runs -/

/-- A distance that is read from a copy next is the one in memory, and not `NC`. -/
def freshRead (m : Machine Loc ℕ) : Bool :=
  match m.prog with
  | .call (.loadCopy a (.node i .distance)) _ =>
      ByteMemory.load m.state.spm a = m.state.mem (.node i .distance) ∧
        ByteMemory.load m.state.spm a ≠ nc
  | _ => true

theorem assumed_of_freshRead {m : Machine Loc ℕ} {o : Op Loc} {k : Res o → DmaProg Loc ℕ}
    (hm : freshRead m = true) (hprog : m.prog = .call o k) : Assumed (Fresh True) o m.state := by
  cases o with
  | loadCopy a l =>
    rintro - i rfl
    rw [freshRead, hprog] at hm
    exact of_decide_eq_true hm
  | _ => exact trivial

theorem assumed_fresh (o : Op Loc) (s : DmaPrograms.State Loc) : Assumed (Fresh False) o s := by
  cases o with
  | loadCopy a l => exact fun hfalse => hfalse.elim
  | _ => exact trivial

/-- Every run of every variant ends, unless a response is in the ranges of two requests; and in the
runs in which none is, and every distance that is read from a copy is the one in memory and not
`NC`, the distances are those of the plain kernel. -/
theorem executeVariant_eq_default (S : Config nodeFields) (W : WeightedGraph) (variant : Variant)
    (hnodes : W.nodes ≤ word)
    (hdegrees : ∀ v < W.nodes, W.outDegree v * sizeofUlong ≤ S.maxXferSize)
    (hsums : ∀ us v d, PathSum W us v d → d < nc) (mem : Loc → ℕ) (hmem : Weighted W mem)
    (hdistance : ∀ i, mem (.node i .distance) = resetDistance i) (spm : ℕ → ℕ) (address : Loc → ℕ) :
    RunsTo address (fun m => ∃ sreg3, m.prog = .ret sreg3)
        (start (executeVariant S W.nodes variant) mem spm) ∧
      ∀ m, Reached (checkedStep address)
          (fun m e => ¬ Clashes address m.state e ∧ (e = .kernel → freshRead m = true))
          (start (executeVariant S W.nodes variant) mem spm) m →
        ∀ sreg3, m.prog = .ret sreg3 →
          ∀ i, m.state.mem (.node i .distance) = (executeKernel W resetDistance).distance i := by
  have hsound : ∀ known, Sound S W resetDistance known := fun known =>
    ⟨hnodes, hdegrees, fun _ => hsums,
      fun _ => alongPaths_distanceBefore rfl (fun v hv => if_neg hv) hsums⟩
  refine ⟨?_, fun m hreached sreg3 hret i => ?_⟩
  · have hwp : (rules False).wp (executeVariant S W.nodes variant)
        ⟨mem, spm, []⟩ _ := wp_executeVariant (hsound False) hmem hdistance spm variant
    refine (runsTo_of_wp (rel_start mem spm []) assumed_fresh hwp).mono (fun m hm => ?_)
    obtain ⟨sreg3, _, hret, -⟩ := hm
    exact ⟨sreg3, hret⟩
  · obtain ⟨w, hrel, hwp⟩ := post_of_reached (rel_start mem spm [])
      (wp_executeVariant (hsound True) hmem hdistance spm variant)
      (fun m o k hok hprog => assumed_of_freshRead (hok rfl) hprog)
      (reached_of_checkedStep hreached (fun _ _ hok => hok))
    rw [hret] at hwp
    rw [hrel.mem _ (hwp.1.free _)]
    exact congrFun (hwp.2 trivial) i

def chain : WeightedGraph where
  nodes := 3
  successors
    | 0 => [1]
    | 1 => [2]
    | _ => []
  successors_lt v w hw := by
    match v with
    | 0 | 1 =>
      simp only [mem_cons, not_mem_nil, or_false] at hw
      omega
    | _ + 2 => cases hw
  weights := twoNodes.weights
  length_weights v := by
    match v with
    | 0 | 1 | _ + 2 => rfl
  weights_lt := twoNodes.weights_lt

/-- The records of a weighted graph with the distances of `reset_graph_stats`. -/
def weightedMemory (W : WeightedGraph) : Loc → ℕ
  | .node i .distance => resetDistance i
  | .node i .outDegree => W.outDegree i
  | .node i _ => i
  | .successor p c => (W.successors p).getD c 0
  | .weight p c => (W.weights p).getD c 0

def threePerChunk : Config nodeFields := ⟨64, 60, by decide, by decide, by decide, by decide⟩

/-- The lists are far from the nodes. -/
def spread : Loc → ℕ := layout nodeFields 0 (1000 + 64 * ·) (5000 + 64 * ·)

/-- The engine copies as early as it can. Node 1 is copied before its distance is lowered, so that
node 2 gets `NC + 1`, which is 0. In the last run the successors of node 0 are right behind the
nodes, in the range of the second chunk. -/
theorem executeVariant_chain :
    (∃ m, Reached (checkedStep spread) (fun _ _ => True)
        (start (executeVariant threePerChunk 3 .atomicmin) (weightedMemory chain) (fun _ => 0)) m ∧
      (m.answer, m.state.mem (.node 2 .distance)) = (some 2, 0)) ∧
    (∃ m, Reached (checkedStep spread) (fun _ _ => True)
        (start (executeVariant threePerChunk 3 .simpledma) (weightedMemory chain) (fun _ => 0)) m ∧
      (m.answer, m.state.mem (.node 2 .distance)) = (some 2, 0)) ∧
    (∃ m, Reached (checkedStep spread) (fun _ _ => True)
        (start (executeVariant threePerChunk 3 (.best false)) (weightedMemory chain)
          (fun _ => 0)) m ∧
      (m.answer, m.state.mem (.node 2 .distance)) = (some 2, 0)) ∧
    (executeKernel chain resetDistance).distance 2 = 2 ∧
    ∃ m, Reached (checkedStep (layout nodeFields 0 (60 + 4 * ·) (5000 + 64 * ·))) (fun _ _ => True)
        (start (executeVariant threePerChunk 3 (.best false)) (weightedMemory chain)
          (fun _ => 0)) m ∧
      m.panicked = true := by
  refine ⟨?_, ?_, ?_, by decide +kernel, ?_⟩
  · exact exists_of_runSchedule (turns [(1, .kernel), (15, .copy 0 0), (2, .kernel),
      (15, .copy 0 0), (19, .kernel)]) (by decide +kernel)
  · exact exists_of_runSchedule (turns [(1, .kernel), (15, .copy 0 0), (2, .kernel),
      (15, .copy 0 0), (4, .kernel), (1, .copy 0 0), (3, .kernel), (1, .copy 0 0), (11, .kernel),
      (1, .copy 0 0), (3, .kernel), (1, .copy 0 0), (10, .kernel)]) (by decide +kernel)
  · exact exists_of_runSchedule (turns [(1, .kernel), (15, .copy 0 0), (2, .kernel),
      (15, .copy 0 0), (4, .kernel), (1, .copy 0 0), (3, .kernel), (1, .copy 0 0), (8, .kernel),
      (1, .copy 0 0), (3, .kernel), (1, .copy 0 0), (16, .kernel)]) (by decide +kernel)
  · exact exists_of_runSchedule (turns [(1, .kernel), (15, .copy 0 0), (6, .kernel),
      (1, .copy 0 0)]) (by decide +kernel)

theorem weighted_weightedMemory (W : WeightedGraph) : Weighted W (weightedMemory W) := by
  refine ⟨⟨fun _ _ => rfl, fun _ _ => rfl, fun i _ c s hs => ?_⟩, fun _ _ => rfl,
    fun i _ c w hw => ?_⟩
  · change (W.successors i).getD c 0 = s
    rw [getD_eq_getElem?_getD, hs, Option.getD_some]
  · change (W.weights i).getD c 0 = w
    rw [getD_eq_getElem?_getD, hw, Option.getD_some]

theorem sum_chain {us : List ℕ} {v : ℕ} (h : PathSum chain us v d) : d = v ∧ v ≤ 2 := by
  induction h with
  | start => exact ⟨rfl, by decide⟩
  | @edge _ _ d _ _ _ he ih =>
    obtain ⟨rfl, -⟩ := ih
    match d with
    | 0 | 1 =>
      obtain rfl := mem_singleton.mp he
      exact ⟨rfl, by decide⟩
    | _ + 2 => cases he

def onePerChunk : Config nodeFields :=
  ⟨64, 20, threePerChunk.fields_pos, by decide, by decide, threePerChunk.addressable⟩

/-- Each node is copied when the distances before it are known. -/
theorem executeVariant_eq_default_chain :
    ∃ m, Reached (checkedStep spread)
        (fun m e => ¬ Clashes spread m.state e ∧ (e = .kernel → freshRead m = true))
        (start (executeVariant onePerChunk 3 .atomicmin) (weightedMemory chain) (fun _ => 0)) m ∧
      m.prog = .ret 2 ∧
      ∀ i, m.state.mem (.node i .distance) = (executeKernel chain resetDistance).distance i := by
  have hrun : (runSchedule (guarded (checkedStep spread)
      (fun m e => ¬ Clashes spread m.state e ∧ (e = .kernel → freshRead m = true)))
      (start (executeVariant onePerChunk 3 .atomicmin) (weightedMemory chain) (fun _ => 0))
      (turns [(1, .kernel), (5, .copy 0 0), (11, .kernel), (5, .copy 0 0), (11, .kernel),
        (5, .copy 0 0), (3, .kernel)])).map Machine.answer = some (some 2) := by
    decide +kernel
  obtain ⟨m, hreached, hanswer⟩ := exists_of_runSchedule _ hrun
  have hsums : ∀ us v d, PathSum chain us v d → d < nc := by
    intro us v d h
    obtain ⟨rfl, hle⟩ := sum_chain h
    exact lt_of_le_of_lt hle (by decide)
  have hdefault := executeVariant_eq_default onePerChunk chain .atomicmin (by decide) (by decide)
    hsums (weightedMemory chain) (weighted_weightedMemory chain) (fun _ => rfl) (fun _ => 0) spread
  have hret := Machine.ret_of_answer hanswer
  exact ⟨m, hreached, hret, hdefault.2 m hreached 2 hret⟩

end SmcSim.SgraphBellmanFord
