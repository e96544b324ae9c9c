import SmcSim.ChunkStreams
import SmcSim.DmaClashes
import SmcSim.Followers

/-!
# Counting teenage followers in a dense graph

`execute_kernel` of `dgraph_teenage_follower.c` built as `kernel_default` and as `kernel_dma2`, with
or without the atomic commands of the memory. `kernel_dma2` reads the node records in one stream of
chunks and the row of a teenager in the adjacency matrix in another; both look for the end of what
they read, and the second one is started anew for each teenager, in the buffers that it has left.
The buffers have `MAX_XFER_SIZE` bytes each, and a chunk has up to `XFER_SIZE` bytes.
-/

namespace SmcSim.DgraphTeenage
open EffectPrograms CommandSpec DmaPrograms Followers SgraphBfs Interleavings Function List

/-! ### The plain kernel -/

structure DenseGraph where
  nodes : ℕ
  teenager : ℕ → Bool
  /-- Row after row. -/
  adj : ℕ → ℕ
  adj_lt : ∀ n, adj n < word

/-- `ELEMENT(adj, NODES, r, c)`. -/
def DenseGraph.element (G : DenseGraph) (r c : ℕ) : ℕ := G.adj (r * G.nodes + c)

def visitCell (G : DenseGraph) (r : ℕ) (followers : ℕ → ℕ) (c : ℕ) : ℕ → ℕ :=
  if G.element r c ≠ nc then follow followers c else followers

def visitRow (G : DenseGraph) (followers : ℕ → ℕ) (r : ℕ) : ℕ → ℕ :=
  if G.teenager r then (range G.nodes).foldl (visitCell G r) followers else followers

/-- The counters when the rows before `r` have been visited. -/
def followersBefore (G : DenseGraph) (followers : ℕ → ℕ) : ℕ → ℕ → ℕ
  | 0 => followers
  | r + 1 => visitRow G (followersBefore G followers r) r

def executeKernelDefault (G : DenseGraph) (followers : ℕ → ℕ) : Result :=
  let followers := followersBefore G followers G.nodes
  ⟨followers, totalFollowers followers G.nodes⟩

/-! ### The kernel with two streams -/

/-- The members of `node`. -/
inductive Field where
  | teenager
  | followers
  | pageRank
  | nextRank
  | distance
  | outDegree
  deriving DecidableEq, Repr

inductive Loc where
  | node (i : ℕ) (f : Field)
  | adj (n : ℕ)
  deriving DecidableEq, Repr

abbrev Loc.followers (i : ℕ) : Loc := .node i .followers

def nodeFields : List Field := [.teenager, .followers, .pageRank, .nextRank, .distance, .outDegree]

def sizeofNode : ℕ := 24

/-- A chunk has room for a node. Nothing keeps it within a buffer. -/
structure Config where
  maxXferSize : ℕ
  xferSize : ℕ
  holds_node : sizeofNode ≤ xferSize

namespace Config

variable (S : Config) (nodes : ℕ)

def nodesCount : ℕ := S.xferSize / sizeofNode

def adjCount : ℕ := S.xferSize / sizeofUlong

/-- `adj_chunk`. -/
def adjChunk : ℕ := S.xferSize / sizeofUlong * sizeofUlong

theorem nodesCount_pos : 0 < S.nodesCount := Nat.div_pos S.holds_node (by decide)

theorem adjCount_pos : 0 < S.adjCount :=
  Nat.div_pos (le_trans (by decide) S.holds_node) (by decide)

/-- `nodes_pi0` and `nodes_po0`. -/
def nodeStream : ChunkStream Loc Field where
  loc := .node
  fields := nodeFields
  count := S.nodesCount
  res := 0
  wanted n := n < nodes
  left := 0
  right := S.maxXferSize
  fields_pos := by decide
  count_pos := S.nodesCount_pos

/-- `adj_pi1` and `adj_po1` in row `r`. -/
def rowStream (r : ℕ) : ChunkStream Loc Unit where
  loc c _ := .adj (r * nodes + c)
  fields := [()]
  count := S.adjCount
  res := 1
  wanted c := c < nodes
  left := 2 * S.maxXferSize
  right := 3 * S.maxXferSize
  fields_pos := by decide
  count_pos := S.adjCount_pos

end Config

structure Locals where
  nodes : Cursor
  adj : Cursor

section Kernel

variable (S : Config) (hmc : Bool) (nodes : ℕ)

/-- `nodes[c].followers++`; `hmc` is `USE_HMC_ATOMIC_CMD`. -/
def increment (c : ℕ) : DmaProg Loc Unit :=
  if hmc then modify (.node c .followers) (fun followers => (followers + 1) % word)
  else do
    let followers ← load (.node c .followers)
    store (.node c .followers) ((followers + 1) % word)

def countCell (c adj : ℕ) : DmaProg Loc Unit := if adj ≠ nc then increment hmc c else pure ()

/-- Column `c` of row `r`. -/
def readCell (r c : ℕ) (k : Cursor) : DmaProg Loc Cursor := do
  let k ← (S.rowStream nodes r).refill c k
  let adj ← loadCopy ((S.rowStream nodes r).fieldAddr k 0) (.adj (r * nodes + c))
  countCell hmc c adj
  pure { k with rr := k.rr + 1 }

def readRow (r : ℕ) (k : Cursor) : DmaProg Loc Cursor := do
  let k ← (S.rowStream nodes r).start k.ping k.pong
  Prog.forUp (readCell S hmc nodes r) nodes 0 k

def readTeenager (r teenager : ℕ) (k : Cursor) : DmaProg Loc Cursor :=
  if teenager ≠ 0 then readRow S hmc nodes r k else pure k

def round (r : ℕ) (l : Locals) : DmaProg Loc Locals := do
  let k ← (S.nodeStream nodes).refill r l.nodes
  let teenager ← loadCopy ((S.nodeStream nodes).fieldAddr k 0) (.node r .teenager)
  let adj ← readTeenager S hmc nodes r teenager l.adj
  pure ⟨{ k with rr := k.rr + 1 }, adj⟩

/-- The value is the one left in `SREG[3]`. -/
def executeKernelDma2 : DmaProg Loc ℕ := do
  let k ← (S.nodeStream nodes).start 0 S.maxXferSize
  let _ ← Prog.forUp (round S hmc nodes) nodes 0
    ⟨k, ⟨0, 2 * S.maxXferSize, 3 * S.maxXferSize⟩⟩
  Prog.forUp (addFollowers .followers) nodes 0 0

end Kernel

/-! ### The invariants of the loops -/

structure Dense (G : DenseGraph) (m : Loc → ℕ) : Prop where
  teenager : ∀ i < G.nodes, m (.node i .teenager) = (G.teenager i).toNat
  adj : ∀ n < G.nodes * G.nodes, m (.adj n) = G.adj n

/-- In the round of node `r`, before column `c`. -/
structure InRow (S : Config) (G : DenseGraph) (followers : ℕ → ℕ) (r : ℕ) (k : Cursor) (c : ℕ)
    (k' : Cursor) (w : World Loc) : Prop where
  nodes : (S.nodeStream G.nodes).Streaming (Dense G) ((S.rowStream G.nodes r).pending c k') r k w
  row : (S.rowStream G.nodes r).Streaming (Dense G) ((S.nodeStream G.nodes).pending r k) c k' w
  counted : w.field .followers = (range c).foldl (visitCell G r) followers

/-- Before the round of node `r`. -/
structure Before (S : Config) (G : DenseGraph) (followers : ℕ → ℕ) (r : ℕ) (l : Locals)
    (w : World Loc) : Prop where
  nodes : (S.nodeStream G.nodes).Streaming (Dense G) [] r l.nodes w
  buffers : l.adj.ping = 2 * S.maxXferSize ∧ l.adj.pong = 3 * S.maxXferSize ∨
    l.adj.ping = 3 * S.maxXferSize ∧ l.adj.pong = 2 * S.maxXferSize
  counted : w.field .followers = followersBefore G followers r

section Rules

variable {S : Config} {G : DenseGraph} {hmc : Bool} {followers : ℕ → ℕ} {r c v : ℕ} {k k' : Cursor}
  {l : Locals} {w w' : World Loc} {R : Rules Loc}

theorem below_rowStream (hfits : S.adjChunk ≤ S.maxXferSize) :
    ChunkStream.Below (S.nodeStream G.nodes) (S.rowStream G.nodes r) := by
  have hadj : 4 * (S.adjCount * 1) ≤ S.maxXferSize := by
    rw [Config.adjChunk, sizeofUlong] at hfits
    rw [Config.adjCount, sizeofUlong]
    omega
  have hnodes : 4 * (S.nodesCount * 6) ≤ 4 * (S.adjCount * 1) := by
    rw [Config.nodesCount, Config.adjCount, sizeofNode, sizeofUlong]
    omega
  refine ⟨Nat.zero_ne_one, ?_, ?_, ?_⟩
  · change 0 + 4 * (S.nodesCount * 6) ≤ S.maxXferSize
    omega
  · change 2 * S.maxXferSize + 4 * (S.adjCount * 1) ≤ 3 * S.maxXferSize
    omega
  · change S.maxXferSize + 4 * (S.nodesCount * 6) ≤ 2 * S.maxXferSize
    omega

theorem Dense.update {m : Loc → ℕ} (h : Dense G m) (i v : ℕ) :
    Dense G (update m (.node i .followers) v) := by
  refine ⟨fun j hj => ?_, fun n hn => ?_⟩
  · rw [update_of_ne (by simp)]
    exact h.teenager j hj
  · rw [update_of_ne (by simp)]
    exact h.adj n hn

theorem Dense.element {m : Loc → ℕ} (h : Dense G m) (hr : r < G.nodes) (hc : c < G.nodes) :
    m (.adj (r * G.nodes + c)) % word = G.element r c := by
  have hindex : r * G.nodes + c < G.nodes * G.nodes := by
    calc r * G.nodes + c < r * G.nodes + G.nodes := Nat.add_lt_add_left hc _
      _ = (r + 1) * G.nodes := (Nat.succ_mul r G.nodes).symm
      _ ≤ G.nodes * G.nodes := Nat.mul_le_mul_right _ hr
  rw [h.adj _ hindex, Nat.mod_eq_of_lt (G.adj_lt _)]
  rfl

private theorem wp_increment {Q : Unit → World Loc → Prop} (hreading : Reading (Dense G) w)
    (hq : Q () (w.set (.node c .followers) ((w.field .followers c + 1) % word))) :
    R.wp (increment hmc c) w Q := by
  rw [increment]
  split
  · exact wp_modify hreading hq
  · exact wp_seq (wp_load hreading (wp_store hreading hq))

theorem InRow.set (h : InRow S G followers r k c k' w) (hc : G.element r c ≠ nc) :
    (S.nodeStream G.nodes).Streaming (Dense G) ((S.rowStream G.nodes r).pending c k') r k
        (w.set (.node c .followers) ((w.field .followers c + 1) % word)) ∧
      (S.rowStream G.nodes r).Streaming (Dense G) ((S.nodeStream G.nodes).pending r k) c k'
        (w.set (.node c .followers) ((w.field .followers c + 1) % word)) ∧
      (w.set (.node c .followers) ((w.field .followers c + 1) % word)).field .followers =
        visitCell G r (w.field .followers) c := by
  refine ⟨h.nodes.set (h.nodes.reading.now.update _ _),
    h.row.set (h.nodes.reading.now.update _ _), ?_⟩
  rw [World.field_set (fun _ _ heq => (Loc.node.inj heq).1), visitCell, if_pos hc, follow]

private theorem wp_countCell (h : InRow S G followers r k c k' w) (hrr : k'.rr < S.adjCount) :
    R.wp (countCell hmc c (G.element r c)) w
      (fun _ w' => InRow S G followers r k (c + 1) { k' with rr := k'.rr + 1 } w') := by
  have hnext : ∀ w', (S.nodeStream G.nodes).Streaming (Dense G)
      ((S.rowStream G.nodes r).pending c k') r k w' →
      (S.rowStream G.nodes r).Streaming (Dense G) ((S.nodeStream G.nodes).pending r k) c k' w' →
      w'.field .followers = visitCell G r (w.field .followers) c →
      InRow S G followers r k (c + 1) { k' with rr := k'.rr + 1 } w' := by
    intro w' hnodes hrow hcounted
    refine ⟨?_, hrow.next hrr, ?_⟩
    · rw [ChunkStream.pending_next hrr]
      exact hnodes
    · rw [hcounted, h.counted, range_succ, foldl_append]
      rfl
  rw [countCell]
  split
  · next hedge =>
    refine wp_increment h.row.reading ?_
    obtain ⟨hnodes, hrow, hcounted⟩ := h.set hedge
    exact hnext _ hnodes hrow hcounted
  · next hedge => exact hnext w h.nodes h.row (if_neg hedge).symm

private theorem wp_readCell (hfits : S.adjChunk ≤ S.maxXferSize) (hr : r < G.nodes)
    (hc : c < G.nodes) (h : InRow S G followers r k c k' w) :
    R.wp (readCell S hmc G.nodes r c k') w
      (fun k'' w' => InRow S G followers r k (c + 1) k'' w') := by
  refine wp_then (ChunkStream.wp_refill h.row (decide_eq_true hc)) ?_
  rintro k₁ w₁ ⟨hrow, hrr, hmem, hkept⟩
  have hrow₁ : InRow S G followers r k c k₁ w₁ :=
    ⟨h.nodes.beside (below_rowStream hfits) hrow hkept, hrow,
      (World.field_congr hmem _).trans h.counted⟩
  refine wp_seq (ChunkStream.wp_field hrow hrr rfl (fun m hm _ => wp_seq ?_))
  have helement := hm.element hr hc
  change R.wp (countCell hmc c (m (.adj (r * G.nodes + c)) % word)) w₁ _
  rw [helement]
  exact wp_countCell hrow₁ hrr

theorem pending_rowStream_end : (S.rowStream G.nodes r).pending G.nodes k' = [] :=
  if_neg (by simp [Config.rowStream])

private theorem wp_readRow (hfits : S.adjChunk ≤ S.maxXferSize) (hr : r < G.nodes)
    (hnodes : (S.nodeStream G.nodes).Streaming (Dense G) [] r k w)
    (hbuffers : k'.ping = 2 * S.maxXferSize ∧ k'.pong = 3 * S.maxXferSize ∨
      k'.ping = 3 * S.maxXferSize ∧ k'.pong = 2 * S.maxXferSize) :
    R.wp (readRow S hmc G.nodes r k') w (fun k'' w' =>
      (S.nodeStream G.nodes).Streaming (Dense G) [] r k w' ∧
        (k''.ping = 2 * S.maxXferSize ∧ k''.pong = 3 * S.maxXferSize ∨
          k''.ping = 3 * S.maxXferSize ∧ k''.pong = 2 * S.maxXferSize) ∧
        w'.field .followers = (range G.nodes).foldl (visitCell G r) (w.field .followers)) := by
  have hbelow := below_rowStream (G := G) (r := r) hfits
  have hflying := hnodes.flying
  rw [append_nil] at hflying
  refine wp_then (ChunkStream.wp_start hbelow.upper hnodes.reading hflying
    (hbelow.pending_outside hnodes.buffers) hbuffers (decide_eq_true (Nat.zero_lt_of_lt hr))) ?_
  rintro k₁ w₁ ⟨hrow, -, hmem, hspm⟩
  have hstart : InRow S G (w.field .followers) r k 0 k₁ w₁ :=
    ⟨hnodes.beside hbelow hrow (fun a _ => by rw [hspm]), hrow, World.field_congr hmem _⟩
  refine wp_mono (wp_forUp _ (InRow S G (w.field .followers) r k)
    (fun c k'' w' hc h => wp_readCell hfits hr hc h) G.nodes 0 k₁ w₁ (zero_add _) hstart) ?_
  rintro k₂ w₂ ⟨hnodes₂, hrow₂, hcounted⟩
  rw [pending_rowStream_end] at hnodes₂
  exact ⟨hnodes₂, hrow₂.buffers, hcounted⟩

theorem wp_round (hfits : S.adjChunk ≤ S.maxXferSize) (hr : r < G.nodes)
    (h : Before S G followers r l w) :
    R.wp (round S hmc G.nodes r l) w
      (fun l' w' => Before S G followers (r + 1) l' w') := by
  refine wp_then (ChunkStream.wp_refill h.nodes (decide_eq_true hr)) ?_
  rintro k w₁ ⟨hnodes, hrr, hmem, -⟩
  have hcounted : w₁.field .followers = followersBefore G followers r :=
    (World.field_congr hmem _).trans h.counted
  refine wp_seq (ChunkStream.wp_field hnodes hrr rfl (fun m hm _ => wp_seq ?_))
  have hteenager : m (.node r .teenager) % word = (G.teenager r).toNat := by
    rw [hm.teenager r hr]
    cases G.teenager r with
    | false => rfl
    | true => rfl
  change R.wp (readTeenager S hmc G.nodes r (m (.node r .teenager) % word) l.adj) w₁ _
  rw [hteenager]
  cases hflag : G.teenager r with
  | false =>
    refine ⟨hnodes.next hrr, h.buffers, ?_⟩
    rw [followersBefore, visitRow, hflag]
    exact hcounted
  | true =>
    refine wp_mono (wp_readRow hfits hr hnodes h.buffers) ?_
    rintro k' w₂ ⟨hnodes₂, hbuffers, hrow⟩
    refine ⟨hnodes₂.next hrr, hbuffers, ?_⟩
    rw [followersBefore, visitRow, hflag, hrow, hcounted]
    rfl

theorem wp_executeKernelDma2 (hfits : S.adjChunk ≤ S.maxXferSize) (hpos : 0 < G.nodes)
    {mem : Loc → ℕ} (hmem : Dense G mem) (spm : ℕ → ℕ) :
    R.wp (executeKernelDma2 S hmc G.nodes) ⟨mem, spm, []⟩ (fun sreg3 w =>
      Reading (Dense G) w ∧
        sreg3 = (executeKernelDefault G (fun i => mem (.node i .followers))).sreg3 ∧
        w.field .followers =
          (executeKernelDefault G (fun i => mem (.node i .followers))).followers) := by
  have hbelow := below_rowStream (G := G) (r := 0) hfits
  refine wp_then (ChunkStream.wp_start hbelow.lower (reading_start hmem spm)
    (fun p => .rfl) (forall_mem_nil _) (.inl ⟨rfl, rfl⟩)
    (decide_eq_true hpos)) ?_
  rintro k w₁ ⟨hnodes, -, hmem₁, -⟩
  have hstart : Before S G (fun i => mem (.node i .followers)) 0
      ⟨k, ⟨0, 2 * S.maxXferSize, 3 * S.maxXferSize⟩⟩ w₁ :=
    ⟨hnodes, .inl ⟨rfl, rfl⟩, World.field_congr hmem₁ _⟩
  refine wp_then (wp_forUp _ (Before S G (fun i => mem (.node i .followers)))
    (fun r l w hr h => wp_round hfits hr h) G.nodes 0 _ _ (zero_add _) hstart) ?_
  rintro l w₂ ⟨hnodes₂, -, hcounted⟩
  refine wp_mono (wp_addFollowers .followers hnodes₂.reading G.nodes) ?_
  rintro _ _ ⟨rfl, rfl⟩
  exact ⟨hnodes₂.reading, congrArg (totalFollowers · G.nodes) hcounted, hcounted⟩

end Rules

/-- If a chunk fits into a buffer, every run of the kernel with two streams ends with the counters
and the value that the plain kernel leaves, unless a response is in the ranges of two requests, and
no request is for a resource that is busy. -/
theorem executeKernelDma2_eq_default (S : Config) (hmc : Bool) (G : DenseGraph) (hpos : 0 < G.nodes)
    (hfits : S.adjChunk ≤ S.maxXferSize) (mem : Loc → ℕ) (hmem : Dense G mem) (spm : ℕ → ℕ)
    (address : Loc → ℕ) :
    RunsTo address
      (fun m =>
        m.prog = .ret (executeKernelDefault G (fun i => mem (.node i .followers))).sreg3 ∧
        (fun i => m.state.mem (.node i .followers)) =
          (executeKernelDefault G (fun i => mem (.node i .followers))).followers)
      (start (executeKernelDma2 S hmc G.nodes) mem spm) ∧
    ∀ m, Reached (checkedStep address) (fun m e => ¬ Clashes address m.state e)
        (start (executeKernelDma2 S hmc G.nodes) mem spm) m →
      ∀ ls a res k, m.prog = .call (.dmaRead ls a res) k → ¬ m.state.Busy res := by
  have hwp : Rules.plain.wp (executeKernelDma2 S hmc G.nodes)
      ⟨mem, spm, []⟩ _ := wp_executeKernelDma2 hfits hpos hmem spm
  refine ⟨?_, fun m hreached ls a res k hprog hbusy => ?_⟩
  · refine (runsTo_of_wp (rel_start mem spm []) assumed_plain hwp).mono (fun m hm => ?_)
    obtain ⟨_, w, hret, ⟨hreading, rfl, hfollowers⟩, hrel⟩ := hm
    refine ⟨hret, ?_⟩
    rw [← hfollowers]
    exact funext (fun i => hrel.mem _ (hreading.free _))
  · have hreached' := reached_of_checkedStep hreached (fun _ _ hok => ⟨hok, trivial⟩)
    exact not_failed_of_reached (rel_start mem spm []) hwp hreached' hprog (request_of_busy hbusy)

def fourNodes : DenseGraph where
  nodes := 4
  teenager i := i == 0
  adj _ := 1
  adj_lt _ := by decide

def denseMemory (G : DenseGraph) : Loc → ℕ
  | .node i .teenager => (G.teenager i).toNat
  | .node _ _ => 0
  | .adj n => G.adj n

theorem dense_denseMemory (G : DenseGraph) : Dense G (denseMemory G) :=
  ⟨fun _ _ => rfl, fun _ _ => rfl⟩

def overlapping : Config := ⟨24, 48, by decide⟩

/-- The addresses of the words, from those of `nodes` and `adj`. -/
def layout (nodes adj : ℕ) : Loc → ℕ
  | .node i f => nodes + sizeofNode * i + sizeofUlong * nodeFields.idxOf f
  | .adj n => adj + sizeofUlong * n

/-- Nodes 2 and 3 are copied over the copy of node 0 before it is read. And with three nodes in
chunks of two, node 3 of the second chunk is where the matrix is. -/
theorem executeKernelDma2_overlapping :
    (∃ m, Reached (checkedStep (layout 0 1000)) (fun _ _ => True)
        (start (executeKernelDma2 overlapping false 4) (denseMemory fourNodes) (fun _ => 0)) m ∧
      (m.answer, m.state.mem (.node 0 .followers)) = (some 0, 0)) ∧
    (executeKernelDefault fourNodes (fun _ => 0)).sreg3 = 4 ∧
    (executeKernelDefault fourNodes (fun _ => 0)).followers 0 = 1 ∧
    ∃ m, Reached (checkedStep (layout 0 72)) (fun _ _ => True)
        (start (executeKernelDma2 ⟨48, 48, by decide⟩ false 3) (denseMemory fourNodes)
          (fun _ => 0)) m ∧
      m.panicked = true := by
  refine ⟨?_, by decide +kernel, by decide +kernel, ?_⟩
  · exact exists_of_runSchedule (turns [(1, .kernel), (12, .copy 0 0), (2, .kernel),
      (12, .copy 0 0), (9, .kernel)]) (by decide +kernel)
  · exact exists_of_runSchedule (turns [(1, .kernel), (12, .copy 0 0), (4, .kernel),
      (1, .copy 0 0)]) (by decide +kernel)

/-- Chunks of two nodes and of twelve elements; the matrix is far from the nodes. -/
theorem executeKernelDma2_eq_default_fourNodes :
    let m := start (executeKernelDma2 ⟨48, 51, by decide⟩ true 4) (denseMemory fourNodes)
      (fun _ => 0)
    RunsTo (layout 0 1000) (fun m => m.prog = .ret 4 ∧ m.state.mem (.node 0 .followers) = 1) m ∧
      ∃ m', Reached (checkedStep (layout 0 1000))
        (fun m e => ¬ Clashes (layout 0 1000) m.state e) m m' ∧
        m'.answer = some 4 := by
  intro m
  constructor
  · have hdefault :=
      executeKernelDma2_eq_default ⟨48, 51, by decide⟩ true fourNodes (by decide) (by decide)
      (denseMemory fourNodes) (dense_denseMemory fourNodes) (fun _ => 0) (layout 0 1000)
    refine hdefault.1.mono (fun m hm => ⟨hm.1.trans ?_, (congrFun hm.2 0).trans ?_⟩)
    · exact congrArg Prog.ret (by decide +kernel)
    · decide +kernel
  · exact exists_of_runSchedule (turns [(1, .kernel), (12, .copy 0 0), (4, .kernel),
      (12, .copy 0 0), (10, .kernel), (12, .copy 0 0), (7, .kernel)]) (by decide +kernel)

end SmcSim.DgraphTeenage
