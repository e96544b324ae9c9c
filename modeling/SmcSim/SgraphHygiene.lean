import SmcSim.DmaRequests
import SmcSim.SgraphBellmanFordDma
import SmcSim.SgraphTeenage

/-!
# Requests behind the last node

`kernel_best` of `sgraph_teenage_follower.c` and of `sgraph_bellman_ford.c` ask for the next chunk
of nodes whenever they take one, and do not look whether there is one. The last request is for
records behind the array, and nothing waits for it: a kernel that returns has always left it behind,
whatever the graph is and whatever the memories hold.
-/

namespace SmcSim.SgraphHygiene
open EffectPrograms CommandSpec DmaPrograms SgraphBfs SgraphMemory SgraphBellmanFord Interleavings
open List

/-- A word of the `nodes` array or of a list of one of its nodes. -/
def Inside (G : Graph) : Loc → Prop
  | .node i _ => i < G.nodes
  | .successor p c => p < G.nodes ∧ c < G.outDegree p
  | .weight p c => p < G.nodes ∧ c < G.outDegree p

structure Hygienic (G : Graph) (s : State Loc) : Prop where
  drained : ∀ t ∈ s.transfers, t.left = []
  inside : ∀ ls ∈ s.requested, ∀ l ∈ ls, Inside G l

abbrev unknown : CommandSpec (Op Loc) Res (Issued Loc) := anyAnswer (fun _ => True)

variable {fields : List Field} {S : Config fields} {r : ℕ} {k : Cursor}
  {w : Issued Loc}

/-- The chunk behind the one at hand has been requested and not waited for. -/
structure Ahead (S : Config fields) (r : ℕ) (k : Cursor) (w : Issued Loc) : Prop where
  rr_le : k.rr ≤ S.nodesCount
  requested : S.nodeStream.chunk (r + (S.nodesCount - k.rr)) ∈ w.requested
  unawaited : dmaRes0 ∈ w.unawaited

theorem Ahead.read (h : Ahead S r k w) (ls : List Loc) (a res : ℕ) :
    Ahead S r k (w.after (.dmaRead ls a res)) :=
  ⟨h.rr_le, mem_append_left _ h.requested, mem_cons_of_mem _ h.unawaited⟩

theorem Ahead.wait (h : Ahead S r k w) {rs : List ℕ} (hrs : dmaRes0 ∉ rs) :
    Ahead S r k (w.after (.dmaWait rs)) :=
  ⟨h.rr_le, h.requested, mem_filter.mpr ⟨h.unawaited, decide_eq_true hrs⟩⟩

theorem Ahead.next (h : Ahead S r k w) (hrr : k.rr < S.nodesCount) :
    Ahead S (r + 1) { k with rr := k.rr + 1 } w := by
  refine ⟨hrr, ?_, h.unawaited⟩
  have hindex : r + 1 + (S.nodesCount - (k.rr + 1)) = r + (S.nodesCount - k.rr) := by omega
  change S.nodeStream.chunk (r + 1 + (S.nodesCount - (k.rr + 1))) ∈ w.requested
  rw [hindex]
  exact h.requested

private theorem any_start (ping pong : ℕ) :
    unknown.wp (S.nodeStream.start ping pong) w (fun k w' => Ahead S 0 k w') := by
  refine any_then trivial (fun _ => ⟨le_rfl, ?_, mem_cons_self⟩)
  change S.nodeStream.chunk (0 + (S.nodesCount - S.nodesCount)) ∈ _
  rw [Nat.sub_self]
  exact mem_append_right _ (mem_singleton.mpr rfl)

private theorem any_refill (h : Ahead S r k w) :
    unknown.wp (S.nodeStream.refill r k) w
      (fun k' w' => Ahead S r k' w' ∧ k'.rr < S.nodesCount) := by
  rw [ChunkStream.refill]
  split
  · refine any_then trivial (fun _ => any_then trivial (fun _ => ?_))
    refine ⟨⟨Nat.zero_le _, ?_, mem_cons_self⟩, S.nodeStream.count_pos⟩
    exact mem_append_right _ (mem_singleton.mpr rfl)
  · next hrr => exact ⟨h, lt_of_le_of_ne h.rr_le hrr⟩

/-- The chunk that is in flight at the end has only records behind the array. -/
theorem not_hygienic_of_ahead {G : Graph} {s : State Loc} (h : Ahead S G.nodes k w)
    (hs : Issues s w) : ¬ Hygienic G s := by
  intro hhygienic
  obtain ⟨f, hf⟩ := exists_mem_of_length_pos S.fields_pos
  have hrecord : Loc.node (G.nodes + (S.nodesCount - k.rr)) f ∈
      S.nodeStream.chunk (G.nodes + (S.nodesCount - k.rr)) :=
    mem_flatMap.mpr ⟨_, mem_range'_1.mpr ⟨le_rfl,
      Nat.lt_add_of_pos_right S.nodeStream.count_pos⟩, List.mem_map.mpr ⟨f, hf, rfl⟩⟩
  have hin : G.nodes + (S.nodesCount - k.rr) < G.nodes :=
    hhygienic.inside _ (hs.requested ▸ h.requested) _ hrecord
  omega

/-! ### `sgraph_teenage_follower.c` -/

section Teenage
open SgraphTeenage

variable {S : Config SgraphTeenage.nodeFields} {nodes : ℕ} {l : SgraphTeenage.Locals}

theorem any_visits (l : SgraphTeenage.Locals) {I : Issued Loc → Prop} (h : I w) :
    unknown.wp (SgraphTeenage.scanPings l) w (fun l' w' => l'.nodes = l.nodes ∧ I w') := by
  rw [SgraphTeenage.scanPings]
  split
  · refine wp_then (wp_forUp _ (fun _ _ w' => I w') (fun c _ w' _ h' => ?_) l.numPongs 0 () w
      (zero_add _) h) (fun _ w' h' => ⟨rfl, h'⟩)
    exact any_then trivial (fun _ => any_then trivial (fun _ =>
      any_command trivial (fun _ => h')))
  · exact ⟨rfl, h⟩

private theorem any_hasFollowees {I : Issued Loc → Prop} (h : I w) :
    unknown.wp (hasFollowees S r l) w (fun _ w' => I w') := by
  refine any_then trivial (fun teenager => ?_)
  split
  · exact any_then trivial (fun _ => h)
  · exact h

theorem any_requestSuccessors (h : Ahead S r k w) :
    unknown.wp (requestSuccessors S r l) w (fun _ w' => Ahead S r k w') := by
  refine wp_then (any_hasFollowees h) (fun follows w₁ h₁ => ?_)
  split
  · exact any_then trivial (fun _ => any_then trivial (fun _ =>
      any_command trivial (fun _ => h₁.read _ _ _)))
  · exact h₁

theorem any_takePongs (h : Ahead S r l.nodes w) :
    unknown.wp (SgraphTeenage.takePongs S r l) w
      (fun l' w' => l'.nodes = l.nodes ∧ Ahead S r l.nodes w') := by
  refine wp_then (any_hasFollowees h) (fun follows w₁ h₁ => ?_)
  split
  · exact any_then trivial (fun _ => any_then trivial (fun _ =>
      ⟨rfl, h₁.wait (by decide)⟩))
  · exact ⟨rfl, h₁⟩

theorem any_round (h : Ahead S r l.nodes w) :
    unknown.wp (SgraphTeenage.round S r l) w (fun l' w' => Ahead S (r + 1) l'.nodes w') := by
  refine wp_then (any_refill h) ?_
  rintro k w₁ ⟨h₁, hrr⟩
  refine wp_then (any_requestSuccessors h₁) (fun _ w₂ h₂ => ?_)
  refine wp_then (any_visits _ h₂) ?_
  rintro l₁ w₃ ⟨(rfl : l₁.nodes = k), h₃⟩
  refine wp_then (any_takePongs h₃) ?_
  rintro l₂ w₄ ⟨hnodes, h₄⟩
  rw [← hnodes] at h₄ hrr
  exact h₄.next hrr

theorem any_executeKernelBest :
    unknown.wp (executeKernelBest S nodes) w (fun _ w' => ∃ k, Ahead S nodes k w') := by
  refine wp_then (any_start _ _) (fun k w₁ h₁ => ?_)
  refine wp_then (wp_forUp _ (fun r l w' => Ahead S r (SgraphTeenage.Locals.nodes l) w')
    (fun r l w' _ h' => any_round h') nodes 0 _ w₁ (zero_add _) h₁) (fun l w₂ h₂ => ?_)
  refine wp_then (any_visits l h₂) ?_
  rintro - w₃ ⟨-, h₃⟩
  refine wp_forUp _ (fun _ _ w' => ∃ k, Ahead S nodes k w') (fun r total w' _ h' => ?_) nodes 0 0 w₃
    (zero_add _) ⟨l.nodes, h₃⟩
  exact any_then trivial (fun _ => h')

end Teenage

/-! ### `sgraph_bellman_ford.c` -/

section BellmanFord

variable {S : Config SgraphBellmanFord.nodeFields} {hmc : Bool} {nodes a b : ℕ} {l : BestLocals}

private theorem any_lowerDistance {s operand : ℕ} {I : Issued Loc → Prop} (h : I w) :
    unknown.wp (lowerDistance hmc s operand) w (fun _ w' => I w') := by
  rw [lowerDistance]
  split
  · exact any_command trivial (fun _ => h)
  · refine any_then trivial (fun distance => ?_)
    split
    · exact any_command trivial (fun _ => h)
    · exact h

theorem any_scanPings {I : Issued Loc → Prop} (h : I w) :
    unknown.wp (SgraphBellmanFord.scanPings hmc l) w (fun l' w' => l'.nodes = l.nodes ∧ I w') := by
  rw [SgraphBellmanFord.scanPings]
  split
  · refine wp_then (wp_forUp _ (fun _ _ w' => I w') (fun c checksum w' _ h' => ?_) l.numPongs 0
      l.checksum w (zero_add _) h) (fun _ w' h' => ⟨rfl, h'⟩)
    refine any_then trivial (fun _ => any_then trivial (fun _ => ?_))
    refine wp_then (any_lowerDistance h') (fun _ w'' h'' => ?_)
    exact any_then trivial (fun _ => h'')
  · exact ⟨rfl, h⟩

private theorem any_requestLists (h : Ahead S r k w) :
    unknown.wp (requestLists S k r a b) w (fun _ w' => Ahead S r k w') := by
  refine any_then trivial (fun outDegree => ?_)
  split
  · refine any_then trivial (fun _ => any_then trivial (fun _ => ?_))
    refine any_then trivial (fun _ => any_then trivial (fun _ => ?_))
    exact any_then trivial (fun _ => any_command trivial (fun _ => (h.read _ a _).read _ b _))
  · exact h

private theorem any_takeLists (h : Ahead S r l.nodes w) :
    unknown.wp (SgraphBellmanFord.takePongs S r l) w
      (fun l' w' => l'.nodes = l.nodes ∧ Ahead S r l.nodes w') := by
  refine any_then trivial (fun outDegree => ?_)
  split
  · refine any_then trivial (fun _ => any_then trivial (fun _ => ?_))
    exact any_then trivial (fun _ => ⟨rfl, h.wait (by decide)⟩)
  · exact ⟨rfl, h⟩

private theorem any_roundBest (h : Ahead S r l.nodes w) :
    unknown.wp (roundBest S hmc r l) w (fun l' w' => Ahead S (r + 1) l'.nodes w') := by
  refine wp_then (any_refill h) ?_
  rintro k w₁ ⟨h₁, hrr⟩
  refine wp_then (any_requestLists h₁) (fun _ w₂ h₂ => ?_)
  refine wp_then (any_scanPings h₂) ?_
  rintro l₁ w₃ ⟨(rfl : l₁.nodes = k), h₃⟩
  refine wp_then (any_takeLists h₃) ?_
  rintro l₂ w₄ ⟨hnodes, h₄⟩
  rw [← hnodes] at h₄ hrr
  exact h₄.next hrr

theorem any_kernelBest :
    unknown.wp (kernelBest S hmc nodes) w (fun _ w' => ∃ k, Ahead S nodes k w') := by
  refine wp_then (any_start _ _) (fun k w₁ h₁ => ?_)
  refine wp_then (wp_forUp _ (fun r l w' => Ahead S r (BestLocals.toLocals l).nodes w')
    (fun r l w' _ h' => any_roundBest h') nodes 0 _ w₁ (zero_add _) h₁) (fun l w₂ h₂ => ?_)
  refine wp_then (any_scanPings h₂) ?_
  rintro - w₃ ⟨-, h₃⟩
  exact ⟨l.nodes, h₃⟩

end BellmanFord

/-! ### Runs -/

def LeftBehind (G : Graph) (m : Machine Loc ℕ) : Prop :=
  (∃ sreg3, m.prog = .ret sreg3) ∧ ¬ Hygienic G m.state ∧ ∃ t ∈ m.state.transfers, t.res = dmaRes0

theorem leftBehind_of_reached {G : Graph} {p : DmaProg Loc ℕ}
    {mem : Loc → ℕ} {spm : ℕ → ℕ} {m : Machine Loc ℕ} {sreg3 : ℕ}
    (hp : unknown.wp p ⟨[], []⟩ (fun _ w' => ∃ k, Ahead S G.nodes k w'))
    (hreached : Reached step (fun _ _ => True) (start p mem spm) m) (hret : m.prog = .ret sreg3) :
    LeftBehind G m := by
  obtain ⟨w, hissues, hwp⟩ := issues_of_reached hp hreached
  rw [hret] at hwp
  obtain ⟨k, hahead⟩ := hwp
  exact ⟨⟨sreg3, hret⟩, not_hygienic_of_ahead hahead hissues, hissues.unawaited _ hahead.unawaited⟩

/-- Both kernels, on every graph and whatever the memories hold: where a run returns, words behind
the array have been requested and the request has not been waited for. Every run of the first kernel
returns, and every run of the second one if the lists fit into their buffers. -/
theorem kernelBest_leaves_request (S : Config SgraphTeenage.nodeFields)
    (T : Config SgraphBellmanFord.nodeFields) (hmc : Bool) (W : WeightedGraph) (mem : Loc → ℕ)
    (spm : ℕ → ℕ) :
    (∀ m, Reached step (fun _ _ => True)
      (start (SgraphTeenage.executeKernelBest S W.nodes) mem spm) m →
      ∀ sreg3, m.prog = .ret sreg3 → LeftBehind W.toGraph m) ∧
    (∀ m, Reached step (fun _ _ => True) (start (kernelBest T hmc W.nodes) mem spm) m →
      ∀ sreg3, m.prog = .ret sreg3 → LeftBehind W.toGraph m) ∧
    (W.nodes ≤ word → (∀ v < W.nodes, W.outDegree v * sizeofUlong < word) →
      ∀ teenager, SgraphTeenage.Teenagers W.toGraph teenager mem →
        Inevitable step (LeftBehind W.toGraph)
          (start (SgraphTeenage.executeKernelBest S W.nodes) mem spm)) ∧
    (W.nodes ≤ word → (∀ v < W.nodes, W.outDegree v * sizeofUlong ≤ T.maxXferSize) →
      Weighted W mem →
      Inevitable step (LeftBehind W.toGraph) (start (kernelBest T hmc W.nodes) mem spm)) := by
  have hteenage : ∀ m, Reached step (fun _ _ => True)
      (start (SgraphTeenage.executeKernelBest S W.nodes) mem spm) m →
      ∀ sreg3, m.prog = .ret sreg3 → LeftBehind W.toGraph m :=
    fun m hreached sreg3 hret => leftBehind_of_reached any_executeKernelBest hreached hret
  have hbellmanFord :
      ∀ m, Reached step (fun _ _ => True) (start (kernelBest T hmc W.nodes) mem spm) m →
      ∀ sreg3, m.prog = .ret sreg3 → LeftBehind W.toGraph m :=
    fun m hreached sreg3 hret => leftBehind_of_reached any_kernelBest hreached hret
  refine ⟨hteenage, hbellmanFord, fun hnodes hlists teenager hmem => ?_,
    fun hnodes hdegrees hmem => ?_⟩
  · have hwp : Rules.plain.wp
        (SgraphTeenage.executeKernelBest S W.nodes) ⟨mem, spm, []⟩ _ :=
      SgraphTeenage.wp_executeKernelBest hnodes (fun hfalse : False => hfalse.elim) hlists hmem
        (fun _ => rfl) spm
    refine (inevitable_of_wp (rel_start mem spm []) assumed_plain hwp).of_reached ?_
    rintro m hreached (⟨_, _, -, hfalse⟩ | ⟨sreg3, _, hret, -⟩)
    · exact hfalse.elim
    · exact hteenage m hreached sreg3 hret
  · have hsound : Sound T W (fun i => mem (.node i .distance)) False :=
      ⟨hnodes, hdegrees, fun hfalse => hfalse.elim, fun hfalse => hfalse.elim⟩
    have hwp : (rules False).wp (kernelBest T hmc W.nodes) ⟨mem, spm, []⟩ _ :=
      wp_kernelBest hsound hmem (fun _ => rfl) spm hmc
    refine (inevitable_of_wp (rel_start mem spm []) assumed_fresh hwp).of_reached ?_
    rintro m hreached (⟨_, _, -, hfalse⟩ | ⟨sreg3, _, hret, -⟩)
    · exact hfalse.elim
    · exact hbellmanFord m hreached sreg3 hret

def teenageChunks : Config SgraphTeenage.nodeFields :=
  ⟨64, 60, SgraphTeenage.twoPerChunk.fields_pos, by decide, threePerChunk.xferSize_le,
    threePerChunk.addressable⟩

/-- On three nodes both kernels return with fifteen words in flight: the second request is for the
records from node 3 on. -/
theorem kernelBest_threeNodes :
    (∃ m, Reached step (fun _ _ => True)
        (start (SgraphTeenage.executeKernelBest teenageChunks 3) SgraphTeenage.threeTeenagers
          (fun _ => 0)) m ∧
      (m.answer, m.state.transfers.map (fun t => t.left.length), m.state.requested[1]?) =
        (some 4, [15], some (teenageChunks.nodeStream.chunk 3))) ∧
    (∃ m, Reached step (fun _ _ => True)
        (start (kernelBest threePerChunk false 3) (weightedMemory chain) (fun _ => 0)) m ∧
      (m.answer, m.state.transfers.map (fun t => t.left.length), m.state.requested[1]?) =
        (some 2, [15], some (threePerChunk.nodeStream.chunk 3))) := by
  refine ⟨?_, ?_⟩
  · exact exists_of_runSchedule (turns [(1, .kernel), (15, .copy 0 0), (10, .kernel),
      (3, .copy 0 0), (18, .kernel), (1, .copy 0 0), (11, .kernel)]) (by decide +kernel)
  · exact exists_of_runSchedule (turns [(1, .kernel), (15, .copy 0 0), (12, .kernel),
      (1, .copy 0 0), (1, .copy 1 0), (16, .kernel), (1, .copy 0 0), (1, .copy 1 0), (8, .kernel)])
      (by decide +kernel)

theorem kernelBest_leaves_request_twoNodes :
    Inevitable step (LeftBehind twoNodes.toGraph)
        (start (SgraphTeenage.executeKernelBest teenageChunks 2) (weightedMemory twoNodes)
          (fun _ => 0)) ∧
      Inevitable step (LeftBehind twoNodes.toGraph)
        (start (kernelBest threePerChunk true 2) (weightedMemory twoNodes) (fun _ => 0)) := by
  have hmem := weighted_weightedMemory twoNodes
  have hteenagers :
      SgraphTeenage.Teenagers twoNodes.toGraph (fun i => i == 1) (weightedMemory twoNodes) :=
    ⟨hmem.toHolds, by decide⟩
  obtain ⟨-, -, hteenage, hbellmanFord⟩ :=
    kernelBest_leaves_request teenageChunks threePerChunk true
    twoNodes (weightedMemory twoNodes) (fun _ => 0)
  exact ⟨hteenage (by decide) (by decide) _ hteenagers, hbellmanFord (by decide) (by decide) hmem⟩

end SmcSim.SgraphHygiene
