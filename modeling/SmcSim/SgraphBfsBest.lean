import SmcSim.SgraphMemory
import SmcSim.SgraphBfsSearch

/-!
# Breadth-first search with prefetched successors

`execute_kernel` of `sgraph_bfs.c` built as `kernel_best`. The queue and two buffers for successor
lists lie in the scratchpad. The list of a node that is popped is fetched while the list of the node
before it is scanned, so that a node is expanded one round after it was popped; when the queue is
empty and a list is left, the `goto` scans that list and the loop goes on.

Whatever the timing of the engine is, a round keeps the search of the plain kernel with one node in
hand, as long as the queue stays below the buffers.
-/

namespace SmcSim.SgraphBfsBest
open EffectPrograms CommandSpec DmaPrograms SgraphBfs SgraphMemory BreadthFirst Interleavings
open Function Option

/-! ### The kernel -/

/-- `MAX_XFER_SIZE`; the scratchpad has four such regions. -/
structure Config where
  maxXferSize : ℕ
  holds_word : sizeofUlong ≤ maxXferSize
  addressable : 4 * maxXferSize ≤ word

structure Locals where
  ring : Ring
  totalDistance : ℕ
  succPing : ℕ
  succPong : ℕ
  numPongs : ℕ
  currDistance : ℕ

def queuePush (nodes x : ℕ) (l : Locals) : DmaProg Loc Locals := do
  storeSpm (sizeofUlong * l.ring.head) x
  pure { l with ring := l.ring.push nodes }

/-- The body of the loop over `succ_ping`. -/
def visitPing (nodes c : ℕ) (l : Locals) : DmaProg Loc Locals := do
  let succ ← loadSpm (l.succPing + sizeofUlong * c)
  let distance ← load (.node succ .distance)
  if distance = nc then
    store (.node succ .distance) ((l.currDistance + 1) % word)
    let distance ← load (.node succ .distance)
    queuePush nodes succ { l with totalDistance := (l.totalDistance + distance) % word }
  else pure l

/-- `if ( num_pongs != -1 )`. -/
def scanPings (nodes : ℕ) (l : Locals) : DmaProg Loc Locals :=
  if l.numPongs ≠ noPongs then do
    let l ← Prog.forUp (visitPing nodes) l.numPongs 0 l
    pure { l with numPongs := noPongs }
  else pure l

def requestSuccessors (v : ℕ) (l : Locals) : DmaProg Loc Unit := do
  let outDegree ← load (.node v .outDegree)
  if outDegree ≠ 0 then
    let successors ← load (.node v .successors)
    dmaRead (successorList successors outDegree) l.succPong dmaRes1
  else pure ()

def takePongs (v : ℕ) (l : Locals) : DmaProg Loc Locals := do
  let outDegree ← load (.node v .outDegree)
  if outDegree ≠ 0 then
    let currDistance ← load (.node v .distance)
    dmaWait [dmaRes1]
    pure { l with
      numPongs := outDegree
      currDistance := currDistance
      succPing := l.succPong
      succPong := l.succPing }
  else pure l

/-- A round of `while ( !(queue_empty) )`, or the end of the loop with the `goto` behind it. -/
def round (S : Config) (nodes : ℕ) (l : Locals) : DmaProg Loc (Locals ⊕ Locals) :=
  if l.ring.elements ≠ 0 then
    -- `pim_assert`
    if l.ring.elements < 2 * S.maxXferSize then do
      let v ← loadSpm (sizeofUlong * l.ring.tail)
      let l := { l with ring := l.ring.pop nodes }
      requestSuccessors v l
      let l ← scanPings nodes l
      let l ← takePongs v l
      pure (.inl l)
    else .stuck
  else if l.numPongs ≠ noPongs then do
    -- `v = NULL; goto MY_LABEL`
    let l ← scanPings nodes l
    pure (.inl l)
  else pure (.inr l)

def iteration (S : Config) (nodes fuel x : ℕ) (l : Locals) : DmaProg Loc Locals := do
  store (.node x .distance) 0
  let l ← queuePush nodes x { l with ring := queueInit }
  Prog.loop (round S nodes) fuel { l with currDistance := 0, numPongs := noPongs }

/-- The value is the one left in `SREG[3]`. -/
def executeKernel (S : Config) (nodes maxIterations fuel : ℕ) : DmaProg Loc ℕ := do
  let l ← Prog.forUp (iteration S nodes fuel) maxIterations 0
    ⟨queueInit, 0, 2 * S.maxXferSize, 3 * S.maxXferSize, noPongs, 0⟩
  pure l.totalDistance

/-! ### The search behind the lag -/

/-- The kernel in a search of which the first `next` nodes have been popped. -/
structure Runs (S : Config) (G : Graph) (distance₀ : ℕ → ℕ) (total₀ : ℕ) (s : Search ℕ)
    (next : ℕ) (l : Locals) (w : World Loc) : Prop where
  reading : Reading (Holds G) w
  distance : DistancesOf distance₀ s (fun i => w.mem (.node i .distance))
  queue : QueueOf G.nodes s next l.ring (fun i => ByteMemory.load w.spm (sizeofUlong * i))
  total : TotalOf total₀ s l.totalDistance
  fits : sizeofUlong * s.order.length ≤ 2 * S.maxXferSize
  buffers : l.succPing = 2 * S.maxXferSize ∧ l.succPong = 3 * S.maxXferSize ∨
    l.succPing = 3 * S.maxXferSize ∧ l.succPong = 2 * S.maxXferSize
  inFlight : ∀ p ∈ w.inFlight, ∀ x ∈ p.2, l.succPong ≤ x.2 ∧ x.2 + 4 ≤ l.succPong + S.maxXferSize

/-- The list of `u` has been fetched and is scanned next. -/
structure InHand (G : Graph) (s : Search ℕ) (u : ℕ) (l : Locals) (w : World Loc) : Prop where
  numPongs : l.numPongs = G.outDegree u
  currDistance : l.currDistance = s.depth u
  ping : ∀ c v, (G.successors u)[c]? = some v →
    ByteMemory.load w.spm (l.succPing + sizeofUlong * c) = v

structure Beside (l l' : Locals) (w w' : World Loc) : Prop where
  succPing : l'.succPing = l.succPing
  succPong : l'.succPong = l.succPong
  inFlight : w'.inFlight = w.inFlight

variable {S : Config} {G : Graph} {distance₀ : ℕ → ℕ} {x u v k c next total₀ : ℕ} {s : Search ℕ}
  {l : Locals} {w : World Loc} {R : Rules Loc}

theorem Runs.avoids_queue (h : Runs S G distance₀ total₀ s next l w) {a : ℕ}
    (ha : a + 4 ≤ 2 * S.maxXferSize) : w.Avoids a := by
  intro p hp x hx
  have hplace := h.inFlight p hp x hx
  have hbuffers := h.buffers
  refine .inr ?_
  omega

theorem Runs.avoids_ping (h : Runs S G distance₀ total₀ s next l w) {i : ℕ}
    (hi : sizeofUlong * i + 4 ≤ S.maxXferSize) : w.Avoids (l.succPing + sizeofUlong * i) := by
  intro p hp x hx
  have hplace := h.inFlight p hp x hx
  have hbuffers := h.buffers
  rw [Apart]
  omega

theorem outDegree_lt_word (hdegree : G.outDegree u * sizeofUlong ≤ S.maxXferSize) :
    G.outDegree u * sizeofUlong < word := by
  have haddressable := S.addressable
  have hholds := S.holds_word
  have hsize : sizeofUlong = 4 := rfl
  omega

theorem distance_update (v d : ℕ) (m : Loc → ℕ) :
    (fun i => update m (Loc.node v .distance) d (.node i .distance)) =
      update (fun i => m (.node i .distance)) v d :=
  update_comp_eq_of_injective m (fun _ _ heq => (Loc.node.inj heq).1) v d

theorem cells_store {i : ℕ} (hv : v < word) (spm : ℕ → ℕ) :
    (fun j => ByteMemory.load (ByteMemory.store spm (sizeofUlong * i) v) (sizeofUlong * j)) =
      update (fun j => ByteMemory.load spm (sizeofUlong * j)) i v := by
  funext j
  by_cases hj : j = i
  · rw [hj, update_self, ByteMemory.load_store]
    exact Nat.mod_eq_of_lt hv
  · rw [update_of_ne hj, ByteMemory.load_store_of_disjoint]
    rw [sizeofUlong]
    omega

def scanned (distance₀ : ℕ → ℕ) (d : ℕ) (s : Search ℕ) (v : ℕ) : Search ℕ :=
  if distance₀ v = nc then visit d s v else s

theorem Runs.push (h : Runs S G distance₀ total₀ s next l w) (hnew : v ∉ s.order)
    (hv : v < G.nodes) (hlt : s.order.length < G.nodes) (hnodes : G.nodes < nc) {d : ℕ}
    (hplace : sizeofUlong * s.order.length + 4 ≤ 2 * S.maxXferSize) :
    Runs S G distance₀ total₀ (visit d s v) next
      { l with ring := l.ring.push G.nodes, totalDistance := (l.totalDistance + d) % word }
      { w.set (.node v .distance) d with
        spm := ByteMemory.store w.spm (sizeofUlong * l.ring.head) v } := by
  have hword : G.nodes < word := lt_trans hnodes (by decide)
  have hhead := h.queue.head_of_lt hlt
  have hset : Reading (Holds G) (w.set (.node v .distance) d) :=
    h.reading.set (h.reading.now.update (by decide) (by decide))
  have hcells := cells_store (i := l.ring.head) (lt_trans hv hword) w.spm
  refine ⟨⟨hset.now, hset.reads, hset.since⟩, ?_, ?_, h.total.visit hnew, ?_, h.buffers, ?_⟩
  · exact distance_update v d w.mem ▸ h.distance.visit hnew
  · exact hcells ▸ h.queue.visit hnew hlt hword
  · rw [visit_of_not_mem d hnew, List.length_append, List.length_singleton]
    exact hplace
  · change ∀ p ∈ (w.set (Loc.node v .distance) d).inFlight, _
    rw [inFlight_set]
    exact h.inFlight

/-- The search when the first `c` successors of `u` have been scanned. -/
def scannedUpTo (G : Graph) (distance₀ : ℕ → ℕ) (s : Search ℕ) (u c : ℕ) : Search ℕ :=
  visitAll (s.depth u + 1) s (((G.successors u).take c).filter (fun v => distance₀ v = nc))

theorem scannedUpTo_succ (hv : (G.successors u)[c]? = some v) :
    scannedUpTo G distance₀ s u (c + 1) =
      scanned distance₀ (s.depth u + 1) (scannedUpTo G distance₀ s u c) v := by
  rw [scannedUpTo, List.take_add_one, hv, List.filter_append, scanned]
  by_cases hopen : distance₀ v = nc
  · rw [if_pos hopen, toList_some, List.filter_singleton, decide_eq_true hopen]
    exact visitAll_concat _ _ _ _
  · rw [if_neg hopen, toList_some, List.filter_singleton, decide_eq_false hopen]
    exact congrArg _ (List.append_nil _)

theorem scannedUpTo_outDegree (hu : (after (openSuccessors G distance₀) x k).order[k]? = some u) :
    scannedUpTo G distance₀ (after (openSuccessors G distance₀) x k) u (G.outDegree u) =
      after (openSuccessors G distance₀) x (k + 1) := by
  rw [scannedUpTo, Graph.outDegree, List.take_length, after_succ_of_getElem? hu]
  rfl

theorem layered_scannedUpTo (hs : Layered (openSuccessors G distance₀) x s k)
    (hu : s.order[k]? = some u) (c : ℕ) :
    Layered (openSuccessors G distance₀) x (scannedUpTo G distance₀ s u c) k := by
  refine hs.visitAll hu (fun v hv => ?_)
  obtain ⟨htaken, hopen⟩ := List.mem_filter.mp hv
  exact mem_openSuccessors.mpr ⟨List.mem_of_mem_take htaken, of_decide_eq_true hopen⟩

/-- The request for the list of `v`. -/
def requested (G : Graph) (v : ℕ) (l : Locals) : List (ℕ × List (Loc × ℕ)) :=
  if G.outDegree v = 0 then []
  else [(dmaRes1, words (successorList v (G.outDegree v)) l.succPong)]

theorem InHand.numPongs_ne (h : InHand G s u l w)
    (hdegree : G.outDegree u * sizeofUlong ≤ S.maxXferSize) : l.numPongs ≠ noPongs := by
  have hlt := outDegree_lt_word hdegree
  rw [h.numPongs, noPongs]
  rw [sizeofUlong, word] at hlt
  omega

theorem wp_requestSuccessors (h : Runs S G distance₀ total₀ s next l w) (hflight : w.inFlight = [])
    (hv : v < G.nodes) (hdegree : G.outDegree v * sizeofUlong ≤ S.maxXferSize) :
    R.wp (requestSuccessors v l) w (fun _ w' =>
      Runs S G distance₀ total₀ s next l w' ∧ w'.spm = w.spm ∧ w'.inFlight = requested G v l) := by
  refine wp_seq (wp_load h.reading ?_)
  rw [h.reading.now.outDegree v hv, requested]
  by_cases hzero : G.outDegree v = 0
  · rw [if_neg (not_not_intro hzero), if_pos hzero]
    exact ⟨h, rfl, hflight⟩
  · have hlength := length_successorList (p := v) (outDegree_lt_word hdegree)
    rw [if_pos hzero, if_neg hzero]
    refine wp_seq (wp_load h.reading ?_)
    rw [h.reading.now.successors v hv]
    refine wp_dmaRead h.reading ?_ ?_ ?_
    · intro hnil
      rw [hnil] at hlength
      exact hzero hlength.symm
    · rw [hflight]
      exact List.forall_mem_nil _
    · refine ⟨⟨h.reading.launch, h.distance, h.queue, h.total, h.fits, h.buffers, ?_⟩, rfl, ?_⟩
      · rw [inFlight_launch, hflight]
        intro p hp x hx
        rw [List.mem_singleton.mp hp] at hx
        have hbounds := bounds_of_mem_words hx
        rw [hlength, mul_comm] at hbounds
        rw [sizeofUlong] at hdegree
        omega
      · rw [inFlight_launch, hflight]
        rfl

theorem wp_takePongs (h : Runs S G distance₀ total₀ s next l w)
    (hflight : w.inFlight = requested G v l) (hnodes : G.nodes < nc) (hv : v < G.nodes)
    (hmem : v ∈ s.order) (hdegree : G.outDegree v * sizeofUlong ≤ S.maxXferSize) :
    R.wp (takePongs v l) w (fun l' w' =>
      Runs S G distance₀ total₀ s next l' w' ∧ w'.inFlight = [] ∧
        (G.outDegree v = 0 ∧ l'.numPongs = l.numPongs ∨ InHand G s v l' w')) := by
  refine wp_seq (wp_load h.reading ?_)
  rw [h.reading.now.outDegree v hv]
  by_cases hzero : G.outDegree v = 0
  · rw [requested, if_pos hzero] at hflight
    rw [if_neg (not_not_intro hzero)]
    exact ⟨h, hflight, .inl ⟨hzero, rfl⟩⟩
  · rw [requested, if_neg hzero] at hflight
    rw [if_pos hzero]
    refine wp_seq (wp_load h.reading (wp_seq (wp_dmaWait h.reading (fun w' hw' => ?_))))
    have hdone : w'.inFlight = [] := by
      rw [hw'.inFlight, hflight]
      rfl
    have hbuffers := h.buffers
    refine ⟨⟨hw'.reading, ?_, ?_, h.total, h.fits, hbuffers.symm.imp And.symm And.symm, ?_⟩, hdone,
      .inr ⟨rfl, ?_, ?_⟩⟩
    · rw [hw'.mem]
      exact h.distance
    · refine h.queue.congr (fun i hi => hw'.kept _ (fun p hp _ x hx => ?_))
      have hplace := h.inFlight p hp x hx
      have hfits := h.fits
      rw [sizeofUlong] at hfits ⊢
      exact .inr (by omega)
    · rw [hdone]
      exact List.forall_mem_nil _
    · exact h.distance.of_mem hmem
    · exact fetched_successor hw' (fun _ hm => hm) (hflight ▸ List.mem_singleton.mpr rfl)
        (List.mem_singleton.mpr rfl) hv (le_of_lt (lt_trans hnodes (by decide)))
        (outDegree_lt_word hdegree)

/-- A queue that is not empty passes the assertion and has the next node of the search on top. -/
theorem Runs.pop (h : Runs S G distance₀ total₀ s next l w)
    (hs : Layered (openSuccessors G distance₀) x s k) (hx : x < G.nodes) (hnodes : G.nodes < nc)
    (hne : l.ring.elements ≠ 0) :
    l.ring.elements < 2 * S.maxXferSize ∧ w.Avoids (sizeofUlong * l.ring.tail) ∧
      s.order[next]? = some (ByteMemory.load w.spm (sizeofUlong * l.ring.tail)) ∧
      Runs S G distance₀ total₀ s (next + 1) { l with ring := l.ring.pop G.nodes } w := by
  have hlength := length_order_le hs hx
  have helements := h.queue.elements
  have hfits := h.fits
  have hnext : next < s.order.length := by omega
  have htail : l.ring.tail = next := by
    rw [h.queue.tail, if_neg (by omega)]
  refine ⟨?_, h.avoids_queue ?_, h.queue.top hnext hlength, h.reading, h.distance,
    h.queue.pop hnext hlength (lt_trans hnodes (by decide)), h.total, h.fits, h.buffers, h.inFlight⟩
  · rw [sizeofUlong] at hfits
    omega
  · rw [htail]
    rw [sizeofUlong] at hfits ⊢
    omega

/-- The loop between two rounds: the lists of all nodes that have been popped are scanned, or all
but one are. -/
inductive Lag (S : Config) (G : Graph) (distance₀ : ℕ → ℕ) (total₀ x : ℕ) :
    ℕ → Locals → World Loc → Prop where
  | none {k : ℕ} {l : Locals} {w : World Loc} (hflight : w.inFlight = [])
      (h : Runs S G distance₀ total₀ (after (openSuccessors G distance₀) x k) k l w)
      (hpongs : l.numPongs = noPongs) : Lag S G distance₀ total₀ x (2 * (G.nodes - k)) l w
  | one {k u : ℕ} {l : Locals} {w : World Loc} (hflight : w.inFlight = [])
      (h : Runs S G distance₀ total₀ (after (openSuccessors G distance₀) x k) (k + 1) l w)
      (hu : (after (openSuccessors G distance₀) x k).order[k]? = some u)
      (hhand : InHand G (after (openSuccessors G distance₀) x k) u l w) :
      Lag S G distance₀ total₀ x (2 * (G.nodes - (k + 1)) + 1) l w

def Done (S : Config) (G : Graph) (distance₀ : ℕ → ℕ) (total₀ x : ℕ) (l : Locals) (w : World Loc) :
    Prop :=
  w.inFlight = [] ∧
    ∃ k, Runs S G distance₀ total₀ (after (openSuccessors G distance₀) x G.nodes) k l w

structure Between (S : Config) (G : Graph) (o : Outcome) (l : Locals) (w : World Loc) : Prop where
  reading : Reading (Holds G) w
  inFlight : w.inFlight = []
  distance : (fun i => w.mem (.node i .distance)) = o.distance
  total : l.totalDistance = o.totalDistance
  buffers : l.succPing = 2 * S.maxXferSize ∧ l.succPong = 3 * S.maxXferSize ∨
    l.succPing = 3 * S.maxXferSize ∧ l.succPong = 2 * S.maxXferSize

/-- The search from `x` leaves the queue below the buffers. -/
def Fits (S : Config) (G : Graph) (distance : ℕ → ℕ) (x : ℕ) : Prop :=
  sizeofUlong * (searchFrom G distance x G.nodes).order.length ≤ 2 * S.maxXferSize

theorem between_start {mem : Loc → ℕ} (hmem : Holds G mem) (spm : ℕ → ℕ) {distance : ℕ → ℕ}
    (hdistance : ∀ i, mem (.node i .distance) = distance i) :
    Between S G (outcome G distance 0)
      ⟨queueInit, 0, 2 * S.maxXferSize, 3 * S.maxXferSize, noPongs, 0⟩ ⟨mem, spm, []⟩ :=
  ⟨⟨hmem, List.forall_mem_nil _, List.forall_mem_nil _⟩, rfl,
    funext hdistance, rfl, .inl ⟨rfl, rfl⟩⟩

section

variable (hnodes : G.nodes < nc)
    (hescape : ∀ i < G.nodes, ∀ v, R.escape (.storeSpm (sizeofUlong * i) v) ∨
      sizeofUlong * i + 4 ≤ 2 * S.maxXferSize)
include hnodes hescape

theorem Runs.visitPing (h : Runs S G distance₀ total₀ s next l w)
    (hs : Layered (openSuccessors G distance₀) x s k) (hx : x < G.nodes)
    (hu : s.order[k]? = some u) (hdegree : G.outDegree u * sizeofUlong ≤ S.maxXferSize)
    (hhand : InHand G s u l w) (hv : (G.successors u)[c]? = some v) :
    R.wp (visitPing G.nodes c l) w (fun l' w' =>
      Runs S G distance₀ total₀ (scanned distance₀ (s.depth u + 1) s v) next l' w' ∧
        InHand G (scanned distance₀ (s.depth u + 1) s v) u l' w' ∧ Beside l l' w w') := by
  have hc : c < G.outDegree u := (List.getElem?_eq_some_iff.mp hv).1
  have hmem : v ∈ G.successors u := List.mem_of_getElem? hv
  have hword : sizeofUlong * c + 4 ≤ S.maxXferSize := by
    rw [sizeofUlong] at hdegree ⊢
    omega
  have hdepth : ∀ u ∈ s.order, s.depth u < nc := fun u hu =>
    lt_trans (depth_lt_nodes hs hx hu) hnodes
  have hiff := h.distance.eq_nc_iff (w := v) hdepth
  refine wp_seq (wp_loadSpm (h.avoids_ping hword) ?_)
  rw [hhand.ping c v hv]
  refine wp_seq (wp_load h.reading ?_)
  by_cases hfound : w.mem (.node v .distance) = nc
  · obtain ⟨hnew, hopen⟩ := hiff.mp hfound
    have hlt := length_order_lt hs hx hu (mem_openSuccessors.mpr ⟨hmem, hopen⟩) hnew
    have hvalue : (l.currDistance + 1) % word = s.depth u + 1 := by
      have humem := List.mem_of_getElem? hu
      rw [hhand.currDistance, Nat.mod_eq_of_lt]
      exact lt_of_le_of_lt (Nat.succ_le_of_lt (hdepth u humem)) (by decide)
    rw [if_pos hfound, scanned, if_pos hopen, hvalue]
    have hset : Reading (Holds G) (w.set (.node v .distance) (s.depth u + 1)) :=
      h.reading.set (h.reading.now.update (by decide) (by decide))
    refine wp_seq (wp_store h.reading (wp_seq (wp_load hset (wp_seq (wp_storeSpm ?_)))))
    rw [h.queue.head_of_lt hlt]
    rcases hescape s.order.length hlt v with hesc | hplace
    · exact .inl hesc
    · have hpush := h.push hnew (G.successors_lt u v hmem) hlt hnodes (d := s.depth u + 1) hplace
      rw [h.queue.head_of_lt hlt] at hpush
      refine .inr ⟨?_, ?_⟩
      · have havoids := h.avoids_queue hplace
        rwa [World.Avoids, ← inFlight_set (l := .node v .distance) (v := s.depth u + 1)] at havoids
      · rw [wp_pure, mem_set, update_self]
        refine ⟨hpush, ⟨hhand.numPongs, ?_, ?_⟩, rfl, rfl, inFlight_set⟩
        · exact hhand.currDistance.trans (depth_visit_of_mem (List.mem_of_getElem? hu)).symm
        · intro c' v' hv'
          have hbuffers := h.buffers
          refine (ByteMemory.load_store_of_disjoint (.inr ?_)).trans (hhand.ping c' v' hv')
          change sizeofUlong * s.order.length + 4 ≤ l.succPing + sizeofUlong * c'
          omega
  · rw [if_neg hfound]
    have hscanned : scanned distance₀ (s.depth u + 1) s v = s := by
      rw [scanned]
      by_cases hopen : distance₀ v = nc
      · rw [if_pos hopen, visit_of_mem]
        by_contra hnew
        exact hfound (hiff.mpr ⟨hnew, hopen⟩)
      · exact if_neg hopen
    rw [hscanned]
    exact ⟨h, hhand, rfl, rfl, rfl⟩

theorem wp_visitPings (h : Runs S G distance₀ total₀ s next l w)
    (hs : Layered (openSuccessors G distance₀) x s k) (hx : x < G.nodes)
    (hu : s.order[k]? = some u) (hdegree : G.outDegree u * sizeofUlong ≤ S.maxXferSize)
    (hhand : InHand G s u l w) :
    R.wp (Prog.forUp (visitPing G.nodes) (G.outDegree u) 0 l) w (fun l' w' =>
      Runs S G distance₀ total₀ (scannedUpTo G distance₀ s u (G.outDegree u)) next l' w' ∧
        Beside l l' w w') := by
  have hscan : ∀ c l' w', c < G.outDegree u →
      (Runs S G distance₀ total₀ (scannedUpTo G distance₀ s u c) next l' w' ∧
        InHand G (scannedUpTo G distance₀ s u c) u l' w' ∧ Beside l l' w w') →
      R.wp (visitPing G.nodes c l') w' (fun l'' w'' =>
        Runs S G distance₀ total₀ (scannedUpTo G distance₀ s u (c + 1)) next l'' w'' ∧
          InHand G (scannedUpTo G distance₀ s u (c + 1)) u l'' w'' ∧ Beside l l'' w w'') := by
    rintro c l' w' hc ⟨hruns, hhand', hbeside⟩
    obtain ⟨v, hv⟩ : ∃ v, (G.successors u)[c]? = some v := ⟨_, List.getElem?_eq_getElem hc⟩
    have hdepth : (scannedUpTo G distance₀ s u c).depth u = s.depth u :=
      depth_visitAll_of_mem (List.mem_of_getElem? hu)
    refine wp_mono (hruns.visitPing hnodes hescape (layered_scannedUpTo hs hu c) hx
      (getElem?_visitAll hu) hdegree hhand' hv) ?_
    rintro l'' w'' ⟨hruns', hhand'', hbeside'⟩
    rw [scannedUpTo_succ hv, ← hdepth]
    exact ⟨hruns', hhand'', hbeside'.succPing.trans hbeside.succPing,
      hbeside'.succPong.trans hbeside.succPong, hbeside'.inFlight.trans hbeside.inFlight⟩
  refine wp_mono (wp_forUp _ _ hscan _ 0 l w (zero_add _) ⟨h, hhand, rfl, rfl, rfl⟩) ?_
  rintro l' w' ⟨hruns, -, hbeside⟩
  exact ⟨hruns, hbeside⟩

theorem wp_scanPings {A : ℕ → Search ℕ} (hA : A = after (openSuccessors G distance₀) x)
    (h : Runs S G distance₀ total₀ (A k) next l w) (hx : x < G.nodes)
    (hu : (A k).order[k]? = some u) (hdegree : G.outDegree u * sizeofUlong ≤ S.maxXferSize)
    (hhand : InHand G (A k) u l w) :
    R.wp (scanPings G.nodes l) w (fun l' w' =>
      Runs S G distance₀ total₀ (A (k + 1)) next l' w' ∧ l'.numPongs = noPongs ∧
        Beside l l' w w') := by
  subst hA
  rw [scanPings, if_pos (hhand.numPongs_ne hdegree), hhand.numPongs]
  refine wp_then (wp_visitPings hnodes hescape h (layered_after _ x k) hx hu hdegree hhand) ?_
  rintro l' w' ⟨hruns, hbeside⟩
  rw [scannedUpTo_outDegree hu] at hruns
  exact ⟨⟨hruns.reading, hruns.distance, hruns.queue, hruns.total, hruns.fits, hruns.buffers,
    hruns.inFlight⟩, rfl, hbeside.succPing, hbeside.succPong, hbeside.inFlight⟩

variable (hdegrees : ∀ v < G.nodes, G.outDegree v * sizeofUlong ≤ S.maxXferSize)
include hdegrees

omit hescape in
/-- The end of a round in which node `k` has been popped and all before it are expanded. -/
theorem wp_takePongs_lag {A : ℕ → Search ℕ} (hA : A = after (openSuccessors G distance₀) x)
    (hx : x < G.nodes)
    (h : Runs S G distance₀ total₀ (A k) (k + 1) l w) (hflight : w.inFlight = requested G v l)
    (hv : (A k).order[k]? = some v) (hpongs : l.numPongs = noPongs) :
    R.wp (takePongs v l) w (fun l' w' =>
      ∃ n < 2 * (G.nodes - k), Lag S G distance₀ total₀ x n l' w') := by
  subst hA
  have hlayered := layered_after (openSuccessors G distance₀) x k
  have hmem := List.mem_of_getElem? hv
  have hlt : v < G.nodes := lt_nodes_of_mem hlayered hx hmem
  have hk : k < G.nodes := lt_of_lt_of_le (List.getElem?_eq_some_iff.mp hv).1
    (length_order_le hlayered hx)
  refine wp_mono (wp_takePongs h hflight hnodes hlt hmem (hdegrees v hlt)) ?_
  rintro l' w' ⟨hruns, hflight', ⟨hzero, hpongs'⟩ | hhand⟩
  · -- A node without successors is expanded.
    have hopen : openSuccessors G distance₀ v = [] := by
      rw [openSuccessors, List.length_eq_zero_iff.mp hzero]
      rfl
    have hafter := after_succ_of_getElem? hv
    rw [hopen, visitAll_nil] at hafter
    refine ⟨2 * (G.nodes - (k + 1)), by omega, .none hflight' ?_ (hpongs'.trans hpongs)⟩
    rw [hafter]
    exact hruns
  · exact ⟨2 * (G.nodes - (k + 1)) + 1, by omega, .one hflight' hruns hv hhand⟩

theorem wp_round (hx : x < G.nodes) {n : ℕ} (h : Lag S G distance₀ total₀ x n l w) :
    R.wp (round S G.nodes l) w (fun r w' =>
      r.elim (fun l' => ∃ n' < n, Lag S G distance₀ total₀ x n' l' w')
        (fun l' => Done S G distance₀ total₀ x l' w')) := by
  cases h with
  | @none k _ _ hflight h hpongs =>
    have hs := layered_after (openSuccessors G distance₀) x k
    have hlength := length_order_le hs hx
    have hnext := h.queue.next_le
    have helements := h.queue.elements
    by_cases hempty : l.ring.elements = 0
    · have hdone : (after (openSuccessors G distance₀) x k).order.length ≤ k := by omega
      rw [round, if_neg (not_not_intro hempty), if_neg (not_not_intro hpongs)]
      refine ⟨hflight, k, ?_⟩
      rw [after_of_length_le hdone (hnext.trans hlength)]
      exact h
    · obtain ⟨hassert, havoids, htop, hpopped⟩ := h.pop hs hx hnodes hempty
      have hv := lt_nodes_of_mem hs hx (List.mem_of_getElem? htop)
      rw [round, if_pos hempty, if_pos hassert]
      refine wp_seq (wp_loadSpm havoids (wp_then
        (wp_requestSuccessors hpopped hflight hv (hdegrees _ hv)) ?_))
      rintro - w' ⟨hruns, -, hflight'⟩
      rw [scanPings, if_neg (not_not_intro hpongs)]
      exact wp_seq (wp_seq (wp_takePongs_lag hnodes hdegrees rfl hx hruns hflight' htop hpongs))
  | @one k u _ _ hflight h hu hhand =>
    have hs := layered_after (openSuccessors G distance₀) x k
    have hlt := lt_nodes_of_mem hs hx (List.mem_of_getElem? hu)
    have hdegree := hdegrees u hlt
    by_cases hempty : l.ring.elements = 0
    · rw [round, if_neg (not_not_intro hempty), if_pos (hhand.numPongs_ne hdegree)]
      refine wp_then (wp_scanPings hnodes hescape rfl h hx hu hdegree hhand) ?_
      rintro l' w' ⟨hruns, hpongs, hbeside⟩
      exact ⟨_, Nat.lt_succ_self _, .none (hbeside.inFlight.trans hflight) hruns hpongs⟩
    · obtain ⟨hassert, havoids, htop, hpopped⟩ := h.pop hs hx hnodes hempty
      have hv := lt_nodes_of_mem hs hx (List.mem_of_getElem? htop)
      rw [round, if_pos hempty, if_pos hassert]
      refine wp_seq (wp_loadSpm havoids (wp_then
        (wp_requestSuccessors hpopped hflight hv (hdegrees _ hv)) ?_))
      rintro - w' ⟨hruns, hspm, hflight'⟩
      have hhand' : InHand G (after (openSuccessors G distance₀) x k) u
          { l with ring := l.ring.pop G.nodes } w' :=
        ⟨hhand.numPongs, hhand.currDistance, hspm ▸ hhand.ping⟩
      refine wp_then (wp_scanPings hnodes hescape rfl hruns hx hu hdegree hhand') ?_
      rintro l' w'' ⟨hruns', hpongs, hbeside⟩
      refine wp_then (wp_takePongs_lag hnodes hdegrees rfl hx hruns' ?_ ?_ hpongs) ?_
      · rw [hbeside.inFlight, hflight', requested, requested, hbeside.succPong]
      · rw [after_succ_of_getElem? hu]
        exact getElem?_visitAll htop
      · rintro l'' w''' ⟨n, hn, hlag⟩
        exact ⟨n, by omega, hlag⟩

/-! ### All iterations -/

variable {fuel maxIterations : ℕ} {o : Outcome}

theorem wp_iteration (hfuel : 2 * G.nodes < fuel) (hx : x < G.nodes) (hsum : o.totalDistance < word)
    (h : Between S G o l w) :
    R.wp (iteration S G.nodes fuel x l) w (fun l' w' =>
      Between S G (o.iterate G x) l' w' ∧ Fits S G o.distance x) := by
  have hpos : 0 < G.nodes := Nat.zero_lt_of_lt hx
  have hword : G.nodes < word := lt_trans hnodes (by decide)
  have hset : Reading (Holds G) (w.set (.node x .distance) 0) :=
    h.reading.set (h.reading.now.update (by decide) (by decide))
  refine wp_seq (wp_store h.reading (wp_seq (wp_seq (wp_storeSpm ?_))))
  refine (hescape 0 hpos x).imp_right (fun hplace => ⟨?_, ?_⟩)
  · rw [World.Avoids, inFlight_set, h.inFlight]
    exact List.forall_mem_nil _
  have hdistance : (fun i => update w.mem (Loc.node x .distance) 0 (.node i .distance)) =
      update o.distance x 0 := by
    rw [← h.distance]
    exact distance_update x 0 w.mem
  have hcells : (fun i => ByteMemory.load (ByteMemory.store w.spm 0 x) (sizeofUlong * i)) =
      update (fun i => ByteMemory.load w.spm (sizeofUlong * i)) 0 x :=
    cells_store (i := 0) (lt_trans hx hword) w.spm
  have hruns : Runs S G (update o.distance x 0) o.totalDistance
      (after (openSuccessors G (update o.distance x 0)) x 0) 0
      { l with ring := queueInit.push G.nodes, currDistance := 0, numPongs := noPongs }
      { w.set (.node x .distance) 0 with spm := ByteMemory.store w.spm 0 x } := by
    refine ⟨⟨hset.now, hset.reads, hset.since⟩, ?_, ?_, ?_, hplace, h.buffers, ?_⟩
    · exact hdistance ▸ distancesOf_start o.distance x
    · exact hcells ▸ queueOf_start hpos hword
    · change l.totalDistance = (o.totalDistance + 0) % word
      rw [h.total, add_zero, Nat.mod_eq_of_lt hsum]
    · change ∀ p ∈ (w.set (Loc.node x .distance) 0).inFlight, _
      rw [inFlight_set, h.inFlight]
      exact List.forall_mem_nil _
  have hlag := Lag.none (by exact inFlight_set.trans h.inFlight) hruns rfl
  rw [wp_pure]
  refine wp_mono (wp_loop_of_rank _ (Lag S G (update o.distance x 0) o.totalDistance x)
    (fun n l w hlag => wp_round hnodes hescape hdegrees hx hlag) fuel _ _ _ hlag (by omega)) ?_
  rintro l' w' ⟨hflight, k, hruns'⟩
  exact ⟨⟨hruns'.reading, hflight, hruns'.distance.eq_iterate, hruns'.total, hruns'.buffers⟩,
    hruns'.fits⟩

theorem wp_executeKernel (hfuel : 2 * G.nodes < fuel) (hiterations : maxIterations ≤ G.nodes)
    {mem : Loc → ℕ} (hmem : Holds G mem) (spm : ℕ → ℕ) {distance : ℕ → ℕ}
    (hdistance : ∀ i, mem (.node i .distance) = distance i) :
    R.wp (executeKernel S G.nodes maxIterations fuel) ⟨mem, spm, []⟩ (fun sreg3 w =>
      sreg3 = (outcome G distance maxIterations).totalDistance ∧ Reading (Holds G) w ∧
        (∀ i, w.mem (.node i .distance) = (outcome G distance maxIterations).distance i) ∧
        ∀ x < maxIterations, Fits S G (outcome G distance x).distance x) := by
  have hbody : ∀ x l w, x < maxIterations →
      (Between S G (outcome G distance x) l w ∧
        ∀ y < x, Fits S G (outcome G distance y).distance y) →
      R.wp (iteration S G.nodes fuel x l) w (fun l' w' =>
        Between S G (outcome G distance (x + 1)) l' w' ∧
          ∀ y < x + 1, Fits S G (outcome G distance y).distance y) := by
    rintro x l w hx ⟨hbetween, hfits⟩
    refine wp_mono (wp_iteration hnodes hescape hdegrees hfuel (lt_of_lt_of_le hx hiterations)
      (totalDistance_outcome_lt G distance x) hbetween) ?_
    rintro l' w' ⟨hbetween', hfits'⟩
    refine ⟨hbetween', fun y hy => ?_⟩
    rcases Nat.lt_succ_iff_lt_or_eq.mp hy with hlt | rfl
    · exact hfits y hlt
    · exact hfits'
  refine wp_then (wp_forUp _ _ hbody maxIterations 0 _ _ (zero_add _)
    ⟨between_start hmem spm hdistance, fun y hy => absurd hy (Nat.not_lt_zero y)⟩) ?_
  rintro l w ⟨hbetween, hfits⟩
  exact ⟨hbetween.total, hbetween.reading, fun i => congrFun hbetween.distance i, hfits⟩

end

/-- With successor lists that fit into a buffer and a queue that fits below the buffers, every run
of the pipelined kernel ends, with the distances and the value that the plain kernel leaves. -/
theorem executeKernel_eq_default (S : Config) (G : Graph)
    (hqueue : G.nodes * sizeofUlong ≤ 2 * S.maxXferSize)
    (hdegrees : ∀ v < G.nodes, G.outDegree v * sizeofUlong ≤ S.maxXferSize)
    (hiterations : maxIterations ≤ G.nodes) (mem : Loc → ℕ) (hmem : Holds G mem) (spm : ℕ → ℕ)
    (K : SgraphBfs.State) (hdistance : ∀ i, mem (.node i .distance) = K.distance i) :
    ∃ K', (∀ fuel, G.nodes < fuel → SgraphBfs.executeKernel G maxIterations fuel K = some K') ∧
      ∀ fuel, 2 * G.nodes < fuel →
        Inevitable step
          (fun m => m.prog = .ret K'.sreg3 ∧
            ∀ i, m.state.mem (.node i .distance) = K'.distance i)
          (start (executeKernel S G.nodes maxIterations fuel) mem spm) := by
  have hsmall : G.nodes < nc := by
    have haddressable := S.addressable
    rw [sizeofUlong] at hqueue
    rw [word] at haddressable
    rw [nc]
    omega
  obtain ⟨K', hrun, hdistance', hsreg3, -⟩ := executeKernel_outcome hsmall hiterations K
  refine ⟨K', hrun, fun fuel hfuel => ?_⟩
  have hplace : ∀ i < G.nodes, sizeofUlong * i + 4 ≤ 2 * S.maxXferSize := by
    intro i hi
    rw [sizeofUlong] at hqueue ⊢
    omega
  have hwp : Rules.plain.wp
      (executeKernel S G.nodes maxIterations fuel) ⟨mem, spm, []⟩ _ :=
    wp_executeKernel hsmall (fun i hi _ => .inr (hplace i hi)) hdegrees hfuel hiterations hmem spm
      hdistance
  refine (inevitable_of_wp (rel_start mem spm []) assumed_plain hwp).mono (fun m hm => ?_)
  rcases hm with ⟨o, k, -, hfalse⟩ | ⟨sreg3, w, hret, ⟨rfl, hreading, hvalues, -⟩, hrel⟩
  · exact hfalse.elim
  · refine ⟨by rw [hret, hsreg3], fun i => ?_⟩
    rw [hrel.mem _ (hreading.free _), hvalues i, hdistance']

/-- The graph of the plain kernel's example, in two buffers of 16 bytes. -/
theorem executeKernel_eq_default_fourNodes :
    Inevitable step
      (fun m => m.prog = .ret 2 ∧ m.state.mem (.node 2 .distance) = 1)
      (start (executeKernel ⟨16, by decide, by decide⟩ 4 1 9) (memoryOf fourNodes (fun _ => nc))
        (fun _ => 0)) := by
  obtain ⟨K', hdefault, hbest⟩ :=
    executeKernel_eq_default ⟨16, by decide, by decide⟩ fourNodes (by decide)
    (by decide) (by decide : 1 ≤ fourNodes.nodes) (memoryOf fourNodes (fun _ => nc))
      (holds_memoryOf _ _) (fun _ => 0) unreached (fun _ => rfl)
  have hvalues : (SgraphBfs.executeKernel fourNodes 1 5 unreached).map
      (fun K => (K.distance 2, K.sreg3)) = some (1, 2) := by
    decide +kernel
  rw [hdefault 5 (by decide), map_some, some.injEq, Prod.mk.injEq] at hvalues
  refine (hbest 9 (by decide)).mono (fun m hm => ⟨?_, ?_⟩)
  · rw [hm.1, hvalues.2]
  · rw [hm.2 2, hvalues.1]

end SmcSim.SgraphBfsBest
