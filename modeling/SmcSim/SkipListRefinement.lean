import SmcSim.SkipListService

/-!
# The default skip list kernel refines a finite set

From `list_init` on, every sequence of requests that leaves the pool of blocks a free
block for each new key is answered as a finite set answers it, and the pointers of
every level thread the nodes of that level in key order.
-/

namespace SmcSim.SkipListKernel
open EffectPrograms PimMemory ListSegments SkipChains SkipListPrograms SkipListShape List
open SkipListInit RequestServers SetSemantics

/-- The pointers of a skip list: `chain l` are the nodes that level `l` visits. -/
structure IsSkipList (m : Memory) (keys : Finset ℕ) (chain : ℕ → List ℕ) : Prop where
  linked : ∀ l < node.maxLevel, Seg (nextOf node m l) (m.sreg listHead) (chain l) 0
  sorted : ∀ l < node.maxLevel, ((chain l).map (keyOf node m)).Pairwise (· < ·)
  tail : ∀ l < node.maxLevel, (chain l).getLast? = some (m.sreg listTail)
  sublist : ∀ l, (chain (l + 1)).Sublist (chain l)
  members : ∀ l p, p ∈ chain l ↔ p ∈ chain 0 ∧ l < topOf node m p
  keys : keysBetween (keyOf node m) (chain 0) = keys

variable {cells : List ℕ} {m : Memory}

theorem Holds.isSkipList {maxLevel : ℕ} {s : BoundedSet ℕ} {free : List ℕ}
    (h : Holds maxLevel s m cells free) :
    IsSkipList m s.keys (fun l => level (topOf node m) l cells) := by
  refine ⟨h.shape.chain.chain, fun l _ => ?_, fun l hl => ?_, fun l => ?_, fun l p => ?_, ?_⟩
  · exact h.shape.chain.sorted.sublist (filter_sublist.map _)
  · obtain ⟨init, hinit⟩ := h.shape.level_tail hl
    rw [hinit, getLast?_concat]
  · exact level_sublist (Nat.le_succ l)
  · rw [h.shape.level_zero, mem_level]
  · rw [h.shape.level_zero, h.keys]

/-- The nodes that level 0 reaches before `NULL`. -/
structure LevelZero (m : Memory) (cells : List ℕ) : Prop where
  linked : Seg (nextOf node m 0) (m.sreg listHead) cells 0
  nonnull : 0 ∉ cells

theorem LevelZero.unique {cells' : List ℕ} (h : LevelZero m cells)
    (h' : LevelZero m cells') : cells = cells' :=
  h.linked.unique h'.linked h.nonnull h'.nonnull

theorem Holds.levelZero {maxLevel : ℕ} {s : BoundedSet ℕ} {free : List ℕ}
    (h : Holds maxLevel s m cells free) : LevelZero m cells := by
  refine ⟨?_, fun h0 => h.shape.ne_zero h0 rfl⟩
  have hzero := h.shape.chain.chain 0 (by decide)
  rwa [h.shape.level_zero] at hzero

section Runs

variable {fuel n maxLevel : ℕ} {locals : Locals} {w : Device} {requests : List Request}

def Request.call (r : Request) : Operation × ℕ := (r.op, r.key)

/-- What the callers of the kernel promise for a request. -/
structure Request.WellFormed (maxLevel : ℕ) (r : Request) : Prop where
  key : KeyInRange r.key
  level : r.op = .add → 1 ≤ r.level ∧ r.level ≤ maxLevel

/-- What `list_init` leaves: no key, and all blocks but the two sentinels free. -/
def emptySet : BoundedSet ℕ := ⟨∅, node.numMemBlocks - 2⟩

/-- A set that answers by `step`, with a pool that removals do not refill. -/
def respond (step : Finset ℕ → Operation → ℕ → Bool × Finset ℕ) (s : BoundedSet ℕ) (r : Request) :
    Bool × BoundedSet ℕ := s.spend step r.op r.key

def RoomFor (s : BoundedSet ℕ) (r : Request) : Prop := s.HasRoom r.op r.key

theorem wp_kernelRound_init {execute : Variant} (hmode : w.memory.sreg 0 = 0)
    (hlevels : w.memory.sreg currMaxLevel = maxLevel) :
    (spec (portSpec False)).wp (kernelRound execute n locals) w (fun r w' => ∃ locals',
      r = some locals' ∧ Represents maxLevel emptySet (locals', w') ∧ w'.ports = w.ports) := by
  simp only [kernelRound, CommandSpec.wp_bind, wp_readSreg, hmode, if_true]
  refine wp_listInit maxLevel (by decide) (by decide) (by rw [node_numMemBlocks]; decide) ?_
  intro m' a b free hshape hperm hsreg
  have hlen : 2 + free.length = node.numMemBlocks := by
    have hlen := hperm.length_eq
    simp only [blockAddrs, length_append, length_cons, length_nil, length_map,
      length_range] at hlen
    omega
  have hempty : keysBetween (keyOf node m') [a, b] = ∅ := by
    have hcard := hshape.length_cells
    exact Finset.card_eq_zero.mp (by simpa using hcard.symm)
  simp only [wp_writeSreg, CommandSpec.wp_pure]
  refine ⟨locals, rfl, ⟨[a, b], free, by simp, ?_, hshape.congr_sreg rfl ?_ ?_ ?_, hempty, ?_, ?_⟩,
    trivial⟩
  · rw [Memory.setSreg_ne (by decide), hsreg currMaxLevel (.inl (by decide)), hlevels]
  · simp [freeBlocksHead]
  · simp [listHead]
  · simp [listTail]
  · dsimp only [emptySet]
    omega
  · simp only [length_cons, length_nil]
    omega

theorem round_init (execute : Variant) (n : ℕ) (locals : Locals) (hmode : w.memory.sreg 0 = 0)
    (hlevels : w.memory.sreg currMaxLevel = maxLevel) :
    ∃ x, round execute n locals w = some x ∧ Represents maxLevel emptySet x ∧
      x.2.ports = w.ports := by
  have hwp : (spec (portSpec False)).wp (kernelRound execute n locals) w _ :=
    wp_kernelRound_init hmode hlevels
  obtain ⟨_, w', hrun, locals', rfl, hrep⟩ := run_of_portSpec hwp
  exact ⟨(locals', w'), by simp [round, hrun], hrep⟩

/-- The variant executes every request as `step` answers it. -/
def Implements (execute : Variant) (step : Finset ℕ → Operation → ℕ → Bool × Finset ℕ)
    (maxLevel : ℕ) : Prop :=
  ∀ (w : Device) (i : ℕ) (op : Operation) (locals : Locals) (s : BoundedSet ℕ)
    (cells free : List ℕ),
    Holds maxLevel s w.memory cells free → KeyInRange (w.ports i).parameter →
    (op = .add → 1 ≤ (w.ports i).randomLevel ∧ (w.ports i).randomLevel ≤ maxLevel) →
    s.HasRoom op (w.ports i).parameter →
    (spec (portSpec False)).wp (execute i (opCode op) locals) w
      (Outcome maxLevel w (s.spend step op (w.ports i).parameter))

theorem implements_default (hfuel : node.numMemBlocks ≤ fuel)
    (hmax : 1 ≤ maxLevel ∧ maxLevel ≤ node.maxLevel) :
    Implements (executeDefault fuel) applySet maxLevel := by
  intro w i op locals s cells free h hk ht hroom
  exact wp_executeDefault hfuel hmax hk h ht hroom

variable {execute : Variant} {step : Finset ℕ → Operation → ℕ → Bool × Finset ℕ}

theorem Implements.serveRequest (himpl : Implements execute step maxLevel) {s : BoundedSet ℕ}
    {x : Locals × Device} {r : Request} (h : Represents maxLevel s x) (hr : r.WellFormed maxLevel)
    (hroom : RoomFor s r) :
    ∃ x', serveRequest execute r x = some (retvalBit (respond step s r).1, x') ∧
      Represents maxLevel (respond step s r).2 x' ∧
      ((respond step s r).1 = false → x'.2.memory = x.2.memory) := by
  obtain ⟨cells, free, hholds⟩ := h
  have hslot : (submit r x.2).ports r.thread = r.slot := submit_ports r x.2
  have hexec := himpl (submit r x.2) r.thread r.op x.1 s cells free hholds
    (by rw [hslot]; exact hr.key) (by rw [hslot]; exact hr.level) (by rw [hslot]; exact hroom)
  rw [hslot] at hexec
  exact serveRequest_of_outcome hexec

theorem Implements.runFromInit (himpl : Implements execute step maxLevel)
    (hmode : w.memory.sreg 0 = 0) (hlevels : w.memory.sreg currMaxLevel = maxLevel)
    (hreqs : ∀ r ∈ requests, r.WellFormed maxLevel)
    (hroom : Allowed (respond step) RoomFor emptySet requests) :
    ∃ x, runFromInit execute n requests locals w =
        some ((answerAll (respond step) emptySet requests).1.map retvalBit, x) ∧
      Represents maxLevel (answerAll (respond step) emptySet requests).2 x := by
  obtain ⟨x₀, hinit, hrep, _⟩ := round_init execute n locals hmode hlevels
  have hok : Allowed (respond step) (fun s r => r.WellFormed maxLevel ∧ RoomFor s r) emptySet
      requests := hroom.mono (fun s r hr hroom => ⟨hreqs r hr, hroom⟩)
  obtain ⟨x, hall, hrep'⟩ := serveAll_of_simulation (fun s r x hrep hok => by
    obtain ⟨x', hserve, hrep', _⟩ := himpl.serveRequest hrep hok.1 hok.2
    exact ⟨x', hserve, hrep'⟩) hrep hok
  exact ⟨x, by simp [SkipListKernel.runFromInit, hinit, hall], hrep'⟩

/-- The answers do not depend on the pool. -/
theorem answerAll_respond (requests : List Request) :
    applySetAll ∅ (requests.map Request.call) =
      ((answerAll (respond applySet) emptySet requests).1,
        (answerAll (respond applySet) emptySet requests).2.keys) := by
  rw [applySetAll, answerAll_map]
  exact answerAll_of_image BoundedSet.keys (fun _ _ => rfl) emptySet requests

theorem allowed_of_additions (hpool : additions ∅ (requests.map Request.call) ≤
    node.numMemBlocks - 2) : Allowed (respond applySet) RoomFor emptySet requests :=
  (BoundedSet.allowed_of_additions_le (s := emptySet) hpool).of_map

/-- From `list_init`, every request is answered as a finite set answers it, and after every
request the levels of the skip list thread the nodes of the set in key order. -/
theorem runFromInit_default_answers_as_set (locals : Locals) (w : Device)
    (requests : List Request) (hfuel : node.numMemBlocks ≤ fuel)
    (hmax : 1 ≤ maxLevel ∧ maxLevel ≤ node.maxLevel) (hmode : w.memory.sreg 0 = 0)
    (hlevels : w.memory.sreg currMaxLevel = maxLevel)
    (hreqs : ∀ r ∈ requests, r.WellFormed maxLevel)
    (hpool : additions ∅ (requests.map Request.call) ≤ node.numMemBlocks - 2) :
    ∀ served, served <+: requests → ∃ locals' w' chain,
      runFromInit (executeDefault fuel) n served locals w =
        some ((applySetAll ∅ (served.map Request.call)).1.map retvalBit, locals', w') ∧
      IsSkipList w'.memory (applySetAll ∅ (served.map Request.call)).2 chain := by
  rintro served ⟨rest, rfl⟩
  have hallowed := (allowed_of_additions hpool).of_append
  obtain ⟨⟨locals', w'⟩, hrun, cells, free, hholds⟩ :
      ∃ x, runFromInit (executeDefault fuel) n served locals w = some (_, x) ∧
        Represents maxLevel _ x :=
    (implements_default hfuel hmax).runFromInit hmode hlevels
      (fun r hr => hreqs r (mem_append_left rest hr)) hallowed
  rw [answerAll_respond]
  exact ⟨locals', w', _, hrun, hholds.isSkipList⟩

end Runs

/-- A device whose host has set the number of levels to 2, before `list_init`. -/
def freshDevice : Device :=
  ⟨⟨fun _ _ => 0, fun i => if i = currMaxLevel then 2 else 0⟩, fun _ => ⟨0, 0, 0⟩⟩

def fiveRequests : List Request :=
  [⟨0, 0, .add, 5, 2⟩, ⟨1, 0, .add, 5, 1⟩, ⟨0, 0x1F, .contains, 5, 0⟩, ⟨2, 0, .remove, 5, 0⟩,
    ⟨0, 0, .contains, 5, 0⟩]

theorem fiveRequests_wellFormed : ∀ r ∈ fiveRequests, r.WellFormed 2 := by
  intro r hr
  simp only [fiveRequests, mem_cons, not_mem_nil, or_false] at hr
  rcases hr with rfl | rfl | rfl | rfl | rfl
  all_goals exact ⟨by decide, by decide⟩

theorem runFromInit_default_answers_fiveRequests :
    ∃ locals' w' chain,
      runFromInit (executeDefault 1048576) 3 fiveRequests ⟨fun _ => 0, fun _ => 0⟩ freshDevice =
        some ([1, 0, 1, 1, 0], locals', w') ∧ IsSkipList w'.memory ∅ chain :=
  runFromInit_default_answers_as_set ⟨fun _ => 0, fun _ => 0⟩ freshDevice fiveRequests
    node_numMemBlocks.le (by decide) rfl rfl fiveRequests_wellFormed
    (by rw [node_numMemBlocks]; decide) fiveRequests prefix_rfl

end SmcSim.SkipListKernel
