import SmcSim.SkipListRefinement

/-!
# Blocks that the default skip list kernel loses

A removal unlinks its node and leaves it on no list, and an addition that finds the
pool empty writes through the `NULL` that `alloc_memory_block` returns. Conservation
of the blocks holds exactly as long as no request does either.
-/

namespace SmcSim.SkipListKernel
open PimMemory ListSegments SkipListPrograms RequestServers SetSemantics List

/-- Every block is on the free list or reached on level 0. -/
def Conserved (m : Memory) : Prop :=
  ∃ cells free, LevelZero m cells ∧ FreeList m free ∧ 0 ∉ free ∧
    cells.length + free.length = node.numMemBlocks

/-- The blocks are conserved after every request, and an addition that finds the free
list empty returns 0 and changes nothing. -/
structure ConservesMemory (fuel n : ℕ) (requests : List Request) (locals : Locals) (w : Device) :
    Prop where
  conserved : ∀ served, served <+: requests → ∃ bits x,
    runFromInit (executeDefault fuel) n served locals w = some (bits, x) ∧ Conserved x.2.memory
  exhausted : ∀ served r rest, requests = served ++ r :: rest → r.op = .add → ∀ bits x,
    runFromInit (executeDefault fuel) n served locals w = some (bits, x) →
    FreeList x.2.memory [] →
    ∃ x', serveRequest (executeDefault fuel) r x = some (0, x') ∧ x'.2.memory = x.2.memory

/-- No removal of a key that is there, no addition of a new key to a full pool. -/
def LeakFree (s : BoundedSet ℕ) (r : Request) : Prop :=
  (r.op = .remove → r.key ∉ s.keys) ∧ RoomFor s r

variable {maxLevel : ℕ} {s : BoundedSet ℕ} {r : Request}

/-- The balance of keys, sentinels and room that conservation asks for. -/
def Balanced (s : BoundedSet ℕ) : Prop := s.keys.card + 2 + s.room = node.numMemBlocks

theorem balanced_emptySet : Balanced emptySet := by
  simp only [Balanced, emptySet, node_numMemBlocks, Finset.card_empty]

theorem Holds.conserved_iff {m : Memory} {cells free : List ℕ}
    (h : Holds maxLevel s m cells free) : Conserved m ↔ Balanced s := by
  have hfree : 0 ∉ free := fun h0 => h.shape.free_ne_zero h0 rfl
  have hlen := h.shape.length_cells
  rw [h.keys] at hlen
  rw [Balanced, ← hlen, ← h.room]
  constructor
  · rintro ⟨cells', free', hcells', hfree', hnull, hsum⟩
    rw [h.levelZero.unique hcells', Seg.unique h.shape.blocks hfree' hfree hnull]
    exact hsum
  · intro hsum
    exact ⟨cells, free, h.levelZero, h.shape.blocks, hfree, hsum⟩

theorem Balanced.respond (h : Balanced s) (hr : LeakFree s r) :
    Balanced (respond applySet s r).2 := by
  obtain ⟨hremove, hroom⟩ := hr
  unfold SkipListKernel.respond
  cases hop : r.op with
  | contains => simpa [BoundedSet.spend_contains] using h
  | add =>
    by_cases hmem : r.key ∈ s.keys
    · simpa [BoundedSet.spend_add_of_mem hmem] using h
    · have hpos := hroom hop hmem
      rw [BoundedSet.spend_add_of_notMem hmem]
      simp only [Balanced, Finset.card_insert_of_notMem hmem] at h ⊢
      omega
  | remove => simpa [BoundedSet.spend_remove_of_notMem (hremove hop)] using h

/-- A removal that succeeds loses a block. -/
theorem not_balanced_of_remove (h : Balanced s) (hop : r.op = .remove) (hmem : r.key ∈ s.keys) :
    ¬ Balanced (SkipListKernel.respond applySet s r).2 := by
  have hpos := Finset.card_pos.mpr ⟨r.key, hmem⟩
  rw [SkipListKernel.respond, hop, BoundedSet.spend_remove_of_mem hmem]
  simp only [Balanced, Finset.card_erase_of_mem hmem] at h ⊢
  omega

variable {fuel n : ℕ} {x : Locals × Device} {locals : Locals} {w : Device}
variable {requests : List Request}

theorem runFromInit_concat {execute : Variant} {served : List Request} {bits : List (BitVec 8)}
    (h : runFromInit execute n served locals w = some (bits, x)) (r : Request) :
    runFromInit execute n (served ++ [r]) locals w =
      (serveRequest execute r x).map fun a => (bits ++ [a.1], a.2) := by
  obtain ⟨x₀, hinit, hall⟩ := Option.bind_eq_some_iff.mp h
  rw [runFromInit, hinit, Option.bind_some, serveAll_concat hall]

theorem ConservesMemory.of_append {more : List Request}
    (h : ConservesMemory fuel n (requests ++ more) locals w) :
    ConservesMemory fuel n requests locals w := by
  refine ⟨fun served hserved => h.conserved served (hserved.trans (prefix_append _ _)), ?_⟩
  rintro served r rest rfl
  exact h.exhausted served r (rest ++ more) (by simp)

section

variable (hfuel : node.numMemBlocks ≤ fuel) (hmax : 1 ≤ maxLevel ∧ maxLevel ≤ node.maxLevel)
include hfuel hmax

theorem serveRequest_default_of_full (h : Represents maxLevel s x)
    (hr : r.WellFormed maxLevel) (hop : r.op = .add) (hnew : r.key ∉ s.keys) (hroom : s.room = 0) :
    serveRequest (executeDefault fuel) r x = none := by
  obtain ⟨cells, free, hholds⟩ := h
  obtain rfl : free = [] := length_eq_zero_iff.mp (hholds.room.trans hroom)
  have hslot : (submit r x.2).ports r.thread = r.slot := submit_ports r x.2
  have hholds' : Holds maxLevel s (submit r x.2).memory cells [] := hholds
  refine serveRequest_eq_none ?_
  rw [hop]
  refine wp_executeDefault_of_full hfuel hmax ?_ hholds' trivial ?_
  · rw [hslot]
    exact hr.key
  · rw [hslot]
    exact hnew

variable (hmode : w.memory.sreg 0 = 0) (hlevels : w.memory.sreg currMaxLevel = maxLevel)
variable (hreqs : ∀ r ∈ requests, r.WellFormed maxLevel)
include hmode hlevels hreqs

theorem runFromInit_of_leakFree (n : ℕ) (locals : Locals)
    (h : Allowed (respond applySet) LeakFree emptySet requests) :
    ∃ s bits x, s = (answerAll (respond applySet) emptySet requests).2 ∧
      runFromInit (executeDefault fuel) n requests locals w = some (bits, x) ∧
      Represents maxLevel s x ∧ Balanced s := by
  obtain ⟨x, hrun, hrep⟩ : ∃ x, runFromInit (executeDefault fuel) n requests locals w =
      some (_, x) ∧ Represents maxLevel _ x :=
    (implements_default hfuel hmax).runFromInit hmode hlevels hreqs (h.mono (fun _ _ _ hr => hr.2))
  exact ⟨_, _, x, rfl, hrun, hrep, h.invariant balanced_emptySet (fun _ _ hs hr => hs.respond hr)⟩

/-- Conservation rules out leaks. -/
theorem ConservesMemory.leakFree (h : ConservesMemory fuel n requests locals w) :
    Allowed (respond applySet) LeakFree emptySet requests := by
  induction requests using List.reverseRecOn with
  | nil => exact allowed_nil emptySet
  | append_singleton served r ih =>
    have hreqs' : ∀ r ∈ served, r.WellFormed maxLevel := fun r hr => hreqs r (by simp [hr])
    have hserved := ih hreqs' h.of_append
    have hr := hreqs r (by simp)
    obtain ⟨s, bits, x, hs, hrun, hrep, hbal⟩ :=
      runFromInit_of_leakFree hfuel hmax hmode hlevels hreqs' n locals hserved
    obtain ⟨bits', x', hrun', hcons⟩ := h.conserved _ prefix_rfl
    rw [runFromInit_concat hrun] at hrun'
    refine allowed_concat.mpr ⟨hserved, ?_⟩
    rw [← hs]
    have hroom : RoomFor s r := by
      intro hop hnew
      by_contra hzero
      rw [serveRequest_default_of_full hfuel hmax hrep hr hop hnew (by omega)] at hrun'
      cases hrun'
    refine ⟨fun hop hmem => ?_, hroom⟩
    obtain ⟨x₁, hserve, ⟨cells, free, hholds⟩, _⟩ :=
      (implements_default hfuel hmax).serveRequest hrep hr hroom
    rw [hserve] at hrun'
    cases hrun'
    exact not_balanced_of_remove hbal hop hmem (hholds.conserved_iff.mp hcons)

theorem conservesMemory_of_leakFree (h : Allowed (respond applySet) LeakFree emptySet requests) :
    ConservesMemory fuel n requests locals w := by
  constructor
  · rintro served ⟨rest, rfl⟩
    obtain ⟨s, bits, x, _, hrun, ⟨cells, free, hholds⟩, hbal⟩ := runFromInit_of_leakFree hfuel hmax
      hmode hlevels (fun r hr => hreqs r (by simp [hr])) n locals h.of_append
    exact ⟨bits, x, hrun, hholds.conserved_iff.mpr hbal⟩
  · rintro served r rest rfl hop bits x hrun hempty
    obtain ⟨s, bits', x', hs, hrun', hrep, _⟩ := runFromInit_of_leakFree hfuel hmax
      hmode hlevels (fun r hr => hreqs r (by simp [hr])) n locals h.of_append
    have hroom : RoomFor s r := hs ▸ (h served r rest rfl).2
    rw [hrun] at hrun'
    cases hrun'
    have hmem : r.key ∈ s.keys := by
      obtain ⟨cells, free, hholds⟩ := hrep
      have hfree : free = [] := Seg.unique hholds.shape.blocks hempty
        (fun h0 => hholds.shape.free_ne_zero h0 rfl) (by simp)
      have hnone : s.room = 0 := by rw [← hholds.room, hfree, length_nil]
      by_contra hnew
      exact absurd (hroom hop hnew) (by omega)
    have hanswer : respond applySet s r = (false, s) := by
      rw [respond, hop, BoundedSet.spend_add_of_mem hmem]
    obtain ⟨x₁, hserve, _, hsame⟩ :=
      (implements_default hfuel hmax).serveRequest hrep (hreqs r (by simp)) hroom
    rw [hanswer] at hserve hsame
    exact ⟨x₁, hserve, hsame rfl⟩

end

/-- From `list_init`, the blocks are conserved exactly in the runs without leaks. -/
theorem conservesMemory_iff_leakFree (fuel n maxLevel : ℕ) (locals : Locals) (w : Device)
    (requests : List Request) (hfuel : node.numMemBlocks ≤ fuel)
    (hmax : 1 ≤ maxLevel ∧ maxLevel ≤ node.maxLevel) (hmode : w.memory.sreg 0 = 0)
    (hlevels : w.memory.sreg currMaxLevel = maxLevel)
    (hreqs : ∀ r ∈ requests, r.WellFormed maxLevel) :
    ConservesMemory fuel n requests locals w ↔
      Allowed (respond applySet) LeakFree emptySet requests := by
  constructor
  · intro h
    exact ConservesMemory.leakFree hfuel hmax hmode hlevels hreqs h
  · intro h
    exact conservesMemory_of_leakFree hfuel hmax hmode hlevels hreqs h

def addAndContains : List Request := [⟨0, 0, .add, 5, 2⟩, ⟨0, 0, .contains, 5, 0⟩]

theorem conservesMemory_addAndContains :
    ConservesMemory 1048576 3 addAndContains ⟨fun _ => 0, fun _ => 0⟩ freshDevice := by
  refine (conservesMemory_iff_leakFree 1048576 3 2 _ freshDevice addAndContains
    node_numMemBlocks.le (by decide) rfl rfl ?_).mpr ?_
  · intro r hr
    simp only [addAndContains, mem_cons, not_mem_nil, or_false] at hr
    rcases hr with rfl | rfl
    all_goals exact ⟨by decide, by decide⟩
  · simp [addAndContains, allowed_cons, LeakFree, RoomFor, BoundedSet.HasRoom, emptySet,
      node_numMemBlocks]

def addAndRemove : List Request := [⟨0, 0, .add, 5, 2⟩, ⟨0, 0, .remove, 5, 0⟩]

/-- One addition and one removal, both successful, leave a block on no list. -/
theorem addAndRemove_loses_a_block :
    ∃ x, runFromInit (executeDefault 1048576) 3 addAndRemove ⟨fun _ => 0, fun _ => 0⟩ freshDevice =
      some ([1, 1], x) ∧ ¬ Conserved x.2.memory := by
  have hreqs : ∀ r ∈ addAndRemove, r.WellFormed 2 := by
    intro r hr
    simp only [addAndRemove, mem_cons, not_mem_nil, or_false] at hr
    rcases hr with rfl | rfl
    all_goals exact ⟨by decide, by decide⟩
  have hroom : Allowed (respond applySet) RoomFor emptySet addAndRemove :=
    allowed_of_additions (by rw [node_numMemBlocks]; decide)
  obtain ⟨x, hrun, cells, free, hholds⟩ : ∃ x, runFromInit (executeDefault 1048576) 3 addAndRemove
      ⟨fun _ => 0, fun _ => 0⟩ freshDevice = some (_, x) ∧ Represents 2 _ x :=
    (implements_default node_numMemBlocks.le (by decide)).runFromInit rfl rfl hreqs hroom
  refine ⟨x, hrun, ?_⟩
  rw [hholds.conserved_iff, Balanced, node_numMemBlocks]
  simp [addAndRemove, respond, emptySet, BoundedSet.spend, applySet, node_numMemBlocks]

end SmcSim.SkipListKernel
