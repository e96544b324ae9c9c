import SmcSim.SkipListRefinement

/-!
# The variant that leaves out redundant pointers

`kernel_reduce_redundancy` writes no `NULL` below the top of a node, so its search
never meets one and works like the search of `kernel_default`. Its removal changes the
array `succs` only, so the variant answers like a set that never forgets a key, and it
can replace the default kernel exactly as long as no key is used again after it has
been added and removed.
-/

namespace SmcSim.SkipListKernel
open EffectPrograms PimMemory SkipListPrograms SkipListSearch RequestServers SetSemantics
open List CommandSpec

variable {w : Device} {i fuel level prev : ℕ}

theorem not_wp_walkLevel_null {Q : ℕ × ℕ → Device → Prop} :
    ¬ (spec (portSpec False)).wp (walkLevel node (readParameter i) fuel level prev 0) w Q := by
  cases fuel with
  | zero => exact id
  | succ fuel =>
    simp only [walkLevel, Prog.loop, Prog.bind_eq, wp_bind]
    rintro ⟨_, _, _, hload⟩
    exact hload

/-- Where the default search is defined it meets no `NULL`. -/
private theorem wp_findNodeReduced {keepGoing : Bool} {foundNode : ℕ} {locals : Locals}
    {Q : ℕ × ℕ × Locals → Device → Prop}
    (h : (spec (portSpec False)).wp
      (findNode node (readParameter i) keepGoing fuel level prev foundNode locals) w
      (fun a w' => Q (a.1, 0, a.2) w')) :
    (spec (portSpec False)).wp
      (findNodeReduced (readParameter i) keepGoing fuel level prev foundNode locals) w Q := by
  induction level generalizing w prev foundNode locals with
  | zero => exact h
  | succ level ih =>
    simp only [findNode, findNodeReduced, wp_bind] at h ⊢
    refine wp_mono h ?_
    intro curr w₁ h₁
    by_cases hc : curr = 0
    · subst hc
      exact absurd h₁ not_wp_walkLevel_null
    · rw [if_neg hc, wp_bind]
      refine wp_mono h₁ ?_
      intro c w₂ h₂
      by_cases hf : foundNode = 0
      · rw [if_pos hf] at h₂ ⊢
        simp only [wp_bind] at h₂ ⊢
        refine wp_mono h₂ ?_
        intro param w₃ h₃
        refine wp_mono h₃ ?_
        intro key w₄ h₄
        by_cases hk : param = key
        · rw [if_pos hk] at h₄ ⊢
          cases keepGoing with
          | true => exact ih h₄
          | false => exact h₄
        · rw [if_neg hk] at h₄ ⊢
          exact ih h₄
      · rw [if_neg hf] at h₂ ⊢
        exact ih h₂

variable {maxLevel : ℕ} {locals : Locals}

private theorem wp_addNodeReduced {Q : Locals → Device → Prop}
    (h : (spec (portSpec False)).wp
      (addNode node (readParameter i) (readRandomLevel i) fuel locals) w (fun _ => Q locals)) :
    (spec (portSpec False)).wp (addNodeReduced i fuel 0 locals) w Q := by
  simpa only [addNodeReduced, addNode, if_true, wp_bind, wp_pure] using h

/-- The removal reads the node and leaves the vault as it is. -/
private theorem wp_removeNodeReduced {foundNode : ℕ} {Q : Locals → Device → Prop}
    (hf : foundNode ≠ 0) (hQ : ∀ locals', Q locals' w) :
    (spec (portSpec False)).wp (removeNodeReduced foundNode 0 locals) w Q := by
  simp only [removeNodeReduced, copyDown, wp_bind, wp_load_of_ne hf]
  refine wp_mono
    (wp_forDown _ (fun _ _ w' => w' = w) ?_ _ locals w rfl) ?_
  · rintro level locals' w' rfl
    simp only [wp_bind, wp_load_of_ne hf]
    by_cases hn : w'.memory.vault foundNode (node.next level) ≠ 0
    · rw [if_pos hn]
      simp only [wp_bind, wp_load_of_ne hf, wp_pure]
    · rw [if_neg hn]
      exact rfl
  · rintro locals' _ rfl
    exact hQ locals'

/-- Apart from removals the two variants execute alike. -/
private theorem wp_executeReduced_of_default {op : Operation} (hop : op ≠ .remove)
    {Q : BitVec 8 × Locals → Device → Prop}
    (h : (spec (portSpec False)).wp (executeDefault fuel i (opCode op) locals) w Q) :
    (spec (portSpec False)).wp (executeReduced fuel i (opCode op) locals) w Q := by
  simp only [executeDefault, executeReduced, wp_bind] at h ⊢
  refine wp_mono h ?_
  intro head w₁ h₁
  refine wp_mono h₁ ?_
  intro levels w₂ h₂
  refine wp_findNodeReduced (wp_mono h₂ ?_)
  rintro ⟨found, locals'⟩ w₃ h₃
  rw [ite_opCode] at h₃ ⊢
  cases op with
  | contains => exact h₃
  | add =>
    dsimp only at h₃ ⊢
    by_cases hf : found = 0
    · rw [if_pos hf, wp_bind] at h₃ ⊢
      exact wp_addNodeReduced h₃
    · rw [if_neg hf] at h₃ ⊢
      exact h₃
  | remove => exact absurd rfl hop

theorem implements_reduced (hfuel : node.numMemBlocks ≤ fuel)
    (hmax : 1 ≤ maxLevel ∧ maxLevel ≤ node.maxLevel) :
    Implements (executeReduced fuel) retainSet maxLevel := by
  intro w i op locals s cells free h hk ht hroom
  have hblocks := h.blocks
  cases op with
  | contains | add =>
    exact wp_executeReduced_of_default (by decide) (wp_executeDefault hfuel hmax hk h ht hroom)
  | remove =>
    simp only [executeReduced, wp_bind, wp_readSreg, h.levels]
    refine wp_findNodeReduced (wp_findNode_head returns_readParameter h.shape hk (by omega) hmax.1
      hmax.2 ?_)
    intro found locals' hfound _
    rw [h.keys] at hfound
    rw [ite_opCode, BoundedSet.spend_retain_remove]
    dsimp only
    by_cases hmem : (w.ports i).parameter ∈ s.keys
    · rw [if_pos (hfound.mpr hmem), wp_bind, decide_eq_true hmem]
      refine wp_removeNodeReduced (hfound.mpr hmem) (fun locals'' => ?_)
      exact ⟨rfl, rfl, fun _ => rfl, cells, free, h⟩
    · have hf : found = 0 := not_ne_iff.mp (fun hf => hmem (hfound.mp hf))
      rw [if_neg (not_not.mpr hf), decide_eq_false hmem]
      exact ⟨rfl, rfl, fun _ => rfl, cells, free, h⟩

variable {n : ℕ} {requests : List Request}

/-- Both variants run on the requests and write the same return bits. -/
def SameBits (fuel n : ℕ) (requests : List Request) (locals : Locals) (w : Device) : Prop :=
  ∃ bits x y, runFromInit (executeDefault fuel) n requests locals w = some (bits, x) ∧
    runFromInit (executeReduced fuel) n requests locals w = some (bits, y)

def ReusesRemovedKey (requests : List Request) : Prop :=
  ∃ a i j, [a, i, j].Sublist requests ∧ a.op = .add ∧ i.op = .remove ∧ a.key = i.key ∧
    j.key = i.key

theorem reusesRemovedKey_iff :
    ReusesRemovedKey requests ↔ ∃ k, DisagreeOn ∅ ∅ k (requests.map Request.call) := by
  simp only [DisagreeOn, pending, Finset.notMem_empty, if_false, map_cons, map_nil,
    cons_append, nil_append, sublist_map_iff]
  constructor
  · rintro ⟨a, i, j, hsub, ha, hi, hai, hji⟩
    exact ⟨i.key, j.op, [a, i, j], hsub, by simp [Request.call, ha, hi, hai, hji]⟩
  · rintro ⟨k, op, l, hsub, hl⟩
    obtain ⟨a, l, rfl, ha, hl⟩ := map_eq_cons_iff.mp hl.symm
    obtain ⟨i, l, rfl, hi, hl⟩ := map_eq_cons_iff.mp hl
    obtain ⟨j, l, rfl, hj, hl⟩ := map_eq_cons_iff.mp hl
    obtain rfl := map_eq_nil_iff.mp hl
    simp only [Request.call, Prod.mk.injEq] at ha hi hj
    exact ⟨a, i, j, hsub, ha.1, hi.1, ha.2.trans hi.2.symm, hj.2.trans hi.2.symm⟩

/-- The answers of the variant are those of a set that never forgets. -/
theorem answerAll_respond_retain (requests : List Request) :
    (answerAll (fun s q => retainSet s q.1 q.2) ∅ (requests.map Request.call)).1 =
      (answerAll (respond retainSet) emptySet requests).1 := by
  rw [answerAll_map]
  exact congrArg Prod.fst (answerAll_of_image BoundedSet.keys (fun _ _ => rfl) emptySet requests)

section

variable (hfuel : node.numMemBlocks ≤ fuel) (hmax : 1 ≤ maxLevel ∧ maxLevel ≤ node.maxLevel)
variable (hmode : w.memory.sreg 0 = 0) (hlevels : w.memory.sreg currMaxLevel = maxLevel)
variable (hreqs : ∀ r ∈ requests, r.WellFormed maxLevel)
variable (hpool : additions ∅ (requests.map Request.call) ≤ node.numMemBlocks - 2)
include hfuel hmax hmode hlevels hreqs hpool

theorem both_run :
    (∃ x, runFromInit (executeDefault fuel) n requests locals w =
      some ((answerAll (respond applySet) emptySet requests).1.map retvalBit, x)) ∧
    ∃ y, runFromInit (executeReduced fuel) n requests locals w =
      some ((answerAll (respond retainSet) emptySet requests).1.map retvalBit, y) := by
  have hroom := BoundedSet.allowed_of_additions_le (s := emptySet) hpool
  have hroom' := BoundedSet.allowed_retainSet (Finset.Subset.refl _) (le_refl _) hroom
  obtain ⟨x, hx, _⟩ := (implements_default hfuel hmax).runFromInit hmode hlevels hreqs hroom.of_map
  obtain ⟨y, hy, _⟩ := (implements_reduced hfuel hmax).runFromInit hmode hlevels hreqs hroom'.of_map
  exact ⟨⟨x, hx⟩, y, hy⟩

theorem sameBits_iff_answers :
    SameBits fuel n requests locals w ↔ (answerAll (respond retainSet) emptySet requests).1 =
      (answerAll (respond applySet) emptySet requests).1 := by
  obtain ⟨⟨x, hx⟩, y, hy⟩ := both_run hfuel hmax hmode hlevels hreqs hpool
  constructor
  · rintro ⟨bits, x', y', hx', hy'⟩
    rw [hx] at hx'
    rw [hy] at hy'
    cases hx'
    have hbits := congrArg Prod.fst (Option.some.inj hy')
    exact map_injective_iff.mpr retvalBit_injective hbits
  · intro heq
    exact ⟨_, x, y, hx, heq ▸ hy⟩

end

/-- From `list_init`, the variant writes the return bits of the default kernel exactly on
the requests that use no key again after adding and removing it. -/
theorem sameBits_iff_no_reuse (fuel n maxLevel : ℕ) (locals : Locals) (w : Device)
    (requests : List Request) (hfuel : node.numMemBlocks ≤ fuel)
    (hmax : 1 ≤ maxLevel ∧ maxLevel ≤ node.maxLevel) (hmode : w.memory.sreg 0 = 0)
    (hlevels : w.memory.sreg currMaxLevel = maxLevel)
    (hreqs : ∀ r ∈ requests, r.WellFormed maxLevel)
    (hpool : additions ∅ (requests.map Request.call) ≤ node.numMemBlocks - 2) :
    SameBits fuel n requests locals w ↔ ¬ ReusesRemovedKey requests := by
  have hdefault := congrArg Prod.fst (answerAll_respond requests)
  rw [sameBits_iff_answers hfuel hmax hmode hlevels hreqs hpool, reusesRemovedKey_iff, not_exists,
    ← retainSet_answers_iff (Finset.Subset.refl _), answerAll_respond_retain]
  exact iff_of_eq (congrArg _ hdefault.symm)

def addRemoveContains : List Request :=
  [⟨0, 0, .add, 5, 2⟩, ⟨0, 0, .remove, 5, 0⟩, ⟨0, 0, .contains, 5, 0⟩]

/-- The default kernel no longer has the key; the variant still finds it. -/
theorem addRemoveContains_bits_differ :
    (∃ x, runFromInit (executeDefault 1048576) 3 addRemoveContains ⟨fun _ => 0, fun _ => 0⟩
        freshDevice = some ([1, 1, 0], x)) ∧
    ∃ y, runFromInit (executeReduced 1048576) 3 addRemoveContains ⟨fun _ => 0, fun _ => 0⟩
        freshDevice = some ([1, 1, 1], y) := by
  have hreqs : ∀ r ∈ addRemoveContains, r.WellFormed 2 := by
    intro r hr
    simp only [addRemoveContains, mem_cons, not_mem_nil, or_false] at hr
    rcases hr with rfl | rfl | rfl
    all_goals exact ⟨by decide, by decide⟩
  exact both_run node_numMemBlocks.le (by decide) rfl rfl hreqs (by rw [node_numMemBlocks]; decide)

def addContainsRemove : List Request :=
  [⟨0, 0, .add, 5, 2⟩, ⟨0, 0, .contains, 5, 0⟩, ⟨0, 0, .remove, 5, 0⟩]

theorem sameBits_addContainsRemove :
    SameBits 1048576 3 addContainsRemove ⟨fun _ => 0, fun _ => 0⟩ freshDevice := by
  refine (sameBits_iff_no_reuse 1048576 3 2 _ freshDevice addContainsRemove
    node_numMemBlocks.le (by decide) rfl rfl ?_ (by rw [node_numMemBlocks]; decide)).mpr ?_
  · intro r hr
    simp only [addContainsRemove, mem_cons, not_mem_nil, or_false] at hr
    rcases hr with rfl | rfl | rfl
    all_goals exact ⟨by decide, by decide⟩
  · rintro ⟨a, i, j, hsub, _, hi, _⟩
    cases hsub.eq_of_length rfl
    cases hi

end SmcSim.SkipListKernel
