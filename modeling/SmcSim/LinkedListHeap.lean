import SmcSim.LinkedListSweep
import SmcSim.SkipListInit
import SmcSim.SkipListUpdate

/-!
# The heap of the linked list kernel over a whole run

The kernel initialises the vault, adds initial nodes as skip list nodes, and then
serves batches on the level-0 chain, which it reads through the smaller `node_t`.
Chain and free list partition the blocks of the vault throughout.
-/

namespace SmcSim.LinkedListKernel
open EffectPrograms PimMemory ListSegments SkipListPrograms SkipListShape SkipListSearch
open SkipListUpdate SkipListInit
open List CommandSpec

/-! ### Runs -/

/-- One initial node as the host submits it: the info bits the host has at hand, the
key, and the height drawn for the node. -/
structure InitialAdd where
  infoBits : BitVec 16
  key : ℕ
  level : ℕ

def Ports.setSlot (s : Ports) (i : ℕ) (slot : RequestSlot) : Ports :=
  { s with slots := Function.update s.slots i slot }

/-- Submit an initial node through slot 0 and `PIM_SREG[1]`. -/
def submitInitial (a : InitialAdd) (w : Machine Ports) : Machine Ports where
  memory := w.memory.setSreg 1 a.level
  ports := w.ports.setSlot 0 ⟨setRequest (setOperation a.infoBits addOp), a.key⟩

/-- One round of the kernel, `none` if it ends or gets stuck. -/
def round (fuel n : ℕ) (locals : Locals) (w : Machine Ports) : Option (Locals × Machine Ports) :=
  ((kernelRound fuel n locals).run (handler portHandler) w).bind
    (fun r => r.1.map (fun locals' => (locals', r.2)))

def addInitialNodes (fuel n : ℕ) :
    List InitialAdd → Locals → Machine Ports → Option (Locals × Machine Ports)
  | [], locals, w => some (locals, w)
  | a :: adds, locals, w =>
      (round fuel n locals (submitInitial a w)).bind (fun r => addInitialNodes fuel n adds r.1 r.2)

/-- The host resets the timestamp counter and sets the kernel to ops mode. -/
def enterOps (w : Machine Ports) : Machine Ports :=
  { w with memory := (w.memory.setSreg 2 0).setSreg 0 1 }

/-- Rounds in ops mode, each over the slots as the hosts have filled them. -/
def serveBatches (fuel n : ℕ) :
    List (ℕ → RequestSlot) → Locals → Machine Ports → Option (Locals × Machine Ports)
  | [], locals, w => some (locals, w)
  | slots :: batches, locals, w =>
      (round fuel n locals { w with ports := { w.ports with slots := slots } }).bind
        (fun r => serveBatches fuel n batches r.1 r.2)

/-! ### Ports of the mode that adds initial nodes -/

variable {w : Machine Ports} {i : ℕ}

abbrev portSpec : CommandSpec Port PortRes Ports := ofHandler portHandler

@[simp] theorem wp_readInfoBits_exact {Q : BitVec 16 → Machine Ports → Prop} :
    (spec portSpec).wp (readInfoBits i) w Q ↔ Q (w.ports.slots i).infoBits w := by
  constructor
  · rintro ⟨_, _, ho, hq⟩
    cases ho
    exact hq
  · intro hq
    exact ⟨_, _, rfl, hq⟩

@[simp] theorem wp_readParameter_exact {Q : ℕ → Machine Ports → Prop} :
    (spec portSpec).wp (readParameter i) w Q ↔ Q (w.ports.slots i).parameter w := by
  constructor
  · rintro ⟨_, _, ho, hq⟩
    cases ho
    exact hq
  · intro hq
    exact ⟨_, _, rfl, hq⟩

@[simp] theorem wp_writeInfoBits_exact {v : BitVec 16} {Q : Unit → Machine Ports → Prop} :
    (spec portSpec).wp (writeInfoBits i v) w Q ↔ Q () { w with
      ports := w.ports.setSlot i ⟨v, (w.ports.slots i).parameter⟩ } := by
  constructor
  · rintro ⟨_, _, ho, hq⟩
    cases ho
    exact hq
  · intro hq
    exact ⟨_, _, rfl, hq⟩

/-- A round that satisfies the exact specification takes place. -/
theorem round_of_wp {fuel n : ℕ} {locals : Locals} {P : Locals → Machine Ports → Prop}
    (h : (spec portSpec).wp (kernelRound fuel n locals) w
      (fun r w' => ∃ locals', r = some locals' ∧ P locals' w')) :
    ∃ locals' w', round fuel n locals w = some (locals', w') ∧ P locals' w' := by
  obtain ⟨_, ⟨m, s⟩, ⟨_, _⟩, hrun, ⟨locals', rfl, hP⟩, rfl, rfl⟩ :=
    (spec portSpec).run_of_wp (spec_sound (ofHandler_sound portHandler)) id
      (s := w) ⟨rfl, rfl⟩ h
  exact ⟨locals', ⟨m, s⟩, by simp [round, hrun], hP⟩

/-! ### The mode that adds initial nodes -/

/-- The invariant while initial nodes are added: the skip list holds `keys`. -/
structure Building (m : Memory) (cells free : List ℕ) (keys : Finset ℕ) : Prop where
  mode : m.sreg 0 = 3
  shape : SkipShape skiplistNode 13 m cells free
  blocks : (cells ++ free).Perm (blockAddrs skiplistNode skiplistNode.numMemBlocks)
  keys : keysBetween (keyOf skiplistNode m) cells = keys

theorem Building.length {m : Memory} {cells free : List ℕ} {keys : Finset ℕ}
    (h : Building m cells free keys) :
    keys.card + 2 + free.length = skiplistNode.numMemBlocks := by
  have hlen := h.blocks.length_eq
  have hcells := h.shape.length_cells
  rw [h.keys] at hcells
  rw [length_append, hcells] at hlen
  simpa [blockAddrs] using hlen

section Building

variable (fuel n : ℕ) (locals : Locals) {cells free : List ℕ}
variable {keys : Finset ℕ}

/-- The round that initialises the vault. -/
theorem wp_kernelRound_init (hmode : w.memory.sreg 0 = 0) :
    (spec portSpec).wp (kernelRound fuel n locals) w (fun r w' => ∃ locals', r = some locals' ∧
      ∃ cells free, Building w'.memory cells free ∅) := by
  simp only [kernelRound, wp_bind, wp_readSreg, hmode, if_true,
    LinkedListKernel.listInit]
  refine wp_listInit 13 (by decide) (by decide) (by rw [skiplistNode_numMemBlocks]; decide) ?_
  intro m' a b free hshape hperm hsreg
  simp only [wp_writeSreg, wp_pure]
  refine ⟨locals, rfl, [a, b], free, by simp, hshape.congr_sreg rfl ?_ ?_ ?_, hperm, ?_⟩
  · simp [freeBlocksHead]
  · simp [listHead]
  · simp [listTail]
  · have hcard := hshape.length_cells
    have hempty : (keysBetween (keyOf skiplistNode m') [a, b]).card = 0 := by simpa using hcard.symm
    exact Finset.card_eq_zero.mp hempty

theorem wp_kernelRound_mode3 {Q : Option Locals → Machine Ports → Prop}
    (hmode : w.memory.sreg 0 = 3)
    (hQ : (spec portSpec).wp (addInitialNode fuel locals) w (fun locals' => Q (some locals'))) :
    (spec portSpec).wp (kernelRound fuel n locals) w Q := by
  simpa [kernelRound, hmode] using hQ

theorem wp_kernelRound_add (h : Building w.memory cells free keys) {k t : ℕ}
    (hvalid : Valid (w.ports.slots 0).infoBits) (hparam : (w.ports.slots 0).parameter = k)
    (hk : KeyInRange k) (hlevel : w.memory.sreg 1 = t) (ht : 1 ≤ t ∧ t ≤ 13)
    (hroom : (insert k keys).card + 2 ≤ skiplistNode.numMemBlocks)
    (hfuel : skiplistNode.numMemBlocks + n + 2 ≤ fuel) :
    (spec portSpec).wp (kernelRound fuel n locals) w (fun r w' => ∃ locals', r = some locals' ∧
      ∃ cells' free', Building w'.memory cells' free' (insert k keys)) := by
  have hc : checkValidRequest (w.ports.slots 0).infoBits ≠ 0 := hvalid
  have hlen := h.length
  have hcells := h.shape.length_cells
  rw [h.keys] at hcells
  have hmany : 14 ≤ skiplistNode.numMemBlocks := by
    rw [skiplistNode_numMemBlocks]
    decide
  have hreturns : ∀ m, Returns portSpec (readParameter 0) ⟨m, w.ports⟩ k :=
    fun m Q hQ => wp_readParameter_exact.mpr (hparam ▸ hQ)
  refine wp_kernelRound_mode3 fuel n locals h.mode ?_
  simp only [addInitialNode, wp_bind, wp_readSreg, wp_readInfoBits_exact, hc, ne_eq,
    not_false_eq_true, if_true]
  refine wp_findNode_head (hreturns w.memory) h.shape hk (by omega) (by decide) (by decide) ?_
  intro found locals' hfound hfd
  rw [h.keys] at hfound
  by_cases hf : found = 0
  · have hnew : k ∉ keys := fun hmem => hfound.mpr hmem hf
    have hnew' : k ∉ cells.map (keyOf skiplistNode w.memory) := by
      rw [← mem_keysBetween hk, h.keys]
      exact hnew
    rw [Finset.card_insert_of_notMem hnew] at hroom
    cases free with
    | nil =>
      simp only [length_nil] at hlen
      omega
    | cons b free =>
      have hb : b ≠ 0 := h.shape.free_ne_zero mem_cons_self
      have har : ∀ l < t, Around skiplistNode w.memory cells l k (locals'.preds l)
          (locals'.succs l) := fun l hl => hfd.around (.inl hf) l (by omega)
      have htmax : t ≤ skiplistNode.maxLevel := ht.2.trans (by decide)
      simp only [hf, if_true, wp_bind]
      refine wp_addNode (t := t) h.shape.blocks hb ?_ (hreturns _) htmax
        (fun l hl => h.shape.ne_zero (har l hl).left_mem.1) (by omega) ?_
      · intro Q hQ
        simpa [hlevel, freeBlocksHead] using hQ
      · simp only [wp_readInfoBits_exact, wp_writeInfoBits_exact, wp_pure]
        refine ⟨locals', rfl, _, free, ?_,
          insertNode_shape h.shape hk hnew' ht.1 ht.2 htmax har, ?_, ?_⟩
        · rw [insertNode_sreg (by decide)]
          exact h.mode
        · exact (insertNode_perm h.shape).trans h.blocks
        · rw [keysBetween_insertNode h.shape hk htmax, h.keys]
  · have hmem : k ∈ keys := hfound.mp hf
    simp only [hf, if_false, wp_bind, wp_readInfoBits_exact, wp_writeInfoBits_exact,
      wp_pure]
    rw [Finset.insert_eq_of_mem hmem]
    exact ⟨locals', rfl, cells, free, h⟩

theorem addInitialNodes_building (adds : List InitialAdd) (h : Building w.memory cells free keys)
    (hadds : ∀ a ∈ adds, KeyInRange a.key ∧ 1 ≤ a.level ∧ a.level ≤ 13)
    (hroom : (keys ∪ (adds.map InitialAdd.key).toFinset).card + 2 ≤ skiplistNode.numMemBlocks)
    (hfuel : skiplistNode.numMemBlocks + n + 2 ≤ fuel) :
    ∃ locals' w' cells' free', addInitialNodes fuel n adds locals w = some (locals', w') ∧
      Building w'.memory cells' free' (keys ∪ (adds.map InitialAdd.key).toFinset) := by
  induction adds generalizing locals w cells free keys with
  | nil => exact ⟨locals, w, cells, free, rfl, by simpa using h⟩
  | cons a adds ih =>
    obtain ⟨hk, hlevel⟩ := hadds a mem_cons_self
    have hunion : keys ∪ ((a :: adds).map InitialAdd.key).toFinset =
        insert a.key keys ∪ (adds.map InitialAdd.key).toFinset := by
      rw [map_cons, toFinset_cons, Finset.union_insert, Finset.insert_union]
    rw [hunion] at hroom ⊢
    have hbuild : Building (submitInitial a w).memory cells free keys := by
      refine ⟨by simpa [submitInitial] using h.mode, h.shape.congr_sreg rfl ?_ ?_ ?_,
        h.blocks, h.keys⟩
      · simp [submitInitial, freeBlocksHead]
      · simp [submitInitial, listHead]
      · simp [submitInitial, listTail]
    have hle : (insert a.key keys).card ≤
        (insert a.key keys ∪ (adds.map InitialAdd.key).toFinset).card :=
      Finset.card_le_card Finset.subset_union_left
    obtain ⟨locals₁, w₁, hrun, cells₁, free₁, h₁⟩ := round_of_wp
      (wp_kernelRound_add fuel n locals hbuild (by simp [submitInitial, Ports.setSlot])
        (by simp [submitInitial, Ports.setSlot]) hk (by simp [submitInitial]) hlevel
          (by omega) hfuel)
    obtain ⟨locals₂, w₂, cells₂, free₂, hrest, h₂⟩ := ih locals₁ h₁
      (fun b hb => hadds b (mem_cons_of_mem a hb)) hroom
    exact ⟨locals₂, w₂, cells₂, free₂, by simp [addInitialNodes, hrun, hrest], h₂⟩

end Building

/-! ### The whole run -/

/-- The free list and the level-0 chain: both end at `NULL`, the chain is strictly
sorted, and together they hold every block of the vault exactly once. -/
structure HeapInvariant (m : Memory) (cells free : List ℕ) : Prop where
  chain : Seg (next m) (m.sreg linkedListHead) cells 0
  freeList : FreeList m free
  sorted : (cells.map (key m)).Pairwise (· < ·)
  distinct : (cells ++ free).Nodup
  blocks : (cells ++ free).Perm (blockAddrs skiplistNode skiplistNode.numMemBlocks)

variable {fuel n : ℕ} {cells free : List ℕ}

theorem serveBatches_shape (locals : Locals) (w : Machine Ports) (batches : List (ℕ → RequestSlot))
    (hmode : w.memory.sreg 0 = 1) (h : ListShape w.memory cells free)
    (hbatches : ∀ slots ∈ batches, ∀ i < n, Valid (slots i).infoBits →
      IsRequest (slots i) ∧ KeyInRange (slots i).parameter)
    (hfuel : cells.length + free.length + n + 2 ≤ fuel) :
    ∃ locals' w' cells' free', serveBatches fuel n batches locals w = some (locals', w') ∧
      ListShape w'.memory cells' free' ∧ (cells' ++ free').Perm (cells ++ free) := by
  induction batches generalizing locals w cells free with
  | nil => exact ⟨locals, w, cells, free, rfl, h, .refl _⟩
  | cons slots batches ih =>
    obtain ⟨m', s', g', seen, order, hrun, _, _, hbatch⟩ := run_kernelRound_ops locals
      { w.ports with slots := slots } hmode h (hbatches slots mem_cons_self) hfuel
    obtain ⟨hsreg, cells₁, free₁, hshape, hperm, _⟩ := hbatch.vault
    have hlen := hperm.length_eq
    simp only [length_append] at hlen
    obtain ⟨locals₂, w₂, cells₂, free₂, hrest, hshape₂, hperm₂⟩ := ih locals ⟨m', s'⟩
      ((hsreg 0 (by decide)).trans hmode) hshape
      (fun b hb => hbatches b (mem_cons_of_mem slots hb)) (by omega)
    refine ⟨locals₂, w₂, cells₂, free₂, ?_, hshape₂, hperm₂.trans hperm⟩
    simp [serveBatches, round, hrun, hrest]

/-- From `list_init` through any initial nodes and any batches, the chain and the free
list partition the vault, and the chain that ops mode finds through `node_t` is the
level-0 chain that the initial nodes were linked into. -/
theorem heap_invariant_of_run (fuel n : ℕ) (locals : Locals) (w : Machine Ports)
    (adds : List InitialAdd) (batches : List (ℕ → RequestSlot)) (hmode : w.memory.sreg 0 = 0)
    (hadds : ∀ a ∈ adds, KeyInRange a.key ∧ 1 ≤ a.level ∧ a.level ≤ 13)
    (hroom : (adds.map InitialAdd.key).toFinset.card ≤ skiplistNode.numMemBlocks - 2)
    (hbatches : ∀ slots ∈ batches, ∀ i < n, Valid (slots i).infoBits →
      IsRequest (slots i) ∧ KeyInRange (slots i).parameter)
    (hfuel : skiplistNode.numMemBlocks + n + 2 ≤ fuel) :
    ∃ locals₀ w₀ locals₁ w₁ locals₂ w₂ cells₁ free₁ cells₂ free₂,
      round fuel n locals w = some (locals₀, w₀) ∧
      addInitialNodes fuel n adds locals₀ w₀ = some (locals₁, w₁) ∧
      HeapInvariant w₁.memory cells₁ free₁ ∧
      keySet w₁.memory cells₁ = (adds.map InitialAdd.key).toFinset ∧
      Seg (nextOf skiplistNode w₁.memory 0) (w₁.memory.sreg linkedListHead) cells₁ 0 ∧
      cells₁.map (keyOf skiplistNode w₁.memory) = cells₁.map (key w₁.memory) ∧
      serveBatches fuel n batches locals₁ (enterOps w₁) = some (locals₂, w₂) ∧
      HeapInvariant w₂.memory cells₂ free₂ := by
  obtain ⟨locals₀, w₀, hinit, cells₀, free₀, h₀⟩ :=
    round_of_wp (wp_kernelRound_init fuel n locals hmode)
  have hmany : 2 ≤ skiplistNode.numMemBlocks := by
    rw [skiplistNode_numMemBlocks]
    decide
  obtain ⟨locals₁, w₁, cells₁, free₁, hrun₁, h₁⟩ := addInitialNodes_building fuel n locals₀
    adds h₀ hadds (by rw [Finset.empty_union]; omega) hfuel
  rw [Finset.empty_union] at h₁
  have hlist := listShape_of_skipShape h₁.shape
  have hops : ListShape (enterOps w₁).memory cells₁ free₁ := by
    refine hlist.congr_sreg rfl ?_ ?_ ?_
    · simp [enterOps, freeBlocksHead]
    · simp [enterOps, linkedListHead, listHead]
    · simp [enterOps, linkedListTail, listTail]
  have hlen := h₁.blocks.length_eq
  simp only [length_append, blockAddrs, length_map, length_range] at hlen
  have hfuel' : cells₁.length + free₁.length + n + 2 ≤ fuel := by omega
  obtain ⟨locals₂, w₂, cells₂, free₂, hrun₂, hshape₂, hperm₂⟩ := serveBatches_shape
    locals₁ (enterOps w₁) batches (by simp [enterOps]) hops hbatches hfuel'
  exact ⟨locals₀, w₀, locals₁, w₁, locals₂, w₂, cells₁, free₁, cells₂, free₂, hinit, hrun₁,
    ⟨hlist.chain, hlist.blocks, hlist.sorted, hlist.distinct, h₁.blocks⟩, h₁.keys, hlist.chain, rfl,
    hrun₂, hshape₂.chain, hshape₂.blocks, hshape₂.sorted, hshape₂.distinct, hperm₂.trans h₁.blocks⟩

def blankDevice : Machine Ports := ⟨⟨fun _ _ => 0, fun _ => 0⟩, ⟨fun _ => ⟨0, 0⟩, [], []⟩⟩

theorem heap_invariant_of_two_adds_and_a_batch :
    ∃ locals₀ w₀ locals₁ w₁ locals₂ w₂ cells₂ free₂,
      round 2097157 3 ⟨fun _ => 0, fun _ => 0⟩ blankDevice = some (locals₀, w₀) ∧
      addInitialNodes 2097157 3 [⟨0, 5, 2⟩, ⟨0, 9, 13⟩] locals₀ w₀ = some (locals₁, w₁) ∧
      serveBatches 2097157 3 [threeRequests] locals₁ (enterOps w₁) = some (locals₂, w₂) ∧
      HeapInvariant w₂.memory cells₂ free₂ := by
  have hblocks := skiplistNode_numMemBlocks
  obtain ⟨locals₀, w₀, locals₁, w₁, locals₂, w₂, _, _, cells₂, free₂, h₀, h₁, _, _, _, _, h₂,
    hheap⟩ :=
    heap_invariant_of_run 2097157 3 ⟨fun _ => 0, fun _ => 0⟩ blankDevice [⟨0, 5, 2⟩, ⟨0, 9, 13⟩]
      [threeRequests] rfl (by decide) (by rw [hblocks]; decide)
      (by
        intro slots hslots i hi _
        obtain rfl := mem_singleton.mp hslots
        exact threeRequests_isRequest i hi)
      (by omega)
  exact ⟨locals₀, w₀, locals₁, w₁, locals₂, w₂, cells₂, free₂, h₀, h₁, h₂, hheap⟩

end SmcSim.LinkedListKernel
