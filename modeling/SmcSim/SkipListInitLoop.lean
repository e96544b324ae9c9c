import SmcSim.SkipListRefinement

/-!
# The host's loop that fills a partition

`main` adds keys through slot 0 until it has counted as many successes as the
partition should hold. It sets the operation once, before the loop, and reuses the
info bits it reads back; the kernel only sets the return bit. After the first success
the bit stays set, so every later request is counted.
-/

namespace SmcSim.SkipListKernel
open EffectPrograms PimMemory SkipListPrograms SkipListShape SetSemantics CommandSpec Option

/-! ### The loop -/

structure Draw where
  key : ℕ
  level : ℕ

def fillSlot (draw : Draw) (info : BitVec 8) (w : Device) : Device :=
  ⟨w.memory, Function.update w.ports 0 ⟨setRequest info, draw.level, draw.key⟩⟩

/-- Fill slot 0, let the kernel run a round, and read the info bits back. -/
def initRequest (fuel n : ℕ) (draw : Draw) (info : BitVec 8) (x : Locals × Device) :
    Option (BitVec 8 × Locals × Device) :=
  (round (executeDefault fuel) n x.1 (fillSlot draw info x.2)).map
    fun y => ((y.2.ports 0).infoBits, y)

/-- `while (size < (INITIAL_LIST_SIZE / NUM_PARTITIONS))`, at most `rounds` times. -/
def initLoop (fuel n target : ℕ) (draws : ℕ → Draw) :
    ℕ → ℕ → ℕ → BitVec 8 → Locals × Device → Option (ℕ × Locals × Device)
  | 0, _, size, _, x => if size < target then none else some (size, x)
  | rounds + 1, j, size, info, x =>
      if size < target then
        (initRequest fuel n (draws j) info x).bind fun r =>
          initLoop fuel n target draws rounds (j + 1)
            (if getRetval r.1 = 1 then size + 1 else size) r.1 r.2
      else
        some (size, x)

/-- The loop of one partition, after the kernel has initialised its list. -/
def hostInit (fuel n target : ℕ) (draws : ℕ → Draw) (rounds : ℕ) (info : BitVec 8) (locals : Locals)
    (w : Device) : Option (ℕ × Locals × Device) :=
  (round (executeDefault fuel) n locals w).bind
    (initLoop fuel n target draws rounds 0 0 (setOperation info addOp))

/-- The loop leaves, and then the list holds as many keys as the host has counted. A kernel that
writes through the NULL of an empty pool has failed. -/
def CountsInsertions (fuel n target : ℕ) (draws : ℕ → Draw) (info : BitVec 8) (locals : Locals)
    (w : Device) : Prop :=
  (∃ rounds, (hostInit fuel n target draws rounds info locals w).isSome) ∧
    ∀ rounds size x, hostInit fuel n target draws rounds info locals w = some (size, x) →
      size = target ∧ ∃ cells, LevelZero x.2.memory cells ∧
        (keysBetween (keyOf node x.2.memory) cells).card = target

def keysDrawn (draws : ℕ → Draw) (t : ℕ) : Finset ℕ :=
  (Finset.range t).image (fun j => (draws j).key)

/-! ### Rounds with one request -/

variable {P : Prop} {execute : Variant} {w : Device} {locals : Locals} {n : ℕ}

theorem wp_forUp_quiet {Q : Locals → Device → Prop} (count i : ℕ)
    (h : ∀ j, i ≤ j → j < i + count → ¬ Valid (w.ports j).infoBits) (hQ : Q locals w) :
    (spec (portSpec P)).wp (Prog.forUp (serveSlot execute) count i locals) w Q := by
  induction count generalizing i with
  | zero => exact hQ
  | succ count ih =>
    simp only [Prog.forUp, Prog.bind_eq, wp_bind]
    refine wp_serveSlot_of_not_valid (h i (le_refl i) (by omega)) ?_
    exact ih (i + 1) (fun j hj hlt => h j (by omega) (by omega))

theorem wp_kernelRound_first {Q : Option Locals → Device → Prop} (hmode : w.memory.sreg 0 = 1)
    (hn : 0 < n) (h : (spec (portSpec P)).wp (serveSlot execute 0 locals) w (fun locals' w' =>
      (∀ i, 1 ≤ i → i < n → ¬ Valid (w'.ports i).infoBits) ∧ Q (some locals') w')) :
    (spec (portSpec P)).wp (kernelRound execute n locals) w Q := by
  obtain ⟨n, rfl⟩ : ∃ k, n = k + 1 := ⟨n - 1, by omega⟩
  simp only [kernelRound, wp_bind, wp_readSreg, hmode, one_ne_zero, if_false]
  rw [if_neg (by decide)]
  simp only [Prog.forUp, Prog.bind_eq, wp_bind]
  refine wp_mono h ?_
  rintro locals' w' ⟨hquiet, hQ⟩
  exact wp_forUp_quiet n 1 (fun j hj hlt => hquiet j hj (by omega)) hQ

/-! ### The info bits in the loop -/

theorem getRetval_setRequest (v : BitVec 8) : getRetval (setRequest v) = getRetval v := by
  simp [getRetval, setRequest, BitVec.and_or_distrib_right]

theorem extractOperation_setRequest (v : BitVec 8) :
    extractOperation (setRequest v) = extractOperation v := by
  simp [extractOperation, setRequest, BitVec.and_or_distrib_right]

theorem extractOperation_answer (v : BitVec 8) (b : Bool) :
    extractOperation (clearRequest (setRetval v (retvalBit b))) = extractOperation v := by
  simp only [extractOperation, clearRequest, setRetval, BitVec.and_assoc]
  cases b <;> simp [retvalBit, BitVec.and_or_distrib_right]

theorem setOperation_add (v : BitVec 8) :
    extractOperation (setOperation v addOp) = addOp ∧ getRetval (setOperation v addOp) = 0 := by
  simp [extractOperation, getRetval, setOperation, addOp, BitVec.and_or_distrib_right,
    BitVec.and_assoc]

/-! ### The state of the loop -/

/-- The set that the list holds after `j` rounds. -/
def initSet (draws : ℕ → Draw) (j : ℕ) : BoundedSet ℕ :=
  ⟨keysDrawn draws j, node.numMemBlocks - 2 - (keysDrawn draws j).card⟩

/-- After `j` rounds of the loop: the list holds the keys drawn, and the return bit in the
host's hands is set from the first round on. -/
structure InitState (n maxLevel : ℕ) (draws : ℕ → Draw) (j : ℕ) (info : BitVec 8)
    (x : Locals × Device) : Prop where
  holds : Represents maxLevel (initSet draws j) x
  fits : (keysDrawn draws j).card ≤ node.numMemBlocks - 2
  operation : extractOperation info = addOp
  retval : getRetval info = retvalBit (decide (0 < j))
  quiet : ∀ i, 1 ≤ i → i < n → ¬ Valid (x.2.ports i).infoBits

variable {fuel maxLevel j : ℕ} {draws : ℕ → Draw} {info : BitVec 8} {x : Locals × Device}

theorem keysDrawn_succ : keysDrawn draws (j + 1) = insert (draws j).key (keysDrawn draws j) := by
  rw [keysDrawn, Finset.range_add_one, Finset.image_insert]
  rfl

theorem initSet_succ :
    ((initSet draws j).spend applySet .add (draws j).key).2 = initSet draws (j + 1) := by
  by_cases hmem : (draws j).key ∈ keysDrawn draws j
  · rw [BoundedSet.spend_add_of_mem hmem]
    rw [initSet, initSet, keysDrawn_succ, Finset.insert_eq_of_mem hmem]
  · rw [BoundedSet.spend_add_of_notMem hmem, initSet, initSet, keysDrawn_succ,
      Finset.card_insert_of_notMem hmem, Nat.sub_sub _ _ 1]

/-- The first key is new, and afterwards the host's return bit is set. -/
theorem retval_succ :
    retvalBit (decide (0 < j)) |||
      retvalBit ((initSet draws j).spend applySet .add (draws j).key).1 = retvalBit true := by
  cases j with
  | zero =>
    rw [BoundedSet.spend_add_of_notMem (by simp [initSet, keysDrawn])]
    change retvalBit false ||| retvalBit true = retvalBit true
    decide
  | succ j =>
    rw [decide_eq_true (Nat.succ_pos j)]
    cases ((initSet draws (j + 1)).spend applySet .add (draws (j + 1)).key).1 <;> decide

/-- The host counts the round that it has just made. -/
theorem InitState.counted (h : InitState n maxLevel draws (j + 1) info x) : getRetval info = 1 := by
  rw [h.retval, decide_eq_true (Nat.succ_pos j)]
  rfl

theorem initLoop_of_counted {target rounds : ℕ} :
    initLoop fuel n target draws rounds j target info x = some (target, x) := by
  cases rounds with
  | zero | succ => rw [initLoop, if_neg (lt_irrefl target)]

theorem initState_zero (info : BitVec 8)
    (h : Represents maxLevel emptySet x)
    (hquiet : ∀ i, 1 ≤ i → i < n → ¬ Valid (x.2.ports i).infoBits) :
    InitState n maxLevel draws 0 (setOperation info addOp) x := by
  obtain ⟨hop, hret⟩ := setOperation_add info
  exact ⟨h, Nat.zero_le _, hop, hret, hquiet⟩

theorem InitState.card_iff {t k : ℕ} (h : InitState n maxLevel draws t info x) :
    (∃ cells, LevelZero x.2.memory cells ∧
      (keysBetween (keyOf node x.2.memory) cells).card = k) ↔ (keysDrawn draws t).card = k := by
  obtain ⟨cells, free, hholds⟩ := h.holds
  have hkeys : keysBetween (keyOf node x.2.memory) cells = keysDrawn draws t := hholds.keys
  constructor
  · rintro ⟨cells', hzero, hcard⟩
    rw [← hkeys, hholds.levelZero.unique hzero]
    exact hcard
  · intro hcard
    exact ⟨cells, hholds.levelZero, hkeys ▸ hcard⟩

theorem card_keysDrawn_iff {t : ℕ} : (keysDrawn draws t).card = t ↔
    ∀ i < t, ∀ j < t, (draws i).key = (draws j).key → i = j := by
  have hcard := Finset.card_image_iff (s := Finset.range t) (f := fun j => (draws j).key)
  rw [Finset.card_range] at hcard
  rw [keysDrawn, hcard]
  simp only [Set.InjOn, Finset.coe_range, Set.mem_Iio]

section Loop

variable {target : ℕ} (hfuel : node.numMemBlocks ≤ fuel)
variable (hmax : 1 ≤ maxLevel ∧ maxLevel ≤ node.maxLevel) (hn : 0 < n)
include hfuel hmax hn

/-- A round of the loop that finds a free block. -/
theorem InitState.step (h : InitState n maxLevel draws j info x)
    (hkey : KeyInRange (draws j).key) (hlevel : 1 ≤ (draws j).level ∧ (draws j).level ≤ maxLevel)
    (hfits : (keysDrawn draws (j + 1)).card ≤ node.numMemBlocks - 2) :
    ∃ info' x', initRequest fuel n (draws j) info x = some (info', x') ∧
      InitState n maxLevel draws (j + 1) info' x' := by
  obtain ⟨cells, free, hholds⟩ := h.holds
  have hroom : (initSet draws j).HasRoom .add (draws j).key := by
    intro _ hnew
    have hnew' : (draws j).key ∉ keysDrawn draws j := hnew
    rw [keysDrawn_succ, Finset.card_insert_of_notMem hnew'] at hfits
    exact Nat.sub_pos_of_lt hfits
  have hwp : (spec (portSpec False)).wp (kernelRound (executeDefault fuel) n x.1)
      (fillSlot (draws j) info x.2) (fun r w' => ∃ locals', r = some locals' ∧
        InitState n maxLevel draws (j + 1) (w'.ports 0).infoBits (locals', w')) := by
    refine wp_kernelRound_first hholds.mode hn ?_
    refine wp_serveSlot (b := ((initSet draws j).spend applySet .add (draws j).key).1) ?_ ?_
    · exact valid_setRequest info
    · have hop : extractOperation ((fillSlot (draws j) info x.2).ports 0).infoBits = opCode .add :=
        (extractOperation_setRequest info).trans h.operation
      rw [hop]
      refine wp_mono (implements_default hfuel hmax (fillSlot (draws j) info x.2) 0 .add
        x.1 (initSet draws j) cells free hholds hkey (fun _ => hlevel) hroom) ?_
      rintro ⟨retval, locals'⟩ w' ⟨hports, hret, _, cells', free', hholds'⟩
      have hquiet : ∀ slot : RequestSlot, ∀ i, 1 ≤ i → i < n →
          ¬ Valid (Function.update (fillSlot (draws j) info x.2).ports 0 slot i).infoBits := by
        intro slot i hi hin
        have hi0 : i ≠ 0 := by omega
        simpa [fillSlot, hi0] using h.quiet i hi hin
      refine ⟨hports, hret, hquiet _, locals', rfl, ⟨cells', free', initSet_succ ▸ hholds'⟩,
        hfits, ?_,
        ?_, hquiet _⟩
      · simp [answered, fillSlot, extractOperation_answer, extractOperation_setRequest, h.operation]
      · simpa [answered, fillSlot, getRetval_answer, getRetval_setRequest,
          h.retval] using retval_succ
  obtain ⟨_, w', hrun, locals', rfl, hstate⟩ := run_of_portSpec hwp
  exact ⟨_, (locals', w'), by simp [initRequest, round, hrun], hstate⟩

/-- A round of the loop that finds no free block for a new key. -/
theorem InitState.stuck (h : InitState n maxLevel draws j info x)
    (hkey : KeyInRange (draws j).key)
    (hfull : node.numMemBlocks - 2 < (keysDrawn draws (j + 1)).card) :
    initRequest fuel n (draws j) info x = none := by
  obtain ⟨cells, free, hholds⟩ := h.holds
  have hfits := h.fits
  have hnew : (draws j).key ∉ keysDrawn draws j := by
    intro hmem
    rw [keysDrawn_succ, Finset.insert_eq_of_mem hmem] at hfull
    omega
  rw [keysDrawn_succ, Finset.card_insert_of_notMem hnew] at hfull
  have hroom : (initSet draws j).room = 0 := Nat.sub_eq_zero_of_le (by omega)
  obtain rfl : free = [] := List.length_eq_zero_iff.mp (hholds.room.trans hroom)
  have hwp : (spec (portSpec True)).wp (kernelRound (executeDefault fuel) n x.1)
      (fillSlot (draws j) info x.2) (fun _ _ => False) := by
    refine wp_kernelRound_first hholds.mode hn ?_
    refine wp_serveSlot (b := false) (valid_setRequest info) ?_
    have hop : extractOperation ((fillSlot (draws j) info x.2).ports 0).infoBits = opCode .add :=
      (extractOperation_setRequest info).trans h.operation
    have hholds' : Holds maxLevel (initSet draws j) (fillSlot (draws j) info x.2).memory cells [] :=
      hholds
    rw [hop]
    exact wp_executeDefault_of_full hfuel hmax hkey hholds' trivial hnew
  rw [initRequest, round, run_eq_none_of_portSpec hwp]
  rfl

variable (hdraws : ∀ j, KeyInRange (draws j).key ∧ 1 ≤ (draws j).level ∧ (draws j).level ≤ maxLevel)
include hdraws

section

variable (h : InitState n maxLevel draws j info x)
include h

theorem InitState.initLoop_succ {rounds : ℕ} (hlt : j < target)
    (hfits : (keysDrawn draws (j + 1)).card ≤ node.numMemBlocks - 2) :
    ∃ info' x', InitState n maxLevel draws (j + 1) info' x' ∧
      initLoop fuel n target draws (rounds + 1) j j info x =
        initLoop fuel n target draws rounds (j + 1) (j + 1) info' x' := by
  obtain ⟨info', x', hstep, h'⟩ := h.step hfuel hmax hn (hdraws j).1 (hdraws j).2 hfits
  exact ⟨info', x', h', by rw [initLoop, if_pos hlt, hstep, bind_some, h'.counted, if_pos rfl]⟩

theorem InitState.of_initLoop {rounds size : ℕ} {x' : Locals × Device} (hj : j ≤ target)
    (hrun : initLoop fuel n target draws rounds j j info x = some (size, x')) :
    size = target ∧ ∃ info', InitState n maxLevel draws target info' x' := by
  induction rounds generalizing j info x with
  | zero =>
    rcases hj.eq_or_lt with rfl | hlt
    · rw [initLoop_of_counted] at hrun
      cases hrun
      exact ⟨rfl, info, h⟩
    · rw [initLoop, if_pos hlt] at hrun
      cases hrun
  | succ rounds ih =>
    rcases hj.eq_or_lt with rfl | hlt
    · rw [initLoop_of_counted] at hrun
      cases hrun
      exact ⟨rfl, info, h⟩
    · by_cases hfits : (keysDrawn draws (j + 1)).card ≤ node.numMemBlocks - 2
      · obtain ⟨info₁, x₁, h₁, heq⟩ := h.initLoop_succ hfuel hmax hn hdraws hlt hfits
        exact ih h₁ hlt (heq ▸ hrun)
      · rw [initLoop, if_pos hlt, h.stuck hfuel hmax hn (hdraws j).1 (by omega)] at hrun
        cases hrun

theorem InitState.initLoop_leaves (rounds : ℕ) (hj : j + rounds = target)
    (hfits : (keysDrawn draws target).card ≤ node.numMemBlocks - 2) :
    ∃ x', initLoop fuel n target draws rounds j j info x = some (target, x') := by
  induction rounds generalizing j info x with
  | zero =>
    obtain rfl : j = target := hj
    exact ⟨x, initLoop_of_counted⟩
  | succ rounds ih =>
    have hsub : keysDrawn draws (j + 1) ⊆ keysDrawn draws target :=
      Finset.image_subset_image (Finset.range_subset_range.mpr (by omega))
    have hlt : j < target := by omega
    obtain ⟨info₁, x₁, h₁, heq⟩ := h.initLoop_succ hfuel hmax hn hdraws hlt
      ((Finset.card_le_card hsub).trans hfits)
    rw [heq]
    exact ih h₁ (by omega)

end

variable (hmode : w.memory.sreg 0 = 0) (hlevels : w.memory.sreg currMaxLevel = maxLevel)
variable (hquiet : ∀ i, 1 ≤ i → i < n → ¬ Valid (w.ports i).infoBits)
include hmode hlevels hquiet

theorem hostInit_leaves (info : BitVec 8)
    (hfits : (keysDrawn draws target).card ≤ node.numMemBlocks - 2) :
    ∃ info' x, hostInit fuel n target draws target info locals w = some (target, x) ∧
      InitState n maxLevel draws target info' x := by
  obtain ⟨x₀, hinit, hrep, hports⟩ := round_init (executeDefault fuel) n locals hmode hlevels
  have h₀ : InitState n maxLevel draws 0 (setOperation info addOp) x₀ :=
    initState_zero info hrep (hports ▸ hquiet)
  obtain ⟨x, hrun⟩ := h₀.initLoop_leaves hfuel hmax hn hdraws target (Nat.zero_add target) hfits
  obtain ⟨_, info', h'⟩ := h₀.of_initLoop hfuel hmax hn hdraws (Nat.zero_le target) hrun
  exact ⟨info', x, by rw [hostInit, hinit, bind_some, hrun], h'⟩

theorem InitState.of_hostInit {rounds size : ℕ}
    (hrun : hostInit fuel n target draws rounds info locals w = some (size, x)) :
    size = target ∧ ∃ info', InitState n maxLevel draws target info' x := by
  obtain ⟨x₀, hinit, hrep, hports⟩ := round_init (executeDefault fuel) n locals hmode hlevels
  rw [hostInit, hinit, bind_some] at hrun
  exact (initState_zero info hrep (hports ▸ hquiet)).of_initLoop hfuel hmax hn hdraws
    (Nat.zero_le target) hrun

end Loop

/-- The host's count is the number of keys in the list exactly if the keys it draws are distinct and
the vault has a block for each. -/
theorem countsInsertions_iff (fuel n maxLevel target : ℕ) (draws : ℕ → Draw) (info : BitVec 8)
    (locals : Locals) (w : Device) (hfuel : node.numMemBlocks ≤ fuel)
    (hmax : 1 ≤ maxLevel ∧ maxLevel ≤ node.maxLevel) (hn : 0 < n) (hmode : w.memory.sreg 0 = 0)
    (hlevels : w.memory.sreg currMaxLevel = maxLevel)
    (hquiet : ∀ i, 1 ≤ i → i < n → ¬ Valid (w.ports i).infoBits)
    (hdraws : ∀ j, KeyInRange (draws j).key ∧ 1 ≤ (draws j).level ∧ (draws j).level ≤ maxLevel) :
    CountsInsertions fuel n target draws info locals w ↔
      (∀ i < target, ∀ j < target, (draws i).key = (draws j).key → i = j) ∧
        target ≤ node.numMemBlocks - 2 := by
  rw [← card_keysDrawn_iff]
  constructor
  · rintro ⟨⟨rounds, hleaves⟩, hcounts⟩
    obtain ⟨⟨size, x⟩, hrun⟩ := isSome_iff_exists.mp hleaves
    obtain ⟨-, info', h'⟩ := InitState.of_hostInit hfuel hmax hn hdraws hmode hlevels hquiet hrun
    have hcard := h'.card_iff.mp (hcounts rounds size x hrun).2
    exact ⟨hcard, hcard ▸ h'.fits⟩
  · rintro ⟨hcard, hfits⟩
    obtain ⟨-, x, hrun, -⟩ := hostInit_leaves hfuel hmax hn hdraws hmode hlevels hquiet info
      (hcard.trans_le hfits)
    refine ⟨⟨target, isSome_iff_exists.mpr ⟨_, hrun⟩⟩, fun rounds size x hrun => ?_⟩
    obtain ⟨hsize, info', h'⟩ :=
      InitState.of_hostInit hfuel hmax hn hdraws hmode hlevels hquiet hrun
    exact ⟨hsize, h'.card_iff.mpr hcard⟩

def drawCycle (j : ℕ) : Draw := ⟨j % 1000 + 1, 1⟩

theorem drawCycle_inRange (j : ℕ) :
    KeyInRange (drawCycle j).key ∧ 1 ≤ (drawCycle j).level ∧ (drawCycle j).level ≤ 2 := by
  have hlt := Nat.mod_lt j (by decide : 0 < 1000)
  refine ⟨⟨Nat.succ_pos _, ?_⟩, le_refl 1, Nat.le_succ 1⟩
  exact (Nat.succ_lt_succ hlt).trans (by decide)

theorem freshDevice_quiet (i : ℕ) : ¬ Valid (freshDevice.ports i).infoBits := by
  simp [freshDevice, Valid, checkValidRequest]

theorem countsInsertions_drawCycle :
    CountsInsertions 1048576 3 1000 drawCycle 0 ⟨fun _ => 0, fun _ => 0⟩ freshDevice := by
  refine (countsInsertions_iff 1048576 3 2 1000 drawCycle 0 _ freshDevice node_numMemBlocks.le
    (by decide) (by decide) rfl rfl (fun i _ _ => freshDevice_quiet i) drawCycle_inRange).mpr
    ⟨fun i hi j hj he => ?_, by rw [node_numMemBlocks]; decide⟩
  simp only [drawCycle, Nat.mod_eq_of_lt hi, Nat.mod_eq_of_lt hj] at he
  omega

/-- The host draws 5 twice and counts two keys; the list holds one. -/
theorem hostInit_counts_five_twice :
    ∃ x cells, hostInit 1048576 3 2 (fun _ => ⟨5, 1⟩) 2 0 ⟨fun _ => 0, fun _ => 0⟩ freshDevice =
        some (2, x) ∧
      LevelZero x.2.memory cells ∧ keysBetween (keyOf node x.2.memory) cells = {5} := by
  obtain ⟨_, x, hrun, h⟩ : ∃ info' x, hostInit 1048576 3 2 (fun _ => ⟨5, 1⟩) 2 0
      ⟨fun _ => 0, fun _ => 0⟩ freshDevice = some (2, x) ∧ InitState 3 2 _ 2 info' x :=
    hostInit_leaves node_numMemBlocks.le (by decide) (by decide) (fun _ => by decide) rfl rfl
      (fun i _ _ => freshDevice_quiet i) 0 (by rw [node_numMemBlocks]; decide)
  obtain ⟨cells, free, hholds⟩ := h.holds
  exact ⟨x, cells, hrun, hholds.levelZero, hholds.keys⟩

end SmcSim.SkipListKernel
