import SmcSim.SkipListRefinement
import Mathlib.Algebra.Order.Ring.Int

/-!
# Levels drawn by the host

The host derives the number of levels from the size of a partition and draws the
height of every node from it. The flat combining skip list has the same two functions.
A draw lies between 1 and the number of levels as soon as there are two levels; with
one level half of the draws are 0.
-/

namespace SmcSim.SkipListKernel
open EffectPrograms PimMemory ListSegments SkipListPrograms SkipListShape SkipListUpdate List
open RequestServers SetSemantics Function Option

/-! ### The two functions -/

/-- `while (((x >>= 1) & 1) != 0) level++`, for a counter with `values` values. -/
def skipOnes (values x level : ℕ) : ℕ :=
  if (x >>> 1) % 2 ≠ 0 then skipOnes values (x >>> 1) ((level + 1) % values) else level
termination_by x
decreasing_by omega

/-- A draw from `1 .. maxLevel - 1`, each level half as likely as the one below. -/
def geometricLevel (values maxLevel rand : ℕ) : ℕ :=
  let x := rand % 2 ^ maxLevel
  if x &&& 0x80000001 ≠ 0 then
    1
  else
    let level := skipOnes values x 2
    if level > maxLevel - 1 then maxLevel - 1 else level

/-- The least `i` below `levels` with `size < 1 << i`; without one the current value stays. -/
def levelFor (levels : ℕ) (size : ℤ) (current : ℕ) : ℕ :=
  ((List.range' 1 (levels - 1)).find? (fun i => size < 2 ^ i)).getD current

/-- `random_level` of the host; its counter is a `uint8_t`. -/
def randomLevel (currMaxLevel rand : ℕ) : ℕ := geometricLevel (2 ^ 8) currMaxLevel rand

/-- `max_level` as `main` computes it. -/
def mainMaxLevel (initialListSize numPartitions : ℕ) : ℕ :=
  levelFor 30 ((initialListSize / numPartitions : ℕ) : ℤ) 30

namespace FlatCombining

/-- `SkipList::randomLevel`; its counter is an `ulong_t`. -/
def randomLevel (maxLevel rand : ℕ) : ℕ := geometricLevel (2 ^ 32) maxLevel rand

/-- `int size = ubound - lbound + 1` -/
def boundsSize (lbound ubound : ℕ) : ℤ := Int.bmod ((ubound : ℤ) - lbound + 1) (2 ^ 32)

/-- `max_level` after the constructor. -/
def constructorMaxLevel (lbound ubound : ℕ) : ℕ := levelFor 14 (boundsSize lbound ubound) 14

/-- `SkipList::set_max_level` -/
def setMaxLevel (initsize maxLevel : ℕ) : ℕ := levelFor 14 initsize maxLevel

/-- `max_level` once `main` has passed the size of a partition, an `ulong_t`. -/
def initialMaxLevel (initialListSize numPartitions lbound ubound : ℕ) : ℕ :=
  setMaxLevel (initialListSize / numPartitions % 2 ^ 32) (constructorMaxLevel lbound ubound)

end FlatCombining

/-! ### Draws -/

variable {values maxLevel k x level : ℕ}

/-- A counter that does not overflow counts upwards. -/
theorem le_skipOnes (hx : x < 2 ^ k) (hlevel : level + k < values) :
    level ≤ skipOnes values x level := by
  induction k generalizing x level with
  | zero =>
    obtain rfl : x = 0 := by simpa using hx
    rw [skipOnes]
    simp
  | succ k ih =>
    rw [skipOnes]
    split
    · have hhalf : x >>> 1 < 2 ^ k := by
        rw [Nat.pow_succ] at hx
        omega
      rw [Nat.mod_eq_of_lt (by omega : level + 1 < values)]
      exact (Nat.le_succ level).trans (ih hhalf (by omega))
    · exact le_refl level

theorem geometricLevel_range (hvalues : 2 ^ 8 ≤ values) (hmax : 2 ≤ maxLevel ∧ maxLevel ≤ 30)
    (rand : ℕ) : 1 ≤ geometricLevel values maxLevel rand ∧
      geometricLevel values maxLevel rand ≤ maxLevel := by
  have hx : rand % 2 ^ maxLevel < 2 ^ maxLevel := Nat.mod_lt _ (Nat.two_pow_pos maxLevel)
  have hlevel := le_skipOnes hx (by omega : 2 + maxLevel < values)
  unfold geometricLevel
  dsimp only
  split
  · omega
  · split
    · omega
    · omega

/-- With one level, an even draw gives a node without levels. -/
theorem geometricLevel_one : geometricLevel values 1 0 = 0 := by
  simp [geometricLevel, skipOnes]

theorem geometricLevel_range_iff (hvalues : 2 ^ 8 ≤ values) (hmax : 1 ≤ maxLevel ∧ maxLevel ≤ 30) :
    (∀ rand < 2 ^ 31, 1 ≤ geometricLevel values maxLevel rand ∧
      geometricLevel values maxLevel rand ≤ maxLevel) ↔ 2 ≤ maxLevel := by
  constructor
  · intro h
    by_contra hlt
    obtain rfl : maxLevel = 1 := by omega
    have hzero := (h 0 (by decide)).1
    rw [geometricLevel_one] at hzero
    omega
  · intro h rand _
    exact geometricLevel_range hvalues ⟨h, hmax.2⟩ rand

/-! ### Numbers of levels -/

variable {levels current : ℕ} {size : ℤ}

theorem levelFor_cases (levels : ℕ) (size : ℤ) (current : ℕ) :
    levelFor levels size current = current ∨
    1 ≤ levelFor levels size current ∧ levelFor levels size current < levels := by
  unfold levelFor
  cases hfind : (List.range' 1 (levels - 1)).find? (fun i => size < 2 ^ i) with
  | none => exact .inl rfl
  | some i =>
    have hmem := mem_range'_1.mp (mem_of_find?_eq_some hfind)
    exact .inr ⟨hmem.1, by simp only [getD_some]; omega⟩

theorem levelFor_of_lt_two (hlevels : 2 ≤ levels) (hsize : size < 2) :
    levelFor levels size current = 1 := by
  obtain ⟨n, rfl⟩ : ∃ n, levels = n + 2 := ⟨levels - 2, by omega⟩
  simp [levelFor, range'_succ, hsize]

theorem two_le_levelFor_iff (hlevels : 3 ≤ levels) :
    2 ≤ levelFor levels size current ↔ 2 ≤ size ∧ (size < 2 ^ (levels - 1) ∨ 2 ≤ current) := by
  by_cases hsize : size < 2
  · rw [levelFor_of_lt_two (by omega) hsize]
    omega
  · have htwo : 2 ≤ size := by omega
    unfold levelFor
    cases hfind : (List.range' 1 (levels - 1)).find? (fun i => size < 2 ^ i) with
    | none =>
      have hlast := find?_eq_none.mp hfind (levels - 1) (mem_range'_1.mpr (by omega))
      simp only [decide_eq_true_eq] at hlast
      simp [htwo, hlast]
    | some i =>
      have hmem := mem_range'_1.mp (mem_of_find?_eq_some hfind)
      have hi : size < 2 ^ i := by simpa using find?_some hfind
      have hne : i ≠ 1 := by
        rintro rfl
        exact hsize (by simpa using hi)
      have hbound : size < 2 ^ (levels - 1) :=
        hi.trans_le (pow_le_pow_right₀ (by decide) (by omega))
      simp only [getD_some, htwo, hbound, true_or, and_true, iff_true]
      omega

/-! ### Agreement -/

section Agreement

variable {fuel initialListSize numPartitions lbound ubound : ℕ}

/-- Whatever the arrays hold, the addition is answered with 1, leaves the same device and
links the key on level 0. -/
def Links (fuel : ℕ) (r : Request) (w : Device) : Prop :=
  ∃ w' cells, (∀ locals, ∃ locals',
      serveRequest (executeDefault fuel) r (locals, w) = some (1, locals', w')) ∧
    LevelZero w'.memory cells ∧ r.key ∈ keysBetween (keyOf node w'.memory) cells

/-- With `maxLevel` levels, every draw is one of them and every addition of an absent key
with that draw links the key. -/
def PimLevelsAgree (fuel maxLevel : ℕ) : Prop :=
  ∀ rand < 2 ^ 31, (1 ≤ randomLevel maxLevel rand ∧ randomLevel maxLevel rand ≤ maxLevel) ∧
    ∀ locals w s r, Represents maxLevel s (locals, w) → 0 < s.room → r.op = .add →
      KeyInRange r.key → r.key ∉ s.keys → r.level = randomLevel maxLevel rand → Links fuel r w

namespace FlatCombining

def LevelsAgree (maxLevel : ℕ) : Prop :=
  ∀ rand < 2 ^ 31, 1 ≤ randomLevel maxLevel rand ∧ randomLevel maxLevel rand ≤ maxLevel

end FlatCombining

variable {b : ℕ} {w : Device} {s : BoundedSet ℕ} {cells free : List ℕ} {r : Request}

section

variable (h : Holds maxLevel s w.memory cells (b :: free)) (hfuel : node.numMemBlocks ≤ fuel)
variable (hmax : 1 ≤ maxLevel ∧ maxLevel ≤ node.maxLevel) (hadd : r.op = .add)
variable (hk : KeyInRange r.key) (hnew : r.key ∉ s.keys)
include h hfuel hmax hadd hk hnew

/-- The device that the addition of a new key leaves, with the arrays of the descent. -/
theorem serveRequest_add (locals : Locals) (hlevel : r.level ≤ maxLevel) :
    ∃ locals', (∀ l < r.level, Around node w.memory cells l r.key (locals'.preds l)
        (locals'.succs l)) ∧
      serveRequest (executeDefault fuel) r (locals, w) = some (1, locals',
        ⟨insertNode node w.memory b r.key r.level locals',
          update (submit r w).ports r.thread (answered r.slot true)⟩) := by
  have hslot : (submit r w).ports r.thread = r.slot := submit_ports r w
  have hexec : (spec (portSpec False)).wp (executeDefault fuel r.thread (opCode .add) locals)
      (submit r w) (fun a w' => w'.ports = (submit r w).ports ∧ a.1 = retvalBit true ∧
        (∀ l < r.level, Around node w.memory cells l r.key (a.2.preds l) (a.2.succs l)) ∧
        w'.memory = insertNode node w.memory b r.key r.level a.2) := by
    refine wp_executeDefault_add hfuel hmax (by rw [hslot]; exact hk) h
      (by rw [hslot]; exact hlevel) (by rw [hslot]; exact hnew) ?_
    rw [hslot]
    exact fun locals' har => ⟨rfl, rfl, har, rfl⟩
  rw [← hadd] at hexec
  obtain ⟨⟨locals', w'⟩, hserve, har, hw⟩ := serveRequest_of_wp (b := true)
    (R := fun locals' w' =>
      (∀ l < r.level, Around node w.memory cells l r.key (locals'.preds l) (locals'.succs l)) ∧
      w' = ⟨insertNode node w.memory b r.key r.level locals',
        update (submit r w).ports r.thread (answered r.slot true)⟩)
    (x := (locals, w)) (CommandSpec.wp_mono hexec
      (fun a w' ha => ⟨ha.1, ha.2.1, ha.2.2.1, by rw [ha.2.2.2]⟩))
  exact ⟨locals', har, hserve.trans (congrArg (fun w' => some (1, locals', w')) hw)⟩

theorem links_of_add (hlevel : 1 ≤ r.level ∧ r.level ≤ maxLevel) : Links fuel r w := by
  obtain ⟨locals₀, har₀, _⟩ := serveRequest_add h hfuel hmax hadd hk hnew
    ⟨fun _ => 0, fun _ => 0⟩ hlevel.2
  have hholds := h.insert hk hnew hlevel hmax.2 har₀
  refine ⟨⟨insertNode node w.memory b r.key r.level locals₀,
    update (submit r w).ports r.thread (answered r.slot true)⟩, _, fun locals => ?_,
    hholds.levelZero, ?_⟩
  · obtain ⟨locals', har, hserve⟩ := serveRequest_add h hfuel hmax hadd hk hnew locals hlevel.2
    have hsame : insertNode node w.memory b r.key r.level locals' =
        insertNode node w.memory b r.key r.level locals₀ :=
      linkLevels_congr (fun l hl => (har l hl).unique (har₀ l hl) h.shape (by omega))
    exact ⟨locals', by rw [hserve, hsame]⟩
  · rw [hholds.keys]
    exact Finset.mem_insert_self r.key s.keys

/-- An addition without levels is answered with 1, and the key is nowhere in the list. -/
theorem serveRequest_add_of_level_zero (locals : Locals) (hlevel : r.level = 0) :
    ∃ x', serveRequest (executeDefault fuel) r (locals, w) = some (1, x') ∧
      LevelZero x'.2.memory cells ∧ keysBetween (keyOf node x'.2.memory) cells = s.keys := by
  obtain ⟨locals', _, hserve⟩ :=
    serveRequest_add h hfuel hmax hadd hk hnew locals (hlevel ▸ Nat.zero_le _)
  refine ⟨_, hserve, ⟨?_, h.levelZero.nonnull⟩, ?_⟩
  · have hnext : nextOf node (insertNode node w.memory b r.key 0 locals') 0 =
        nextOf node w.memory 0 := by
      funext c
      simp [insertNode, linkLevels, nextOf, node]
    dsimp only
    rw [hlevel, insertNode_sreg (by decide), hnext]
    exact h.levelZero.linked
  · rw [← h.keys, keysBetween, keysBetween]
    congr 2
    refine map_congr_left (fun c hc => ?_)
    have hcb : c ≠ b := h.shape.ne_of_mem_free hc mem_cons_self
    simp [hlevel, insertNode, linkLevels, keyOf, hcb]

end

theorem pimLevelsAgree_iff (hfuel : node.numMemBlocks ≤ fuel)
    (hmax : 1 ≤ maxLevel ∧ maxLevel ≤ node.maxLevel) :
    PimLevelsAgree fuel maxLevel ↔ 2 ≤ maxLevel := by
  constructor
  · intro h
    exact (geometricLevel_range_iff (le_refl _) hmax).mp (fun rand hrand => (h rand hrand).1)
  · intro htwo rand _
    have hrange := geometricLevel_range (le_refl (2 ^ 8)) ⟨htwo, hmax.2⟩ rand
    refine ⟨hrange, ?_⟩
    rintro _ w s r ⟨cells, free, hholds⟩ hroom hadd hk hnew hlevel
    obtain ⟨b, free, rfl⟩ := exists_cons_of_length_pos (hholds.room ▸ hroom)
    exact links_of_add hholds hfuel hmax hadd hk hnew (hlevel ▸ hrange)

theorem levelFor_range (hcurrent : 1 ≤ current ∧ current ≤ levels) :
    1 ≤ levelFor levels size current ∧ levelFor levels size current ≤ levels := by
  rcases levelFor_cases levels size current with h | h
  · rwa [h]
  · exact ⟨h.1, h.2.le⟩

theorem mainMaxLevel_range : 1 ≤ mainMaxLevel initialListSize numPartitions ∧
    mainMaxLevel initialListSize numPartitions ≤ node.maxLevel :=
  levelFor_range (by decide)

namespace FlatCombining

theorem levelsAgree_iff (hmax : 1 ≤ maxLevel ∧ maxLevel ≤ 14) :
    LevelsAgree maxLevel ↔ 2 ≤ maxLevel :=
  geometricLevel_range_iff (by decide) ⟨hmax.1, hmax.2.trans (by decide)⟩

theorem initialMaxLevel_range :
    1 ≤ initialMaxLevel initialListSize numPartitions lbound ubound ∧
      initialMaxLevel initialListSize numPartitions lbound ubound ≤ 14 :=
  levelFor_range (levelFor_range (by decide))

end FlatCombining

/-- The draws of the kernel's host and of the flat combining list are levels, and the
additions link their nodes, exactly if a partition starts with at least two keys and the
constructor's levels, which stay for 2 ^ 13 keys or more, are at least two. -/
theorem levels_agree_iff (fuel initialListSize numPartitions lbound ubound : ℕ)
    (hfuel : node.numMemBlocks ≤ fuel) :
    (PimLevelsAgree fuel (mainMaxLevel initialListSize numPartitions) ∧
      FlatCombining.LevelsAgree
        (FlatCombining.initialMaxLevel initialListSize numPartitions lbound ubound)) ↔
    2 ≤ initialListSize / numPartitions ∧ 2 ≤ initialListSize / numPartitions % 2 ^ 32 ∧
      (initialListSize / numPartitions % 2 ^ 32 < 2 ^ 13 ∨
        2 ≤ FlatCombining.boundsSize lbound ubound) := by
  have hmain : 2 ≤ mainMaxLevel initialListSize numPartitions ↔
      2 ≤ initialListSize / numPartitions := by
    rw [mainMaxLevel, two_le_levelFor_iff (by decide)]
    omega
  have hfc : 2 ≤ FlatCombining.initialMaxLevel initialListSize numPartitions lbound ubound ↔
      2 ≤ initialListSize / numPartitions % 2 ^ 32 ∧
        (initialListSize / numPartitions % 2 ^ 32 < 2 ^ 13 ∨
          2 ≤ FlatCombining.boundsSize lbound ubound) := by
    rw [FlatCombining.initialMaxLevel, FlatCombining.setMaxLevel, two_le_levelFor_iff (by decide),
      FlatCombining.constructorMaxLevel, two_le_levelFor_iff (by decide)]
    omega
  rw [pimLevelsAgree_iff hfuel mainMaxLevel_range, hmain,
    FlatCombining.levelsAgree_iff FlatCombining.initialMaxLevel_range, hfc]

end Agreement

theorem levels_agree_for_twenty :
    PimLevelsAgree 1048576 (mainMaxLevel 20 2) ∧
      FlatCombining.LevelsAgree (FlatCombining.initialMaxLevel 20 2 1 100) :=
  (levels_agree_iff 1048576 20 2 1 100 node_numMemBlocks.le).mpr (by decide)

/-- `freshDevice` with the number of levels for one key in one partition. -/
def oneKeyDevice : Device :=
  { freshDevice with memory := freshDevice.memory.setSreg currMaxLevel (mainMaxLevel 1 1) }

/-- One key in one partition gives one level; on the draw 0 the addition of 5 is answered
with 1, and the list stays empty. -/
theorem oneKeyDevice_loses_five :
    mainMaxLevel 1 1 = 1 ∧ randomLevel 1 0 = 0 ∧ ∃ x cells,
      runFromInit (executeDefault 1048576) 3 [⟨0, 0, .add, 5, randomLevel 1 0⟩]
        ⟨fun _ => 0, fun _ => 0⟩ oneKeyDevice = some ([1], x) ∧
      LevelZero x.2.memory cells ∧ keysBetween (keyOf node x.2.memory) cells = ∅ := by
  have hmain : mainMaxLevel 1 1 = 1 := levelFor_of_lt_two (by decide) (by decide)
  have hdraw : randomLevel 1 0 = 0 := geometricLevel_one
  have hlevels : oneKeyDevice.memory.sreg currMaxLevel = 1 := by
    simp [oneKeyDevice, hmain]
  obtain ⟨⟨locals, w⟩, hround, ⟨cells, free, hholds⟩, _⟩ :=
    round_init (executeDefault 1048576) 3 ⟨fun _ => 0, fun _ => 0⟩
      (w := oneKeyDevice) rfl hlevels
  have hroom : 0 < free.length := by
    rw [hholds.room, emptySet, node_numMemBlocks]
    decide
  obtain ⟨b, free, rfl⟩ := exists_cons_of_length_pos hroom
  obtain ⟨x', hserve, hzero, hkeys⟩ := serveRequest_add_of_level_zero
    (r := ⟨0, 0, .add, 5, randomLevel 1 0⟩) hholds node_numMemBlocks.le (by decide) rfl
    (by decide) (Finset.notMem_empty 5) locals hdraw
  refine ⟨hmain, hdraw, x', cells, ?_, hzero, hkeys⟩
  rw [runFromInit, hround, bind_some, serveAll_cons, hserve]
  rfl

end SmcSim.SkipListKernel
