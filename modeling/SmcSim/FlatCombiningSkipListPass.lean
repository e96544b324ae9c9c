import Mathlib.Order.Lattice.Nat
import SmcSim.FlatCombiningSkipListSearch
import SmcSim.SetSemantics

/-!
# Passes over the flat-combining skip list

A request is answered as by a set of keys. An addition or a removal links the neighbours that the
search has recorded on the levels of the node, and a node that is removed is the only one that is
deleted, so the nodes that exist are those of the list and no link leads to another one.
-/

namespace SmcSim.FlatCombiningSkipList
open FlatCombining RequestServers SetSemantics SkipChains SkipChain Function List Option

/-! ### Heights -/

theorem le_countBits (x level : ℕ) : level ≤ countBits x level := by
  fun_induction countBits x level with
  | case1 x level h ih => exact Nat.le_of_succ_le ih
  | case2 x level h => exact le_refl level

theorem randomLevel_bounds {maxLevel : ℕ} (h : 2 ≤ maxLevel) (rand : ℕ) :
    1 ≤ randomLevel maxLevel rand ∧ randomLevel maxLevel rand < maxLevel := by
  have hbits := le_countBits (rand % (1 <<< maxLevel)) 2
  rw [randomLevel]
  dsimp only
  split
  · omega
  · split
    · omega
    · omega

/-! ### Links -/

structure Kept (m m' : SkipList) : Prop where
  live : m'.live = m.live
  headNode : m'.headNode = m.headNode
  maxLevel : m'.maxLevel = m.maxLevel
  arrays : m'.arrays = m.arrays
  deleted : m'.deleted = m.deleted
  key : ∀ p, m'.keyOf p = m.keyOf p
  top : ∀ p, m'.topOf p = m.topOf p

variable {m m' m'' : SkipList} {p q l level : ℕ}

theorem Kept.refl (m : SkipList) : Kept m m := ⟨rfl, rfl, rfl, rfl, rfl, fun _ => rfl, fun _ => rfl⟩

theorem Kept.trans (h : Kept m m') (h' : Kept m' m'') : Kept m m'' :=
  ⟨h'.live.trans h.live, h'.headNode.trans h.headNode, h'.maxLevel.trans h.maxLevel,
    h'.arrays.trans h.arrays, h'.deleted.trans h.deleted, fun p => (h'.key p).trans (h.key p),
    fun p => (h'.top p).trans (h.top p)⟩

theorem Kept.rank (h : Kept m m') (p : ℕ) : m'.rank p = m.rank p := by
  rw [SkipList.rank, SkipList.rank, h.headNode, h.key]

private theorem setNext_spec (hp : p ∈ m.live) (level q : ℕ) :
    ∃ m', m.setNext p level q = some m' ∧ Kept m m' ∧
      ∀ l x, m'.nextOf l x = if x = p ∧ l = level then q else m.nextOf l x := by
  have hnode : ∀ x, x ≠ p → update m.nodes p
      { m.nodes p with next := update (m.nodes p).next level q } x = m.nodes x :=
    fun x hx => update_of_ne hx _ _
  refine ⟨_, if_pos hp, ⟨rfl, rfl, rfl, rfl, rfl, fun x => ?_, fun x => ?_⟩, fun l x => ?_⟩
  · by_cases hx : x = p
    · rw [hx, SkipList.keyOf]
      simp only [update_self, SkipList.keyOf]
    · exact congrArg Node.key (hnode x hx)
  · by_cases hx : x = p
    · rw [hx, SkipList.topOf]
      simp only [update_self, SkipList.topOf]
    · exact congrArg Node.topLevel (hnode x hx)
  · by_cases hx : x = p
    · rw [hx, SkipList.nextOf]
      simp only [update_self, true_and]
      by_cases hl : l = level
      · rw [hl, if_pos rfl, update_self]
      · rw [if_neg hl, update_of_ne hl]
        rfl
    · rw [if_neg (fun h => hx h.1)]
      exact congrFun (congrArg Node.next (hnode x hx)) l

theorem linkLevels_spec {newNode : ℕ} (hnew : newNode ∈ m.live) (t : ℕ)
    (hpreds : ∀ l < t, m.arrays.preds l ∈ m.live) :
    ∃ m', SkipList.linkLevels newNode t m = some m' ∧ Kept m m' ∧
      ∀ l x, m'.nextOf l x =
        if l < t then
          if x = m.arrays.preds l then newNode
          else if x = newNode then m.arrays.succs l else m.nextOf l x
        else m.nextOf l x := by
  induction t with
  | zero => exact ⟨m, rfl, .refl m, fun l x => (if_neg (Nat.not_lt_zero l)).symm⟩
  | succ t ih =>
    obtain ⟨m₁, hm₁, hkept₁, hnext₁⟩ := ih (fun l hl => hpreds l (Nat.lt_succ_of_lt hl))
    obtain ⟨m₂, hm₂, hkept₂, hnext₂⟩ :=
      setNext_spec (hkept₁.live ▸ hnew) t (m₁.arrays.succs t)
    have hpred : m₂.arrays.preds t ∈ m₂.live := by
      rw [hkept₂.arrays, hkept₁.arrays, hkept₂.live, hkept₁.live]
      exact hpreds t (Nat.lt_succ_self t)
    obtain ⟨m₃, hm₃, hkept₃, hnext₃⟩ := setNext_spec hpred t newNode
    refine ⟨m₃, ?_, (hkept₁.trans hkept₂).trans hkept₃, fun l x => ?_⟩
    · rw [SkipList.linkLevels, hm₁, bind_some, hm₂, bind_some, hm₃]
    · rw [hnext₃, hnext₂, hnext₁, hkept₂.arrays, hkept₁.arrays]
      by_cases hl : l = t
      · subst hl
        rw [if_pos (Nat.lt_succ_self l), if_neg (lt_irrefl l)]
        simp only [and_true]
      · have hiff : l < t + 1 ↔ l < t := by omega
        simp only [hl, and_false, if_false, hiff]

theorem unlinkLevels_spec {foundNode : ℕ} (hfound : foundNode ∈ m.live) (t : ℕ)
    (hpreds : ∀ l < t, m.arrays.preds l ∈ m.live) :
    ∃ m', SkipList.unlinkLevels foundNode t m = some m' ∧ Kept m m' ∧
      ∀ l x, m'.nextOf l x =
        if l < t ∧ x = m.arrays.preds l then m.nextOf l foundNode else m.nextOf l x := by
  induction t with
  | zero => exact ⟨m, rfl, .refl m, fun l x => (if_neg (fun h => Nat.not_lt_zero l h.1)).symm⟩
  | succ t ih =>
    obtain ⟨m₁, hm₁, hkept₁, hnext₁⟩ := ih (fun l hl => hpreds l (Nat.lt_succ_of_lt hl))
    have hnode : m₁.node foundNode = some (m₁.nodes foundNode) := if_pos (hkept₁.live ▸ hfound)
    have hpred : m₁.arrays.preds t ∈ m₁.live := by
      rw [hkept₁.arrays, hkept₁.live]
      exact hpreds t (Nat.lt_succ_self t)
    obtain ⟨m₂, hm₂, hkept₂, hnext₂⟩ := setNext_spec hpred t ((m₁.nodes foundNode).next t)
    refine ⟨m₂, ?_, hkept₁.trans hkept₂, fun l x => ?_⟩
    · rw [SkipList.unlinkLevels, hm₁, bind_some, hnode, bind_some, hm₂]
    · -- the link of the node on this level has not been touched yet
      have hold : (m₁.nodes foundNode).next t = m.nextOf t foundNode :=
        (hnext₁ t foundNode).trans (if_neg (fun h => lt_irrefl t h.1))
      rw [hnext₂, hold, hnext₁, hkept₁.arrays]
      by_cases hl : l = t
      · subst hl
        simp only [and_true, Nat.lt_succ_self, true_and, lt_irrefl, false_and, if_false]
      · have hiff : l < t + 1 ↔ l < t := by omega
        simp only [hl, and_false, if_false, hiff]

/-! ### Updates -/

variable {mid : List ℕ} {tail param : ℕ}

section

variable (h : WellFormed m mid tail)
include h

/-- A key falls between the sentinels. -/
theorem WellFormed.below_cells {k : ℕ} (hpos : 0 < k) (hk : k ≤ intMax + 1) :
    below m.rank k (m.cells mid tail) = m.headNode :: below m.rank k mid := by
  have hhead : m.rank m.headNode < k := WellFormed.rank_head ▸ hpos
  have htail : ¬ m.rank tail < k := not_lt.mpr (h.rank_tail ▸ hk)
  simp [below, SkipList.cells, hhead, htail]

theorem WellFormed.above_cells {k : ℕ} (hpos : 0 < k) (hk : k ≤ intMax + 1) :
    above m.rank k (m.cells mid tail) = above m.rank k mid ++ [tail] := by
  have hhead : ¬ k ≤ m.rank m.headNode := not_le.mpr (WellFormed.rank_head ▸ hpos)
  have htail : k ≤ m.rank tail := h.rank_tail ▸ hk
  simp [above, SkipList.cells, hhead, htail]

/-- The arrays are not part of the list. -/
theorem WellFormed.setArrays (arrays : Arrays) : WellFormed { m with arrays := arrays } mid tail :=
  ⟨h.chain, h.live, h.nonnull, h.tailKey, h.headTop, h.tailTop, h.heights, h.levels⟩

end

structure Grown (m m' : SkipList) (n param t : ℕ) : Prop where
  live : m'.live = insert n m.live
  headNode : m'.headNode = m.headNode
  maxLevel : m'.maxLevel = m.maxLevel
  deleted : m'.deleted = m.deleted
  key : m'.keyOf n = param
  top : m'.topOf n = t
  keys : ∀ x, x ≠ n → m'.keyOf x = m.keyOf x
  tops : ∀ x, x ≠ n → m'.topOf x = m.topOf x

theorem grown_alloc (e : Environment) (param t : ℕ) (m : SkipList) :
    Grown m (m.alloc e param t) (e.address m.live m.added) param t where
  live := rfl
  headNode := rfl
  maxLevel := rfl
  deleted := rfl
  key := by
    rw [SkipList.keyOf, SkipList.alloc]
    simp only [update_self]
  top := by
    rw [SkipList.topOf, SkipList.alloc]
    simp only [update_self]
  keys x hx := congrArg Node.key (update_of_ne hx _ m.nodes)
  tops x hx := congrArg Node.topLevel (update_of_ne hx _ m.nodes)

theorem Grown.kept {m₁ : SkipList} {n t : ℕ} (h : Grown m m₁ n param t) (h' : Kept m₁ m') :
    Grown m m' n param t where
  live := h'.live.trans h.live
  headNode := h'.headNode.trans h.headNode
  maxLevel := h'.maxLevel.trans h.maxLevel
  deleted := h'.deleted.trans h.deleted
  key := (h'.key n).trans h.key
  top := (h'.top n).trans h.top
  keys x hx := (h'.key x).trans (h.keys x hx)
  tops x hx := (h'.top x).trans (h.tops x hx)

section

variable (h : WellFormed m mid tail)
include h

/-- A link of a node that exists leads to a node that exists; behind the sentinel is NULL. -/
theorem WellFormed.next_live (hp : p ∈ m.live) (hl : l < m.topOf p) :
    m.nextOf l p ∈ m.live ∨ p = tail ∧ m.nextOf l p = 0 := by
  have hmem := h.mem_live.mp hp
  have hbound : l < maxLevelBound := by
    refine hl.trans_le ?_
    rcases mem_cons.mp hmem with rfl | hmem
    · exact h.headTop.le
    · rcases mem_append.mp hmem with hmem | hmem
      · exact (h.heights p hmem).2.trans h.levels.2
      · rw [mem_singleton.mp hmem]
        exact h.tailTop.le
  obtain ⟨front, back, hsplit⟩ := append_of_mem (mem_level.mpr ⟨hmem, hl⟩)
  have hnext := h.chain.next_eq hbound hsplit
  cases back with
  | nil =>
    obtain ⟨init, hinit⟩ := h.level_tail hbound
    exact .inr ⟨singleton_inj.mp (append_inj' (hsplit.symm.trans hinit) rfl).2, hnext⟩
  | cons c back =>
    refine .inl (h.mem_live.mpr ?_)
    have hc : c ∈ level m.topOf l (m.cells mid tail) := by simp [hsplit]
    exact hnext ▸ (mem_level.mp hc).1

variable (hpos : ∀ l < m.maxLevel, Neighbours m.rank m.topOf (m.cells mid tail) l (param + 1)
  (m.arrays.preds l) (m.arrays.succs l))
include hpos

/-- `newNode` is linked on its levels. -/
private theorem WellFormed.add_spec (e : Environment) :
    ∃ m' t, m.add e param = some m' ∧ 1 ≤ t ∧ t < m.maxLevel ∧
      Grown m m' (e.address m.live m.added) param t ∧
      (∀ l < t, m'.nextOf l (m.arrays.preds l) = e.address m.live m.added ∧
        m'.nextOf l (e.address m.live m.added) = m.arrays.succs l) ∧
      ∀ l, ∀ x ∈ m.cells mid tail, (l < t → x ≠ m.arrays.preds l) →
        m'.nextOf l x = m.nextOf l x := by
  obtain ⟨hheight, hbound⟩ := randomLevel_bounds h.levels.1 (e.rand m.added)
  have hne : ∀ x ∈ m.cells mid tail, x ≠ e.address m.live m.added := by
    rintro x hx rfl
    exact e.fresh m.live m.added (h.mem_live.mpr hx)
  rw [SkipList.add]
  generalize randomLevel m.maxLevel (e.rand m.added) = t at hheight hbound
  have hgrown := grown_alloc e param t m
  have hpreds : ∀ l < t, (m.alloc e param t).arrays.preds l ∈ (m.alloc e param t).live :=
    fun l hl =>
    hgrown.live ▸ Finset.mem_insert_of_mem (h.mem_live.mpr (hpos l (by omega)).left_mem.1)
  obtain ⟨m', hlink, hkept, hnext⟩ :=
    linkLevels_spec (hgrown.live ▸ Finset.mem_insert_self _ _) t hpreds
  have harrays : (m.alloc e param t).arrays = m.arrays := rfl
  rw [harrays] at hnext
  refine ⟨m', t, hlink, hheight, hbound, hgrown.kept hkept, fun l hl => ⟨?_, ?_⟩,
    fun l x hx hother => ?_⟩
  · rw [hnext, if_pos hl]
    exact if_pos rfl
  · rw [hnext, if_pos hl, if_neg (hne _ (hpos l (by omega)).left_mem.1).symm]
    exact if_pos rfl
  · have hold : (m.alloc e param t).nextOf l x = m.nextOf l x :=
      congrFun (congrArg Node.next (update_of_ne (hne x hx) _ m.nodes)) l
    rw [hnext]
    split
    · next hl => rw [if_neg (hother hl), if_neg (hne x hx), hold]
    · exact hold

/-- A new node is linked. -/
theorem WellFormed.add (e : Environment) (hparam : param < intMax) (hnew : param ∉ m.keys mid) :
    ∃ m' mid', m.add e param = some m' ∧ WellFormed m' mid' tail ∧
      m'.keys mid' = insert param (m.keys mid) ∧ m'.deleted = m.deleted := by
  obtain ⟨m', t, hadd, hheight, hbound, hgrown, hlink, hnext⟩ := h.add_spec hpos e
  have hfresh := e.fresh m.live m.added
  have hnonnull := e.nonnull m.live m.added
  generalize e.address m.live m.added = n at hgrown hlink hfresh hnonnull
  have hne : ∀ x ∈ m.cells mid tail, x ≠ n := by
    rintro x hx rfl
    exact hfresh (h.mem_live.mpr hx)
  have hhead : n ≠ m.headNode := (hne m.headNode mem_cons_self).symm
  have hrank : ∀ x ∈ m.cells mid tail, m'.rank x = m.rank x := fun x hx => by
    rw [SkipList.rank, SkipList.rank, hgrown.headNode, hgrown.keys x (hne x hx)]
  have hmem : ∀ x ∈ mid, x ∈ m.cells mid tail := fun x hx =>
    mem_cons_of_mem _ (mem_append_left _ hx)
  have htail : tail ∈ m.cells mid tail :=
    mem_cons_of_mem _ (mem_append_right _ (mem_singleton.mpr rfl))
  have hchain : SkipChain m'.nextOf m'.rank m'.topOf maxLevelBound m.headNode 0
      (below m.rank (param + 1) (m.cells mid tail) ++ n ::
        above m.rank (param + 1) (m.cells mid tail)) :=
    h.chain.link (by rw [SkipList.rank, hgrown.headNode, if_neg hhead, hgrown.key])
      (fun hk => hnew ((h.mem_keys hparam).mpr hk)) hrank (fun x hx => hgrown.tops x (hne x hx))
      (fun l _ hl => hpos l (by rw [hgrown.top] at hl; omega))
      (fun l _ hl => hlink l (hgrown.top ▸ hl))
      (fun l _ x hx hother => hnext l x hx (fun hl => hother (hgrown.top.symm ▸ hl)))
  have hcells : m'.cells (below m.rank (param + 1) mid ++ n :: above m.rank (param + 1) mid) tail =
      below m.rank (param + 1) (m.cells mid tail) ++ n ::
        above m.rank (param + 1) (m.cells mid tail) := by
    rw [h.below_cells (Nat.succ_pos param) (by omega),
      h.above_cells (Nat.succ_pos param) (by omega),
      SkipList.cells, hgrown.headNode]
    simp only [cons_append, append_assoc]
  rw [← hcells, ← hgrown.headNode] at hchain
  refine ⟨m', _, hadd, ⟨hchain, ?_, ?_, ?_, ?_, ?_, ?_, ?_⟩, ?_, hgrown.deleted⟩
  · ext x
    rw [hgrown.live, hcells, List.mem_toFinset, mem_below_cons_above, Finset.mem_insert, h.mem_live]
  · rw [hcells, mem_below_cons_above]
    rintro (h0 | h0)
    · exact hnonnull h0.symm
    · exact h.nonnull h0
  · rw [hgrown.keys tail (hne tail htail), h.tailKey]
  · rw [hgrown.headNode, hgrown.tops _ hhead.symm, h.headTop]
  · rw [hgrown.tops tail (hne tail htail), h.tailTop]
  · intro p hp
    rw [hgrown.maxLevel]
    rcases mem_below_cons_above.mp hp with rfl | hp
    · rw [hgrown.top]
      exact ⟨hheight, hbound.le⟩
    · rw [hgrown.tops p (hne p (hmem p hp))]
      exact h.heights p hp
  · rw [hgrown.maxLevel]
    exact h.levels
  · ext key
    simp only [SkipList.keys, List.mem_toFinset, Finset.mem_insert, List.mem_map,
      mem_below_cons_above]
    constructor
    · rintro ⟨p, rfl | hp, rfl⟩
      · exact .inl hgrown.key
      · exact .inr ⟨p, hp, (hgrown.keys p (hne p (hmem p hp))).symm⟩
    · rintro (rfl | ⟨p, hp, rfl⟩)
      · exact ⟨n, .inl rfl, hgrown.key⟩
      · exact ⟨p, .inr hp, hgrown.keys p (hne p (hmem p hp))⟩

theorem WellFormed.remove {foundNode : ℕ} (hparam : param < intMax)
    (hmem : foundNode ∈ m.cells mid tail) (hrank : m.rank foundNode = param + 1) :
    ∃ m' mid', m.remove foundNode = some m' ∧ WellFormed m' mid' tail ∧
      m'.keys mid' = (m.keys mid).erase param ∧ m'.deleted = m.deleted ++ [param] := by
  obtain ⟨hmid, hkey⟩ := h.mem_mid hparam hmem hrank
  have hheight := (h.heights foundNode hmid).2
  have hpreds : ∀ l < m.topOf foundNode, m.arrays.preds l ∈ m.live := fun l hl =>
    h.mem_live.mpr (hpos l (by omega)).left_mem.1
  obtain ⟨m', hunlink, hkept, hnext⟩ := unlinkLevels_spec (h.mem_live.mpr hmem) _ hpreds
  have hremove : m.remove foundNode = some { m' with
      live := m'.live.erase foundNode, deleted := m'.deleted ++ [(m.nodes foundNode).key] } := by
    rw [SkipList.remove, h.node_eq hmem, bind_some]
    exact congrArg (Option.map _) hunlink
  have hchain : SkipChain m'.nextOf m'.rank m'.topOf maxLevelBound m.headNode 0
      (below m.rank (param + 1) (m.cells mid tail) ++
        above m.rank (param + 1 + 1) (m.cells mid tail)) :=
    h.chain.unlink hmem hrank (fun x _ => hkept.rank x) (fun x _ => hkept.top x)
      (fun l _ hl => hpos l (by omega))
      (fun l _ hl => (hnext l _).trans (if_pos ⟨hl, rfl⟩))
      (fun l _ x _ hother => (hnext l x).trans (if_neg (fun hl => hother hl.1 hl.2)))
  have hcells : m'.cells (below m.rank (param + 1) mid ++ above m.rank (param + 1 + 1) mid) tail =
      below m.rank (param + 1) (m.cells mid tail) ++
        above m.rank (param + 1 + 1) (m.cells mid tail) := by
    rw [h.below_cells (Nat.succ_pos param) (by omega), h.above_cells (Nat.succ_pos _) (by omega),
      SkipList.cells, hkept.headNode]
    simp only [cons_append, append_assoc]
  -- no other node has the key
  have hnodup : ((m.cells mid tail).map m.rank).Nodup :=
    h.chain.sorted.imp (fun hlt => ne_of_lt hlt)
  have hother : ∀ x ∈ m.cells mid tail, m.rank x ≠ param + 1 ↔ x ≠ foundNode := fun x hx =>
    not_congr ⟨fun hx' => inj_on_of_nodup_map hnodup hx hmem (hx'.trans hrank.symm),
      fun hx' => hx' ▸ hrank⟩
  rw [← hcells, ← hkept.headNode] at hchain
  refine ⟨_, _, hremove, ⟨hchain, ?_, ?_, ?_, ?_, ?_, ?_, ?_⟩, ?_, ?_⟩
  · ext x
    change x ∈ m'.live.erase foundNode ↔ x ∈ (m'.cells _ tail).toFinset
    rw [hcells, List.mem_toFinset, mem_below_append_above, Finset.mem_erase, hkept.live, h.mem_live]
    exact ⟨fun hx => ⟨hx.2, (hother x hx.2).mpr hx.1⟩, fun hx => ⟨(hother x hx.1).mp hx.2, hx.1⟩⟩
  · change 0 ∉ m'.cells _ tail
    rw [hcells, mem_below_append_above]
    exact fun h0 => h.nonnull h0.1
  · exact (hkept.key tail).trans h.tailKey
  · exact (hkept.top _).trans (hkept.headNode ▸ h.headTop)
  · exact (hkept.top tail).trans h.tailTop
  · intro p hp
    change 1 ≤ m'.topOf p ∧ m'.topOf p ≤ m'.maxLevel
    rw [hkept.top, hkept.maxLevel]
    exact h.heights p (mem_below_append_above.mp hp).1
  · change 2 ≤ m'.maxLevel ∧ m'.maxLevel ≤ maxLevelBound
    rw [hkept.maxLevel]
    exact h.levels
  · ext key
    have hrank' : ∀ p ∈ mid, m.rank p = m.keyOf p + 1 :=
      fun p hp => h.rank_eq (mem_append_left _ hp)
    simp only [SkipList.keys, List.mem_toFinset, Finset.mem_erase, List.mem_map,
      mem_below_append_above]
    constructor
    · rintro ⟨p, ⟨hp, hne⟩, rfl⟩
      rw [hrank' p hp] at hne
      exact ⟨(hkept.key p).trans_ne (by omega), p, hp, (hkept.key p).symm⟩
    · rintro ⟨hne, p, hp, rfl⟩
      refine ⟨p, ⟨hp, ?_⟩, hkept.key p⟩
      rw [hrank' p hp]
      omega
  · change m'.deleted ++ [m.keyOf foundNode] = m.deleted ++ [param]
    rw [hkept.deleted, hkey]

end

/-! ### Passes -/

def operationOf (op : ℤ) : Operation :=
  if op = containsOp then .contains else if op = addOp then .add else .remove

def answer (s : Finset ℕ × List ℕ) (request : ℤ × ℕ) : Bool × (Finset ℕ × List ℕ) :=
  let r := applySet s.1 (operationOf request.1) request.2
  (r.1, r.2, if operationOf request.1 = .remove ∧ r.1 then s.2 ++ [request.2] else s.2)

variable {s : Finset ℕ × List ℕ} {op : ℤ} {key : ℕ}

private theorem answer_contains (hop : op = containsOp) :
    answer s (op, key) = (decide (key ∈ s.1), s) := by
  simp [answer, operationOf, hop, applySet]

private theorem answer_add_of_mem (hop : op = addOp) (hkey : key ∈ s.1) :
    answer s (op, key) = (false, s) := by
  simp [answer, operationOf, hop, addOp, containsOp, applySet, hkey]

private theorem answer_add_of_notMem (hop : op = addOp) (hkey : key ∉ s.1) :
    answer s (op, key) = (true, insert key s.1, s.2) := by
  simp [answer, operationOf, hop, addOp, containsOp, applySet, hkey]

private theorem answer_remove_of_mem (hcontains : op ≠ containsOp) (hadd : op ≠ addOp)
    (hkey : key ∈ s.1) : answer s (op, key) = (true, s.1.erase key, s.2 ++ [key]) := by
  simp [answer, operationOf, hcontains, hadd, applySet, hkey]

private theorem answer_remove_of_notMem (hcontains : op ≠ containsOp) (hadd : op ≠ addOp)
    (hkey : key ∉ s.1) :
    answer s (op, key) = (false, s) := by
  simp [answer, operationOf, hcontains, hadd, applySet, hkey]

/-- The list is well formed, holds the keys of the set and has deleted the keys removed from it. -/
def Represents (tail : ℕ) (s : Finset ℕ × List ℕ) (m : SkipList) : Prop :=
  ∃ mid, WellFormed m mid tail ∧ m.keys mid = s.1 ∧ m.deleted = s.2

theorem Represents.execute (e : Environment)
    (h : Represents tail s m) {request : ℤ × ℕ} (hparam : request.2 < intMax) :
    ∃ m', execute e request m = some (if (answer s request).1 then 1 else 0, m') ∧
      Represents tail (answer s request).2 m' := by
  obtain ⟨op, param⟩ := request
  obtain ⟨keys, log⟩ := s
  obtain ⟨mid, hwell, rfl, rfl⟩ := h
  obtain ⟨foundNode, arrays, hsearch, hiff, hfound⟩ := hwell.search_head hparam op
  -- the search only leaves its two arrays
  have hwell' := hwell.setArrays arrays
  have hsame : Represents tail (m.keys mid, m.deleted) { m with arrays := arrays } :=
    ⟨mid, hwell', rfl, rfl⟩
  rw [FlatCombiningSkipList.execute, hsearch, bind_some]
  dsimp only
  by_cases hcontains : op = containsOp
  · rw [if_pos hcontains, answer_contains hcontains]
    exact ⟨_, by simp only [decide_eq_true_eq, hiff], hsame⟩
  · rw [if_neg hcontains]
    have haround := hfound.around (.inr hcontains)
    by_cases hadd : op = addOp
    · rw [if_pos hadd]
      by_cases hkey : param ∈ m.keys mid
      · rw [if_neg (hiff.mpr hkey), answer_add_of_mem hadd hkey]
        exact ⟨_, rfl, hsame⟩
      · rw [if_pos (not_not.mp (mt hiff.mp hkey)), answer_add_of_notMem hadd hkey]
        obtain ⟨m', mid', hm', hwell₁, hkeys, hdeleted⟩ := hwell'.add haround e hparam hkey
        rw [hm']
        exact ⟨m', rfl, mid', hwell₁, hkeys, hdeleted⟩
    · rw [if_neg hadd]
      by_cases hkey : param ∈ m.keys mid
      · obtain ⟨hmem, hrank⟩ := hfound.hit (hiff.mpr hkey)
        rw [if_pos (hiff.mpr hkey), answer_remove_of_mem hcontains hadd hkey]
        obtain ⟨m', mid', hm', hwell₁, hkeys, hdeleted⟩ := hwell'.remove haround hparam hmem hrank
        rw [hm']
        exact ⟨m', rfl, mid', hwell₁, hkeys, hdeleted⟩
      · rw [if_neg (mt hiff.mp hkey), answer_remove_of_notMem hcontains hadd hkey]
        exact ⟨_, rfl, hsame⟩

/-- A pass answers the slots as a set does in the order of the publication list. It deletes the
nodes of the keys that are removed and no others, and no link leads to a deleted node. -/
theorem pass_eq_answers {τ : Type} [DecidableEq τ] (e : Environment) (p : Publication τ)
    (operationTimestamp : ℤ) {m : SkipList} {mid : List ℕ} {tail : ℕ} (h : WellFormed m mid tail)
    (hkeys : ∀ r ∈ p.requests, r.2 < intMax) :
    ∃ w m' mid', p.pass (execute e) operationTimestamp m = some (w, m') ∧
      p.answers w =
        (answerAll answer (m.keys mid, m.deleted) p.requests).1.map (fun b => if b then 1 else 0) ∧
      WellFormed m' mid' tail ∧
      (m'.keys mid', m'.deleted) = (answerAll answer (m.keys mid, m.deleted) p.requests).2 ∧
      ∀ q ∈ m'.live, ∀ l < m'.topOf q, m'.nextOf l q ∈ m'.live ∨ q = tail ∧ m'.nextOf l q = 0 := by
  have hallowed : Allowed answer (fun _ r => r.2 < intMax) (m.keys mid, m.deleted) p.requests := by
    intro pre r post he
    exact hkeys r (by simp [he])
  have hstep : ∀ s r m, Represents tail s m → r.2 < intMax →
      ∃ m', execute e r m = some (if (answer s r).1 then 1 else 0, m') ∧
        Represents tail (answer s r).2 m' := fun _ _ _ hrep hr => hrep.execute e hr
  have hinv : Represents tail (m.keys mid, m.deleted) m := ⟨mid, h, rfl, rfl⟩
  obtain ⟨m', hserve, mid', hwell, hset, hlog⟩ :
      ∃ m', serveAll (execute e) p.requests m =
        some ((answerAll answer (m.keys mid, m.deleted) p.requests).1.map
          (fun b => if b then 1 else 0), m') ∧
      Represents tail (answerAll answer (m.keys mid, m.deleted) p.requests).2 m' :=
    serveAll_of_simulation hstep hinv hallowed
  obtain ⟨w, hpass, hanswers, -⟩ := p.pass_of_serveAll hserve operationTimestamp
  exact ⟨w, m', mid', hpass, hanswers, hwell, Prod.ext hset hlog,
    fun q hq l hl => hwell.next_live hq hl⟩

def sentinels : SkipList where
  nodes p := if p = 1 then ⟨0, maxLevelBound, fun _ => 2⟩ else ⟨intMax, maxLevelBound, fun _ => 0⟩
  live := {1, 2}
  headNode := 1
  maxLevel := 2
  arrays := ⟨fun _ => 0, fun _ => 0⟩
  added := 0
  deleted := []

theorem wellFormed_sentinels : WellFormed sentinels [] 2 where
  chain := by
    refine ⟨fun l hl => ?_, by decide⟩
    have hlevel : level sentinels.topOf l (sentinels.cells [] 2) = [1, 2] :=
      filter_eq_self.mpr (fun c hc => by
        rcases mem_cons.mp hc with rfl | hc
        · exact decide_eq_true hl
        · rw [mem_singleton.mp hc]
          exact decide_eq_true hl)
    rw [hlevel]
    exact ⟨rfl, rfl, rfl⟩
  live := by decide
  nonnull := by decide
  tailKey := rfl
  headTop := rfl
  tailTop := rfl
  heights p hp := absurd hp not_mem_nil
  levels := by decide

def nextAddress : Environment where
  rand _ := 1
  address live _ := live.sup id + 1
  contents _ := ⟨0, 0, fun _ => 0⟩
  fresh _ _ hmem := Nat.not_succ_le_self _ (Finset.le_sup (f := id) hmem)
  nonnull _ _ := Nat.succ_ne_zero _

def addRemove : Publication Bool where
  slots t := if t then ⟨true, addOp, 5, 0, 0, true, some false⟩ else ⟨true, 3, 5, 0, 0, true, none⟩
  tailSlot := some true
  published := [true, false]
  chain := ⟨rfl, rfl, rfl⟩
  nodup := by decide

theorem pass_eq_answers_five :
    ∃ w m' mid', addRemove.pass (execute nextAddress) 0 sentinels = some (w, m') ∧
      addRemove.answers w = [1, 1] ∧ WellFormed m' mid' 2 ∧
        (m'.keys mid', m'.deleted) = (∅, [5]) := by
  obtain ⟨w, m', mid', hpass, hanswers, hwell, hset, -⟩ :=
    pass_eq_answers nextAddress addRemove 0 wellFormed_sentinels (by decide)
  exact ⟨w, m', mid', hpass, hanswers.trans (by decide), hwell, hset.trans (by decide)⟩

end SmcSim.FlatCombiningSkipList
