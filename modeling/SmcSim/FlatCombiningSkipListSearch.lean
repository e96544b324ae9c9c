import SmcSim.FlatCombiningSkipList

/-!
# The search of the flat-combining skip list

On every level the search stops between the last node below the key and the first one from the key
on. It finds the node of the key if there is one; and unless it stops early, the arrays have the
neighbours of the key on all levels, whatever the requests before have left in them.
-/

namespace SmcSim.FlatCombiningSkipList
open SkipChains SkipChain List Function Option

section Shape

variable {m : SkipList} {mid : List ℕ} {tail p l k : ℕ}

namespace WellFormed

section

variable (h : WellFormed m mid tail)
include h

theorem mem_live : p ∈ m.live ↔ p ∈ m.cells mid tail := by
  rw [h.live, List.mem_toFinset]

theorem node_eq (hp : p ∈ m.cells mid tail) : m.node p = some (m.nodes p) :=
  if_pos (h.mem_live.mpr hp)

theorem ne_zero (hp : p ∈ m.cells mid tail) : p ≠ 0 :=
  fun h0 => h.nonnull (h0 ▸ hp)

theorem card_live : m.live.card = (m.cells mid tail).length := by
  rw [h.live, toFinset_card_of_nodup h.chain.nodup]

theorem ne_head (hp : p ∈ mid ++ [tail]) : p ≠ m.headNode :=
  fun heq => (nodup_cons.mp h.chain.nodup).1 (heq ▸ hp)

theorem rank_eq (hp : p ∈ mid ++ [tail]) : m.rank p = m.keyOf p + 1 :=
  if_neg (h.ne_head hp)

end

theorem rank_head : m.rank m.headNode = 0 := if_pos rfl

section

variable (h : WellFormed m mid tail)
include h

theorem rank_tail : m.rank tail = intMax + 1 := by
  rw [h.rank_eq (mem_append_right _ (mem_singleton.mpr rfl)), h.tailKey]

/-- A node behind another one is not the head. -/
theorem rank_eq_of_lt (hp : p ∈ m.cells mid tail) (hpos : 0 < m.rank p) :
    m.rank p = m.keyOf p + 1 := by
  rcases mem_cons.mp hp with rfl | hp
  · rw [rank_head] at hpos
    exact absurd hpos (lt_irrefl 0)
  · exact h.rank_eq hp

/-- Level 0 visits every node. -/
theorem level_zero : level m.topOf 0 (m.cells mid tail) = m.cells mid tail := by
  refine filter_eq_self.mpr (fun c hc => decide_eq_true ?_)
  rcases mem_cons.mp hc with rfl | hc
  · rw [h.headTop]
    decide
  · rcases mem_append.mp hc with hc | hc
    · exact (h.heights c hc).1
    · rw [mem_singleton.mp hc, h.tailTop]
      decide

/-- Every level ends at the sentinel. -/
theorem level_tail (hl : l < maxLevelBound) :
    ∃ init, level m.topOf l (m.cells mid tail) = init ++ [tail] := by
  refine ⟨level m.topOf l (m.headNode :: mid), ?_⟩
  have htail : level m.topOf l [tail] = [tail] := level_cons_of_lt (h.tailTop ▸ hl)
  rw [SkipList.cells, ← cons_append, level_append, htail]

end

end WellFormed

end Shape

section Search

variable {m : SkipList} {mid : List ℕ} {tail param : ℕ} {op : ℤ}

/-- The loop on one level stops around the key. -/
theorem WellFormed.walk {l p c fuel : ℕ} {front back : List ℕ} (h : WellFormed m mid tail)
    (hparam : param < intMax) (hl : l < maxLevelBound)
    (he : level m.topOf l (m.cells mid tail) = front ++ p :: c :: back) (hp : m.rank p < param + 1)
    (hfuel : back.length < fuel) :
    ∃ p' c', m.walk param l fuel p c = some (p', c') ∧
      Neighbours m.rank m.topOf (m.cells mid tail) l (param + 1) p' c' := by
  induction back generalizing front p c fuel with
  | nil =>
    obtain ⟨fuel, rfl⟩ := Nat.exists_eq_succ_of_ne_zero (Nat.ne_zero_of_lt hfuel)
    obtain ⟨init, hinit⟩ := h.level_tail hl
    have hc : c = tail := by
      have heq : (front ++ [p]) ++ [c] = init ++ [tail] := by
        rw [← hinit, he, append_assoc]
        rfl
      exact singleton_inj.mp (append_inj' heq rfl).2
    subst hc
    have hmem : c ∈ m.cells mid c := mem_cons_of_mem _ (mem_append_right _ (by simp))
    have hstop : ¬ param > (m.nodes c).key := by
      rw [show (m.nodes c).key = intMax from h.tailKey]
      exact not_lt.mpr hparam.le
    refine ⟨p, c, ?_, front, [], he, hp, ?_⟩
    · rw [SkipList.walk, h.node_eq hmem, bind_some, if_neg hstop]
    · rw [h.rank_tail]
      exact Nat.succ_le_succ hparam.le
  | cons e back ih =>
    obtain ⟨fuel, rfl⟩ := Nat.exists_eq_succ_of_ne_zero (Nat.ne_zero_of_lt hfuel)
    have hmem : c ∈ m.cells mid tail := (mem_level.mp (he ▸ by simp : c ∈ level m.topOf l _)).1
    have hsorted := h.chain.level_sorted l
    rw [he, map_append, pairwise_append] at hsorted
    have hlt : m.rank p < m.rank c :=
      (pairwise_cons.mp hsorted.2.1).1 _ (List.mem_map_of_mem mem_cons_self)
    have hrank := h.rank_eq_of_lt hmem (Nat.zero_lt_of_lt hlt)
    rw [SkipList.walk, h.node_eq hmem, bind_some]
    by_cases hgo : param > (m.nodes c).key
    · have he' : level m.topOf l (m.cells mid tail) = (front ++ [p]) ++ c :: e :: back := by
        rw [he, append_assoc]
        rfl
      have hnext : (m.nodes c).next l = e := h.chain.next_eq hl he'
      rw [if_pos hgo, hnext]
      exact ih he' (hrank ▸ Nat.succ_lt_succ hgo) (Nat.lt_of_succ_lt_succ hfuel)
    · rw [if_neg hgo]
      exact ⟨p, c, rfl, front, e :: back, he, hp, hrank ▸ Nat.succ_le_succ (not_lt.mp hgo)⟩

/-- What the search through the levels below `level` establishes. -/
structure Found (m : SkipList) (cells : List ℕ) (param : ℕ) (op : ℤ) (level : ℕ) (arrays : Arrays)
    (foundNode : ℕ) (arrays' : Arrays) : Prop where
  untouched : ∀ l, level ≤ l →
    arrays'.preds l = arrays.preds l ∧ arrays'.succs l = arrays.succs l
  hit : foundNode ≠ 0 → foundNode ∈ cells ∧ m.rank foundNode = param + 1
  around : foundNode = 0 ∨ op ≠ containsOp → ∀ l < level,
    Neighbours m.rank m.topOf cells l (param + 1) (arrays'.preds l) (arrays'.succs l)
  miss : foundNode = 0 → ∀ l < level, m.rank (arrays'.succs l) ≠ param + 1

/-- One more level recorded above a finished search. -/
theorem Found.record {cells : List ℕ} {level p c foundNode : ℕ} {arrays arrays' : Arrays}
    (h : Found m cells param op level (arrays.record level p c) foundNode arrays')
    (hpos : Neighbours m.rank m.topOf cells level (param + 1) p c)
    (hmiss : foundNode = 0 → m.rank c ≠ param + 1) :
    Found m cells param op (level + 1) arrays foundNode arrays' := by
  obtain ⟨hp, hc⟩ : arrays'.preds level = p ∧ arrays'.succs level = c := by
    obtain ⟨hp, hc⟩ := h.untouched level (le_refl level)
    exact ⟨hp.trans (update_self ..), hc.trans (update_self ..)⟩
  refine ⟨fun l hl => ?_, h.hit, fun hf l hl => ?_, fun hf l hl => ?_⟩
  · have hne : l ≠ level := by omega
    obtain ⟨hp, hc⟩ := h.untouched l (by omega)
    exact ⟨hp.trans (update_of_ne hne ..), hc.trans (update_of_ne hne ..)⟩
  · rcases Nat.lt_succ_iff_lt_or_eq.mp hl with hlt | rfl
    · exact h.around hf l hlt
    · rw [hp, hc]
      exact hpos
  · rcases Nat.lt_succ_iff_lt_or_eq.mp hl with hlt | rfl
    · exact h.miss hf l hlt
    · rw [hc]
      exact hmiss hf

section

variable (h : WellFormed m mid tail)
include h

theorem WellFormed.level_next {l p : ℕ} (hl : l < maxLevelBound) (hp : p ∈ m.cells mid tail)
    (htop : l < m.topOf p) (hrank : m.rank p < intMax + 1) :
    ∃ front c back, level m.topOf l (m.cells mid tail) = front ++ p :: c :: back ∧
      (m.nodes p).next l = c := by
  obtain ⟨init, hinit⟩ := h.level_tail hl
  exact h.chain.level_next hl hinit hp htop (fun he => by rw [he, h.rank_tail] at hrank; omega)

section

variable (hparam : param < intMax)
include hparam

theorem WellFormed.search {level p foundNode : ℕ} {arrays : Arrays} (hlevel : level ≤ maxLevelBound)
    (hp : p ∈ m.cells mid tail) (htop : level ≤ m.topOf p) (hrank : m.rank p < param + 1)
    (hfound : foundNode ≠ 0 →
      foundNode ∈ m.cells mid tail ∧ m.rank foundNode = param + 1 ∧ op ≠ containsOp) :
    ∃ foundNode' arrays', m.search op param level p foundNode arrays = some (foundNode', arrays') ∧
      (foundNode ≠ 0 → foundNode' = foundNode) ∧
      Found m (m.cells mid tail) param op level arrays foundNode' arrays' := by
  induction level generalizing p foundNode arrays with
  | zero =>
    exact ⟨foundNode, arrays, rfl, fun _ => rfl, fun _ _ => ⟨rfl, rfl⟩,
      fun hf => ⟨(hfound hf).1, (hfound hf).2.1⟩, fun _ l hl => absurd hl (Nat.not_lt_zero l),
      fun _ l hl => absurd hl (Nat.not_lt_zero l)⟩
  | succ level ih =>
    obtain ⟨front, c, back, he, hnext⟩ :=
      h.level_next (l := level) (by omega) hp (by omega) (by omega)
    have hfuel : back.length < m.live.card := by
      have hle : (SkipChains.level m.topOf level (m.cells mid tail)).length ≤ _ :=
        length_filter_le _ _
      rw [he, length_append, length_cons, length_cons, ← h.card_live] at hle
      omega
    obtain ⟨p', c', hwalk, hpos⟩ := h.walk hparam (by omega) he hrank hfuel
    obtain ⟨hp', htop'⟩ := hpos.left_mem
    obtain ⟨hc', -⟩ := hpos.right_mem
    obtain ⟨-, -, -, hlt, hge⟩ := id hpos
    have hkey : m.rank c' = (m.nodes c').key + 1 := h.rank_eq_of_lt hc' (by omega)
    have hc0 := h.ne_zero hc'
    have hdown : ∀ found, (found ≠ 0 →
        found ∈ m.cells mid tail ∧ m.rank found = param + 1 ∧ op ≠ containsOp) →
        ∃ found' arrays', m.search op param level p' found (arrays.record level p' c') =
            some (found', arrays') ∧
          (found ≠ 0 → found' = found) ∧
          Found m (m.cells mid tail) param op level (arrays.record level p' c') found' arrays' :=
      fun found hfound => ih (by omega) hp' htop'.le hlt hfound
    rw [SkipList.search, h.node_eq hp, bind_some, hnext, hwalk, bind_some,
      h.node_eq hc', bind_some]
    by_cases hhit : foundNode = 0 ∧ param = (m.nodes c').key
    · rw [if_pos hhit]
      have hrank' : m.rank c' = param + 1 := by rw [hkey, ← hhit.2]
      by_cases hop : op = containsOp
      · rw [if_pos hop]
        exact ⟨c', arrays, rfl, fun hne => absurd hhit.1 hne, fun _ _ => ⟨rfl, rfl⟩,
          fun _ => ⟨hc', hrank'⟩, fun hor => absurd hor (by simp [hc0, hop]),
          fun h0 => absurd h0 hc0⟩
      · rw [if_neg hop]
        obtain ⟨found', arrays', hsearch, hsame, hrest⟩ :=
          hdown c' (fun _ => ⟨hc', hrank', hop⟩)
        have hfound' := hsame hc0
        exact ⟨found', arrays', hsearch, fun hne => absurd hhit.1 hne,
          hrest.record hpos (fun h0 => absurd (hfound'.symm.trans h0) hc0)⟩
    · rw [if_neg hhit]
      obtain ⟨found', arrays', hsearch, hsame, hrest⟩ := hdown foundNode hfound
      refine ⟨found', arrays', hsearch, hsame, hrest.record hpos (fun h0 heq => ?_)⟩
      -- the search goes on without the node only if it has found one before
      refine hhit ⟨?_, by omega⟩
      by_contra hne
      exact hne ((hsame hne).symm.trans h0)

/-- The node of a key is between the sentinels. -/
theorem WellFormed.mem_mid {p : ℕ} (hp : p ∈ m.cells mid tail) (hrank : m.rank p = param + 1) :
    p ∈ mid ∧ m.keyOf p = param := by
  have hkey := h.rank_eq_of_lt hp (hrank ▸ Nat.succ_pos param)
  refine ⟨?_, by omega⟩
  rcases mem_cons.mp hp with rfl | hp
  · rw [WellFormed.rank_head] at hrank
    cases hrank
  · rcases mem_append.mp hp with hp | hp
    · exact hp
    · rw [mem_singleton.mp hp, h.rank_tail] at hrank
      omega

theorem WellFormed.mem_keys : param ∈ m.keys mid ↔ param + 1 ∈ (m.cells mid tail).map m.rank := by
  rw [SkipList.keys, List.mem_toFinset]
  constructor
  · intro hk
    obtain ⟨p, hp, rfl⟩ := List.mem_map.mp hk
    have hmem := mem_append_left [tail] hp
    exact List.mem_map.mpr ⟨p, mem_cons_of_mem _ hmem, h.rank_eq hmem⟩
  · intro hk
    obtain ⟨p, hp, hrank⟩ := List.mem_map.mp hk
    obtain ⟨hmem, rfl⟩ := h.mem_mid hparam hp hrank
    exact List.mem_map_of_mem hmem

theorem WellFormed.search_head (op : ℤ) :
    ∃ foundNode arrays, m.search op param m.maxLevel m.headNode 0 m.arrays =
      some (foundNode, arrays) ∧
      (foundNode ≠ 0 ↔ param ∈ m.keys mid) ∧
      Found m (m.cells mid tail) param op m.maxLevel m.arrays foundNode arrays := by
  have hlevels := h.levels
  obtain ⟨foundNode, arrays, hsearch, -, hfound⟩ : ∃ foundNode arrays,
      m.search op param m.maxLevel m.headNode 0 m.arrays = some (foundNode, arrays) ∧ _ ∧
        Found m (m.cells mid tail) param op m.maxLevel m.arrays foundNode arrays :=
    h.search hparam hlevels.2 mem_cons_self (by rw [h.headTop]; exact hlevels.2)
      (by rw [WellFormed.rank_head]; exact Nat.succ_pos param) (fun h0 => absurd rfl h0)
  refine ⟨foundNode, arrays, hsearch, ?_, hfound⟩
  rw [h.mem_keys hparam]
  constructor
  · intro hne
    obtain ⟨hmem, hrank⟩ := hfound.hit hne
    exact List.mem_map.mpr ⟨foundNode, hmem, hrank⟩
  · intro hmem h0
    have hpos := hfound.around (.inl h0) 0 (by omega)
    exact hfound.miss h0 0 (by omega) ((hpos.mem_iff h.chain h.level_zero).mp hmem)

end

end

end Search

end SmcSim.FlatCombiningSkipList
