import SmcSim.SkipListShape

/-!
# The search of a skip list

The descent records, on every level it passes, the neighbours around the key. It
finds the node of the key if there is one; otherwise, or if it is told to keep
going, it has recorded the neighbours on all levels down to level 0.
-/

namespace SmcSim.SkipListSearch
open EffectPrograms PimMemory SkipChains SkipListPrograms SkipListShape CommandSpec List

section Search

variable {Port : Type} {PortRes : Port → Type} {V : Type} {d : CommandSpec Port PortRes V}
variable {w : Machine V} {L : Layout} {bound : ℕ} {cells free : List ℕ} {k : ℕ}
variable {parameter : Kernel Port PortRes ℕ}

/-- In the world `w` the program returns `k` and changes nothing. -/
def Returns (d : CommandSpec Port PortRes V) (parameter : Kernel Port PortRes ℕ) (w : Machine V)
    (k : ℕ) : Prop :=
  ∀ Q : ℕ → Machine V → Prop, Q k w → (spec d).wp parameter w Q

theorem wp_walkLevel {fuel l p c : ℕ} {front back : List ℕ} {Q : ℕ × ℕ → Machine V → Prop}
    (hparam : Returns d parameter w k) (h : SkipShape L bound w.memory cells free)
    (hk : k < uint32Max) (hl : l < L.maxLevel)
    (he : level (topOf L w.memory) l cells = front ++ p :: c :: back)
    (hp : keyOf L w.memory p < k) (hfuel : back.length < fuel)
    (hQ : ∀ p' c', Around L w.memory cells l k p' c' → Q (p', c') w) :
    (spec d).wp (walkLevel L parameter fuel l p c) w Q := by
  induction back generalizing front p c fuel with
  | nil =>
    obtain ⟨fuel, rfl⟩ : ∃ f, fuel = f + 1 := ⟨fuel - 1, by omega⟩
    obtain ⟨init, hinit⟩ := h.level_tail hl
    have hct : c = w.memory.sreg listTail := by
      have he' : (front ++ [p]) ++ [c] = init ++ [w.memory.sreg listTail] := by
        rw [← hinit, he]
        simp
      exact singleton_inj.mp (append_inj' he' rfl).2
    have hkc : k ≤ keyOf L w.memory c := by
      rw [hct, h.key_tail]
      exact hk.le
    have hstop : ¬ k > w.memory.vault c L.key := not_lt.mpr hkc
    have hmem : c ∈ level (topOf L w.memory) l cells := by simp only [he]; simp
    have hc0 : c ≠ 0 := h.ne_zero (mem_level.mp hmem).1
    simp only [walkLevel, Prog.loop, Prog.bind_eq, wp_bind]
    apply hparam
    simp only [wp_load_of_ne hc0, hstop, if_false, wp_pure, wp_ret]
    exact hQ p c ⟨front, [], he, hp, hkc⟩
  | cons e back ih =>
    obtain ⟨fuel, rfl⟩ : ∃ f, fuel = f + 1 := ⟨fuel - 1, by simp at hfuel; omega⟩
    have hmem : c ∈ level (topOf L w.memory) l cells := by simp only [he]; simp
    have hc0 : c ≠ 0 := h.ne_zero (mem_level.mp hmem).1
    simp only [walkLevel, Prog.loop, Prog.bind_eq, wp_bind]
    apply hparam
    simp only [wp_load_of_ne hc0]
    by_cases hlt : k > w.memory.vault c L.key
    · have he' : level (topOf L w.memory) l cells = (front ++ [p]) ++ c :: e :: back := by
        rw [he]
        simp
      have hnext : w.memory.vault c (L.next l) = e := h.chain.next_eq hl he'
      simp only [hlt, if_true, wp_bind, wp_load_of_ne hc0, hnext, wp_pure]
      exact ih he' hlt (by simp at hfuel; omega)
    · simp only [hlt, if_false, wp_pure, wp_ret]
      exact hQ p c ⟨front, e :: back, he, hp, not_lt.mp hlt⟩

/-- What the descent through the levels below `level` establishes. -/
structure Found (L : Layout) (m : Memory) (cells : List ℕ) (k : ℕ) (keepGoing : Bool) (level : ℕ)
    (locals : Locals) (foundNode : ℕ) (locals' : Locals) : Prop where
  untouched : ∀ l, level ≤ l →
    locals'.preds l = locals.preds l ∧ locals'.succs l = locals.succs l
  hit : foundNode ≠ 0 → foundNode ∈ cells ∧ keyOf L m foundNode = k
  around : foundNode = 0 ∨ keepGoing = true → ∀ l < level,
    Around L m cells l k (locals'.preds l) (locals'.succs l)
  miss : foundNode = 0 → ∀ l < level, keyOf L m (locals'.succs l) ≠ k

variable {locals : Locals}

/-- One more level recorded above a finished descent. -/
theorem Found.record {m : Memory} {keepGoing : Bool} {level p c foundNode : ℕ}
    {locals' : Locals}
    (h : Found L m cells k keepGoing level (locals.record level p c) foundNode locals')
    (ha : Around L m cells level k p c) (hmiss : foundNode = 0 → keyOf L m c ≠ k) :
    Found L m cells k keepGoing (level + 1) locals foundNode locals' := by
  have hlevel : locals'.preds level = p ∧ locals'.succs level = c := by
    obtain ⟨hp, hc⟩ := h.untouched level (le_refl level)
    exact ⟨hp.trans (by simp [Locals.record]), hc.trans (by simp [Locals.record])⟩
  refine ⟨fun l hl => ?_, h.hit, fun hf l hl => ?_, fun hf l hl => ?_⟩
  · have hne : l ≠ level := by omega
    obtain ⟨hp, hc⟩ := h.untouched l (by omega)
    exact ⟨hp.trans (by simp [Locals.record, hne]), hc.trans (by simp [Locals.record, hne])⟩
  · rcases Nat.lt_succ_iff_lt_or_eq.mp hl with hlt | rfl
    · exact h.around hf l hlt
    · rw [hlevel.1, hlevel.2]
      exact ha
  · rcases Nat.lt_succ_iff_lt_or_eq.mp hl with hlt | rfl
    · exact h.miss hf l hlt
    · rw [hlevel.2]
      exact hmiss hf

theorem wp_findNode {keepGoing : Bool} {fuel : ℕ} (level : ℕ) {p foundNode : ℕ}
    {Q : ℕ × Locals → Machine V → Prop} (hparam : Returns d parameter w k)
    (h : SkipShape L bound w.memory cells free) (hk : k < uint32Max)
    (hfuel : cells.length ≤ fuel) (hlevel : level ≤ L.maxLevel) (hp : p ∈ cells)
    (htop : level ≤ topOf L w.memory p) (hkey : keyOf L w.memory p < k)
    (hfound : foundNode ≠ 0 →
      foundNode ∈ cells ∧ keyOf L w.memory foundNode = k ∧ keepGoing = true)
    (hQ : ∀ foundNode' locals', (foundNode ≠ 0 → foundNode' = foundNode) →
      Found L w.memory cells k keepGoing level locals foundNode' locals' →
      Q (foundNode', locals') w) :
    (spec d).wp (findNode L parameter keepGoing fuel level p foundNode locals) w Q := by
  induction level generalizing p foundNode locals Q with
  | zero =>
    refine hQ foundNode locals (fun _ => rfl) ⟨fun _ _ => ⟨rfl, rfl⟩, fun hf => ?_, ?_, ?_⟩
    · exact ⟨(hfound hf).1, (hfound hf).2.1⟩
    · exact fun _ l hl => absurd hl (Nat.not_lt_zero l)
    · exact fun _ l hl => absurd hl (Nat.not_lt_zero l)
  | succ level ih =>
    obtain ⟨front, c, back, he, hnext⟩ :=
      h.level_next (l := level) (by omega) hp (by omega) (hkey.trans hk)
    have hp0 : p ≠ 0 := h.ne_zero hp
    have hnext' : w.memory.vault p (L.next level) = c := hnext
    have hlen : back.length < fuel := by
      have hle := length_filter_le (fun x => decide (level < topOf L w.memory x)) cells
      have hlev : (SkipChains.level (topOf L w.memory) level cells).length ≤ cells.length := hle
      rw [he] at hlev
      simp only [length_append, length_cons] at hlev
      omega
    simp only [findNode, wp_bind, wp_load_of_ne hp0, hnext']
    refine wp_walkLevel hparam h hk (by omega) he hkey hlen ?_
    intro p' c' ha
    have hp' := ha.left_mem
    have hc0 : c' ≠ 0 := h.ne_zero ha.right_mem.1
    have hkp : keyOf L w.memory p' < k := by
      obtain ⟨_, _, _, hlt, _⟩ := ha
      exact hlt
    by_cases hf : foundNode = 0
    · simp only [hf, if_true, wp_bind]
      apply hparam
      simp only [wp_load_of_ne hc0]
      by_cases hhit : k = w.memory.vault c' L.key
      · have hkc : keyOf L w.memory c' = k := hhit.symm
        simp only [← hhit, if_true]
        by_cases hkeep : keepGoing = true
        · rw [if_pos hkeep]
          refine ih (by omega) hp'.1 hp'.2.le hkp (fun _ => ⟨ha.right_mem.1, hkc, hkeep⟩) ?_
          intro found' locals' hsame hfd
          have hfound' : found' = c' := hsame hc0
          exact hQ found' locals' (fun hne => absurd hf hne)
            (hfd.record ha (fun h0 => absurd (hfound'.symm.trans h0) hc0))
        · rw [if_neg hkeep]
          refine hQ c' locals (fun hne => absurd hf hne)
            ⟨fun _ _ => ⟨rfl, rfl⟩, fun _ => ⟨ha.right_mem.1, hkc⟩, ?_, fun h0 => absurd h0 hc0⟩
          rintro (h0 | hk')
          · exact absurd h0 hc0
          · exact absurd hk' hkeep
      · simp only [hhit, if_false]
        refine ih (by omega) hp'.1 hp'.2.le hkp (fun hne => absurd rfl hne) ?_
        intro found' locals' _ hfd
        exact hQ found' locals' (fun hne => absurd hf hne)
          (hfd.record ha (fun _ hkc => hhit hkc.symm))
    · simp only [hf, if_false]
      refine ih (by omega) hp'.1 hp'.2.le hkp hfound ?_
      intro found' locals' hsame hfd
      have hfound' : found' = foundNode := hsame hf
      exact hQ found' locals' hsame
        (hfd.record ha (fun h0 => absurd (hfound'.symm.trans h0) hf))

/-- The descent from the head sentinel. -/
theorem wp_findNode_head {keepGoing : Bool} {fuel levels : ℕ}
    {Q : ℕ × Locals → Machine V → Prop} (hparam : Returns d parameter w k)
    (h : SkipShape L bound w.memory cells free) (hk : KeyInRange k)
    (hfuel : cells.length ≤ fuel) (hpos : 0 < levels) (hlevels : levels ≤ L.maxLevel)
    (hQ : ∀ foundNode locals', (foundNode ≠ 0 ↔ k ∈ keysBetween (keyOf L w.memory) cells) →
      Found L w.memory cells k keepGoing levels locals foundNode locals' →
      Q (foundNode, locals') w) :
    (spec d).wp (findNode L parameter keepGoing fuel levels (w.memory.sreg listHead) 0 locals)
      w Q := by
  obtain ⟨hmem, htop⟩ := h.head_mem (hpos.trans_le hlevels)
  refine wp_findNode levels hparam h hk.2 hfuel hlevels hmem (hlevels.trans htop) ?_
    (fun hne => absurd rfl hne) ?_
  · rw [h.key_head (hpos.trans_le hlevels)]
    exact hk.1
  · intro foundNode locals' _ hfd
    refine hQ foundNode locals' ?_ hfd
    rw [mem_keysBetween hk]
    constructor
    · intro hne
      obtain ⟨hc, hkc⟩ := hfd.hit hne
      exact hkc ▸ mem_map_of_mem hc
    · intro hkey h0
      exact hfd.miss h0 0 hpos (((hfd.around (.inl h0) 0 hpos).mem_iff h).mp hkey)

end Search

end SmcSim.SkipListSearch
