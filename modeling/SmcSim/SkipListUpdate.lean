import SmcSim.SkipListSearch

/-!
# Linking and unlinking skip list nodes

The effect of the two update loops on the vault, and that they keep the shape of
the skip list when the recorded neighbours lie around the key on every level of the
node. Unlinking does not give the block back to the free list.
-/

namespace SmcSim.SkipListUpdate
open EffectPrograms PimMemory SkipChains SkipListPrograms SkipListShape SkipListSearch
open List CommandSpec

variable {L : Layout}

/-! ### Effects on the vault -/

/-- The vault after `linkNode` has handled the levels below `n`. -/
def linkLevels (L : Layout) (newNode : ℕ) (locals : Locals) (m : Memory) : ℕ → Memory
  | 0 => m
  | l + 1 => ((linkLevels L newNode locals m l).store newNode (L.next l) (locals.succs l)).store
      (locals.preds l) (L.next l) newNode

/-- The vault after `unlinkNode` has handled the levels below `n`, from the top. -/
def unlinkLevels (L : Layout) (foundNode : ℕ) (locals : Locals) : ℕ → Memory → Memory
  | 0, m => m
  | l + 1, m => unlinkLevels L foundNode locals l
      (m.store (locals.preds l) (L.next l) (m.vault foundNode (L.next l)))

/-- The vault after `addNode` has taken block `b`. -/
def insertNode (L : Layout) (m : Memory) (b k t : ℕ) (locals : Locals) : Memory :=
  linkLevels L b locals
    (((m.setSreg freeBlocksHead (m.vault b 0)).store b L.topLevel t).store b L.key k) t

variable {newNode foundNode : ℕ} {locals : Locals} {m : Memory} {n l q off : ℕ}

@[simp] theorem linkLevels_sreg : (linkLevels L newNode locals m n).sreg = m.sreg := by
  induction n with
  | zero => rfl
  | succ n ih => simp [linkLevels, ih]

/-- Only the entries below the height of the node are read. -/
theorem linkLevels_congr {locals' : Locals}
    (h : ∀ l < n, locals.preds l = locals'.preds l ∧ locals.succs l = locals'.succs l) :
    linkLevels L newNode locals m n = linkLevels L newNode locals' m n := by
  induction n with
  | zero => rfl
  | succ n ih =>
    obtain ⟨hpred, hsucc⟩ := h n (Nat.lt_succ_self n)
    rw [linkLevels, linkLevels, ih (fun l hl => h l (hl.trans (Nat.lt_succ_self n))), hpred, hsucc]

@[simp] theorem unlinkLevels_sreg : (unlinkLevels L foundNode locals n m).sreg = m.sreg := by
  induction n generalizing m with
  | zero => rfl
  | succ n ih => simp [unlinkLevels, ih]

private theorem linkLevels_field (hoff : ∀ l < n, off ≠ L.next l) :
    (linkLevels L newNode locals m n).vault q off = m.vault q off := by
  induction n with
  | zero => rfl
  | succ n ih =>
    have hne : off ≠ L.next n := hoff n (Nat.lt_succ_self n)
    simp [linkLevels, hne, ih (fun l hl => hoff l (by omega))]

private theorem unlinkLevels_field (hoff : ∀ l < n, off ≠ L.next l) :
    (unlinkLevels L foundNode locals n m).vault q off = m.vault q off := by
  induction n generalizing m with
  | zero => rfl
  | succ n ih =>
    have hne : off ≠ L.next n := hoff n (Nat.lt_succ_self n)
    rw [unlinkLevels, ih (fun l hl => hoff l (by omega))]
    simp [hne]

private theorem linkLevels_block (hq : q ≠ newNode) (hp : ∀ l < n, q ≠ locals.preds l) :
    (linkLevels L newNode locals m n).vault q off = m.vault q off := by
  induction n with
  | zero => rfl
  | succ n ih =>
    have hne : q ≠ locals.preds n := hp n (Nat.lt_succ_self n)
    simp [linkLevels, hq, hne, ih (fun l hl => hp l (by omega))]

private theorem unlinkLevels_block (hp : ∀ l < n, q ≠ locals.preds l) :
    (unlinkLevels L foundNode locals n m).vault q off = m.vault q off := by
  induction n generalizing m with
  | zero => rfl
  | succ n ih =>
    have hne : q ≠ locals.preds n := hp n (Nat.lt_succ_self n)
    rw [unlinkLevels, ih (fun l hl => hp l (by omega))]
    simp [hne]

private theorem nextOf_linkLevels (hn : n ≤ L.maxLevel) (hl : l < L.maxLevel) :
    nextOf L (linkLevels L newNode locals m n) l q =
      if l < n then if q = locals.preds l then newNode else
        if q = newNode then locals.succs l else nextOf L m l q
      else nextOf L m l q := by
  induction n with
  | zero => rfl
  | succ n ih =>
    by_cases hln : l = n
    · subst hln
      have hold : (linkLevels L newNode locals m l).vault q (L.next l) = m.vault q (L.next l) :=
        linkLevels_field (fun l' hl' he =>
          absurd (L.next_injective l hl l' (by omega) he) (by omega))
      simp only [nextOf, linkLevels, Memory.store_vault, hold]
      by_cases hqp : q = locals.preds l
      · simp [hqp]
      · by_cases hqn : q = newNode <;> simp [hqp, hqn]
    · have hne : L.next l ≠ L.next n := fun he => hln (L.next_injective l hl n (by omega) he)
      have hold := ih (by omega)
      have hiff : l < n + 1 ↔ l < n := by omega
      simp only [nextOf, linkLevels, Memory.store_vault, hne, and_false, if_false, hiff] at hold ⊢
      exact hold

private theorem nextOf_unlinkLevels (hn : n ≤ L.maxLevel) (hl : l < L.maxLevel) :
    nextOf L (unlinkLevels L foundNode locals n m) l q =
      if l < n ∧ q = locals.preds l then nextOf L m l foundNode else nextOf L m l q := by
  induction n generalizing m with
  | zero => simp [unlinkLevels]
  | succ n ih =>
    rw [unlinkLevels, ih (by omega)]
    by_cases hln : l = n
    · subst hln
      simp only [lt_irrefl, false_and, if_false, Nat.lt_succ_self, true_and]
      by_cases hqp : q = locals.preds l
      · simp [hqp, nextOf]
      · simp [hqp, nextOf]
    · have hne : L.next l ≠ L.next n := fun he => hln (L.next_injective l hl n (by omega) he)
      have hiff : l < n + 1 ↔ l < n := by omega
      simp only [nextOf, Memory.store_vault, hne, and_false, if_false, hiff]

/-! ### The update loops -/

variable {Port : Type} {PortRes : Port → Type} {V : Type} {d : CommandSpec Port PortRes V}
variable {w : Machine V} {fuel t : ℕ} {Q : Unit → Machine V → Prop}

private theorem wp_linkNode (hnew : newNode ≠ 0) (ht : topOf L w.memory newNode = t)
    (htmax : t ≤ L.maxLevel) (hpreds : ∀ l < t, locals.preds l ≠ 0) (hfuel : t < fuel)
    (hQ : Q () { w with memory := linkLevels L newNode locals w.memory t }) :
    (spec d).wp (linkNode L fuel newNode locals) w Q := by
  unfold linkNode
  apply (spec d).wp_loop
    (fun l w' => l ≤ t ∧ w' = { w with memory := linkLevels L newNode locals w.memory l })
    (fun l _ => t - l)
  · rintro l w' ⟨hlt, rfl⟩
    have htop : (linkLevels L newNode locals w.memory l).vault newNode L.topLevel = t := by
      rw [linkLevels_field (fun l' hl' => L.topLevel_ne_next l' (by omega))]
      exact ht
    simp only [wp_bind, wp_load_of_ne hnew, htop]
    by_cases hl : l < t
    · simp only [hl, if_true, wp_bind, wp_store_of_ne hnew, wp_pure,
        wp_store_of_ne (hpreds l hl)]
      exact ⟨⟨hl, rfl⟩, by omega⟩
    · have hlt' : l = t := by omega
      simp only [hl, if_false, wp_pure]
      exact hlt' ▸ hQ
  · exact ⟨Nat.zero_le t, rfl⟩
  · omega

theorem wp_unlinkNode (hfound : foundNode ≠ 0)
    (ht : topOf L w.memory foundNode = t) (hpreds : ∀ l < t, locals.preds l ≠ 0)
    (hQ : Q () { w with memory := unlinkLevels L foundNode locals t w.memory }) :
    (spec d).wp (unlinkNode L foundNode locals) w Q := by
  have ht' : w.memory.vault foundNode L.topLevel = t := ht
  simp only [unlinkNode, wp_bind, wp_load_of_ne hfound, ht']
  refine wp_mono ((spec d).wp_forDown (fun n _ w' => n ≤ t ∧ w'.ports = w.ports ∧
    unlinkLevels L foundNode locals n w'.memory =
      unlinkLevels L foundNode locals t w.memory) ?_ t () w ⟨le_refl t, rfl, rfl⟩) ?_
  · rintro n _ w' ⟨hn, hports, hm⟩
    simp only [wp_bind, wp_load_of_ne hfound, wp_store_of_ne (hpreds n hn)]
    exact ⟨by omega, hports, hm⟩
  · rintro _ ⟨m, v⟩ ⟨_, hports, hm⟩
    obtain rfl : v = w.ports := hports
    obtain rfl : m = _ := hm
    exact hQ

variable {b : ℕ}

theorem wp_addNode {parameter randomLevel : Kernel Port PortRes ℕ} {k : ℕ} {free : List ℕ}
    (hfree : FreeList w.memory (b :: free)) (hb : b ≠ 0)
    (hlevel : Returns d randomLevel
      { w with memory := w.memory.setSreg freeBlocksHead (w.memory.vault b 0) } t)
    (hparam : Returns d parameter { w with memory :=
      (w.memory.setSreg freeBlocksHead (w.memory.vault b 0)).store b L.topLevel t } k)
    (htmax : t ≤ L.maxLevel) (hpreds : ∀ l < t, locals.preds l ≠ 0) (hfuel : t < fuel)
    (hQ : Q () { w with memory := insertNode L w.memory b k t locals }) :
    (spec d).wp (addNode L parameter randomLevel fuel locals) w Q := by
  simp only [addNode, wp_bind]
  refine wp_allocMemoryBlock_cons hfree hb ?_
  apply hlevel
  simp only [wp_store_of_ne hb]
  apply hparam
  refine wp_linkNode hb ?_ htmax hpreds hfuel hQ
  simp [topOf, L.key_ne_topLevel.symm]

/-! ### Keeping the shape -/

variable {bound : ℕ} {cells free : List ℕ} {k : ℕ}

/-- A key above the first sentinel separates the sentinels. -/
theorem exists_ends (h : SkipShape L bound m cells free) (hpos : 0 < k) (hmax : k ≤ uint32Max) :
    ∃ c mid, cells = c :: mid ++ [m.sreg listTail] ∧ keyOf L m c = 0 ∧
      below (keyOf L m) k cells = c :: below (keyOf L m) k mid ∧
      above (keyOf L m) k cells = above (keyOf L m) k mid ++ [m.sreg listTail] := by
  obtain ⟨init, hinit⟩ := getLast?_eq_some_iff.mp h.tail
  have hhead := h.headKey
  have htail := h.key_tail
  cases init with
  | nil =>
    rw [hinit] at hhead
    simp only [nil_append, map_cons, map_nil, head?_cons, Option.some.injEq,
      htail] at hhead
    exact absurd hhead (by decide)
  | cons c mid =>
    have hc : keyOf L m c = 0 := by
      rw [hinit] at hhead
      simpa using hhead
    have hck : keyOf L m c < k := hc ▸ hpos
    have htk : ¬ keyOf L m (m.sreg listTail) < k := by
      rw [htail]
      exact hmax.not_gt
    refine ⟨c, mid, hinit, hc, ?_, ?_⟩
    · rw [hinit]
      simp [below, hck, htk]
    · rw [hinit]
      simp [above, hck, not_lt.mp htk]

/-- Keys and ends of a chain into which a cell has been put, or from which one has
been taken, between the sentinels. -/
theorem ends_of_map (L : Layout) (m m' : Memory) (c : ℕ) (mid : List ℕ)
    (hsreg : m'.sreg listTail = m.sreg listTail)
    (hc : keyOf L m' c = 0) (ht : keyOf L m' (m.sreg listTail) = uint32Max) :
    ((c :: mid ++ [m.sreg listTail]).map (keyOf L m')).head? = some 0 ∧
      ((c :: mid ++ [m.sreg listTail]).map (keyOf L m')).getLast? = some uint32Max ∧
      (c :: mid ++ [m.sreg listTail]).getLast? = some (m'.sreg listTail) := by
  refine ⟨by simp [hc], ?_, ?_⟩
  · rw [map_append, map_singleton, getLast?_append]
    simp [ht]
  · rw [hsreg, getLast?_append]
    simp

/-- Fields of the vault after a node has been added. -/
theorem insertNode_keyOf (ht : t ≤ L.maxLevel) (q : ℕ) :
    keyOf L (insertNode L m b k t locals) q = if q = b then k else keyOf L m q := by
  have hfield : ∀ l < t, L.key ≠ L.next l := fun l hl => L.key_ne_next l (by omega)
  simp only [keyOf, insertNode, linkLevels_field hfield, Memory.store_vault, L.key_ne_topLevel,
    and_true, and_false, if_false, Memory.setSreg_vault]

theorem insertNode_topOf (ht : t ≤ L.maxLevel) (q : ℕ) :
    topOf L (insertNode L m b k t locals) q = if q = b then t else topOf L m q := by
  have hfield : ∀ l < t, L.topLevel ≠ L.next l := fun l hl => L.topLevel_ne_next l (by omega)
  simp only [topOf, insertNode, linkLevels_field hfield, Memory.store_vault,
    L.key_ne_topLevel.symm, and_true, and_false, if_false, Memory.setSreg_vault]

theorem insertNode_nextOf (ht : t ≤ L.maxLevel) (hl : l < L.maxLevel) (q : ℕ) :
    nextOf L (insertNode L m b k t locals) l q =
      if l < t then if q = locals.preds l then b else
        if q = b then locals.succs l else nextOf L m l q
      else nextOf L m l q := by
  have hold : nextOf L (((m.setSreg freeBlocksHead (m.vault b 0)).store b L.topLevel t).store b
      L.key k) l q = nextOf L m l q := by
    have hk : L.next l ≠ L.key := (L.key_ne_next l hl).symm
    have ht' : L.next l ≠ L.topLevel := (L.topLevel_ne_next l hl).symm
    simp [nextOf, hk, ht']
  rw [insertNode, nextOf_linkLevels ht hl, hold]

@[simp] theorem insertNode_sreg {i : ℕ} (hi : i ≠ freeBlocksHead) :
    (insertNode L m b k t locals).sreg i = m.sreg i := by
  simp [insertNode, hi]

theorem perm_insert (h : SkipShape L bound m cells free) :
    (below (keyOf L m) k cells ++ b :: above (keyOf L m) k cells).Perm (b :: cells) := by
  have hsplit := below_append_above h.chain.sorted k
  conv_rhs => rw [← hsplit]
  exact perm_middle

section

variable (h : SkipShape L bound m cells (b :: free))
include h

/-- The new node moves from the free list to the chain. -/
theorem insertNode_perm :
    (below (keyOf L m) k cells ++ b :: above (keyOf L m) k cells ++ free).Perm
      (cells ++ b :: free) :=
  ((perm_insert h).append_right free).trans perm_middle.symm

theorem insertNode_shape (hk : KeyInRange k) (hnew : k ∉ cells.map (keyOf L m)) (ht0 : 0 < t)
    (htb : t ≤ bound) (ht : t ≤ L.maxLevel)
    (har : ∀ l < t, Around L m cells l k (locals.preds l) (locals.succs l)) :
    SkipShape L bound (insertNode L m b k t locals)
      (below (keyOf L m) k cells ++ b :: above (keyOf L m) k cells) free := by
  have hne : ∀ q ∈ cells, q ≠ b := fun q hq => h.ne_of_mem_free hq mem_cons_self
  have hkey : ∀ q ∈ cells, keyOf L (insertNode L m b k t locals) q = keyOf L m q :=
    fun q hq => by rw [insertNode_keyOf ht, if_neg (hne q hq)]
  have htop : ∀ q ∈ cells, topOf L (insertNode L m b k t locals) q = topOf L m q :=
    fun q hq => by rw [insertNode_topOf ht, if_neg (hne q hq)]
  have hkb : keyOf L (insertNode L m b k t locals) b = k := by rw [insertNode_keyOf ht, if_pos rfl]
  have htb' : topOf L (insertNode L m b k t locals) b = t := by rw [insertNode_topOf ht, if_pos rfl]
  have hperm := insertNode_perm (k := k) h
  obtain ⟨c, mid, hcells, hc0, hbelow, habove⟩ := exists_ends h hk.1 hk.2.le
  have htailmem : m.sreg listTail ∈ cells := by simp [hcells]
  obtain ⟨hheadKey, htailKey, htail⟩ := ends_of_map L m (insertNode L m b k t locals) c
    (below (keyOf L m) k mid ++ b :: above (keyOf L m) k mid)
    (insertNode_sreg (by decide)) (by rw [hkey c (by simp [hcells]), hc0])
    (by rw [hkey _ htailmem, h.key_tail])
  have hform : below (keyOf L m) k cells ++ b :: above (keyOf L m) k cells =
      c :: (below (keyOf L m) k mid ++ b :: above (keyOf L m) k mid) ++ [m.sreg listTail] := by
    rw [hbelow, habove]
    simp
  refine ⟨?_, ?_, hform ▸ hheadKey, hform ▸ htailKey, hform ▸ htail, ?_, ?_, ?_, ?_, ?_⟩
  · rw [insertNode_sreg (by decide)]
    refine h.chain.link hkb hnew hkey htop (fun l _ hlt => har l (htb' ▸ hlt)) ?_ ?_
    · intro l hl hlt
      rw [htb'] at hlt
      have hpb : b ≠ locals.preds l := (hne _ (har l hlt).left_mem.1).symm
      rw [insertNode_nextOf ht hl, insertNode_nextOf ht hl]
      simp [hlt, hpb]
    · intro l hl x hx hlast
      rw [htb'] at hlast
      rw [insertNode_nextOf ht hl]
      by_cases hlt : l < t
      · rw [if_pos hlt, if_neg (hlast hlt), if_neg (hne x hx)]
      · rw [if_neg hlt]
  · refine h.blocks.alloc.congr (by simp [insertNode]) (fun q hq => ?_)
    have hqb : q ≠ b := by
      intro he
      exact (nodup_cons.mp (nodup_append.mp h.distinct).2.1).1 (he ▸ hq)
    have hqp : ∀ l < t, q ≠ locals.preds l := fun l hl =>
      (h.ne_of_mem_free (har l hl).left_mem.1 (mem_cons_of_mem b hq)).symm
    rw [insertNode, linkLevels_block hqb hqp]
    simp [hqb]
  · rw [insertNode_sreg (by decide), htop _ htailmem]
    exact h.tailTop
  · intro q hq
    rcases mem_below_cons_above.mp hq with rfl | hq
    · rw [htb']
      exact ht0
    · rw [htop q hq]
      exact h.height q hq
  · intro q hq hr
    rcases mem_below_cons_above.mp hq with rfl | hq
    · rw [htb']
      exact htb
    · rw [htop q hq]
      rw [hkey q hq] at hr
      exact h.bounded q hq hr
  · exact hperm.nodup_iff.mpr h.distinct
  · exact fun h0 => h.nonnull (hperm.mem_iff.mp h0)

theorem keysBetween_insertNode (hk : KeyInRange k) (ht : t ≤ L.maxLevel) :
    keysBetween (keyOf L (insertNode L m b k t locals))
        (below (keyOf L m) k cells ++ b :: above (keyOf L m) k cells) =
      insert k (keysBetween (keyOf L m) cells) := by
  have hkey : ∀ q ∈ cells, keyOf L (insertNode L m b k t locals) q = keyOf L m q :=
    fun q hq => by rw [insertNode_keyOf ht, if_neg (h.ne_of_mem_free hq mem_cons_self)]
  have hkb : keyOf L (insertNode L m b k t locals) b = k := by rw [insertNode_keyOf ht, if_pos rfl]
  have hmem : ∀ x, x ∈ (below (keyOf L m) k cells ++ b :: above (keyOf L m) k cells).map
      (keyOf L (insertNode L m b k t locals)) ↔ x = k ∨ x ∈ cells.map (keyOf L m) := by
    intro x
    rw [((perm_insert h).map _).mem_iff, map_cons, mem_cons, hkb, map_congr_left hkey]
  ext x
  have hk0 : k ≠ 0 := hk.1.ne'
  have hkm : k ≠ uint32Max := hk.2.ne
  simp only [keysBetween, Finset.mem_sdiff, List.mem_toFinset, hmem, Finset.mem_insert,
    Finset.mem_singleton]
  constructor
  · rintro ⟨rfl | hx, hne⟩
    · exact .inl rfl
    · exact .inr ⟨hx, hne⟩
  · rintro (rfl | ⟨hx, hne⟩)
    · exact ⟨.inl rfl, by simp [hk0, hkm]⟩
    · exact ⟨.inr hx, hne⟩

end

/-- Unlinking a node keeps the shape; its block is on neither list. -/
theorem unlinkLevels_shape (h : SkipShape L bound m cells free) (hk : KeyInRange k)
    (hn : n ∈ cells) (hkn : keyOf L m n = k) (ht : topOf L m n ≤ L.maxLevel)
    (har : ∀ l < topOf L m n, Around L m cells l k (locals.preds l) (locals.succs l)) :
    SkipShape L bound (unlinkLevels L n locals (topOf L m n) m)
      (below (keyOf L m) k cells ++ above (keyOf L m) (k + 1) cells) free := by
  have hsplit := h.chain.split_at_key hn hkn
  have hkey : ∀ q, keyOf L (unlinkLevels L n locals (topOf L m n) m) q = keyOf L m q :=
    fun q => unlinkLevels_field (fun l hl => L.key_ne_next l (by omega))
  have htop : ∀ q, topOf L (unlinkLevels L n locals (topOf L m n) m) q = topOf L m q :=
    fun q => unlinkLevels_field (fun l hl => L.topLevel_ne_next l (by omega))
  have hsub : (below (keyOf L m) k cells ++ above (keyOf L m) (k + 1) cells).Sublist cells := by
    conv_rhs => rw [hsplit]
    simp
  obtain ⟨c, mid, hcells, hc0, hbelow, -⟩ := exists_ends h hk.1 hk.2.le
  obtain ⟨c', mid', hcells', -, -, habove⟩ := exists_ends h k.succ_pos hk.2
  obtain ⟨rfl, rfl⟩ : c = c' ∧ mid = mid' := by simpa using hcells.symm.trans hcells'
  obtain ⟨hheadKey, htailKey, htail⟩ := ends_of_map L m
    (unlinkLevels L n locals (topOf L m n) m) c
    (below (keyOf L m) k mid ++ above (keyOf L m) (k + 1) mid)
    (by simp) (by rw [hkey, hc0]) (by rw [hkey, h.key_tail])
  have hform : below (keyOf L m) k cells ++ above (keyOf L m) (k + 1) cells =
      c :: (below (keyOf L m) k mid ++ above (keyOf L m) (k + 1) mid) ++ [m.sreg listTail] := by
    rw [hbelow, habove]
    simp
  refine ⟨?_, ?_, hform ▸ hheadKey, hform ▸ htailKey, hform ▸ htail, ?_, ?_, ?_, ?_, ?_⟩
  · rw [unlinkLevels_sreg]
    refine h.chain.unlink hn hkn (fun q _ => hkey q) (fun q _ => htop q) (fun l _ => har l) ?_ ?_
    · intro l hl hlt
      rw [nextOf_unlinkLevels ht hl, if_pos ⟨hlt, rfl⟩]
    · intro l hl x hx hlast
      rw [nextOf_unlinkLevels ht hl, if_neg (fun he => hlast he.1 he.2)]
  · refine h.blocks.congr (by simp) (fun q hq => ?_)
    exact unlinkLevels_block (fun l hl => (h.ne_of_mem_free (har l hl).left_mem.1 hq).symm)
  · rw [unlinkLevels_sreg, htop]
    exact h.tailTop
  · intro q hq
    rw [htop]
    exact h.height q (hsub.subset hq)
  · intro q hq hr
    rw [htop]
    rw [hkey] at hr
    exact h.bounded q (hsub.subset hq) hr
  · exact h.distinct.sublist (hsub.append_right free)
  · exact fun h0 => h.nonnull ((hsub.append_right free).subset h0)

theorem keysBetween_unlinkLevels (ht : topOf L m n ≤ L.maxLevel) :
    keysBetween (keyOf L (unlinkLevels L n locals (topOf L m n) m))
        (below (keyOf L m) k cells ++ above (keyOf L m) (k + 1) cells) =
      (keysBetween (keyOf L m) cells).erase k := by
  have hkey : keyOf L (unlinkLevels L n locals (topOf L m n) m) = keyOf L m := by
    funext q
    exact unlinkLevels_field (fun l hl => L.key_ne_next l (by omega))
  ext x
  simp only [hkey, keysBetween, Finset.mem_sdiff, List.mem_toFinset, map_append,
    mem_append, List.mem_map, mem_below, mem_above, Finset.mem_erase]
  constructor
  · rintro ⟨⟨q, ⟨hq, hlt⟩, rfl⟩ | ⟨q, ⟨hq, hlt⟩, rfl⟩, hne⟩
    · exact ⟨by omega, ⟨q, hq, rfl⟩, hne⟩
    · exact ⟨by omega, ⟨q, hq, rfl⟩, hne⟩
  · rintro ⟨hxk, ⟨q, hq, rfl⟩, hne⟩
    rcases Nat.lt_or_gt_of_ne hxk with hlt | hgt
    · exact ⟨.inl ⟨q, ⟨hq, hlt⟩, rfl⟩, hne⟩
    · exact ⟨.inr ⟨q, ⟨hq, hgt⟩, rfl⟩, hne⟩

end SmcSim.SkipListUpdate
