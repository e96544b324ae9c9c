import SmcSim.SkipListPrograms
import SmcSim.SkipChains
import SmcSim.SetSemantics

/-!
# The shape of a skip list in the vault

`SkipShape L bound m cells free` is the invariant of the skip list programs. The
cells are threaded on every level through the array `next` of their nodes, level `l`
through those whose `top_level` exceeds `l`; keys increase strictly between the
sentinels; nodes between the sentinels have heights from 1 to `bound`; the cells and
the free blocks are distinct.
-/

namespace SmcSim.SkipListShape
open PimMemory SkipChains SkipListPrograms List

/-! ### Fields -/

def keyOf (L : Layout) (m : Memory) (p : ℕ) : ℕ := m.vault p L.key
def topOf (L : Layout) (m : Memory) (p : ℕ) : ℕ := m.vault p L.topLevel
def nextOf (L : Layout) (m : Memory) (l p : ℕ) : ℕ := m.vault p (L.next l)

def KeyInRange (k : ℕ) : Prop := 0 < k ∧ k < uint32Max

instance (k : ℕ) : Decidable (KeyInRange k) := inferInstanceAs (Decidable (_ ∧ _))

def keysBetween (key : ℕ → ℕ) (cells : List ℕ) : Finset ℕ :=
  (cells.map key).toFinset \ {0, uint32Max}

theorem mem_keysBetween {key : ℕ → ℕ} {cells : List ℕ} {k : ℕ} (hk : KeyInRange k) :
    k ∈ keysBetween key cells ↔ k ∈ cells.map key := by
  have hk0 : k ≠ 0 := hk.1.ne'
  have hkm : k ≠ uint32Max := hk.2.ne
  simp only [keysBetween, Finset.mem_sdiff, List.mem_toFinset, Finset.mem_insert,
    Finset.mem_singleton, hk0, hkm, or_self, not_false_eq_true, and_true]

structure SkipShape (L : Layout) (bound : ℕ) (m : Memory) (cells free : List ℕ) : Prop where
  chain : SkipChain (nextOf L m) (keyOf L m) (topOf L m) L.maxLevel (m.sreg listHead) 0 cells
  blocks : FreeList m free
  headKey : (cells.map (keyOf L m)).head? = some 0
  tailKey : (cells.map (keyOf L m)).getLast? = some uint32Max
  tail : cells.getLast? = some (m.sreg listTail)
  tailTop : L.maxLevel ≤ topOf L m (m.sreg listTail)
  height : ∀ c ∈ cells, 0 < topOf L m c
  bounded : ∀ c ∈ cells, KeyInRange (keyOf L m c) → topOf L m c ≤ bound
  distinct : (cells ++ free).Nodup
  nonnull : 0 ∉ cells ++ free

namespace SkipShape

variable {L : Layout} {bound : ℕ} {m : Memory} {cells free : List ℕ} {l k p : ℕ}

section

variable (h : SkipShape L bound m cells free)
include h

theorem ne_zero (hp : p ∈ cells) : p ≠ 0 :=
  fun h0 => h.nonnull (mem_append_left _ (h0 ▸ hp))

theorem free_ne_zero (hp : p ∈ free) : p ≠ 0 :=
  fun h0 => h.nonnull (mem_append_right _ (h0 ▸ hp))

theorem ne_of_mem_free {b : ℕ} (hp : p ∈ cells) (hb : b ∈ free) : p ≠ b := fun he =>
  (nodup_append.mp h.distinct).2.2 p hp b hb he

theorem level_zero : level (topOf L m) 0 cells = cells :=
  filter_eq_self.mpr (fun c hc => by simpa using h.height c hc)

theorem level_tail (hl : l < L.maxLevel) :
    ∃ init, level (topOf L m) l cells = init ++ [m.sreg listTail] := by
  obtain ⟨init, hinit⟩ := getLast?_eq_some_iff.mp h.tail
  have htop : l < topOf L m (m.sreg listTail) := hl.trans_le h.tailTop
  refine ⟨level (topOf L m) l init, ?_⟩
  rw [hinit, level_append, level_cons_of_lt htop]
  rfl

theorem key_tail : keyOf L m (m.sreg listTail) = uint32Max := by
  obtain ⟨init, hinit⟩ := getLast?_eq_some_iff.mp h.tail
  have ht := h.tailKey
  rw [hinit] at ht
  simpa using ht

theorem level_head (hl : l < L.maxLevel) :
    ∃ rest, level (topOf L m) l cells = m.sreg listHead :: rest := by
  obtain ⟨init, hinit⟩ := h.level_tail hl
  have hc := h.chain.chain l hl
  cases hlev : level (topOf L m) l cells with
  | nil => simp [hlev] at hinit
  | cons c rest =>
    rw [hlev] at hc
    have hhead : m.sreg listHead = c := hc.1
    exact ⟨rest, by rw [hhead]⟩

theorem head_mem (hL : 0 < L.maxLevel) :
    m.sreg listHead ∈ cells ∧ L.maxLevel ≤ topOf L m (m.sreg listHead) := by
  obtain ⟨rest, hrest⟩ := h.level_head (Nat.sub_lt hL Nat.one_pos)
  have hmem : m.sreg listHead ∈ level (topOf L m) (L.maxLevel - 1) cells := by simp [hrest]
  obtain ⟨hc, ht⟩ := mem_level.mp hmem
  exact ⟨hc, by omega⟩

theorem key_head (hL : 0 < L.maxLevel) : keyOf L m (m.sreg listHead) = 0 := by
  obtain ⟨rest, hrest⟩ := h.level_head hL
  have hh := h.headKey
  rw [h.level_zero] at hrest
  rw [hrest] at hh
  simpa using hh

theorem level_next (hl : l < L.maxLevel) (hp : p ∈ cells) (htop : l < topOf L m p)
    (hkey : keyOf L m p < uint32Max) :
    ∃ front c back, level (topOf L m) l cells = front ++ p :: c :: back ∧ nextOf L m l p = c := by
  obtain ⟨init, hinit⟩ := h.level_tail hl
  exact h.chain.level_next hl hinit hp htop (fun he => by rw [he, h.key_tail] at hkey; omega)

theorem length_cells : cells.length = (keysBetween (keyOf L m) cells).card + 2 := by
  have hnd : (cells.map (keyOf L m)).Nodup := h.chain.sorted.imp (fun hlt => ne_of_lt hlt)
  have hsub : ({0, uint32Max} : Finset ℕ) ⊆ (cells.map (keyOf L m)).toFinset := by
    intro x hx
    rw [List.mem_toFinset]
    rcases Finset.mem_insert.mp hx with rfl | hx
    · exact mem_of_mem_head? h.headKey
    · rw [Finset.mem_singleton.mp hx]
      exact mem_of_mem_getLast? h.tailKey
  have hle := Finset.card_le_card hsub
  have htwo : ({0, uint32Max} : Finset ℕ).card = 2 := rfl
  rw [toFinset_card_of_nodup hnd, length_map, htwo] at hle
  rw [keysBetween, Finset.card_sdiff_of_subset hsub, toFinset_card_of_nodup hnd,
    length_map, htwo]
  omega

theorem congr_sreg {m' : Memory} (hv : m'.vault = m.vault)
    (h3 : m'.sreg freeBlocksHead = m.sreg freeBlocksHead) (h4 : m'.sreg listHead = m.sreg listHead)
    (h5 : m'.sreg listTail = m.sreg listTail) : SkipShape L bound m' cells free := by
  have hkey : keyOf L m' = keyOf L m := by funext p; rw [keyOf, hv]; rfl
  have htop : topOf L m' = topOf L m := by funext p; rw [topOf, hv]; rfl
  have hnext : nextOf L m' = nextOf L m := by funext l p; rw [nextOf, hv]; rfl
  obtain ⟨hchain, hblocks, hhead, htail, hlast, htailTop, hheight, hbounded, hd, h0⟩ := h
  refine ⟨?_, hblocks.congr h3 (fun q _ => by rw [hv]), ?_, ?_, ?_, ?_, ?_, ?_, hd, h0⟩
  · rw [hkey, htop, hnext, h4]
    exact hchain
  · rw [hkey]
    exact hhead
  · rw [hkey]
    exact htail
  · rw [h5]
    exact hlast
  · rw [h5, htop]
    exact htailTop
  · rw [htop]
    exact hheight
  · rw [htop, hkey]
    exact hbounded

end

end SkipShape

/-! ### Positions -/

/-- `p` and `c` are neighbours on level `l`, around the key `k`. -/
def Around (L : Layout) (m : Memory) (cells : List ℕ) (l k p c : ℕ) : Prop :=
  ∃ front back, level (topOf L m) l cells = front ++ p :: c :: back ∧
    keyOf L m p < k ∧ k ≤ keyOf L m c

namespace Around

variable {L : Layout} {bound : ℕ} {m : Memory} {cells free : List ℕ} {l k p c : ℕ}

theorem neighbours : Around L m cells l k p c ↔
    SkipChain.Neighbours (keyOf L m) (topOf L m) cells l k p c := .rfl

section

variable (h : Around L m cells l k p c)
include h

theorem left_mem : p ∈ cells ∧ l < topOf L m p := (neighbours.mp h).left_mem

theorem right_mem : c ∈ cells ∧ l < topOf L m c := (neighbours.mp h).right_mem

theorem next_eq (hs : SkipShape L bound m cells free) (hl : l < L.maxLevel) : nextOf L m l p = c :=
  (neighbours.mp h).next_eq hs.chain hl

theorem unique {p' c' : ℕ} (h' : Around L m cells l k p' c') (hs : SkipShape L bound m cells free)
    (hl : l < L.maxLevel) : p = p' ∧ c = c' := by
  obtain ⟨front, hfront⟩ := (neighbours.mp h).level_below hs.chain
  obtain ⟨front', hfront'⟩ := (neighbours.mp h').level_below hs.chain
  obtain rfl : p = p' := by
    have happ := append_inj' (hfront.symm.trans hfront') rfl
    exact List.cons.inj happ.2 |>.1
  exact ⟨rfl, (h.next_eq hs hl).symm.trans (h'.next_eq hs hl)⟩

end

theorem mem_iff (h : Around L m cells 0 k p c) (hs : SkipShape L bound m cells free) :
    k ∈ cells.map (keyOf L m) ↔ keyOf L m c = k :=
  (neighbours.mp h).mem_iff hs.chain hs.level_zero

end Around

end SmcSim.SkipListShape
