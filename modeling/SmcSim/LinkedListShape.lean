import SmcSim.LinkedListKernel
import SmcSim.SkipListShape

/-!
# The shape of the vault: a sorted chain and a free list

`ListShape m cells free` is the invariant of the linked list kernel. The cells of
the level-0 chain run from the head sentinel to the tail sentinel, their keys
increase strictly from `0` to `UINT32_MAX`, and the chain and the free list consist
of distinct blocks. Inserting and unlinking a node behind a cell keep the shape.
-/

namespace SmcSim.LinkedListKernel
open PimMemory ListSegments SkipChains SkipListPrograms SkipListShape SetSemantics List

/-- The two fields of a block seen as a `node_t`. -/
def key (m : Memory) (p : ℕ) : ℕ := m.vault p nodeKey
def next (m : Memory) (p : ℕ) : ℕ := m.vault p nodeNext

/-- `cells` is the chain from `LINKED_LIST_HEAD` to `LINKED_LIST_TAIL`, sentinels
included, and `free` the free list. -/
structure ListShape (m : Memory) (cells free : List ℕ) : Prop where
  chain : Seg (next m) (m.sreg linkedListHead) cells 0
  blocks : FreeList m free
  sorted : (cells.map (key m)).Pairwise (· < ·)
  headKey : (cells.map (key m)).head? = some 0
  tailKey : (cells.map (key m)).getLast? = some uint32Max
  tail : cells.getLast? = some (m.sreg linkedListTail)
  distinct : (cells ++ free).Nodup
  nonnull : 0 ∉ cells ++ free

def keySet (m : Memory) (cells : List ℕ) : Finset ℕ := keysBetween (key m) cells

def abstractSet (m : Memory) (cells free : List ℕ) : BoundedSet ℕ := ⟨keySet m cells, free.length⟩

/-- Splice block `b` with key `k` between `p` and `c`. -/
def insertAfter (m : Memory) (b k p c : ℕ) : Memory :=
  (((m.setSreg freeBlocksHead (m.vault b 0)).store b nodeKey k).store b nodeNext c).store
    p nodeNext b

/-- Unlink `c` behind `p` and put it on the free list. -/
def unlinkAfter (m : Memory) (p c : ℕ) : Memory :=
  let m' := m.store p nodeNext (m.vault c nodeNext)
  (m'.store c 0 (m'.sreg freeBlocksHead)).setSreg freeBlocksHead c

theorem insertAfter_key (m : Memory) (b k p c q : ℕ) :
    key (insertAfter m b k p c) q = if q = b then k else key m q := by
  simp only [key, insertAfter, Memory.store_vault, nodeKey, nodeNext]
  by_cases hq : q = b <;> simp [hq]

theorem insertAfter_next (m : Memory) (b k p c q : ℕ) :
    next (insertAfter m b k p c) q = if q = p then b else if q = b then c else next m q := by
  simp only [next, insertAfter, Memory.store_vault, nodeKey, nodeNext]
  by_cases hqp : q = p
  · simp [hqp]
  · by_cases hqb : q = b <;> simp [hqp, hqb]

variable {c p : ℕ} {m : Memory}

@[simp] theorem insertAfter_sreg {b k i : ℕ} (hi : i ≠ freeBlocksHead) :
    (insertAfter m b k p c).sreg i = m.sreg i := by
  simp [insertAfter, hi]

theorem unlinkAfter_key {q : ℕ} (hq : q ≠ c) :
    key (unlinkAfter m p c) q = key m q := by
  simp [key, unlinkAfter, nodeKey, nodeNext, hq]

theorem unlinkAfter_next (m : Memory) (p c q : ℕ) :
    next (unlinkAfter m p c) q = if q = p then next m c else next m q := by
  simp [next, unlinkAfter, Memory.store_vault, nodeNext]

@[simp] theorem unlinkAfter_sreg {i : ℕ} (hi : i ≠ freeBlocksHead) :
    (unlinkAfter m p c).sreg i = m.sreg i := by
  simp [unlinkAfter, hi]

/-- The keys of the chain after an insertion. -/
theorem map_key_insertAfter {front back : List ℕ} {b k : ℕ}
    (hb : ∀ q ∈ front ++ p :: c :: back, q ≠ b) :
    (front ++ p :: b :: c :: back).map (key (insertAfter m b k p c)) =
      front.map (key m) ++ key m p :: k :: key m c :: back.map (key m) := by
  have hsame : ∀ q ∈ front ++ p :: c :: back, key (insertAfter m b k p c) q = key m q :=
    fun q hq => by rw [insertAfter_key, if_neg (hb q hq)]
  simp only [map_append, map_cons]
  rw [hsame p (by simp), hsame c (by simp), insertAfter_key, if_pos rfl,
    map_congr_left (fun q hq => hsame q (by simp [hq])),
    map_congr_left (l := back) (fun q hq => hsame q (by simp [hq]))]

/-- The keys of the chain after a removal. -/
theorem map_key_unlinkAfter {cells : List ℕ} (hc : c ∉ cells) :
    cells.map (key (unlinkAfter m p c)) = cells.map (key m) :=
  map_congr_left (fun _ hq => unlinkAfter_key (fun he => hc (he ▸ hq)))

theorem perm_move (xs ys zs : List ℕ) (a : ℕ) :
    (xs ++ a :: ys ++ zs).Perm (xs ++ ys ++ a :: zs) := by
  rw [append_assoc, cons_append]
  refine perm_middle.trans (.trans (.of_eq ?_) perm_middle.symm)
  rw [append_assoc]

namespace ListShape

variable {m : Memory} {cells free front back : List ℕ} {p c k : ℕ}

section

variable (h : ListShape m cells free)
include h

theorem ne_zero {q : ℕ} (hq : q ∈ cells) : q ≠ 0 :=
  fun h0 => h.nonnull (mem_append_left _ (h0 ▸ hq))

theorem free_ne_zero {q : ℕ} (hq : q ∈ free) : q ≠ 0 :=
  fun h0 => h.nonnull (mem_append_right _ (h0 ▸ hq))

theorem ne_of_mem_free {q b : ℕ} (hq : q ∈ cells) (hb : b ∈ free) :
    q ≠ b := fun he =>
  (nodup_append.mp h.distinct).2.2 q hq b hb he

end

/-- The cell behind a cell is where its link points. -/
theorem next_eq (h : ListShape m (front ++ p :: c :: back) free) : next m p = c := by
  obtain ⟨_, _, _, hc⟩ := seg_append.mp h.chain
  exact hc.1

theorem key_last (h : ListShape m (front ++ [p]) free) : key m p = uint32Max := by
  have ht := h.tailKey
  simpa using ht

theorem exists_cells (h : ListShape m cells free) :
    ∃ c back, cells = m.sreg linkedListHead :: c :: back ∧ key m (m.sreg linkedListHead) = 0 := by
  have hhead := h.headKey
  have htail := h.tailKey
  have hchain := h.chain
  rcases cells with _ | ⟨p, _ | ⟨c, back⟩⟩
  · simp at hhead
  · simp only [map_cons, map_nil, head?_cons, getLast?_singleton,
      Option.some.injEq] at hhead htail
    exact absurd (hhead.symm.trans htail) (by decide)
  · have hp : m.sreg linkedListHead = p := hchain.1
    exact ⟨c, back, by rw [hp], by simpa [hp] using hhead⟩

/-- Membership of a key is decided at the cursor. -/
theorem mem_keySet_iff (h : ListShape m (front ++ p :: c :: back) free)
    (hp : key m p < k) (hc : k ≤ key m c) (hk : k < uint32Max) :
    k ∈ keySet m (front ++ p :: c :: back) ↔ key m c = k := by
  obtain ⟨hlo, hhi⟩ := sorted_around h.sorted hp hc
  rw [keySet, mem_keysBetween ⟨by omega, hk⟩, List.mem_map]
  constructor
  · rintro ⟨q, hq, rfl⟩
    have hq' : q ∈ (front ++ [p]) ++ c :: back := by simpa using hq
    rcases mem_append.mp hq' with hq' | hq'
    · exact absurd (hlo q hq') (lt_irrefl _)
    · rcases mem_cons.mp hq' with rfl | hb
      · rfl
      · have hs := h.sorted
        rw [map_append, map_cons, map_cons, pairwise_append,
          pairwise_cons, pairwise_cons] at hs
        have hlt := hs.2.1.2.1 _ (List.mem_map_of_mem hb)
        omega
  · intro he
    exact ⟨c, by simp, he⟩

/-- A cell occurs once in the chain. -/
theorem notMem_around (h : ListShape m (front ++ p :: c :: back) free) :
    c ∉ front ++ p :: back ∧ p ∉ front ++ c :: back := by
  have hnd := (nodup_append.mp h.distinct).1
  grind

theorem insert {b : ℕ} (h : ListShape m (front ++ p :: c :: back) (b :: free))
    (hp : key m p < k) (hc : k < key m c) :
    ListShape (insertAfter m b k p c) (front ++ p :: b :: c :: back) free := by
  have hcells : ∀ q ∈ front ++ p :: c :: back, q ≠ b :=
    fun q hq => h.ne_of_mem_free hq mem_cons_self
  have hpb : b ≠ p := (hcells p (by simp)).symm
  have hnd := h.distinct
  have hmap := map_key_insertAfter (m := m) (k := k) hcells
  have hnext : ∀ q ∈ front ++ c :: back, next (insertAfter m b k p c) q = next m q := by
    intro q hq
    have hqp : q ≠ p := fun he => h.notMem_around.2 (he ▸ hq)
    have hmem : q ∈ front ++ p :: c :: back := by
      rw [mem_append] at hq ⊢
      exact hq.imp_right (mem_cons_of_mem p)
    rw [insertAfter_next, if_neg hqp, if_neg (hcells q hmem)]
  refine ⟨?_, ?_, ?_, ?_, ?_, ?_, ?_, ?_⟩
  · rw [insertAfter_sreg (by decide)]
    refine h.chain.splice (fun q hq => hnext q (by simp [hq]))
      (by rw [insertAfter_next, if_pos rfl]) ?_
      (fun q hq => hnext q (mem_append_right _ hq))
    rw [insertAfter_next, if_neg hpb, if_pos rfl, h.next_eq]
  · refine h.blocks.alloc.congr (by simp [insertAfter]) (fun q hq => ?_)
    have hqb : q ≠ b := by
      rintro rfl
      exact (nodup_cons.mp (nodup_append.mp hnd).2.1).1 hq
    simp [insertAfter, nodeNext, hqb]
  · have hs := h.sorted
    obtain ⟨hlo, hhi⟩ := sorted_around hs hp hc.le
    rw [hmap]
    simp only [map_append, map_cons, pairwise_append, pairwise_cons] at hs ⊢
    grind
  · have hh := h.headKey
    rw [hmap]
    cases front <;> simpa using hh
  · have ht := h.tailKey
    rw [hmap]
    simpa [getLast?_append, getLast?_cons] using ht
  · rw [insertAfter_sreg (by decide), ← h.tail]
    simp [getLast?_append, getLast?_cons]
  · have hperm : (front ++ p :: b :: c :: back ++ free).Perm
        (front ++ p :: c :: back ++ b :: free) := by
      simpa using perm_move (front ++ [p]) (c :: back) free b
    exact hperm.nodup_iff.mpr hnd
  · have h0 := h.nonnull
    grind

theorem remove (h : ListShape m (front ++ p :: c :: back) free) (hback : back ≠ []) :
    ListShape (unlinkAfter m p c) (front ++ p :: back) (c :: free) := by
  have hnd := h.distinct
  have hcf : c ∉ free := fun hc => h.ne_of_mem_free (by simp) hc rfl
  have hmap := map_key_unlinkAfter (m := m) (p := p) h.notMem_around.1
  have hnext : ∀ q ∈ front ++ c :: back, next (unlinkAfter m p c) q = next m q := by
    intro q hq
    have hqp : q ≠ p := fun he => h.notMem_around.2 (he ▸ hq)
    rw [unlinkAfter_next, if_neg hqp]
  obtain ⟨last, init, rfl⟩ : ∃ last init, back = init ++ [last] := by
    rcases eq_nil_or_concat back with rfl | ⟨init, last, rfl⟩
    · exact absurd rfl hback
    · exact ⟨last, init, by simp⟩
  refine ⟨?_, ?_, ?_, ?_, ?_, ?_, ?_, ?_⟩
  · rw [unlinkAfter_sreg (by decide)]
    exact h.chain.unlink (fun q hq => hnext q (by simp [hq])) (by rw [unlinkAfter_next, if_pos rfl])
      (fun q hq => hnext q (by simp only [mem_append, mem_cons, hq, or_true]))
  · refine FreeList.push (h.blocks.congr rfl (fun q hq => ?_)) hcf
    simp [nodeNext]
  · rw [hmap]
    exact h.sorted.sublist (List.Sublist.map _ (by simp))
  · have hh := h.headKey
    rw [hmap]
    cases front <;> simpa using hh
  · have ht := h.tailKey
    rw [hmap]
    simpa [getLast?_append, getLast?_cons] using ht
  · rw [unlinkAfter_sreg (by decide), ← h.tail]
    simp [getLast?_append, getLast?_cons]
  · have hperm : (front ++ p :: (init ++ [last]) ++ c :: free).Perm
        (front ++ p :: c :: (init ++ [last]) ++ free) := by
      simpa using (perm_move (front ++ [p]) (init ++ [last]) free c).symm
    exact hperm.nodup_iff.mpr hnd
  · have h0 := h.nonnull
    grind

theorem abstractSet_insert {b : ℕ} (h : ListShape m (front ++ p :: c :: back) (b :: free))
    (h0 : 0 < k) (hk : k < uint32Max) :
    abstractSet (insertAfter m b k p c) (front ++ p :: b :: c :: back) free =
      ⟨Insert.insert k (keySet m (front ++ p :: c :: back)), free.length⟩ := by
  have hk0 : k ≠ 0 := by omega
  have hkm : k ≠ uint32Max := by omega
  have hmap := map_key_insertAfter (m := m) (k := k)
    (fun q hq => h.ne_of_mem_free hq mem_cons_self)
  simp only [abstractSet, keySet, keysBetween, hmap, BoundedSet.mk.injEq, and_true]
  ext x
  simp only [Finset.mem_sdiff, List.mem_toFinset, Finset.mem_insert, mem_append,
    mem_cons, map_append, map_cons, Finset.mem_singleton]
  grind

theorem abstractSet_remove (h : ListShape m (front ++ p :: c :: back) free) :
    abstractSet (unlinkAfter m p c) (front ++ p :: back) (c :: free) =
      ⟨(keySet m (front ++ p :: c :: back)).erase (key m c), free.length + 1⟩ := by
  have hmap := map_key_unlinkAfter (m := m) (p := p) h.notMem_around.1
  have hc : key m c ∉ (front ++ p :: back).map (key m) := by
    have hnd : ((front ++ p :: c :: back).map (key m)).Nodup :=
      h.sorted.imp (fun hlt => ne_of_lt hlt)
    simp only [map_append, map_cons] at hnd ⊢
    grind
  simp only [abstractSet, keySet, keysBetween, hmap, length_cons, BoundedSet.mk.injEq, and_true]
  ext x
  simp only [Finset.mem_sdiff, List.mem_toFinset, Finset.mem_insert, Finset.mem_erase,
    mem_append, mem_cons, map_append, map_cons, Finset.mem_singleton] at hc ⊢
  grind

theorem congr_sreg {m' : Memory} (h : ListShape m cells free) (hv : m'.vault = m.vault)
    (h3 : m'.sreg freeBlocksHead = m.sreg freeBlocksHead)
    (h4 : m'.sreg linkedListHead = m.sreg linkedListHead)
    (h5 : m'.sreg linkedListTail = m.sreg linkedListTail) : ListShape m' cells free := by
  have hkey : key m' = key m := by funext p; rw [key, hv]; rfl
  have hnext : next m' = next m := by funext p; rw [next, hv]; rfl
  obtain ⟨hchain, hblocks, hsorted, hhead, htail, hlast, hd, h0⟩ := h
  refine ⟨?_, hblocks.congr h3 (fun q _ => by rw [hv]), ?_, ?_, ?_, ?_, hd, h0⟩
  · rw [hnext, h4]
    exact hchain
  · rw [hkey]
    exact hsorted
  · rw [hkey]
    exact hhead
  · rw [hkey]
    exact htail
  · rw [h5]
    exact hlast

end ListShape

theorem listShape_of_skipShape {cells free : List ℕ} {bound : ℕ}
    (h : SkipShape skiplistNode bound m cells free) : ListShape m cells free := by
  have hchain := h.chain.chain 0 (by decide)
  rw [h.level_zero] at hchain
  exact ⟨hchain, h.blocks, h.chain.sorted, h.headKey, h.tailKey, h.tail, h.distinct, h.nonnull⟩

end SmcSim.LinkedListKernel
