import SmcSim.SkipListShape

/-!
# The empty skip list

`list_init` threads all blocks of the vault onto the free list and takes two of them
as sentinels, linked on every level. The number of blocks is a parameter of the
proof; only at least two of them are needed.
-/

namespace SmcSim.SkipListInit
open EffectPrograms PimMemory SkipChains SkipListPrograms SkipListShape List CommandSpec

/-- The addresses of the first `n` blocks of the vault. -/
def blockAddrs (L : Layout) (n : ℕ) : List ℕ :=
  (List.range n).map (fun i => blockBaseAddr + i * L.blockSize)

variable {L : Layout} {n : ℕ}

theorem blockAddrs_succ :
    blockAddrs L (n + 1) = blockAddrs L n ++ [blockBaseAddr + n * L.blockSize] := by
  simp [blockAddrs, range_succ]

theorem nodup_blockAddrs (hsize : 0 < L.blockSize) : (blockAddrs L n).Nodup := by
  refine nodup_range.map_on ?_
  intro i _ j _ he
  exact Nat.eq_of_mul_eq_mul_right hsize (Nat.add_left_cancel he)

theorem zero_notMem_blockAddrs : 0 ∉ blockAddrs L n := by
  intro h
  obtain ⟨i, _, hi⟩ := List.mem_map.mp h
  have hbase : blockBaseAddr = 0 := by omega
  exact absurd hbase (by decide)

section Init

variable {Port : Type} {PortRes : Port → Type} {V : Type} {d : CommandSpec Port PortRes V}
variable {w : Machine V}

variable {Q : Unit → Machine V → Prop}

theorem wp_initBlocks (hsize : 0 < L.blockSize) (hQ : ∀ m', FreeList m' (blockAddrs L n).reverse →
      (∀ i ≠ freeBlocksHead, m'.sreg i = w.memory.sreg i) → Q () { w with memory := m' }) :
    (spec d).wp (initBlocks L n) w Q := by
  simp only [initBlocks, wp_bind, wp_writeSreg]
  refine wp_mono ((spec d).wp_forUp (fun i _ w' => w'.ports = w.ports ∧
    FreeList w'.memory (blockAddrs L i).reverse ∧
    ∀ j ≠ freeBlocksHead, w'.memory.sreg j = w.memory.sreg j) ?_ n 0 () _ (Nat.zero_add n) ?_) ?_
  · rintro i _ w' _ ⟨hports, hfree, hsreg⟩
    have hne : blockBaseAddr + i * L.blockSize ≠ 0 := by
      have hbase : 0 < blockBaseAddr := by decide
      omega
    have hnd := nodup_blockAddrs (n := i + 1) hsize
    rw [blockAddrs_succ] at hnd
    have hnew : blockBaseAddr + i * L.blockSize ∉ (blockAddrs L i).reverse := by
      intro hmem
      exact (nodup_append.mp hnd).2.2 _ (mem_reverse.mp hmem) _ (by simp) rfl
    simp only [wp_bind, wp_readSreg, wp_store_of_ne hne, wp_writeSreg]
    refine ⟨hports, ?_, fun j hj => ?_⟩
    · rw [blockAddrs_succ, reverse_append]
      exact hfree.push hnew
    · simpa [hj] using hsreg j hj
  · refine ⟨rfl, ?_, fun j hj => ?_⟩
    · simp [FreeList, blockAddrs]
    · simp [hj]
  · rintro _ ⟨m', v⟩ ⟨hports, hfree, hsreg⟩
    obtain rfl : v = w.ports := hports
    exact hQ m' hfree hsreg

/-- The sentinels `a` and `b` are linked on the levels below `n`; nothing else has changed. -/
structure Threaded (L : Layout) (m m' : Memory) (a b n : ℕ) : Prop where
  sreg : m'.sreg = m.sreg
  block : ∀ q off, q ≠ a → q ≠ b → m'.vault q off = m.vault q off
  field : ∀ q off, (∀ l < L.maxLevel, off ≠ L.next l) → m'.vault q off = m.vault q off
  linked : ∀ l < n, nextOf L m' l a = b ∧ nextOf L m' l b = 0

theorem Threaded.succ {m m' : Memory} {a b : ℕ} (h : Threaded L m m' a b n) (hab : a ≠ b)
    (hn : n < L.maxLevel) :
    Threaded L m ((m'.store a (L.next n) b).store b (L.next n) 0) a b (n + 1) := by
  refine ⟨h.sreg, fun q off hqa hqb => ?_, fun q off hoff => ?_, fun l hl => ?_⟩
  · simpa [hqa, hqb] using h.block q off hqa hqb
  · have hne : off ≠ L.next n := hoff n hn
    simpa [hne] using h.field q off hoff
  · by_cases hln : l = n
    · subst hln
      simp [nextOf, hab]
    · have hne : L.next l ≠ L.next n := fun he => hln (L.next_injective l (by omega) n hn he)
      simpa [nextOf, hne] using h.linked l (by omega)

/-- The vault once the sentinels `a` and `b` have been allocated and their scalar
fields written. -/
def sentinelFields (L : Layout) (m : Memory) (a b : ℕ) : Memory :=
  let m₁ := (m.setSreg freeBlocksHead (m.vault a 0)).setSreg listHead a
  let m₂ := (m₁.setSreg freeBlocksHead (m₁.vault b 0)).setSreg listTail b
  (((m₂.store a L.key 0).store b L.key uint32Max).store a L.topLevel L.maxLevel).store b L.topLevel
    L.maxLevel

theorem Threaded.shape {m m' : Memory} {a b bound : ℕ} {free : List ℕ}
    (h : Threaded L (sentinelFields L m a b) m' a b L.maxLevel)
    (hfree : FreeList m (a :: b :: free)) (hnd : (a :: b :: free).Nodup)
    (h0 : 0 ∉ a :: b :: free) (hL : 0 < L.maxLevel) : SkipShape L bound m' [a, b] free := by
  have hab : a ≠ b := fun he => (nodup_cons.mp hnd).1 (by simp [he])
  have hk : ∀ l < L.maxLevel, L.key ≠ L.next l := L.key_ne_next
  have ht : ∀ l < L.maxLevel, L.topLevel ≠ L.next l := L.topLevel_ne_next
  have hka : keyOf L m' a = 0 := by
    rw [keyOf, h.field a L.key hk]
    simp [sentinelFields, L.key_ne_topLevel, hab]
  have hkb : keyOf L m' b = uint32Max := by
    rw [keyOf, h.field b L.key hk]
    simp [sentinelFields, L.key_ne_topLevel]
  have hta : topOf L m' a = L.maxLevel := by
    rw [topOf, h.field a L.topLevel ht]
    simp [sentinelFields, hab]
  have htb : topOf L m' b = L.maxLevel := by
    rw [topOf, h.field b L.topLevel ht]
    simp [sentinelFields]
  have hhead : m'.sreg listHead = a := by
    rw [h.sreg]
    simp [sentinelFields, listHead, listTail, freeBlocksHead]
  have htail : m'.sreg listTail = b := by
    rw [h.sreg]
    simp [sentinelFields]
  refine ⟨⟨fun l hl => ?_, ?_⟩, ?_, by simp [hka], by simp [hkb], by simp [htail], ?_, ?_,
    ?_, ?_, h0⟩
  · obtain ⟨hna, hnb⟩ := h.linked l hl
    have hlevel : level (topOf L m') l [a, b] = [a, b] := by simp [level, hta, htb, hl]
    rw [hlevel, hhead]
    exact ⟨rfl, hna, hnb⟩
  · simp [hka, hkb]
  · refine FreeList.congr (m := (m.setSreg freeBlocksHead (m.vault a 0)).setSreg freeBlocksHead
      ((m.setSreg freeBlocksHead (m.vault a 0)).vault b 0)) hfree.alloc.alloc ?_ (fun q hq => ?_)
    · rw [h.sreg]
      simp [sentinelFields, listHead, listTail, freeBlocksHead]
    · have hqa : q ≠ a := fun he => (nodup_cons.mp hnd).1 (by simp [← he, hq])
      have hqb : q ≠ b := fun he =>
        (nodup_cons.mp (nodup_cons.mp hnd).2).1 (he ▸ hq)
      rw [h.block q 0 hqa hqb]
      simp [sentinelFields, hqa, hqb]
  · rw [htail, htb]
  · intro c hc
    simp only [mem_cons, not_mem_nil, or_false] at hc
    rcases hc with rfl | rfl
    · omega
    · omega
  · intro c hc hr
    simp only [mem_cons, not_mem_nil, or_false] at hc
    rcases hc with rfl | rfl
    · exact absurd hr.1 (by omega)
    · exact absurd hr.2 (by omega)
  · exact hnd

theorem wp_initSentinels (bound : ℕ) {a b : ℕ} {free : List ℕ}
    (hfree : FreeList w.memory (a :: b :: free)) (hnd : (a :: b :: free).Nodup)
    (h0 : 0 ∉ a :: b :: free) (hL : 0 < L.maxLevel)
    (hQ : ∀ m', SkipShape L bound m' [a, b] free →
      (∀ i, i ≠ freeBlocksHead → i ≠ listHead → i ≠ listTail → m'.sreg i = w.memory.sreg i) →
      Q () { w with memory := m' }) :
    (spec d).wp (initSentinels L) w Q := by
  have ha : a ≠ 0 := fun he => h0 (by simp [he])
  have hb : b ≠ 0 := fun he => h0 (by simp [he])
  have hab : a ≠ b := fun he => (nodup_cons.mp hnd).1 (by simp [he])
  have hfree' : FreeList ((w.memory.setSreg freeBlocksHead (w.memory.vault a 0)).setSreg listHead a)
      (b :: free) := hfree.alloc.congr (by simp [freeBlocksHead, listHead]) (fun _ _ => rfl)
  simp only [initSentinels, wp_bind]
  refine wp_allocMemoryBlock_cons hfree ha ?_
  simp only [wp_writeSreg]
  refine wp_allocMemoryBlock_cons hfree' hb ?_
  simp only [wp_store_of_ne ha, wp_store_of_ne hb]
  refine wp_mono ((spec d).wp_forUp (fun i _ w' => w'.ports = w.ports ∧ i ≤ L.maxLevel ∧
    Threaded L (sentinelFields L w.memory a b) w'.memory a b i) ?_ L.maxLevel 0 () _
    (Nat.zero_add _) ?_) ?_
  · rintro i _ w' hi ⟨hports, _, hth⟩
    simp only [wp_bind, wp_store_of_ne ha, wp_store_of_ne hb]
    exact ⟨hports, hi, hth.succ hab hi⟩
  · exact ⟨rfl, Nat.zero_le _, rfl, fun _ _ _ _ => rfl, fun _ _ _ => rfl,
      fun l hl => absurd hl (Nat.not_lt_zero l)⟩
  · rintro _ ⟨m', v⟩ ⟨hports, _, hth⟩
    obtain rfl : v = w.ports := hports
    refine hQ m' (hth.shape hfree hnd h0 hL) (fun i h3 h4 h5 => ?_)
    rw [hth.sreg]
    simp [sentinelFields, h3, h4, h5]

theorem wp_listInit (bound : ℕ) (hsize : 0 < L.blockSize)
    (hL : 0 < L.maxLevel) (hblocks : 2 ≤ L.numMemBlocks)
    (hQ : ∀ m' a b free, SkipShape L bound m' [a, b] free →
      ([a, b] ++ free).Perm (blockAddrs L L.numMemBlocks) →
      (∀ i, 5 < i ∨ i = 0 → m'.sreg i = w.memory.sreg i) → Q () { w with memory := m' }) :
    (spec d).wp (listInit L) w Q := by
  simp only [listInit, wp_bind]
  refine wp_initBlocks hsize ?_
  intro m₁ hfree hsreg₁
  obtain ⟨a, b, free, hrev⟩ :
    ∃ a b free, (blockAddrs L L.numMemBlocks).reverse = a :: b :: free := by
    have hlen : (blockAddrs L L.numMemBlocks).reverse.length = L.numMemBlocks := by
      simp [blockAddrs]
    rcases hr : (blockAddrs L L.numMemBlocks).reverse with _ | ⟨a, _ | ⟨b, free⟩⟩
    · simp [hr] at hlen
      omega
    · simp [hr] at hlen
      omega
    · exact ⟨a, b, free, rfl⟩
  have hperm : (a :: b :: free).Perm (blockAddrs L L.numMemBlocks) :=
    hrev ▸ reverse_perm _
  rw [hrev] at hfree
  refine wp_initSentinels bound hfree (hperm.nodup_iff.mpr (nodup_blockAddrs hsize))
    (fun h0 => zero_notMem_blockAddrs (hperm.mem_iff.mp h0)) hL ?_
  intro m₂ hshape hsreg₂
  simp only [wp_writeSreg]
  refine hQ _ a b free ?_ hperm ?_
  · refine hshape.congr_sreg rfl ?_ ?_ ?_
    · simp [freeBlocksHead]
    · simp [listHead]
    · simp [listTail]
  · intro i hi
    have h1 : i ≠ 1 := by omega
    have h2 : i ≠ 2 := by omega
    have h3 : i ≠ freeBlocksHead := by simp [freeBlocksHead]; omega
    have h4 : i ≠ listHead := by simp [listHead]; omega
    have h5 : i ≠ listTail := by simp [listTail]; omega
    simp only [ne_eq, h1, not_false_eq_true, Memory.setSreg_ne, h2]
    rw [hsreg₂ i h3 h4 h5, hsreg₁ i h3]

end Init

end SmcSim.SkipListInit
