import SmcSim.DmaEngine
import Mathlib.Data.List.Nodup

/-!
# Packets of the DMA engine

The packets of a transfer have its bytes, a response is matched with the request one of
whose ranges it falls into, and the bytes of the packets that are not answered yet are
counted by owner and by transfer.
-/

namespace SmcSim.Dma
open TranslationRules List

/-! ### Chunks -/

variable {chunkSize fuel addr n : ℕ} {x : ℕ × ℕ}

theorem alignedChunks_sum (addr : ℕ) (hchunk : 0 < chunkSize) (hfuel : n ≤ fuel) :
    ((alignedChunks chunkSize fuel addr n).map Prod.snd).sum = n := by
  induction fuel generalizing addr n with
  | zero =>
    obtain rfl := Nat.le_zero.mp hfuel
    rfl
  | succ fuel ih =>
    rw [alignedChunks]
    split
    · next hzero => exact hzero.symm
    · have hrest := ih (addr + min n chunkSize) (n := n - min n chunkSize) (by omega)
      rw [map_cons, sum_cons, hrest]
      omega

theorem alignedChunks_inside (hchunk : 0 < chunkSize)
    (h : x ∈ alignedChunks chunkSize fuel addr n) :
    addr ≤ x.1 ∧ x.1 + x.2 ≤ addr + n ∧ 0 < x.2 := by
  induction fuel generalizing addr n with
  | zero => cases h
  | succ fuel ih =>
    rw [alignedChunks] at h
    split at h
    · cases h
    · rcases mem_cons.mp h with rfl | hmem
      · dsimp only
        omega
      · have hx := ih hmem
        omega

/-- The first chunk is not empty, and the rest of the region is chunked if there is one. -/
theorem chunks_cons (chunkSize addr : ℕ) (hn : 0 < n) :
    ∃ size, 0 < size ∧ size ≤ n ∧ (n = size ∨ 0 < chunkSize) ∧ chunks chunkSize addr n =
      (addr, size) :: alignedChunks chunkSize n (addr + size) (n - size) := by
  by_cases hchunk : chunkSize = 0
  · have hmin : min n n = n := Nat.min_self n
    refine ⟨n, hn, le_refl n, .inl rfl, ?_⟩
    simp only [chunks, hchunk, if_true, hmin]
    rw [if_neg (by omega)]
  · have hnext : addr < (addr / chunkSize + 1) * chunkSize := by
      have hdiv := Nat.div_add_mod addr chunkSize
      have hmod := Nat.mod_lt addr (Nat.pos_of_ne_zero hchunk)
      rw [Nat.add_mul, Nat.mul_comm, Nat.one_mul]
      omega
    refine ⟨min n ((addr / chunkSize + 1) * chunkSize - addr), by omega, Nat.min_le_left _ _,
      .inr (Nat.pos_of_ne_zero hchunk), ?_⟩
    simp only [chunks, hchunk, if_false]
    rw [if_neg (by omega)]

theorem chunks_sum (chunkSize addr n : ℕ) : ((chunks chunkSize addr n).map Prod.snd).sum = n := by
  by_cases hn : 0 < n
  · obtain ⟨size, hpos, hle, hrest, hchunks⟩ := chunks_cons chunkSize addr hn
    rw [hchunks, map_cons, sum_cons]
    rcases hrest with rfl | hchunk
    · obtain ⟨k, rfl⟩ : ∃ k, n = k + 1 := ⟨n - 1, by omega⟩
      rw [Nat.sub_self, alignedChunks, if_pos rfl]
      rfl
    · rw [alignedChunks_sum _ hchunk (Nat.sub_le n size)]
      dsimp only
      omega
  · obtain rfl : n = 0 := by omega
    simp [chunks]

theorem chunks_inside (h : x ∈ chunks chunkSize addr n) :
    addr ≤ x.1 ∧ x.1 + x.2 ≤ addr + n ∧ 0 < x.2 := by
  by_cases hn : 0 < n
  · obtain ⟨size, hpos, hle, hrest, hchunks⟩ := chunks_cons chunkSize addr hn
    rw [hchunks] at h
    rcases mem_cons.mp h with rfl | hmem
    · dsimp only
      omega
    · rcases hrest with rfl | hchunk
      · obtain ⟨k, rfl⟩ : ∃ k, n = k + 1 := ⟨n - 1, by omega⟩
        rw [Nat.sub_self, alignedChunks, if_pos rfl] at hmem
        cases hmem
      · have hx := alignedChunks_inside hchunk hmem
        omega
  · obtain rfl : n = 0 := by omega
    simp [chunks] at h

/-! ### Bytes that are not answered -/

/-- The bytes of the packets that satisfy `q`. -/
def bytesOf (q : Packet → Bool) (ps : List Packet) : ℕ := ((ps.filter q).map Packet.size).sum

variable {q : Packet → Bool} {ps ps' : List Packet} {p : Packet}

theorem bytesOf_append : bytesOf q (ps ++ ps') = bytesOf q ps + bytesOf q ps' := by
  simp [bytesOf]

theorem bytesOf_eraseIdx {j : ℕ} (h : ps[j]? = some p) :
    bytesOf q ps = bytesOf q (ps.eraseIdx j) + if q p then p.size else 0 := by
  obtain ⟨hj, rfl⟩ := List.getElem?_eq_some_iff.mp h
  have hperm : (ps[j] :: ps.eraseIdx j).Perm ps := getElem_cons_eraseIdx_perm hj
  have hsum := ((hperm.filter q).map Packet.size).sum_eq
  unfold bytesOf
  rw [← hsum, filter_cons]
  split
  · rw [map_cons, sum_cons, add_comm]
  · rfl

theorem bytesOf_of_forall (h : ∀ p ∈ ps, q p = true) : bytesOf q ps = (ps.map Packet.size).sum := by
  rw [bytesOf, filter_eq_self.mpr h]

theorem bytesOf_of_forall_not (h : ∀ p ∈ ps, q p = false) : bytesOf q ps = 0 := by
  rw [bytesOf, filter_eq_nil_iff.mpr (fun p hp => by simp [h p hp])]
  rfl

theorem size_le_bytesOf (hp : p ∈ ps) (hq : q p = true) : p.size ≤ bytesOf q ps := by
  obtain ⟨j, hj⟩ := mem_iff_getElem?.mp hp
  rw [bytesOf_eraseIdx hj, if_pos hq]
  exact Nat.le_add_left _ _

theorem sum_size_chunks (chunkSize addr n k owner : ℕ) :
    (((chunks chunkSize addr n).map (fun x => (⟨x.1, x.2, k, owner⟩ : Packet))).map
      Packet.size).sum = n := by
  rw [List.map_map]
  exact chunks_sum chunkSize addr n

/-! ### Matching -/

def rangeAddrs (g : Range) : List ℕ := List.range' g.start (g.stop + 1 - g.start)

variable {g : Range}

theorem mem_rangeAddrs {a : ℕ} : a ∈ rangeAddrs g ↔ g.Contains a := by
  rw [rangeAddrs, mem_range'_1, Range.Contains]
  omega

/-- Of ranges without common addresses, one contains a given address. -/
theorem filter_contains_of_nodup {ranges : List Range} {a : ℕ}
    (h : (ranges.flatMap rangeAddrs).Nodup) (hg : g ∈ ranges) (ha : g.Contains a) :
    ranges.filter (fun g => g.Contains a) = [g] := by
  induction ranges with
  | nil => cases hg
  | cons head tail ih =>
    rw [flatMap_cons, nodup_append] at h
    obtain ⟨-, htail, hdisjoint⟩ := h
    rcases mem_cons.mp hg with rfl | hmem
    · have hnone : tail.filter (fun g => g.Contains a) = [] := by
        rw [filter_eq_nil_iff]
        intro g' hg' hcontains
        exact hdisjoint a (mem_rangeAddrs.mpr ha) a
          (mem_flatMap.mpr ⟨g', hg', mem_rangeAddrs.mpr (of_decide_eq_true hcontains)⟩) rfl
      rw [filter_cons_of_pos (by simpa using ha), hnone]
    · have hhead : ¬ head.Contains a := by
        intro hcontains
        exact hdisjoint a (mem_rangeAddrs.mpr hcontains) a
          (mem_flatMap.mpr ⟨g, hmem, mem_rangeAddrs.mpr ha⟩) rfl
      rw [filter_cons_of_neg (by simpa using hhead), ih htail hmem]

/-- Ranges have no common addresses if the first address of each is in no other. -/
theorem nodup_of_starts {ranges : List Range} (hranges : ∀ g ∈ ranges, g.start ≤ g.stop)
    (h : ∀ g ∈ ranges, (ranges.filter (fun g' => g'.Contains g.start)).length ≤ 1) :
    (ranges.flatMap rangeAddrs).Nodup := by
  induction ranges with
  | nil => exact nodup_nil
  | cons g gs ih =>
    have htwice : ∀ a, g.Contains a → ∀ g' ∈ gs, g'.Contains a →
        1 < ((g :: gs).filter (fun g => g.Contains a)).length := by
      intro a ha g' hg' ha'
      rw [filter_cons_of_pos (by simpa using ha), length_cons]
      have hmem : g' ∈ gs.filter (fun g => g.Contains a) :=
        mem_filter.mpr ⟨hg', by simpa using ha'⟩
      have hpos := length_pos_of_mem hmem
      omega
    rw [flatMap_cons, nodup_append]
    refine ⟨nodup_range', ih (fun g' hg' => hranges g' (mem_cons_of_mem _ hg'))
      (fun g' hg' => ?_), ?_⟩
    · have hsub := (sublist_cons_self g gs).filter (fun x => x.Contains g'.start)
      exact le_trans hsub.length_le (h g' (mem_cons_of_mem _ hg'))
    · rintro a ha _ hb rfl
      obtain ⟨g', hg', ha'⟩ := mem_flatMap.mp hb
      obtain ⟨hle, hge⟩ := mem_rangeAddrs.mp ha
      obtain ⟨hle', hge'⟩ := mem_rangeAddrs.mp ha'
      -- The later of the two first addresses is in both ranges.
      rcases Nat.le_total g.start g'.start with hstart | hstart
      · refine lt_irrefl 1 (lt_of_lt_of_le (htwice g'.start ⟨hstart, ?_⟩ g' hg' ⟨le_rfl, ?_⟩)
          (h g' (mem_cons_of_mem _ hg')))
        · exact le_trans hle' hge
        · exact le_trans hle' hge'
      · refine lt_irrefl 1 (lt_of_lt_of_le (htwice g.start ⟨le_rfl, ?_⟩ g' hg' ⟨hstart, ?_⟩)
          (h g mem_cons_self))
        · exact le_trans hle hge
        · exact le_trans hle hge'

/-- If one element alone contributes, the result is its position. -/
theorem flatMap_zipIdx_single {α β : Type} {f : α → List β} {l : List α} {i : ℕ} {x : α} {b : β}
    (k : ℕ) (hi : l[i]? = some x) (hx : f x = [b])
    (hother : ∀ j y, j ≠ i → l[j]? = some y → f y = []) :
    (l.zipIdx k).flatMap (fun x => (f x.1).map (fun _ => x.2)) = [k + i] := by
  induction l generalizing i k with
  | nil => cases hi
  | cons head tail ih =>
    rw [zipIdx_cons, flatMap_cons]
    cases i with
    | zero =>
      obtain rfl : head = x := Option.some.inj hi
      have hrest : (tail.zipIdx (k + 1)).flatMap (fun x => (f x.1).map (fun _ => x.2)) = [] := by
        rw [flatMap_eq_nil_iff]
        rintro ⟨y, n⟩ hy
        obtain ⟨hle, hy⟩ := mk_mem_zipIdx_iff_le_and_getElem?_sub.mp hy
        rw [hother (n - (k + 1) + 1) y (Nat.succ_ne_zero _) hy]
        rfl
      rw [hrest, hx]
      rfl
    | succ i =>
      have hhead : f head = [] := hother 0 head (Nat.succ_ne_zero i).symm rfl
      rw [hhead, ih (k + 1) hi (fun j y hj hy => hother (j + 1) y (by omega) hy)]
      simp only [map_nil, nil_append, List.cons.injEq, and_true]
      omega

theorem matching_of_nodup {requests : List Request} {k a : ℕ} {r : Request}
    (h : (requests.flatMap (fun r => r.memRanges.flatMap rangeAddrs)).Nodup)
    (hr : requests[k]? = some r) (hg : g ∈ r.memRanges) (ha : g.Contains a) :
    matching a requests = [k] := by
  obtain ⟨heach, hdisjoint⟩ := nodup_flatMap.mp h
  have hown := filter_contains_of_nodup (heach r (mem_of_getElem? hr)) hg ha
  have hmine : a ∈ r.memRanges.flatMap rangeAddrs :=
    mem_flatMap.mpr ⟨g, hg, mem_rangeAddrs.mpr ha⟩
  have hsingle := flatMap_zipIdx_single
    (f := fun r : Request => r.memRanges.filter (fun g => g.Contains a)) 0 hr hown
  rw [zero_add] at hsingle
  apply hsingle
  intro j r' hne hr'
  rw [filter_eq_nil_iff]
  intro g' hg' hcontains
  have hother : a ∈ r'.memRanges.flatMap rangeAddrs :=
    mem_flatMap.mpr ⟨g', hg', mem_rangeAddrs.mpr (of_decide_eq_true hcontains)⟩
  obtain ⟨hk, rfl⟩ := List.getElem?_eq_some_iff.mp hr
  obtain ⟨hj, rfl⟩ := List.getElem?_eq_some_iff.mp hr'
  rw [pairwise_iff_getElem] at hdisjoint
  rcases Nat.lt_or_gt_of_ne hne with hlt | hlt
  · exact hdisjoint j k hj hk hlt hother hmine
  · exact hdisjoint k j hk hj hlt hmine hother

end SmcSim.Dma
