import SmcSim.TlbVectors
import Mathlib.Data.List.Nodup

/-!
# The structure of the TLB

What holds of the vectors along every run: equal lengths, room, the static rule in front, and the
replacement of a rule whose last use is the oldest. The dynamic rules are slices of the table, and
no address lies in two of them as long as refills are asked for one page of a slice at a time.
-/

namespace SmcSim.Tlb
open SliceTable TranslationRules Interleavings List Option

/-! ### Last uses -/

def lastUse (uses : List (ℕ × ℕ)) (id : ℕ) : Option ℕ :=
  (uses.reverse.find? (fun u => u.1 = id)).map Prod.snd

theorem lastUse_concat_self (uses : List (ℕ × ℕ)) (id now : ℕ) :
    lastUse (uses ++ [(id, now)]) id = some now := by
  simp [lastUse]

theorem lastUse_concat_of_ne {uses : List (ℕ × ℕ)} {id id' now : ℕ} (h : id' ≠ id) :
    lastUse (uses ++ [(id, now)]) id' = lastUse uses id' := by
  simp [lastUse, Ne.symm h]

/-- `lastUsed` is the time of the last use of every dynamic rule. -/
structure Recorded (v : Vectors) : Prop where
  length : v.ids.length = v.lastUsed.length
  nodup : v.ids.Nodup
  bound : ∀ id ∈ v.ids, id < v.issued
  times : ∀ i id t, 0 < i → v.ids[i]? = some id → v.lastUsed[i]? = some t →
    lastUse v.uses id = some t

variable {v : Vectors} {i now : ℕ} {x : Slice}

theorem recorded_initial (original remapped : Range) :
    Recorded (Vectors.initial original remapped) where
  length := rfl
  nodup := nodup_singleton 0
  bound id hid := by
    rw [mem_singleton.mp hid]
    exact zero_lt_one
  times i id t hi hid := by
    match i, hi with
    | i + 1, _ => cases hid

theorem Recorded.use (h : Recorded v) (hi : i < v.lastUsed.length) : Recorded (v.use i now) := by
  obtain ⟨id, hid⟩ : ∃ id, v.ids[i]? = some id :=
    ⟨_, getElem?_eq_getElem (h.length.symm ▸ hi)⟩
  have hget : v.ids.getD i 0 = id := by rw [getD_eq_getElem?_getD, hid, getD_some]
  refine ⟨?_, h.nodup, h.bound, fun j id' t hj hid' ht => ?_⟩
  · exact h.length.trans (length_set ..).symm
  · change lastUse (v.uses ++ [(v.ids.getD i 0, now)]) id' = some t
    change (v.lastUsed.set i now)[j]? = some t at ht
    change v.ids[j]? = some id' at hid'
    rw [hget]
    by_cases hji : j = i
    · subst hji
      cases hid.symm.trans hid'
      rw [getElem?_set_self hi] at ht
      rw [lastUse_concat_self, ht]
    · rw [getElem?_set_ne (Ne.symm hji)] at ht
      have hne : id' ≠ id := by
        rintro rfl
        have hlt := (List.getElem?_eq_some_iff.mp hid').1
        exact hji ((getElem?_inj hlt h.nodup).mp (hid'.trans hid.symm))
      rw [lastUse_concat_of_ne hne]
      exact h.times j id' t hj hid' ht

theorem Recorded.erase (h : Recorded v) (i : ℕ) : Recorded (v.erase i) := by
  refine ⟨?_, h.nodup.sublist (eraseIdx_sublist _ _),
    fun id hid => h.bound id (mem_of_mem_eraseIdx hid), fun j id t hj hid ht => ?_⟩
  · simp only [Vectors.erase, length_eraseIdx, h.length]
  · simp only [Vectors.erase, getElem?_eraseIdx] at hid ht
    split at hid
    · next hlt =>
      rw [if_pos hlt] at ht
      exact h.times j id t hj hid ht
    · next hge =>
      rw [if_neg hge] at ht
      exact h.times (j + 1) id t (Nat.succ_pos j) hid ht

theorem Recorded.push (h : Recorded v) (now : ℕ) (x : Slice) : Recorded (v.push now x) := by
  have hnew : v.issued ∉ v.ids := fun hmem => lt_irrefl _ (h.bound _ hmem)
  refine ⟨by simp [Vectors.push, h.length], ?_, fun id hid => ?_, fun j id t hj hid ht => ?_⟩
  · exact h.nodup.append (nodup_singleton _) (by simpa using hnew)
  · rcases mem_append.mp hid with hid | hid
    · exact Nat.lt_succ_of_lt (h.bound id hid)
    · rw [mem_singleton.mp hid]
      exact Nat.lt_succ_self _
  · change (v.ids ++ [v.issued])[j]? = some id at hid
    change (v.lastUsed ++ [now])[j]? = some t at ht
    change lastUse (v.uses ++ [(v.issued, now)]) id = some t
    by_cases hlt : j < v.ids.length
    · rw [getElem?_append_left hlt] at hid
      rw [getElem?_append_left (h.length ▸ hlt)] at ht
      have hne : id ≠ v.issued := by
        rintro rfl
        exact hnew (mem_of_getElem? hid)
      rw [lastUse_concat_of_ne hne]
      exact h.times j id t hj hid ht
    · have hge : v.ids.length ≤ j := Nat.le_of_not_lt hlt
      rw [getElem?_append_right hge, getElem?_singleton] at hid
      rw [getElem?_append_right (h.length ▸ hge), getElem?_singleton, ← h.length] at ht
      split at hid
      · next hzero =>
        rw [if_pos hzero] at ht
        cases hid
        rw [lastUse_concat_self, ht]
      · cases hid

/-! ### The vectors stay in step -/

structure Structured (c : Config) (original remapped : Range) (v : Vectors) : Prop where
  remapped_length : v.remappedRanges.length = v.originalRanges.length
  lastUsed_length : v.lastUsed.length = v.originalRanges.length
  size_le : v.originalRanges.length ≤ c.tlbSize
  static : v.originalRanges[0]? = some original ∧ v.remappedRanges[0]? = some remapped

/-- No dynamic rule was used last before the one at position `i`. -/
def Oldest (v : Vectors) (i : ℕ) : Prop :=
  0 < i ∧ ∃ id t, v.ids[i]? = some id ∧ lastUse v.uses id = some t ∧
    ∀ j id', 0 < j → v.ids[j]? = some id' → ∃ t', lastUse v.uses id' = some t' ∧ t ≤ t'

def EvictsOldest (v v' : Vectors) : Prop :=
  ∀ i id, v.ids[i]? = some id → id ∉ v'.ids → Oldest v i

variable {c : Config} {table : ℕ → Slice} {original remapped : Range} {v' : Vectors} {a : ℕ}

theorem structured_initial (c : Config) (original remapped : Range) :
    Structured c original remapped (Vectors.initial original remapped) where
  remapped_length := rfl
  lastUsed_length := rfl
  size_le := Nat.le_of_succ_le c.two_le_tlbSize
  static := ⟨rfl, rfl⟩

theorem Structured.use (h : Structured c original remapped v) :
    Structured c original remapped (v.use i now) :=
  ⟨h.remapped_length, (length_set ..).trans h.lastUsed_length, h.size_le, h.static⟩

/-- The position that is replaced. -/
theorem minIndex_spec {lastUsed : List ℕ} (h : 1 < lastUsed.length) :
    0 < Vectors.minIndex lastUsed ∧ Vectors.minIndex lastUsed < lastUsed.length ∧
      ∀ j, 0 < j → j < lastUsed.length →
        lastUsed.getD (Vectors.minIndex lastUsed) 0 ≤ lastUsed.getD j 0 := by
  obtain ⟨hwhere, -, hall⟩ :=
    foldl_least (fun i => lastUsed.getD i 0) (List.range' 1 (lastUsed.length - 1)) 1
  refine ⟨?_, ?_, fun j hj hlt => hall j (mem_range'_1.mpr ⟨hj, by omega⟩)⟩
  · rcases hwhere with heq | hmem
    · exact lt_of_lt_of_eq zero_lt_one heq.symm
    · exact (mem_range'_1.mp hmem).1
  · rcases hwhere with heq | hmem
    · exact lt_of_le_of_lt (le_of_eq heq) h
    · have hlt := (mem_range'_1.mp hmem).2
      exact lt_of_lt_of_eq hlt (by omega)

theorem Recorded.oldest (h : Recorded v) (htwo : 1 < v.lastUsed.length) :
    Oldest v (Vectors.minIndex v.lastUsed) := by
  obtain ⟨hpos, hlt, hleast⟩ := minIndex_spec htwo
  have hsome : ∀ j, j < v.lastUsed.length → v.lastUsed[j]? = some (v.lastUsed.getD j 0) := by
    intro j hj
    rw [getD_eq_getElem?_getD, getElem?_eq_getElem hj, getD_some]
  have hid := getElem?_eq_getElem (h.length.symm ▸ hlt)
  refine ⟨hpos, _, _, hid, h.times _ _ _ hpos hid (hsome _ hlt), fun j id' hj hid' => ?_⟩
  have hjlt : j < v.lastUsed.length := h.length ▸ (List.getElem?_eq_some_iff.mp hid').1
  exact ⟨_, h.times j id' _ hj hid' (hsome j hjlt), hleast j hj hjlt⟩

section

variable (h : Structured c original remapped v)
include h

/-- What an update leaves of the vectors: everything, or all but one of the oldest rules. -/
theorem updateTLB_cases (hrecorded : Recorded v) (hupdate : v.updateTLB c now x = some v') :
    (v.originalRanges.length < c.tlbSize ∧ v' = v.push now x) ∨
      ∃ i, Oldest v i ∧ i < v.originalRanges.length ∧ v' = (v.erase i).push now x := by
  unfold Vectors.updateTLB at hupdate
  split at hupdate
  · split at hupdate
    · next htwo =>
      cases hupdate
      have hlt := (minIndex_spec htwo).2.1
      rw [h.lastUsed_length] at hlt
      exact .inr ⟨_, hrecorded.oldest htwo, hlt, rfl⟩
    · cases hupdate
  · next hroom =>
    cases hupdate
    exact .inl ⟨Nat.lt_of_not_le hroom, rfl⟩

theorem Structured.push (hroom : v.originalRanges.length < c.tlbSize) :
    Structured c original remapped (v.push now x) := by
  have hpos : 0 < v.originalRanges.length := (List.getElem?_eq_some_iff.mp h.static.1).1
  refine ⟨by simp [Vectors.push, h.remapped_length], by simp [Vectors.push, h.lastUsed_length],
    by simp only [Vectors.push, length_append, length_singleton]; exact hroom, ?_, ?_⟩
  · exact (getElem?_append_left hpos).trans h.static.1
  · exact (getElem?_append_left (h.remapped_length.symm ▸ hpos)).trans h.static.2

theorem Structured.erase (hpos : 0 < i) (hlt : i < v.originalRanges.length) :
    Structured c original remapped (v.erase i) ∧ (v.erase i).originalRanges.length < c.tlbSize := by
  have hsize := h.size_le
  have hlength : (v.erase i).originalRanges.length = v.originalRanges.length - 1 := by
    rw [Vectors.erase, length_eraseIdx, if_pos hlt]
  refine ⟨⟨?_, ?_, by omega, ?_, ?_⟩, by omega⟩
  · simp [Vectors.erase, length_eraseIdx, h.remapped_length]
  · simp [Vectors.erase, length_eraseIdx, h.lastUsed_length]
  · rw [Vectors.erase, getElem?_eraseIdx, if_pos hpos]
    exact h.static.1
  · rw [Vectors.erase, getElem?_eraseIdx, if_pos hpos]
    exact h.static.2

end

structure Ordered (c : Config) (original remapped : Range) (v : Vectors) : Prop where
  structured : Structured c original remapped v
  recorded : Recorded v

theorem Ordered.updateTLB (h : Ordered c original remapped v)
    (hupdate : v.updateTLB c now x = some v') : Ordered c original remapped v' := by
  rcases updateTLB_cases h.structured h.recorded hupdate with ⟨hroom, rfl⟩ | ⟨i, hold, hlt, rfl⟩
  · exact ⟨h.structured.push hroom, h.recorded.push now x⟩
  · obtain ⟨hstructured, hroom⟩ := h.structured.erase hold.1 hlt
    exact ⟨hstructured.push hroom, (h.recorded.erase i).push now x⟩

theorem Ordered.pending (h : Ordered c original remapped v) (pending : List ℕ) :
    Ordered c original remapped { v with pendingRefills := pending } :=
  ⟨⟨h.structured.remapped_length, h.structured.lastUsed_length, h.structured.size_le,
    h.structured.static⟩, ⟨h.recorded.length, h.recorded.nodup, h.recorded.bound, h.recorded.times⟩⟩

variable {e : Event}

theorem Vectors.step_cases (h : v.step c table (now, e) = some v') :
    v' = v ∨ (∃ i, 0 < i ∧ i < v.lastUsed.length ∧ v' = v.use i now) ∨
    (∃ a, e = .requestRefill a true ∧ c.sliceVStart ≤ a ∧ entryAddr c a ∉ v.pendingRefills ∧
      v' = { v with pendingRefills := v.pendingRefills ++ [entryAddr c a] }) ∨
    (∃ a, e = .refill a ∧ c.sliceVStart ≤ a ∧ entryAddr c a ∉ v.pendingRefills ∧
      v.updateTLB c now (table (index c a)) = some v') ∨
    ∃ a, e = .refillResponse a ∧ entryAddr c a ∈ v.pendingRefills ∧
      Vectors.updateTLB c now (table (index c a))
        { v with pendingRefills := v.pendingRefills.erase (entryAddr c a) } = some v' := by
  cases e with
  | access a =>
    obtain ⟨⟨y, w⟩, hremap, rfl⟩ := map_eq_some_iff.mp h
    unfold Vectors.remap at hremap
    split at hremap
    · next i hlookup =>
      split at hremap
      · next hlast =>
        obtain ⟨-, rfl⟩ := Prod.mk.inj (some.inj hremap)
        split
        · next hpos =>
          exact .inr (.inl ⟨i, hpos, (List.getElem?_eq_some_iff.mp hlast).1, rfl⟩)
        · exact .inl rfl
      · cases hremap
    · split at hremap
      · obtain ⟨-, rfl⟩ := Prod.mk.inj (some.inj hremap)
        exact .inl rfl
      · cases hremap
  | refill a =>
    obtain ⟨hge, hask⟩ := ite_none_right_eq_some.mp h
    obtain ⟨hfree, hupdate⟩ := ite_none_left_eq_some.mp hask
    exact .inr (.inr (.inr (.inl ⟨a, rfl, hge, hfree, hupdate⟩)))
  | requestRefill a accepted =>
    obtain ⟨hge, hask⟩ := ite_none_right_eq_some.mp h
    split at hask
    · exact .inl (some.inj hask).symm
    · next hfree =>
      split at hask
      · next haccepted =>
        obtain rfl : accepted = true := haccepted
        exact .inr (.inr (.inl ⟨a, rfl, hge, hfree, (some.inj hask).symm⟩))
      · exact .inl (some.inj hask).symm
  | refillResponse a =>
    obtain ⟨hpending, hupdate⟩ := ite_none_right_eq_some.mp h
    exact .inr (.inr (.inr (.inr ⟨a, rfl, hpending, hupdate⟩)))

section

variable (h : Ordered c original remapped v)
include h

theorem Ordered.step (hstep : v.step c table (now, e) = some v') :
    Ordered c original remapped v' := by
  rcases Vectors.step_cases hstep with rfl | ⟨i, -, hlt, rfl⟩ | ⟨a, -, -, -, rfl⟩ |
    ⟨a, -, -, -, hupdate⟩ | ⟨a, -, -, hupdate⟩
  · exact h
  · exact ⟨h.structured.use, h.recorded.use hlt⟩
  · exact h.pending _
  · exact h.updateTLB hupdate
  · exact (h.pending _).updateTLB hupdate

theorem Ordered.evictsOldest_updateTLB (hupdate : v.updateTLB c now x = some v') :
    EvictsOldest v v' := by
  intro i id hid hgone
  rcases updateTLB_cases h.structured h.recorded hupdate with ⟨-, rfl⟩ | ⟨j, hold, -, rfl⟩
  · exact absurd (mem_append_left _ (mem_of_getElem? hid)) hgone
  · by_cases hij : i = j
    · exact hij ▸ hold
    · exfalso
      apply hgone
      exact mem_append_left _ (mem_eraseIdx_iff_getElem?.mpr ⟨i, hij, hid⟩)

/-- Every event removes a dynamic rule whose last use is the oldest, if it removes one. -/
theorem Ordered.evictsOldest (hstep : v.step c table (now, e) = some v') : EvictsOldest v v' := by
  rcases Vectors.step_cases hstep with rfl | ⟨i, -, hlt, rfl⟩ | ⟨a, -, -, -, rfl⟩ |
    ⟨a, -, -, -, hupdate⟩ | ⟨a, -, -, hupdate⟩
  · exact fun i id hid hgone => absurd (mem_of_getElem? hid) hgone
  · exact fun i id hid hgone => absurd (mem_of_getElem? hid) hgone
  · exact fun i id hid hgone => absurd (mem_of_getElem? hid) hgone
  · exact h.evictsOldest_updateTLB hupdate
  · exact (h.pending (v.pendingRefills.erase (entryAddr c a))).evictsOldest_updateTLB hupdate

end

/-! ### Slices -/

structure SlicedTlb where
  config : Config
  pages : Pages
  table : ℕ → Slice
  arch : config.pimArch = 32 ∨ config.pimArch = 64
  pageShift : config.osPageShift = pages.pageShift
  sliceTable : config.sliceTablePtr ≠ 0
  inside : config.sliceVStart + pages.pageSize * pages.count ≤ 0x10000000000000000
  merged : ∀ k < pages.count, Merged pages config.sliceVStart pages.count table k

namespace SlicedTlb

variable (D : SlicedTlb)

def Mem (a : ℕ) : Prop := D.config.sliceVStart ≤ a ∧ index D.config a < D.pages.count

instance (a : ℕ) : Decidable (D.Mem a) := inferInstanceAs (Decidable (_ ∧ _))

/-- The address of the entry of page `k` in the table. -/
def entry (k : ℕ) : ℕ := D.config.sliceTablePtr + k * (3 * D.config.pimArch / 8)

def step : Vectors → ℕ × Event → Option Vectors := Vectors.step D.config D.table

/-- Refills are made for addresses of the region that miss, and are answered. -/
def Called (v : Vectors) : Event → Prop
  | .access _ => True
  | .refill a | .requestRefill a _ => D.Mem a ∧ Vectors.lookup a v.originalRanges = none
  | .refillResponse a => D.Mem a

/-- No refill is asked for while that of another page of the same slice is in flight. -/
def OneRefill (v : Vectors) : Event → Prop
  | .refill a | .requestRefill a _ => ∀ k < D.pages.count, k ≠ index D.config a →
      D.entry k ∈ v.pendingRefills → D.table k ≠ D.table (index D.config a)
  | .access _ | .refillResponse _ => True

instance (v : Vectors) : (e : Event) → Decidable (D.Called v e)
  | .access _ => inferInstanceAs (Decidable True)
  | .refill _ | .requestRefill _ _ => inferInstanceAs (Decidable (_ ∧ _))
  | .refillResponse a => inferInstanceAs (Decidable (D.Mem a))

instance (v : Vectors) : (e : Event) → Decidable (D.OneRefill v e)
  | .access _ | .refillResponse _ => inferInstanceAs (Decidable True)
  | .refill _ | .requestRefill _ _ => inferInstanceAs (Decidable (∀ k < _, _ → _ → _))

end SlicedTlb

def Apart (r r' : Range) : Prop := ∀ a, r.Contains a → ¬ r'.Contains a

def DynamicDisjoint (v : Vectors) : Prop := v.originalRanges.tail.Pairwise Apart

def rangeOf (x : Slice) : Range := ⟨x.vaddr, lastAddr x.vaddr x.size⟩

variable {D : SlicedTlb} {k l : ℕ}

theorem SlicedTlb.entry_inj (h : D.entry k = D.entry l) : k = l := by
  have hpos : 0 < 3 * D.config.pimArch / 8 := by
    rcases D.arch with harch | harch <;> rw [harch] <;> decide
  exact Nat.eq_of_mul_eq_mul_right hpos (Nat.add_left_cancel h)

theorem SlicedTlb.contains (ha : D.Mem a) :
    (rangeOf (D.table (index D.config a))).Contains a := by
  obtain ⟨i, c, hcover, -, -⟩ := D.merged _ ha.2
  refine (contains_slice hcover D.inside ha.1).mpr ?_
  rw [← D.pageShift]
  exact ⟨hcover.start_le, hcover.lt_stop⟩

/-- Two slices that share an address are the same. -/
theorem SlicedTlb.apart (hk : k < D.pages.count) (hl : l < D.pages.count)
    (hne : D.table k ≠ D.table l) : Apart (rangeOf (D.table k)) (rangeOf (D.table l)) := by
  intro a hka hla
  obtain ⟨i, c, hcover, -, hsame⟩ := D.merged k hk
  obtain ⟨j, d, hcover', -, hsame'⟩ := D.merged l hl
  have hstart : D.config.sliceVStart ≤ a := by
    have hle := hka.1
    rw [hcover.slice] at hle
    exact le_trans (Nat.le_add_right _ _) hle
  obtain ⟨hle, hlt⟩ := (contains_slice hcover D.inside hstart).mp hka
  obtain ⟨hle', hlt'⟩ := (contains_slice hcover' D.inside hstart).mp hla
  exact hne ((hsame _ hle hlt).symm.trans (hsame' _ hle' hlt'))

theorem SlicedTlb.exists_contains (hk : k < D.pages.count) :
    ∃ a, (rangeOf (D.table k)).Contains a := by
  have hindex : index D.config (D.config.sliceVStart + D.pages.pageSize * k) = k := by
    rw [index, Nat.add_sub_cancel_left, Nat.shiftRight_eq_div_pow, D.pageShift]
    exact Nat.mul_div_cancel_left k (Nat.two_pow_pos _)
  have hmem : D.Mem (D.config.sliceVStart + D.pages.pageSize * k) :=
    ⟨Nat.le_add_right _ _, hindex.symm ▸ hk⟩
  have hcontains := D.contains hmem
  rw [hindex] at hcontains
  exact ⟨_, hcontains⟩

theorem SlicedTlb.rangeOf_ne (hk : k < D.pages.count) (hl : l < D.pages.count)
    (hne : D.table k ≠ D.table l) : rangeOf (D.table k) ≠ rangeOf (D.table l) := by
  intro heq
  obtain ⟨a, ha⟩ := D.exists_contains hk
  exact D.apart hk hl hne a ha (heq ▸ ha)

/-- The dynamic rules are slices, and those in flight are not among them. -/
structure Sliced (D : SlicedTlb) (v : Vectors) : Prop where
  dynamic : ∀ r ∈ v.originalRanges.tail, ∃ k < D.pages.count, r = rangeOf (D.table k)
  disjoint : DynamicDisjoint v
  nodup : v.pendingRefills.Nodup
  pending : ∀ k < D.pages.count, D.entry k ∈ v.pendingRefills →
    rangeOf (D.table k) ∉ v.originalRanges.tail
  apart : ∀ k < D.pages.count, ∀ l < D.pages.count, k ≠ l → D.entry k ∈ v.pendingRefills →
    D.entry l ∈ v.pendingRefills → D.table k ≠ D.table l

theorem sliced_initial (D : SlicedTlb) (original remapped : Range) :
    Sliced D (Vectors.initial original remapped) where
  dynamic _ hr := absurd hr not_mem_nil
  disjoint := List.Pairwise.nil
  nodup := nodup_nil
  pending _ _ hk := absurd hk not_mem_nil
  apart _ _ _ _ _ hk := absurd hk not_mem_nil

/-- The dynamic rules when some are taken away. -/
theorem Sliced.sublist (h : Sliced D v)
    (hsub : v'.originalRanges.tail.Sublist v.originalRanges.tail)
    (hpending : v'.pendingRefills = v.pendingRefills) : Sliced D v' where
  dynamic r hr := h.dynamic r (hsub.subset hr)
  disjoint := h.disjoint.sublist hsub
  nodup := hpending ▸ h.nodup
  pending k hk hmem hr := h.pending k hk (hpending ▸ hmem) (hsub.subset hr)
  apart k hk l hl hne hmem hmem' := h.apart k hk l hl hne (hpending ▸ hmem) (hpending ▸ hmem')

/-- A slice that is neither there nor in flight may be added. -/
theorem Sliced.push (h : Sliced D v) (hne : v.originalRanges ≠ []) (hk : k < D.pages.count)
    (hnew : rangeOf (D.table k) ∉ v.originalRanges.tail)
    (hapart : ∀ l < D.pages.count, D.entry l ∈ v.pendingRefills → D.table l ≠ D.table k) :
    Sliced D (v.push now (D.table k)) := by
  have htail : (v.push now (D.table k)).originalRanges.tail =
      v.originalRanges.tail ++ [rangeOf (D.table k)] := tail_append_of_ne_nil hne
  refine ⟨fun r hr => ?_, ?_, h.nodup, fun l hl hmem hr => ?_, h.apart⟩
  · rw [htail] at hr
    rcases mem_append.mp hr with hr | hr
    · exact h.dynamic r hr
    · exact ⟨k, hk, mem_singleton.mp hr⟩
  · unfold DynamicDisjoint
    rw [htail]
    refine pairwise_append.mpr ⟨h.disjoint, pairwise_singleton _ _, fun r hr r' hr' => ?_⟩
    obtain rfl := mem_singleton.mp hr'
    obtain ⟨l, hl, rfl⟩ := h.dynamic r hr
    refine D.apart hl hk (fun heq => hnew ?_)
    rw [← heq]
    exact hr
  · rw [htail] at hr
    rcases mem_append.mp hr with hr | hr
    · exact h.pending l hl hmem hr
    · exact D.rangeOf_ne hl hk (hapart l hl hmem) (mem_singleton.mp hr)

theorem tail_eraseIdx {α : Type} (l : List α) (hi : 0 < i) :
    ((l.eraseIdx i).tail).Sublist l.tail := by
  match i, l, hi with
  | i + 1, [], _ => exact List.Sublist.slnil
  | i + 1, y :: l, _ => exact eraseIdx_sublist l i

theorem Sliced.updateTLB (h : Sliced D v)
    (hordered : Ordered D.config original remapped v) (hk : k < D.pages.count)
    (hnew : rangeOf (D.table k) ∉ v.originalRanges.tail)
    (hapart : ∀ l < D.pages.count, D.entry l ∈ v.pendingRefills → D.table l ≠ D.table k)
    (hupdate : v.updateTLB D.config now (D.table k) = some v') : Sliced D v' := by
  have hne : ∀ w : Vectors, Structured D.config original remapped w → w.originalRanges ≠ [] := by
    intro w hw hnil
    have hstatic := hw.static.1
    rw [hnil] at hstatic
    cases hstatic
  rcases updateTLB_cases hordered.structured hordered.recorded hupdate with
    ⟨-, rfl⟩ | ⟨i, hold, hlt, rfl⟩
  · exact h.push (hne v hordered.structured) hk hnew hapart
  · have hsub := tail_eraseIdx v.originalRanges hold.1
    have herased : Sliced D (v.erase i) := h.sublist hsub rfl
    exact herased.push (hne _ (hordered.structured.erase hold.1 hlt).1) hk
      (fun hmem => hnew (hsub.subset hmem)) hapart

theorem notMem_of_miss (ha : D.Mem a) (hmiss : Vectors.lookup a v.originalRanges = none) :
    rangeOf (D.table (index D.config a)) ∉ v.originalRanges.tail :=
  fun hmem => lookup_eq_none.mp hmiss _ (mem_of_mem_tail hmem) (D.contains ha)

theorem Sliced.step (h : Sliced D v)
    (hordered : Ordered D.config original remapped v) (hcalled : D.Called v e)
    (hone : D.OneRefill v e) (hstep : D.step v (now, e) = some v') : Sliced D v' := by
  rcases Vectors.step_cases hstep with rfl | ⟨i, -, -, rfl⟩ | ⟨a, rfl, -, hfree, rfl⟩ |
    ⟨a, rfl, -, hfree, hupdate⟩ | ⟨a, rfl, hmem, hupdate⟩
  · exact h
  · exact ⟨h.dynamic, h.disjoint, h.nodup, h.pending, h.apart⟩
  · -- a refill is requested
    obtain ⟨ha, hmiss⟩ := hcalled
    have hentry : ∀ k, D.entry k ∈ v.pendingRefills ++ [entryAddr D.config a] →
        D.entry k ∈ v.pendingRefills ∨ k = index D.config a := by
      intro k hk
      rcases mem_append.mp hk with hk | hk
      · exact .inl hk
      · exact .inr (D.entry_inj (mem_singleton.mp hk))
    have hother : ∀ k < D.pages.count, D.entry k ∈ v.pendingRefills →
        D.table k ≠ D.table (index D.config a) := by
      intro k hk hmem
      refine hone k hk ?_ hmem
      rintro rfl
      exact hfree hmem
    refine ⟨h.dynamic, h.disjoint, ?_, fun k hk hmem => ?_, fun k hk l hl hne hmem hmem' => ?_⟩
    · exact h.nodup.append (nodup_singleton _) (by simpa using hfree)
    · rcases hentry k hmem with hmem | rfl
      · exact h.pending k hk hmem
      · exact notMem_of_miss ha hmiss
    · rcases hentry k hmem with hmem | rfl
      · rcases hentry l hmem' with hmem' | rfl
        · exact h.apart k hk l hl hne hmem hmem'
        · exact hother k hk hmem
      · rcases hentry l hmem' with hmem' | rfl
        · exact (hother l hl hmem').symm
        · exact absurd rfl hne
  · -- a refill is made at once
    obtain ⟨ha, hmiss⟩ := hcalled
    refine h.updateTLB hordered ha.2 (notMem_of_miss ha hmiss) (fun l hl hmem => ?_) hupdate
    refine hone l hl ?_ hmem
    rintro rfl
    exact hfree hmem
  · -- a refill is answered
    have ha : D.Mem a := hcalled
    have hgone : ∀ l, D.entry l ∈ v.pendingRefills.erase (entryAddr D.config a) →
        l ≠ index D.config a ∧ D.entry l ∈ v.pendingRefills := by
      intro l hl
      obtain ⟨hne, hl⟩ := h.nodup.mem_erase_iff.mp hl
      refine ⟨?_, hl⟩
      rintro rfl
      exact hne rfl
    have hpending : Sliced D
        { v with pendingRefills := v.pendingRefills.erase (entryAddr D.config a) } :=
      ⟨h.dynamic, h.disjoint, h.nodup.erase _, fun k hk hmem => h.pending k hk (hgone k hmem).2,
        fun k hk l hl hne hmem hmem' =>
          h.apart k hk l hl hne (hgone k hmem).2 (hgone l hmem').2⟩
    exact hpending.updateTLB (hordered.pending _) ha.2 (h.pending _ ha.2 hmem)
      (fun l hl hmem' => h.apart l hl _ ha.2 (hgone l hmem').1 (hgone l hmem').2 hmem) hupdate

/-- In every run in which refills are asked for one page of a slice at a time, the vectors are in
step, the static rule is in front, replaced rules are the oldest, and no address lies in two
dynamic rules. -/
theorem structured_of_reached (D : SlicedTlb) (original remapped : Range) (v : Vectors)
    (h : Reached D.step (fun v e => D.Called v e.2 ∧ D.OneRefill v e.2)
      (Vectors.initial original remapped) v) :
    Structured D.config original remapped v ∧ DynamicDisjoint v ∧
      ∀ e v', D.step v e = some v' → EvictsOldest v v' := by
  obtain ⟨hordered, hsliced⟩ := h.invariant
    (I := fun v => Ordered D.config original remapped v ∧ Sliced D v)
    ⟨⟨structured_initial D.config original remapped, recorded_initial original remapped⟩,
      sliced_initial D original remapped⟩
    (fun v e v' ⟨hordered, hsliced⟩ hok hstep =>
      ⟨hordered.step hstep, hsliced.step hordered hok.1 hok.2 hstep⟩)
  exact ⟨hordered.structured, hsliced.disjoint, fun e v' hstep => hordered.evictsOldest hstep⟩

/-- The table of `threePages`, of which the first two are one slice. -/
def threePagesTable (k : ℕ) : Slice :=
  if k < 2 then ⟨0x8000, 0x5000, 0x2000⟩ else ⟨0xa000, 0x2000, 0x1000⟩

def threePagesTlb : SlicedTlb where
  config :=
    { twoEntries 0x8000 with
      tlbSize := 4
      two_le_tlbSize := by decide }
  pages := threePages
  table := threePagesTable
  arch := .inl rfl
  pageShift := rfl
  sliceTable := by decide
  inside := by decide
  merged k hk := by
    have hfirst : threePages.Run 0 2 := fun j hj => by
      obtain rfl : j = 0 := by omega
      decide
    have hlast : threePages.Run 2 1 := fun j hj => by omega
    have hlt : k < 3 := hk
    obtain rfl | rfl | rfl : k = 0 ∨ k = 1 ∨ k = 2 := by omega
    · exact ⟨0, 2, ⟨rfl, by decide, by decide, by decide, hfirst⟩, by decide, by decide⟩
    · exact ⟨0, 2, ⟨rfl, by decide, by decide, by decide, hfirst⟩, by decide, by decide⟩
    · exact ⟨2, 1, ⟨rfl, by decide, by decide, by decide, hlast⟩, by decide, by decide⟩

theorem structured_threePages : ∃ v, Reached threePagesTlb.step
      (fun v e => threePagesTlb.Called v e.2 ∧ threePagesTlb.OneRefill v e.2)
      (Vectors.initial scratchpad.original scratchpad.remapped) v ∧
    v.originalRanges = [⟨0, 0xfff⟩, ⟨0xa000, 0xafff⟩, ⟨0x8000, 0x9fff⟩] ∧ DynamicDisjoint v := by
  have hrun : (runSchedule (guarded threePagesTlb.step
      (fun v e => threePagesTlb.Called v e.2 ∧ threePagesTlb.OneRefill v e.2))
      (Vectors.initial scratchpad.original scratchpad.remapped)
      [(1, .access 0x8004), (1, .requestRefill 0x8004 true), (2, .access 0xa000),
        (2, .requestRefill 0xa000 true), (3, .refillResponse 0xa000),
        (4, .refillResponse 0x8004)]).map Vectors.originalRanges =
      some [⟨0, 0xfff⟩, ⟨0xa000, 0xafff⟩, ⟨0x8000, 0x9fff⟩] := by
    decide +kernel
  obtain ⟨v, hreached, hranges⟩ := exists_of_runSchedule _ hrun
  exact ⟨v, hreached, hranges, (structured_of_reached _ _ _ v hreached).2.1⟩

/-- Both pages of a slice miss before the refill of the first is answered. -/
theorem two_rules_of_slice :
    (createSliceTable true threePages 0x8000 5 (fun _ => ⟨0, 0, 0⟩)).map
        (fun b => (List.range 3).map b.slicetable) = some ((List.range 3).map threePagesTable) ∧
    ∃ v, Reached threePagesTlb.step (fun v e => threePagesTlb.Called v e.2)
        (Vectors.initial scratchpad.original scratchpad.remapped) v ∧
      v.originalRanges = [⟨0, 0xfff⟩, ⟨0x8000, 0x9fff⟩, ⟨0x8000, 0x9fff⟩] ∧
      ¬ DynamicDisjoint v := by
  have hrun : (runSchedule (guarded threePagesTlb.step (fun v e => threePagesTlb.Called v e.2))
      (Vectors.initial scratchpad.original scratchpad.remapped)
      [(1, .access 0x8004), (1, .requestRefill 0x8004 true), (2, .access 0x9004),
        (2, .requestRefill 0x9004 true), (3, .refillResponse 0x8004),
        (4, .refillResponse 0x9004)]).map Vectors.originalRanges =
      some [⟨0, 0xfff⟩, ⟨0x8000, 0x9fff⟩, ⟨0x8000, 0x9fff⟩] := by
    decide +kernel
  obtain ⟨v, hreached, hranges⟩ := exists_of_runSchedule _ hrun
  refine ⟨by decide +kernel, v, hreached, hranges, fun hdisjoint => ?_⟩
  unfold DynamicDisjoint at hdisjoint
  rw [hranges] at hdisjoint
  have hapart : Apart ⟨0x8000, 0x9fff⟩ ⟨0x8000, 0x9fff⟩ := by
    simpa using hdisjoint
  exact hapart 0x8000 ⟨by decide, by decide⟩ ⟨by decide, by decide⟩

end SmcSim.Tlb
