import SmcSim.SliceLayouts
import SmcSim.Tlb

/-!
# The slices that the TLB knows

Every rule of the TLB is a slice of one layout: the static rule, and the slices that
refills have read from the table. An address that no rule contains is contained after its
refill, and stays so until its rule is the one replaced.
-/

namespace SmcSim.Tlb
open SliceTable TranslationRules List

structure Dtlb where
  layout : Layout
  config : Config
  table : ℕ → Slice
  static : Rule
  fits_static : layout.Fits static
  entry : ∀ a, layout.Mapped a → ¬ static.original.Contains a →
    config.sliceVStart ≤ a ∧ (ruleOf 0 (table (index config a))).original.Contains a ∧
      layout.Fits (ruleOf 0 (table (index config a)))

structure Consistent (D : Dtlb) (t : State) : Prop where
  static : t.rules.head? = some D.static
  fits : ∀ r ∈ t.rules, D.layout.Fits r

/-- The entry that a refill of the address reads is a slice of the layout, or about other
addresses. -/
def EntryFits (D : Dtlb) (a : ℕ) : Prop := D.layout.Fits (ruleOf 0 (D.table (index D.config a)))

/-- Adding a rule does not drop the last one that contains the address. -/
def Survives (c : Config) (t : State) (a : ℕ) : Prop :=
  c.tlbSize ≤ t.rules.length →
    ∀ r, t.rules[leastRecentlyUsed t.rules]? = some r → ¬ r.original.Contains a

section Lemmas

variable {D : Dtlb} {t t' : State} {a now : ℕ} {x : Slice}

theorem consistent_initial (D : Dtlb) : Consistent D (initial D.static) where
  static := rfl
  fits r hr := by
    rw [initial, mem_singleton] at hr
    exact hr ▸ D.fits_static

/-- The rules that remain when a new one needs their room. -/
theorem rules_updateTLB (c : Config) (now : ℕ) (x : Slice) (t : State) :
    (updateTLB c now x t).rules = (if c.tlbSize ≤ t.rules.length then
      t.rules.eraseIdx (leastRecentlyUsed t.rules) else t.rules) ++ [ruleOf now x] := rfl

theorem Consistent.updateTLB (h : Consistent D t) (hx : D.layout.Fits (ruleOf 0 x)) :
    Consistent D (updateTLB D.config now x t) where
  static := by
    obtain ⟨rs, hrs⟩ : ∃ rs, t.rules = D.static :: rs := by
      cases hrules : t.rules with
      | nil =>
        have hhead := h.static
        rw [hrules] at hhead
        cases hhead
      | cons r rs =>
        have hhead := h.static
        rw [hrules] at hhead
        obtain rfl : r = D.static := Option.some.inj hhead
        exact ⟨rs, rfl⟩
    -- The first rule is never the one replaced.
    obtain ⟨k, hk⟩ : ∃ k, leastRecentlyUsed t.rules = k + 1 :=
      ⟨leastRecentlyUsed t.rules - 1, by have := one_le_leastRecentlyUsed t.rules; omega⟩
    rw [rules_updateTLB, hk, hrs]
    split
    · rfl
    · rfl
  fits r hr := by
    rw [rules_updateTLB] at hr
    rcases mem_append.mp hr with hold | hnew
    · exact h.fits r (mem_eraseIdx_of_updateTLB r hold)
    · rw [mem_singleton] at hnew
      exact hx.of_same (hnew ▸ rfl) (hnew ▸ rfl)

theorem covered_updateTLB (h : Covered t.rules a) (hsurvives : Survives D.config t a) :
    Covered (updateTLB D.config now x t).rules a := by
  obtain ⟨r, hr, hcontains⟩ := h
  refine ⟨r, ?_, hcontains⟩
  rw [rules_updateTLB]
  apply mem_append_left
  split
  · next hfull =>
    obtain ⟨i, hi⟩ := mem_iff_getElem?.mp hr
    have hne : i ≠ leastRecentlyUsed t.rules := by
      rintro rfl
      exact hsurvives hfull r hi hcontains
    rw [mem_eraseIdx_iff_getElem?]
    exact ⟨i, hne, hi⟩
  · exact hr

theorem head?_recordUse (rules : List Rule) : (recordUse now a rules).head? = rules.head? := by
  cases rules with
  | nil => rfl
  | cons r rs =>
    rw [recordUse]
    split
    · rfl
    · rfl

theorem fits_recordUse {rules : List Rule} (h : ∀ r ∈ rules, D.layout.Fits r) :
    ∀ r ∈ recordUse now a rules, D.layout.Fits r := by
  cases rules with
  | nil => exact h
  | cons r rs =>
    rw [recordUse]
    split
    · exact h
    · intro r' hr'
      rcases mem_cons.mp hr' with rfl | hmem
      · exact h r' mem_cons_self
      · exact fits_touch (fun r₁ hr₁ => h r₁ (mem_cons_of_mem _ hr₁)) r' hmem

theorem covered_recordUse {b : ℕ} {rules : List Rule} (h : Covered rules a) :
    Covered (recordUse now b rules) a := by
  cases rules with
  | nil => exact h
  | cons r rs =>
    rw [Tlb.recordUse]
    split
    · exact h
    · obtain ⟨r', hr', hcontains⟩ := h
      rcases mem_cons.mp hr' with rfl | hmem
      · exact ⟨r', mem_cons_self, hcontains⟩
      · obtain ⟨r₁, hr₁, hcontains₁⟩ := Covered.touch now b ⟨r', hmem, hcontains⟩
        exact ⟨r₁, mem_cons_of_mem _ hr₁, hcontains₁⟩

theorem Consistent.entry (h : Consistent D t) (ha : D.layout.Mapped a)
    (hmiss : ¬ Covered t.rules a) :
    D.config.sliceVStart ≤ a ∧ (ruleOf 0 (D.table (index D.config a))).original.Contains a ∧
      EntryFits D a := by
  refine D.entry a ha (fun hcontains => hmiss ⟨D.static, ?_, hcontains⟩)
  exact mem_of_mem_head? (h.static ▸ rfl)

/-- A refill that does not meet a pending one succeeds, and the address is contained. -/
theorem Consistent.refill (h : Consistent D t) (ha : D.layout.Mapped a)
    (hmiss : ¬ Covered t.rules a) (hpending : entryAddr D.config a ∉ t.pendingRefills) (now : ℕ) :
    ∃ t', refillTLBFunctional D.config D.table now a t = some t' ∧ Consistent D t' ∧
      Covered t'.rules a ∧ t'.pendingRefills = t.pendingRefills := by
  obtain ⟨hge, hcontains, hfits⟩ := h.entry ha hmiss
  refine ⟨Tlb.updateTLB D.config now (D.table (index D.config a)) t, ?_, h.updateTLB hfits, ?_, rfl⟩
  · rw [refillTLBFunctional, if_pos hge, if_neg hpending]
  · refine ⟨ruleOf now (D.table (index D.config a)), ?_, hcontains⟩
    rw [rules_updateTLB]
    exact mem_append_right _ (mem_singleton.mpr rfl)

/-! What an event of the processor's side does to the TLB. -/

def Event.adds : Event → Option ℕ
  | .refill a | .refillResponse a => some a
  | .access _ | .requestRefill _ _ => none

theorem Consistent.step {e : Event} (h : Consistent D t)
    (hfits : ∀ b, e.adds = some b → EntryFits D b)
    (hstep : step D.config D.table t (now, e) = some t') :
    Consistent D t' ∧
      ∀ a, Covered t.rules a → (e.adds ≠ none → Survives D.config t a) → Covered t'.rules a := by
  obtain rfl | ⟨b, rfl, rfl⟩ | ⟨b, rfl, rfl⟩ | ⟨b, rfl, rfl⟩ | ⟨b, rfl, rfl⟩ := step_cases hstep
  · exact ⟨h, fun a ha _ => ha⟩
  · exact ⟨⟨(head?_recordUse _).trans h.static, fits_recordUse h.fits⟩,
      fun a ha _ => covered_recordUse ha⟩
  · exact ⟨⟨h.static, h.fits⟩, fun a ha _ => ha⟩
  · exact ⟨h.updateTLB (hfits b rfl),
      fun a ha hs => covered_updateTLB ha (hs (by simp [Event.adds]))⟩
  · have h' : Consistent D
        { t with pendingRefills := t.pendingRefills.erase (entryAddr D.config b) } :=
      ⟨h.static, h.fits⟩
    exact ⟨h'.updateTLB (hfits b rfl), fun a ha hs =>
      covered_updateTLB (t := { t with
        pendingRefills := t.pendingRefills.erase (entryAddr D.config b) }) ha
        (hs (by simp [Event.adds]))⟩

theorem pendingRefills_of_step {e : Event} (c : Config) (table : ℕ → Slice)
    (hstep : step c table t (now, e) = some t') {y : ℕ} (hy : y ∈ t'.pendingRefills) :
    y ∈ t.pendingRefills ∨ ∃ b, e = .requestRefill b true ∧ y = entryAddr c b := by
  obtain rfl | ⟨b, rfl, rfl⟩ | ⟨b, rfl, rfl⟩ | ⟨b, rfl, rfl⟩ | ⟨b, rfl, rfl⟩ := step_cases hstep
  · exact .inl hy
  · exact .inl hy
  · rcases mem_append.mp hy with hold | hnew
    · exact .inl hold
    · exact .inr ⟨b, rfl, mem_singleton.mp hnew⟩
  · exact .inl hy
  · exact .inl (mem_of_mem_erase hy)

end Lemmas

/-! ### The layout of the driver's table -/

section DriverTable

variable (p : Pages) (vaddrStart : ℕ) (table : ℕ → Slice) (haligned : p.pageSize ∣ vaddrStart)
  (hend : vaddrStart + p.pageSize * p.count ≤ 0x10000000000000000)
  (hmerged : ∀ k < p.count, Merged p vaddrStart p.count table k)

include haligned hend hmerged in
private theorem inside_slice {a j : ℕ} (ha : (pagesRegion p vaddrStart).Mem a)
    (hj : j ≤ (ruleOf 0 (table ((a - vaddrStart) >>> p.pageShift))).original.stop - a) :
    (pagesRegion p vaddrStart).Mem (a + j) ∧
      table ((a + j - vaddrStart) >>> p.pageShift) = table ((a - vaddrStart) >>> p.pageShift) ∧
      (pagesRegion p vaddrStart).physical (a + j) = (pagesRegion p vaddrStart).physical a + j := by
  obtain ⟨i, c, hcover, hcount, hsame⟩ := hmerged _ (index_lt ha)
  have hstart : vaddrStart ≤ a := ha.1
  have hd := describes_of_merged haligned hend hmerged
  have hin := hd.contains a ha
  have hin' : (ruleOf 0 (table ((a - vaddrStart) >>> p.pageShift))).original.Contains (a + j) := by
    have hle := hin.1
    have hle' := hin.2
    simp only [pagesRegion] at hle hle'
    exact ⟨le_trans hle (Nat.le_add_right a j), by omega⟩
  obtain ⟨hle, hlt⟩ := (contains_slice hcover hend (le_trans hstart (Nat.le_add_right a j))).mp hin'
  have hmem : (pagesRegion p vaddrStart).Mem (a + j) := by
    refine ⟨le_trans hstart (Nat.le_add_right a j), ?_⟩
    have hindex : (a + j - vaddrStart) >>> p.pageShift < p.count := by
      exact lt_of_lt_of_le hlt hcount
    rw [Nat.shiftRight_eq_div_pow, Nat.div_lt_iff_lt_mul (Nat.two_pow_pos _)] at hindex
    have hoffset : a + j - vaddrStart < p.count * p.pageSize := hindex
    change a + j < vaddrStart + p.count * p.pageSize
    omega
  refine ⟨hmem, hsame _ hle hlt, ?_⟩
  rw [← hd.agrees _ (index_lt ha) a ha hin, ← hd.agrees _ (index_lt ha) (a + j) hmem hin']
  have hfirst := hin.1
  simp only [Rule.translate]
  omega

def pagesLayout : Layout where
  Mapped := (pagesRegion p vaddrStart).Mem
  rest a := (ruleOf 0 (table ((a - vaddrStart) >>> p.pageShift))).original.stop - a
  physical := (pagesRegion p vaddrStart).physical
  inside a j ha hj := by
    obtain ⟨hmem, hentry, hphysical⟩ :=
      inside_slice p vaddrStart table haligned hend hmerged ha hj
    refine ⟨hmem, ?_, hphysical⟩
    rw [hentry]
    exact (Nat.sub_sub _ _ _).symm

def pagesDtlb (c : Config) (static : Rule) (hreg : Registered c (pagesRegion p vaddrStart))
    (hstatic : ∀ a, (pagesRegion p vaddrStart).Mem a → ¬ static.original.Contains a) : Dtlb where
  layout := pagesLayout p vaddrStart table haligned hend hmerged
  config := c
  table := table
  static := static
  fits_static a ha hcontains := absurd hcontains (hstatic a ha)
  entry a ha _ := by
    have hd := describes_of_merged haligned hend hmerged
    have hindex : index c a = (a - vaddrStart) >>> p.pageShift := by
      rw [index, hreg.vstart, hreg.pageShift]
      rfl
    rw [hindex]
    refine ⟨hreg.vstart ▸ ha.1, hd.contains a ha, fun b hb hcontains => ?_⟩
    obtain ⟨i, n, hcover, hcount, hsame⟩ := hmerged _ (index_lt ha)
    obtain ⟨hle, hlt⟩ := (contains_slice hcover hend hb.1).mp hcontains
    have hentry : table ((b - vaddrStart) >>> p.pageShift) =
        table ((a - vaddrStart) >>> p.pageShift) := hsame _ hle hlt
    refine ⟨?_, hd.agrees _ (index_lt ha) b hb hcontains⟩
    have hstop := hcontains.2
    simp only [pagesLayout, hentry]
    omega

end DriverTable

/-- The table that the driver writes without `PIM_MERGE_SLICES`. -/
def pageSlices (p : Pages) (vaddrStart : ℕ) (k : ℕ) : Slice :=
  ⟨vaddrStart + p.pageSize * k, p.physicalAddr k, p.pageSize⟩

theorem merged_pageSlices {p : Pages} {vaddrStart k : ℕ} (hk : k < p.count) :
    Merged p vaddrStart p.count (pageSlices p vaddrStart) k := by
  refine ⟨k, 1, ⟨?_, le_refl k, Nat.lt_succ_self k, hk, fun j hj => ?_⟩, hk,
    fun k' hle hlt => ?_⟩
  · rw [pageSlices, mul_one]
  · omega
  · rw [le_antisymm (Nat.le_of_lt_succ hlt) hle]

/-- Four pages, no two of which are neighbours in physical memory. -/
def fourPages : Pages where
  pageShift := 12
  count := 4
  physicalAddr k := 0x10000 + 0x2000 * k

def fourPagesDtlb : Dtlb :=
  pagesDtlb fourPages 0x8000 (pageSlices fourPages 0x8000) (by decide) (by decide)
    (fun _ hk => merged_pageSlices hk) (twoEntries 0x8000) scratchpad
    ⟨rfl, rfl, by decide⟩
    (fun _ ha hcontains => absurd (le_trans ha.1 hcontains.2) (by decide))

end SmcSim.Tlb
