import Mathlib.Algebra.Order.Ring.Nat

/-!
# The pages of a task

`addData` and `updatePages` of `pim_task.cc`. The data sets are kept in the order of their
addresses, and one pass over them merges the ranges of pages that touch. The pass takes the end of
the data set it has seen last for the end of the merged range.
-/

namespace SmcSim.TaskPages
open List

/-- The values of an `ulong_t`. -/
def word : ℕ := 2 ^ 32

structure PIMData where
  vAddr : ℕ
  size : ℕ
  deriving DecidableEq, Repr

structure PIMPage where
  vPnStart : ℕ
  vPnEnd : ℕ
  count : ℕ
  deriving DecidableEq, Repr

def addData (d : PIMData) : List PIMData → List PIMData
  | [] => [d]
  | x :: data => if x.vAddr > d.vAddr then d :: x :: data else x :: addData d data

def addAll (calls : List PIMData) : List PIMData := calls.foldl (fun data d => addData d data) []

namespace PIMData

def startPage (shift : ℕ) (d : PIMData) : ℕ := d.vAddr / 2 ^ shift

/-- The page of `v_addr + size-1`. -/
def endPage (shift : ℕ) (d : PIMData) : ℕ := (d.vAddr + d.size + (word - 1)) % word / 2 ^ shift

/-- There is a byte, and the address does not wrap. -/
def Valid (d : PIMData) : Prop := 1 ≤ d.size ∧ d.vAddr + d.size ≤ word

instance (d : PIMData) : Decidable d.Valid := inferInstanceAs (Decidable (_ ∧ _))

end PIMData

def rangeOf (first last : ℕ) : PIMPage := ⟨first, last, (last + word - first + 1) % word⟩

/-- The loop, with `page`. -/
def merge (shift : ℕ) : PIMPage → List PIMData → List PIMPage
  | page, [] => [page]
  | page, d :: data =>
      if page.vPnEnd ≥ (d.startPage shift + (word - 1)) % word then
        merge shift (rangeOf page.vPnStart (d.endPage shift)) data
      else page :: merge shift (rangeOf (d.startPage shift) (d.endPage shift)) data

def updatePages (shift : ℕ) : List PIMData → List PIMPage
  | [] => []
  | d :: data => merge shift (rangeOf (d.startPage shift) (d.endPage shift)) data

/-! ### What they are for -/

def PIMData.Touches (shift : ℕ) (d : PIMData) (p : ℕ) : Prop :=
  d.startPage shift ≤ p ∧ p ≤ d.endPage shift

instance (shift : ℕ) (d : PIMData) (p : ℕ) : Decidable (d.Touches shift p) :=
  inferInstanceAs (Decidable (_ ∧ _))

/-- The ranges are in order, with a page between any two of them, and have the given pages. -/
structure Ranges (pages : List PIMPage) (P : ℕ → Prop) : Prop where
  apart : pages.Pairwise (fun a b => a.vPnEnd + 1 < b.vPnStart)
  union : ∀ p, (∃ r ∈ pages, r.vPnStart ≤ p ∧ p ≤ r.vPnEnd) ↔ P p
  counts : ∀ r ∈ pages, r.count = r.vPnEnd + 1 - r.vPnStart

/-- What the pass relies on, for the data sets behind one that ends on page `last`, when none so far
ends behind page `most`: none of them starts on page 0, and the last one before a gap or the end of
the list ends on the last page. -/
def EndsLast (shift : ℕ) : ℕ → ℕ → List PIMData → Prop
  | most, last, [] => most ≤ last
  | most, last, d :: data => d.startPage shift ≠ 0 ∧
      if d.startPage shift ≤ last + 1 then
        EndsLast shift (max most (d.endPage shift)) (d.endPage shift) data
      else most ≤ last ∧ EndsLast shift (d.endPage shift) (d.endPage shift) data

def Mergeable (shift : ℕ) : List PIMData → Prop
  | [] => True
  | d :: data => EndsLast shift (d.endPage shift) (d.endPage shift) data

instance (shift : ℕ) :
    (most last : ℕ) → (data : List PIMData) → Decidable (EndsLast shift most last data)
  | most, last, [] => inferInstanceAs (Decidable (most ≤ last))
  | most, _, d :: data =>
      have := instDecidableEndsLast shift (max most (d.endPage shift)) (d.endPage shift) data
      have := instDecidableEndsLast shift (d.endPage shift) (d.endPage shift) data
      inferInstanceAs (Decidable (_ ∧ ite _ _ _))

instance (shift : ℕ) : (data : List PIMData) → Decidable (Mergeable shift data)
  | [] => .isTrue trivial
  | d :: data =>
      inferInstanceAs (Decidable (EndsLast shift (d.endPage shift) (d.endPage shift) data))

/-! ### The order of the data sets -/

theorem addData_perm (d : PIMData) (data : List PIMData) : (addData d data).Perm (d :: data) := by
  induction data with
  | nil => exact .refl _
  | cons x data ih =>
    rw [addData]
    split
    · exact .refl _
    · exact (ih.cons x).trans (.swap d x data)

theorem addData_sorted {d : PIMData} {data : List PIMData}
    (h : data.Pairwise (fun a b => a.vAddr ≤ b.vAddr)) :
    (addData d data).Pairwise (fun a b => a.vAddr ≤ b.vAddr) := by
  induction data with
  | nil => exact pairwise_singleton _ _
  | cons x data ih =>
    obtain ⟨hx, hdata⟩ := pairwise_cons.mp h
    rw [addData]
    split
    · next hlt =>
      refine pairwise_cons.mpr ⟨fun y hy => ?_, h⟩
      rcases mem_cons.mp hy with rfl | hy
      · exact hlt.le
      · exact hlt.le.trans (hx y hy)
    · next hle =>
      refine pairwise_cons.mpr ⟨fun y hy => ?_, ih hdata⟩
      rcases mem_cons.mp ((addData_perm d data).mem_iff.mp hy) with rfl | hy
      · exact Nat.le_of_not_lt hle
      · exact hx y hy

theorem addAll_perm_sorted (calls : List PIMData) :
    (addAll calls).Perm calls ∧ (addAll calls).Pairwise (fun a b => a.vAddr ≤ b.vAddr) := by
  suffices h : ∀ data : List PIMData, data.Pairwise (fun a b => a.vAddr ≤ b.vAddr) →
      (calls.foldl (fun data d => addData d data) data).Perm (data ++ calls) ∧
      (calls.foldl (fun data d => addData d data) data).Pairwise (fun a b => a.vAddr ≤ b.vAddr) from
    h [] .nil
  induction calls with
  | nil => exact fun data h => ⟨by rw [append_nil]; exact .refl _, h⟩
  | cons d calls ih =>
    intro data h
    obtain ⟨hperm, hsorted⟩ := ih (addData d data) (addData_sorted h)
    refine ⟨hperm.trans ?_, hsorted⟩
    exact ((addData_perm d data).append_right calls).trans perm_middle.symm

/-! ### The pass -/

section Pass

variable {shift first last most : ℕ} {d : PIMData} {data : List PIMData} {P : ℕ → Prop}

/-- A range of pages, none of which is the last `ulong_t`. -/
def PIMData.Fits (shift : ℕ) (d : PIMData) : Prop :=
  d.startPage shift ≤ d.endPage shift ∧ d.endPage shift + 1 < word

theorem PIMData.Valid.endPage_eq (h : d.Valid) :
    d.endPage shift = (d.vAddr + d.size - 1) / 2 ^ shift := by
  obtain ⟨hsize, hend⟩ := h
  have hlast : (d.vAddr + d.size + (word - 1)) % word = d.vAddr + d.size - 1 := by
    unfold word at *
    omega
  rw [endPage, hlast]

theorem PIMData.Valid.fits (h : d.Valid) (hshift : 0 < shift) : d.Fits shift := by
  have htwo : 2 ≤ 2 ^ shift := Nat.le_self_pow hshift.ne' 2
  have hhalf : (d.vAddr + d.size - 1) / 2 ^ shift ≤ (d.vAddr + d.size - 1) / 2 :=
    Nat.div_le_div_left htwo Nat.two_pos
  rw [Fits, startPage, h.endPage_eq]
  obtain ⟨hsize, hend⟩ := h
  refine ⟨Nat.div_le_div_right (by omega), ?_⟩
  unfold word at *
  omega

/-- The test, with a page 0 before which there is none. -/
theorem test_iff (hd : d.Fits shift) (hlast : last + 1 < word) :
    (rangeOf first last).vPnEnd ≥ (d.startPage shift + (word - 1)) % word ↔
      d.startPage shift ≠ 0 ∧ d.startPage shift ≤ last + 1 := by
  obtain ⟨hle, hend⟩ := hd
  have hstart : d.startPage shift < word := by omega
  change last ≥ _ ↔ _
  unfold word at *
  omega

theorem merge_of_near (hd : d.Fits shift) (hlast : last + 1 < word) (hzero : d.startPage shift ≠ 0)
    (hnear : d.startPage shift ≤ last + 1) :
    merge shift (rangeOf first last) (d :: data) =
      merge shift (rangeOf first (d.endPage shift)) data :=
  if_pos ((test_iff hd hlast).mpr ⟨hzero, hnear⟩)

theorem merge_of_gap (hd : d.Fits shift) (hlast : last + 1 < word)
    (hgap : d.startPage shift ≠ 0 → last + 1 < d.startPage shift) :
    merge shift (rangeOf first last) (d :: data) =
      rangeOf first last :: merge shift (rangeOf (d.startPage shift) (d.endPage shift)) data :=
  if_neg (fun h => by
    obtain ⟨hzero, hnear⟩ := (test_iff hd hlast).mp h
    exact absurd (hgap hzero) (not_lt.mpr hnear))

theorem count_rangeOf (h : first ≤ last) (hlast : last + 1 < word) :
    (rangeOf first last).count = last + 1 - first := by
  unfold rangeOf word at *
  dsimp only
  omega

theorem start_le_of_mem_merge (hfirst : ∀ d ∈ data, first ≤ d.startPage shift)
    (hsorted : data.Pairwise (fun a b => a.startPage shift ≤ b.startPage shift)) :
    ∀ r ∈ merge shift (rangeOf first last) data, first ≤ r.vPnStart := by
  induction data generalizing first last with
  | nil =>
    intro r hr
    rw [mem_singleton.mp hr]
    exact le_refl first
  | cons d data ih =>
    obtain ⟨hd, hdata⟩ := pairwise_cons.mp hsorted
    intro r hr
    rw [merge] at hr
    split at hr
    · exact ih (fun x hx => hfirst x (mem_cons_of_mem _ hx)) hdata r hr
    · rcases mem_cons.mp hr with rfl | hr
      · exact le_refl first
      · exact (hfirst d mem_cons_self).trans (ih hd hdata r hr)

theorem exists_start_merge (first last : ℕ) (data : List PIMData) :
    ∃ r ∈ merge shift (rangeOf first last) data, r.vPnStart = first := by
  induction data generalizing last with
  | nil => exact ⟨_, mem_singleton.mpr rfl, rfl⟩
  | cons d data ih =>
    rw [merge]
    split
    · exact ih _
    · exact ⟨_, mem_cons_self, rfl⟩

/-- A range before a gap, with what follows it. -/
theorem ranges_cons_iff {pages : List PIMPage} {Q : ℕ → Prop} {start : ℕ} (hle : first ≤ last)
    (hmost : last ≤ most) (hlast : last + 1 < word) (hgap : last + 1 < start)
    (hpages : ∀ r ∈ pages, start ≤ r.vPnStart) (hQ : ∀ p, Q p → start ≤ p)
    (hP : ∀ p, P p ↔ (first ≤ p ∧ p ≤ most) ∨ Q p) :
    Ranges (rangeOf first last :: pages) P ↔ most ≤ last ∧ Ranges pages Q := by
  have hunion_iff : ∀ p, (∃ r ∈ rangeOf first last :: pages, r.vPnStart ≤ p ∧ p ≤ r.vPnEnd) ↔
      (first ≤ p ∧ p ≤ last) ∨ ∃ r ∈ pages, r.vPnStart ≤ p ∧ p ≤ r.vPnEnd := fun p => by
    simp only [mem_cons, exists_eq_or_imp, rangeOf]
  have hbehind : ∀ p, (∃ r ∈ pages, r.vPnStart ≤ p ∧ p ≤ r.vPnEnd) → start ≤ p := by
    rintro p ⟨r, hr, hp, -⟩
    exact (hpages r hr).trans hp
  constructor
  · rintro ⟨hapart, hunion, hcounts⟩
    -- the page behind the range is in no other one
    have hend : most ≤ last := by
      by_contra hlt
      rcases (hunion_iff _).mp ((hunion (last + 1)).mpr ((hP _).mpr (.inl ⟨by omega, by omega⟩)))
        with hp | hp
      · omega
      · exact absurd (hbehind _ hp) (by omega)
    refine ⟨hend, (pairwise_cons.mp hapart).2, fun p => ⟨fun hp => ?_, fun hp => ?_⟩,
      fun r hr => hcounts r (mem_cons_of_mem _ hr)⟩
    · have hge := hbehind p hp
      rcases (hP p).mp ((hunion p).mp ((hunion_iff p).mpr (.inr hp))) with hold | hq
      · omega
      · exact hq
    · have hge := hQ p hp
      rcases (hunion_iff p).mp ((hunion p).mpr ((hP p).mpr (.inr hp))) with hold | hr
      · omega
      · exact hr
  · rintro ⟨hend, hapart, hunion, hcounts⟩
    obtain rfl : most = last := le_antisymm hend hmost
    refine ⟨pairwise_cons.mpr ⟨fun r hr => hgap.trans_le (hpages r hr), hapart⟩, fun p => ?_, ?_⟩
    · rw [hunion_iff, hunion, hP]
    · intro r hr
      rcases mem_cons.mp hr with rfl | hr
      · exact count_rangeOf hle hlast
      · exact hcounts r hr

/-- The pass from a range on, when the data sets so far have touched the pages up to `most`. -/
theorem ranges_merge_iff (hfits : ∀ d ∈ data, d.Fits shift)
    (hsorted : data.Pairwise (fun a b => a.startPage shift ≤ b.startPage shift))
    (hfirst : ∀ d ∈ data, first ≤ d.startPage shift) (hle : first ≤ last) (hmost : last ≤ most)
    (hlast : last + 1 < word)
    (hP : ∀ p, P p ↔ (first ≤ p ∧ p ≤ most) ∨ ∃ d ∈ data, d.Touches shift p) :
    Ranges (merge shift (rangeOf first last) data) P ↔ EndsLast shift most last data := by
  induction data generalizing first last most P with
  | nil =>
    constructor
    · rintro ⟨-, hunion, -⟩
      obtain ⟨r, hr, hp⟩ := (hunion most).mpr ((hP most).mpr (.inl ⟨hle.trans hmost, le_rfl⟩))
      rw [mem_singleton.mp hr] at hp
      exact hp.2
    · intro hend
      obtain rfl : most = last := le_antisymm hend hmost
      refine ⟨pairwise_singleton _ _, fun p => ?_, fun r hr => ?_⟩
      · rw [hP]
        simp [merge, rangeOf]
      · rw [mem_singleton.mp hr]
        exact count_rangeOf hle hlast
  | cons d data ih =>
    obtain ⟨hd, hdata⟩ := pairwise_cons.mp hsorted
    have hdfits := hfits d mem_cons_self
    have ⟨hdle, hdlast⟩ := hdfits
    have hfits' : ∀ x ∈ data, x.Fits shift := fun x hx => hfits x (mem_cons_of_mem _ hx)
    have hstart := hfirst d mem_cons_self
    have hP' : ∀ p, P p ↔ (first ≤ p ∧ p ≤ most) ∨ (d.startPage shift ≤ p ∧ p ≤ d.endPage shift) ∨
        ∃ x ∈ data, x.Touches shift p := fun p => by
      rw [hP]
      simp only [mem_cons, exists_eq_or_imp, PIMData.Touches]
    rw [EndsLast]
    by_cases hzero : d.startPage shift = 0
    · -- there is a second range that starts on page 0
      rw [merge_of_gap hdfits hlast (fun h => absurd hzero h)]
      refine ⟨fun h => ?_, fun h => absurd hzero h.1⟩
      obtain ⟨r, hr, hrstart⟩ := exists_start_merge (d.startPage shift) (d.endPage shift) data
      have hapart := (pairwise_cons.mp h.apart).1 r hr
      omega
    · rw [and_iff_right hzero]
      by_cases hnear : d.startPage shift ≤ last + 1
      · rw [merge_of_near hdfits hlast hzero hnear, if_pos hnear]
        refine ih hfits' hdata (fun x hx => hfirst x (mem_cons_of_mem _ hx)) (hstart.trans hdle)
          (le_max_right _ _) hdlast (fun p => ?_)
        rw [hP', ← or_assoc]
        refine or_congr_left ?_
        omega
      · have hgap := Nat.lt_of_not_le hnear
        rw [merge_of_gap hdfits hlast (fun _ => hgap), if_neg hnear,
          ← ih hfits' hdata hd hdle le_rfl hdlast (fun _ => .rfl)]
        refine ranges_cons_iff hle hmost hlast hgap (start_le_of_mem_merge hd hdata)
          (fun p hp => ?_) hP'
        rcases hp with hp | ⟨x, hx, hp⟩
        · exact hp.1
        · exact (hd x hx).trans hp.1

end Pass

/-- The ranges are those of the pages that some data set touches if and only if only the first data
set starts on page 0 and the last one before each gap ends last. -/
theorem ranges_updatePages_iff {shift : ℕ} (hshift : 0 < shift) (calls : List PIMData)
    (hvalid : ∀ d ∈ calls, d.Valid) :
    Ranges (updatePages shift (addAll calls)) (fun p => ∃ d ∈ calls, d.Touches shift p) ↔
      Mergeable shift (addAll calls) := by
  obtain ⟨hperm, hsorted⟩ := addAll_perm_sorted calls
  have htouched : ∀ p, (∃ d ∈ calls, d.Touches shift p) ↔ ∃ d ∈ addAll calls, d.Touches shift p :=
    fun p => by simp only [hperm.mem_iff]
  have hfits : ∀ d ∈ addAll calls, d.Fits shift := fun d hd =>
    (hvalid d (hperm.mem_iff.mp hd)).fits hshift
  have hstarts : (addAll calls).Pairwise (fun a b => a.startPage shift ≤ b.startPage shift) :=
    hsorted.imp (fun hle => Nat.div_le_div_right hle)
  generalize addAll calls = data at *
  cases data with
  | nil =>
    refine iff_of_true ⟨.nil, fun p => ?_, forall_mem_nil _⟩ trivial
    rw [htouched]
    simp [updatePages]
  | cons d data =>
    obtain ⟨hd, hdata⟩ := pairwise_cons.mp hstarts
    obtain ⟨hle, hlast⟩ := hfits d mem_cons_self
    refine ranges_merge_iff (fun x hx => hfits x (mem_cons_of_mem _ hx)) hdata hd hle le_rfl hlast
      (fun p => ?_)
    rw [htouched]
    simp only [mem_cons, exists_eq_or_imp, PIMData.Touches]

/-- Pages 1 to 3 and pages 3 to 4, then page 6. -/
theorem ranges_updatePages_threeSets :
    Ranges (updatePages 12 (addAll [⟨0x6000, 8⟩, ⟨0x1000, 0x2001⟩, ⟨0x3100, 0x1000⟩]))
      (fun p => ∃ d ∈ [⟨0x6000, 8⟩, ⟨0x1000, 0x2001⟩, ⟨0x3100, 0x1000⟩], PIMData.Touches 12 d p) :=
  (ranges_updatePages_iff (by decide) _ (by decide)).mpr (by decide)

/-- A data set inside another one cuts its pages off, and two data sets of page 0 get two ranges. -/
theorem updatePages_nested_and_pageZero :
    updatePages 12 (addAll [⟨0x1000, 0x3000⟩, ⟨0x2000, 16⟩]) = [⟨1, 2, 2⟩] ∧
    PIMData.Touches 12 ⟨0x1000, 0x3000⟩ 3 ∧
    ¬ Ranges (updatePages 12 (addAll [⟨0x1000, 0x3000⟩, ⟨0x2000, 16⟩]))
      (fun p => ∃ d ∈ [⟨0x1000, 0x3000⟩, ⟨0x2000, 16⟩], PIMData.Touches 12 d p) ∧
    updatePages 12 (addAll [⟨16, 8⟩, ⟨64, 8⟩]) = [⟨0, 0, 1⟩, ⟨0, 0, 1⟩] ∧
    ¬ Ranges (updatePages 12 (addAll [⟨16, 8⟩, ⟨64, 8⟩]))
      (fun p => ∃ d ∈ [⟨16, 8⟩, ⟨64, 8⟩], PIMData.Touches 12 d p) := by
  refine ⟨by decide, by decide, fun h => ?_, by decide, fun h => ?_⟩
  · obtain ⟨r, hr, hp⟩ := (h.union 3).mpr ⟨⟨0x1000, 0x3000⟩, by decide, by decide⟩
    obtain rfl : r = ⟨1, 2, 2⟩ := mem_singleton.mp hr
    exact absurd hp.2 (by decide)
  · exact absurd h.apart (by decide)

end SmcSim.TaskPages
