import Mathlib.Algebra.BigOperators.Group.List.Basic
import Mathlib.Algebra.GroupWithZero.Nat

/-!
# The slice table of the driver

`pim_create_slice_table` of `pim.c`: the pages of a region are merged into slices, and the
entry of every page holds the slice that the page lies in. The list of physical addresses
is an array in the kernel's memory, so `physicalAddr` also says what lies behind it: the
merge loop compares a page with the next word and has no bound of its own.
-/

namespace SmcSim.SliceTable
open List Option

/-! ### Construction -/

structure Slice where
  vaddr : ℕ
  paddr : ℕ
  size : ℕ
  deriving DecidableEq, Repr

/-- `pages`, and the words behind `pages.physical_addr`. -/
structure Pages where
  pageShift : ℕ
  count : ℕ
  physicalAddr : ℕ → ℕ

namespace Pages

def pageSize (p : Pages) : ℕ := 2 ^ p.pageShift

/-- The condition of the merge loop, for the words `k` and `k + 1`. -/
def Contiguous (p : Pages) (k : ℕ) : Prop := p.physicalAddr k + p.pageSize = p.physicalAddr (k + 1)

instance (p : Pages) (k : ℕ) : Decidable (p.Contiguous k) := inferInstanceAs (Decidable (_ = _))

end Pages

/-- An access to `pages.physical_addr` or to `slicetable`. -/
inductive Access where
  | read (k : ℕ)
  | write (k : ℕ)
  deriving DecidableEq, Repr

/-- The variables of the outer loop, the lengths of the slices and the accesses made. -/
structure Build where
  i : ℕ
  slicetable : ℕ → Slice
  runs : List ℕ
  accesses : List Access

/-- `while (pages.physical_addr[i+c-1] + PAGE_SIZE == pages.physical_addr[i+c]) c++;` -/
def countRun (p : Pages) (i : ℕ) : ℕ → ℕ → List Access → Option (ℕ × List Access)
  | 0, _, _ => none
  | fuel + 1, c, accesses =>
      let accesses := accesses ++ [.read (i + c - 1), .read (i + c)]
      if p.Contiguous (i + c - 1) then countRun p i fuel (c + 1) accesses else some (c, accesses)

/-- `for (j=0; j<c; j++)` -/
def fillRun (p : Pages) (vaddrStart c : ℕ) (b : Build) : Build where
  i := b.i + c
  slicetable k :=
    if b.i ≤ k ∧ k < b.i + c then
      ⟨vaddrStart + p.pageSize * b.i, p.physicalAddr b.i, p.pageSize * c⟩
    else b.slicetable k
  runs := b.runs ++ [c]
  accesses := b.accesses ++ (List.range c).flatMap (fun j => [.write (b.i + j), .read b.i])

/-- `while (i<pages.count)`, with or without `PIM_MERGE_SLICES`. -/
def mergeLoop (mergeSlices : Bool) (p : Pages) (vaddrStart : ℕ) : ℕ → Build → Option Build
  | 0, _ => none
  | fuel + 1, b =>
      if b.i < p.count then
        if mergeSlices ∧ b.i < p.count - 1 then
          (countRun p b.i fuel 1 b.accesses).bind (fun x =>
            mergeLoop mergeSlices p vaddrStart fuel
              (fillRun p vaddrStart x.1 { b with accesses := x.2 }))
        else mergeLoop mergeSlices p vaddrStart fuel (fillRun p vaddrStart 1 b)
      else some b

/-- `slicetable` holds anything before. -/
def createSliceTable (mergeSlices : Bool) (p : Pages) (vaddrStart fuel : ℕ)
    (memory : ℕ → Slice) : Option Build :=
  mergeLoop mergeSlices p vaddrStart fuel ⟨0, memory, [], []⟩

/-! ### Slices -/

/-- Pages `i` to `i + c - 1` follow one another in physical memory. -/
def Pages.Run (p : Pages) (i c : ℕ) : Prop := ∀ j, j + 1 < c → p.Contiguous (i + j)

/-- The slice is a run of pages around page `k`. -/
structure Covers (p : Pages) (vaddrStart k : ℕ) (s : Slice) (i c : ℕ) : Prop where
  slice : s = ⟨vaddrStart + p.pageSize * i, p.physicalAddr i, p.pageSize * c⟩
  start_le : i ≤ k
  lt_stop : k < i + c
  inside : i + c ≤ p.count
  run : p.Run i c

/-- The entry of page `k` is a slice around it, and so are the entries of the other pages of
the slice. -/
def Merged (p : Pages) (vaddrStart limit : ℕ) (table : ℕ → Slice) (k : ℕ) : Prop :=
  ∃ i c, Covers p vaddrStart k (table k) i c ∧ i + c ≤ limit ∧
    ∀ k', i ≤ k' → k' < i + c → table k' = table k

variable {p : Pages} {i c stop : ℕ}

theorem Pages.Run.physicalAddr (h : p.Run i c) {j : ℕ} (hj : j < c) :
    p.physicalAddr (i + j) = p.physicalAddr i + p.pageSize * j := by
  induction j with
  | zero => simp
  | succ j ih =>
    have hstep : p.physicalAddr (i + j) + p.pageSize = p.physicalAddr (i + j + 1) := h j hj
    rw [← add_assoc, ← hstep, ih (by omega), Nat.mul_succ, add_assoc]

theorem Pages.Run.extend (h : p.Run i c) (hc : 1 ≤ c) (hnext : p.Contiguous (i + c - 1)) :
    p.Run i (c + 1) := by
  intro j hj
  by_cases hlast : j + 1 = c
  · rwa [show i + j = i + c - 1 by omega]
  · exact h j (by omega)

/-- The merge loop ends at the first page that is not followed by its neighbour. -/
theorem countRun_of_stop (fuel : ℕ) (accesses : List Access) (h : p.Run i c) (hc : 1 ≤ c)
    (hle : i + c - 1 ≤ stop) (hstop : ¬ p.Contiguous stop) (hfuel : stop < fuel + (i + c - 1)) :
    ∃ c' accesses', countRun p i fuel c accesses = some (c', accesses') ∧ c ≤ c' ∧
      i + c' - 1 ≤ stop ∧ p.Run i c' ∧
      ∀ x ∈ accesses', x ∈ accesses ∨ ∃ k ≤ stop + 1, x = .read k := by
  induction fuel generalizing c accesses with
  | zero => omega
  | succ fuel ih =>
    have hreads : ∀ x ∈ accesses ++ [.read (i + c - 1), .read (i + c)],
        x ∈ accesses ∨ ∃ k ≤ stop + 1, x = .read k := by
      intro x hx
      simp only [mem_append, mem_cons, not_mem_nil, or_false] at hx
      rcases hx with hx | rfl | rfl
      · exact .inl hx
      · exact .inr ⟨_, by omega, rfl⟩
      · exact .inr ⟨_, by omega, rfl⟩
    simp only [countRun]
    split
    · next hnext =>
      have hne : i + c - 1 ≠ stop := fun he => hstop (he ▸ hnext)
      obtain ⟨c', accesses', hrun, hle', hinside, hr, hx⟩ :=
        ih (accesses ++ [.read (i + c - 1), .read (i + c)]) (h.extend hc hnext) (by omega)
          (by omega) (by omega)
      refine ⟨c', accesses', hrun, by omega, hinside, hr, fun x hmem => ?_⟩
      exact (hx x hmem).elim (hreads x) .inr
    · exact ⟨c, _, rfl, Nat.le_refl c, hle, h, hreads⟩

variable {vaddrStart limit fuel : ℕ} {b b' : Build}

/-- What the outer loop has done before page `i`. -/
structure Built (p : Pages) (vaddrStart limit : ℕ) (b : Build) : Prop where
  inside : b.i ≤ p.count
  sum : b.runs.sum = b.i
  merged : ∀ k < b.i, Merged p vaddrStart b.i b.slicetable k
  reads : ∀ k, .read k ∈ b.accesses → k < limit
  writes : ∀ k, .write k ∈ b.accesses → k < p.count

theorem Built.fillRun (accesses : List Access) (h : Built p vaddrStart limit b)
    (hinside : b.i + c ≤ p.count) (hrun : p.Run b.i c) (hi : b.i < limit)
    (haccesses : ∀ x ∈ accesses, x ∈ b.accesses ∨ ∃ k < limit, x = .read k) :
    Built p vaddrStart limit (fillRun p vaddrStart c { b with accesses := accesses }) where
  inside := hinside
  sum := by simp [SliceTable.fillRun, h.sum]
  merged k hk := by
    -- The entries before the run are not touched, and the run gets one slice.
    have hbefore : ∀ k' < b.i, (SliceTable.fillRun p vaddrStart c
        { b with accesses := accesses }).slicetable k' = b.slicetable k' := by
      intro k' hk'
      exact if_neg (fun hrun => absurd hk' (Nat.not_lt.mpr hrun.1))
    have hrunEntry : ∀ k', b.i ≤ k' → k' < b.i + c → (SliceTable.fillRun p vaddrStart c
        { b with accesses := accesses }).slicetable k' =
          ⟨vaddrStart + p.pageSize * b.i, p.physicalAddr b.i, p.pageSize * c⟩ := by
      intro k' hle hlt
      exact if_pos ⟨hle, hlt⟩
    by_cases hold : k < b.i
    · obtain ⟨i, n, hcover, hlimit, hsame⟩ := h.merged k hold
      refine ⟨i, n, (hbefore k hold).symm ▸ hcover, ?_, fun k' hle hlt => ?_⟩
      · exact Nat.le_trans hlimit (Nat.le_add_right b.i c)
      · rw [hbefore k hold, hbefore k' (by omega)]
        exact hsame k' hle hlt
    · have hle : b.i ≤ k := by omega
      refine ⟨b.i, c, ⟨hrunEntry k hle hk, hle, hk, hinside, hrun⟩, Nat.le_refl _,
        fun k' hle' hlt' => ?_⟩
      rw [hrunEntry k hle hk, hrunEntry k' hle' hlt']
  reads k hk := by
    simp only [SliceTable.fillRun, mem_append, mem_flatMap, mem_range,
      mem_cons, not_mem_nil, or_false, reduceCtorEq, false_or, Access.read.injEq] at hk
    rcases hk with hk | ⟨_, _, rfl⟩
    · rcases haccesses _ hk with hold | ⟨k', hk', he⟩
      · exact h.reads k hold
      · cases he
        exact hk'
    · exact hi
  writes k hk := by
    simp only [SliceTable.fillRun, mem_append, mem_flatMap, mem_range,
      mem_cons, not_mem_nil, or_false, reduceCtorEq, Access.write.injEq] at hk
    rcases hk with hk | ⟨j, hj, rfl⟩
    · rcases haccesses _ hk with hold | ⟨k', hk', he⟩
      · exact h.writes k hold
      · cases he
    · omega

/-- The table is built, and no run goes beyond a page that is not followed by its neighbour. -/
theorem Built.mergeLoop (mergeSlices : Bool) (h : Built p vaddrStart limit b)
    (hlimit : p.count ≤ limit)
    (hstop : mergeSlices = true → 2 ≤ p.count → ∃ stop, p.count ≤ stop + 2 ∧ stop < p.count ∧
      stop + 2 ≤ limit ∧ ¬ p.Contiguous stop)
    (hfuel : p.count - b.i + p.count < fuel) :
    ∃ b', mergeLoop mergeSlices p vaddrStart fuel b = some b' ∧ Built p vaddrStart limit b' ∧
      b'.i = p.count := by
  induction fuel generalizing b with
  | zero => omega
  | succ fuel ih =>
    simp only [SliceTable.mergeLoop]
    split
    · next hi =>
      split
      · next hmerge =>
        obtain ⟨stop, hcount, hlt, hreads, hnot⟩ := hstop hmerge.1 (by omega)
        obtain ⟨c, accesses, hrun, hc, hinside, hr, haccesses⟩ :=
          countRun_of_stop (p := p) (i := b.i) (c := 1) fuel b.accesses (fun j hj => by omega)
            (Nat.le_refl 1) (by omega) hnot (by omega)
        rw [hrun, bind_some]
        refine ih (h.fillRun accesses (by omega) hr (by omega) (fun x hx => ?_))
          (by simp only [SliceTable.fillRun]; omega)
        rcases haccesses x hx with hold | ⟨k, hk, hread⟩
        · exact .inl hold
        · exact .inr ⟨k, by omega, hread⟩
      · exact ih (h.fillRun b.accesses (by omega) (fun j hj => by omega) (by omega)
          (fun x hx => .inl hx)) (by simp only [SliceTable.fillRun]; omega)
    · exact ⟨b, rfl, h, Nat.le_antisymm h.inside (by omega)⟩

/-- Two pages that follow one another, before a word that happens to be the address of the
next page. -/
def twoPages : Pages where
  pageShift := 12
  count := 2
  physicalAddr k := [0x1000, 0x2000, 0x3000].getD k 0

end SmcSim.SliceTable
