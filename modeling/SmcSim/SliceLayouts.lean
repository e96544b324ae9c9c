import SmcSim.TranslationRules

/-!
# Layouts of slices

A layout says how a virtual address space is cut into slices that are translated as a
whole: for every mapped address, how many addresses of its slice follow it and where it is
in physical memory. A rule fits a layout if it is one of its slices.
-/

namespace SmcSim.TranslationRules
open List

structure Layout where
  Mapped : ℕ → Prop
  /-- The number of addresses after an address in its slice. -/
  rest : ℕ → ℕ
  physical : ℕ → ℕ
  inside : ∀ a j, Mapped a → j ≤ rest a →
    Mapped (a + j) ∧ rest (a + j) = rest a - j ∧ physical (a + j) = physical a + j

/-- The number of slices that `n` bytes from an address on meet. -/
def Layout.slices (L : Layout) (a : ℕ) : ℕ → ℕ
  | 0 => 0
  | n + 1 => L.slices (a + L.rest a + 1) (n - L.rest a) + 1
termination_by n => n

def Layout.Fits (L : Layout) (r : Rule) : Prop :=
  ∀ a, L.Mapped a → r.original.Contains a →
    r.original.stop = a + L.rest a ∧ r.translate a = L.physical a

def Covered (rules : List Rule) (a : ℕ) : Prop := ∃ r ∈ rules, r.original.Contains a

variable {L : Layout} {rules rules' : List Rule} {r : Rule} {a now : ℕ}

theorem translate_eq_none_iff : translate rules a = none ↔ ¬ Covered rules a := by
  rw [translate_eq_none, Covered]
  exact ⟨fun h ⟨r, hr, hcontains⟩ => h r hr hcontains, fun h r hr hcontains => h ⟨r, hr, hcontains⟩⟩

theorem Covered.ruleFor (h : Covered rules a) :
    ∃ r ∈ rules, ruleFor rules a = some r ∧ r.original.Contains a := by
  cases hr : TranslationRules.ruleFor rules a with
  | none =>
    obtain ⟨r, hmem, hcontains⟩ := h
    exact absurd hcontains (ruleFor_eq_none.mp hr r hmem)
  | some r =>
    obtain ⟨hmem, hcontains⟩ := ruleFor_eq_some hr
    exact ⟨r, hmem, rfl, hcontains⟩

theorem Covered.lookUp (h : Covered rules a) (hfits : ∀ r ∈ rules, L.Fits r) (ha : L.Mapped a) :
    translate rules a = some (L.physical a) ∧
      (TranslationRules.ruleFor rules a).map (fun r => r.original.stop) = some (a + L.rest a) := by
  obtain ⟨r, hmem, hr, hcontains⟩ := h.ruleFor
  obtain ⟨hstop, htranslate⟩ := hfits r hmem a ha hcontains
  rw [translate, hr]
  exact ⟨congrArg some htranslate, congrArg some hstop⟩

theorem Covered.add (h : Covered rules a) (hfits : ∀ r ∈ rules, L.Fits r) (ha : L.Mapped a)
    {j : ℕ} (hj : j ≤ L.rest a) : Covered rules (a + j) := by
  obtain ⟨r, hmem, hcontains⟩ := h
  obtain ⟨hstop, -⟩ := hfits r hmem a ha hcontains
  have hstart := hcontains.1
  exact ⟨r, hmem, by omega, by omega⟩

theorem Covered.touch (now b : ℕ) (h : Covered rules a) : Covered (touch now b rules) a := by
  induction rules with
  | nil =>
    obtain ⟨r, hr, -⟩ := h
    cases hr
  | cons head tail ih =>
    obtain ⟨r, hr, hcontains⟩ := h
    rw [TranslationRules.touch]
    split
    · rcases mem_cons.mp hr with rfl | hmem
      · exact ⟨{ r with lastUsed := now }, mem_cons_self, hcontains⟩
      · exact ⟨r, mem_cons_of_mem _ hmem, hcontains⟩
    · rcases mem_cons.mp hr with rfl | hmem
      · exact ⟨r, mem_cons_self, hcontains⟩
      · obtain ⟨r', hr', hcontains'⟩ := ih ⟨r, hmem, hcontains⟩
        exact ⟨r', mem_cons_of_mem _ hr', hcontains'⟩

theorem Layout.Fits.of_same {r' : Rule} (h : L.Fits r') (horiginal : r.original = r'.original)
    (hremapped : r.remapped = r'.remapped) : L.Fits r := by
  intro a ha hcontains
  rw [Rule.translate, horiginal, hremapped]
  exact h a ha (horiginal ▸ hcontains)

theorem fits_touch (h : ∀ r ∈ rules, L.Fits r) {b : ℕ} : ∀ r ∈ touch now b rules, L.Fits r := by
  intro r hr
  obtain ⟨r', hr', horiginal, hremapped⟩ := mem_touch hr
  exact (h r' hr').of_same horiginal hremapped

/-! ### Cutting a request -/

variable {n : ℕ}

theorem Layout.slices_pos (h : 0 < n) : 0 < L.slices a n := by
  cases n with
  | zero => exact absurd h (Nat.lt_irrefl 0)
  | succ n =>
    rw [Layout.slices]
    exact Nat.succ_pos _

/-- What is left to be cut after the first slice. -/
theorem Layout.slices_of_lt (h : L.rest a + 1 < n) :
    L.slices a n = L.slices (a + (L.rest a + 1)) (n - (L.rest a + 1)) + 1 := by
  obtain ⟨n, rfl⟩ : ∃ k, n = k + 1 := ⟨n - 1, by omega⟩
  rw [Layout.slices, Nat.succ_sub_succ]
  rfl

end SmcSim.TranslationRules
