import Mathlib.Data.List.Basic

/-!
# Lists of address translation rules

A rule maps an inclusive range of addresses to the addresses from a target on, and the
first rule that contains an address translates it. Rules carry the time of their last
use. A list of rules is sound for a translation if no rule contradicts it, and what a
cache does to its rules keeps soundness.
-/

namespace SmcSim.TranslationRules
open List

structure Range where
  start : ℕ
  stop : ℕ
  deriving DecidableEq, Repr

def Range.Contains (r : Range) (a : ℕ) : Prop := r.start ≤ a ∧ a ≤ r.stop

instance (r : Range) (a : ℕ) : Decidable (r.Contains a) := inferInstanceAs (Decidable (_ ∧ _))

structure Rule where
  original : Range
  remapped : Range
  lastUsed : ℕ
  deriving DecidableEq, Repr

def Rule.translate (r : Rule) (a : ℕ) : ℕ := a - r.original.start + r.remapped.start

def ruleFor (rules : List Rule) (a : ℕ) : Option Rule :=
  rules.find? (fun r => r.original.Contains a)

def translate (rules : List Rule) (a : ℕ) : Option ℕ :=
  (ruleFor rules a).map (fun r => r.translate a)

def touch (now a : ℕ) : List Rule → List Rule
  | [] => []
  | r :: rs =>
      if r.original.Contains a then { r with lastUsed := now } :: rs else r :: touch now a rs

def lastUsedAt (rules : List Rule) (i : ℕ) : ℕ := (rules[i]?.map Rule.lastUsed).getD 0

def leastRecentlyUsed (rules : List Rule) : ℕ :=
  (List.range' 1 (rules.length - 1)).foldl
    (fun least i => if lastUsedAt rules i < lastUsedAt rules least then i else least) 1

/-! ### Soundness -/

/-- No rule contradicts the translation `f` of the addresses of interest. -/
def Sound (region : ℕ → Prop) (f : ℕ → ℕ) (rules : List Rule) : Prop :=
  ∀ r ∈ rules, ∀ a, region a → r.original.Contains a → r.translate a = f a

section Soundness

variable {region : ℕ → Prop} {f : ℕ → ℕ} {rules rules' : List Rule} {r : Rule} {a now : ℕ}

theorem ruleFor_eq_some (h : ruleFor rules a = some r) : r ∈ rules ∧ r.original.Contains a := by
  refine ⟨mem_of_find?_eq_some h, ?_⟩
  have hcontains := find?_some h
  exact of_decide_eq_true hcontains

theorem ruleFor_eq_none : ruleFor rules a = none ↔ ∀ r ∈ rules, ¬ r.original.Contains a := by
  simp [ruleFor]

theorem translate_eq_none : translate rules a = none ↔ ∀ r ∈ rules, ¬ r.original.Contains a := by
  rw [translate, Option.map_eq_none_iff, ruleFor_eq_none]

theorem Sound.translate (h : Sound region f rules) (ha : region a) {x : ℕ}
    (hx : translate rules a = some x) : x = f a := by
  obtain ⟨r, hr, rfl⟩ := Option.map_eq_some_iff.mp hx
  obtain ⟨hmem, hcontains⟩ := ruleFor_eq_some hr
  exact h r hmem a ha hcontains

theorem Sound.subset (h : Sound region f rules) (hsub : ∀ r ∈ rules', r ∈ rules) :
    Sound region f rules' :=
  fun r hr => h r (hsub r hr)

theorem Sound.concat (h : Sound region f rules)
    (hr : ∀ a, region a → r.original.Contains a → r.translate a = f a) :
    Sound region f (rules ++ [r]) := by
  intro r' hr'
  rcases mem_append.mp hr' with hold | hnew
  · exact h r' hold
  · rw [mem_singleton] at hnew
    exact hnew ▸ hr

theorem translate_subset (hnone : translate rules a = none) (hsub : ∀ r ∈ rules', r ∈ rules) :
    translate rules' a = none := by
  rw [translate_eq_none] at hnone ⊢
  exact fun r hr => hnone r (hsub r hr)

/-! Use does not change what the rules say. -/

theorem mem_touch (h : r ∈ touch now a rules) :
    ∃ r' ∈ rules, r.original = r'.original ∧ r.remapped = r'.remapped := by
  induction rules with
  | nil => cases h
  | cons head tail ih =>
    rw [touch] at h
    split at h
    · rcases mem_cons.mp h with rfl | hmem
      · exact ⟨head, mem_cons_self, rfl, rfl⟩
      · exact ⟨r, mem_cons_of_mem _ hmem, rfl, rfl⟩
    · rcases mem_cons.mp h with rfl | hmem
      · exact ⟨r, mem_cons_self, rfl, rfl⟩
      · obtain ⟨r', hr', hsame⟩ := ih hmem
        exact ⟨r', mem_cons_of_mem _ hr', hsame⟩

theorem Sound.touch (h : Sound region f rules) : Sound region f (touch now a rules) := by
  intro r hr b hb hcontains
  obtain ⟨r', hr', horiginal, hremapped⟩ := mem_touch hr
  rw [Rule.translate, horiginal, hremapped]
  exact h r' hr' b hb (horiginal ▸ hcontains)

/-- The search for the position with the least value. -/
theorem foldl_least (f : ℕ → ℕ) (indices : List ℕ) (least : ℕ) :
    (indices.foldl (fun least i => if f i < f least then i else least) least = least ∨
      indices.foldl (fun least i => if f i < f least then i else least) least ∈ indices) ∧
    f (indices.foldl (fun least i => if f i < f least then i else least) least) ≤ f least ∧
    ∀ i ∈ indices, f (indices.foldl (fun least i => if f i < f least then i else least) least) ≤
      f i := by
  induction indices generalizing least with
  | nil => exact ⟨.inl rfl, Nat.le_refl _, fun i hi => absurd hi not_mem_nil⟩
  | cons i indices ih =>
    simp only [foldl_cons]
    obtain ⟨hwhere, hle, hall⟩ := ih (if f i < f least then i else least)
    split at hwhere
    · next hlt =>
      rw [if_pos hlt] at hle hall ⊢
      refine ⟨.inr ?_, Nat.le_trans hle (Nat.le_of_lt hlt), forall_mem_cons.mpr ⟨hle, hall⟩⟩
      exact mem_cons.mpr hwhere
    · next hge =>
      rw [if_neg hge] at hle hall ⊢
      refine ⟨hwhere.imp_right (mem_cons_of_mem i), hle,
        forall_mem_cons.mpr ⟨Nat.le_trans hle (Nat.le_of_not_lt hge), hall⟩⟩

theorem one_le_leastRecentlyUsed (rules : List Rule) : 1 ≤ leastRecentlyUsed rules := by
  obtain ⟨hwhere, -, -⟩ := foldl_least (lastUsedAt rules) (List.range' 1 (rules.length - 1)) 1
  rcases hwhere with heq | hmem
  · exact Nat.le_of_eq heq.symm
  · exact (mem_range'_1.mp hmem).1

end Soundness

end SmcSim.TranslationRules
