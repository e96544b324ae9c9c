import SmcSim.Interleavings

/-!
# Values handed over through a register

One side requests a value by writing it to a register, the other side acts on the value when it
reads it, and may write the register as well. A request is lost if the register is written before
the request has been acted on. The requests that are open are recorded beside the state.
-/

namespace SmcSim.RegisterHandover
open Interleavings Function Option

variable {σ ℓ ι ν : Type}

/-- What a step does with a register: one side requests a value, the other writes the register or
acts on what it holds. -/
inductive Access (ν : Type) where
  | request (v : ν)
  | overwrite
  | act
  deriving DecidableEq, Repr

structure Tracked (σ ι ν : Type) where
  state : σ
  requested : ι → Option ν

section Definitions

variable [DecidableEq ι] (step : σ → ℓ → Option σ) (access : σ → ℓ → Option (ι × Access ν))

def Tracked.after (x : Tracked σ ι ν) (l : ℓ) : ι → Option ν :=
  match access x.state l with
  | some (i, .request v) => update x.requested i (some v)
  | some (i, .overwrite) | some (i, .act) => update x.requested i none
  | none => x.requested

def trackedStep (x : Tracked σ ι ν) (l : ℓ) : Option (Tracked σ ι ν) :=
  (step x.state l).map (fun s => ⟨s, x.after access l⟩)

omit [DecidableEq ι] in
/-- The step can be made, and a request is lost by it. -/
def Loses (x : Tracked σ ι ν) (l : ℓ) : Prop :=
  step x.state l ≠ none ∧
    ∃ i a, access x.state l = some (i, a) ∧ a ≠ .act ∧ x.requested i ≠ none

end Definitions

section Rules

variable [DecidableEq ι] {step : σ → ℓ → Option σ} {access : σ → ℓ → Option (ι × Access ν)}
  {x₀ x : Tracked σ ι ν} {I : σ → Prop} {J : σ → ι → ν → Prop}

theorem Tracked.after_of_ne {l : ℓ} {i j : ι} {a : Access ν}
    (haccess : access x.state l = some (j, a)) (hi : i ≠ j) :
    x.after access l i = x.requested i := by
  cases a with
  | request | overwrite | act => simp only [Tracked.after, haccess, update_of_ne hi]

theorem Tracked.after_eq_some {l : ℓ} {i : ι} {v : ν} (h : x.after access l i = some v) :
    access x.state l = some (i, .request v) ∨
      x.requested i = some v ∧ ∀ a, access x.state l ≠ some (i, a) := by
  cases haccess : access x.state l with
  | none =>
    simp only [Tracked.after, haccess] at h
    exact .inr ⟨h, fun a ha => by cases ha⟩
  | some ja =>
    obtain ⟨j, a⟩ := ja
    by_cases hi : i = j
    · subst hi
      left
      cases a with
      | request w =>
        simp only [Tracked.after, haccess, update_self, some.injEq] at h
        rw [h]
      | overwrite | act =>
        simp only [Tracked.after, haccess, update_self] at h
        cases h
    · rw [Tracked.after_of_ne haccess hi] at h
      refine .inr ⟨h, fun b hb => hi ?_⟩
      exact (Prod.mk.inj (some.inj hb)).1.symm

/-- What holds when a value is requested, and is kept until the register is accessed again, holds
of every open request. -/
theorem reached_requested (ok : σ → ℓ → Prop)
    (h : Reached (trackedStep step access) (fun x l => ok x.state l) x₀ x)
    (hstart : I x₀.state) (hstart' : ∀ i v, x₀.requested i = some v → J x₀.state i v)
    (hkeep : ∀ s l s', I s → ok s l → step s l = some s' → I s')
    (hrequest : ∀ s l s' i v, I s → step s l = some s' → access s l = some (i, .request v) →
      J s' i v)
    (hopen : ∀ s l s' i v, I s → J s i v → step s l = some s' →
      (∀ a, access s l ≠ some (i, a)) → J s' i v) :
    I x.state ∧ ∀ i v, x.requested i = some v → J x.state i v := by
  refine h.invariant (I := fun x => I x.state ∧ ∀ i v, x.requested i = some v → J x.state i v)
    ⟨hstart, hstart'⟩ ?_
  intro x l x' ⟨hI, hJ⟩ hok hstep
  obtain ⟨s', hs', rfl⟩ := map_eq_some_iff.mp hstep
  refine ⟨hkeep _ _ _ hI hok hs', fun i v hv => ?_⟩
  rcases Tracked.after_eq_some hv with haccess | ⟨hopened, hnone⟩
  · exact hrequest _ _ _ i v hI hs' haccess
  · exact hopen _ _ _ i v hI (hJ i v hopened) hs' hnone

omit [DecidableEq ι] in
theorem loses_of_overwrite {l : ℓ} {i : ι} {v : ν} (hstep : (step x.state l).isSome)
    (haccess : access x.state l = some (i, .overwrite)) (hrequested : x.requested i = some v) :
    Loses step access x l := by
  refine ⟨isSome_iff_ne_none.mp hstep, i, .overwrite, haccess, fun h => (by cases h), ?_⟩
  rw [hrequested]
  exact some_ne_none v

omit [DecidableEq ι] in
theorem not_loses (hrequested : ∀ i v, x.requested i = some v → J x.state i v) {l : ℓ}
    (hexcluded : ∀ i v a, J x.state i v → step x.state l ≠ none →
      access x.state l = some (i, a) → a = .act) : ¬ Loses step access x l := by
  rintro ⟨hstep, i, a, haccess, hne, hopen⟩
  obtain ⟨v, hv⟩ := ne_none_iff_exists'.mp hopen
  exact hne (hexcluded i v a (hrequested i v hv) hstep haccess)

end Rules

end SmcSim.RegisterHandover
