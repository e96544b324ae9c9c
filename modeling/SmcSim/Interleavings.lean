import Mathlib.Logic.Function.Basic

/-!
# Interleaved steps of several parties

A system is a partial step function: a party that is blocked has no step. Runs are
schedules, that is sequences of parties, and properties of all runs follow from what
one step keeps.
-/

namespace SmcSim.Interleavings
open Function Option

variable {σ ℓ : Type} {step : σ → ℓ → Option σ} {ok : σ → ℓ → Prop} {start s s' s'' : σ}

/-- The states that steps meeting `ok` lead to. -/
inductive Reached (step : σ → ℓ → Option σ) (ok : σ → ℓ → Prop) (start : σ) : σ → Prop
  | start : Reached step ok start start
  | next {s s' : σ} {l : ℓ} (h : Reached step ok start s) (hok : ok s l)
      (hstep : step s l = some s') : Reached step ok start s'

/-- A step with a guard. -/
theorem of_guard {p : Prop} [Decidable p] (h : (if p then some s else none) = some s') :
    p ∧ s = s' := by
  obtain ⟨hp, hs⟩ := ite_none_right_eq_some.mp h
  exact ⟨hp, some.inj hs⟩

/-- An update that keeps what `g` sees keeps it everywhere. -/
theorem apply_update_of_eq {α β γ : Type} [DecidableEq α] {a : α} {b : β} (f : α → β) (g : β → γ)
    (h : g b = g (f a)) (x : α) : g (update f a b x) = g (f x) := by
  by_cases hx : x = a
  · rw [hx, update_self, h]
  · rw [update_of_ne hx]

/-- What each party has of its own stays its own when one of them moves on with nothing of
another's. -/
theorem own_update {α β ν : Type} [DecidableEq α] {f : α → β} {t : α} {b : β} {own : β → Option ν}
    (h : ∀ u v n, own (f u) = some n → own (f v) = some n → u = v)
    (hown : ∀ n, own b = some n → ∀ u, u ≠ t → own (f u) ≠ some n) (u v : α) (n : ν)
    (hu : own (update f t b u) = some n) (hv : own (update f t b v) = some n) :
    u = v := by
  by_cases hut : u = t
  · rw [hut, update_self] at hu
    by_cases hvt : v = t
    · rw [hut, hvt]
    · rw [update_of_ne hvt] at hv
      exact absurd hv (hown n hu v hvt)
  · rw [update_of_ne hut] at hu
    by_cases hvt : v = t
    · rw [hvt, update_self] at hv
      exact absurd hu (hown n hv u hut)
    · rw [update_of_ne hvt] at hv
      exact h u v n hu hv

theorem Reached.invariant {I : σ → Prop} (h : Reached step ok start s) (hstart : I start)
    (hkeep : ∀ s l s', I s → ok s l → step s l = some s' → I s') : I s := by
  induction h with
  | start => exact hstart
  | next _ hok hstep ih => exact hkeep _ _ _ ih hok hstep

/-- A system that never fails: every step that meets `ok` is possible and keeps `I`. -/
theorem Reached.total {I : σ → Prop} (h : Reached step ok start s) (hstart : I start)
    (hkeep : ∀ s l, I s → ok s l → ∃ s', step s l = some s' ∧ I s') :
    I s ∧ ∀ l, ok s l → (step s l).isSome = true := by
  have hs : I s := by
    refine h.invariant hstart (fun s l s' hs hok hstep => ?_)
    obtain ⟨s₁, hs₁, hI⟩ := hkeep s l hs hok
    exact some.inj (hs₁.symm.trans hstep) ▸ hI
  refine ⟨hs, fun l hl => ?_⟩
  obtain ⟨s', hs', -⟩ := hkeep s l hs hl
  simp [hs']

theorem Reached.trans (h : Reached step ok s s') (h' : Reached step ok s' s'') :
    Reached step ok s s'' := by
  induction h' with
  | start => exact h
  | next _ hok hstep ih => exact .next ih hok hstep

theorem Reached.head {l : ℓ} (hok : ok s l) (hstep : step s l = some s')
    (h : Reached step ok s' s'') : Reached step ok s s'' := by
  have hfirst : Reached step ok s s' := .next .start hok hstep
  exact hfirst.trans h

theorem Reached.mono {ok' : σ → ℓ → Prop} (h : Reached step ok start s)
    (hle : ∀ s l, ok s l → ok' s l) : Reached step ok' start s := by
  induction h with
  | start => exact .start
  | next _ hok hstep ih => exact .next ih (hle _ _ hok) hstep

theorem exists_reached {P G : σ → Prop} (rank : σ → Nat)
    (hcloser : ∀ s, P s → ¬ G s → ∃ l s', ok s l ∧ step s l = some s' ∧ P s' ∧ rank s' < rank s)
    (hs : P s) : ∃ s', Reached step ok s s' ∧ P s' ∧ G s' := by
  induction hn : rank s using Nat.strongRecOn generalizing s with
  | ind n ih =>
    by_cases hg : G s
    · exact ⟨s, .start, hs, hg⟩
    · obtain ⟨l, s₁, hok, hstep, hs₁, hlt⟩ := hcloser s hs hg
      obtain ⟨s', hreached, hs'⟩ := ih (rank s₁) (hn ▸ hlt) hs₁ rfl
      exact ⟨s', .head hok hstep hreached, hs'⟩

theorem exists_reached_goal {P G : σ → Prop} (rank : σ → Nat)
    (hcloser : ∀ s, P s → ¬ G s → ∃ l s', ok s l ∧ step s l = some s' ∧ P s' ∧ rank s' < rank s)
    (hs : P s) : ∃ s', Reached step ok s s' ∧ G s' := by
  obtain ⟨s', hreached, -, hgoal⟩ := exists_reached rank hcloser hs
  exact ⟨s', hreached, hgoal⟩

theorem exists_reached_of_closer {P G : σ → Prop} (rank : σ → Nat)
    (hcloser : ∀ s, P s → ∃ l s', ok s l ∧ step s l = some s' ∧ (G s' ∨ P s' ∧ rank s' < rank s))
    (hs : P s) : ∃ s', Reached step ok s s' ∧ G s' := by
  induction hn : rank s using Nat.strongRecOn generalizing s with
  | ind n ih =>
    obtain ⟨l, s₁, hok, hstep, hgoal | ⟨hs₁, hlt⟩⟩ := hcloser s hs
    · exact ⟨s₁, .next .start hok hstep, hgoal⟩
    · obtain ⟨s', hreached, hgoal⟩ := ih (rank s₁) (hn ▸ hlt) hs₁ rfl
      exact ⟨s', .head hok hstep hreached, hgoal⟩

/-- Every run that goes on as long as it can ends, in a state with `P`. -/
inductive Inevitable (step : σ → ℓ → Option σ) (P : σ → Prop) : σ → Prop
  | now {s : σ} (h : P s) : Inevitable step P s
  | later {s : σ} (hgoes : ∃ l s', step s l = some s')
      (h : ∀ l s', step s l = some s' → Inevitable step P s') : Inevitable step P s

theorem Inevitable.mono {P P' : σ → Prop} (h : Inevitable step P s) (hP : ∀ s, P s → P' s) :
    Inevitable step P' s := by
  induction h with
  | now h => exact .now (hP _ h)
  | later hgoes _ ih => exact .later hgoes ih

theorem Inevitable.of_reached {P P' : σ → Prop} (h : Inevitable step P s)
    (hP : ∀ s', Reached step (fun _ _ => True) s s' → P s' → P' s') : Inevitable step P' s := by
  induction h with
  | now h => exact .now (hP _ .start h)
  | later hgoes _ ih =>
    exact .later hgoes (fun l s' hstep => ih l s' hstep (fun t ht => hP t (.head trivial hstep ht)))

theorem Inevitable.exists_reached {P : σ → Prop} (h : Inevitable step P s) :
    ∃ s', Reached step (fun _ _ => True) s s' ∧ P s' := by
  induction h with
  | now h => exact ⟨_, .start, h⟩
  | later hgoes _ ih =>
    obtain ⟨l, s₁, hstep⟩ := hgoes
    obtain ⟨s', hreached, hs'⟩ := ih l s₁ hstep
    exact ⟨s', .head trivial hstep hreached, hs'⟩

def runSchedule (step : σ → ℓ → Option σ) (s : σ) : List ℓ → Option σ
  | [] => some s
  | l :: ls => (step s l).bind (fun s' => runSchedule step s' ls)

/-- A schedule given by the number of steps that each party makes in its turn. -/
def turns (ls : List (Nat × ℓ)) : List ℓ := ls.flatMap (fun x => List.replicate x.1 x.2)

/-- Steps that do not meet `ok` are not made. -/
def guarded (step : σ → ℓ → Option σ) (ok : σ → ℓ → Prop) [∀ s l, Decidable (ok s l)] (s : σ)
    (l : ℓ) : Option σ := if ok s l then step s l else none

theorem reached_of_runSchedule [∀ s l, Decidable (ok s l)] (ls : List ℓ)
    (h : runSchedule (guarded step ok) s ls = some s') : Reached step ok s s' := by
  induction ls generalizing s with
  | nil =>
    obtain rfl : s = s' := some.inj h
    exact .start
  | cons l ls ih =>
    obtain ⟨s₁, hfirst, hrest⟩ := bind_eq_some_iff.mp h
    obtain ⟨hok, hstep⟩ : ok s l ∧ step s l = some s₁ := by
      simpa [guarded] using hfirst
    exact .head hok hstep (ih hrest)

theorem reached_of_cons {l : ℓ} (ls : List ℓ) (hl : ok s l) (hls : ∀ l ∈ ls, ∀ s, ok s l)
    (h : runSchedule step s (l :: ls) = some s') : Reached step ok s s' := by
  induction ls generalizing s l with
  | nil =>
    obtain ⟨s₁, hfirst, hrest⟩ := bind_eq_some_iff.mp h
    obtain rfl : s₁ = s' := some.inj hrest
    exact .next .start hl hfirst
  | cons l' ls ih =>
    obtain ⟨s₁, hfirst, hrest⟩ := bind_eq_some_iff.mp h
    exact .head hl hfirst (ih (hls l' List.mem_cons_self s₁)
      (fun x hx => hls x (List.mem_cons_of_mem _ hx)) hrest)

theorem exists_of_runSchedule {β : Type} [∀ s l, Decidable (ok s l)] {f : σ → β} {b : β}
    (ls : List ℓ) (h : (runSchedule (guarded step ok) s ls).map f = some b) :
    ∃ s', Reached step ok s s' ∧ f s' = b := by
  obtain ⟨s', hs', hf⟩ := map_eq_some_iff.mp h
  exact ⟨s', reached_of_runSchedule ls hs', hf⟩

end SmcSim.Interleavings
