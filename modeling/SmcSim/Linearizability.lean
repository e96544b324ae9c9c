import SmcSim.RequestServers
import Mathlib.Data.List.Induction

/-!
# Operations that take effect at one moment

Threads call operations of a shared object. A trace holds the calls and the returns in the
order in which they were made, and between the call and the return of an operation the
moment at which it takes effect. A history of calls and returns is linearizable if such
moments can be added to it that give the answers of the sequential object. An operation
that leaves the object as it is may take effect at any moment that its thread has seen.
-/

namespace SmcSim.Linearizability
open RequestServers List Option

variable {τ ρ α σ : Type}

inductive Event (τ ρ α : Type) where
  | invoke (t : τ) (r : ρ)
  | effect (t : τ) (r : ρ) (a : α)
  | respond (t : τ) (a : α)
  deriving DecidableEq, Repr

def Event.thread : Event τ ρ α → τ
  | .invoke t _ => t
  | .effect t _ _ => t
  | .respond t _ => t

/-- A moment of effect is not part of the history. -/
def Event.visible : Event τ ρ α → Bool
  | .effect _ _ _ => false
  | _ => true

def Event.effect? : Event τ ρ α → Option (ρ × α)
  | .effect _ r a => some (r, a)
  | _ => none

theorem filter_visible_insert (t : τ) (r : ρ) (a : α) (pre post : List (Event τ ρ α)) :
    (pre ++ .effect t r a :: post).filter Event.visible = (pre ++ post).filter Event.visible := by
  rw [filter_append, filter_append]
  rfl

inductive Phase (ρ α : Type) where
  | quiet
  | invoked (r : ρ)
  | effected (r : ρ) (a : α)
  deriving DecidableEq, Repr

section Phases

variable [DecidableEq τ] {t u : τ} {r : ρ} {a : α} {e : Event τ ρ α}
  {pre post trace : List (Event τ ρ α)}

def threadEvents (t : τ) (trace : List (Event τ ρ α)) : List (Event τ ρ α) :=
  trace.filter (fun e => e.thread = t)

@[simp] theorem threadEvents_append :
    threadEvents t (pre ++ post) = threadEvents t pre ++ threadEvents t post :=
  filter_append pre post

theorem threadEvents_of_other (h : ∀ e ∈ post, e.thread ≠ t) : threadEvents t post = [] := by
  apply filter_eq_nil_iff.mpr
  intro e he
  simpa using h e he

variable [DecidableEq ρ] [DecidableEq α]

def Phase.next : Phase ρ α → Event τ ρ α → Option (Phase ρ α)
  | .quiet, .invoke _ r => some (.invoked r)
  | .invoked r, .effect _ r' a => if r' = r then some (.effected r a) else none
  | .effected _ a, .respond _ a' => if a' = a then some .quiet else none
  | _, _ => none

def phaseOf (t : τ) (trace : List (Event τ ρ α)) : Option (Phase ρ α) :=
  (threadEvents t trace).foldlM Phase.next .quiet

theorem phaseOf_append_other (h : e.thread ≠ t) : phaseOf t (trace ++ [e]) = phaseOf t trace := by
  simp [phaseOf, threadEvents, h]

variable {phase : Phase ρ α}

theorem phaseOf_append_same (h : phaseOf t trace = some phase)
    (he : e.thread = t) : phaseOf t (trace ++ [e]) = phase.next e := by
  have hsplit : threadEvents t (trace ++ [e]) = threadEvents t trace ++ [e] := by
    simp [threadEvents, he]
  have hfold : (threadEvents t trace).foldlM Phase.next .quiet = some phase := h
  rw [phaseOf, hsplit, foldlM_append, hfold]
  simp

theorem phaseOf_invoke (h : phaseOf t trace = some .quiet) :
    phaseOf t (trace ++ [.invoke t r]) = some (.invoked r) :=
  phaseOf_append_same h rfl

theorem phaseOf_effect (h : phaseOf t trace = some (.invoked r)) :
    phaseOf t (trace ++ [.effect t r a]) = some (.effected r a) := by
  rw [phaseOf_append_same h rfl]
  exact if_pos rfl

theorem phaseOf_respond (h : phaseOf t trace = some (.effected r a)) :
    phaseOf t (trace ++ [.respond t a]) = some .quiet := by
  rw [phaseOf_append_same h rfl]
  exact if_pos rfl

/-- Events of other threads that are added anywhere do not change the phase. -/
theorem phaseOf_insert_other (h : e.thread ≠ t) :
    phaseOf t (pre ++ e :: post) = phaseOf t (pre ++ post) := by
  simp [phaseOf, threadEvents, h]

/-- A moment of effect in the past, after which the thread has done nothing. -/
theorem phaseOf_insert (hpost : ∀ e ∈ post, e.thread ≠ t)
    (h : phaseOf t (pre ++ post) = some (.invoked r)) :
    phaseOf t (pre ++ .effect t r a :: post) = some (.effected r a) := by
  have hnil := threadEvents_of_other hpost
  have hpre : phaseOf t pre = some (.invoked r) := by
    rw [← h, phaseOf, phaseOf, threadEvents_append, hnil, append_nil]
  rw [← phaseOf_effect hpre, phaseOf, phaseOf, append_cons, threadEvents_append, hnil,
    append_nil]

def cycle (t : τ) (c : ρ × α) : List (Event τ ρ α) :=
  [.invoke t c.1, .effect t c.1 c.2, .respond t c.2]

def opened (t : τ) : Phase ρ α → List (Event τ ρ α)
  | .quiet => []
  | .invoked r => [.invoke t r]
  | .effected r a => [.invoke t r, .effect t r a]

omit [DecidableEq τ] [DecidableEq ρ] [DecidableEq α] in
theorem filter_visible_cycles (t : τ) (finished : List (ρ × α)) :
    (finished.flatMap (cycle t)).filter Event.visible =
      finished.flatMap (fun c => [.invoke t c.1, .respond t c.2]) := by
  induction finished with
  | nil => rfl
  | cons c finished ih =>
    rw [flatMap_cons, filter_append, ih]
    rfl

omit [DecidableEq τ] in
theorem cycles_of_next {events : List (Event τ ρ α)} {finished : List (ρ × α)}
    {before : Phase ρ α} (hevents : events = finished.flatMap (cycle t) ++ opened t before)
    (he : e.thread = t) (hnext : before.next e = some phase) :
    ∃ finished : List (ρ × α), events ++ [e] = finished.flatMap (cycle t) ++ opened t phase := by
  cases before with
  | quiet =>
    cases e with
    | invoke u r =>
      obtain rfl : u = t := he
      cases hnext
      exact ⟨finished, by simp [hevents, opened]⟩
    | effect | respond => cases hnext
  | invoked r =>
    cases e with
    | invoke | respond => cases hnext
    | effect u r' a =>
      obtain rfl : u = t := he
      simp only [Phase.next, ite_none_right_eq_some, some.injEq] at hnext
      obtain ⟨rfl, rfl⟩ := hnext
      exact ⟨finished, by simp [hevents, opened]⟩
  | effected r a =>
    cases e with
    | invoke | effect => cases hnext
    | respond u a' =>
      obtain rfl : u = t := he
      simp only [Phase.next, ite_none_right_eq_some, some.injEq] at hnext
      obtain ⟨rfl, rfl⟩ := hnext
      exact ⟨finished ++ [(r, a')], by simp [hevents, opened, cycle]⟩

theorem cycles_of_phase (h : phaseOf t trace = some phase) :
    ∃ finished : List (ρ × α),
      threadEvents t trace = finished.flatMap (cycle t) ++ opened t phase := by
  induction trace using List.reverseRecOn generalizing phase with
  | nil =>
    cases h
    exact ⟨[], rfl⟩
  | append_singleton trace e ih =>
    by_cases he : e.thread = t
    · have hsplit : threadEvents t (trace ++ [e]) = threadEvents t trace ++ [e] := by
        simp [threadEvents, he]
      rw [phaseOf, hsplit, foldlM_append] at h
      obtain ⟨before, hbefore, hlast⟩ := bind_eq_some_iff.mp h
      obtain ⟨finished, hfinished⟩ := ih hbefore
      rw [hsplit]
      exact cycles_of_next hfinished he (by simpa using hlast)
    · rw [phaseOf_append_other he] at h
      obtain ⟨finished, hfinished⟩ := ih h
      have hother : threadEvents t [e] = [] := threadEvents_of_other (by simpa using he)
      refine ⟨finished, ?_⟩
      rw [threadEvents_append, hother, append_nil]
      exact hfinished

end Phases

/-! ### The sequential object -/

section Objects

variable (step : σ → ρ → α × σ) (init : σ)

def requests (trace : List (Event τ ρ α)) : List ρ := (trace.filterMap Event.effect?).map Prod.fst

def results (trace : List (Event τ ρ α)) : List α := (trace.filterMap Event.effect?).map Prod.snd

/-- The object answers the requests, in the order in which they take effect, as the trace
says. -/
def Legal (trace : List (Event τ ρ α)) : Prop :=
  (answerAll step init (requests trace)).1 = results trace

def stateAfter (trace : List (Event τ ρ α)) : σ := (answerAll step init (requests trace)).2

/-- Moments of effect can be added to the calls and returns such that every operation takes
effect once, between its call and its return, and the answers are those of the object. -/
def Linearizable [DecidableEq τ] [DecidableEq ρ] [DecidableEq α] (history : List (Event τ ρ α)) :
    Prop :=
  ∃ trace : List (Event τ ρ α), trace.filter Event.visible = history ∧
    (∀ t, (phaseOf t trace).isSome = true) ∧ Legal step init trace

/-- Since its last event, the thread has seen a moment at which the object satisfied `P`. -/
def Seen (t : τ) (P : σ → Prop) (trace : List (Event τ ρ α)) : Prop :=
  ∃ pre post, trace = pre ++ post ∧ (∀ e ∈ post, e.thread ≠ t) ∧ P (stateAfter step init pre)

variable {step init} {t u : τ} {r : ρ} {a : α} {e : Event τ ρ α} {P : σ → Prop}
  {pre post trace : List (Event τ ρ α)}

theorem requests_append : requests (pre ++ post) = requests pre ++ requests post := by
  simp [requests]

theorem results_append : results (pre ++ post) = results pre ++ results post := by
  simp [results]

theorem requests_cons_effect : requests (.effect t r a :: post) = r :: requests post := rfl

theorem results_cons_effect : results (.effect t r a :: post) = a :: results post := rfl

theorem requests_of_visible (h : e.visible = true) : requests [e] = [] := by
  cases e with
  | invoke t r => rfl
  | effect t r a => cases h
  | respond t a => rfl

theorem results_of_visible (h : e.visible = true) : results [e] = [] := by
  cases e with
  | invoke t r => rfl
  | effect t r a => cases h
  | respond t a => rfl

/-- Calls and returns do not change the object. -/
theorem stateAfter_visible (h : e.visible = true) :
    stateAfter step init (trace ++ [e]) = stateAfter step init trace := by
  rw [stateAfter, requests_append, requests_of_visible h, append_nil, stateAfter]

theorem Legal.visible (h : Legal step init trace) (he : e.visible = true) :
    Legal step init (trace ++ [e]) := by
  rw [Legal, requests_append, results_append, requests_of_visible he, results_of_visible he,
    append_nil, append_nil]
  exact h

theorem stateAfter_effect :
    stateAfter step init (trace ++ [.effect t r a]) = (step (stateAfter step init trace) r).2 := by
  rw [stateAfter, requests_append, answerAll_append]
  rfl

theorem Legal.effect (h : Legal step init trace)
    (ha : (step (stateAfter step init trace) r).1 = a) :
    Legal step init (trace ++ [.effect t r a]) := by
  rw [Legal, requests_append, results_append, answerAll_append, h, ← ha]
  rfl

/-- An operation that leaves the object as it is can be added in the past. -/
theorem stateAfter_insert (h : step (stateAfter step init pre) r = (a, stateAfter step init pre)) :
    stateAfter step init (pre ++ .effect t r a :: post) = stateAfter step init (pre ++ post) := by
  rw [stateAfter, stateAfter, requests_append, requests_append, requests_cons_effect,
    answerAll_append, answerAll_append, answerAll_cons]
  change (answerAll step (step (stateAfter step init pre) r).2 (requests post)).2 = _
  rw [h]
  rfl

theorem Legal.insert (hlegal : Legal step init (pre ++ post))
    (h : step (stateAfter step init pre) r = (a, stateAfter step init pre)) :
    Legal step init (pre ++ .effect t r a :: post) := by
  unfold Legal at hlegal ⊢
  rw [requests_append, answerAll_append, results_append] at hlegal
  have hlength : (answerAll step init (requests pre)).1.length = (results pre).length := by
    rw [length_answerAll, requests, results, length_map, length_map]
  obtain ⟨hpre, hpost⟩ := append_inj hlegal hlength
  rw [requests_append, results_append, requests_cons_effect, results_cons_effect,
    answerAll_append, hpre, answerAll_cons]
  change results pre ++ ((step (stateAfter step init pre) r).1 ::
    (answerAll step (step (stateAfter step init pre) r).2 (requests post)).1) = _
  rw [h]
  exact congrArg (results pre ++ a :: ·) hpost

/-- Each operation gets the answer of the object at the moment of its effect. -/
theorem Legal.answer (h : Legal step init (pre ++ .effect t r a :: post)) :
    (step (stateAfter step init pre) r).1 = a := by
  unfold Legal at h
  rw [requests_append, answerAll_append, results_append, requests_cons_effect,
    results_cons_effect, answerAll_cons] at h
  have hlength : (answerAll step init (requests pre)).1.length = (results pre).length := by
    rw [length_answerAll, requests, results, length_map, length_map]
  exact (List.cons.inj (append_inj h hlength).2).1

theorem Seen.now (h : P (stateAfter step init trace)) : Seen step init t P trace :=
  ⟨trace, [], (append_nil trace).symm, forall_mem_nil _, h⟩

theorem Seen.append (h : Seen step init t P trace) (he : e.thread ≠ t) :
    Seen step init t P (trace ++ [e]) := by
  obtain ⟨pre, post, rfl, hpost, hP⟩ := h
  refine ⟨pre, post ++ [e], append_assoc pre post [e], fun x hx => ?_, hP⟩
  rcases mem_append.mp hx with hx | hx
  · exact hpost x hx
  · rwa [mem_singleton.mp hx]

/-- What a thread has seen it has still seen when an operation of another thread, that leaves
the object as it is, is added. -/
theorem Seen.insert (hseen : Seen step init u P (pre ++ post)) (htu : t ≠ u)
    (h : step (stateAfter step init pre) r = (a, stateAfter step init pre)) :
    Seen step init u P (pre ++ .effect t r a :: post) := by
  obtain ⟨pre', post', hsplit, hpost', hP⟩ := hseen
  rcases append_eq_append_iff.mp hsplit with ⟨mid, rfl, rfl⟩ | ⟨mid, rfl, rfl⟩
  · refine ⟨pre ++ .effect t r a :: mid, post', ?_, hpost', ?_⟩
    · rw [append_assoc, cons_append]
    · rwa [stateAfter_insert h]
  · refine ⟨pre', mid ++ .effect t r a :: post, append_assoc _ _ _, fun e he => ?_, hP⟩
    rcases mem_append.mp he with he | he
    · exact hpost' e (mem_append_left post he)
    · rcases mem_cons.mp he with rfl | he
      · exact htu
      · exact hpost' e (mem_append_right mid he)

end Objects

end SmcSim.Linearizability
