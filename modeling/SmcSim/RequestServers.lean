import Mathlib.Data.List.Basic
import Mathlib.Data.Option.Basic

/-!
# Servers that answer a stream of requests

An object answers a request and moves to its next state. A server does the same and
may fail. A server that simulates an object one request at a time gives the answers
of the object to every stream of requests the object allows.
-/

namespace SmcSim.RequestServers

variable {ρ α β σ τ M : Type}

/-- Answers of an object to a stream of requests, and its state afterwards. -/
def answerAll (step : σ → ρ → α × σ) : σ → List ρ → List α × σ
  | s, [] => ([], s)
  | s, r :: rs => ((step s r).1 :: (answerAll step (step s r).2 rs).1,
      (answerAll step (step s r).2 rs).2)

/-- Answers of a server, and its state afterwards, unless it fails on the way. -/
def serveAll (serve : ρ → M → Option (β × M)) : List ρ → M → Option (List β × M)
  | [], m => some ([], m)
  | r :: rs, m => (serve r m).bind fun a => (serveAll serve rs a.2).map fun b => (a.1 :: b.1, b.2)

/-- Every request of the stream is allowed in the state it meets. -/
def Allowed (step : σ → ρ → α × σ) (ok : σ → ρ → Prop) (s : σ) (rs : List ρ) : Prop :=
  ∀ pre r post, rs = pre ++ r :: post → ok (answerAll step s pre).2 r

variable {step : σ → ρ → α × σ} {ok ok' : σ → ρ → Prop}

@[simp] theorem answerAll_nil (s : σ) : answerAll step s [] = ([], s) := rfl

@[simp] theorem answerAll_cons (s : σ) (r : ρ) (rs : List ρ) :
    answerAll step s (r :: rs) = ((step s r).1 :: (answerAll step (step s r).2 rs).1,
      (answerAll step (step s r).2 rs).2) := rfl

theorem length_answerAll (s : σ) (rs : List ρ) : (answerAll step s rs).1.length = rs.length := by
  induction rs generalizing s with
  | nil => rfl
  | cons r rs ih => simp [ih]

theorem answerAll_append (s : σ) (xs ys : List ρ) :
    answerAll step s (xs ++ ys) =
      ((answerAll step s xs).1 ++ (answerAll step (answerAll step s xs).2 ys).1,
        (answerAll step (answerAll step s xs).2 ys).2) := by
  induction xs generalizing s with
  | nil => rfl
  | cons x xs ih => simp [ih]

theorem answerAll_map {ρ' : Type} (f : ρ' → ρ) (s : σ) (rs : List ρ') :
    answerAll step s (rs.map f) = answerAll (fun s r => step s (f r)) s rs := by
  induction rs generalizing s with
  | nil => rfl
  | cons r rs ih => simp [ih]

variable {s : σ} {rs : List ρ}

theorem Allowed.of_map {ρ' : Type} {f : ρ' → ρ} {rs : List ρ'}
    (h : Allowed step ok s (rs.map f)) :
    Allowed (fun s r => step s (f r)) (fun s r => ok s (f r)) s rs := by
  rintro pre r post rfl
  rw [← answerAll_map]
  exact h (pre.map f) (f r) (post.map f) (by simp)

@[simp] theorem allowed_nil (s : σ) : Allowed step ok s [] := by
  intro pre r post he
  simp at he

theorem allowed_cons {r : ρ} :
    Allowed step ok s (r :: rs) ↔ ok s r ∧ Allowed step ok (step s r).2 rs := by
  constructor
  · intro h
    refine ⟨h [] r rs rfl, ?_⟩
    rintro pre r' post rfl
    exact h (r :: pre) r' post rfl
  · rintro ⟨hr, hrs⟩ pre r' post he
    cases pre with
    | nil =>
      cases he
      exact hr
    | cons x pre =>
      cases he
      exact hrs pre r' post rfl

theorem Allowed.of_append {xs ys : List ρ} (h : Allowed step ok s (xs ++ ys)) :
    Allowed step ok s xs := by
  rintro pre r post rfl
  exact h pre r (post ++ ys) (by simp)

theorem allowed_concat {r : ρ} :
    Allowed step ok s (rs ++ [r]) ↔ Allowed step ok s rs ∧ ok (answerAll step s rs).2 r := by
  constructor
  · intro h
    exact ⟨h.of_append, h rs r [] rfl⟩
  · rintro ⟨hrs, hr⟩ pre r' post he
    rcases List.eq_nil_or_concat post with rfl | ⟨post', last, rfl⟩
    · obtain ⟨rfl, hr'⟩ := List.append_inj' he rfl
      cases hr'
      exact hr
    · have he' : rs ++ [r] = (pre ++ r' :: post') ++ [last] := by simpa using he
      exact hrs pre r' post' (List.append_inj' he' rfl).1

/-- What allowed requests keep holds after a stream of them. -/
theorem Allowed.invariant (h : Allowed step ok s rs) {I : σ → Prop}
    (hI : I s) (hstep : ∀ s r, I s → ok s r → I (step s r).2) : I (answerAll step s rs).2 := by
  induction rs generalizing s with
  | nil => exact hI
  | cons r rs ih =>
    obtain ⟨hr, hrs⟩ := allowed_cons.mp h
    exact ih hrs (hstep s r hI hr)

theorem Allowed.mono (h : Allowed step ok s rs)
    (hok : ∀ s, ∀ r ∈ rs, ok s r → ok' s r) : Allowed step ok' s rs := by
  rintro pre r post rfl
  exact hok _ r (by simp) (h pre r post rfl)

theorem answerAll_of_image {step' : τ → ρ → α × τ} (f : σ → τ)
    (hstep : ∀ s r, step' (f s) r = ((step s r).1, f (step s r).2)) (s : σ) (rs : List ρ) :
    answerAll step' (f s) rs = ((answerAll step s rs).1, f (answerAll step s rs).2) := by
  induction rs generalizing s with
  | nil => rfl
  | cons r rs ih => simp [hstep, ih]

variable {serve : ρ → M → Option (β × M)}

@[simp] theorem serveAll_nil (m : M) : serveAll serve [] m = some ([], m) := rfl

@[simp] theorem serveAll_cons (r : ρ) (rs : List ρ) (m : M) :
    serveAll serve (r :: rs) m = (serve r m).bind fun a =>
      (serveAll serve rs a.2).map fun b => (a.1 :: b.1, b.2) := rfl

theorem serveAll_append (xs ys : List ρ) (m : M) :
    serveAll serve (xs ++ ys) m = (serveAll serve xs m).bind fun a =>
      (serveAll serve ys a.2).map fun b => (a.1 ++ b.1, b.2) := by
  induction xs generalizing m with
  | nil =>
    cases h : serveAll serve ys m <;> simp [h]
  | cons x xs ih =>
    cases hx : serve x m with
    | none => simp [hx]
    | some a =>
      cases hxs : serveAll serve xs a.2 with
      | none => simp [hx, ih, hxs]
      | some b => simp [hx, ih, hxs, Function.comp_def]

/-- One request after a stream that was served. -/
theorem serveAll_concat {xs : List ρ} {m m' : M} {as : List β}
    (h : serveAll serve xs m = some (as, m')) (r : ρ) :
    serveAll serve (xs ++ [r]) m = (serve r m').map fun a => (as ++ [a.1], a.2) := by
  rw [serveAll_append, h]
  cases hr : serve r m' <;> simp [hr]

theorem serveAll_of_simulation {encode : α → β} {Inv : σ → M → Prop}
    (hstep : ∀ s r m, Inv s m → ok s r → ∃ m', serve r m = some (encode (step s r).1, m') ∧
      Inv (step s r).2 m')
    {m : M} (hinv : Inv s m) (h : Allowed step ok s rs) :
    ∃ m', serveAll serve rs m = some ((answerAll step s rs).1.map encode, m') ∧
      Inv (answerAll step s rs).2 m' := by
  induction rs generalizing s m with
  | nil => exact ⟨m, rfl, hinv⟩
  | cons r rs ih =>
    obtain ⟨hr, hrs⟩ := allowed_cons.mp h
    obtain ⟨m₁, hserve, hinv₁⟩ := hstep s r m hinv hr
    obtain ⟨m₂, hall, hinv₂⟩ := ih hinv₁ hrs
    exact ⟨m₂, by simp [hserve, hall], hinv₂⟩

end SmcSim.RequestServers
