import Mathlib.Data.Option.Basic
import Mathlib.Data.Nat.Notation

/-!
# Programs that call on shared state one command at a time

A program is a well-founded tree of commands. The same tree has two readings: it
is run to its end by a handler, and it is taken one command at a time when other
parties act between two of its commands. A `CommandSpec` gives every command its
weakest precondition over ghost worlds; `wp` extends it to programs. Both readings
are sound for `wp` through one relation between states and worlds, so a program is
verified once and used sequentially and concurrently.

A program that leaves its defined behaviour, or a loop that exceeds its bound, is
`stuck`: it has no run, and no total specification holds of it.
-/

namespace SmcSim.EffectPrograms

universe u v

/-- A program issuing commands `o : Op` and receiving answers in `Res o`. -/
inductive Prog (Op : Type) (Res : Op → Type) (α : Type) where
  | ret (a : α)
  | call (o : Op) (k : Res o → Prog Op Res α)
  | stuck

variable {Op : Type} {Res : Op → Type} {α β σ : Type}

namespace Prog

def bind (p : Prog Op Res α) (f : α → Prog Op Res β) : Prog Op Res β :=
  match p with
  | .ret a => f a
  | .call o k => .call o (fun r => (k r).bind f)
  | .stuck => .stuck

instance : Monad (Prog Op Res) where
  pure := .ret
  bind := bind

/-- Repeat `body` until it leaves with `.inr`, at most `fuel` times. -/
def loop (body : σ → Prog Op Res (σ ⊕ α)) : ℕ → σ → Prog Op Res α
  | 0, _ => .stuck
  | fuel + 1, s => (body s).bind fun r =>
      match r with
      | .inl s' => loop body fuel s'
      | .inr a => .ret a

/-- Count upwards from `i`, `count` times. -/
def forUp (body : ℕ → σ → Prog Op Res σ) : ℕ → ℕ → σ → Prog Op Res σ
  | 0, _, s => .ret s
  | count + 1, i, s => (body i s).bind (forUp body count (i + 1))

/-- Count downwards from `count - 1` to `0`. -/
def forDown (body : ℕ → σ → Prog Op Res σ) : ℕ → σ → Prog Op Res σ
  | 0, s => .ret s
  | count + 1, s => (body count s).bind (forDown body count)

@[simp] theorem bind_eq (p : Prog Op Res α) (f : α → Prog Op Res β) : p.bind f = (p >>= f) := rfl

@[simp] theorem call_bind (o : Op) (k : Res o → Prog Op Res α) (f : α → Prog Op Res β) :
    (Prog.call o k >>= f) = .call o (fun r => k r >>= f) := rfl

end Prog

/-- A handler answers a command and moves the state; `none` is undefined behaviour. -/
abbrev Handler (Op : Type) (Res : Op → Type) (S : Type u) :=
  (o : Op) → S → Option (Res o × S)

namespace Prog

variable {S : Type u}

def run (h : Handler Op Res S) : Prog Op Res α → S → Option (α × S)
  | .ret a, s => some (a, s)
  | .call o k, s => (h o s).bind (fun r => run h (k r.1) r.2)
  | .stuck, _ => none

@[simp] theorem run_call (h : Handler Op Res S) (o : Op) (k : Res o → Prog Op Res α) (s : S) :
    run h (.call o k) s = (h o s).bind (fun r => run h (k r.1) r.2) := rfl

end Prog

/-- Weakest preconditions of single commands over ghost worlds. `onStuck` says
whether the specification tolerates a program that gets stuck. -/
structure CommandSpec (Op : Type) (Res : Op → Type) (W : Type v) where
  pre : (o : Op) → W → (Res o → W → Prop) → Prop
  mono : ∀ o w (Q Q' : Res o → W → Prop), (∀ r w', Q r w' → Q' r w') → pre o w Q → pre o w Q'
  onStuck : Prop

namespace CommandSpec

variable {W : Type v} (c : CommandSpec Op Res W)

/-- The weakest precondition of a program. -/
def wp : Prog Op Res α → W → (α → W → Prop) → Prop
  | .ret a, w, Q => Q a w
  | .call o k, w, Q => c.pre o w (fun r w' => wp (k r) w' Q)
  | .stuck, _, _ => c.onStuck

@[simp] theorem wp_ret (a : α) (w : W) (Q : α → W → Prop) : c.wp (.ret a) w Q ↔ Q a w := .rfl

@[simp] theorem wp_pure (a : α) (w : W) (Q : α → W → Prop) :
    c.wp (pure a) w Q ↔ Q a w := .rfl

@[simp] theorem wp_call (o : Op) (k : Res o → Prog Op Res α) (w : W) (Q : α → W → Prop) :
    c.wp (.call o k) w Q ↔ c.pre o w (fun r w' => c.wp (k r) w' Q) := .rfl

@[simp] theorem wp_bind (p : Prog Op Res α) (f : α → Prog Op Res β) (w : W)
    (Q : β → W → Prop) :
    c.wp (p >>= f) w Q ↔ c.wp p w (fun a w' => c.wp (f a) w' Q) := by
  induction p generalizing w with
  | ret | stuck => exact .rfl
  | call o k ih =>
    have hk : (fun r w' => c.wp (k r >>= f) w' Q) =
        (fun r w' => c.wp (k r) w' (fun a w'' => c.wp (f a) w'' Q)) := by
      funext r w'
      exact propext (ih r w')
    rw [Prog.call_bind, wp_call, wp_call, hk]

section

variable {c} {p : Prog Op Res α} {f : α → Prog Op Res β} {w : W} {Q Q' : α → W → Prop}
variable {R : β → W → Prop}

theorem wp_mono (h : c.wp p w Q) (hQ : ∀ a w', Q a w' → Q' a w') : c.wp p w Q' := by
  induction p generalizing w with
  | ret a => exact hQ a w h
  | call o k ih => exact c.mono o w _ _ (fun r w' hr => ih r hr) h
  | stuck => exact h

theorem wp_seq (h : c.wp p w (fun a w' => c.wp (f a) w' R)) : c.wp (p >>= f) w R :=
  (c.wp_bind p f w R).mpr h

theorem wp_then (h : c.wp p w Q) (hQ : ∀ a w', Q a w' → c.wp (f a) w' R) : c.wp (p >>= f) w R :=
  wp_seq (wp_mono h hQ)

end

/-- The rule for bounded loops: an invariant with a rank that every further round lowers. -/
theorem wp_loop_of_rank {body : σ → Prog Op Res (σ ⊕ α)} {Q : α → W → Prop}
    (I : ℕ → σ → W → Prop)
    (hbody : ∀ n s w, I n s w →
      c.wp (body s) w (fun r w' => r.elim (fun s' => ∃ n' < n, I n' s' w') (fun a => Q a w'))) :
    ∀ (fuel n : ℕ) (s : σ) (w : W), I n s w → n < fuel → c.wp (Prog.loop body fuel s) w Q := by
  intro fuel
  induction fuel with
  | zero => intro n s w _ hf; omega
  | succ fuel ih =>
    intro n s w hI hf
    simp only [Prog.loop, Prog.bind_eq, wp_bind]
    refine wp_mono (hbody n s w hI) ?_
    intro r w' hr
    cases r with
    | inl s' =>
      obtain ⟨n', hlt, hI'⟩ := hr
      exact ih n' s' w' hI' (by omega)
    | inr a => exact hr

/-- The rule with a measure of the state. -/
theorem wp_loop {body : σ → Prog Op Res (σ ⊕ α)} {Q : α → W → Prop}
    (I : σ → W → Prop) (μ : σ → W → ℕ)
    (hbody : ∀ s w, I s w → c.wp (body s) w (fun r w' =>
      match r with
      | .inl s' => I s' w' ∧ μ s' w' < μ s w
      | .inr a => Q a w')) :
    ∀ (fuel : ℕ) (s : σ) (w : W), I s w → μ s w < fuel → c.wp (Prog.loop body fuel s) w Q := by
  intro fuel s w hI hf
  refine c.wp_loop_of_rank (fun n s w => I s w ∧ μ s w = n) ?_ fuel (μ s w) s w ⟨hI, rfl⟩ hf
  rintro _ s w ⟨hI, rfl⟩
  refine wp_mono (hbody s w hI) (fun r w' hr => ?_)
  cases r with
  | inl s' => exact ⟨μ s' w', hr.2, hr.1, rfl⟩
  | inr a => exact hr

/-- The rule for upward loops. -/
theorem wp_forUp {body : ℕ → σ → Prog Op Res σ} (I : ℕ → σ → W → Prop) {hi : ℕ}
    (hbody : ∀ i s w, i < hi → I i s w → c.wp (body i s) w (I (i + 1))) :
    ∀ (count i : ℕ) (s : σ) (w : W), i + count = hi → I i s w →
      c.wp (Prog.forUp body count i s) w (I hi) := by
  intro count
  induction count with
  | zero =>
    intro i s w he hI
    have hi' : i = hi := by omega
    exact hi' ▸ hI
  | succ count ih =>
    intro i s w he hI
    simp only [Prog.forUp, Prog.bind_eq, wp_bind]
    exact wp_mono (hbody i s w (by omega) hI) (fun s' w' h' => ih (i + 1) s' w' (by omega) h')

/-- The rule for downward loops. -/
theorem wp_forDown {body : ℕ → σ → Prog Op Res σ} (I : ℕ → σ → W → Prop)
    (hbody : ∀ i s w, I (i + 1) s w → c.wp (body i s) w (I i)) :
    ∀ (count : ℕ) (s : σ) (w : W), I count s w → c.wp (Prog.forDown body count s) w (I 0) := by
  intro count
  induction count with
  | zero => intro s w hI; exact hI
  | succ count ih =>
    intro s w hI
    simp only [Prog.forDown, Prog.bind_eq, wp_bind]
    exact wp_mono (hbody count s w hI) (fun s' w' h' => ih s' w' h')

variable {S : Type u}

/-- The handler meets the command specification through `rel`. A command without an
answer is allowed only where the specification tolerates stuck programs. -/
def Sound (h : Handler Op Res S) (rel : S → W → Prop) : Prop :=
  ∀ o s w Q, rel s w → c.pre o w Q →
    (∃ r s' w', h o s = some (r, s') ∧ Q r w' ∧ rel s' w') ∨ (h o s = none ∧ c.onStuck)

section

variable {h : Handler Op Res S} {rel : S → W → Prop} {p : Prog Op Res α} {s s' : S} {w : W} {a : α}
variable {Q : α → W → Prop} (hs : c.Sound h rel)
include hs

/-- One answered command of a verified program leaves a verified program. -/
theorem wp_step {o : Op} {k : Res o → Prog Op Res α} {r : Res o} (hr : rel s w)
    (hp : c.wp (.call o k) w Q) (ho : h o s = some (r, s')) :
    ∃ w', rel s' w' ∧ c.wp (k r) w' Q := by
  rcases hs o s w _ hr hp with ⟨r', t, w', ho', hk, hr'⟩ | ⟨hn, _⟩
  · cases ho.symm.trans ho'
    exact ⟨w', hr', hk⟩
  · cases ho.symm.trans hn

/-- A verified program runs to its end, in a state related to a final world. -/
theorem run_of_wp (htotal : ¬ c.onStuck) (hr : rel s w) (hp : c.wp p w Q) :
    ∃ a s' w', p.run h s = some (a, s') ∧ Q a w' ∧ rel s' w' := by
  induction p generalizing s w with
  | ret a => exact ⟨a, s, w, rfl, hp, hr⟩
  | call o k ih =>
    rcases hs o s w _ hr hp with ⟨r, s', w', ho, hk, hr'⟩ | ⟨_, hstuck⟩
    · obtain ⟨a, t, w'', ht, hq, hr''⟩ := ih r hr' hk
      exact ⟨a, t, w'', by simp [ho, ht], hq, hr''⟩
    · exact absurd hstuck htotal
  | stuck => exact absurd hp htotal

/-- Whatever a verified program returns has been verified. -/
theorem post_of_run (hr : rel s w) (hp : c.wp p w Q) (hrun : p.run h s = some (a, s')) :
    ∃ w', Q a w' ∧ rel s' w' := by
  induction p generalizing s w with
  | ret b =>
    cases hrun
    exact ⟨w, hp, hr⟩
  | call o k ih =>
    obtain ⟨⟨r, t⟩, ho, hrest⟩ := Option.bind_eq_some_iff.mp hrun
    obtain ⟨w', hr', hp'⟩ := c.wp_step hs hr hp ho
    exact ih r hr' hp' hrest
  | stuck => cases hrun

end

def tolerating (P : Prop) : CommandSpec Op Res W := { c with onStuck := P }

def ofHandler (h : Handler Op Res S) : CommandSpec Op Res S where
  pre o s Q := ∃ r s', h o s = some (r, s') ∧ Q r s'
  mono _ _ _ _ hQ := fun ⟨r, s', ho, hq⟩ => ⟨r, s', ho, hQ r s' hq⟩
  onStuck := False

theorem ofHandler_tolerating_sound (h : Handler Op Res S) (P : Prop) :
    ((ofHandler h).tolerating P).Sound h Eq := by
  rintro o s _ Q rfl ⟨r, s', ho, hq⟩
  exact .inl ⟨r, s', s', ho, hq, rfl⟩

theorem ofHandler_sound (h : Handler Op Res S) : (ofHandler h).Sound h Eq :=
  ofHandler_tolerating_sound h False

end CommandSpec

end SmcSim.EffectPrograms
