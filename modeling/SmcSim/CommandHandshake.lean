import SmcSim.Interleavings
import Mathlib.Data.List.Basic

/-!
# The command handshake between the host and the PIM

`start_computation` and `wait_for_completion` of the host interface, the resident loop
`c_entry` of the PIM, and the device registers between them. Each access to a register
is a step of its own. An interrupt is posted and cleared at once, so it only wakes a PIM
that waits in `wfi`.
-/

namespace SmcSim.CommandHandshake
open Interleavings List Option

/-! ### The PIM -/

/-- Values of `PIM_COMMAND_REG`. -/
inductive Command where
  | nop
  | halt
  | demo
  | runKernel
  | illegal (code : ℕ)
  deriving DecidableEq, Repr

/-- Values of `PIM_STATUS_REG`, with `reset` before the PIM first writes it. -/
inductive Status where
  | reset
  | sleep
  | busy
  | done
  deriving DecidableEq, Repr

/-- The next register access of `c_entry`; `κ` are the positions in the code that a
command executes. -/
inductive Resident (κ : Type) where
  | initStatus
  | initCommand
  | goingToSleep
  | waiting
  | woken
  | assertingSleep
  | settingBusy
  | executing
  | running (k : κ)
  | assertingBusy
  | assertingCommand
  | settingDone
  | awaitingNop
  | settingSleep
  | exited
  deriving DecidableEq, Repr

structure Pim (κ μ : Type) where
  command : Command
  status : Status
  position : Resident κ
  memory : μ

/-- The code that `execute_command` runs: where it enters for a command, unless the
command is an error, and its steps, `none` when it returns. -/
structure Offload (κ μ : Type) where
  enter : Command → μ → Option (κ × μ)
  step : κ → μ → Option κ × μ

/-- A step of the resident loop. Without `DEBUG_RESIDENT` the assertions do nothing; an
error exits the simulator. -/
def Pim.step {κ μ : Type} (debugResident : Bool) (K : Offload κ μ) (p : Pim κ μ) :
    Option (Pim κ μ) :=
  match p.position with
  | .initStatus => some { p with status := .sleep, position := .initCommand }
  | .initCommand => some { p with command := .nop, position := .goingToSleep }
  | .goingToSleep => some { p with position := .waiting }
  | .waiting => none
  | .woken =>
      if p.command ≠ .nop then some { p with position := .assertingSleep }
      else some { p with position := .exited }
  | .assertingSleep =>
      if debugResident ∧ p.status ≠ .sleep then some { p with position := .exited }
      else some { p with position := .settingBusy }
  | .settingBusy => some { p with status := .busy, position := .executing }
  | .executing =>
      match K.enter p.command p.memory with
      | some (k, m) => some { p with position := .running k, memory := m }
      | none => some { p with position := .exited }
  | .running k =>
      match K.step k p.memory with
      | (some k', m) => some { p with position := .running k', memory := m }
      | (none, m) => some { p with position := .assertingBusy, memory := m }
  | .assertingBusy =>
      if debugResident ∧ p.status ≠ .busy then some { p with position := .exited }
      else some { p with position := .assertingCommand }
  | .assertingCommand =>
      if debugResident ∧ p.command = .nop then some { p with position := .exited }
      else some { p with position := .settingDone }
  | .settingDone => some { p with status := .done, position := .awaitingNop }
  | .awaitingNop =>
      if p.command ≠ .nop then some p else some { p with position := .settingSleep }
  | .settingSleep => some { p with status := .sleep, position := .goingToSleep }
  | .exited => none

/-- A write of `PIM_INTR_TRIGGER` to `PIM_INTR_REG`. -/
def Pim.interrupt {κ μ : Type} [DecidableEq κ] (p : Pim κ μ) : Pim κ μ :=
  if p.position = .waiting then { p with position := .woken } else p

/-! ### Commands that terminate -/

/-- The commands whose execution has begun and those whose execution has ended. -/
structure Log where
  started : List Command
  finished : List Command
  deriving DecidableEq, Repr

def Command.executable : Command → Bool
  | .demo | .runKernel => true
  | _ => false

/-- Commands of which only the number of steps is known. -/
def terminating (duration : ℕ → ℕ) : Offload (Command × ℕ) Log where
  enter c log :=
    if c.executable then
      some ((c, duration log.started.length), { log with started := log.started ++ [c] })
    else
      none
  step k log :=
    match k.2 with
    | n + 1 => (some (k.1, n), log)
    | 0 => (none, { log with finished := log.finished ++ [k.1] })

/-! ### The host -/

/-- The next register access of the host, in `start_computation` up to `wakingUp`, then
in `wait_for_completion`. -/
inductive HostPosition where
  | checkingSleep
  | givingCommand
  | wakingUp
  | checkingDone
  | givingNop
  deriving DecidableEq, Repr

/-- The host with the commands still to issue, those it has given, and the number of
waits that have returned. -/
structure Host where
  position : HostPosition
  todo : List Command
  given : List Command
  returned : ℕ
  deriving DecidableEq, Repr

structure State where
  host : Host
  pim : Pim (Command × ℕ) Log

inductive Party where
  | host
  | pim
  deriving DecidableEq, Repr

def hostStep (s : State) : Option State :=
  let h := s.host
  match h.position, h.todo with
  | .checkingSleep, [] => none
  | .checkingSleep, _ :: _ =>
      if s.pim.status = .sleep then some { s with host := { h with position := .givingCommand } }
      else some s
  | .givingCommand, [] => none
  | .givingCommand, c :: rest =>
      some ⟨⟨.wakingUp, rest, h.given ++ [c], h.returned⟩, { s.pim with command := c }⟩
  | .wakingUp, _ => some ⟨{ h with position := .checkingDone }, s.pim.interrupt⟩
  | .checkingDone, _ =>
      if s.pim.status = .done then some { s with host := { h with position := .givingNop } }
      else some s
  | .givingNop, _ =>
      some ⟨{ h with position := .checkingSleep, returned := h.returned + 1 },
        { s.pim with command := .nop }⟩

def step (debugResident : Bool) (duration : ℕ → ℕ) (s : State) : Party → Option State
  | .host => if s.pim.position = .exited then none else hostStep s
  | .pim => (s.pim.step debugResident (terminating duration)).map (fun p => { s with pim := p })

/-- The PIM enters `c_entry`, the host its first `start_computation`. -/
def start (commands : List Command) (command : Command) : State :=
  ⟨⟨.checkingSleep, commands, [], 0⟩, ⟨command, .reset, .initStatus, ⟨[], []⟩⟩⟩

/-! ### What the handshake promises -/

def Host.Interrupted (h : Host) : Prop := h.position = .checkingDone ∨ h.position = .givingNop

def LostWakeUp (s : State) : Prop :=
  s.pim.position = .waiting ∧ s.pim.command ≠ .nop ∧ s.host.Interrupted

/-- The promises in one state. The executions begun are those of the first commands given,
in their order and each once. A wait that has returned has had its command executed, and
while the host waits the PIM alone executes the command, or exits on one it does not know. -/
structure Handshake (debugResident : Bool) (duration : ℕ → ℕ) (s : State) : Prop where
  not_lost : ¬ LostWakeUp s
  wakes_to_command : s.pim.position = .woken → s.pim.command ≠ .nop
  starts_from_sleep : s.pim.position = .assertingSleep ∨ s.pim.position = .settingBusy →
    s.pim.status = .sleep
  in_order : s.pim.memory.finished <+: s.pim.memory.started ∧
    s.pim.memory.started <+: s.host.given
  finished_before_return : s.host.returned ≤ s.pim.memory.finished.length
  completes : s.host.Interrupted → ∃ s',
    Reached (step debugResident duration) (fun _ p => p = .pim) s s' ∧ s'.host = s.host ∧
      (s'.pim.status = .done ∧ s'.pim.memory.finished = s.host.given ∨
        s'.pim.position = .exited ∧ ∃ c, s.host.given.getLast? = some c ∧ c.executable = false)

/-- The interrupt is written while the PIM waits for it, and no command is given between
the two writes of `initialize_registers`. -/
def Timely (s : State) : Party → Prop
  | .host => (s.host.position = .wakingUp → s.pim.position = .waiting) ∧
      (s.host.position = .givingCommand → s.pim.position ≠ .initCommand)
  | .pim => True

instance (s : State) : (p : Party) → Decidable (Timely s p)
  | .host => inferInstanceAs (Decidable ((_ → _) ∧ (_ → _)))
  | .pim => inferInstanceAs (Decidable True)

/-! ### Phases -/

section Phases

variable {debugResident : Bool} {duration : ℕ → ℕ} {s s' : State}

def Settled (s : State) : Prop :=
  s.pim.memory = ⟨s.host.given, s.host.given⟩ ∧ s.host.returned = s.host.given.length

def Pending (s : State) (c : Command) : Prop :=
  ∃ before, s.host.given = before ++ [c] ∧ s.pim.memory = ⟨before, before⟩ ∧
    s.host.returned = before.length

def Underway (s : State) (c : Command) : Prop :=
  ∃ before, s.host.given = before ++ [c] ∧ s.pim.memory = ⟨before ++ [c], before⟩ ∧
    s.host.returned = before.length

def Executed (s : State) : Prop :=
  s.pim.memory = ⟨s.host.given, s.host.given⟩ ∧ s.host.returned + 1 = s.host.given.length

/-- What each position of the PIM says about the registers, the host and the commands. -/
def Phase (s : State) : Prop :=
  match s.pim.position with
  | .initStatus => s.pim.status = .reset ∧ s.host.position = .checkingSleep ∧ Settled s
  | .initCommand => s.pim.status = .sleep ∧
      (s.host.position = .checkingSleep ∨ s.host.position = .givingCommand) ∧ Settled s
  | .goingToSleep | .waiting => s.pim.status = .sleep ∧
      (s.pim.command = .nop ∧
          (s.host.position = .checkingSleep ∨ s.host.position = .givingCommand) ∧ Settled s ∨
        s.pim.command ≠ .nop ∧ s.host.position = .wakingUp ∧ Pending s s.pim.command)
  | .woken | .assertingSleep | .settingBusy => s.pim.status = .sleep ∧ s.pim.command ≠ .nop ∧
      s.host.position = .checkingDone ∧ Pending s s.pim.command
  | .executing => s.pim.status = .busy ∧ s.pim.command ≠ .nop ∧
      s.host.position = .checkingDone ∧ Pending s s.pim.command
  | .running k => s.pim.status = .busy ∧ s.pim.command ≠ .nop ∧
      s.host.position = .checkingDone ∧ Underway s k.1
  | .assertingBusy | .assertingCommand | .settingDone => s.pim.status = .busy ∧
      s.pim.command ≠ .nop ∧ s.host.position = .checkingDone ∧ Executed s
  | .awaitingNop => s.pim.status = .done ∧
      (s.pim.command ≠ .nop ∧ s.host.Interrupted ∧ Executed s ∨
        s.pim.command = .nop ∧ s.host.position = .checkingSleep ∧ Settled s)
  | .settingSleep => s.pim.status = .done ∧ s.pim.command = .nop ∧
      s.host.position = .checkingSleep ∧ Settled s
  | .exited => s.pim.status = .busy ∧ s.host.position = .checkingDone ∧
      ∃ c, c.executable = false ∧ Pending s c

section

variable (h : Phase s)
include h

theorem Phase.pim_step (hstep : step debugResident duration s .pim = some s') : Phase s' := by
  obtain ⟨p, hp, rfl⟩ := map_eq_some_iff.mp hstep
  obtain ⟨host, command, status, position, memory⟩ := s
  cases position with
  | initStatus =>
    cases hp
    exact ⟨rfl, .inl h.2.1, h.2.2⟩
  | initCommand =>
    cases hp
    exact ⟨h.1, .inl ⟨rfl, h.2⟩⟩
  | goingToSleep =>
    cases hp
    exact h
  | waiting => cases hp
  | woken =>
    simp only [Pim.step, if_pos h.2.1, some.injEq] at hp
    subst hp
    exact h
  | assertingSleep =>
    simp only [Pim.step, show status = .sleep from h.1, ne_eq, not_true_eq_false, and_false,
      if_false, some.injEq] at hp
    subst hp
    exact ⟨rfl, h.2⟩
  | settingBusy =>
    cases hp
    exact ⟨rfl, h.2⟩
  | executing =>
    obtain ⟨hstatus, hcommand, hhost, before, hgiven, hmemory, hreturned⟩ := h
    by_cases hc : command.executable
    · simp only [Pim.step, terminating, hc, if_true, some.injEq] at hp
      subst hp
      obtain rfl : memory = _ := hmemory
      exact ⟨hstatus, hcommand, hhost, before, hgiven, rfl, hreturned⟩
    · simp only [Pim.step, terminating, hc, Bool.false_eq_true, if_false, some.injEq] at hp
      subst hp
      exact ⟨hstatus, hhost, command, Bool.eq_false_iff.mpr hc, before, hgiven, hmemory, hreturned⟩
  | running k =>
    obtain ⟨hstatus, hcommand, hhost, before, hgiven, hmemory, hreturned⟩ := h
    obtain ⟨c, n⟩ := k
    obtain rfl : memory = _ := hmemory
    cases n with
    | succ n =>
      cases hp
      exact ⟨hstatus, hcommand, hhost, before, hgiven, rfl, hreturned⟩
    | zero =>
      cases hp
      refine ⟨hstatus, hcommand, hhost, ?_, ?_⟩
      · exact congrArg₂ Log.mk hgiven.symm hgiven.symm
      · have hlength := congrArg List.length hgiven
        simp only [length_append, length_singleton] at hlength
        exact hlength ▸ congrArg (· + 1) hreturned
  | assertingBusy =>
    simp only [Pim.step, show status = .busy from h.1, ne_eq, not_true_eq_false, and_false,
      if_false, some.injEq] at hp
    subst hp
    exact ⟨rfl, h.2⟩
  | assertingCommand =>
    simp only [Pim.step, show command ≠ .nop from h.2.1, and_false, if_false,
      some.injEq] at hp
    subst hp
    exact h
  | settingDone | settingSleep =>
    cases hp
    exact ⟨rfl, .inl ⟨h.2.1, .inl h.2.2.1, h.2.2.2⟩⟩
  | awaitingNop =>
    rcases h with ⟨hstatus, ⟨hcommand, h⟩ | ⟨hcommand, h⟩⟩
    · simp only [Pim.step, show command ≠ .nop from hcommand, ne_eq, not_false_eq_true, if_true,
        some.injEq] at hp
      subst hp
      exact ⟨hstatus, .inl ⟨hcommand, h⟩⟩
    · simp only [Pim.step, show command = .nop from hcommand, ne_eq, not_true_eq_false, if_false,
        some.injEq] at hp
      subst hp
      exact ⟨hstatus, rfl, h⟩
  | exited => cases hp

/-- No command is pending when the host sees the PIM asleep. -/
private theorem Phase.sleep_seen (hhost : s.host.position = .checkingSleep)
    (hsleep : s.pim.status = .sleep) :
    Phase { s with host := { s.host with position := .givingCommand } } := by
  obtain ⟨host, command, status, position, memory⟩ := s
  cases position with
  | initCommand => exact ⟨hsleep, .inr rfl, h.2.2⟩
  | goingToSleep | waiting =>
    rcases h.2 with ⟨hnop, -, hsettled⟩ | ⟨-, hwaking, -⟩
    · exact ⟨hsleep, .inl ⟨hnop, .inr rfl, hsettled⟩⟩
    · cases hhost.symm.trans hwaking
  | woken | assertingSleep | settingBusy => cases hhost.symm.trans h.2.2.1
  | _ => cases hsleep.symm.trans h.1

private theorem Phase.command_given {c : Command} {rest : List Command}
    (hhost : s.host.position = .givingCommand) (hpim : s.pim.position ≠ .initCommand)
    (hc : c ≠ .nop) :
    Phase ⟨⟨.wakingUp, rest, s.host.given ++ [c], s.host.returned⟩,
      { s.pim with command := c }⟩ := by
  obtain ⟨host, command, status, position, memory⟩ := s
  cases position with
  | goingToSleep | waiting =>
    rcases h with ⟨hsleep, ⟨-, -, hmemory, hreturned⟩ | ⟨-, hwaking, -⟩⟩
    · exact ⟨hsleep, .inr ⟨hc, rfl, _, rfl, hmemory, hreturned⟩⟩
    · cases hhost.symm.trans hwaking
  | _ => simp_all [Phase, Host.Interrupted] -- the host is not `givingCommand`

private theorem Phase.interrupted (hhost : s.host.position = .wakingUp)
    (hpim : s.pim.position = .waiting) :
    Phase ⟨{ s.host with position := .checkingDone }, s.pim.interrupt⟩ := by
  obtain ⟨host, command, status, position, memory⟩ := s
  obtain rfl : position = .waiting := hpim
  rcases h with ⟨hsleep, ⟨-, hearly | hearly, -⟩ | ⟨hcommand, -, hpending⟩⟩
  · cases hhost.symm.trans hearly
  · cases hhost.symm.trans hearly
  · exact ⟨hsleep, hcommand, rfl, hpending⟩

private theorem Phase.done_seen (hhost : s.host.position = .checkingDone)
    (hdone : s.pim.status = .done) :
    Phase { s with host := { s.host with position := .givingNop } } := by
  obtain ⟨host, command, status, position, memory⟩ := s
  cases position with
  | awaitingNop =>
    rcases h.2 with ⟨hcommand, -, hexecuted⟩ | ⟨-, hsleeping, -⟩
    · exact ⟨hdone, .inl ⟨hcommand, .inr rfl, hexecuted⟩⟩
    · cases hhost.symm.trans hsleeping
  | settingSleep => cases hhost.symm.trans h.2.2.1
  | _ => cases hdone.symm.trans h.1

private theorem Phase.nop_given (hhost : s.host.position = .givingNop) :
    Phase ⟨{ s.host with position := .checkingSleep, returned := s.host.returned + 1 },
      { s.pim with command := .nop }⟩ := by
  obtain ⟨host, command, status, position, memory⟩ := s
  cases position with
  | awaitingNop =>
    rcases h.2 with ⟨-, -, hexecuted⟩ | ⟨-, hsleeping, -⟩
    · exact ⟨h.1, .inr ⟨rfl, rfl, hexecuted⟩⟩
    · cases hhost.symm.trans hsleeping
  | _ => simp_all [Phase] -- the host is not `givingNop`

theorem Phase.host_step (hreal : ∀ c ∈ s.host.todo, c ≠ .nop) (hok : Timely s .host)
    (hstep : step debugResident duration s .host = some s') : Phase s' := by
  have hpim : s.pim.position ≠ .exited := by
    intro he
    simp [step, he] at hstep
  rw [step, if_neg hpim] at hstep
  cases hhost : s.host.position with
  | checkingSleep =>
    cases htodo : s.host.todo with
    | nil => simp [hostStep, hhost, htodo] at hstep
    | cons c rest =>
      by_cases hsleep : s.pim.status = .sleep
      · simp only [hostStep, hhost, htodo, hsleep, if_true, some.injEq] at hstep
        subst hstep
        exact htodo ▸ h.sleep_seen hhost hsleep
      · simp only [hostStep, hhost, htodo, hsleep, if_false, some.injEq] at hstep
        exact hstep ▸ h
  | givingCommand =>
    cases htodo : s.host.todo with
    | nil => simp [hostStep, hhost, htodo] at hstep
    | cons c rest =>
      simp only [hostStep, hhost, htodo, some.injEq] at hstep
      subst hstep
      exact h.command_given hhost (hok.2 hhost) (hreal c (htodo ▸ mem_cons_self))
  | wakingUp =>
    simp only [hostStep, hhost, some.injEq] at hstep
    subst hstep
    exact h.interrupted hhost (hok.1 hhost)
  | checkingDone =>
    by_cases hdone : s.pim.status = .done
    · simp only [hostStep, hhost, hdone, if_true, some.injEq] at hstep
      subst hstep
      exact h.done_seen hhost hdone
    · simp only [hostStep, hhost, hdone, if_false, some.injEq] at hstep
      exact hstep ▸ h
  | givingNop =>
    simp only [hostStep, hhost, some.injEq] at hstep
    subst hstep
    exact h.nop_given hhost

end

/-! ### Progress -/

/-- The steps of the PIM until the command it has been given is done. -/
def rank (duration : ℕ → ℕ) (s : State) : ℕ :=
  match s.pim.position with
  | .woken => duration s.pim.memory.started.length + 8
  | .assertingSleep => duration s.pim.memory.started.length + 7
  | .settingBusy => duration s.pim.memory.started.length + 6
  | .executing => duration s.pim.memory.started.length + 5
  | .running k => k.2 + 4
  | .assertingBusy => 3
  | .assertingCommand => 2
  | .settingDone => 1
  | _ => 0

private theorem Phase.pim_closer (debugResident : Bool) (duration : ℕ → ℕ) (h : Phase s)
    (hhost : s.host.Interrupted) (hdone : s.pim.status ≠ .done)
    (hexit : s.pim.position ≠ .exited) :
    ∃ p, s.pim.step debugResident (terminating duration) = some p ∧
      rank duration { s with pim := p } < rank duration s := by
  obtain ⟨host, command, status, position, memory⟩ := s
  cases position with
  | running k =>
    obtain ⟨c, n⟩ := k
    cases n with
    | zero | succ => exact ⟨_, rfl, by simp [rank]⟩
  | executing =>
    by_cases hc : command.executable
    · exact ⟨_, by simp [Pim.step, terminating, hc]; rfl, by simp [rank]⟩
    · exact ⟨_, by simp [Pim.step, terminating, hc]; rfl, by simp [rank]⟩
  | _ =>
    rcases hhost with hhost | hhost
    · simp_all [Phase, Pim.step, rank]
    · simp_all [Phase, Pim.step, rank]

section

variable (h : Phase s)
include h

theorem Phase.finished_of_done (hdone : s.pim.status = .done) :
    s.pim.memory.finished = s.host.given := by
  obtain ⟨host, command, status, position, memory⟩ := s
  cases position with
  | awaitingNop =>
    rcases h.2 with ⟨-, -, hexecuted⟩ | ⟨-, -, hsettled⟩
    · exact congrArg Log.finished hexecuted.1
    · exact congrArg Log.finished hsettled.1
  | settingSleep => exact congrArg Log.finished h.2.2.2.1
  | _ => cases hdone.symm.trans h.1

theorem Phase.halted_of_exited (hexit : s.pim.position = .exited) :
    ∃ c, s.host.given.getLast? = some c ∧ c.executable = false := by
  simp only [Phase, hexit] at h
  obtain ⟨_, _, c, hc, before, hgiven, _⟩ := h
  exact ⟨c, by simp [hgiven], hc⟩

/-- While the host waits, the PIM alone ends the command. -/
theorem Phase.completes (hhost : s.host.Interrupted) :
    ∃ s', Reached (step debugResident duration) (fun _ p => p = .pim) s s' ∧
      s'.host = s.host ∧ (s'.pim.status = .done ∧ s'.pim.memory.finished = s.host.given ∨
        s'.pim.position = .exited ∧
          ∃ c, s.host.given.getLast? = some c ∧ c.executable = false) := by
  have hcloser : ∀ s₁, Phase s₁ ∧ s₁.host = s.host →
      ¬ (s₁.pim.status = .done ∨ s₁.pim.position = .exited) →
      ∃ p s₂, p = Party.pim ∧ step debugResident duration s₁ p = some s₂ ∧
        (Phase s₂ ∧ s₂.host = s.host) ∧ rank duration s₂ < rank duration s₁ := by
    intro s₁ ⟨hphase, hsame⟩ hgoal
    obtain ⟨hdone, hexit⟩ := not_or.mp hgoal
    obtain ⟨p, hp, hlt⟩ :=
      hphase.pim_closer debugResident duration (hsame ▸ hhost) hdone hexit
    have hstep : step debugResident duration s₁ .pim = some { s₁ with pim := p } := by
      simp [step, hp]
    exact ⟨.pim, _, rfl, hstep, ⟨hphase.pim_step hstep, hsame⟩, hlt⟩
  obtain ⟨s', hreached, ⟨hphase, hsame⟩, hgoal⟩ :=
    exists_reached (rank duration) hcloser ⟨h, rfl⟩
  refine ⟨s', hreached, hsame, ?_⟩
  rw [← hsame] at hhost ⊢
  rcases hgoal with hdone | hexit
  · exact .inl ⟨hdone, hphase.finished_of_done hdone⟩
  · exact .inr ⟨hexit, hphase.halted_of_exited hexit⟩

/-! ### The promises hold while the host is timely -/

theorem Phase.ledger : Settled s ∨ (∃ c, Pending s c) ∨ (∃ c, Underway s c) ∨ Executed s := by
  obtain ⟨host, command, status, position, memory⟩ := s
  cases position with
  | initStatus | initCommand => exact .inl h.2.2
  | goingToSleep | waiting =>
    rcases h with ⟨_, ⟨_, _, hsettled⟩ | ⟨_, _, hpending⟩⟩
    · exact .inl hsettled
    · exact .inr (.inl ⟨_, hpending⟩)
  | woken | assertingSleep | settingBusy | executing => exact .inr (.inl ⟨_, h.2.2.2⟩)
  | running k => exact .inr (.inr (.inl ⟨_, h.2.2.2⟩))
  | assertingBusy | assertingCommand | settingDone => exact .inr (.inr (.inr h.2.2.2))
  | awaitingNop =>
    rcases h with ⟨_, ⟨_, _, hexecuted⟩ | ⟨_, _, hsettled⟩⟩
    · exact .inr (.inr (.inr hexecuted))
    · exact .inl hsettled
  | settingSleep => exact .inl h.2.2.2
  | exited =>
    obtain ⟨_, _, c, _, hpending⟩ := h
    exact .inr (.inl ⟨c, hpending⟩)

theorem Phase.prefixes : (s.pim.memory.finished <+: s.pim.memory.started ∧
    s.pim.memory.started <+: s.host.given) ∧ s.host.returned ≤ s.pim.memory.finished.length := by
  rcases h.ledger with ⟨hmemory, hreturned⟩ | ⟨c, before, hgiven, hmemory, hreturned⟩ |
    ⟨c, before, hgiven, hmemory, hreturned⟩ | ⟨hmemory, hreturned⟩
  · rw [hmemory]
    exact ⟨⟨prefix_rfl, prefix_rfl⟩, Nat.le_of_eq hreturned⟩
  · rw [hmemory, hgiven]
    exact ⟨⟨prefix_rfl, prefix_append _ _⟩, Nat.le_of_eq hreturned⟩
  · rw [hmemory, hgiven]
    exact ⟨⟨prefix_append _ _, prefix_rfl⟩, Nat.le_of_eq hreturned⟩
  · rw [hmemory]
    exact ⟨⟨prefix_rfl, prefix_rfl⟩, by dsimp only; omega⟩

theorem Phase.not_lost : ¬ LostWakeUp s := by
  rintro ⟨hpim, hcommand, hhost⟩
  simp only [Phase, hpim] at h
  rcases h with ⟨_, ⟨hnop, _⟩ | ⟨_, hwaking, _⟩⟩
  · exact hcommand hnop
  · simp [Host.Interrupted, hwaking] at hhost

theorem Phase.handshake : Handshake debugResident duration s where
  not_lost := h.not_lost
  wakes_to_command hpim := by
    simp only [Phase, hpim] at h
    exact h.2.1
  starts_from_sleep hpim := by
    rcases hpim with hpim | hpim
    all_goals
      simp only [Phase, hpim] at h
      exact h.1
  in_order := h.prefixes.1
  finished_before_return := h.prefixes.2
  completes := h.completes

end

private theorem hostStep_todo (h : hostStep s = some s') : s'.host.todo <:+ s.host.todo := by
  unfold hostStep at h
  dsimp only at h
  split at h <;> try split at h
  all_goals cases h
  all_goals simp_all

theorem reached_phase {commands : List Command} {command : Command}
    (hreal : ∀ c ∈ commands, c ≠ .nop)
    (h : Reached (step debugResident duration) Timely (start commands command) s) :
    Phase s ∧ ∀ c ∈ s.host.todo, c ≠ .nop := by
  refine h.invariant (I := fun s => Phase s ∧ ∀ c ∈ s.host.todo, c ≠ .nop)
    ⟨⟨rfl, rfl, rfl, rfl⟩, hreal⟩ ?_
  intro s p s' ⟨hphase, htodo⟩ hok hstep
  cases p with
  | host =>
    refine ⟨hphase.host_step htodo hok hstep, fun c hc => htodo c ?_⟩
    simp only [step] at hstep
    split at hstep
    · cases hstep
    · exact (hostStep_todo hstep).subset hc
  | pim =>
    refine ⟨hphase.pim_step hstep, ?_⟩
    obtain ⟨_, _, rfl⟩ := map_eq_some_iff.mp hstep
    exact htodo

theorem Phase.lost_of_early_interrupt (h : Phase s) (hhost : s.host.position = .wakingUp)
    (hpim : s.pim.position ≠ .waiting) (hstep : step debugResident duration s .host = some s') :
    ∃ s'', Reached (step debugResident duration) (fun _ _ => True) s' s'' ∧ LostWakeUp s'' := by
  obtain ⟨⟨_, todo, given, returned⟩, command, status, position, memory⟩ := s
  obtain rfl : _ = HostPosition.wakingUp := hhost
  obtain rfl : position = .goingToSleep := by
    cases position <;> simp_all [Phase, Host.Interrupted]
  have hcommand : command ≠ .nop := by simp_all [Phase]
  cases hstep
  refine ⟨⟨⟨.checkingDone, todo, given, returned⟩, command, status, .waiting, memory⟩, ?_,
    rfl, hcommand, .inl rfl⟩
  exact .next (l := Party.pim) .start trivial rfl

/-- A command given while the PIM initialises its registers is overwritten. -/
theorem wakes_to_nop_of_early_command (hhost : s.host.position = .givingCommand)
    (hpim : s.pim.position = .initCommand)
    (hstep : step debugResident duration s .host = some s') :
    ∃ s'', Reached (step debugResident duration) (fun _ _ => True) s' s'' ∧
      s''.pim.position = .woken ∧ s''.pim.command = .nop := by
  obtain ⟨⟨_, todo, given, returned⟩, command, status, _, memory⟩ := s
  obtain rfl : _ = HostPosition.givingCommand := hhost
  obtain rfl : _ = Resident.initCommand := hpim
  cases todo with
  | nil => cases hstep
  | cons c rest =>
    cases hstep
    refine ⟨⟨⟨.checkingDone, rest, given ++ [c], returned⟩, .nop, status, .woken, memory⟩, ?_,
      rfl, rfl⟩
    exact reached_of_runSchedule [.pim, .pim, .host] rfl

theorem Phase.broken_of_not_timely {p : Party} (h : Phase s) (hok : ¬ Timely s p)
    (hstep : step debugResident duration s p = some s') :
    ∃ s'', Reached (step debugResident duration) (fun _ _ => True) s' s'' ∧
      ¬ Handshake debugResident duration s'' := by
  cases p with
  | host =>
    rcases not_and_or.mp hok with hlate | hearly
    · obtain ⟨hhost, hpim⟩ := Classical.not_imp.mp hlate
      obtain ⟨s'', hreached, hlost⟩ := h.lost_of_early_interrupt hhost hpim hstep
      exact ⟨s'', hreached, fun hs => hs.not_lost hlost⟩
    · obtain ⟨hhost, hpim⟩ := Classical.not_imp.mp hearly
      obtain ⟨s'', hreached, hwoken, hnop⟩ :=
        wakes_to_nop_of_early_command hhost (not_not.mp hpim) hstep
      exact ⟨s'', hreached, fun hs => hs.wakes_to_command hwoken hnop⟩
  | pim => exact absurd trivial hok

end Phases

/-- As long as the host is timely, every promise holds in every state of every run; its
first step that is not timely leads to a state in which one of them is broken. -/
theorem handshake_of_timely (debugResident : Bool) (duration : ℕ → ℕ) (commands : List Command)
    (command : Command) (hreal : ∀ c ∈ commands, c ≠ .nop) (s : State)
    (h : Reached (step debugResident duration) Timely (start commands command) s) :
    Handshake debugResident duration s ∧
      ∀ p s', step debugResident duration s p = some s' → ¬ Timely s p →
        ∃ s'', Reached (step debugResident duration) (fun _ _ => True) s' s'' ∧
          ¬ Handshake debugResident duration s'' := by
  have hphase := (reached_phase hreal h).1
  exact ⟨hphase.handshake, fun p s' hstep hok => hphase.broken_of_not_timely hok hstep⟩

/-- The PIM boots and waits, the host starts a kernel of two steps, and the PIM runs it. -/
def firstKernel : List Party :=
  List.replicate 3 .pim ++ List.replicate 3 .host ++ List.replicate 10 .pim ++
    List.replicate 2 .host

theorem handshake_of_second_kernel : ∃ s,
    runSchedule (step true (fun _ => 2)) (start [.runKernel, .runKernel] .halt)
      (firstKernel ++ List.replicate 3 .pim ++ List.replicate 3 .host) = some s ∧
    s.pim.position = .woken ∧ s.pim.memory.finished = [.runKernel] ∧
    Handshake true (fun _ => 2) s :=
  ⟨_, rfl, rfl, rfl, (handshake_of_timely true (fun _ => 2) [.runKernel, .runKernel] .halt
    (by decide) _ (reached_of_runSchedule (firstKernel ++ List.replicate 3 .pim ++
      List.replicate 3 .host) rfl)).1⟩

/-- The host starts the second kernel between the write of `SLEEP` and `wfi`. -/
theorem second_kernel_lost : ∃ s,
    runSchedule (step true (fun _ => 2)) (start [.runKernel, .runKernel] .halt)
      (firstKernel ++ List.replicate 2 .pim ++ List.replicate 3 .host ++ [.pim]) = some s ∧
    LostWakeUp s :=
  ⟨_, rfl, rfl, by decide, .inl rfl⟩

end SmcSim.CommandHandshake
