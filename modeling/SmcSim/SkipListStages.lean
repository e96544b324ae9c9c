import SmcSim.SkipListModes
import SmcSim.SkipListService

/-!
# Stages of the partitions of the skip list

Where the PIM of each partition is, by where `main` is. A partition waits for its first command,
initialises its list, serves requests until it is closed, rests, and is started again. Every step
keeps this, if `main` adds at least one key to each partition: the answer to the first request tells
it that the kernel is in its loop.
-/

namespace SmcSim.SkipListModes
open CommandHandshake SkipListKernel Function Option

/-! ### Stages of a partition -/

def Loop : Position → Prop
  | .listInit | .writeMaxNodes | .writeTimestamp | .writeOps => False
  | .writeClear _ infobits => checkValidRequest infobits = 0
  | _ => True

section Stages

variable {μ : Type} (p : Partition μ)

def Starts : Prop :=
  p.memory.operation = 0 ∧ p.memory.maxNodes = 0 ∧
    match p.position with
    | .woken | .assertingSleep | .settingBusy => p.status = .sleep
    | .executing | .running .checkInit | .running .listInit | .running .writeMaxNodes =>
        p.status = .busy
    | _ => False

/-- The list is initialised, and the kernel is about to set the mode. -/
def Initialised : Prop :=
  p.memory.operation = 0 ∧ p.status = .busy ∧
    (p.position = .running .writeTimestamp ∨ p.position = .running .writeOps)

def Operates (v : ℕ) : Prop :=
  p.memory.operation = v ∧ p.status = .busy ∧ ∃ k, p.position = .running k ∧ Loop k

def Ends : Prop :=
  p.memory.operation = 3 ∧
    match p.position with
    | .assertingBusy | .assertingCommand | .settingDone => p.status = .busy
    | .awaitingNop => p.status = .done
    | _ => False

def Rests : Prop :=
  p.command = .nop ∧
    ((p.position = .awaitingNop ∨ p.position = .settingSleep) ∧ p.status = .done ∨
      (p.position = .goingToSleep ∨ p.position = .waiting) ∧ p.status = .sleep)

/-- The partition has been started again; the interrupt may have come too early. -/
def Reopened : Prop :=
  p.command = .runKernel ∧ p.memory.operation = 1 ∧
    match p.position with
    | .goingToSleep | .waiting | .woken | .assertingSleep | .settingBusy => p.status = .sleep
    | .executing => p.status = .busy
    | .running k => p.status = .busy ∧ Loop k
    | _ => False

end Stages

variable {μ : Type} {c : Config μ} {p p' : Partition μ} {d : Device μ} {k k' : Position} {v : ℕ}

theorem pimStep_running (hpos : p.position = .running k)
    (hk : (kernelStep c k p.memory).1 = some k') : pimStep c p =
      some { p with position := .running k', memory := (kernelStep c k p.memory).2 } := by
  have hkernel : (executeKernel c).step k p.memory = (some k', (kernelStep c k p.memory).2) :=
    Prod.ext hk rfl
  simp only [pimStep, Pim.step, hpos, hkernel]

theorem step_running (hpos : p.position = .running k) (hk : (kernelStep c k p.memory).1 = some k')
    (hstep : pimStep c p = some p') :
    p' = { p with position := .running k', memory := (kernelStep c k p.memory).2 } :=
  some.inj (hstep.symm.trans (pimStep_running hpos hk))

/-- The loop leaves the mode alone, and is left only by the test for `close`. -/
theorem kernelStep_loop (hk : Loop k) (hne : d.operation ≠ 0) :
    (kernelStep c k d).2.operation = d.operation ∧
      ((∃ k', (kernelStep c k d).1 = some k' ∧ Loop k') ∨
        (kernelStep c k d).1 = none ∧ 3 ≤ d.operation) := by
  cases k with
  | checkInit => exact ⟨rfl, .inl ⟨.checkClose, by simp [kernelStep, hne], trivial⟩⟩
  | checkClose =>
    by_cases hclose : d.operation ≥ 3
    · exact ⟨rfl, .inr ⟨by simp [kernelStep, hclose], hclose⟩⟩
    · exact ⟨rfl, .inl ⟨.check 0, by simp [kernelStep, hclose], trivial⟩⟩
  | check i =>
    simp only [kernelStep]
    split_ifs <;> exact ⟨rfl, .inl ⟨_, rfl, trivial⟩⟩
  | readClear i =>
    refine ⟨rfl, .inl ⟨_, rfl, ?_⟩⟩
    simp [Loop, clearRequest, checkValidRequest, BitVec.and_assoc]
  | execute i | readRetval i retval | writeRetval i infobits | writeClear i infobits =>
    exact ⟨rfl, .inl ⟨_, rfl, trivial⟩⟩
  | _ => exact hk.elim

theorem Operates.step (h : Operates p v) (hv : v ≠ 0) (hstep : pimStep c p = some p') :
    p'.command = p.command ∧ p'.memory.operation = v ∧ p'.status = .busy ∧
      (Operates p' v ∨ 3 ≤ v ∧ p'.position = .assertingBusy) := by
  obtain ⟨command, status, position, d⟩ := p
  obtain ⟨rfl, rfl, k, rfl, hk⟩ := h
  obtain ⟨hop, ⟨k', hk', hloop⟩ | ⟨hnone, hclose⟩⟩ := kernelStep_loop (c := c) hk hv
  · obtain rfl := step_running rfl hk' hstep
    exact ⟨rfl, hop, rfl, .inl ⟨hop, rfl, k', rfl, hloop⟩⟩
  · have hkernel : (executeKernel c).step k d = (none, (kernelStep c k d).2) := Prod.ext hnone rfl
    simp only [pimStep, Pim.step, hkernel, some.injEq] at hstep
    subst hstep
    exact ⟨rfl, hop, rfl, .inr ⟨hclose, rfl⟩⟩

/-- In the mode for operations the kernel stays in its loop. -/
theorem Operates.step_ops (h : Operates p 1) (hstep : pimStep c p = some p') :
    p'.command = p.command ∧ Operates p' 1 := by
  obtain ⟨hcommand, -, -, hnext | ⟨hclose, -⟩⟩ := h.step Nat.one_ne_zero hstep
  · exact ⟨hcommand, hnext⟩
  · omega

theorem Initialised.step (h : Initialised p) (hstep : pimStep c p = some p') :
    p'.command = p.command ∧
      (Initialised p' ∧ p'.memory.requestSlots = p.memory.requestSlots ∨ Operates p' 1) := by
  obtain ⟨command, status, position, d⟩ := p
  obtain ⟨hop, rfl, rfl | rfl⟩ := h
  · cases hstep
    exact ⟨rfl, .inl ⟨⟨hop, rfl, .inr rfl⟩, rfl⟩⟩
  · cases hstep
    exact ⟨rfl, .inr ⟨rfl, rfl, .checkInit, rfl, trivial⟩⟩

theorem opened_step (h : Initialised p ∨ Operates p 1) (hstep : pimStep c p = some p') :
    p'.command = p.command ∧ (Initialised p' ∨ Operates p' 1) := by
  rcases h with hinit | hops
  · obtain ⟨hcommand, hnext⟩ := hinit.step hstep
    exact ⟨hcommand, hnext.imp_left And.left⟩
  · obtain ⟨hcommand, hnext⟩ := hops.step_ops hstep
    exact ⟨hcommand, .inr hnext⟩

theorem Starts.step (h : Starts p) (hcommand : p.command = .runKernel)
    (hstep : pimStep c p = some p') :
    p'.command = .runKernel ∧ (Starts p' ∨ Initialised p') := by
  obtain ⟨command, status, position, d⟩ := p
  obtain rfl : command = .runKernel := hcommand
  obtain ⟨hop, hmax, hpos⟩ := h
  change d.operation = 0 at hop
  cases position with
  | woken | executing =>
    cases hstep
    exact ⟨rfl, .inl ⟨hop, hmax, hpos⟩⟩
  | assertingSleep =>
    obtain rfl : status = .sleep := hpos
    simp only [pimStep, Pim.step, ne_eq, not_true_eq_false, and_false, if_false,
      some.injEq] at hstep
    subst hstep
    exact ⟨rfl, .inl ⟨hop, hmax, rfl⟩⟩
  | settingBusy =>
    cases hstep
    exact ⟨rfl, .inl ⟨hop, hmax, rfl⟩⟩
  | running k =>
    cases k with
    | checkInit =>
      obtain rfl := step_running rfl (show (kernelStep c .checkInit d).1 = some .listInit by
        simp [kernelStep, hop]) hstep
      exact ⟨rfl, .inl ⟨hop, hmax, hpos⟩⟩
    | listInit =>
      cases hstep
      exact ⟨rfl, .inl ⟨hop, hmax, hpos⟩⟩
    | writeMaxNodes =>
      cases hstep
      exact ⟨rfl, .inr ⟨hop, hpos, .inl rfl⟩⟩
    | _ => exact hpos.elim
  | _ => exact hpos.elim

theorem Ends.step (h : Ends p) (hcommand : p.command = .runKernel)
    (hstep : pimStep c p = some p') : p'.command = .runKernel ∧ Ends p' := by
  obtain ⟨command, status, position, d⟩ := p
  obtain rfl : command = .runKernel := hcommand
  obtain ⟨hop, hpos⟩ := h
  cases position with
  | assertingBusy =>
    obtain rfl : status = .busy := hpos
    simp only [pimStep, Pim.step, ne_eq, not_true_eq_false, and_false, if_false,
      some.injEq] at hstep
    subst hstep
    exact ⟨rfl, hop, rfl⟩
  | assertingCommand =>
    simp only [pimStep, Pim.step, reduceCtorEq, and_false, if_false, some.injEq] at hstep
    subst hstep
    exact ⟨rfl, hop, hpos⟩
  | settingDone =>
    cases hstep
    exact ⟨rfl, hop, rfl⟩
  | awaitingNop =>
    cases hstep
    exact ⟨rfl, hop, hpos⟩
  | _ => exact hpos.elim

theorem Rests.step (h : Rests p) (hstep : pimStep c p = some p') :
    Rests p' ∧ p'.memory = p.memory ∧ (p.status = .sleep → p'.status = .sleep) := by
  obtain ⟨command, status, position, d⟩ := p
  obtain ⟨rfl, ⟨rfl | rfl, rfl⟩ | ⟨rfl | rfl, rfl⟩⟩ := h
  all_goals simp [pimStep, Pim.step] at hstep
  all_goals
    subst hstep
    simp [Rests]

theorem Reopened.step (h : Reopened p) (hstep : pimStep c p = some p') : Reopened p' := by
  obtain ⟨command, status, position, d⟩ := p
  obtain ⟨rfl, hop, hpos⟩ := h
  cases position with
  | goingToSleep | woken =>
    cases hstep
    exact ⟨rfl, hop, hpos⟩
  | executing =>
    cases hstep
    exact ⟨rfl, hop, hpos, trivial⟩
  | waiting => cases hstep
  | assertingSleep =>
    obtain rfl : status = .sleep := hpos
    simp only [pimStep, Pim.step, ne_eq, not_true_eq_false, and_false, if_false,
      some.injEq] at hstep
    subst hstep
    exact ⟨rfl, hop, rfl⟩
  | settingBusy =>
    cases hstep
    exact ⟨rfl, hop, rfl⟩
  | running k =>
    obtain ⟨hcommand, hop', hstatus, hnext | ⟨hclose, -⟩⟩ :=
      Operates.step (v := 1) ⟨hop, hpos.1, k, rfl, hpos.2⟩ Nat.one_ne_zero hstep
    · obtain ⟨-, -, k', hk', hloop⟩ := hnext
      refine ⟨hcommand, hop', ?_⟩
      rw [hk']
      exact ⟨hstatus, hloop⟩
    · omega
  | _ => exact hpos.elim

theorem Waits.not_step (h : Waits p) : pimStep c p = none := by
  obtain ⟨command, status, position, d⟩ := p
  obtain ⟨-, -, rfl⟩ := h
  rfl

theorem Waits.rests (h : Waits p) : Rests p := ⟨h.1, .inr ⟨.inr h.2.2, h.2.1⟩⟩

/-! ### The host and its partitions -/

def HostPosition.again : HostPosition → Bool
  | .checkSleep again | .giveCommand again | .wakeUp again => again
  | .writeOps | .ready => true
  | _ => false

def HostPosition.Early : HostPosition → Prop
  | .writeMaxNodes | .writeInit | .checkSleep false | .giveCommand false | .wakeUp false
  | .pollMaxNodes => True
  | _ => False

def Current (h : HostPosition) (p : Partition μ) : Prop :=
  match h with
  | .writeMaxNodes => Waits p
  | .writeInit => Waits p ∧ p.memory.maxNodes = 0
  | .checkSleep false | .giveCommand false =>
      Waits p ∧ p.memory.maxNodes = 0 ∧ p.memory.operation = 0
  | .wakeUp false => p.command = .runKernel ∧ p.status = .sleep ∧ p.position = .waiting ∧
      p.memory.maxNodes = 0 ∧ p.memory.operation = 0
  | .pollMaxNodes => p.command = .runKernel ∧ (Starts p ∨ Initialised p ∨ Operates p 1)
  | .writeParameter | .writeRandomLevel | .writeInfo =>
      p.command = .runKernel ∧ (Initialised p ∨ Operates p 1)
  | .readInfo => p.command = .runKernel ∧
      (Initialised p ∧ checkValidRequest (p.memory.requestSlots 0).infoBits ≠ 0 ∨ Operates p 1)
  | .close => p.command = .runKernel ∧ Operates p 1
  | .checkDone => p.command = .runKernel ∧ (Operates p 3 ∨ Ends p)
  | .giveNop => p.command = .runKernel ∧ Ends p ∧ p.status = .done
  | .writeOps => Rests p
  | .checkSleep true => Rests p ∧ p.memory.operation = 1
  | .giveCommand true => Rests p ∧ p.memory.operation = 1 ∧ p.status = .sleep
  | .wakeUp true => p.command = .runKernel ∧ p.memory.operation = 1 ∧ p.status = .sleep ∧
      (p.position = .goingToSleep ∨ p.position = .waiting)
  | .ready => True

def Other (again earlier : Bool) (p : Partition μ) : Prop :=
  match again, earlier with
  | false, false => Waits p
  | false, true | true, false => Rests p
  | true, true => Reopened p

structure Invariant (s : State μ) : Prop where
  current : Current s.host.position (s.pims s.host.i)
  others : ∀ j, j ≠ s.host.i → Other s.host.position.again (j < s.host.i) (s.pims j)
  size : s.host.position.Early → s.host.size = 0

variable {s s' : State μ} {h : Host}

theorem Other.step {again earlier : Bool} (h : Other again earlier p)
    (hstep : pimStep c p = some p') : Other again earlier p' := by
  match again, earlier, h with
  | false, false, h =>
    rw [Waits.not_step h] at hstep
    cases hstep
  | false, true, h | true, false, h => exact (Rests.step h hstep).1
  | true, true, h => exact Reopened.step h hstep

theorem Current.step {h : HostPosition} (hp : Current h p) (hstep : pimStep c p = some p') :
    Current h p' := by
  cases h with
  | writeMaxNodes =>
    rw [Waits.not_step hp] at hstep
    cases hstep
  | writeInit =>
    rw [Waits.not_step hp.1] at hstep
    cases hstep
  | checkSleep again =>
    cases again with
    | false =>
      rw [Waits.not_step hp.1] at hstep
      cases hstep
    | true =>
      obtain ⟨hrests, hmemory, -⟩ := hp.1.step hstep
      exact ⟨hrests, hmemory ▸ hp.2⟩
  | giveCommand again =>
    cases again with
    | false =>
      rw [Waits.not_step hp.1] at hstep
      cases hstep
    | true =>
      obtain ⟨hrests, hmemory, hsleep⟩ := hp.1.step hstep
      exact ⟨hrests, hmemory ▸ hp.2.1, hsleep hp.2.2⟩
  | wakeUp again =>
    obtain ⟨command, status, position, d⟩ := p
    cases again with
    | false =>
      obtain ⟨-, -, rfl, -⟩ := hp
      cases hstep
    | true =>
      obtain ⟨hcommand, hop, hstatus, rfl | rfl⟩ := hp
      · cases hstep
        exact ⟨hcommand, hop, hstatus, .inr rfl⟩
      · cases hstep
  | pollMaxNodes =>
    obtain ⟨hcommand, hstarts | hopened⟩ := hp
    · obtain ⟨hcommand', hnext⟩ := hstarts.step hcommand hstep
      exact ⟨hcommand', hnext.imp_right .inl⟩
    · obtain ⟨hcommand', hnext⟩ := opened_step hopened hstep
      exact ⟨hcommand'.trans hcommand, .inr hnext⟩
  | writeParameter | writeRandomLevel | writeInfo =>
    obtain ⟨hcommand', hnext⟩ := opened_step hp.2 hstep
    exact ⟨hcommand'.trans hp.1, hnext⟩
  | readInfo =>
    obtain ⟨hcommand, ⟨hinit, hvalid⟩ | hops⟩ := hp
    · obtain ⟨hcommand', ⟨hinit', hslots⟩ | hops'⟩ := hinit.step hstep
      · exact ⟨hcommand'.trans hcommand, .inl ⟨hinit', hslots ▸ hvalid⟩⟩
      · exact ⟨hcommand'.trans hcommand, .inr hops'⟩
    · obtain ⟨hcommand', hops'⟩ := hops.step_ops hstep
      exact ⟨hcommand'.trans hcommand, .inr hops'⟩
  | close =>
    obtain ⟨hcommand, hops⟩ := hp
    obtain ⟨hcommand', hops'⟩ := hops.step_ops hstep
    exact ⟨hcommand'.trans hcommand, hops'⟩
  | checkDone =>
    obtain ⟨hcommand, hcloses | hends⟩ := hp
    · obtain ⟨hcommand', hop, hbusy, hnext | ⟨-, hpos⟩⟩ :=
        hcloses.step (Nat.succ_ne_zero 2) hstep
      · exact ⟨hcommand'.trans hcommand, .inl hnext⟩
      · refine ⟨hcommand'.trans hcommand, .inr ⟨hop, ?_⟩⟩
        rw [hpos]
        exact hbusy
    · obtain ⟨hcommand', hends'⟩ := hends.step hcommand hstep
      exact ⟨hcommand', .inr hends'⟩
  | giveNop =>
    obtain ⟨command, status, position, d⟩ := p
    obtain ⟨rfl, ⟨hop, hpos⟩, rfl⟩ := hp
    cases position with
    | awaitingNop =>
      cases hstep
      exact ⟨rfl, ⟨hop, rfl⟩, rfl⟩
    | assertingBusy | assertingCommand | settingDone => cases hpos
    | _ => exact hpos.elim
  | writeOps => exact (Rests.step hp hstep).1
  | ready => trivial

theorem Invariant.pim_step {j : ℕ} (h : Invariant s) (hstep : pimStep c (s.pims j) = some p) :
    Invariant { s with pims := update s.pims j p } := by
  refine ⟨(forall_update_iff s.pims (fun j p => j = s.host.i →
    Current s.host.position p)).mpr ⟨?_, ?_⟩ s.host.i rfl,
    (forall_update_iff s.pims (fun j p => j ≠ s.host.i →
      Other s.host.position.again (j < s.host.i) p)).mpr
      ⟨fun hj => (h.others j hj).step hstep, fun j _ => h.others j⟩, h.size⟩
  · rintro rfl
    exact h.current.step hstep
  · rintro j - rfl
    exact h.current

theorem setPim_same : (s.setPim h p).pims s.host.i = p := update_self ..

theorem setPim_ne {j : ℕ} (hj : j ≠ s.host.i) : (s.setPim h p).pims j = s.pims j :=
  update_of_ne hj ..

variable {pos : HostPosition}

/-- A step of the host within its work on a partition. -/
theorem Invariant.setPim (hs : Invariant s) (hpos : s.host.position = pos) (hi : h.i = s.host.i)
    (hagain : h.position.again = pos.again) (hp : Current h.position p)
    (hsize : h.position.Early → h.size = 0) : Invariant (s.setPim h p) := by
  refine ⟨?_, fun j hj => ?_, hsize⟩
  · change Current h.position ((s.setPim h p).pims h.i)
    rw [hi, setPim_same]
    exact hp
  · change Other h.position.again (j < h.i) ((s.setPim h p).pims j)
    have hj' : j ≠ s.host.i := hi ▸ hj
    rw [hi, hagain, ← hpos, setPim_ne hj']
    exact hs.others j hj'

theorem Invariant.setHost (hs : Invariant s) (hpos : s.host.position = pos) (hi : h.i = s.host.i)
    (hagain : h.position.again = pos.again)
    (hp : Current h.position (s.pims s.host.i)) (hsize : h.position.Early → h.size = 0) :
    Invariant { s with host := h } := by
  have hsame := hs.setPim hpos hi hagain hp hsize
  rwa [State.setPim, update_eq_self] at hsame

theorem nextAdd_again : (nextAdd c h).position.again = false := by
  unfold nextAdd
  split <;> rfl

theorem nextAdd_not_early : ¬ (nextAdd c h).position.Early := by
  unfold nextAdd
  split <;> exact not_false

theorem nextAdd_i : (nextAdd c h).i = h.i := by
  unfold nextAdd
  split <;> rfl

theorem current_nextAdd (hcommand : p.command = .runKernel)
    (hopened : Initialised p ∨ Operates p 1)
    (hclose : ¬ h.size < c.initialListSize / c.numPartitions → Operates p 1) :
    Current (nextAdd c h).position p := by
  unfold nextAdd
  split
  · exact ⟨hcommand, hopened⟩
  · next hge => exact ⟨hcommand, hclose hge⟩

theorem Invariant.nextInit (hs : Invariant s) (hagain : s.host.position.again = false)
    (hp : Rests p) : Invariant (s.setPim (nextInit c s.host) p) := by
  have hothers : ∀ j, j ≠ s.host.i → Other false (j < s.host.i) (s.pims j) := by
    intro j hj
    rw [← hagain]
    exact hs.others j hj
  have hrests : ∀ j, Rests ((s.setPim (SkipListModes.nextInit c s.host) p).pims j) := by
    intro j
    by_cases hj : j = s.host.i
    · rw [hj, setPim_same]
      exact hp
    · rw [setPim_ne hj]
      have hother := hothers j hj
      by_cases hlt : j < s.host.i
      · simpa only [hlt, decide_true, Other] using hother
      · simp only [hlt, decide_false, Other] at hother
        exact Waits.rests hother
  by_cases hlast : s.host.i + 1 < c.numPartitions
  · have hhost : SkipListModes.nextInit c s.host =
        ⟨.writeMaxNodes, s.host.i + 1, 0, 0, s.host.infoBits⟩ := if_pos hlast
    rw [hhost] at hrests ⊢
    refine ⟨?_, fun j hj => ?_, fun _ => rfl⟩
    · change Waits ((s.setPim _ p).pims (s.host.i + 1))
      have hother := hothers (s.host.i + 1) (Nat.succ_ne_self _)
      rw [setPim_ne (Nat.succ_ne_self _)]
      simpa only [not_lt.mpr (Nat.le_succ _), decide_false, Other] using hother
    · change j ≠ s.host.i + 1 at hj
      change Other false (j < s.host.i + 1) _
      by_cases hlt : j < s.host.i + 1
      · simpa only [hlt, decide_true, Other] using hrests j
      · have hne : j ≠ s.host.i := by omega
        have hother := hothers j hne
        rw [setPim_ne hne]
        simp only [show ¬ j < s.host.i by omega, decide_false, Other] at hother
        simpa only [hlt, decide_false, Other] using hother
  · have hhost : SkipListModes.nextInit c s.host =
        ⟨.writeOps, 0, s.host.size, s.host.tries, s.host.infoBits⟩ := if_neg hlast
    rw [hhost] at hrests ⊢
    refine ⟨hrests 0, fun j _ => ?_, fun hearly => hearly.elim⟩
    change Other true (j < 0) _
    simpa only [Nat.not_lt_zero, decide_false, Other] using hrests j

theorem Invariant.nextOps (hs : Invariant s) (hagain : s.host.position.again = true)
    (hp : Reopened p) : Invariant (s.setPim (nextOps c s.host) p) := by
  have hi : (SkipListModes.nextOps c s.host).i = s.host.i + 1 := by
    unfold SkipListModes.nextOps
    split <;> rfl
  have hagain' : (SkipListModes.nextOps c s.host).position.again = true := by
    unfold SkipListModes.nextOps
    split <;> rfl
  have hother : ∀ j, j ≠ s.host.i → Other true (j < s.host.i) (s.pims j) := by
    intro j hj
    rw [← hagain]
    exact hs.others j hj
  refine ⟨?_, fun j hj => ?_, ?_⟩
  · change Current (SkipListModes.nextOps c s.host).position
      ((s.setPim (SkipListModes.nextOps c s.host) p).pims (SkipListModes.nextOps c s.host).i)
    rw [hi, setPim_ne (Nat.succ_ne_self _)]
    have hrests := hother (s.host.i + 1) (Nat.succ_ne_self _)
    simp only [not_lt.mpr (Nat.le_succ _), decide_false, Other] at hrests
    unfold SkipListModes.nextOps
    split
    · exact hrests
    · trivial
  · change j ≠ (SkipListModes.nextOps c s.host).i at hj
    change Other (SkipListModes.nextOps c s.host).position.again
      (j < (SkipListModes.nextOps c s.host).i) _
    rw [hi] at hj ⊢
    rw [hagain']
    by_cases hji : j = s.host.i
    · rw [hji, setPim_same]
      simpa [Other] using hp
    · have hold := hother j hji
      rw [setPim_ne hji]
      have hiff : (j < s.host.i + 1) = (j < s.host.i) := by
        apply propext
        omega
      simpa only [hiff] using hold
  · intro hearly
    change (SkipListModes.nextOps c s.host).position.Early at hearly
    unfold SkipListModes.nextOps at hearly
    split at hearly <;> exact hearly.elim

theorem Invariant.host_step (hs : Invariant s)
    (hsize : 0 < c.initialListSize / c.numPartitions) (hstep : hostStep c s = some s') :
    Invariant s' := by
  have hp := hs.current
  have hearly := hs.size
  cases hpos : s.host.position <;>
    simp only [hpos, hostStep, some.injEq, reduceCtorEq] at hp hearly hstep
  case writeMaxNodes => exact hstep ▸ hs.setPim hpos rfl rfl ⟨hp, rfl⟩ hearly
  case writeInit => exact hstep ▸ hs.setPim hpos rfl rfl ⟨hp.1, hp.2, rfl⟩ hearly
  case checkSleep again =>
    split at hstep
    · next hsleep =>
      cases hstep
      refine hs.setHost hpos rfl rfl ?_ (fun h => hearly ?_)
      · cases again with
        | false => exact hp
        | true => exact ⟨hp.1, hp.2, hsleep⟩
      · cases again with
        | false => trivial
        | true => exact h
    · exact some.inj hstep ▸ hs
  case giveCommand again =>
    refine hstep ▸ hs.setPim hpos rfl rfl ?_ (fun h => hearly ?_)
    · cases again with
      | false => exact ⟨rfl, hp.1.2.1, hp.1.2.2, hp.2⟩
      | true =>
        obtain ⟨⟨-, ⟨-, hdone⟩ | ⟨hposition, -⟩⟩, hop, hsleep⟩ := hp
        · cases hsleep.symm.trans hdone
        · exact ⟨rfl, hop, hsleep, hposition⟩
    · cases again with
      | false => trivial
      | true => exact h
  case wakeUp again =>
    cases again with
    | false =>
      obtain ⟨hcommand, hsleep, hposition, hmax, hop⟩ := hp
      refine hstep ▸ hs.setPim hpos rfl rfl ?_ hearly
      simp only [Bool.false_eq_true, if_false, Pim.interrupt, hposition, if_true]
      exact ⟨hcommand, .inl ⟨hop, hmax, hsleep⟩⟩
    | true =>
      obtain ⟨hcommand, hop, hsleep, hposition⟩ := hp
      simp only [if_true] at hstep
      refine hstep ▸ hs.nextOps (by rw [hpos]; rfl) ?_
      rcases hposition with hposition | hposition
      · simp only [Pim.interrupt, hposition, reduceCtorEq, if_false]
        refine ⟨hcommand, hop, ?_⟩
        rw [hposition]
        exact hsleep
      · simp only [Pim.interrupt, hposition, if_true]
        exact ⟨hcommand, hop, hsleep⟩
  case pollMaxNodes =>
    split at hstep
    · exact some.inj hstep ▸ hs
    · next hmax =>
      cases hstep
      have hopened := hp.2.resolve_left (fun hstarts => hmax hstarts.2.1)
      refine hs.setHost hpos nextAdd_i nextAdd_again
        (current_nextAdd hp.1 hopened (fun hge => ?_)) (fun h => (nextAdd_not_early h).elim)
      dsimp only at hge
      rw [hearly trivial] at hge
      exact absurd hsize hge
  case writeParameter | writeRandomLevel =>
    exact hstep ▸ hs.setPim hpos rfl rfl hp (fun h => h.elim)
  case writeInfo =>
    refine hstep ▸ hs.setPim hpos rfl rfl ⟨hp.1, ?_⟩ (fun h => h.elim)
    refine hp.2.imp_left (fun hinit => ⟨hinit, ?_⟩)
    simp only [Device.setInfoBits, update_self]
    exact valid_setRequest _
  case readInfo =>
    split at hstep
    · cases hstep
      exact hs.setHost hpos rfl rfl hp (fun h => h.elim)
    · next hanswered =>
      cases hstep
      have hops := hp.2.resolve_left (fun hinit => hanswered hinit.2)
      exact hs.setHost hpos nextAdd_i nextAdd_again
        (current_nextAdd hp.1 (.inr hops) (fun _ => hops))
        (fun h => (nextAdd_not_early h).elim)
  case close =>
    exact hstep ▸ hs.setPim hpos rfl rfl ⟨hp.1, .inl ⟨rfl, hp.2.2⟩⟩ (fun h => h.elim)
  case checkDone =>
    split at hstep
    · next hdone =>
      cases hstep
      refine hs.setHost hpos rfl rfl ⟨hp.1, ?_, hdone⟩ (fun h => h.elim)
      refine hp.2.resolve_left (fun hcloses => ?_)
      cases hdone.symm.trans hcloses.2.1
    · exact some.inj hstep ▸ hs
  case giveNop =>
    refine hstep ▸ hs.nextInit (by rw [hpos]; rfl) ⟨rfl, .inl ⟨.inl ?_, hp.2.2⟩⟩
    obtain ⟨-, ⟨-, hends⟩, hdone⟩ := hp
    split at hends <;> try cases hdone.symm.trans hends
    · assumption
    · exact hends.elim
  case writeOps => exact hstep ▸ hs.setPim hpos rfl rfl ⟨hp, rfl⟩ (fun h => h.elim)

theorem Invariant.step {a : Party} (hs : Invariant s)
    (hsize : 0 < c.initialListSize / c.numPartitions) (hstep : step c s a = some s') :
    Invariant s' := by
  cases a with
  | host => exact hs.host_step hsize hstep
  | pim j =>
    obtain ⟨p, hp, rfl⟩ := map_eq_some_iff.mp (ite_none_right_eq_some.mp hstep).2
    exact hs.pim_step hp

theorem SetUp.invariant (h : SetUp s) : Invariant s := by
  refine ⟨?_, fun j hj => ?_, fun _ => h.size⟩
  · rw [h.position]
    exact h.waits _
  · rw [h.position, h.first]
    exact h.waits j

end SmcSim.SkipListModes
