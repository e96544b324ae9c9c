import SmcSim.QueueHost

/-!
# Sessions of a partition

A partition rests, is chosen and started by the thread that moved `enq_part` or
`deq_part` to it, serves one role until its segment is exhausted, and is closed by the
thread whose request exhausted it. Each stage says where the PIM of the partition is and
what its registers hold, and a step of the PIM keeps it.
-/

namespace SmcSim.PimQueue
open CommandHandshake

/-! ### Info bits -/

/-- The info bits that occur: no request and the PIM valid or not, or a request. -/
def Bits (infobits : BitVec 16) : Prop := infobits = 0 ∨ infobits = 2 ∨ infobits = 3

variable {v : BitVec 16}

theorem Bits.setRequest (h : Bits v) : setRequest v = 3 := by
  rcases h with rfl | rfl | rfl <;> rfl

theorem Bits.checkValidRequest (h : Bits v) : checkValidRequest v = 0 ↔ v ≠ 3 := by
  rcases h with rfl | rfl | rfl <;> decide

theorem Bits.checkValidPim (h : Bits v) : checkValidPim v = 0 ↔ v = 0 := by
  rcases h with rfl | rfl | rfl <;> decide

theorem Bits.pending (h : Bits v) :
    PimQueue.checkValidRequest v * PimQueue.checkValidPim v ≠ 0 ↔ v = 3 := by
  rcases h with rfl | rfl | rfl <;> decide

/-! ### Stages of a session -/

/-- What a partition is used for, with the thread in charge. A partition rests after it
has been closed in a role: full after `enq`, empty after `deq`. -/
inductive Session where
  | resting (r : Role)
  | chosen (r : Role) (t : ℕ)
  | activated (r : Role) (t : ℕ)
  | commanded (r : Role) (t : ℕ)
  | serving (r : Role)
  | exhausted (r : Role) (t : ℕ)
  | closing (r : Role) (t : ℕ)

namespace Session

/-- The role in which the partition is `enq_part` or `deq_part`. -/
def current : Session → Option Role
  | .chosen r _ | .activated r _ | .commanded r _ | .serving r | .exhausted r _ => some r
  | .resting _ | .closing _ _ => none

def owner : Session → Option ℕ
  | .chosen _ t | .activated _ t | .commanded _ t | .exhausted _ t | .closing _ t => some t
  | .resting _ | .serving _ => none

/-- The stage after a step of the PIM: the write that takes back the PIM valid bit puts
the thread of the slot in charge. -/
def after (σ : Session) (p : Pim Position Partition) : Session :=
  match σ, p.position with
  | .serving r, .running (.writeBits _ i true _) => .exhausted r i
  | σ, _ => σ

end Session

section Stages

variable (c : Config)

def Room : Role → Partition → Prop
  | .enq, m => m.headIndex = 0 ∧ m.tailIndex < c.maxSegmentItems
  | .deq, m => m.headIndex < m.tailIndex ∧ m.tailIndex ≤ c.maxSegmentItems

def Spent : Role → Partition → Prop
  | .enq, m => m.headIndex = 0 ∧ m.tailIndex = c.maxSegmentItems
  | .deq, m => m.headIndex = m.tailIndex

def Closed : Role → Partition → Prop
  | .enq, m => m.headIndex = 0 ∧ m.tailIndex = c.maxSegmentItems
  | .deq, m => m.headIndex = 0 ∧ m.tailIndex = 0

def Serves (r : Role) (m : Partition) : Position → Prop
  | .checkInit | .checkEnq => Room c r m
  | .checkDeq => r = .deq ∧ Room c r m
  | .check r' _ => r' = r ∧ Room c r m
  | .serve r' i => r' = r ∧ Room c r m ∧ (m.requestSlots i).infoBits = 3
  | .readBits r' i last => r' = r ∧ (if last then Spent c r m else Room c r m) ∧
      (m.requestSlots i).infoBits = 3
  | .writeBits r' i last v => r' = r ∧ (if last then Spent c r m else Room c r m) ∧
      (m.requestSlots i).infoBits = 3 ∧ v = 3
  | _ => False

def Ends (r : Role) (m : Partition) : Position → Prop
  | .off r' => r' = r ∧ Spent c r m
  | .reset => r = .deq ∧ m.operation = 0 ∧ Spent c r m
  | .checkInit | .checkEnq | .checkDeq | .checkPrint | .checkOff =>
      m.operation = 0 ∧ Closed c r m
  | _ => False

variable (p : Pim Position Partition)

def Asleep : Prop :=
  p.command = .nop ∧
    ((p.position = .awaitingNop ∨ p.position = .settingSleep) ∧ p.status = .done ∨
      (p.position = .goingToSleep ∨ p.position = .waiting) ∧ p.status = .sleep)

def Runs (r : Role) : Prop :=
  match p.position with
  | .goingToSleep | .waiting | .woken | .assertingSleep | .settingBusy =>
      p.status = .sleep ∧ Room c r p.memory
  | .executing => p.status = .busy ∧ Room c r p.memory
  | .running k => p.status = .busy ∧ Serves c r p.memory k
  | _ => False

def Ended (r : Role) : Prop :=
  match p.position with
  | .running k => p.status = .busy ∧ Ends c r p.memory k
  | .assertingBusy | .assertingCommand | .settingDone =>
      p.status = .busy ∧ p.memory.operation = 0 ∧ Closed c r p.memory
  | .awaitingNop => p.status = .done ∧ p.memory.operation = 0 ∧ Closed c r p.memory
  | _ => False

def SessionOk : Session → Pim Position Partition → Prop
  | .resting r, p => p.memory.operation = 0 ∧ Asleep p ∧ Closed c r p.memory
  | .chosen r _, p => p.memory.operation = 0 ∧ Asleep p ∧ Room c r p.memory
  | .activated r _, p => p.memory.operation = r.op ∧ Asleep p ∧ Room c r p.memory
  | .commanded r _, p => p.memory.operation = r.op ∧ p.command = .runKernel ∧
      (p.position = .goingToSleep ∨ p.position = .waiting) ∧ p.status = .sleep ∧
      Room c r p.memory
  | .serving r, p => p.memory.operation = r.op ∧ p.command = .runKernel ∧ Runs c p r
  | .exhausted r _, p | .closing r _, p => p.command = .runKernel ∧ Ended c p r

end Stages

/-! ### Steps of the PIM -/

/-- The request of thread `u` has been served and its slot not yet been written. -/
def Position.Holds : Position → ℕ → Prop
  | .readBits _ i _, u | .writeBits _ i _ _, u => i = u
  | _, _ => False

def Holding (p : Pim Position Partition) (u : ℕ) : Prop :=
  match p.position with
  | .running k => k.Holds u
  | _ => False

variable {c : Config} {r : Role} {m m' : Partition} {k : Position}

theorem Room.serve (h : Room c r m) (i : ℕ) :
    if (m.serve i r).exhausted c r then Spent c r (m.serve i r) else Room c r (m.serve i r) := by
  cases r with
  | enq =>
    obtain ⟨hhead, htail⟩ := h
    by_cases hfull : m.tailIndex + 1 ≥ c.maxSegmentItems
    · simp only [Partition.serve, Partition.exhausted, hfull, decide_true, if_true]
      exact ⟨hhead, by dsimp only; omega⟩
    · simp only [Partition.serve, Partition.exhausted, hfull, decide_false, Bool.false_eq_true,
        if_false]
      exact ⟨hhead, by dsimp only; omega⟩
  | deq =>
    obtain ⟨hhead, htail⟩ := h
    by_cases hempty : m.headIndex + 1 ≥ m.tailIndex
    · simp only [Partition.serve, Partition.exhausted, Partition.setParameter, hempty, true_or,
        decide_true, if_true]
      exact Nat.le_antisymm hhead hempty
    · have hmax : ¬ m.headIndex + 1 ≥ c.maxSegmentItems := by omega
      simp only [Partition.serve, Partition.exhausted, Partition.setParameter, hempty, hmax,
        or_self, decide_false, Bool.false_eq_true, if_false]
      exact ⟨by dsimp only; omega, htail⟩

theorem serve_infoBits (i j : ℕ) :
    ((m.serve i r).requestSlots j).infoBits = (m.requestSlots j).infoBits := by
  cases r with
  | enq => rfl
  | deq => by_cases h : j = i <;> simp [Partition.serve, Partition.setParameter, h]

theorem serve_operation (i : ℕ) : (m.serve i r).operation = m.operation := by
  cases r <;> rfl

@[simp] theorem room_setInfoBits (i : ℕ) (v : BitVec 16) :
    Room c r (m.setInfoBits i v) ↔ Room c r m := by
  cases r <;> rfl

@[simp] theorem spent_setInfoBits (i : ℕ) (v : BitVec 16) :
    Spent c r (m.setInfoBits i v) ↔ Spent c r m := by
  cases r <;> rfl

theorem Serves.kernelStep (h : Serves c r m k) (hop : m.operation = r.op)
    (hbits : ∀ i, Bits (m.requestSlots i).infoBits)
    (hlast : ∀ r' i v, k ≠ .writeBits r' i true v) :
    ∃ k', (kernelStep c k m).1 = some k' ∧ (kernelStep c k m).2.operation = r.op ∧
      Serves c r (kernelStep c k m).2 k' := by
  cases k with
  | checkInit =>
    have hinit : m.operation ≠ 3 := by cases r <;> simp [hop, Role.op]
    exact ⟨.checkEnq, by simp [PimQueue.kernelStep, hinit], hop, h⟩
  | checkEnq =>
    cases r with
    | enq =>
      have henq : m.operation = 1 := hop
      exact ⟨.check .enq 0, by simp [PimQueue.kernelStep, henq], hop, rfl, h⟩
    | deq =>
      have henq : m.operation = 2 := hop
      exact ⟨.checkDeq, by simp [PimQueue.kernelStep, henq], hop, rfl, h⟩
  | checkDeq =>
    obtain ⟨rfl, hroom⟩ := h
    have hdeq : m.operation = 2 := hop
    exact ⟨.check .deq 0, by simp [PimQueue.kernelStep, hdeq], hop, rfl, hroom⟩
  | check r' i =>
    obtain ⟨rfl, hroom⟩ := h
    by_cases hi : i < c.numHostThreads
    · by_cases hvalid : checkValidRequest (m.requestSlots i).infoBits = 0
      · refine ⟨.check r' (i + 1), ?_⟩
        simp only [PimQueue.kernelStep, hi, hvalid, if_true]
        exact ⟨trivial, hop, rfl, hroom⟩
      · refine ⟨.serve r' i, ?_⟩
        simp only [PimQueue.kernelStep, hi, hvalid, if_true, if_false]
        exact ⟨trivial, hop, rfl, hroom,
          not_not.mp (fun h3 => hvalid ((hbits i).checkValidRequest.mpr h3))⟩
    · refine ⟨.checkInit, ?_⟩
      simp only [PimQueue.kernelStep, hi, if_false]
      exact ⟨trivial, hop, hroom⟩
  | serve r' i =>
    obtain ⟨rfl, hroom, hslot⟩ := h
    refine ⟨_, rfl, (serve_operation i).trans hop, rfl, hroom.serve i, ?_⟩
    exact (serve_infoBits i i).trans hslot
  | readBits r' i last =>
    obtain ⟨rfl, hroom, hslot⟩ := h
    exact ⟨_, rfl, hop, rfl, hroom, hslot, hslot⟩
  | writeBits r' i last v =>
    cases last with
    | false =>
      obtain ⟨rfl, hroom, _⟩ := h
      exact ⟨.check r' (i + 1), rfl, hop, rfl, (room_setInfoBits i _).mpr hroom⟩
    | true => exact absurd rfl (hlast r' i v)
  | _ => exact h.elim

theorem Ends.kernelStep (h : Ends c r m k) :
    (∃ k', (kernelStep c k m).1 = some k' ∧ Ends c r (kernelStep c k m).2 k') ∨
      (kernelStep c k m).1 = none ∧ (kernelStep c k m).2.operation = 0 ∧
        Closed c r (kernelStep c k m).2 := by
  cases k with
  | off r' =>
    obtain ⟨rfl, hspent⟩ := h
    cases r' with
    | enq => exact .inl ⟨_, rfl, rfl, hspent⟩
    | deq => exact .inl ⟨_, rfl, rfl, rfl, hspent⟩
  | reset =>
    obtain ⟨rfl, hop, _⟩ := h
    exact .inl ⟨_, rfl, hop, rfl, rfl⟩
  | checkInit => exact .inl ⟨.checkEnq, by simp [PimQueue.kernelStep, h.1], h⟩
  | checkEnq => exact .inl ⟨.checkDeq, by simp [PimQueue.kernelStep, h.1], h⟩
  | checkDeq => exact .inl ⟨.checkPrint, by simp [PimQueue.kernelStep, h.1], h⟩
  | checkPrint => exact .inl ⟨.checkOff, by simp [PimQueue.kernelStep, h.1], h⟩
  | checkOff => exact .inr ⟨by simp [PimQueue.kernelStep, h.1], h⟩
  | _ => exact h.elim

variable {p p' : Pim Position Partition} {σ : Session}

theorem Session.after_of_ne (h : ∀ r i v, p.position ≠ .running (.writeBits r i true v)) :
    σ.after p = σ := by
  unfold Session.after
  split
  · exact absurd ‹_› (h _ _ _)
  · rfl

theorem Session.after_current : (σ.after p).current = σ.current := by
  unfold Session.after
  split <;> rfl

section

variable (h : SessionOk c σ p)
include h

theorem SessionOk.running (hpos : p.position = .running k) :
    (∃ r, σ = .serving r ∧ Serves c r p.memory k) ∨ ∃ r, Ends c r p.memory k := by
  cases σ with
  | serving r =>
    have hruns := h.2.2
    simp only [Runs, hpos] at hruns
    exact .inl ⟨r, rfl, hruns.2⟩
  | exhausted r | closing r =>
    have hended := h.2
    simp only [Ended, hpos] at hended
    exact .inr ⟨r, hended.2⟩
  | resting | chosen | activated => simp [SessionOk, Asleep, hpos] at h
  | commanded => simp [SessionOk, hpos] at h

theorem SessionOk.serving_of_writeBits {i : ℕ} {last : Bool}
    (hpos : p.position = .running (.writeBits r i last v)) :
    σ = .serving r ∧ (p.memory.requestSlots i).infoBits = 3 ∧ v = 3 := by
  obtain ⟨r', hσ, rfl, _, hslot⟩ | ⟨_, hends⟩ := h.running hpos
  · exact ⟨hσ, hslot⟩
  · exact hends.elim

theorem SessionOk.serving_of_serve {i : ℕ} (hpos : p.position = .running (.serve r i)) :
    σ = .serving r ∧ Room c r p.memory ∧ (p.memory.requestSlots i).infoBits = 3 := by
  obtain ⟨r', hσ, rfl, hserve⟩ | ⟨_, hends⟩ := h.running hpos
  · exact ⟨hσ, hserve⟩
  · exact hends.elim

end

theorem kernelStep_quiet (hserve : ∀ r i, k ≠ .serve r i)
    (hwrite : ∀ r i last v, k ≠ .writeBits r i last v) :
    (kernelStep c k m).2.requestSlots = m.requestSlots ∧
      ∀ k', (kernelStep c k m).1 = some k' → ∀ u, k'.Holds u ↔ k.Holds u := by
  cases k with
  | serve r i => exact absurd rfl (hserve r i)
  | writeBits r i last v => exact absurd rfl (hwrite r i last v)
  | check r j =>
    simp only [PimQueue.kernelStep]
    split_ifs <;> exact ⟨rfl, fun k' hk u => Option.some.inj hk ▸ .rfl⟩
  | checkInit | checkEnq | checkDeq | checkPrint | checkOff | print =>
    refine ⟨rfl, fun k' hk u => ?_⟩
    simp only [PimQueue.kernelStep] at hk
    split at hk
    all_goals cases hk <;> exact .rfl
  | off r =>
    cases r <;> exact ⟨rfl, fun k' hk u => Option.some.inj hk ▸ .rfl⟩
  | init | initOff | reset | printOff | readBits =>
    exact ⟨rfl, fun k' hk u => Option.some.inj hk ▸ .rfl⟩

theorem not_holding (hpos : ∀ k, p.position ≠ .running k) (u : ℕ) : ¬ Holding p u := by
  unfold Holding
  split
  · next k hk => exact absurd hk (hpos k)
  · exact not_false

section

variable (hstep : p.step c.debugResident (executeKernel c) = some p')
include hstep

theorem step_running {k' : Position} (hpos : p.position = .running k)
    (hk : (kernelStep c k p.memory).1 = some k') :
    p' = { p with position := .running k', memory := (kernelStep c k p.memory).2 } := by
  have hkernel : (executeKernel c).step k p.memory = (some k', (kernelStep c k p.memory).2) :=
    Prod.ext hk rfl
  simp only [Pim.step, hpos, hkernel, Option.some.injEq] at hstep
  exact hstep.symm

theorem step_returning (hpos : p.position = .running k) (hk : (kernelStep c k p.memory).1 = none) :
    p' = { p with position := .assertingBusy, memory := (kernelStep c k p.memory).2 } := by
  have hkernel : (executeKernel c).step k p.memory = (none, (kernelStep c k p.memory).2) :=
    Prod.ext hk rfl
  simp only [Pim.step, hpos, hkernel, Option.some.injEq] at hstep
  exact hstep.symm

theorem SessionOk.serving_step (h : SessionOk c (.serving r) p)
    (hbits : ∀ i, Bits (p.memory.requestSlots i).infoBits) :
    SessionOk c ((Session.serving r).after p) p' := by
  obtain ⟨command, status, position, m⟩ := p
  obtain ⟨hop, hcommand, hruns⟩ := h
  obtain rfl : command = .runKernel := hcommand
  cases position with
  | goingToSleep | woken | executing =>
    cases hstep
    exact ⟨hop, rfl, hruns⟩
  | waiting => cases hstep
  | assertingSleep =>
    obtain ⟨hstatus, hroom⟩ := hruns
    obtain rfl : status = .sleep := hstatus
    simp only [Pim.step, ne_eq, not_true_eq_false, and_false, if_false, Option.some.injEq] at hstep
    subst hstep
    exact ⟨hop, rfl, rfl, hroom⟩
  | settingBusy =>
    cases hstep
    exact ⟨hop, rfl, rfl, hruns.2⟩
  | running k =>
    obtain ⟨hstatus, hserves⟩ := hruns
    by_cases hlast : ∃ r' i v, k = .writeBits r' i true v
    · obtain ⟨r', i, v, rfl⟩ := hlast
      obtain ⟨rfl, hspent, _⟩ := hserves
      cases hstep
      exact ⟨rfl, hstatus, rfl, (spent_setInfoBits i _).mpr hspent⟩
    · have hnot : ∀ r' i v, k ≠ .writeBits r' i true v :=
        fun r' i v hk => hlast ⟨r', i, v, hk⟩
      obtain ⟨k', hk', hop', hserves'⟩ := hserves.kernelStep hop hbits hnot
      obtain rfl := step_running hstep rfl hk'
      rw [Session.after_of_ne (fun r' i v hk => hnot r' i v (Resident.running.inj hk))]
      exact ⟨hop', rfl, hstatus, hserves'⟩
  | _ => exact hruns.elim

theorem Ended.step (h : Ended c p r) (hcommand : p.command = .runKernel) :
    p'.command = .runKernel ∧ Ended c p' r := by
  obtain ⟨command, status, position, m⟩ := p
  obtain rfl : command = .runKernel := hcommand
  cases position with
  | running k =>
    obtain ⟨hstatus, hends⟩ := h
    rcases hends.kernelStep with ⟨k', hk', hends'⟩ | ⟨hk', hclosed⟩
    · obtain rfl := step_running hstep rfl hk'
      exact ⟨rfl, hstatus, hends'⟩
    · obtain rfl := step_returning hstep rfl hk'
      exact ⟨rfl, hstatus, hclosed⟩
  | assertingBusy =>
    obtain ⟨hstatus, hclosed⟩ := h
    obtain rfl : status = .busy := hstatus
    simp only [Pim.step, ne_eq, not_true_eq_false, and_false, if_false, Option.some.injEq] at hstep
    subst hstep
    exact ⟨rfl, rfl, hclosed⟩
  | assertingCommand =>
    simp only [Pim.step, reduceCtorEq, and_false, if_false, Option.some.injEq] at hstep
    subst hstep
    exact ⟨rfl, h⟩
  | settingDone =>
    cases hstep
    exact ⟨rfl, rfl, h.2⟩
  | awaitingNop =>
    cases hstep
    exact ⟨rfl, h⟩
  | _ => exact h.elim

theorem Asleep.step (h : Asleep p) :
    Asleep p' ∧ p'.memory = p.memory ∧ (p.status = .sleep → p'.status = .sleep) := by
  obtain ⟨command, status, position, m⟩ := p
  obtain ⟨hcommand, ⟨hpos | hpos, hstatus⟩ | ⟨hpos | hpos, hstatus⟩⟩ := h
  all_goals
    obtain rfl : command = .nop := hcommand
    obtain rfl : position = _ := hpos
    obtain rfl : status = _ := hstatus
    simp [Pim.step] at hstep
  all_goals
    subst hstep
    simp [Asleep]

theorem SessionOk.pim_step (h : SessionOk c σ p)
    (hbits : ∀ i, Bits (p.memory.requestSlots i).infoBits) :
    SessionOk c (σ.after p) p' := by
  cases σ with
  | serving r => exact h.serving_step hstep hbits
  | resting r | chosen r t | activated r t =>
    obtain ⟨hop, hasleep, hindices⟩ := h
    obtain ⟨hasleep', hmemory, _⟩ := hasleep.step hstep
    exact ⟨hmemory ▸ hop, hasleep', hmemory ▸ hindices⟩
  | commanded r t =>
    obtain ⟨command, status, position, m⟩ := p
    obtain ⟨hop, hcommand, hpos | hpos, hstatus, hroom⟩ := h
    · obtain rfl : position = _ := hpos
      cases hstep
      exact ⟨hop, hcommand, .inr rfl, hstatus, hroom⟩
    · obtain rfl : position = _ := hpos
      cases hstep
  | exhausted r t | closing r t =>
    exact h.2.step hstep h.1

theorem step_idle (hpos : ∀ k, p.position ≠ .running k) :
    p'.memory = p.memory ∧ ∀ u, ¬ Holding p' u := by
  obtain ⟨command, status, position, m⟩ := p
  cases position with
  | running k => exact absurd rfl (hpos k)
  | waiting | exited => cases hstep
  | executing =>
    by_cases hcommand : command = .runKernel <;>
    · simp only [Pim.step, executeKernel, hcommand, if_true, if_false, Option.some.injEq] at hstep
      subst hstep
      exact ⟨rfl, fun _ => not_false⟩
  | woken | assertingSleep | assertingBusy | assertingCommand | awaitingNop =>
    simp only [Pim.step] at hstep
    split at hstep
    all_goals
      cases hstep
      exact ⟨rfl, fun _ => not_false⟩
  | _ =>
    cases hstep
    exact ⟨rfl, fun _ => not_false⟩

theorem step_quiet (hserve : ∀ r i, p.position ≠ .running (.serve r i))
    (hwrite : ∀ r i last v, p.position ≠ .running (.writeBits r i last v)) :
    p'.memory.requestSlots = p.memory.requestSlots ∧ ∀ u, Holding p' u ↔ Holding p u := by
  by_cases hruns : ∃ k, p.position = .running k
  · obtain ⟨k, hpos⟩ := hruns
    rw [hpos] at hserve hwrite
    have hquiet := kernelStep_quiet (c := c) (m := p.memory)
      (fun r i hk => hserve r i (congrArg Resident.running hk))
      (fun r i last v hk => hwrite r i last v (congrArg Resident.running hk))
    have hholding : ∀ u, Holding p u ↔ k.Holds u := fun u => by simp [Holding, hpos]
    cases hk : (kernelStep c k p.memory).1 with
    | none =>
      obtain rfl := step_returning hstep hpos hk
      refine ⟨hquiet.1, fun u => Iff.trans ?_ (hholding u).symm⟩
      cases k with
      | readBits r i last => cases hk
      | writeBits r i last v => exact absurd rfl (hwrite r i last v)
      | _ => exact .rfl
    | some k' =>
      obtain rfl := step_running hstep hpos hk
      exact ⟨hquiet.1, fun u => (hquiet.2 k' hk u).trans (hholding u).symm⟩
  · have hidle : ∀ k, p.position ≠ .running k := fun k hk => hruns ⟨k, hk⟩
    obtain ⟨hmemory, hholding⟩ := step_idle hstep hidle
    exact ⟨by rw [hmemory], fun u => iff_of_false (hholding u) (not_holding hidle u)⟩

theorem step_serve {i : ℕ} (hpos : p.position = .running (.serve r i)) :
    p' = { p with
      position := .running (.readBits r i ((p.memory.serve i r).exhausted c r))
      memory := p.memory.serve i r } :=
  step_running hstep hpos rfl

theorem step_takeBack {i : ℕ} {last : Bool} (hpos : p.position = .running (.writeBits r i last 3)) :
    p'.memory.requestSlots = Function.update p.memory.requestSlots i
        { p.memory.requestSlots i with infoBits := if last then 0 else 2 } ∧
      ∀ u, ¬ Holding p' u := by
  cases last with
  | false =>
    have hk : (kernelStep c (.writeBits r i false 3) p.memory).1 = some (.check r (i + 1)) := rfl
    obtain rfl := step_running hstep hpos hk
    exact ⟨rfl, fun _ => not_false⟩
  | true =>
    have hk : (kernelStep c (.writeBits r i true 3) p.memory).1 = some (.off r) := rfl
    obtain rfl := step_running hstep hpos hk
    exact ⟨rfl, fun _ => not_false⟩

theorem step_infoBits (hpos : ∀ r i last v, p.position ≠ .running (.writeBits r i last v)) (i : ℕ) :
    (p'.memory.requestSlots i).infoBits = (p.memory.requestSlots i).infoBits := by
  by_cases hserves : ∃ r j, p.position = .running (.serve r j)
  · obtain ⟨r, j, hserve⟩ := hserves
    obtain rfl := step_serve hstep hserve
    exact serve_infoBits j i
  · rw [(step_quiet hstep (fun r j hserve => hserves ⟨r, j, hserve⟩) hpos).1]

/-- The status that the starting and the closing thread have seen stays. -/
theorem SessionOk.step_sleep {t : ℕ} (h : SessionOk c (.activated r t) p)
    (hsleep : p.status = .sleep) : p'.status = .sleep :=
  (h.2.1.step hstep).2.2 hsleep

theorem SessionOk.step_done {t : ℕ} (h : SessionOk c (.closing r t) p) (hdone : p.status = .done) :
    p'.status = .done := by
  obtain ⟨command, status, position, m⟩ := p
  obtain ⟨hcommand, hended⟩ := h
  obtain rfl : command = .runKernel := hcommand
  obtain rfl : status = .done := hdone
  cases position with
  | awaitingNop =>
    cases hstep
    rfl
  | running k => cases hended.1
  | assertingBusy | assertingCommand | settingDone => cases hended.1
  | _ => exact hended.elim

end

/-! ### Writes to the slots -/

/-- Two memories that differ at most in the segment and the slots. -/
structure SameIndices (m m' : Partition) : Prop where
  operation : m'.operation = m.operation
  headIndex : m'.headIndex = m.headIndex
  tailIndex : m'.tailIndex = m.tailIndex

theorem Room.congr (h : Room c r m) (hs : SameIndices m m') : Room c r m' := by
  cases r <;> simpa [Room, hs.headIndex, hs.tailIndex] using h

theorem Spent.congr (h : Spent c r m) (hs : SameIndices m m') : Spent c r m' := by
  cases r <;> simpa [Spent, hs.headIndex, hs.tailIndex] using h

theorem Closed.congr (h : Closed c r m) (hs : SameIndices m m') : Closed c r m' := by
  cases r <;> simpa [Closed, hs.headIndex, hs.tailIndex] using h

theorem Serves.congr (h : Serves c r m k) (hs : SameIndices m m')
    (hslots : ∀ i, (m.requestSlots i).infoBits = 3 → (m'.requestSlots i).infoBits = 3) :
    Serves c r m' k := by
  have hlast : ∀ last : Bool, (if last then Spent c r m else Room c r m) →
      if last then Spent c r m' else Room c r m' := by
    intro last hl
    cases last with
    | true => exact Spent.congr hl hs
    | false => exact Room.congr hl hs
  cases k with
  | checkInit | checkEnq => exact Room.congr h hs
  | checkDeq | check => exact ⟨h.1, h.2.congr hs⟩
  | serve r' i => exact ⟨h.1, h.2.1.congr hs, hslots i h.2.2⟩
  | readBits r' i last => exact ⟨h.1, hlast last h.2.1, hslots i h.2.2⟩
  | writeBits r' i last v => exact ⟨h.1, hlast last h.2.1, hslots i h.2.2.1, h.2.2.2⟩
  | _ => exact h.elim

theorem Ends.congr (h : Ends c r m k) (hs : SameIndices m m') : Ends c r m' k := by
  cases k with
  | off r' => exact ⟨h.1, h.2.congr hs⟩
  | reset => exact ⟨h.1, hs.operation.trans h.2.1, h.2.2.congr hs⟩
  | checkInit | checkEnq | checkDeq | checkPrint | checkOff =>
    exact ⟨hs.operation.trans h.1, h.2.congr hs⟩
  | _ => exact h.elim

theorem SessionOk.setMemory (h : SessionOk c σ p) (hs : SameIndices p.memory m')
    (hslots : σ.current = none ∨ ∀ i, (p.memory.requestSlots i).infoBits = 3 →
      (m'.requestSlots i).infoBits = 3) : SessionOk c σ { p with memory := m' } := by
  obtain ⟨command, status, position, m⟩ := p
  cases σ with
  | resting | chosen | activated => exact ⟨hs.operation.trans h.1, h.2.1, h.2.2.congr hs⟩
  | commanded r t =>
    exact ⟨hs.operation.trans h.1, h.2.1, h.2.2.1, h.2.2.2.1, h.2.2.2.2.congr hs⟩
  | serving r =>
    obtain ⟨hop, hcommand, hruns⟩ := h
    have hkeep := hslots.resolve_left nofun
    refine ⟨hs.operation.trans hop, hcommand, ?_⟩
    cases position with
    | running k => exact ⟨hruns.1, hruns.2.congr hs hkeep⟩
    | goingToSleep | waiting | woken | assertingSleep | settingBusy | executing =>
      exact ⟨hruns.1, hruns.2.congr hs⟩
    | _ => exact hruns.elim
  | exhausted r t | closing r t =>
    obtain ⟨hcommand, hended⟩ := h
    refine ⟨hcommand, ?_⟩
    cases position with
    | running k => exact ⟨hended.1, hended.2.congr hs⟩
    | assertingBusy | assertingCommand | settingDone | awaitingNop =>
      exact ⟨hended.1, hs.operation.trans hended.2.1, hended.2.2.congr hs⟩
    | _ => exact hended.elim

end SmcSim.PimQueue
