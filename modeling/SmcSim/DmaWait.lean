import SmcSim.DmaOutstanding

/-!
# Waiting for the DMA engine

`DMA_WAIT` of `utils.h` is the loop `while (PIM_DMA_STATUS & RES) {wfi; PIM_DMA_CLI = 0xFF;}`.
A response that completes a request posts the interrupt only if the processor is suspended
already, so that it is lost on a processor that has read the status but has not gone to sleep. The
interrupt of the engine's last tick, which finds no requests, is posted unconditionally.
-/

namespace SmcSim.DmaWait
open Dma Tlb Interleavings Option

/-! ### The processor and the engine -/

/-- Where the processor is in `DMA_WAIT(res)`; `running` is the rest of the kernel. -/
inductive Position where
  | running
  | readStatus (res : BitVec 8)
  | wfi (res : BitVec 8)
  | suspended (res : BitVec 8)
  | writeCli (res : BitVec 8)
  deriving DecidableEq, Repr

structure System where
  dma : Dma.State
  position : Position
  /-- The interrupt is pending. -/
  interrupt : Bool

def Position.isSuspended : Position → Bool
  | .suspended _ => true
  | _ => false

def Position.wakeUp : Position → Position
  | .suspended res => .writeCli res
  | p => p

/-- `pim_cpu->postInterrupt`, which wakes a suspended processor. -/
def System.postInterrupt (s : System) : System :=
  { s with interrupt := true, position := s.position.wakeUp }

/-- Whether an event posts the interrupt; `dma` is the engine after it. A response erases a request
if it completes it. -/
def System.posts (s : System) (dma : Dma.State) : Dma.Event → Bool
  | .tick _ => s.dma.requests.isEmpty
  | .response _ => dma.requests.length < s.dma.requests.length && s.position.isSuspended
  | _ => false

/-- The kernel makes its requests outside `DMA_WAIT`. -/
def System.admits (s : System) : Dma.Event → Bool
  | .initiate .. => s.position = .running
  | _ => true

inductive Event where
  | engine (e : Dma.Event)
  | wait (res : BitVec 8)
  /-- The next instruction of `DMA_WAIT`. -/
  | processor
  deriving DecidableEq

def step (H : Hardware) (s : System) : Event → Option System
  | .engine e =>
      if s.admits e then
        (Dma.step H s.dma e).map (fun dma =>
          let s' : System := { s with dma := dma }
          if s.posts dma e then s'.postInterrupt else s')
      else none
  | .wait res => if s.position = .running then some { s with position := .readStatus res } else none
  | .processor =>
      match s.position with
      | .running => none
      | .readStatus res =>
          if s.dma.dmaResources &&& res ≠ 0 then some { s with position := .wfi res }
          else some { s with position := .running }
      | .wfi res =>
          -- The instruction returns at once if the interrupt is pending.
          if s.interrupt then some { s with position := .writeCli res }
          else some { s with position := .suspended res }
      | .suspended _ => none
      | .writeCli res => some { s with interrupt := false, position := .readStatus res }

def start (t : Tlb.State) (interrupt : Bool) : System := ⟨reset t, .running, interrupt⟩

/-! ### No lost interrupt -/

def WakeUp (s : System) : Position → Prop
  | .wfi _ => s.interrupt = true ∨ s.dma.nextStateScheduled = true
  | .suspended _ => s.dma.nextStateScheduled = true
  | _ => True

structure Invariant (s : System) : Prop where
  reserved : Reserved s.dma
  scheduled : s.dma.requests ≠ [] → s.dma.nextStateScheduled = true
  wakeUp : WakeUp s s.position

section Runs

variable {H : Hardware} {s s' : System} {res : BitVec 8}

theorem invariant_start (t : Tlb.State) (interrupt : Bool) : Invariant (start t interrupt) :=
  ⟨reserved_reset t, fun hne => absurd rfl hne, trivial⟩

theorem wakeUp_postInterrupt (s : System) : WakeUp s.postInterrupt s.postInterrupt.position := by
  obtain ⟨dma, position, interrupt⟩ := s
  cases position with
  | wfi res => exact .inl rfl
  | _ => trivial

theorem WakeUp.engine {dma : Dma.State} {p : Position} (h : WakeUp s p)
    (hdma : s.dma.nextStateScheduled = true → dma.nextStateScheduled = true) :
    WakeUp { s with dma := dma } p := by
  cases p with
  | wfi res => exact h.imp_right hdma
  | suspended res => exact hdma h
  | _ => trivial

theorem Invariant.engine {e : Dma.Event} (h : Invariant s)
    (hstep : step H s (.engine e) = some s') : Invariant s' := by
  simp only [step] at hstep
  split at hstep
  · obtain ⟨dma, hdma, rfl⟩ := map_eq_some_iff.mp hstep
    have hreserved := h.reserved.step hdma
    have hscheduled := scheduled_of_step h.scheduled hdma
    split
    · exact ⟨hreserved, hscheduled, wakeUp_postInterrupt { s with dma := dma }⟩
    · next hquiet =>
      refine ⟨hreserved, hscheduled, h.wakeUp.engine (fun hnext => ?_)⟩
      rcases scheduled_or_empty hnext hdma with hnext' | ⟨now, rfl, hempty⟩
      · exact hnext'
      · exact absurd (by simp [System.posts, hempty]) hquiet
  · cases hstep

theorem Invariant.processor (h : Invariant s) (hstep : step H s .processor = some s') :
    Invariant s' := by
  have hwake := h.wakeUp
  simp only [step] at hstep
  split at hstep
  · cases hstep
  · split at hstep
    · next hbusy =>
      cases hstep
      exact ⟨h.reserved, h.scheduled, .inr (h.scheduled (h.reserved.requests_ne_nil hbusy))⟩
    · cases hstep
      exact ⟨h.reserved, h.scheduled, trivial⟩
  · next res hpos =>
    split at hstep
    · cases hstep
      exact ⟨h.reserved, h.scheduled, trivial⟩
    · next hnone =>
      cases hstep
      rw [hpos] at hwake
      exact ⟨h.reserved, h.scheduled, hwake.resolve_left hnone⟩
  · cases hstep
  · cases hstep
    exact ⟨h.reserved, h.scheduled, trivial⟩

theorem Invariant.step {e : Event} (h : Invariant s) (hstep : step H s e = some s') :
    Invariant s' := by
  cases e with
  | engine e => exact h.engine hstep
  | wait res =>
    simp only [DmaWait.step] at hstep
    split at hstep
    · cases hstep
      exact ⟨h.reserved, h.scheduled, trivial⟩
    · cases hstep
  | processor => exact h.processor hstep

/-! ### The end of the wait -/

def Event.IsOwn : Event → Prop
  | .engine (.tick _) => True
  | .processor => True
  | _ => False

def waitRank : Position → ℕ
  | .running => 0
  | .readStatus _ => 1
  | .writeCli _ => 2
  | .suspended _ => 3
  | .wfi _ => 4

theorem Invariant.closer (h : Invariant s) (hempty : s.dma.requests = [])
    (hwaits : s.position ≠ .running) :
    ∃ e s', e.IsOwn ∧ DmaWait.step H s e = some s' ∧ s'.dma.requests = [] ∧
      waitRank s'.position < waitRank s.position := by
  have hwake := h.wakeUp
  cases hpos : s.position with
  | running => exact absurd hpos hwaits
  | readStatus res =>
    have hfree : ¬ s.dma.dmaResources &&& res ≠ 0 := fun hbusy =>
      h.reserved.requests_ne_nil hbusy hempty
    exact ⟨.processor, { s with position := .running }, trivial,
      by simp only [DmaWait.step, hpos, if_neg hfree], hempty, by simp [waitRank]⟩
  | wfi res =>
    by_cases hinterrupt : s.interrupt = true
    · exact ⟨.processor, { s with position := .writeCli res }, trivial,
        by simp only [DmaWait.step, hpos, if_pos hinterrupt], hempty, by simp [waitRank]⟩
    · exact ⟨.processor, { s with position := .suspended res }, trivial,
        by simp only [DmaWait.step, hpos, if_neg hinterrupt], hempty, by simp [waitRank]⟩
  | suspended res =>
    -- The last tick has not happened; it wakes the processor.
    rw [hpos] at hwake
    have hscheduled : s.dma.nextStateScheduled = true := hwake
    obtain ⟨dma, htick, hempty'⟩ : ∃ dma, Dma.step H s.dma (.tick 0) = some dma ∧
        dma.requests = [] := by
      simp only [Dma.step, nextState, hscheduled, hempty, if_true]
      exact ⟨_, rfl, rfl⟩
    refine ⟨.engine (.tick 0), ({ s with dma := dma } : System).postInterrupt, trivial, ?_,
      hempty', ?_⟩
    · simp only [DmaWait.step, System.admits, htick, if_true, map_some, System.posts, hempty,
        List.isEmpty_nil]
    · simp [System.postInterrupt, hpos, Position.wakeUp, waitRank]
  | writeCli res =>
    exact ⟨.processor, { s with interrupt := false, position := .readStatus res }, trivial,
      by simp only [DmaWait.step, hpos], hempty, by simp [waitRank]⟩

theorem Invariant.returns (h : Invariant s) (hempty : s.dma.requests = []) :
    ∃ s', Reached (DmaWait.step H) (fun _ e => e.IsOwn) s s' ∧ s'.position = .running := by
  refine exists_reached_goal (P := fun s => Invariant s ∧ s.dma.requests = [])
    (fun s => waitRank s.position) (fun s ⟨hs, hs'⟩ hwaits => ?_) ⟨h, hempty⟩
  obtain ⟨e, s', hown, hstep, hempty', hlt⟩ := hs.closer (H := H) hs' hwaits
  exact ⟨e, s', hown, hstep, ⟨hs.step hstep, hempty'⟩, hlt⟩

/-- In every run of the kernel with the engine, the processor is never suspended in `DMA_WAIT` with
no interrupt pending, no request outstanding and no tick scheduled; and once no request is
outstanding, the ticks that are scheduled and the instructions of the loop end it. -/
theorem not_asleep_forever (H : Hardware) (t : Tlb.State) (interrupt : Bool) (s : System)
    (h : Reached (step H) (fun _ _ => True) (start t interrupt) s) :
    (∀ res, ¬ (s.position = .suspended res ∧ s.interrupt = false ∧ s.dma.requests = [] ∧
      s.dma.nextStateScheduled = false)) ∧
    (s.dma.requests = [] →
      ∃ s', Reached (step H) (fun _ e => e.IsOwn) s s' ∧ s'.position = .running) := by
  have hinvariant : Invariant s := h.invariant (I := Invariant) (invariant_start t interrupt)
    (fun s e s' hs _ hstep => hs.step hstep)
  refine ⟨?_, fun hempty => hinvariant.returns hempty⟩
  rintro res ⟨hpos, -, -, hnone⟩
  have hwake := hinvariant.wakeUp
  rw [hpos] at hwake
  exact Bool.false_ne_true (hnone.symm.trans hwake)

end Runs

/-- The response comes between the read of the status and `wfi`: its interrupt is not posted, and
the processor sleeps until the last tick. -/
theorem asleep_until_tick : ∃ s,
    Reached (step (hardware fourPagesDtlb 64)) (fun _ _ => True)
      (start (initial scratchpad) false) s ∧
    s.position = .suspended 1 ∧ s.interrupt = false ∧ s.dma.requests = [] ∧
    s.dma.nextStateScheduled = true ∧
    ∃ s', Reached (step (hardware fourPagesDtlb 64)) (fun _ e => e.IsOwn) s s' ∧
      s'.position = .running := by
  have hrun : (runSchedule (guarded (step (hardware fourPagesDtlb 64)) (fun _ _ => True))
      (start (initial scratchpad) false)
      [.engine (.initiate true 0 0x8000 8 1 0), .engine (.tick 1), .engine (.tick 2), .wait 1,
        .processor, .engine (.response 0), .processor]).map
      (fun s => (s.position, s.interrupt, s.dma.requests)) = some (.suspended 1, false, []) := by
    decide +kernel
  obtain ⟨s, hs, hvalues⟩ := exists_of_runSchedule _ hrun
  simp only [Prod.mk.injEq] at hvalues
  obtain ⟨hpos, hinterrupt, hempty⟩ := hvalues
  obtain ⟨hawake, hreturns⟩ := not_asleep_forever _ _ _ s hs
  refine ⟨s, hs, hpos, hinterrupt, hempty, ?_, hreturns hempty⟩
  by_contra hnone
  exact hawake 1 ⟨hpos, hinterrupt, hempty, Bool.not_eq_true _ ▸ hnone⟩

end SmcSim.DmaWait
