import SmcSim.QueueFifo
import SmcSim.RegisterHandover

/-!
# The mode register of the queue

Threads and kernels both write `PIM_SREG[0]`: the thread that moves `enq_part` or `deq_part` on
requests a mode of the next partition, and a kernel turns its partition off when its segment is
exhausted, after it has released that thread. No request is lost as long as the variables only move
to partitions that no thread is engaged in.
-/

namespace SmcSim.PimQueue
open CommandHandshake Interleavings RegisterHandover Option

/-! ### Requests of a mode -/

def kernelAccess (p : Pim Position Partition) : Option (Access Role) :=
  match p.position with
  | .running (.off _) | .running .initOff | .running .printOff => some .overwrite
  | .running .checkEnq => if p.memory.operation = Role.enq.op then some .act else none
  | .running .checkDeq => if p.memory.operation = Role.deq.op then some .act else none
  | _ => none

def modeAccess (s : State) : Party → Option (ℕ × Access Role)
  | .thread t =>
      match (s.threads t).position with
      | .activateWrite q => some (q, .request (s.threads t).role)
      | _ => none
  | .pim q => (kernelAccess (s.pims q)).map (fun a => (q, a))

/-- `main` has requested the modes of the two current partitions. -/
def afterMain (s : State) : Tracked State ℕ Role where
  state := s
  requested q :=
    if s.part .enq = q then some .enq else if s.part .deq = q then some .deq else none

def Alone (c : Config) : Pim Position Partition → Pim Position Partition → Prop :=
  Reached (fun p (_ : Unit) => p.step c.debugResident (executeKernel c)) (fun _ _ => True)

/-- No mode that is requested is lost, and the register holds it until the kernel acts on it. A PIM
that a thread waits for in `wait_for_completion_simple` becomes done, and a kernel in the mode of
the thread serves its slot or exhausts the segment. -/
structure ModesKept (c : Config) (x : Tracked State ℕ Role) : Prop where
  kept : ∀ a, ¬ Loses (step c) modeAccess x a
  held : ∀ q r, x.requested q = some r → (x.state.pims q).memory.operation = r.op
  closes : ∀ t, (x.state.threads t).position = .checkDone →
    ∃ p, Alone c (x.state.pims (x.state.threads t).currPart) p ∧ p.status = .done
  serves : ∀ t < c.numHostThreads, ∀ r q, (x.state.threads t).role = r →
    (x.state.threads t).currPart = q → x.state.part r = q → (x.state.slot q t).infoBits = 3 →
    (x.state.pims q).status = .busy → (x.state.pims q).memory.operation = r.op →
    ∃ p, Alone c (x.state.pims q) p ∧
      ((p.memory.requestSlots t).infoBits ≠ 3 ∨ p.position = .running (.off r))

/-! ### Open requests -/

def Ahead (r : Role) : Resident Position → Prop
  | .running .checkInit | .running .checkEnq => True
  | .running .checkDeq => r = .deq
  | .running _ | .initStatus | .initCommand | .assertingBusy | .assertingCommand | .settingDone =>
      False
  | _ => True

structure Open (r : Role) (p : Pim Position Partition) : Prop where
  operation : p.memory.operation = r.op
  ahead : Ahead r p.position

variable {c : Config} {s s' : State} {p p' : Pim Position Partition} {r : Role} {t q : ℕ}

theorem kernelAccess_cases {a : Access Role} (h : kernelAccess p = some a) :
    a = .act ∨ a = .overwrite ∧ ¬ Ahead r p.position := by
  unfold kernelAccess at h
  split at h
  · next hpos => exact .inr ⟨(some.inj h).symm, by simp [hpos, Ahead]⟩
  · next hpos => exact .inr ⟨(some.inj h).symm, by simp [hpos, Ahead]⟩
  · next hpos => exact .inr ⟨(some.inj h).symm, by simp [hpos, Ahead]⟩
  · exact .inl (some.inj (ite_none_right_eq_some.mp h).2).symm
  · exact .inl (some.inj (ite_none_right_eq_some.mp h).2).symm
  · cases h

/-- The kernel does not turn its partition off before it has come to the test. -/
theorem Open.access {a : Access Role} (h : Open r p) (haccess : kernelAccess p = some a) :
    a = .act :=
  (kernelAccess_cases haccess).resolve_right (fun hnot => hnot.2 h.ahead)

/-- A PIM that does not act on the mode keeps it. -/
theorem Open.pim_step (h : Open r p) (hnone : kernelAccess p = none)
    (hstep : p.step c.debugResident (executeKernel c) = some p') : Open r p' := by
  obtain ⟨command, status, position, m⟩ := p
  obtain ⟨hop, hahead⟩ := h
  cases position with
  | waiting | exited => cases hstep
  | woken | assertingSleep | awaitingNop =>
    simp only [Pim.step] at hstep
    split at hstep
    all_goals
      cases hstep
      exact ⟨hop, trivial⟩
  | goingToSleep | settingBusy | settingSleep =>
    cases hstep
    exact ⟨hop, trivial⟩
  | executing =>
    by_cases hcommand : command = .runKernel <;>
    · simp only [Pim.step, executeKernel, hcommand, if_true, if_false, some.injEq] at hstep
      subst hstep
      exact ⟨hop, trivial⟩
  | running k =>
    cases k with
    | checkInit =>
      have hinit : m.operation ≠ 3 := by
        change m.operation = r.op at hop
        cases r <;> simp [hop, Role.op]
      obtain rfl := step_running hstep rfl (show (kernelStep c .checkInit m).1 = some .checkEnq by
        simp [kernelStep, hinit])
      exact ⟨hop, trivial⟩
    | checkEnq =>
      have henq : m.operation ≠ 1 := by
        intro henq
        simp [kernelAccess, henq, Role.op] at hnone
      obtain rfl := step_running hstep rfl (show (kernelStep c .checkEnq m).1 = some .checkDeq by
        simp [kernelStep, henq])
      refine ⟨hop, ?_⟩
      cases r with
      | enq => exact absurd hop henq
      | deq => rfl
    | checkDeq =>
      obtain rfl : r = .deq := hahead
      have hdeq : m.operation = Role.deq.op := hop
      simp [kernelAccess, hdeq] at hnone
    | _ => exact hahead.elim
  | _ => exact hahead.elim

theorem threadStep_mode (hstep : threadStep c t s = some s')
    (hpos : (s.threads t).position ≠ .activateWrite q) :
    (s'.pims q).memory.operation = (s.pims q).memory.operation ∧
      ((s'.pims q).position = (s.pims q).position ∨ (s'.pims q).position = .woken) := by
  have hkeep : ∀ q' p th, p.memory.operation = (s.pims q').memory.operation →
      p.position = (s.pims q').position →
      (((s.setPim q' p).setThread t th).pims q).memory.operation = (s.pims q).memory.operation ∧
      ((((s.setPim q' p).setThread t th).pims q).position = (s.pims q).position ∨
        (((s.setPim q' p).setThread t th).pims q).position = .woken) :=
    fun q' p th hop hpos => ⟨apply_update_of_eq s.pims (fun p => p.memory.operation) hop q,
      .inl (apply_update_of_eq s.pims Pim.position hpos q)⟩
  cases hp : (s.threads t).position with
  | writeParameter | writeInfo | clearSlot | giveCommand q' | giveNop =>
    simp only [threadStep, hp, some.injEq] at hstep
    exact hstep ▸ hkeep _ _ _ rfl rfl
  | wakeUp q' =>
    simp only [threadStep, hp, some.injEq] at hstep
    subst hstep
    by_cases hq : q = q'
    · subst hq
      simp only [State.setThread, State.setPim, Function.update_self, Pim.interrupt]
      split
      · exact ⟨rfl, .inr rfl⟩
      · exact ⟨rfl, .inl rfl⟩
    · simp [State.setPim, State.setThread, hq]
  | activateWrite q' =>
    simp only [threadStep, hp, some.injEq] at hstep
    subst hstep
    have hq : q ≠ q' := fun hq => hpos (hq ▸ hp)
    simp [State.setMemory, State.setPim, State.setThread, hq]
  | recheckPart | checkSleep q' | checkDone =>
    simp only [threadStep, hp] at hstep
    split at hstep
    all_goals
      cases hstep
      exact ⟨rfl, .inl rfl⟩
  | finished =>
    simp only [threadStep, hp] at hstep
    cases hstep
  | _ =>
    simp only [threadStep, hp, some.injEq] at hstep
    subst hstep
    exact ⟨rfl, .inl rfl⟩

theorem Open.thread_step (h : Open r (s.pims q)) (hstep : threadStep c t s = some s')
    (hpos : (s.threads t).position ≠ .activateWrite q) : Open r (s'.pims q) := by
  obtain ⟨hop, hposition⟩ := threadStep_mode hstep hpos
  refine ⟨hop.trans h.operation, ?_⟩
  rcases hposition with hposition | hposition
  · rw [hposition]
    exact h.ahead
  · rw [hposition]
    trivial

theorem Asleep.ahead (h : Asleep p) : Ahead r p.position := by
  rcases h.2 with ⟨hpos | hpos, -⟩ | ⟨hpos | hpos, -⟩ <;> rw [hpos] <;> trivial

/-! ### A kernel that ends -/

def endRank : Resident Position → ℕ
  | .running (.off _) => 10
  | .running .reset => 9
  | .running .checkInit => 8
  | .running .checkEnq => 7
  | .running .checkDeq => 6
  | .running .checkPrint => 5
  | .running .checkOff => 4
  | .assertingBusy => 3
  | .assertingCommand => 2
  | .settingDone => 1
  | _ => 0

theorem Ended.closer (h : Ended c p r) (hcommand : p.command = .runKernel)
    (hdone : p.status ≠ .done) : ∃ p', p.step c.debugResident (executeKernel c) = some p' ∧
      endRank p'.position < endRank p.position := by
  obtain ⟨command, status, position, m⟩ := p
  obtain rfl : command = .runKernel := hcommand
  cases position with
  | running k =>
    obtain ⟨-, hends⟩ := h
    cases k with
    | off r' => cases r' <;> simp [Pim.step, executeKernel, kernelStep, endRank]
    | reset => simp [Pim.step, executeKernel, kernelStep, endRank]
    | checkInit | checkEnq | checkDeq | checkPrint | checkOff =>
      have hop : m.operation = 0 := hends.1
      simp [Pim.step, executeKernel, kernelStep, hop, endRank]
    | _ => exact hends.elim
  | assertingBusy =>
    obtain rfl : status = .busy := h.1
    simp [Pim.step, endRank]
  | assertingCommand | settingDone => simp [Pim.step, endRank]
  | awaitingNop => exact absurd h.1 hdone
  | _ => exact h.elim

theorem Ended.alone (h : Ended c p r) (hcommand : p.command = .runKernel) :
    ∃ p', Alone c p p' ∧ p'.status = .done := by
  refine exists_reached_goal (P := fun p => p.command = .runKernel ∧ Ended c p r)
    (fun p => endRank p.position) (fun p hp hnot => ?_) ⟨hcommand, h⟩
  obtain ⟨p', hstep, hlt⟩ := hp.2.closer hp.1 hnot
  exact ⟨(), p', trivial, hstep, hp.2.step hstep hp.1, hlt⟩

/-! ### A kernel that serves -/

/-- The steps from the check of slot `i` up to the answer of slot `t`. -/
def checkRank (n t i : ℕ) : ℕ := if i ≤ t then 4 * (t - i) + 4 else 4 * (n - i) + 4 * t + 8

/-- The steps behind slot `i`. -/
def restRank (n t i : ℕ) : ℕ := if i = t then 0 else checkRank n t (i + 1)

def serveRank (n t : ℕ) : Resident Position → ℕ
  | .executing => 4 * t + 8
  | .running .checkInit => 4 * t + 7
  | .running .checkEnq => 4 * t + 6
  | .running .checkDeq => 4 * t + 5
  | .running (.check _ i) => checkRank n t i
  | .running (.serve _ i) => restRank n t i + 3
  | .running (.readBits _ i _) => restRank n t i + 2
  | .running (.writeBits _ i _ _) => restRank n t i + 1
  | _ => 0

/-- The request of slot `t` waits for the kernel, which serves its role. -/
structure Attended (c : Config) (r : Role) (t : ℕ) (p : Pim Position Partition) : Prop where
  serving : SessionOk c (.serving r) p
  busy : p.status = .busy
  bits : ∀ i, Bits (p.memory.requestSlots i).infoBits
  request : (p.memory.requestSlots t).infoBits = 3

theorem Serves.bits {m : Partition} {k : Position} (h : Serves c r m k)
    (hbits : ∀ i, Bits (m.requestSlots i).infoBits) (i : ℕ) :
    Bits ((PimQueue.kernelStep c k m).2.requestSlots i).infoBits := by
  by_cases hserve : ∃ r' j, k = .serve r' j
  · obtain ⟨r', j, rfl⟩ := hserve
    have hsame : ((PimQueue.kernelStep c (.serve r' j) m).2.requestSlots i).infoBits =
        (m.requestSlots i).infoBits := serve_infoBits j i
    rw [hsame]
    exact hbits i
  · by_cases hwrite : ∃ r' j last v, k = .writeBits r' j last v
    · obtain ⟨r', j, last, v, rfl⟩ := hwrite
      obtain ⟨-, -, -, rfl⟩ := h
      by_cases hij : i = j
      · subst hij
        cases last with
        | false =>
          right; left
          simp [PimQueue.kernelStep, Partition.setInfoBits, clearRequest]
        | true =>
          left
          simp [PimQueue.kernelStep, Partition.setInfoBits, clearRequestPimValid]
      · have hsame : ((PimQueue.kernelStep c (.writeBits r' j last 3) m).2.requestSlots i) =
            m.requestSlots i := by
          cases last <;> simp [PimQueue.kernelStep, Partition.setInfoBits, hij]
        rw [hsame]
        exact hbits i
    · rw [(kernelStep_quiet (fun r' j hk => hserve ⟨r', j, hk⟩)
        (fun r' j last v hk => hwrite ⟨r', j, last, v, hk⟩)).1]
      exact hbits i

theorem restRank_lt {n i : ℕ} (hi : i < n) : restRank n t i + 3 < checkRank n t i := by
  unfold restRank checkRank
  split
  · rw [if_pos (by omega)]
    omega
  · split
    · rw [if_pos (by omega)]
      omega
    · rw [if_neg (by omega)]
      omega

theorem Serves.closer {m : Partition} {k k' : Position} (h : Serves c r m k)
    (hk : (PimQueue.kernelStep c k m).1 = some k') (hop : m.operation = r.op)
    (ht : t < c.numHostThreads) (hrequest : (m.requestSlots t).infoBits = 3)
    (hrequest' : ((PimQueue.kernelStep c k m).2.requestSlots t).infoBits = 3)
    (hlast : ∀ r' i v, k ≠ .writeBits r' i true v) :
    serveRank c.numHostThreads t (.running k') < serveRank c.numHostThreads t (.running k) := by
  have hzero : checkRank c.numHostThreads t 0 = 4 * t + 4 := by simp [checkRank]
  have hvalid : checkValidRequest (3 : BitVec 16) ≠ 0 := by decide
  cases k with
  | checkInit =>
    have hinit : m.operation ≠ 3 := by cases r <;> simp [hop, Role.op]
    simp only [PimQueue.kernelStep, hinit, if_false, some.injEq] at hk
    subst hk
    simp [serveRank]
  | checkEnq =>
    cases r with
    | enq =>
      have henq : m.operation = 1 := hop
      simp only [PimQueue.kernelStep, henq, if_true, some.injEq] at hk
      subst hk
      simp [serveRank, hzero]
    | deq =>
      have henq : m.operation ≠ 1 := by simp [hop, Role.op]
      simp only [PimQueue.kernelStep, henq, if_false, some.injEq] at hk
      subst hk
      simp [serveRank]
  | checkDeq =>
    obtain ⟨rfl, -⟩ := h
    have hdeq : m.operation = 2 := hop
    simp only [PimQueue.kernelStep, hdeq, if_true, some.injEq] at hk
    subst hk
    simp [serveRank, hzero]
  | check r' i =>
    simp only [PimQueue.kernelStep] at hk
    split at hk
    · next hi =>
      split at hk
      · next hnone =>
        cases hk
        have hne : i ≠ t := by
          rintro rfl
          rw [hrequest] at hnone
          exact hvalid hnone
        have hlt := restRank_lt (t := t) hi
        rw [restRank, if_neg hne] at hlt
        simp only [serveRank]
        omega
      · cases hk
        exact restRank_lt hi
    · next hi =>
      cases hk
      have hrank : checkRank c.numHostThreads t i = 4 * (c.numHostThreads - i) + 4 * t + 8 := by
        rw [checkRank, if_neg (by omega)]
      simp only [serveRank, hrank]
      omega
  | serve | readBits =>
    cases hk
    simp [serveRank]
  | writeBits r' i last v =>
    obtain ⟨-, -, hslot, rfl⟩ := h
    cases last with
    | true => exact absurd rfl (hlast r' i 3)
    | false =>
      cases hk
      have hne : i ≠ t := by
        rintro rfl
        simp [PimQueue.kernelStep, Partition.setInfoBits, clearRequest] at hrequest'
      simp [serveRank, restRank, hne]
  | _ => exact h.elim

theorem Attended.closer (h : Attended c r t p) (ht : t < c.numHostThreads) :
    ∃ p', p.step c.debugResident (executeKernel c) = some p' ∧
      ((p'.memory.requestSlots t).infoBits ≠ 3 ∨ p'.position = .running (.off r) ∨
        Attended c r t p' ∧
          serveRank c.numHostThreads t p'.position < serveRank c.numHostThreads t p.position) := by
  obtain ⟨command, status, position, m⟩ := p
  obtain ⟨⟨hop, hcommand, hruns⟩, hbusy, hbits, hrequest⟩ := h
  obtain rfl : command = .runKernel := hcommand
  obtain rfl : status = .busy := hbusy
  cases position with
  | executing =>
    refine ⟨_, rfl, .inr (.inr ⟨⟨⟨hop, rfl, rfl, hruns.2⟩, rfl, hbits, hrequest⟩, ?_⟩)⟩
    simp [serveRank]
  | running k =>
    have hserves : Serves c r m k := hruns.2
    by_cases hlast : ∃ r' i v, k = .writeBits r' i true v
    · obtain ⟨r', i, v, rfl⟩ := hlast
      obtain rfl : r' = r := hserves.1
      exact ⟨_, rfl, .inr (.inl rfl)⟩
    · have hnot : ∀ r' i v, k ≠ .writeBits r' i true v := fun r' i v hk => hlast ⟨r', i, v, hk⟩
      obtain ⟨k', hk', hop', hserves'⟩ := hserves.kernelStep hop hbits hnot
      have hkernel : (executeKernel c).step k m = (some k', (kernelStep c k m).2) :=
        Prod.ext hk' rfl
      refine ⟨⟨.runKernel, .busy, .running k', (kernelStep c k m).2⟩, ?_, ?_⟩
      · simp only [Pim.step, hkernel]
      · by_cases hslot : ((kernelStep c k m).2.requestSlots t).infoBits = 3
        · exact .inr (.inr ⟨⟨⟨hop', rfl, rfl, hserves'⟩, rfl, hserves.bits hbits, hslot⟩,
            hserves.closer hk' hop ht hrequest hslot hnot⟩)
        · exact .inl hslot
  | goingToSleep | waiting | woken | assertingSleep | settingBusy => cases hruns.1
  | _ => exact hruns.elim

/-- A kernel that serves the role of a request answers it or exhausts its segment. -/
theorem Attended.alone (h : Attended c r t p) (ht : t < c.numHostThreads) :
    ∃ p', Alone c p p' ∧
      ((p'.memory.requestSlots t).infoBits ≠ 3 ∨ p'.position = .running (.off r)) := by
  refine exists_reached_of_closer (P := Attended c r t)
    (fun p => serveRank c.numHostThreads t p.position) (fun p hp => ?_) h
  obtain ⟨p', hstep, hnext⟩ := hp.closer ht
  exact ⟨(), p', trivial, hstep, or_assoc.mpr hnext⟩

/-! ### Runs -/

variable {initial : List ℕ} {σ : ℕ → Session} {a : Party}

theorem modeAccess_request (h : modeAccess s a = some (q, .request r)) :
    ∃ t, a = .thread t ∧ (s.threads t).position = .activateWrite q ∧ (s.threads t).role = r := by
  cases a with
  | thread t =>
    simp only [modeAccess] at h
    split at h
    · next q' hpos =>
      obtain ⟨rfl, hrole⟩ := Prod.mk.inj (some.inj h)
      exact ⟨t, rfl, hpos, Access.request.inj hrole⟩
    · cases h
  | pim q' =>
    obtain ⟨b, hb, hpair⟩ := map_eq_some_iff.mp h
    obtain ⟨-, rfl⟩ := Prod.mk.inj hpair
    rcases kernelAccess_cases (r := r) hb with hact | ⟨hoverwrite, -⟩
    · cases hact
    · cases hoverwrite

theorem open_of_request (h : Coherent c s σ) (hstep : step c s a = some s')
    (haccess : modeAccess s a = some (q, .request r)) : Open r (s'.pims q) := by
  obtain ⟨t, rfl, hpos, rfl⟩ := modeAccess_request haccess
  have hok := h.threads t
  simp only [ThreadOk, hpos] at hok
  have hsession := h.pims q
  rw [hok.2.2] at hsession
  have hnext := (ite_none_right_eq_some.mp hstep).2
  simp only [threadStep, hpos, some.injEq] at hnext
  subst hnext
  have hahead : Ahead (s.threads t).role (s.pims q).position := hsession.2.1.ahead
  refine ⟨?_, ?_⟩
  · simp [State.setThread, State.setMemory, State.setPim]
  · simpa [State.setThread, State.setMemory, State.setPim] using hahead

theorem Open.step (h : Open r (s.pims q)) (hstep : step c s a = some s')
    (haccess : ∀ b, modeAccess s a ≠ some (q, b)) : Open r (s'.pims q) := by
  cases a with
  | thread t =>
    refine h.thread_step (ite_none_right_eq_some.mp hstep).2
      (fun hpos => haccess (.request (s.threads t).role) ?_)
    simp only [modeAccess, hpos]
  | pim q' =>
    obtain ⟨p, hp, rfl⟩ := map_eq_some_iff.mp (ite_none_right_eq_some.mp hstep).2
    by_cases hq : q = q'
    · subst hq
      have hnone : kernelAccess (s.pims q) = none := by
        cases hb : kernelAccess (s.pims q) with
        | none => rfl
        | some b => exact absurd (by simp only [modeAccess, hb, map_some]) (haccess b)
      have hopen := h.pim_step hnone hp
      simpa [State.setPim] using hopen
    · simpa [State.setPim, hq] using h

/-- Neither side writes a register with an open request. -/
theorem Open.access_eq_act {b : Access Role} (h : Open r (s.pims q)) (hcoherent : Coherent c s σ)
    (haccess : modeAccess s a = some (q, b)) : b = .act := by
  cases a with
  | thread t =>
    simp only [modeAccess] at haccess
    split at haccess
    · next q' hpos =>
      obtain ⟨rfl, rfl⟩ := Prod.mk.inj (some.inj haccess)
      have hok := hcoherent.threads t
      simp only [ThreadOk, hpos] at hok
      have hsession := hcoherent.pims q'
      rw [hok.2.2] at hsession
      have hzero := h.operation.symm.trans hsession.1
      cases r <;> cases hzero
    · cases haccess
  | pim q' =>
    obtain ⟨b', hb, hpair⟩ := map_eq_some_iff.mp haccess
    obtain ⟨rfl, rfl⟩ := Prod.mk.inj hpair
    exact h.access hb

theorem SetUp.open_afterMain (h : SetUp c s) (hrequested : (afterMain s).requested q = some r) :
    Open r (s.pims q) := by
  have hpart : s.part r = q := by
    simp only [afterMain] at hrequested
    split at hrequested
    · next hq => exact some.inj hrequested ▸ hq
    · split at hrequested
      · next hq => exact some.inj hrequested ▸ hq
      · cases hrequested
  obtain ⟨-, -, hpos, hop, -⟩ := h.started r
  rw [hpart] at hpos hop
  refine ⟨hop, ?_⟩
  rw [hpos]
  trivial

/-- A thread that waits in the current partition of its role, in which a kernel runs with the mode
of the role, is attended or the segment is exhausted. -/
theorem Coherent.attended (h : Coherent c s σ) (hpart : s.part r = q)
    (hslot : (s.slot q t).infoBits = 3) (hbusy : (s.pims q).status = .busy)
    (hop : (s.pims q).memory.operation = r.op) :
    Attended c r t (s.pims q) ∨ (s.pims q).position = .running (.off r) := by
  have hcurrent : (σ q).current = some r := (h.current q r).mpr hpart
  have hsession := h.pims q
  have hne : r.op ≠ 0 := by cases r <;> decide
  cases hσ : σ q with
  | resting r' | closing r' u =>
    rw [hσ] at hcurrent
    cases hcurrent
  | chosen r' u =>
    rw [hσ] at hsession
    exact absurd (hop.symm.trans hsession.1) hne
  | activated r' u =>
    rw [hσ] at hsession
    rcases hsession.2.1.2 with ⟨-, hstatus⟩ | ⟨-, hstatus⟩ <;> cases hbusy.symm.trans hstatus
  | commanded r' u =>
    rw [hσ] at hsession
    cases hbusy.symm.trans hsession.2.2.2.1
  | serving r' =>
    rw [hσ] at hcurrent hsession
    obtain rfl : r' = r := some.inj hcurrent
    exact .inl ⟨hsession, hbusy, h.slotBits q, hslot⟩
  | exhausted r' u =>
    rw [hσ] at hcurrent hsession
    obtain rfl : r' = r := some.inj hcurrent
    obtain ⟨-, hended⟩ := hsession
    cases hpos : (s.pims q).position <;> simp only [Ended, hpos] at hended
    case running k =>
      cases k with
      | off r'' =>
        obtain rfl : r'' = r' := hended.2.1
        exact .inr rfl
      | reset => exact absurd (hop.symm.trans hended.2.2.1) hne
      | checkInit | checkEnq | checkDeq | checkPrint | checkOff =>
        exact absurd (hop.symm.trans hended.2.1) hne
      | _ => exact hended.2.elim
    all_goals exact absurd (hop.symm.trans hended.2.1) hne

theorem modesKept (hsetUp : SetUp c s) {x : Tracked State ℕ Role}
    (h : Reached (trackedStep (step c) modeAccess)
      (fun x a => PartsApart c x.state a ∧ Undisturbed c x.state a) (afterMain s) x) :
    ModesKept c x := by
  obtain ⟨⟨σ, hσ⟩, hopen⟩ := reached_requested (J := fun s q r => Open r (s.pims q))
    (I := fun s' => ∃ σ, Invariant c (contents c s) s' σ)
    (fun s a => PartsApart c s a ∧ Undisturbed c s a) h ⟨_, hsetUp.invariant⟩
    (fun q r hr => hsetUp.open_afterMain hr)
    (fun s a s' ⟨σ, hs⟩ hok hstep => hs.step hsetUp.maxSegmentItems_pos hok hstep)
    (fun s a s' q r ⟨σ, hs⟩ hstep haccess => open_of_request hs.coherent hstep haccess)
    (fun s a s' q r _ hopen hstep haccess => hopen.step hstep haccess)
  refine ⟨fun a => ?_, fun q r hr => (hopen q r hr).operation, fun t hpos => ?_,
    fun t ht r q _ _ hpart hslot hbusy hop => ?_⟩
  · exact not_loses (J := fun s q r => Open r (s.pims q)) hopen
      (fun q r b hopen _ haccess => hopen.access_eq_act hσ.coherent haccess)
  · have hok := hσ.coherent.threads t
    simp only [ThreadOk, hpos] at hok
    have hsession := hσ.coherent.pims (x.state.threads t).currPart
    rw [hok] at hsession
    exact hsession.2.alone hsession.1
  · rcases hσ.coherent.attended hpart hslot hbusy hop with hattended | hoff
    · exact hattended.alone ht
    · exact ⟨_, .start, .inr hoff⟩

end SmcSim.PimQueue
