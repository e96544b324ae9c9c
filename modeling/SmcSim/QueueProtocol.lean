import SmcSim.QueueSessions

/-!
# The partition change protocol

Every partition is in a session, every thread is where the sessions of its partitions
allow it to be, and every step of a thread or a PIM keeps this, as long as `enq_part` and
`deq_part` only move to partitions that no thread is engaged in.
-/

namespace SmcSim.PimQueue
open CommandHandshake Interleavings Function Option

/-! ### Threads and sessions -/

def Session.role : Session → Role
  | .resting r | .chosen r _ | .activated r _ | .commanded r _ | .serving r | .exhausted r _
  | .closing r _ => r

@[simp] def ThreadPosition.Waiting : ThreadPosition → Prop
  | .readInfo | .checkPart | .recheckPart | .lastRead | .clearSlot => True
  | _ => False

@[simp] def ThreadPosition.Closing : ThreadPosition → Prop
  | .activateRead | .activateWrite _ | .startRead | .checkSleep _ | .giveCommand _ | .wakeUp _
  | .checkDone | .giveNop => True
  | _ => False

/-- Where a thread is, for the sessions of the partition it works on and of the one it
starts. -/
def ThreadOk (s : State) (σ : ℕ → Session) (t : ℕ) (th : Thread) : Prop :=
  let r := th.role
  let q := th.currPart
  let v := (s.slot q t).infoBits
  match th.position with
  | .readPart | .finished => True
  | .writeParameter | .writeInfo => (σ q).current ≠ some r.other
  | .readInfo | .checkPart => (σ q).current ≠ some r.other ∧ (v = 0 → σ q = .exhausted r t)
  | .recheckPart => (σ q).current ≠ some r.other ∧ (v = 0 → σ q = .exhausted r t) ∧
      ((σ q).current = some r → th.infoBits = v ∧ v ≠ 3)
  | .lastRead => (σ q).current = none ∧ v ≠ 0
  | .readParameter => r = .deq ∧ (σ q).current ≠ some r.other ∧
      (v = 0 → σ q = .exhausted r t) ∧ th.infoBits = v ∧ v ≠ 3
  | .clearSlot => (σ q).current = none ∧ th.infoBits = 3
  | .changePart => σ q = .exhausted r t
  | .activateRead => σ q = .closing r t ∧ σ (s.part r) = .chosen r t
  | .activateWrite q' => σ q = .closing r t ∧ q' = s.part r ∧ σ q' = .chosen r t
  | .startRead => σ q = .closing r t ∧ σ (s.part r) = .activated r t
  | .checkSleep q' => σ q = .closing r t ∧ q' = s.part r ∧ σ q' = .activated r t
  | .giveCommand q' => σ q = .closing r t ∧ q' = s.part r ∧ σ q' = .activated r t ∧
      (s.pims q').status = .sleep
  | .wakeUp q' => σ q = .closing r t ∧ q' = s.part r ∧ σ q' = .commanded r t
  | .checkDone => σ q = .closing r t
  | .giveNop => σ q = .closing r t ∧ (s.pims q).status = .done

structure Coherent (c : Config) (s : State) (σ : ℕ → Session) : Prop where
  current : ∀ q r, (σ q).current = some r ↔ s.part r = q
  pims : ∀ q, SessionOk c (σ q) (s.pims q)
  slotBits : ∀ q t, Bits (s.slot q t).infoBits
  threadBits : ∀ t, Bits (s.threads t).infoBits
  requests : ∀ q t, (s.slot q t).infoBits = 3 →
    (s.threads t).currPart = q ∧ (s.threads t).position.Waiting
  threads : ∀ t, ThreadOk s σ t (s.threads t)
  closers : ∀ q r t, σ q = .closing r t →
    (s.threads t).currPart = q ∧ (s.threads t).position.Closing

variable {c : Config} {s s' : State} {σ σ' : ℕ → Session} {t : ℕ} {th : Thread}

theorem ThreadOk.frame (h : ThreadOk s σ t th)
    (hbits : (s'.slot th.currPart t).infoBits = (s.slot th.currPart t).infoBits)
    (hown : ∀ q, (σ q).owner = some t → σ' q = σ q)
    (hcurrent : th.Busy → (σ' th.currPart).current = (σ th.currPart).current ∨
      (σ' th.currPart).current = none)
    (hpart : (σ (s.part th.role)).owner = some t → s'.part th.role = s.part th.role)
    (hsleep : ∀ q r, σ q = .activated r t → (s.pims q).status = .sleep →
      (s'.pims q).status = .sleep)
    (hdone : ∀ q r, σ q = .closing r t → (s.pims q).status = .done →
      (s'.pims q).status = .done) : ThreadOk s' σ' t th := by
  have hkeep : ∀ {q x}, σ q = x → x.owner = some t → σ' q = x :=
    fun hq hx => (hown _ (hq ▸ hx)).trans hq
  have hother : th.Busy → (σ th.currPart).current ≠ some th.role.other →
      (σ' th.currPart).current ≠ some th.role.other := by
    intro hbusy hne
    rcases hcurrent hbusy with he | he
    · rwa [he]
    · simp [he]
  have hnone : th.Busy → (σ th.currPart).current = none → (σ' th.currPart).current = none := by
    intro hbusy hn
    rcases hcurrent hbusy with he | he
    · rwa [he]
    · exact he
  unfold ThreadOk at h ⊢
  dsimp only at h ⊢
  rw [hbits]
  cases hpos : th.position <;> simp only [hpos] at h ⊢
  case writeParameter | writeInfo => exact hother (by simp [Thread.Busy, hpos]) h
  case readInfo | checkPart =>
    exact ⟨hother (by simp [Thread.Busy, hpos]) h.1, fun hv => hkeep (h.2 hv) rfl⟩
  case recheckPart =>
    refine ⟨hother (by simp [Thread.Busy, hpos]) h.1, fun hv => hkeep (h.2.1 hv) rfl, ?_⟩
    intro hr
    rcases hcurrent (by simp [Thread.Busy, hpos]) with he | he
    · exact h.2.2 (he ▸ hr)
    · simp [he] at hr
  case lastRead => exact ⟨hnone (by simp [Thread.Busy, hpos]) h.1, h.2⟩
  case readParameter =>
    exact ⟨h.1, hother (by simp [Thread.Busy, hpos]) h.2.1, fun hv => hkeep (h.2.2.1 hv) rfl,
      h.2.2.2⟩
  case clearSlot => exact ⟨hnone (by simp [Thread.Busy, hpos]) h.1, h.2⟩
  case changePart => exact hkeep h rfl
  case activateRead | startRead =>
    exact ⟨hkeep h.1 rfl, by rw [hpart (by rw [h.2]; rfl)]; exact hkeep h.2 rfl⟩
  case activateWrite q | checkSleep q | wakeUp q =>
    obtain ⟨hclosing, rfl, hq⟩ := h
    exact ⟨hkeep hclosing rfl, (hpart (by rw [hq]; rfl)).symm, hkeep hq rfl⟩
  case giveCommand q =>
    obtain ⟨hclosing, rfl, hq, hstatus⟩ := h
    exact ⟨hkeep hclosing rfl, (hpart (by rw [hq]; rfl)).symm, hkeep hq rfl,
      hsleep _ _ hq hstatus⟩
  case checkDone => exact hkeep h rfl
  case giveNop => exact ⟨hkeep h.1 rfl, hdone _ _ h.1 h.2⟩

/-- A step of others that leaves what thread `u` relies on as it is. -/
structure Undetected (s s' : State) (σ σ' : ℕ → Session) (u : ℕ) : Prop where
  thread : s'.threads u = s.threads u
  slots : ∀ q, (s'.slot q u).infoBits = (s.slot q u).infoBits
  owned : ∀ q, (σ q).owner = some u → σ' q = σ q
  closing : ∀ q r, σ' q = .closing r u → σ q = .closing r u
  current : (s.threads u).Busy → (σ' (s.threads u).currPart).current =
    (σ (s.threads u).currPart).current ∨ (σ' (s.threads u).currPart).current = none
  part : (σ (s.part (s.threads u).role)).owner = some u →
    s'.part (s.threads u).role = s.part (s.threads u).role
  sleep : ∀ q r, σ q = .activated r u → (s.pims q).status = .sleep → (s'.pims q).status = .sleep
  done : ∀ q r, σ q = .closing r u → (s.pims q).status = .done → (s'.pims q).status = .done

theorem Undetected.threadOk {u : ℕ} (h : Undetected s s' σ σ' u)
    (hok : ThreadOk s σ u (s.threads u)) : ThreadOk s' σ' u (s'.threads u) := by
  rw [h.thread]
  exact hok.frame (h.slots _) h.owned h.current h.part h.sleep h.done

theorem Coherent.of_step (h : Coherent c s σ) (hset : s'.threads t = th)
    (hothers : ∀ u, u ≠ t → Undetected s s' σ σ' u)
    (hcurrent : ∀ q r, (σ' q).current = some r ↔ s'.part r = q)
    (hpims : ∀ q, SessionOk c (σ' q) (s'.pims q))
    (hslotBits : ∀ q, Bits (s'.slot q t).infoBits) (hbits : Bits th.infoBits)
    (hrequests : ∀ q, (s'.slot q t).infoBits = 3 → th.currPart = q ∧ th.position.Waiting)
    (hth : ThreadOk s' σ' t th)
    (hclosers : ∀ q r, σ' q = .closing r t → th.currPart = q ∧ th.position.Closing) :
    Coherent c s' σ' where
  current := hcurrent
  pims := hpims
  slotBits q u := by
    by_cases hu : u = t
    · exact hu ▸ hslotBits q
    · exact (hothers u hu).slots q ▸ h.slotBits q u
  threadBits u := by
    by_cases hu : u = t
    · exact hu ▸ hset ▸ hbits
    · exact (hothers u hu).thread ▸ h.threadBits u
  requests q u hslot := by
    by_cases hu : u = t
    · exact hu ▸ hset ▸ hrequests q (hu ▸ hslot)
    · rw [(hothers u hu).thread]
      exact h.requests q u ((hothers u hu).slots q ▸ hslot)
  threads u := by
    by_cases hu : u = t
    · exact hu ▸ hset ▸ hth
    · exact (hothers u hu).threadOk (h.threads u)
  closers q r u hclosing := by
    by_cases hu : u = t
    · exact hu ▸ hset ▸ hclosers q r (hu ▸ hclosing)
    · rw [(hothers u hu).thread]
      exact h.closers q r u ((hothers u hu).closing q r hclosing)

/-! ### Steps of a thread that leave the sessions as they are -/

/-- What a step of thread `t` leaves as it is. -/
structure Kept (s s' : State) (σ σ' : ℕ → Session) (t : ℕ) : Prop where
  part : s'.part = s.part
  log : s'.log = s.log
  sessions : ∀ q, (σ' q).current = (σ q).current ∧ (σ' q).role = (σ q).role
  content : ∀ q, (s'.pims q).memory.content = (s.pims q).memory.content
  threads : ∀ u, u ≠ t → s'.threads u = s.threads u
  slots : ∀ u, u ≠ t → ∀ q, s'.slot q u = s.slot q u
  holding : ∀ q u, Holding (s'.pims q) u ↔ Holding (s.pims q) u

/-- The step of thread `t` to `s'` goes with a step of the sessions. -/
def Continues (c : Config) (s : State) (σ : ℕ → Session) (t : ℕ) (s' : State) : Prop :=
  ∃ σ', Coherent c s' σ' ∧ Kept s s' σ σ' t

theorem Coherent.continues_self (h : Coherent c s σ) : Continues c s σ t s :=
  ⟨σ, h, rfl, rfl, fun _ => ⟨rfl, rfl⟩, fun _ => rfl, fun _ _ => rfl, fun _ _ _ => rfl,
    fun _ _ => .rfl⟩

@[simp] theorem setThread_same : (s.setThread t th).threads t = th := by
  simp [State.setThread]

@[simp] theorem setThread_ne {u : ℕ} (hu : u ≠ t) :
    (s.setThread t th).threads u = s.threads u := by
  simp [State.setThread, hu]

section

variable (h : Coherent c s σ)
include h

/-- A step that only changes the thread. -/
theorem Coherent.setThread (hth : ThreadOk s σ t th) (hbits : Bits th.infoBits)
    (hrequests : ∀ q, (s.slot q t).infoBits = 3 → th.currPart = q ∧ th.position.Waiting)
    (hclosers : ∀ q r, σ q = .closing r t → th.currPart = q ∧ th.position.Closing) :
    Continues c s σ t (s.setThread t th) := by
  refine ⟨σ, h.of_step setThread_same (fun u hu => ?_) h.current h.pims (fun q => h.slotBits q t)
    hbits hrequests hth hclosers, rfl, rfl, fun _ => ⟨rfl, rfl⟩, fun _ => rfl,
    fun _ hu => setThread_ne hu, fun _ _ _ => rfl, fun _ _ => .rfl⟩
  exact ⟨setThread_ne hu, fun _ => rfl, fun _ _ => rfl, fun _ _ hq => hq, fun _ => .inl rfl,
    fun _ => rfl, fun _ _ _ hs => hs, fun _ _ _ hd => hd⟩

theorem Coherent.no_request (hslot : (s.slot (s.threads t).currPart t).infoBits ≠ 3) (q : ℕ) :
    (s.slot q t).infoBits ≠ 3 := by
  intro hq
  rw [← (h.requests q t hq).1] at hq
  exact hslot hq

theorem Coherent.no_request_of_not_waiting (hpos : ¬ (s.threads t).position.Waiting) (q : ℕ) :
    (s.slot q t).infoBits ≠ 3 :=
  fun hq => hpos (h.requests q t hq).2

private theorem Coherent.not_closing (hpos : ¬ (s.threads t).position.Closing) (q : ℕ) (r : Role) :
    σ q ≠ .closing r t :=
  fun hq => hpos (h.closers q r t hq).2

/-- A step within an operation: the thread stays at its partition and keeps its request
and the partition it closes. -/
private theorem Coherent.moveThread (hth : ThreadOk s σ t th) (hbits : Bits th.infoBits)
    (hpart : th.currPart = (s.threads t).currPart)
    (hwaiting : (s.threads t).position.Waiting → th.position.Waiting)
    (hclosing : (s.threads t).position.Closing → th.position.Closing) :
    Continues c s σ t (s.setThread t th) := by
  refine h.setThread hth hbits (fun q hq => ?_) (fun q r hq => ?_)
  · obtain ⟨hcurr, hpos⟩ := h.requests q t hq
    exact ⟨hpart.trans hcurr, hwaiting hpos⟩
  · obtain ⟨hcurr, hpos⟩ := h.closers q r t hq
    exact ⟨hpart.trans hcurr, hclosing hpos⟩

/-- A thread that has no request and closes no partition takes up another operation or partition. -/
private theorem Coherent.setThread_idle (hth : ThreadOk s σ t th) (hbits : Bits th.infoBits)
    (hslot : (s.slot (s.threads t).currPart t).infoBits ≠ 3)
    (hpos : ¬ (s.threads t).position.Closing) : Continues c s σ t (s.setThread t th) :=
  h.setThread hth hbits (fun q hq => absurd hq (h.no_request hslot q))
    (fun q r hq => absurd hq (h.not_closing hpos q r))

variable (hstep : threadStep c t s = some s')
include hstep

theorem Coherent.readPart (hpos : (s.threads t).position = .readPart) : Continues c s σ t s' := by
  simp only [threadStep, hpos, some.injEq] at hstep
  subst hstep
  have hcurrent : (σ (s.part (s.threads t).role)).current = some (s.threads t).role :=
    (h.current _ _).mpr rfl
  refine h.setThread_idle ?_ (h.threadBits t) (h.no_request_of_not_waiting (by simp [hpos]) _)
    (by simp [hpos])
  cases hrole : (s.threads t).role <;> rw [hrole] at hcurrent <;>
    simp [ThreadOk, hcurrent, Role.other]

theorem Coherent.readInfo (hpos : (s.threads t).position = .readInfo) : Continues c s σ t s' := by
  have hok := h.threads t
  simp only [threadStep, ThreadOk, hpos, some.injEq] at hok hstep
  subst hstep
  have hbits := h.slotBits (s.threads t).currPart t
  by_cases hpending : (s.slot (s.threads t).currPart t).infoBits = 3
  · rw [if_pos (hbits.pending.mpr hpending)]
    exact h.moveThread hok hbits rfl (fun _ => trivial) (by simp [hpos])
  · rw [if_neg (fun hne => hpending (hbits.pending.mp hne))]
    exact h.moveThread ⟨hok.1, hok.2, fun _ => ⟨rfl, hpending⟩⟩ hbits rfl (fun _ => trivial)
      (by simp [hpos])

theorem Coherent.checkPart (hpos : (s.threads t).position = .checkPart) : Continues c s σ t s' := by
  have hok := h.threads t
  simp only [threadStep, ThreadOk, hpos, some.injEq] at hok hstep
  subst hstep
  by_cases hsame : (s.threads t).currPart = s.part (s.threads t).role
  · rw [if_pos hsame]
    exact h.moveThread hok (h.threadBits t) rfl (fun _ => trivial) (by simp [hpos])
  · rw [if_neg hsame]
    refine h.moveThread ⟨hok.1, hok.2, fun hr => ?_⟩ (h.threadBits t) rfl (fun _ => trivial)
      (by simp [hpos])
    exact absurd ((h.current _ _).mp hr).symm hsame

end

/-! The end of a request: the thread moves the partition on or takes up its next operation. -/

theorem nextOperation_position (c : Config) (t : ℕ) (th : Thread) :
    (nextOperation c t th).position = .readPart ∨
    (nextOperation c t th).position = .finished := by
  unfold nextOperation
  split
  · exact .inl rfl
  · exact .inr rfl

theorem nextOperation_infoBits : (nextOperation c t th).infoBits = th.infoBits := by
  unfold nextOperation
  split <;> rfl

theorem threadOk_nextOperation : ThreadOk s σ t (nextOperation c t th) := by
  rcases nextOperation_position c t th with hpos | hpos
  · simp [ThreadOk, hpos]
  · simp [ThreadOk, hpos]

theorem afterRequest_infoBits : (afterRequest c t th).infoBits = th.infoBits := by
  unfold afterRequest
  split
  · rfl
  · exact nextOperation_infoBits

theorem threadOk_afterRequest (hbits : Bits th.infoBits)
    (hlast : th.infoBits = 0 → σ th.currPart = .exhausted th.role t) :
    ThreadOk s σ t (afterRequest c t th) := by
  unfold afterRequest
  split
  · exact hlast (hbits.checkValidPim.mp ‹_›)
  · exact threadOk_nextOperation

theorem complete_infoBits : (complete c t th).infoBits = th.infoBits := afterRequest_infoBits

theorem threadOk_complete (hbits : Bits th.infoBits)
    (hlast : th.infoBits = 0 → σ th.currPart = .exhausted th.role t) :
    ThreadOk s σ t (complete c t th) := threadOk_afterRequest hbits hlast

variable {q : ℕ} {r : Role}

section

variable (h : Coherent c s σ)
include h

theorem Coherent.served (hpart : th.currPart = (s.threads t).currPart)
    (hpos : ¬ (s.threads t).position.Closing)
    (hother : (σ th.currPart).current ≠ some th.role.other)
    (hread : th.infoBits = (s.slot th.currPart t).infoBits) (hserved : th.infoBits ≠ 3)
    (hlast : th.infoBits = 0 → σ th.currPart = .exhausted th.role t) :
    Continues c s σ t (s.setThread t (afterWaiting c t th)) := by
  have hbits : Bits th.infoBits := hread ▸ h.slotBits _ t
  have hslot : (s.slot (s.threads t).currPart t).infoBits ≠ 3 := by
    rw [← hpart, ← hread]
    exact hserved
  unfold afterWaiting
  rw [if_pos (hbits.checkValidRequest.mpr hserved)]
  split
  · exact h.setThread_idle (threadOk_complete hbits hlast) (by rwa [complete_infoBits]) hslot hpos
  · next hrole =>
    exact h.setThread_idle ⟨hrole, hother, fun hv => hlast (hread.trans hv), hread, hread ▸ hserved⟩
      hbits hslot hpos

theorem Coherent.current_eq_none (hother : (σ q).current ≠ some r.other) (hpart : q ≠ s.part r) :
    (σ q).current = none := by
  cases hcurrent : (σ q).current with
  | none => rfl
  | some r' =>
    have hne : r' ≠ r.other := fun he => hother (he ▸ hcurrent)
    obtain rfl : r' = r := by
      cases r <;> cases r' <;> simp_all [Role.other]
    exact absurd ((h.current q r').mp hcurrent).symm hpart

/-- The steps of a changer that only read. -/
private theorem Coherent.moveChanger (hth : ThreadOk s σ t th)
    (hbits : th.infoBits = (s.threads t).infoBits) (hpart : th.currPart = (s.threads t).currPart)
    (hpos : ¬ (s.threads t).position.Waiting) (hclosing : th.position.Closing) :
    Continues c s σ t (s.setThread t th) :=
  h.moveThread hth (hbits ▸ h.threadBits t) hpart (fun hw => absurd hw hpos) (fun _ => hclosing)

variable (hstep : threadStep c t s = some s')
include hstep

theorem Coherent.recheckPart (hpos : (s.threads t).position = .recheckPart) :
    Continues c s σ t s' := by
  have hok := h.threads t
  simp only [threadStep, ThreadOk, hpos] at hok hstep
  obtain ⟨hother, hlast, hdecided⟩ := hok
  split at hstep
  · next hmoved =>
    cases hstep
    have hnone := h.current_eq_none hother hmoved
    refine h.moveThread ⟨hnone, fun hv => ?_⟩ (h.threadBits t) rfl (fun _ => trivial)
      (by simp [hpos])
    rw [hlast hv] at hnone
    cases hnone
  · next hsame =>
    cases hstep
    obtain ⟨hread, hserved⟩ := hdecided ((h.current _ _).mpr (not_not.mp hsame).symm)
    exact h.served rfl (by simp [hpos]) hother hread (hread ▸ hserved)
      (fun hv => hlast (hread ▸ hv))

theorem Coherent.lastRead (hpos : (s.threads t).position = .lastRead) : Continues c s σ t s' := by
  have hok := h.threads t
  simp only [threadStep, ThreadOk, hpos, some.injEq] at hok hstep
  subst hstep
  obtain ⟨hnone, hzero⟩ := hok
  have hbits := h.slotBits (s.threads t).currPart t
  by_cases hpending : (s.slot (s.threads t).currPart t).infoBits = 3
  · unfold afterWaiting
    rw [if_neg (fun hv => hbits.checkValidRequest.mp hv hpending)]
    exact h.moveThread ⟨hnone, hpending⟩ hbits rfl (fun _ => trivial) (by simp [hpos])
  · exact h.served rfl (by simp [hpos]) (by simp [hnone]) rfl hpending (fun hv => absurd hv hzero)

end

/-! ### Steps of a thread that write to a PIM -/

variable {x : Session} {p : Pim Position Partition} {m : Partition}

theorem setPim_same : (s.setPim q p).pims q = p := by simp [State.setPim]

theorem setPim_ne {q' : ℕ} (hq : q' ≠ q) : (s.setPim q p).pims q' = s.pims q' := by
  simp [State.setPim, hq]

theorem setMemory_slot_same : (s.setMemory q m).slot q t = m.requestSlots t := by
  simp [State.setMemory, State.setPim, State.slot]

theorem content_congr {m' : Partition} (hhead : m'.headIndex = m.headIndex)
    (htail : m'.tailIndex = m.tailIndex) (hsegment : m'.currSegment = m.currSegment) :
    m'.content = m.content := by
  simp [Partition.content, hhead, htail, hsegment]

theorem Kept.setPim (hcontent : p.memory.content = (s.pims q).memory.content)
    (hslots : ∀ u, u ≠ t → p.memory.requestSlots u = s.slot q u)
    (hholding : ∀ u, Holding p u ↔ Holding (s.pims q) u) (hcurrent : x.current = (σ q).current)
    (hrole : x.role = (σ q).role) :
    Kept s ((s.setPim q p).setThread t th) σ (update σ q x) t where
  part := rfl
  log := rfl
  sessions q' := ⟨apply_update_of_eq σ _ hcurrent q', apply_update_of_eq σ _ hrole q'⟩
  content := apply_update_of_eq s.pims (fun p => p.memory.content) hcontent
  threads _ hu := setThread_ne hu
  slots u hu := apply_update_of_eq s.pims (fun p => p.memory.requestSlots u) (hslots u hu)
  holding q' u :=
    iff_of_eq (apply_update_of_eq s.pims (fun p => Holding p u) (propext (hholding u)) q')

section

variable (h : Coherent c s σ)
include h

private theorem Coherent.writeSlot (hcurr : (s.threads t).currPart = q)
    (hs : SameIndices (s.pims q).memory m)
    (hsegment : m.currSegment = (s.pims q).memory.currSegment)
    (hslots : ∀ u, u ≠ t → m.requestSlots u = s.slot q u) (hslot : Bits (m.requestSlots t).infoBits)
    (hserving : (σ q).current = none ∨
      ((s.slot q t).infoBits = 3 → (m.requestSlots t).infoBits = 3))
    (hth : ThreadOk (s.setMemory q m) σ t th) (hbits : Bits th.infoBits)
    (hrequests : (m.requestSlots t).infoBits = 3 → th.currPart = q ∧ th.position.Waiting)
    (hpos : ¬ (s.threads t).position.Closing) :
    Continues c s σ t ((s.setMemory q m).setThread t th) := by
  have hkept : Kept s ((s.setMemory q m).setThread t th) σ (update σ q (σ q)) t :=
    .setPim (content_congr hs.headIndex hs.tailIndex hsegment) hslots (fun _ => .rfl) rfl rfl
  rw [update_eq_self] at hkept
  have hstatus : ∀ q', ((s.setMemory q m).pims q').status = (s.pims q').status :=
    apply_update_of_eq s.pims Pim.status rfl
  refine ⟨σ, h.of_step setThread_same (fun u hu => ?_) h.current ?_ ?_ hbits ?_ hth
    (fun q r hq => absurd hq (h.not_closing hpos q r)), hkept⟩
  · exact ⟨setThread_ne hu, fun q => congrArg _ (hkept.slots u hu q), fun _ _ => rfl,
      fun _ _ hq => hq, fun _ => .inl rfl, fun _ => rfl, fun q r _ hq => (hstatus q).trans hq,
      fun q r _ hq => (hstatus q).trans hq⟩
  · refine (forall_update_iff s.pims (fun q p => SessionOk c (σ q) p)).mpr
      ⟨(h.pims q).setMemory hs (hserving.imp_right (fun hkeep i hi => ?_)), fun q _ => h.pims q⟩
    by_cases hit : i = t
    · exact hit ▸ hkeep (hit ▸ hi)
    · rwa [hslots i hit]
  · exact (forall_update_iff s.pims (fun _ p => Bits (p.memory.requestSlots t).infoBits)).mpr
      ⟨hslot, fun q' _ => h.slotBits q' t⟩
  · exact (forall_update_iff s.pims (fun q' p => (p.memory.requestSlots t).infoBits = 3 →
      th.currPart = q' ∧ th.position.Waiting)).mpr
      ⟨hrequests, fun q' hne hq => absurd ((h.requests q' t hq).1.symm.trans hcurr) hne⟩

variable (hstep : threadStep c t s = some s')
include hstep

theorem Coherent.writeParameter (hpos : (s.threads t).position = .writeParameter) :
    Continues c s σ t s' := by
  have hok := h.threads t
  simp only [threadStep, ThreadOk, hpos, some.injEq] at hok hstep
  subst hstep
  have hset : (((s.pims (s.threads t).currPart).memory.setParameter t
      (s.threads t).parameter).requestSlots t).infoBits =
        (s.slot (s.threads t).currPart t).infoBits := by
    simp [Partition.setParameter, State.slot]
  refine h.writeSlot rfl ⟨rfl, rfl, rfl⟩ rfl (fun u hu => ?_) (hset ▸ h.slotBits _ t)
    (.inr (fun hq => hset.trans hq)) hok (h.threadBits t) (fun hq => ?_) (by simp [hpos])
  · simp [Partition.setParameter, State.slot, hu]
  · exact absurd (hset.symm.trans hq) (h.no_request_of_not_waiting (by simp [hpos]) _)

theorem Coherent.writeInfo (hpos : (s.threads t).position = .writeInfo) : Continues c s σ t s' := by
  have hok := h.threads t
  simp only [threadStep, ThreadOk, hpos, some.injEq, (h.threadBits t).setRequest] at hok hstep
  subst hstep
  have hset : (((s.pims (s.threads t).currPart).memory.setInfoBits t 3).requestSlots t).infoBits =
      3 := by
    simp [Partition.setInfoBits]
  refine h.writeSlot rfl ⟨rfl, rfl, rfl⟩ rfl (fun u hu => ?_) (.inr (.inr hset))
    (.inr (fun _ => hset)) ⟨hok, fun hv => ?_⟩ (.inr (.inr rfl)) (fun _ => ⟨rfl, trivial⟩)
    (by simp [hpos])
  · simp [Partition.setInfoBits, State.slot, hu]
  · rw [setMemory_slot_same, hset] at hv
    cases hv

theorem Coherent.clearSlot (hpos : (s.threads t).position = .clearSlot) : Continues c s σ t s' := by
  have hok := h.threads t
  simp only [threadStep, ThreadOk, hpos, some.injEq] at hok hstep
  obtain ⟨hnone, hinfo⟩ := hok
  rw [hinfo, show clearRequest 3 = 2 from rfl] at hstep
  subst hstep
  have hset : (((s.pims (s.threads t).currPart).memory.setInfoBits t 2).requestSlots t).infoBits =
      2 := by
    simp [Partition.setInfoBits]
  have hbits : Bits 2 := .inr (.inl rfl)
  refine h.writeSlot rfl ⟨rfl, rfl, rfl⟩ rfl (fun u hu => ?_) (.inr (.inl hset)) (.inl hnone)
    (threadOk_afterRequest hbits (fun hv => ?_)) (by rwa [afterRequest_infoBits]) (fun hq => ?_)
    (by simp [hpos])
  · simp [Partition.setInfoBits, State.slot, hu]
  · cases hv
  · cases hset.symm.trans hq

end

/-! ### Steps of a thread that move a session on -/

theorem sessionOk_update (hpim : SessionOk c x p) (h : ∀ q, SessionOk c (σ q) (s.pims q)) (q' : ℕ) :
    SessionOk c (update σ q x q') ((s.setPim q p).pims q') := by
  by_cases hq : q' = q
  · subst hq
    rwa [update_self, setPim_same]
  · rw [update_of_ne hq, setPim_ne hq]
    exact h q'

theorem interrupt_keeps (h : p.position = .goingToSleep ∨ p.position = .waiting) :
    p.interrupt.memory = p.memory ∧ p.interrupt.status = p.status ∧
      ∀ u, Holding p.interrupt u ↔ Holding p u := by
  rcases h with h | h <;> simp [Pim.interrupt, Holding, h]

theorem Session.role_of_current (h : x.current = some r) : x.role = r := by
  cases x <;> simp_all [Session.current, Session.role]

section

variable (h : Coherent c s σ)
include h

section

variable (howner : (σ q).owner = some t) (hpim : SessionOk c x p)
  (hcontent : p.memory.content = (s.pims q).memory.content)
  (hslots : p.memory.requestSlots = (s.pims q).memory.requestSlots)
  (hholding : ∀ u, Holding p u ↔ Holding (s.pims q) u) (hstatus : p.status = (s.pims q).status)
  (hpos : ¬ (s.threads t).position.Waiting)
include howner hpim hcontent hslots hholding hstatus hpos

/-- A step on a partition that the thread is in charge of, to a session of the same role. -/
theorem Coherent.advance (hcurrent : x.current = (σ q).current) (hrole : x.role = (σ q).role)
    (hx : ∀ r u, x ≠ .closing r u)
    (hth : ThreadOk (s.setPim q p) (update σ q x) t th) (hbits : Bits th.infoBits)
    (hclosers : ∀ q' r, q' ≠ q → σ q' = .closing r t → th.currPart = q' ∧ th.position.Closing) :
    Continues c s σ t ((s.setPim q p).setThread t th) := by
  have hkept : Kept s ((s.setPim q p).setThread t th) σ (update σ q x) t :=
    .setPim hcontent (fun u _ => congrFun hslots u) hholding hcurrent hrole
  have hsame : ∀ q', ((s.setPim q p).pims q').status = (s.pims q').status :=
    apply_update_of_eq s.pims Pim.status hstatus
  have hclosing : ∀ q' r u, update σ q x q' = .closing r u →
      q' ≠ q ∧ σ q' = .closing r u :=
    (forall_update_iff σ (fun q' y => ∀ r u, y = .closing r u →
      q' ≠ q ∧ σ q' = .closing r u)).mpr
      ⟨fun r u he => absurd he (hx r u), fun q' hne r u he => ⟨hne, he⟩⟩
  have hbitsAt : ∀ q' u, (((s.setPim q p).setThread t th).slot q' u).infoBits =
      (s.slot q' u).infoBits := fun q' u =>
    apply_update_of_eq s.pims (fun p => (p.memory.requestSlots u).infoBits) (by rw [hslots]) q'
  refine ⟨_, h.of_step setThread_same (fun u hu => ?_) (fun q' r => ?_) ?_
    (fun q' => hbitsAt q' t ▸ h.slotBits q' t) hbits (fun q' hq => ?_) hth
      (fun q' r hq => ?_), hkept⟩
  · refine ⟨setThread_ne hu, fun q' => hbitsAt q' u, fun q' ho => ?_,
      fun q' r hq => (hclosing q' r u hq).2, fun _ => .inl (hkept.sessions _).1, fun _ => rfl,
      fun q' r _ hq => (hsame q').trans hq, fun q' r _ hq => (hsame q').trans hq⟩
    refine update_of_ne ?_ _ _
    rintro rfl
    exact hu (some.inj (ho.symm.trans howner))
  · rw [(hkept.sessions q').1]
    exact h.current q' r
  · exact sessionOk_update hpim h.pims
  · exact absurd ((hbitsAt q' t).symm.trans hq) (h.no_request_of_not_waiting hpos q')
  · exact hclosers q' r (hclosing q' r t hq).1 (hclosing q' r t hq).2

/-- The steps of a changer on the partition that it starts. -/
private theorem Coherent.advanceStart (hclosing : σ (s.threads t).currPart = .closing r t)
    (hrole : (σ q).current = some r) (hcurrent : x.current = some r)
    (hth : ∀ s' σ', s'.part = s.part → σ' (s.threads t).currPart = .closing r t → σ' q = x →
      ThreadOk s' σ' t th) (hbits : th.infoBits = (s.threads t).infoBits)
    (hpart : th.currPart = (s.threads t).currPart) (hth' : th.position.Closing) :
    Continues c s σ t ((s.setPim q p).setThread t th) := by
  have hne : (s.threads t).currPart ≠ q := by
    rintro rfl
    rw [hclosing] at hrole
    cases hrole
  refine h.advance howner hpim hcontent hslots hholding hstatus hpos (hcurrent.trans hrole.symm)
    ((Session.role_of_current hcurrent).trans (Session.role_of_current hrole).symm) ?_ ?_
    (hbits ▸ h.threadBits t) (fun q' r' _ hq => ?_)
  · rintro r' u rfl
    cases hcurrent
  · exact hth _ _ rfl (by simpa [hne] using hclosing) (by simp)
  · exact ⟨hpart.trans (h.closers q' r' t hq).1, hth'⟩

end

variable (hstep : threadStep c t s = some s')
include hstep

theorem Coherent.activateWrite (hpos : (s.threads t).position = .activateWrite q) :
    Continues c s σ t s' := by
  have hok := h.threads t
  simp only [threadStep, ThreadOk, hpos, some.injEq] at hok hstep
  subst hstep
  obtain ⟨hclosing, rfl, hchosen⟩ := hok
  have hpim := h.pims (s.part (s.threads t).role)
  rw [hchosen] at hpim
  refine h.advanceStart (x := .activated (s.threads t).role t) (by rw [hchosen]; rfl)
    ⟨rfl, hpim.2.1, ?_⟩ (content_congr rfl rfl rfl) rfl (fun _ => .rfl) rfl
      (by simp [hpos]) hclosing
    (by rw [hchosen]; rfl) rfl (fun s' σ' hpart hc hx => ?_) rfl rfl trivial
  · have hroom := hpim.2.2
    cases hr : (s.threads t).role <;> simpa [Room, hr] using hroom
  · exact ⟨hc, by rw [show s'.part (s.threads t).role = _ from congrFun hpart _]; exact hx⟩

theorem Coherent.giveCommand (hpos : (s.threads t).position = .giveCommand q) :
    Continues c s σ t s' := by
  have hok := h.threads t
  simp only [threadStep, ThreadOk, hpos, some.injEq] at hok hstep
  subst hstep
  obtain ⟨hclosing, rfl, hactivated, hsleep⟩ := hok
  have hpim := h.pims (s.part (s.threads t).role)
  rw [hactivated] at hpim
  obtain ⟨hop, ⟨_, ⟨_, hdone⟩ | ⟨hwaiting, _⟩⟩, hroom⟩ := hpim
  · cases hdone.symm.trans hsleep
  · exact h.advanceStart (x := .commanded (s.threads t).role t) (by rw [hactivated]; rfl)
      ⟨hop, rfl, hwaiting, hsleep, hroom⟩ rfl rfl (fun _ => .rfl) rfl (by simp [hpos]) hclosing
      (by rw [hactivated]; rfl) rfl (fun s' σ' hpart hc hx => ⟨hc, (congrFun hpart _).symm, hx⟩)
      rfl rfl trivial

theorem Coherent.wakeUp (hpos : (s.threads t).position = .wakeUp q) : Continues c s σ t s' := by
  have hok := h.threads t
  simp only [threadStep, ThreadOk, hpos, some.injEq] at hok hstep
  subst hstep
  obtain ⟨hclosing, rfl, hcommanded⟩ := hok
  have hpim := h.pims (s.part (s.threads t).role)
  rw [hcommanded] at hpim
  obtain ⟨hop, hcommand, hposition, hstatus, hroom⟩ := hpim
  obtain ⟨hmemory, hkept, hholding⟩ := interrupt_keeps hposition
  refine h.advanceStart (x := .serving (s.threads t).role) (by rw [hcommanded]; rfl)
    ⟨hmemory ▸ hop, ?_, ?_⟩ (by rw [hmemory]) (by rw [hmemory]) hholding hkept
      (by simp [hpos]) hclosing
    (by rw [hcommanded]; rfl) rfl (fun s' σ' hpart hc hx => hc) rfl rfl trivial
  · unfold Pim.interrupt
    split <;> exact hcommand
  · rcases hposition with hposition | hposition <;>
      simp [Pim.interrupt, Runs, hposition, hstatus, hroom]

theorem Coherent.giveNop (hpos : (s.threads t).position = .giveNop) : Continues c s σ t s' := by
  have hok := h.threads t
  simp only [threadStep, ThreadOk, hpos, some.injEq] at hok hstep
  subst hstep
  obtain ⟨hclosing, hdone⟩ := hok
  have hpim := h.pims (s.threads t).currPart
  rw [hclosing] at hpim
  obtain ⟨_, hended⟩ := hpim
  have hawaiting : (s.pims (s.threads t).currPart).position = .awaitingNop ∧
      (s.pims (s.threads t).currPart).memory.operation = 0 ∧
      Closed c (s.threads t).role (s.pims (s.threads t).currPart).memory := by
    unfold Ended at hended
    rw [hdone] at hended
    split at hended <;> simp_all
  refine h.advance (x := .resting (s.threads t).role) (by rw [hclosing]; rfl)
    ⟨hawaiting.2.1, ⟨rfl, .inl ⟨.inl hawaiting.1, hdone⟩⟩, hawaiting.2.2⟩ rfl rfl
      (fun _ => .rfl) rfl
    (by simp [hpos]) (by rw [hclosing]; rfl) (by rw [hclosing]; rfl) nofun threadOk_nextOperation
    (by rw [nextOperation_infoBits]; exact h.threadBits t) (fun q' r hne hq => ?_)
  exact absurd (h.closers q' r t hq).1.symm hne

theorem Coherent.thread_step (hpos : (s.threads t).position ≠ .changePart) :
    Continues c s σ t s' := by
  have hok := h.threads t
  have hnext := hstep
  cases hp : (s.threads t).position <;>
    simp only [threadStep, ThreadOk, hp, some.injEq, reduceCtorEq] at hok hnext
  case changePart => exact absurd hp hpos
  case readPart => exact h.readPart hstep hp
  case writeParameter => exact h.writeParameter hstep hp
  case writeInfo => exact h.writeInfo hstep hp
  case readInfo => exact h.readInfo hstep hp
  case checkPart => exact h.checkPart hstep hp
  case recheckPart => exact h.recheckPart hstep hp
  case lastRead => exact h.lastRead hstep hp
  case readParameter =>
    obtain ⟨_, _, hlast, hread, hserved⟩ := hok
    exact hnext ▸ h.setThread_idle
      (threadOk_complete (h.threadBits t) (fun hv => hlast (hread ▸ hv)))
      (by rw [complete_infoBits]; exact h.threadBits t) hserved (by simp [hp])
  case clearSlot => exact h.clearSlot hstep hp
  case activateRead | startRead =>
    exact hnext ▸ h.moveChanger ⟨hok.1, rfl, hok.2⟩ rfl rfl (by simp [hp]) trivial
  case activateWrite => exact h.activateWrite hstep hp
  case checkSleep =>
    split at hnext
    · exact some.inj hnext ▸ h.moveChanger ⟨hok.1, hok.2.1, hok.2.2, ‹_›⟩ rfl rfl
        (by simp [hp]) trivial
    · exact some.inj hnext ▸ h.continues_self
  case giveCommand => exact h.giveCommand hstep hp
  case wakeUp => exact h.wakeUp hstep hp
  case checkDone =>
    split at hnext
    · exact some.inj hnext ▸ h.moveChanger ⟨hok, ‹_›⟩ rfl rfl (by simp [hp]) trivial
    · exact some.inj hnext ▸ h.continues_self
  case giveNop => exact h.giveNop hstep hp

end

theorem Closed.room (h : Closed c r.other m)
    (hsize : 0 < c.maxSegmentItems) : Room c r m := by
  cases r with
  | enq => exact ⟨h.1, h.2 ▸ hsize⟩
  | deq => exact ⟨by rw [h.1, h.2]; exact hsize, Nat.le_of_eq h.2⟩

theorem Coherent.changePart (h : Coherent c s σ) (hpos : (s.threads t).position = .changePart)
    (hq : nextPartition c (s.threads t).currPart = q) (hfree : ∀ u, ¬ Engaged s u q)
    (hrest : σ q = .resting (s.threads t).role.other) (hsize : 0 < c.maxSegmentItems) :
    Coherent c ({ s with part := update s.part (s.threads t).role q }.setThread t
        { s.threads t with position := .activateRead })
      (update (update σ (s.threads t).currPart
        (.closing (s.threads t).role t)) q (.chosen (s.threads t).role t)) := by
  have hok := h.threads t
  simp only [ThreadOk, hpos] at hok
  have hpart : s.part (s.threads t).role = (s.threads t).currPart :=
    (h.current _ _).mp (by rw [hok]; rfl)
  have hne : (s.threads t).currPart ≠ q := fun he => hfree t ⟨he, by simp [Thread.Busy, hpos]⟩
  generalize hcurr : (s.threads t).currPart = q₀ at hok hpart hne
  generalize hrole : (s.threads t).role = r at hok hpart hrest
  generalize hσ' : update (update σ q₀ (.closing r t)) q (.chosen r t) = σ'
  have hnew : ∀ q', q' = q ∧ σ' q' = .chosen r t ∨ q' = q₀ ∧ σ' q' = .closing r t ∨
      q' ≠ q ∧ q' ≠ q₀ ∧ σ' q' = σ q' := by
    intro q'
    by_cases h₁ : q' = q
    · exact .inl ⟨h₁, by simp [← hσ', h₁]⟩
    · by_cases h₀ : q' = q₀
      · exact .inr (.inl ⟨h₀, by simp [← hσ', h₀, hne]⟩)
      · exact .inr (.inr ⟨h₁, h₀, by simp [← hσ', h₀, h₁]⟩)
  refine h.of_step setThread_same (fun u hu => ?_) (fun q' r' => ?_) (fun q' => ?_)
    (fun q' => h.slotBits q' t) (h.threadBits t)
    (fun q' hslot => absurd hslot (h.no_request_of_not_waiting (by simp [hpos]) q')) ?_
    (fun q' r' hq' => ?_)
  · refine ⟨setThread_ne hu, fun _ => rfl, fun q' ho => ?_, fun q' r' hclosing => ?_,
      fun hbusy => ?_, fun ho => ?_, fun _ _ _ hs => hs, fun _ _ _ hd => hd⟩
    · rcases hnew q' with ⟨rfl, _⟩ | ⟨rfl, _⟩ | ⟨_, _, hx⟩
      · simp [hrest, Session.owner] at ho
      · rw [hok] at ho
        exact absurd (some.inj ho).symm hu
      · exact hx
    · rcases hnew q' with ⟨_, hx⟩ | ⟨_, hx⟩ | ⟨_, _, hx⟩ <;> rw [hx] at hclosing
      · cases hclosing
      · exact absurd (Session.closing.inj hclosing).2.symm hu
      · exact hclosing
    · rcases hnew (s.threads u).currPart with ⟨he, _⟩ | ⟨_, hx⟩ | ⟨_, _, hx⟩
      · exact absurd ⟨he, hbusy⟩ (hfree u)
      · exact .inr (by rw [hx]; rfl)
      · exact .inl (by rw [hx])
    · by_cases hr : (s.threads u).role = r
      · rw [hr, hpart, hok] at ho
        exact absurd (some.inj ho).symm hu
      · simp [State.setThread, hr]
  · have hold := h.current q' r'
    change _ ↔ update s.part r q r' = q'
    rw [update_apply]
    rcases hnew q' with ⟨rfl, hx⟩ | ⟨rfl, hx⟩ | ⟨h₁, h₀, hx⟩ <;> grind [Session.current]
  · have hpim := h.pims q'
    rcases hnew q' with ⟨rfl, hx⟩ | ⟨rfl, hx⟩ | ⟨_, _, hx⟩ <;> rw [hx]
    · rw [hrest] at hpim
      exact ⟨hpim.1, hpim.2.1, hpim.2.2.room hsize⟩
    · rwa [hok] at hpim
    · exact hpim
  · simp [ThreadOk, hcurr, hrole, ← hσ', hne, State.setThread]
  · rcases hnew q' with ⟨_, hx⟩ | ⟨rfl, _⟩ | ⟨_, _, hx⟩
    · rw [hx] at hq'
      cases hq'
    · exact ⟨hcurr, trivial⟩
    · exact absurd (hx.symm.trans hq') (h.not_closing (by simp [hpos]) q' r')

/-! ### Steps of a PIM -/

variable {log : List Service}

private theorem Coherent.pim_undetected {u : ℕ} (h : Coherent c s σ)
    (hstep : (s.pims q).step c.debugResident (executeKernel c) = some p)
    (hslot : (p.memory.requestSlots u).infoBits = (s.slot q u).infoBits)
    (hx : x = σ q ∨ (σ q).owner = none ∧ x.owner ≠ some u ∧ x.current = (σ q).current) :
    Undetected s { s.setPim q p with log := log } σ (update σ q x) u := by
  refine ⟨rfl, apply_update_of_eq s.pims (fun p => (p.memory.requestSlots u).infoBits) hslot,
    (forall_update_iff σ (fun q y => (σ q).owner = some u → y = σ q)).mpr
      ⟨fun ho => ?_, fun _ _ _ => rfl⟩,
    (forall_update_iff σ (fun q y => ∀ r, y = .closing r u → σ q = .closing r u)).mpr
      ⟨fun r hclosing => ?_, fun _ _ _ hq => hq⟩,
    fun _ => .inl (apply_update_of_eq σ Session.current ?_ _), fun _ => rfl,
    (forall_update_iff s.pims (fun q p => ∀ r, σ q = .activated r u →
      (s.pims q).status = .sleep → p.status = .sleep)).mpr
      ⟨fun r hactivated hs => (hactivated ▸ h.pims q).step_sleep hstep hs, fun _ _ _ _ hs => hs⟩,
    (forall_update_iff s.pims (fun q p => ∀ r, σ q = .closing r u →
      (s.pims q).status = .done → p.status = .done)).mpr
      ⟨fun r hclosing hd => (hclosing ▸ h.pims q).step_done hstep hd, fun _ _ _ _ hd => hd⟩⟩
  · exact hx.resolve_right (fun hnone => by simp [hnone.1] at ho)
  · rcases hx with rfl | ⟨_, howner, _⟩
    · exact hclosing
    · exact absurd (congrArg Session.owner hclosing) howner
  · rcases hx with rfl | ⟨_, _, hcurrent⟩
    · rfl
    · exact hcurrent

/-- The thread whose request a kernel is about to take back is still waiting for it. -/
theorem Coherent.waits_of_serving {i : ℕ} (h : Coherent c s σ) (hσ : σ q = .serving r)
    (hslot : (s.slot q i).infoBits = 3) :
    (s.threads i).currPart = q ∧ (s.threads i).role = r ∧
      ((s.threads i).position = .readInfo ∨ (s.threads i).position = .checkPart) := by
  obtain ⟨rfl, hwaiting⟩ := h.requests q i hslot
  have hok := h.threads i
  have hcurrent : (σ (s.threads i).currPart).current = some r := by rw [hσ]; rfl
  have hrole : (σ (s.threads i).currPart).current ≠ some (s.threads i).role.other →
      (s.threads i).role = r := by
    intro hne
    rw [hcurrent] at hne
    cases hi : (s.threads i).role <;> cases r <;> simp_all [Role.other]
  refine ⟨rfl, ?_⟩
  cases hpos : (s.threads i).position <;>
    simp only [hpos, ThreadPosition.Waiting, ThreadOk] at hwaiting hok
  case readInfo => exact ⟨hrole hok.1, .inl rfl⟩
  case checkPart => exact ⟨hrole hok.1, .inr rfl⟩
  case recheckPart =>
    exact absurd hslot (hok.2.2 (hcurrent.trans (congrArg some (hrole hok.1).symm))).2
  case lastRead | clearSlot => cases hcurrent.symm.trans hok.1

theorem threadOk_of_pending (hpos : th.position = .readInfo ∨ th.position = .checkPart)
    (hcurrent : (σ th.currPart).current ≠ some th.role.other)
    (hlast : (s.slot th.currPart t).infoBits = 0 → σ th.currPart = .exhausted th.role t) :
    ThreadOk s σ t th := by
  rcases hpos with hpos | hpos <;> simpa only [ThreadOk, hpos] using ⟨hcurrent, hlast⟩

private theorem Coherent.pim_current (h : Coherent c s σ) (q' : ℕ) (r : Role) :
    (update σ q ((σ q).after (s.pims q)) q').current = some r ↔ s.part r = q' := by
  rw [apply_update_of_eq σ Session.current Session.after_current]
  exact h.current q' r

private theorem Coherent.takeBack {i : ℕ} {last : Bool} {v : BitVec 16} (h : Coherent c s σ)
    (hpos : (s.pims q).position = .running (.writeBits r i last v))
    (hstep : (s.pims q).step c.debugResident (executeKernel c) = some p) :
    Coherent c { s.setPim q p with log := log }
      (update σ q ((σ q).after (s.pims q))) := by
  obtain ⟨hσ, hslot, rfl⟩ := (h.pims q).serving_of_writeBits hpos
  obtain ⟨hcurr, hrole, hthread⟩ := h.waits_of_serving hσ hslot
  have hafter : (σ q).after (s.pims q) = if last then .exhausted r i else .serving r := by
    cases last <;> simp [Session.after, hσ, hpos]
  have hmemory := (step_takeBack hstep hpos).1
  have hbits : (p.memory.requestSlots i).infoBits = if last then 0 else 2 := by simp [hmemory]
  refine h.of_step rfl (fun u hu => ?_) h.pim_current
    (sessionOk_update ((h.pims q).pim_step hstep (h.slotBits q)) h.pims)
    ((forall_update_iff s.pims (fun _ p => Bits (p.memory.requestSlots i).infoBits)).mpr
      ⟨?_, fun q' _ => h.slotBits q' i⟩) (h.threadBits i)
    ((forall_update_iff s.pims (fun q' p => (p.memory.requestSlots i).infoBits = 3 →
      (s.threads i).currPart = q' ∧ (s.threads i).position.Waiting)).mpr
      ⟨fun hq => ?_, fun q' _ => h.requests q' i⟩) ?_
    ((forall_update_iff σ (fun q' y => ∀ r', y = .closing r' i →
      (s.threads i).currPart = q' ∧ (s.threads i).position.Closing)).mpr
      ⟨fun r' hq => ?_, fun q' _ r' => h.closers q' r' i⟩)
  · refine h.pim_undetected hstep (by simp [hmemory, hu, State.slot]) ?_
    cases last with
    | false => exact .inl (hafter.trans hσ.symm)
    | true =>
      refine .inr ⟨by rw [hσ]; rfl, ?_, Session.after_current⟩
      rw [hafter]
      exact fun ho => hu (some.inj ho).symm
  · cases last with
    | false => exact .inr (.inl hbits)
    | true => exact .inl hbits
  · cases last <;> cases hbits.symm.trans hq
  · have hcurrent : (update σ q ((σ q).after (s.pims q)) q).current ≠
        some r.other := by
      rw [update_self, Session.after_current, hσ]
      cases r <;> simp [Session.current, Role.other]
    have hlast : (({ s.setPim q p with log := log } : State).slot q i).infoBits = 0 →
        update σ q ((σ q).after (s.pims q)) q = .exhausted r i := by
      intro hv
      rw [State.slot, setPim_same, hbits] at hv
      rw [update_self, hafter]
      cases last with
      | false => cases hv
      | true => rfl
    subst hcurr hrole
    exact threadOk_of_pending hthread hcurrent hlast
  · cases last <;> cases hafter.symm.trans hq

theorem Coherent.pim_step (h : Coherent c s σ)
    (hstep : (s.pims q).step c.debugResident (executeKernel c) = some p) :
    Coherent c { s.setPim q p with log := log }
      (update σ q ((σ q).after (s.pims q))) := by
  by_cases hwrites : ∃ r i last v, (s.pims q).position = .running (.writeBits r i last v)
  · obtain ⟨r, i, last, v, hpos⟩ := hwrites
    exact h.takeBack hpos hstep
  · have hquiet : ∀ r i last v, (s.pims q).position ≠ .running (.writeBits r i last v) :=
      fun r i last v hpos => hwrites ⟨r, i, last, v, hpos⟩
    have hafter : (σ q).after (s.pims q) = σ q :=
      Session.after_of_ne (fun r i v => hquiet r i true v)
    have hall : ∀ u, Undetected s { s.setPim q p with log := log } σ
        (update σ q ((σ q).after (s.pims q))) u :=
      fun u => h.pim_undetected hstep (step_infoBits hstep hquiet u) (.inl hafter)
    exact
      { current := h.pim_current
        pims := sessionOk_update ((h.pims q).pim_step hstep (h.slotBits q)) h.pims
        slotBits := fun q' u => (hall u).slots q' ▸ h.slotBits q' u
        threadBits := h.threadBits
        requests := fun q' u hslot => h.requests q' u ((hall u).slots q' ▸ hslot)
        threads := fun u => (hall u).threadOk (h.threads u)
        closers := fun q' r u hq => h.closers q' r u ((hall u).closing q' r hq) }

end SmcSim.PimQueue
