import SmcSim.QueueRing

/-!
# What the threads have counted

What has been served for a thread is what it has counted, with the service that it has not
yet seen or not yet counted at the end.
-/

namespace SmcSim.PimQueue
open CommandHandshake Interleavings Option

variable {c : Config} {s s' : State} {σ σ' : ℕ → Session} {t q : ℕ} {th : Thread} {x : Session}
variable {p : Pim Position Partition} {m : Partition}

/-! ### Accounts -/

def Served (s : State) (t : ℕ) (th : Thread) : Prop :=
  (s.slot th.currPart t).infoBits = 3 → Holding (s.pims th.currPart) t

/-- The thread has counted everything that has been served for it. -/
def Settled (s : State) (t : ℕ) (th : Thread) : Prop :=
  ∀ r, movedFor s.log r t = th.counted r

/-- The thread has not counted the service that moved `v`. -/
def Owed (s : State) (t : ℕ) (th : Thread) (v : ℕ) : Prop :=
  ∀ r, movedFor s.log r t = th.counted r ++ if r = th.role then [v] else []

def Accounted (s : State) (t : ℕ) (th : Thread) : Prop :=
  let slot := s.slot th.currPart t
  match th.position with
  | .writeInfo => Settled s t th ∧ (th.role = .enq → slot.parameter = th.parameter)
  | .readInfo | .checkPart | .recheckPart | .lastRead =>
      (Served s t th → Owed s t th slot.parameter) ∧ (¬ Served s t th → Settled s t th) ∧
        (th.role = .enq → slot.parameter = th.parameter)
  | .readParameter => Owed s t th slot.parameter
  | _ => Settled s t th

theorem Accounted.frame (h : Accounted s t th)
    (hlog : ∀ r, movedFor s'.log r t = movedFor s.log r t)
    (hslot : s'.slot th.currPart t = s.slot th.currPart t)
    (hholding : Holding (s'.pims th.currPart) t ↔ Holding (s.pims th.currPart) t) :
    Accounted s' t th := by
  have hserved : Served s' t th ↔ Served s t th := by
    unfold Served
    rw [hslot, hholding]
  have hsettled : Settled s' t th ↔ Settled s t th := by
    unfold Settled
    simp only [hlog]
  have howed : ∀ v, Owed s' t th v ↔ Owed s t th v := by
    intro v
    unfold Owed
    simp only [hlog]
  unfold Accounted at h ⊢
  dsimp only at h ⊢
  simp only [hslot, hserved, hsettled, howed]
  exact h

theorem nextOperation_counted (r : Role) :
    (nextOperation c t th).counted r = th.counted r := by
  unfold nextOperation
  split <;> rfl

theorem accounted_nextOperation (h : Settled s t th) : Accounted s t (nextOperation c t th) := by
  have hsettled : Settled s t (nextOperation c t th) :=
    fun r => (h r).trans (nextOperation_counted r).symm
  rcases nextOperation_position c t th with hpos | hpos <;>
    simpa only [Accounted, hpos] using hsettled

theorem accounted_afterRequest (h : Settled s t th) : Accounted s t (afterRequest c t th) := by
  unfold afterRequest
  split
  · exact h
  · exact accounted_nextOperation h

/-- Counting the service settles the account. -/
theorem accounted_complete (h : Owed s t th th.parameter) : Accounted s t (complete c t th) := by
  refine accounted_afterRequest (fun r => (h r).trans ?_)
  by_cases hr : r = th.role
  · simp [Thread.counted, hr]
  · simp [Thread.counted, hr, Ne.symm hr]

theorem accounted_afterWaiting (hbits : Bits th.infoBits)
    (hread : th.infoBits = (s.slot th.currPart t).infoBits)
    (hidle : th.infoBits = 3 → ¬ Holding (s.pims th.currPart) t)
    (howed : Served s t th → Owed s t th (s.slot th.currPart t).parameter)
    (hsettled : ¬ Served s t th → Settled s t th)
    (hparameter : th.role = .enq → (s.slot th.currPart t).parameter = th.parameter) :
    Accounted s t (afterWaiting c t th) := by
  unfold afterWaiting
  split
  · next hvalid =>
    have hserved : Served s t th :=
      fun hslot => absurd (hread.trans hslot) (hbits.checkValidRequest.mp hvalid)
    split
    · next hrole => exact accounted_complete (hparameter hrole ▸ howed hserved)
    · exact howed hserved
  · next hvalid =>
    have hslot : th.infoBits = 3 :=
      not_not.mp (fun hne => hvalid (hbits.checkValidRequest.mpr hne))
    exact hsettled (fun hserved => hidle hslot (hserved (hread.symm.trans hslot)))

theorem SessionOk.serving_of_holding {u : ℕ} (h : SessionOk c x p) (hholding : Holding p u) :
    ∃ r, x = .serving r ∧ (p.memory.requestSlots u).infoBits = 3 := by
  unfold Holding at hholding
  split at hholding
  · next k hpos =>
    obtain ⟨r, hx, hserves⟩ | ⟨r, hends⟩ := h.running hpos
    · cases k with
      | readBits =>
        obtain rfl := hholding
        exact ⟨r, hx, hserves.2.2⟩
      | writeBits =>
        obtain rfl := hholding
        exact ⟨r, hx, hserves.2.2.1⟩
      | _ => exact hholding.elim
    · cases k with
      | readBits | writeBits => exact hends.elim
      | _ => exact hholding.elim
  · exact hholding.elim

theorem Accounted.thread_step (hacc : Accounted s t (s.threads t)) (h : Coherent c s σ)
    (hstep : threadStep c t s = some s') : Accounted s' t (s'.threads t) := by
  have hok := h.threads t
  cases hp : (s.threads t).position <;>
    simp only [threadStep, Accounted, ThreadOk, hp, some.injEq, reduceCtorEq] at hstep hacc hok
  case readPart =>
    rw [← hstep, setThread_same]
    cases hrole : (s.threads t).role with
    | enq => exact hacc
    | deq => exact ⟨hacc, (fun h => by cases h)⟩
  case writeParameter =>
    rw [← hstep, setThread_same]
    refine ⟨hacc, fun _ => ?_⟩
    exact (congrArg RequestSlot.parameter setMemory_slot_same).trans
      (by simp [Partition.setParameter])
  case writeInfo =>
    rw [← hstep, setThread_same]
    -- The kernel cannot be at the slot of a thread that has no request in it.
    have hidle : ¬ Holding (s.pims (s.threads t).currPart) t := by
      intro hholding
      obtain ⟨_, _, hslot⟩ := (h.pims _).serving_of_holding hholding
      exact h.no_request_of_not_waiting (by simp [hp]) _ hslot
    refine ⟨fun hserved => ?_, fun _ => hacc.1, fun hrole => ?_⟩
    · refine absurd ?_ hidle
      have hholding := hserved (by
        rw [(h.threadBits t).setRequest]
        simp [State.slot, State.setThread, State.setMemory, State.setPim, Partition.setInfoBits])
      simpa [Holding, State.setThread, State.setMemory, State.setPim] using hholding
    · refine Eq.trans ?_ (hacc.2 hrole)
      simp [State.slot, State.setThread, State.setMemory, State.setPim, Partition.setInfoBits]
  case readInfo | checkPart =>
    rw [← hstep, setThread_same]
    split <;> exact hacc
  case recheckPart =>
    split at hstep
    · rw [← some.inj hstep, setThread_same]
      exact hacc
    · next hsame =>
      obtain ⟨hread, hslot⟩ := hok.2.2 ((h.current _ _).mpr (not_not.mp hsame).symm)
      rw [← some.inj hstep, setThread_same]
      exact accounted_afterWaiting (h.threadBits t) hread
        (fun hv => absurd (hread.symm.trans hv) hslot)
        hacc.1 hacc.2.1 hacc.2.2
  case lastRead =>
    rw [← hstep, setThread_same]
    refine accounted_afterWaiting (h.slotBits _ t) rfl (fun _ hholding => ?_) hacc.1 hacc.2.1
      hacc.2.2
    obtain ⟨r, hσ, _⟩ := (h.pims _).serving_of_holding hholding
    rw [hσ] at hok
    cases hok.1
  case readParameter =>
    rw [← hstep, setThread_same]
    exact accounted_complete hacc
  case clearSlot =>
    rw [← hstep, setThread_same]
    exact accounted_afterRequest hacc
  case changePart | activateRead | activateWrite | startRead | giveCommand | wakeUp =>
    rw [← hstep, setThread_same]
    exact hacc
  case checkSleep | checkDone =>
    split at hstep
    · rw [← some.inj hstep, setThread_same]
      exact hacc
    · rw [← some.inj hstep]
      simpa only [Accounted, hp] using hacc
  case giveNop =>
    rw [← hstep, setThread_same]
    exact accounted_nextOperation hacc

theorem movedFor_append (log : List Service) (x : Service) (r : Role) :
    movedFor (log ++ [x]) r t =
      movedFor log r t ++ if x.role = r ∧ x.thread = t then [x.value] else [] := by
  by_cases hx : x.role = r ∧ x.thread = t <;> simp [movedFor, hx]

/-- A step of a PIM that leaves the slot of the thread alone. -/
theorem Accounted.pim_frame {log : List Service} (hacc : Accounted s t th)
    (hlog : ∀ r, movedFor log r t = movedFor s.log r t)
    (hslot : p.memory.requestSlots t = s.slot q t)
    (hholding : Holding p t ↔ Holding (s.pims q) t) :
    Accounted { s.setPim q p with log := log } t th := by
  refine hacc.frame hlog ?_ (iff_of_eq ?_)
  · exact apply_update_of_eq s.pims (fun p => p.memory.requestSlots t) hslot _
  · exact apply_update_of_eq s.pims (fun p => Holding p t) (propext hholding) _

/-- The thread waits for its request, which has been served. -/
theorem accounted_of_served (hpos : th.position = .readInfo ∨ th.position = .checkPart)
    (hserved : Served s t th) (howed : Owed s t th (s.slot th.currPart t).parameter)
    (hparameter : th.role = .enq → (s.slot th.currPart t).parameter = th.parameter) :
    Accounted s t th := by
  rcases hpos with hpos | hpos <;>
    simpa only [Accounted, hpos] using ⟨fun _ => howed, fun hnot => absurd hserved hnot, hparameter⟩

theorem Accounted.of_pending (hacc : Accounted s t th)
    (hpos : th.position = .readInfo ∨ th.position = .checkPart) :
    (Served s t th → Owed s t th (s.slot th.currPart t).parameter) ∧
      (¬ Served s t th → Settled s t th) ∧
      (th.role = .enq → (s.slot th.currPart t).parameter = th.parameter) := by
  rcases hpos with hpos | hpos <;> simpa only [Accounted, hpos] using hacc

section

variable (hacc : Accounted s t (s.threads t))
include hacc

theorem Accounted.pim_serve {r : Role} {i : ℕ} (h : Coherent c s σ)
    (hpos : (s.pims q).position = .running (.serve r i))
    (hstep : (s.pims q).step c.debugResident (executeKernel c) = some p) :
    Accounted { s.setPim q p with log := s.log ++ served (s.pims q) } t (s.threads t) := by
  obtain ⟨hσ, _, hslot⟩ := (h.pims q).serving_of_serve hpos
  obtain rfl := step_serve hstep hpos
  have hidle : ∀ u, ¬ Holding (s.pims q) u := fun u => by simp [Holding, hpos, Position.Holds]
  have hserved : served (s.pims q) =
      [⟨r, i, (((s.pims q).memory.serve i r).requestSlots i).parameter⟩] := by
    cases r <;> simp [served, hpos, Partition.serve, Partition.setParameter]
  rw [hserved]
  by_cases hi : i = t
  · subst hi
    obtain ⟨rfl, rfl, hwaits⟩ := h.waits_of_serving hσ hslot
    obtain ⟨_, hsettled, hparameter⟩ := hacc.of_pending hwaits
    have hnot : ¬ Served s i (s.threads i) := fun hs => hidle i (hs hslot)
    refine accounted_of_served hwaits (fun _ => ?_) (fun r => ?_) (fun hrole => ?_)
    · simp [Holding, State.setPim, Position.Holds]
    · rw [movedFor_append, hsettled hnot r]
      by_cases hr : r = (s.threads i).role
      · simp [hr, State.slot, State.setPim]
      · simp [hr, Ne.symm hr]
    · rw [← hparameter hrole]
      simp [State.slot, State.setPim, hrole, Partition.serve]
  · refine hacc.pim_frame (fun r' => ?_) ?_ (iff_of_false ?_ (hidle t))
    · simp [movedFor_append, hi]
    · cases r <;> simp [Partition.serve, Partition.setParameter, State.slot, Ne.symm hi]
    · simpa [Holding, Position.Holds] using hi

theorem Accounted.pim_takeBack {r : Role} {i : ℕ} {last : Bool} {v : BitVec 16} (h : Coherent c s σ)
    (hpos : (s.pims q).position = .running (.writeBits r i last v))
    (hstep : (s.pims q).step c.debugResident (executeKernel c) = some p) :
    Accounted (s.setPim q p) t (s.threads t) := by
  obtain ⟨hσ, hslot, rfl⟩ := (h.pims q).serving_of_writeBits hpos
  have hp := step_takeBack hstep hpos
  by_cases hi : i = t
  · subst hi
    obtain ⟨rfl, _, hwaits⟩ := h.waits_of_serving hσ hslot
    obtain ⟨howed, _, hparameter⟩ := hacc.of_pending hwaits
    have hslot' : (s.setPim (s.threads i).currPart p).slot (s.threads i).currPart i =
        { s.slot (s.threads i).currPart i with infoBits := if last then 0 else 2 } := by
      simp [State.slot, setPim_same, hp.1]
    refine accounted_of_served hwaits (fun hs => ?_) ?_ ?_
    · rw [hslot'] at hs
      cases last <;> cases hs
    · rw [hslot']
      exact howed (fun _ => by simp [Holding, hpos, Position.Holds])
    · rw [hslot']
      exact hparameter
  · refine hacc.pim_frame (fun _ => rfl) ?_ (iff_of_false (hp.2 t) ?_)
    · simp [hp.1, State.slot, Ne.symm hi]
    · simpa [Holding, hpos, Position.Holds] using hi

theorem Accounted.pim_step (h : Coherent c s σ)
    (hstep : (s.pims q).step c.debugResident (executeKernel c) = some p) :
    Accounted { s.setPim q p with log := s.log ++ served (s.pims q) } t (s.threads t) := by
  by_cases hserves : ∃ r i, (s.pims q).position = .running (.serve r i)
  · obtain ⟨r, i, hpos⟩ := hserves
    exact hacc.pim_serve h hpos hstep
  · have hserve : ∀ r i, (s.pims q).position ≠ .running (.serve r i) :=
      fun r i hpos => hserves ⟨r, i, hpos⟩
    rw [served_eq_nil hserve, List.append_nil]
    by_cases hwrites : ∃ r i last v, (s.pims q).position = .running (.writeBits r i last v)
    · obtain ⟨r, i, last, v, hpos⟩ := hwrites
      exact hacc.pim_takeBack h hpos hstep
    · obtain ⟨hslots, hholding⟩ := step_quiet hstep hserve
        (fun r i last v hpos => hwrites ⟨r, i, last, v, hpos⟩)
      exact hacc.pim_frame (fun _ => rfl) (by rw [hslots]; rfl) (hholding t)

end

end SmcSim.PimQueue
