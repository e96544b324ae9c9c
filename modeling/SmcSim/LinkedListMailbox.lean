import SmcSim.LinkedListSweep

/-!
# Host threads and the kernel on the request slots

Host threads run `LINKED_LIST_OPERATION` on their own slots while the kernel runs in
ops mode. A step is one access of one party: a host's write or read of its slot, or
one command of the kernel. The trace records when a thread sets its valid bit, when
the kernel executes a request and when the thread sees the bit cleared.
-/

namespace SmcSim.LinkedListKernel
open EffectPrograms PimMemory SkipListPrograms SetSemantics Function List Option

/-! ### The system -/

/-- Where a host thread stands inside `LINKED_LIST_OPERATION`. -/
inductive HostPc where
  | idle
  | wroteParameter (op : Operation) (key : ℕ)
  | wroteOperation (op : Operation) (key : ℕ)
  | waiting (op : Operation) (key : ℕ)

/-- A host thread, with the info bits of its local `request_slot`. -/
structure Host where
  pc : HostPc
  infoBits : BitVec 16

inductive Event where
  | submit (i : ℕ) (op : Operation) (key : ℕ)
  | execute (e : Execution)
  | complete (i : ℕ) (retval : BitVec 16)
  deriving DecidableEq

def Event.thread : Event → ℕ
  | .submit i _ _ => i
  | .execute e => e.slot
  | .complete i _ => i

def Event.execution? : Event → Option Execution
  | .execute e => some e
  | _ => none

structure Mailbox where
  hosts : ℕ → Host
  slots : ℕ → RequestSlot
  trace : List Event

@[simps] def Mailbox.setHost (b : Mailbox) (i : ℕ) (host : Host) : Mailbox :=
  { b with hosts := update b.hosts i host }

@[simps] def Mailbox.setSlot (b : Mailbox) (i : ℕ) (slot : RequestSlot) : Mailbox :=
  { b with slots := update b.slots i slot }

@[simps] def Mailbox.emit (b : Mailbox) (e : Event) : Mailbox := { b with trace := b.trace ++ [e] }

/-- The next access of host thread `i`; an idle thread starts the operation `op` on `key`. -/
def hostStep (i : ℕ) (op : Operation) (key : ℕ) (b : Mailbox) : Mailbox :=
  match (b.hosts i).pc with
  | .idle =>
      (b.setHost i ⟨.wroteParameter op key, (b.hosts i).infoBits⟩).setSlot i
        ⟨(b.slots i).infoBits, key⟩
  | .wroteParameter op key =>
      let info := setOperation (b.hosts i).infoBits (opCode op)
      (b.setHost i ⟨.wroteOperation op key, info⟩).setSlot i ⟨info, (b.slots i).parameter⟩
  | .wroteOperation op key =>
      let info := setRequest (b.hosts i).infoBits
      ((b.setHost i ⟨.waiting op key, info⟩).setSlot i ⟨info, (b.slots i).parameter⟩).emit
        (.submit i op key)
  | .waiting op key =>
      let info := (b.slots i).infoBits
      if checkValidRequest info ≠ 0 then b.setHost i ⟨.waiting op key, info⟩
      else (b.setHost i ⟨.idle, info⟩).emit (.complete i (getRetval info))

def mailboxHandler : Handler Port PortRes Mailbox
  | .readInfoBits i, b => some ((b.slots i).infoBits, b)
  | .writeInfoBits i v, b => some ((), b.setSlot i ⟨v, (b.slots i).parameter⟩)
  | .readParameter i, b => some ((b.slots i).parameter, b)
  | .printServed i opType param retval, b => some ((), b.emit (.execute ⟨i, opType, param, retval⟩))
  | .printInteger _, b => some ((), b)

/-- The device with its mailbox, and what the kernel still has to do in this round. -/
structure System where
  machine : Machine Mailbox
  kernel : ListKernel (Option Locals)

def System.trace (s : System) : List Event := s.machine.ports.trace

def pimStep (fuel n : ℕ) (s : System) : Option System :=
  match s.kernel with
  | .ret (some locals) => some ⟨s.machine, kernelRound fuel n locals⟩
  | .ret none => none
  | .call o k => (handler mailboxHandler o s.machine).map (fun r => ⟨r.2, k r.1⟩)
  | .stuck => none

/-- One step of the system; the threads `0 .. n - 1` use keys from `keys`. -/
inductive Step (fuel n : ℕ) (keys : ℕ → Prop) (s : System) : System → Prop
  | host (i : ℕ) (op : Operation) (key : ℕ) (hi : i < n) (hkey : keys key) :
      Step fuel n keys s ⟨{ s.machine with ports := hostStep i op key s.machine.ports }, s.kernel⟩
  | pim (s' : System) (h : pimStep fuel n s = some s') : Step fuel n keys s s'

/-- Ops mode, no slot valid, every thread outside `LINKED_LIST_OPERATION`. -/
structure Initial (fuel n : ℕ) (s : System) : Prop where
  mode : s.machine.memory.sreg 0 = 1
  kernel : ∃ locals, s.kernel = kernelRound fuel n locals
  slots : ∀ i, ¬ Valid (s.machine.ports.slots i).infoBits
  hosts : ∀ i, (s.machine.ports.hosts i).pc = .idle
  trace : s.trace = []

inductive Reachable (fuel n : ℕ) (keys : ℕ → Prop) : System → Prop
  | initial (s : System) (h : Initial fuel n s) : Reachable fuel n keys s
  | step (s s' : System) (hs : Reachable fuel n keys s) (h : Step fuel n keys s s') :
      Reachable fuel n keys s'

/-! ### The life of a request -/

inductive Phase where
  | quiet
  | submitted (op : Operation) (key : ℕ)
  | executed (op : Operation) (key : ℕ) (retval : BitVec 16)

def Phase.next : Phase → Event → Option Phase
  | .quiet, .submit _ op key => some (.submitted op key)
  | .submitted op key, .execute e =>
      if e.opType = opCode op ∧ e.param = key then some (.executed op key e.retval) else none
  | .executed _ _ retval, .complete _ retval' => if retval' = retval then some .quiet else none
  | _, _ => none

def threadEvents (i : ℕ) (trace : List Event) : List Event := trace.filter (fun e => e.thread = i)

def phaseOf (i : ℕ) (trace : List Event) : Option Phase :=
  (threadEvents i trace).foldlM Phase.next .quiet

def cycle (i : ℕ) (c : Operation × ℕ × BitVec 16) : List Event :=
  [.submit i c.1 c.2.1, .execute ⟨i, opCode c.1, c.2.1, c.2.2⟩, .complete i c.2.2]

def opened (i : ℕ) : Phase → List Event
  | .quiet => []
  | .submitted op key => [.submit i op key]
  | .executed op key retval => [.submit i op key, .execute ⟨i, opCode op, key, retval⟩]

theorem phaseOf_append_other {i : ℕ} {e : Event} (he : e.thread ≠ i) (trace : List Event) :
    phaseOf i (trace ++ [e]) = phaseOf i trace := by
  simp [phaseOf, threadEvents, he]

theorem phaseOf_append_same {i : ℕ} {e : Event} (he : e.thread = i) {trace : List Event}
    {phase : Phase} (h : phaseOf i trace = some phase) :
    phaseOf i (trace ++ [e]) = phase.next e := by
  have h' : (threadEvents i trace).foldlM Phase.next .quiet = some phase := h
  have hsplit : threadEvents i (trace ++ [e]) = threadEvents i trace ++ [e] := by
    simp [threadEvents, he]
  rw [phaseOf, hsplit, foldlM_append, h']
  simp

theorem cycles_of_phases {i : ℕ} (events : List Event) {phase : Phase}
    (hi : ∀ e ∈ events, e.thread = i) (h : events.foldlM Phase.next .quiet = some phase) :
    ∃ finished : List (Operation × ℕ × BitVec 16),
      events = finished.flatMap (cycle i) ++ opened i phase := by
  induction events using reverseRecOn generalizing phase with
  | nil =>
    cases h
    exact ⟨[], rfl⟩
  | append_singleton events e ih =>
    rw [foldlM_append] at h
    obtain ⟨before, hbefore, hlast⟩ := bind_eq_some_iff.mp h
    obtain ⟨finished, hfin⟩ := ih (fun x hx => hi x (by simp [hx])) hbefore
    have he : e.thread = i := hi e (by simp)
    have hnext : before.next e = some phase := by simpa using hlast
    cases before with
    | quiet =>
      cases e with
      | submit j op key =>
        obtain rfl : j = i := he
        cases hnext
        exact ⟨finished, by simp [hfin, opened]⟩
      | execute | complete => cases hnext
    | submitted op key =>
      cases e with
      | submit | complete => cases hnext
      | execute e =>
        obtain ⟨slot, opType, param, retval⟩ := e
        obtain rfl : slot = i := he
        simp only [Phase.next, ite_none_right_eq_some, some.injEq] at hnext
        obtain ⟨⟨rfl, rfl⟩, rfl⟩ := hnext
        exact ⟨finished, by simp [hfin, opened]⟩
    | executed op key retval =>
      cases e with
      | submit | execute => cases hnext
      | complete j r =>
        obtain rfl : j = i := he
        simp only [Phase.next, ite_none_right_eq_some, some.injEq] at hnext
        obtain ⟨rfl, rfl⟩ := hnext
        exact ⟨finished ++ [(op, key, r)], by simp [hfin, opened, cycle]⟩

/-! ### Mailbox and ownership -/

/-- One slot: its thread, its contents, how far its request has come, and what the
kernel holds of it. -/
inductive SlotRel (keys : ℕ → Prop) : Host → RequestSlot → Phase → Option Held → Prop
  | idle {v : BitVec 16} {slot : RequestSlot} (hslot : ¬ Valid slot.infoBits) :
      SlotRel keys ⟨.idle, v⟩ slot .quiet none
  | wroteParameter {op : Operation} {key : ℕ} {v info : BitVec 16} (hkey : keys key)
      (hslot : ¬ Valid info) : SlotRel keys ⟨.wroteParameter op key, v⟩ ⟨info, key⟩ .quiet none
  | wroteOperation {op : Operation} {key : ℕ} {v : BitVec 16} (hkey : keys key) :
      SlotRel keys ⟨.wroteOperation op key, setOperation v (opCode op)⟩
        ⟨setOperation v (opCode op), key⟩ .quiet none
  | pending {op : Operation} {v : BitVec 16} {slot : RequestSlot} {held : Option Held}
      (hkey : keys slot.parameter) (hslot : Valid slot.infoBits) (hreq : IsRequest slot)
      (hop : extractOperation slot.infoBits = opCode op)
      (hheld : held = none ∨ held = some ⟨slot, none⟩) :
      SlotRel keys ⟨.waiting op slot.parameter, v⟩ slot (.submitted op slot.parameter) held
  | served {op : Operation} {key : ℕ} {v r : BitVec 16} {slot : RequestSlot}
      (hslot : Valid slot.infoBits) :
      SlotRel keys ⟨.waiting op key, v⟩ slot (.executed op key r) (some ⟨slot, some r⟩)
  | answered {op : Operation} {key : ℕ} {v : BitVec 16} {slot : RequestSlot}
      (hslot : ¬ Valid slot.infoBits) :
      SlotRel keys ⟨.waiting op key, v⟩ slot (.executed op key (getRetval slot.infoBits)) none

structure MailboxRel (keys : ℕ → Prop) (b : Mailbox) (g : Ghost) : Prop where
  slot : ∀ i, ∃ phase, phaseOf i b.trace = some phase ∧
    SlotRel keys (b.hosts i) (b.slots i) phase (g.held i)
  known : ∀ i, g.held i = none → Valid (g.left i).infoBits → b.slots i = g.left i
  served : b.trace.filterMap Event.execution? = g.served

/-- What a slot outside the kernel's hands may show: a request, if it is valid, and the
very one the kernel knows of. -/
def submitting (keys : ℕ → Prop) : Rely := fun left i slot =>
  (Valid slot.infoBits → IsRequest slot ∧ keys slot.parameter) ∧
  (Valid (left i).infoBits → slot = left i)

section Relation

variable {keys : ℕ → Prop} {b : Mailbox} {g : Ghost} {i : ℕ}

variable {phase : Phase} {slot : RequestSlot}

theorem SlotRel.of_held {host : Host} {h : Held}
    (hr : SlotRel keys host slot phase (some h)) : slot = h.slot := by
  cases hr with
  | pending _ _ _ _ hheld =>
    rcases hheld with hheld | hheld
    · cases hheld
    · cases hheld
      rfl
  | served => rfl

theorem SlotRel.of_waiting {host : Host} {slot' : RequestSlot}
    (hr : SlotRel keys host slot phase (some ⟨slot', none⟩)) :
    ∃ op v, host = ⟨.waiting op slot.parameter, v⟩ ∧ phase = .submitted op slot.parameter ∧
      Valid slot.infoBits ∧ extractOperation slot.infoBits = opCode op := by
  cases hr with
  | pending _ hslot _ hop _ => exact ⟨_, _, rfl, rfl, hslot, hop⟩

theorem SlotRel.of_answered {host : Host} {slot' : RequestSlot}
    {r : BitVec 16} (hr : SlotRel keys host slot phase (some ⟨slot', some r⟩)) :
    ∃ op key v, host = ⟨.waiting op key, v⟩ ∧ phase = .executed op key r := by
  cases hr with
  | pending _ _ _ _ hheld => rcases hheld with hheld | hheld <;> cases hheld
  | served _ => exact ⟨_, _, _, rfl, rfl⟩

/-- Another thread's slot does not notice a change of slot `i`. -/
theorem MailboxRel.update (hr : MailboxRel keys b g) {b' : Mailbox} {g' : Ghost}
    (hothers : ∀ j, j ≠ i → b'.hosts j = b.hosts j ∧ b'.slots j = b.slots j ∧
      phaseOf j b'.trace = phaseOf j b.trace ∧ g'.held j = g.held j ∧ g'.left j = g.left j)
    (hslot : ∃ phase, phaseOf i b'.trace = some phase ∧
      SlotRel keys (b'.hosts i) (b'.slots i) phase (g'.held i))
    (hknown : g'.held i = none → Valid (g'.left i).infoBits → b'.slots i = g'.left i)
    (hserved : b'.trace.filterMap Event.execution? = g'.served) : MailboxRel keys b' g' := by
  refine ⟨fun j => ?_, fun j => ?_, hserved⟩
  · by_cases hj : j = i
    · exact hj ▸ hslot
    · obtain ⟨h1, h2, h3, h4, _⟩ := hothers j hj
      rw [h1, h2, h3, h4]
      exact hr.slot j
  · by_cases hj : j = i
    · exact hj ▸ hknown
    · obtain ⟨_, h2, _, h4, h5⟩ := hothers j hj
      rw [h2, h4, h5]
      exact hr.known j

/-- A slot the kernel does not hold shows what `submitting` allows. -/
theorem MailboxRel.relied (hr : MailboxRel keys b g) (hn : g.held i = none) :
    submitting keys g.left i (b.slots i) := by
  refine ⟨fun hv => ?_, hr.known i hn⟩
  obtain ⟨phase, _, hs⟩ := hr.slot i
  rw [hn] at hs
  generalize b.hosts i = host at hs
  generalize hsl : b.slots i = slot at hs hv
  cases hs with
  | idle hslot | wroteParameter _ hslot | answered hslot => exact absurd hv hslot
  | wroteOperation _ => exact absurd hv (not_valid_setOperation _ _)
  | pending hkey _ hreq _ _ => exact ⟨hreq, hkey⟩

theorem mailbox_sound (keys : ℕ → Prop) (onStuck : Prop) :
    (ownership (submitting keys) onStuck).Sound mailboxHandler (MailboxRel keys) := by
  intro o b g Q hr hp
  left
  cases o with
  | readInfoBits i =>
    obtain ⟨phase, hphase, hs⟩ := hr.slot i
    cases hi : g.held i with
    | some h =>
      rw [hi] at hs
      refine ⟨_, _, g, rfl, ?_, hr⟩
      rw [hs.of_held]
      exact hp.1 h hi
    | none =>
      refine ⟨_, _, _, rfl, hp.2 hi (b.slots i) (hr.relied hi), ?_⟩
      by_cases hv : Valid (b.slots i).infoBits
      · simp only [hv, if_true]
        refine hr.update (i := i) (fun j hj => ⟨rfl, rfl, rfl, update_of_ne hj _ _, rfl⟩)
          ⟨phase, hphase, ?_⟩ (fun hn => ?_) hr.served
        · rw [hi] at hs
          rw [Ghost.hold_held, update_self]
          generalize b.hosts i = host at hs
          generalize b.slots i = slot at hs hv
          cases hs with
          | idle hslot | wroteParameter _ hslot | answered hslot => exact absurd hv hslot
          | wroteOperation _ => exact absurd hv (not_valid_setOperation _ _)
          | pending hkey hslot hreq hop _ => exact .pending hkey hslot hreq hop (.inr rfl)
        · rw [Ghost.hold_held, update_self] at hn
          cases hn
      · simp only [hv, if_false]
        exact hr
  | writeInfoBits i v =>
    obtain ⟨⟨slot, answer⟩, r, hh, ha, hc⟩ := hp
    obtain ⟨phase, hphase, hs⟩ := hr.slot i
    obtain rfl : answer = some r := ha
    rw [hh] at hs
    obtain ⟨op, key, v', hhost, rfl⟩ := hs.of_answered
    have hslot : b.slots i = slot := hs.of_held
    by_cases hv : Valid v
    · simp only [hv, if_true] at hc
      refine ⟨_, _, _, rfl, hc.2, hr.update (i := i) (fun j hj => ?_) ⟨_, hphase, ?_⟩ (fun hn => ?_)
        hr.served⟩
      · exact ⟨rfl, by simp [hj], rfl, update_of_ne hj _ _, rfl⟩
      · have hgoal : SlotRel keys ⟨.waiting op key, v'⟩ ⟨v, slot.parameter⟩ (.executed op key r)
            (some ⟨⟨v, slot.parameter⟩, some r⟩) := .served hv
        simpa [hhost, hslot] using hgoal
      · rw [Ghost.hold_held, update_self] at hn
        cases hn
    · simp only [hv, if_false] at hc
      obtain ⟨rfl, hq⟩ := hc
      refine ⟨_, _, _, rfl, hq, hr.update (i := i) (fun j hj => ?_) ⟨_, hphase, ?_⟩ (fun _ hl => ?_)
        hr.served⟩
      · exact ⟨rfl, by simp [hj], rfl, update_of_ne hj _ _, update_of_ne hj _ _⟩
      · have hgoal : SlotRel keys ⟨.waiting op key, v'⟩ ⟨v, slot.parameter⟩
            (.executed op key (getRetval v)) none := .answered hv
        simpa [hhost, hslot] using hgoal
      · rw [Ghost.giveUp_left, update_self] at hl
        exact absurd hl hv
  | readParameter i =>
    obtain ⟨h, hh, hq⟩ := hp
    obtain ⟨phase, _, hs⟩ := hr.slot i
    rw [hh] at hs
    refine ⟨_, _, g, rfl, ?_, hr⟩
    rw [hs.of_held]
    exact hq
  | printServed i opType param retval =>
    obtain ⟨⟨slot, answer⟩, hh, ha, ho, hpar, hq⟩ := hp
    obtain ⟨phase, hphase, hs⟩ := hr.slot i
    obtain rfl : answer = none := ha
    rw [hh] at hs
    obtain ⟨op, v, hhost, rfl, hvalid, hop⟩ := hs.of_waiting
    have hslot : b.slots i = slot := hs.of_held
    rw [hslot] at hphase hhost hvalid hop
    obtain rfl : param = slot.parameter := hpar
    obtain rfl : opType = opCode op := ho.trans hop
    refine ⟨_, _, _, rfl, hq, hr.update (i := i) (fun j hj => ?_)
      ⟨.executed op slot.parameter retval, ?_, ?_⟩ (fun hn => ?_) ?_⟩
    · refine ⟨rfl, rfl, phaseOf_append_other (Ne.symm hj) _, ?_, rfl⟩
      rw [Ghost.record_held]
      exact update_of_ne hj _ _
    · refine (phaseOf_append_same (i := i) rfl hphase).trans ?_
      simp [Phase.next]
    · have hgoal : SlotRel keys ⟨.waiting op slot.parameter, v⟩ slot
          (.executed op slot.parameter retval) (some ⟨slot, some retval⟩) := .served hvalid
      simpa [hhost, hslot] using hgoal
    · rw [Ghost.record_held, Ghost.hold_held, update_self] at hn
      cases hn
    · simp [hr.served, Event.execution?]
  | printInteger v => exact hp.elim

/-- A host's access keeps the relation: it touches its slot only while the kernel does
not hold it. -/
theorem MailboxRel.host (hr : MailboxRel keys b g) {op : Operation} {key : ℕ} (hkey : keys key) :
    MailboxRel keys (hostStep i op key b) g := by
  obtain ⟨phase, hphase, hs⟩ := hr.slot i
  have hknown := hr.known i
  generalize hheld : g.held i = held at hs
  generalize hh : b.hosts i = host at hs
  generalize hsl : b.slots i = slot at hs
  rw [hsl] at hknown
  cases hs with
  | @idle v slot hslot =>
    have hstep : hostStep i op key b = (b.setHost i ⟨.wroteParameter op key, v⟩).setSlot i
        ⟨slot.infoBits, key⟩ := by simp [hostStep, hh, hsl]
    rw [hstep]
    refine hr.update (i := i) (fun j hj => ?_) ⟨.quiet, hphase, ?_⟩ (fun hn hl => ?_) hr.served
    · exact ⟨by simp [hj], by simp [hj], rfl, rfl, rfl⟩
    · rw [hheld]
      simpa using SlotRel.wroteParameter hkey hslot
    · rw [← hknown hn hl] at hl
      exact absurd hl hslot
  | @wroteParameter op' key' v info hkey' hslot =>
    have hstep : hostStep i op key b =
        (b.setHost i ⟨.wroteOperation op' key', setOperation v (opCode op')⟩).setSlot i
          ⟨setOperation v (opCode op'), key'⟩ := by simp [hostStep, hh, hsl]
    rw [hstep]
    refine hr.update (i := i) (fun j hj => ?_) ⟨.quiet, hphase, ?_⟩ (fun hn hl => ?_) hr.served
    · exact ⟨by simp [hj], by simp [hj], rfl, rfl, rfl⟩
    · rw [hheld]
      simpa using SlotRel.wroteOperation hkey'
    · rw [← hknown hn hl] at hl
      exact absurd hl hslot
  | @wroteOperation op' key' v hkey' =>
    have hstep : hostStep i op key b =
        ((b.setHost i ⟨.waiting op' key', setRequest (setOperation v (opCode op'))⟩).setSlot i
          ⟨setRequest (setOperation v (opCode op')), key'⟩).emit (.submit i op' key') := by
      simp [hostStep, hh, hsl]
    rw [hstep]
    refine hr.update (i := i) (fun j hj => ?_) ⟨.submitted op' key', ?_, ?_⟩ (fun hn hl => ?_) ?_
    · exact ⟨by simp [hj], by simp [hj], phaseOf_append_other (Ne.symm hj) _, rfl, rfl⟩
    · exact phaseOf_append_same (i := i) rfl hphase
    · rw [hheld]
      have hgoal : SlotRel keys ⟨.waiting op' key', setRequest (setOperation v (opCode op'))⟩
          ⟨setRequest (setOperation v (opCode op')), key'⟩ (.submitted op' key') none :=
        @SlotRel.pending keys op' _ ⟨setRequest (setOperation v (opCode op')), key'⟩ none hkey'
          (valid_setRequest _) ⟨⟨op', extractOperation_request v op'⟩, getRetval_request v op'⟩
          (extractOperation_request v op') (.inl rfl)
      simpa using hgoal
    · rw [← hknown hn hl] at hl
      exact absurd hl (not_valid_setOperation _ _)
    · simpa [Event.execution?, filterMap_cons] using hr.served
  | @pending op' v slot held hkey' hslot hreq hop hheld' =>
    have hc : checkValidRequest slot.infoBits ≠ 0 := hslot
    have hstep : hostStep i op key b =
        b.setHost i ⟨.waiting op' slot.parameter, slot.infoBits⟩ := by
      simp only [hostStep, hh, hsl]
      exact if_pos hc
    rw [hstep]
    refine hr.update (i := i) (fun j hj => ?_) ⟨_, hphase, ?_⟩ (fun hn hl => ?_) hr.served
    · exact ⟨by simp [hj], rfl, rfl, rfl, rfl⟩
    · rw [hheld]
      simpa [hsl] using SlotRel.pending hkey' hslot hreq hop hheld'
    · exact hsl.trans (hknown hn hl)
  | @served op' key' v r slot hslot =>
    have hc : checkValidRequest slot.infoBits ≠ 0 := hslot
    have hstep : hostStep i op key b =
        b.setHost i ⟨.waiting op' key', slot.infoBits⟩ := by
      simp only [hostStep, hh, hsl]
      exact if_pos hc
    rw [hstep]
    refine hr.update (i := i) (fun j hj => ?_) ⟨_, hphase, ?_⟩ (fun hn hl => ?_) hr.served
    · exact ⟨by simp [hj], rfl, rfl, rfl, rfl⟩
    · rw [hheld]
      have hgoal : SlotRel keys ⟨.waiting op' key', slot.infoBits⟩ slot (.executed op' key' r)
          (some ⟨slot, some r⟩) := .served hslot
      simpa [hsl] using hgoal
    · exact hsl.trans (hknown hn hl)
  | @answered op' key' v slot hslot =>
    have hc : ¬ checkValidRequest slot.infoBits ≠ 0 := hslot
    have hstep : hostStep i op key b =
        (b.setHost i ⟨.idle, slot.infoBits⟩).emit (.complete i (getRetval slot.infoBits)) := by
      simp only [hostStep, hh, hsl]
      exact if_neg hc
    rw [hstep]
    refine hr.update (i := i) (fun j hj => ?_) ⟨.quiet, ?_, ?_⟩ (fun hn hl => ?_) ?_
    · exact ⟨by simp [hj], rfl, phaseOf_append_other (Ne.symm hj) _, rfl, rfl⟩
    · refine (phaseOf_append_same (i := i) rfl hphase).trans ?_
      simp [Phase.next]
    · rw [hheld]
      have hgoal : SlotRel keys ⟨.idle, slot.infoBits⟩ slot .quiet none := .idle hslot
      simpa [hsl] using hgoal
    · rw [← hknown hn hl] at hl
      exact absurd hl hslot
    · simpa [Event.execution?, filterMap_cons] using hr.served

end Relation

end SmcSim.LinkedListKernel
