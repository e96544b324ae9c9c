import SmcSim.LinkedListKernel

/-!
# Who may touch a request slot

A slot with its valid bit set belongs to the kernel until the kernel clears the bit;
otherwise it belongs to its host thread. `ownership rely` specifies the kernel's
slot accesses under this discipline. Looking at a slot the kernel does not hold may
show anything that `rely` allows; a valid request found there is held from then on.
A held slot is served once, is written back with the return value of that service,
and is given up by clearing the valid bit.

The discipline is used twice: for a kernel that runs alone, where `rely` pins every
slot to its contents, and for a kernel between whose commands hosts take steps.
-/

namespace SmcSim.LinkedListKernel
open EffectPrograms PimMemory SetSemantics Function List

/-! ### Info bits -/

def Valid (infobits : BitVec 16) : Prop := checkValidRequest infobits ≠ 0

instance (infobits : BitVec 16) : Decidable (Valid infobits) :=
  inferInstanceAs (Decidable (checkValidRequest infobits ≠ 0))

def retvalBit (b : Bool) : BitVec 16 := if b then 1 else 0

def decodeOperation (infobits : BitVec 16) : Operation :=
  if extractOperation infobits = addOp then .add
  else if extractOperation infobits = removeOp then .remove
  else .contains

theorem checkValidRequest_setRetval (v : BitVec 16) (b : Bool) :
    checkValidRequest (setRetval v (retvalBit b)) = checkValidRequest v := by
  simp only [checkValidRequest, setRetval, BitVec.and_or_distrib_right]
  cases b <;> simp [retvalBit]

theorem not_valid_clearRequest (v : BitVec 16) : ¬ Valid (clearRequest v) := by
  simp [Valid, checkValidRequest, clearRequest, BitVec.and_assoc]

theorem getRetval_answer {v : BitVec 16} (h : getRetval v = 0) (b : Bool) :
    getRetval (clearRequest (setRetval v (retvalBit b))) = retvalBit b := by
  have h0 : v &&& 1#16 = 0#16 := h
  simp only [getRetval, clearRequest, setRetval, BitVec.and_assoc]
  cases b <;> simp [retvalBit, BitVec.and_or_distrib_right, h0]

@[simp] theorem valid_setRequest (v : BitVec 16) : Valid (setRequest v) := by
  simp only [Valid, checkValidRequest, setRequest, BitVec.and_or_distrib_right]
  intro h
  have hbit := congrArg (fun x : BitVec 16 => x.getLsbD 15) h
  simp at hbit

theorem not_valid_setOperation (v : BitVec 16) (op : Operation) :
    ¬ Valid (setOperation v (opCode op)) := by
  cases op <;>
    simp [Valid, checkValidRequest, setOperation, opCode, containsOp, addOp, removeOp,
      BitVec.and_or_distrib_right, BitVec.and_assoc]

theorem extractOperation_request (v : BitVec 16) (op : Operation) :
    extractOperation (setRequest (setOperation v (opCode op))) = opCode op := by
  cases op <;>
    simp [extractOperation, setRequest, setOperation, opCode, containsOp, addOp, removeOp,
      BitVec.and_or_distrib_right, BitVec.and_assoc]

theorem getRetval_request (v : BitVec 16) (op : Operation) :
    getRetval (setRequest (setOperation v (opCode op))) = 0 := by
  cases op <;>
    simp [getRetval, setRequest, setOperation, opCode, containsOp, addOp, removeOp,
      BitVec.and_or_distrib_right, BitVec.and_assoc]

theorem decodeOperation_of_extract {v : BitVec 16} {op : Operation}
    (h : extractOperation v = opCode op) : decodeOperation v = op := by
  cases op <;> simp [decodeOperation, h, opCode, containsOp, addOp, removeOp]

/-- A submitted request: one of the three operations, return value cleared. -/
structure IsRequest (slot : RequestSlot) : Prop where
  operation : ∃ op, extractOperation slot.infoBits = opCode op
  retval : getRetval slot.infoBits = 0

theorem IsRequest.extract_eq {slot : RequestSlot} (h : IsRequest slot) :
    extractOperation slot.infoBits = opCode (decodeOperation slot.infoBits) := by
  obtain ⟨op, hop⟩ := h.operation
  rw [decodeOperation_of_extract hop, hop]

/-! ### The ports of a kernel that runs alone -/

structure Execution where
  slot : ℕ
  opType : BitVec 16
  param : ℕ
  retval : BitVec 16
  deriving DecidableEq, Repr

structure Ports where
  slots : ℕ → RequestSlot
  served : List Execution
  printed : List ℕ

def portHandler : Handler Port PortRes Ports
  | .readInfoBits i, s => some ((s.slots i).infoBits, s)
  | .writeInfoBits i v, s =>
      some ((), { s with slots := update s.slots i ⟨v, (s.slots i).parameter⟩ })
  | .readParameter i, s => some ((s.slots i).parameter, s)
  | .printServed i opType param retval, s =>
      some ((), { s with served := s.served ++ [⟨i, opType, param, retval⟩] })
  | .printInteger v, s => some ((), { s with printed := s.printed ++ [v] })

/-! ### The ownership discipline -/

/-- A slot the kernel holds, and what it answered to it, once it has. -/
structure Held where
  slot : RequestSlot
  answer : Option (BitVec 16)

/-- `left i` is what the kernel last knew of a slot it does not hold. -/
structure Ghost where
  held : ℕ → Option Held
  left : ℕ → RequestSlot
  served : List Execution

namespace Ghost

@[simps] def hold (g : Ghost) (i : ℕ) (h : Held) : Ghost :=
  { g with held := update g.held i (some h) }

@[simps] def giveUp (g : Ghost) (i : ℕ) (slot : RequestSlot) : Ghost :=
  { g with held := update g.held i none, left := update g.left i slot }

@[simps] def record (g : Ghost) (e : Execution) : Ghost := { g with served := g.served ++ [e] }

end Ghost

/-! ### Answering a request -/

def answered (slot : RequestSlot) (b : Bool) : RequestSlot :=
  ⟨clearRequest (setRetval slot.infoBits (retvalBit b)), slot.parameter⟩

/-- The service of the request of slot `i`, answered by `b`. -/
def execution (i : ℕ) (slot : RequestSlot) (b : Bool) : Execution :=
  ⟨i, extractOperation slot.infoBits, slot.parameter, retvalBit b⟩

namespace Ghost

def answer (g : Ghost) (i : ℕ) (slot : RequestSlot) (b : Bool) : Ghost :=
  (g.giveUp i (answered slot b)).record (execution i slot b)

def answerAll (req : ℕ → RequestSlot) : Ghost → List ℕ → List Bool → Ghost
  | g, i :: order, b :: bs => answerAll req (g.answer i (req i) b) order bs
  | g, _, _ => g

variable {req : ℕ → RequestSlot}

variable {order : List ℕ} {bs : List Bool}

theorem answerAll_of_notMem {i : ℕ} (hi : i ∉ order) (g : Ghost) (bs : List Bool) :
    (g.answerAll req order bs).held i = g.held i ∧
      (g.answerAll req order bs).left i = g.left i := by
  induction order generalizing g bs with
  | nil => exact ⟨rfl, rfl⟩
  | cons j order ih =>
    obtain ⟨hij, hi⟩ := ne_and_not_mem_of_not_mem_cons hi
    cases bs with
    | nil => exact ⟨rfl, rfl⟩
    | cons b bs =>
      obtain ⟨hh, hl⟩ := ih hi (g.answer j (req j) b) bs
      exact ⟨hh.trans (by simp [answer, hij]), hl.trans (by simp [answer, hij])⟩

theorem answerAll_held {i : ℕ} (hi : i ∈ order) (g : Ghost)
    (hlen : bs.length = order.length) : (g.answerAll req order bs).held i = none := by
  induction order generalizing g bs with
  | nil => cases hi
  | cons j order ih =>
    cases bs with
    | nil => cases hlen
    | cons b bs =>
      by_cases hmem : i ∈ order
      · exact ih hmem _ (Nat.succ.inj hlen)
      · obtain rfl : i = j := (mem_cons.mp hi).resolve_right hmem
        rw [answerAll, (answerAll_of_notMem hmem _ _).1]
        simp [answer]

theorem answerAll_left {i : ℕ} (hi : i ∈ order) (hnd : order.Nodup) (g : Ghost)
    (hlen : bs.length = order.length) :
    ∃ b, (g.answerAll req order bs).left i = answered (req i) b := by
  induction order generalizing g bs with
  | nil => cases hi
  | cons j order ih =>
    cases bs with
    | nil => cases hlen
    | cons b bs =>
      obtain ⟨hj, hnd⟩ := nodup_cons.mp hnd
      rcases mem_cons.mp hi with rfl | hi
      · refine ⟨b, ?_⟩
        rw [answerAll, (answerAll_of_notMem hj _ _).2]
        simp [answer]
      · exact ih hi hnd _ (Nat.succ.inj hlen)

theorem answerAll_retvals (hnd : order.Nodup)
    (hr : ∀ i ∈ order, getRetval (req i).infoBits = 0) (g : Ghost)
    (hlen : bs.length = order.length) :
    order.map (fun i => getRetval ((g.answerAll req order bs).left i).infoBits) =
      bs.map retvalBit := by
  induction order generalizing g bs with
  | nil =>
    obtain rfl : bs = [] := eq_nil_of_length_eq_zero hlen
    rfl
  | cons j order ih =>
    cases bs with
    | nil => cases hlen
    | cons b bs =>
      obtain ⟨hj, hnd⟩ := nodup_cons.mp hnd
      have hrest := ih hnd (fun i hi => hr i (mem_cons_of_mem j hi)) (g.answer j (req j) b)
        (Nat.succ.inj hlen)
      have hfirst : getRetval (answered (req j) b).infoBits = retvalBit b :=
        getRetval_answer (hr j mem_cons_self) b
      rw [answerAll, map_cons, map_cons, hrest, (answerAll_of_notMem hj _ _).2]
      simp [answer, hfirst]

theorem answerAll_served (req : ℕ → RequestSlot) (order : List ℕ) (g : Ghost)
    (hlen : bs.length = order.length) :
    ∃ reported, (g.answerAll req order bs).served = g.served ++ reported ∧
      ∀ i ∈ order, ∃ e ∈ reported, e.slot = i := by
  induction order generalizing g bs with
  | nil => exact ⟨[], by simp [answerAll], by simp⟩
  | cons j order ih =>
    cases bs with
    | nil => cases hlen
    | cons b bs =>
      obtain ⟨reported, hr, hmem⟩ := ih (g.answer j (req j) b) (Nat.succ.inj hlen)
      refine ⟨execution j (req j) b :: reported, ?_, fun i hi => ?_⟩
      · rw [answerAll, hr]
        simp [answer]
      · rcases mem_cons.mp hi with rfl | hi
        · exact ⟨_, mem_cons_self, rfl⟩
        · obtain ⟨e, he, hslot⟩ := hmem i hi
          exact ⟨e, mem_cons_of_mem _ he, hslot⟩

end Ghost

abbrev Rely := (ℕ → RequestSlot) → ℕ → RequestSlot → Prop

/-- The specification of the slot accesses; `onStuck` as in `CommandSpec`. -/
def ownership (rely : Rely) (onStuck : Prop) : CommandSpec Port PortRes Ghost where
  pre
    | .readInfoBits i, g, Q =>
        (∀ h, g.held i = some h → Q h.slot.infoBits g) ∧
        (g.held i = none → ∀ slot, rely g.left i slot →
          Q slot.infoBits (if Valid slot.infoBits then g.hold i ⟨slot, none⟩ else g))
    | .writeInfoBits i v, g, Q => ∃ h r, g.held i = some h ∧ h.answer = some r ∧
        if Valid v then
          v = setRetval h.slot.infoBits r ∧ Q () (g.hold i ⟨⟨v, h.slot.parameter⟩, some r⟩)
        else
          getRetval v = r ∧ Q () (g.giveUp i ⟨v, h.slot.parameter⟩)
    | .readParameter i, g, Q => ∃ h, g.held i = some h ∧ Q h.slot.parameter g
    | .printServed i opType param retval, g, Q => ∃ h, g.held i = some h ∧ h.answer = none ∧
        opType = extractOperation h.slot.infoBits ∧ param = h.slot.parameter ∧
        Q () ((g.hold i ⟨h.slot, some retval⟩).record ⟨i, opType, param, retval⟩)
    | .printInteger _, _, _ => False
  mono o g Q Q' hQ hp := by
    cases o with
    | readInfoBits i =>
      exact ⟨fun h hh => hQ _ _ (hp.1 h hh), fun hn slot hs => hQ _ _ (hp.2 hn slot hs)⟩
    | writeInfoBits i v =>
      obtain ⟨h, r, hh, ha, hc⟩ := hp
      refine ⟨h, r, hh, ha, ?_⟩
      by_cases hv : Valid v
      · simp only [hv, if_true] at hc ⊢
        exact ⟨hc.1, hQ _ _ hc.2⟩
      · simp only [hv, if_false] at hc ⊢
        exact ⟨hc.1, hQ _ _ hc.2⟩
    | readParameter i =>
      obtain ⟨h, hh, hq⟩ := hp
      exact ⟨h, hh, hQ _ _ hq⟩
    | printServed i opType param retval =>
      obtain ⟨h, hh, ha, ho, hpar, hq⟩ := hp
      exact ⟨h, hh, ha, ho, hpar, hQ _ _ hq⟩
    | printInteger v => exact hp
  onStuck := onStuck

section Rules

variable {rely : Rely} {onStuck : Prop} {w : Machine Ghost} {i : ℕ}

theorem wp_readInfoBits_held {h : Held} {Q : BitVec 16 → Machine Ghost → Prop}
    (hh : w.ports.held i = some h) (hQ : Q h.slot.infoBits w) :
    (spec (ownership rely onStuck)).wp (readInfoBits i) w Q := by
  refine ⟨fun h' hh' => ?_, fun hn => ?_⟩
  · rw [hh] at hh'
    cases hh'
    exact hQ
  · rw [hh] at hn
    cases hn

/-- Looking at a slot the kernel does not hold. -/
theorem wp_readInfoBits_open {Q : BitVec 16 → Machine Ghost → Prop}
    (hn : w.ports.held i = none)
    (hQ : ∀ slot, rely w.ports.left i slot → Q slot.infoBits
      { w with ports := if Valid slot.infoBits then w.ports.hold i ⟨slot, none⟩ else w.ports }) :
    (spec (ownership rely onStuck)).wp (readInfoBits i) w Q := by
  refine ⟨fun h hh => ?_, fun _ slot hs => hQ slot hs⟩
  rw [hn] at hh
  cases hh

theorem wp_readParameter_held {h : Held} {Q : ℕ → Machine Ghost → Prop}
    (hh : w.ports.held i = some h) (hQ : Q h.slot.parameter w) :
    (spec (ownership rely onStuck)).wp (readParameter i) w Q := ⟨h, hh, hQ⟩

/-- Reporting an execution, writing its answer and clearing the request. -/
theorem wp_answer {slot : RequestSlot} {b : Bool} {Q : Unit → Machine Ghost → Prop}
    (hh : w.ports.held i = some ⟨slot, none⟩) (hv : Valid slot.infoBits)
    (hr : getRetval slot.infoBits = 0) (hQ : Q () { w with ports := w.ports.answer i slot b }) :
    let S := spec (ownership rely onStuck)
    S.wp (printServed i (extractOperation slot.infoBits) slot.parameter (retvalBit b)) w fun _ w₁ =>
      S.wp (readInfoBits i) w₁ fun info w₂ =>
        S.wp (writeInfoBits i (setRetval info (retvalBit b))) w₂ fun _ w₃ =>
          S.wp (readInfoBits i) w₃ fun info w₄ =>
            S.wp (writeInfoBits i (clearRequest info)) w₄ Q := by
  refine ⟨_, hh, rfl, rfl, rfl, wp_readInfoBits_held (update_self _ _ _) ?_⟩
  have hv' : Valid (setRetval slot.infoBits (retvalBit b)) := by
    rw [Valid, checkValidRequest_setRetval]
    exact hv
  refine ⟨_, _, update_self _ _ _, rfl, ?_⟩
  rw [if_pos hv']
  refine ⟨rfl, wp_readInfoBits_held (update_self _ _ _) ⟨_, _, update_self _ _ _, rfl, ?_⟩⟩
  rw [if_neg (not_valid_clearRequest _)]
  refine ⟨getRetval_answer hr b, ?_⟩
  have hg : ∀ h h' slot' e, (((w.ports.hold i h).record e).hold i h').giveUp i slot' =
      (w.ports.giveUp i slot').record e := by
    intro h h' slot' e
    simp [Ghost.hold, Ghost.giveUp, Ghost.record]
  rw [hg]
  exact hQ

end Rules

/-! ### Running alone -/

def alone : Rely := fun left i slot => slot = left i

/-- The slots of a kernel that runs alone, read off the ghost state. -/
def AloneRel (s : Ports) (g : Ghost) : Prop :=
  (∀ i, s.slots i = match g.held i with
    | some h => h.slot
    | none => g.left i) ∧ s.served = g.served

theorem AloneRel.of_held {s : Ports} {g : Ghost} (hr : AloneRel s g) {i : ℕ} {h : Held}
    (hh : g.held i = some h) : s.slots i = h.slot := by
  have hs := hr.1 i
  simpa only [hh] using hs

theorem AloneRel.of_open {s : Ports} {g : Ghost} (hr : AloneRel s g) {i : ℕ}
    (hn : g.held i = none) : s.slots i = g.left i := by
  have hs := hr.1 i
  simpa only [hn] using hs

theorem ownership_sound_alone (onStuck : Prop) :
    (ownership alone onStuck).Sound portHandler AloneRel := by
  intro o s g Q hr hp
  left
  cases o with
  | readInfoBits i =>
    cases hi : g.held i with
    | some h =>
      refine ⟨_, _, g, rfl, ?_, hr⟩
      rw [hr.of_held hi]
      exact hp.1 h hi
    | none =>
      refine ⟨_, _, _, rfl, hp.2 hi (s.slots i) (hr.of_open hi), ?_⟩
      by_cases hv : Valid (s.slots i).infoBits
      · simp only [hv, if_true]
        refine ⟨fun j => ?_, hr.2⟩
        by_cases hj : j = i
        · subst hj
          simp
        · rw [Ghost.hold_held, update_of_ne hj]
          exact hr.1 j
      · simp only [hv, if_false]
        exact hr
  | writeInfoBits i v =>
    obtain ⟨h, r, hh, ha, hc⟩ := hp
    have hs := hr.of_held hh
    by_cases hv : Valid v
    · simp only [hv, if_true] at hc
      refine ⟨_, _, _, rfl, hc.2, fun j => ?_, hr.2⟩
      by_cases hj : j = i
      · subst hj
        simp [hs]
      · rw [Ghost.hold_held, update_of_ne hj]
        simpa [hj] using hr.1 j
    · simp only [hv, if_false] at hc
      refine ⟨_, _, _, rfl, hc.2, fun j => ?_, hr.2⟩
      by_cases hj : j = i
      · subst hj
        simp [hs]
      · rw [Ghost.giveUp_held, Ghost.giveUp_left, update_of_ne hj, update_of_ne hj]
        simpa [hj] using hr.1 j
  | readParameter i =>
    obtain ⟨h, hh, hq⟩ := hp
    refine ⟨_, _, g, rfl, ?_, hr⟩
    rw [hr.of_held hh]
    exact hq
  | printServed i opType param retval =>
    obtain ⟨h, hh, ha, ho, hpar, hq⟩ := hp
    refine ⟨_, _, _, rfl, hq, fun j => ?_, ?_⟩
    · by_cases hj : j = i
      · subst hj
        simpa using hr.of_held hh
      · simpa [hj] using hr.1 j
    · simp [hr.2]
  | printInteger v => exact hp.elim

end SmcSim.LinkedListKernel
