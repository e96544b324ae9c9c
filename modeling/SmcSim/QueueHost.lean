import SmcSim.QueueKernel

/-!
# The host of the multi-partition queue

`ops_routine` of `multithread_pim_queue/main.cc` for any number of threads, together with
the PIMs of all partitions. The partition that serves enqueues and the one that serves
dequeues are the shared variables `enq_part` and `deq_part`. The thread whose request
exhausts a partition moves the variable on, activates the next partition and closes the
old one.
-/

namespace SmcSim.PimQueue
open CommandHandshake Function

/-! ### Threads -/

/-- The next access of `ops_routine`, with the partition that the calls of the host
interface have been given. -/
inductive ThreadPosition where
  | readPart
  | writeParameter
  | writeInfo
  | readInfo
  | checkPart
  | recheckPart
  | lastRead
  | readParameter
  | clearSlot
  | changePart
  | activateRead
  | activateWrite (q : ℕ)
  | startRead
  | checkSleep (q : ℕ)
  | giveCommand (q : ℕ)
  | wakeUp (q : ℕ)
  | checkDone
  | giveNop
  | finished
  deriving DecidableEq, Repr

/-- The variables of a thread. `operations` are the operations it has counted, with their
arguments. -/
structure Thread where
  position : ThreadPosition
  role : Role
  opCount : ℕ
  infoBits : BitVec 16
  parameter : ℕ
  currPart : ℕ
  operations : List (Role × ℕ)
  deriving DecidableEq, Repr

/-- The head of `while (op_count < num_ops)`. -/
def nextOperation (c : Config) (t : ℕ) (th : Thread) : Thread :=
  if th.opCount < c.numOps t then
    { th with
      position := .readPart
      role := if (th.opCount + t) % 2 = 0 then .enq else .deq
      parameter := c.randKeys t th.opCount }
  else
    { th with position := .finished }

/-- `if (CHECK_VALID_PIM(request_slot.info_bits) == 0)` -/
def afterRequest (c : Config) (t : ℕ) (th : Thread) : Thread :=
  if checkValidPim th.infoBits = 0 then { th with position := .changePart }
  else nextOperation c t th

def complete (c : Config) (t : ℕ) (th : Thread) : Thread :=
  afterRequest c t
    { th with opCount := th.opCount + 1, operations := th.operations ++ [(th.role, th.parameter)] }

/-- `if (CHECK_VALID_REQUEST(request_slot.info_bits) == 0)` -/
def afterWaiting (c : Config) (t : ℕ) (th : Thread) : Thread :=
  if checkValidRequest th.infoBits = 0 then
    match th.role with
    | .enq => complete c t th
    | .deq => { th with position := .readParameter }
  else
    { th with position := .clearSlot }

/-! ### The system -/

/-- A request that a kernel has served, with the value that it has moved. -/
structure Service where
  role : Role
  thread : ℕ
  value : ℕ
  deriving DecidableEq, Repr

/-- `part` are the variables `enq_part` and `deq_part`; `log` are the requests served. -/
structure State where
  part : Role → ℕ
  threads : ℕ → Thread
  pims : ℕ → Pim Position Partition
  log : List Service

inductive Party where
  | thread (t : ℕ)
  | pim (q : ℕ)
  deriving DecidableEq, Repr

def nextPartition (c : Config) (q : ℕ) : ℕ := (q + 1) % c.numPartitions

namespace State

def setThread (s : State) (t : ℕ) (th : Thread) : State :=
  { s with threads := update s.threads t th }

def setPim (s : State) (q : ℕ) (p : Pim Position Partition) : State :=
  { s with pims := update s.pims q p }

def setMemory (s : State) (q : ℕ) (m : Partition) : State :=
  s.setPim q { s.pims q with memory := m }

def slot (s : State) (q t : ℕ) : RequestSlot := (s.pims q).memory.requestSlots t

end State

def threadStep (c : Config) (t : ℕ) (s : State) : Option State :=
  let th := s.threads t
  let q := th.currPart
  let m := (s.pims q).memory
  match th.position with
  | .readPart =>
      some (s.setThread t { th with
        currPart := s.part th.role
        position := match th.role with
          | .enq => .writeParameter
          | .deq => .writeInfo })
  | .writeParameter =>
      some ((s.setMemory q (m.setParameter t th.parameter)).setThread t
        { th with position := .writeInfo })
  | .writeInfo =>
      some ((s.setMemory q (m.setInfoBits t (setRequest th.infoBits))).setThread t
        { th with infoBits := setRequest th.infoBits, position := .readInfo })
  | .readInfo =>
      let infobits := (s.slot q t).infoBits
      some (s.setThread t { th with
        infoBits := infobits
        position := if checkValidRequest infobits * checkValidPim infobits ≠ 0 then .checkPart
          else .recheckPart })
  | .checkPart =>
      some (s.setThread t { th with
        position := if q = s.part th.role then .readInfo else .recheckPart })
  | .recheckPart =>
      if q ≠ s.part th.role then some (s.setThread t { th with position := .lastRead })
      else some (s.setThread t (afterWaiting c t th))
  | .lastRead =>
      some (s.setThread t (afterWaiting c t { th with infoBits := (s.slot q t).infoBits }))
  | .readParameter =>
      some (s.setThread t (complete c t { th with parameter := (s.slot q t).parameter }))
  | .clearSlot =>
      some ((s.setMemory q (m.setInfoBits t (clearRequest th.infoBits))).setThread t
        (afterRequest c t { th with infoBits := clearRequest th.infoBits }))
  | .changePart =>
      some ({ s with part := update s.part th.role (nextPartition c q) }.setThread t
        { th with position := .activateRead })
  | .activateRead =>
      some (s.setThread t { th with position := .activateWrite (s.part th.role) })
  | .activateWrite q' =>
      some ((s.setMemory q' { (s.pims q').memory with operation := th.role.op }).setThread t
        { th with position := .startRead })
  | .startRead => some (s.setThread t { th with position := .checkSleep (s.part th.role) })
  | .checkSleep q' =>
      if (s.pims q').status = .sleep then
        some (s.setThread t { th with position := .giveCommand q' })
      else
        some s
  | .giveCommand q' =>
      some ((s.setPim q' { s.pims q' with command := .runKernel }).setThread t
        { th with position := .wakeUp q' })
  | .wakeUp q' =>
      some ((s.setPim q' (s.pims q').interrupt).setThread t { th with position := .checkDone })
  | .checkDone =>
      if (s.pims q).status = .done then some (s.setThread t { th with position := .giveNop })
      else some s
  | .giveNop =>
      some ((s.setPim q { s.pims q with command := .nop }).setThread t (nextOperation c t th))
  | .finished => none

def served (p : Pim Position Partition) : List Service :=
  match p.position with
  | .running (.serve .enq i) => [⟨.enq, i, (p.memory.requestSlots i).parameter⟩]
  | .running (.serve .deq i) => [⟨.deq, i, p.memory.currSegment p.memory.headIndex⟩]
  | _ => []

def pimStep (c : Config) (q : ℕ) (s : State) : Option State :=
  ((s.pims q).step c.debugResident (executeKernel c)).map
    (fun p => { s.setPim q p with log := s.log ++ served (s.pims q) })

def step (c : Config) (s : State) : Party → Option State
  | .thread t => if t < c.numHostThreads then threadStep c t s else none
  | .pim q => if q < c.numPartitions then pimStep c q s else none

/-! ### What the queue promises -/

def moved (log : List Service) (r : Role) : List ℕ :=
  (log.filter (fun x => x.role = r)).map Service.value

def movedFor (log : List Service) (r : Role) (t : ℕ) : List ℕ :=
  (log.filter (fun x => x.role = r ∧ x.thread = t)).map Service.value

/-- The arguments of the operations that a thread has counted as completed. -/
def Thread.counted (th : Thread) (r : Role) : List ℕ :=
  (th.operations.filter (fun x => x.1 = r)).map Prod.snd

def Partition.content (m : Partition) : List ℕ :=
  (List.range' m.headIndex (m.tailIndex - m.headIndex)).map m.currSegment

/-- The partitions from `d` to `e`. -/
def partitionsFrom (c : Config) (d e : ℕ) : List ℕ :=
  (List.range ((e + c.numPartitions - d) % c.numPartitions + 1)).map
    (fun j => (d + j) % c.numPartitions)

/-- The elements stored from `deq_part` to `enq_part`. -/
def contents (c : Config) (s : State) : List ℕ :=
  (partitionsFrom c (s.part .deq) (s.part .enq)).flatMap (fun q => (s.pims q).memory.content)

/-- The queue is first-in first-out: the elements enqueued, after the initial ones, are
those dequeued followed by those stored. And every operation that a thread has counted is
one service of its request, with at most one service not yet counted. -/
structure Fifo (c : Config) (initial : List ℕ) (s : State) : Prop where
  stored : initial ++ moved s.log .enq = moved s.log .deq ++ contents c s
  counted : ∀ t < c.numHostThreads, ∀ r,
    (s.threads t).counted r <+: movedFor s.log r t ∧
      (movedFor s.log r t).length ≤ ((s.threads t).counted r).length + 1

def Thread.Busy (th : Thread) : Prop := th.position ≠ .readPart ∧ th.position ≠ .finished

instance (th : Thread) : Decidable th.Busy := inferInstanceAs (Decidable (_ ∧ _))

def Engaged (s : State) (t q : ℕ) : Prop := (s.threads t).currPart = q ∧ (s.threads t).Busy

instance (s : State) (t q : ℕ) : Decidable (Engaged s t q) := inferInstanceAs (Decidable (_ ∧ _))

/-- `enq_part` and `deq_part` stay apart. -/
def PartsApart (c : Config) (s : State) : Party → Prop
  | .thread t => (s.threads t).position = .changePart →
      nextPartition c (s.threads t).currPart ≠ s.part (s.threads t).role.other
  | .pim _ => True

/-- No dequeue is issued while the queue is empty. -/
def DequeueReady (c : Config) (s : State) : Party → Prop
  | .thread t => (s.threads t).position = .writeInfo → (s.threads t).role = .deq →
      contents c s ≠ []
  | .pim _ => True

/-- `enq_part` and `deq_part` only move to a partition that no thread is still engaged in. -/
def Undisturbed (c : Config) (s : State) : Party → Prop
  | .thread t => (s.threads t).position = .changePart → ∀ u < c.numHostThreads,
      ¬ Engaged s u (nextPartition c (s.threads t).currPart)
  | .pim _ => True

instance (c : Config) (s : State) : (p : Party) → Decidable (PartsApart c s p)
  | .thread _ => inferInstanceAs (Decidable (_ → _))
  | .pim _ => inferInstanceAs (Decidable True)

instance (c : Config) (s : State) : (p : Party) → Decidable (DequeueReady c s p)
  | .thread _ => inferInstanceAs (Decidable (_ → _ → _))
  | .pim _ => inferInstanceAs (Decidable True)

instance (c : Config) (s : State) : (p : Party) → Decidable (Undisturbed c s p)
  | .thread _ => inferInstanceAs (Decidable (_ → ∀ u < _, _))
  | .pim _ => inferInstanceAs (Decidable True)

end SmcSim.PimQueue
