import SmcSim.Linearizability
import SmcSim.ListSegments
import SmcSim.Interleavings
import Mathlib.Data.Int.Notation

/-!
# The flat-combining queue

`fc_operation`, `enq_slot` and `flat_combine` of `FCQueue.hh`. Every thread has a slot, in which it
publishes its request. The slots that are in use are linked from `tail_slot`; the thread that
holds the lock `combine_cas` walks along them, executes the requests it finds and unlinks
slots that have not been used for long. A step is one load, store or compare-and-swap. The
queue itself is touched by the holder of the lock only, and is the list of its values.
-/

namespace SmcSim.FlatCombining
open Linearizability

def pushOp : ℤ := 2

def unusedSlotThreshold : ℤ := 10

structure SlotInfo (τ : Type) where
  isRequestValid : Bool
  operation : ℤ
  parameter : ℕ
  retVal : ℤ
  opTimestamp : ℤ
  isSlotLinked : Bool
  nextSlot : Option τ

/-- Where a thread stands in `enq_slot`. -/
inductive EnqPc (τ : Type) where
  | setLinked
  | readTimestamp
  | setTimestamp (timestamp : ℤ)
  | readTail
  | setNext (currTailSlot : Option τ)
  | swapTail (currTailSlot : Option τ)

/-- Where a thread stands in `flat_combine`. -/
inductive CombinePc (τ : Type) where
  | readTail
  | readValid (prev curr : τ)
  | readOperation (curr : τ)
  | readParameter (curr : τ) (op : ℤ)
  | clearRetVal (curr : τ) (op : ℤ) (param : ℕ)
  | execute (curr : τ) (op : ℤ) (param : ℕ)
  | setRetVal (curr : τ) (ret : ℤ)
  | clearValid (curr : τ)
  | readTimestamp (curr : τ)
  | setTimestamp (curr : τ) (timestamp : ℤ)
  | readCount (curr : τ)
  | setCount (curr : τ) (timestamp : ℤ)
  | readNow (prev curr : τ)
  | readAge (prev curr : τ) (now : ℤ)
  | readNext (prev curr : τ)
  | unlink (prev curr : τ) (next : Option τ)
  | clearLinked (prev curr : τ)
  | readNextOfPrev (prev : τ)
  | advance (curr : τ)

/-- Where `fc_operation` goes on after `enq_slot`. -/
inductive Caller where
  | tryLock
  | combine
  | spin

/-- Where a thread stands in `fc_operation`. -/
inductive Pc (τ : Type) where
  | idle
  | setOperation (op : ℤ) (param : ℕ)
  | setParameter (op : ℤ) (param : ℕ)
  | setValid (op : ℤ) (param : ℕ)
  | checkLinked
  | checkValid
  | enqSlot (pc : EnqPc τ) (caller : Caller)
  | tryLock
  | lockedLinked
  | lockedValid
  | combine (pc : CombinePc τ)
  | release
  | spinValid
  | spinLock
  | spinLinked
  | recheck
  | readRetVal

/-- The shared variables and the threads, with the slots that are linked and the calls,
executions and returns so far. -/
structure State (τ : Type) where
  slots : τ → SlotInfo τ
  tailSlot : Option τ
  combineCas : Bool
  operationTimestamp : ℤ
  queue : List ℕ
  pcs : τ → Pc τ
  published : List τ
  trace : List (Event τ (ℤ × ℕ) ℤ)

variable {τ : Type}

def SlotInfo.new : SlotInfo τ := ⟨false, 0, 0, 0, 0, false, none⟩

/-- `operation_timestamp` is not initialised by the constructor. -/
def initial (operationTimestamp : ℤ) : State τ :=
  ⟨fun _ => .new, none, false, operationTimestamp, [], fun _ => .idle, [], []⟩

/-! ### Operations on the queue -/

/-- An unsigned number as an `int`. -/
def toInt (x : ℕ) : ℤ := Int.bmod x 0x100000000

def execute (queue : List ℕ) (request : ℤ × ℕ) : ℤ × List ℕ :=
  if request.1 = pushOp then (toInt request.2, queue ++ [request.2])
  else
    match queue with
    | [] => (0, [])
    | value :: rest => (toInt value, rest)

/-! ### Steps -/

section Steps

variable [DecidableEq τ]

@[simps -fullyApplied] def State.goto (s : State τ) (t : τ) (pc : Pc τ) : State τ :=
  { s with pcs := Function.update s.pcs t pc }

@[simps -fullyApplied] def State.setSlot (s : State τ) (t : τ) (slot : SlotInfo τ) : State τ :=
  { s with slots := Function.update s.slots t slot }

def Caller.pc : Caller → Pc τ
  | .tryLock => .tryLock
  | .combine => .combine .readTail
  | .spin => .spinValid

def enqSlot (t : τ) (caller : Caller) (s : State τ) : EnqPc τ → State τ
  | .setLinked =>
      (s.setSlot t { s.slots t with isSlotLinked := true }).goto t (.enqSlot .readTimestamp caller)
  | .readTimestamp => s.goto t (.enqSlot (.setTimestamp s.operationTimestamp) caller)
  | .setTimestamp timestamp =>
      (s.setSlot t { s.slots t with opTimestamp := timestamp }).goto t (.enqSlot .readTail caller)
  | .readTail => s.goto t (.enqSlot (.setNext s.tailSlot) caller)
  | .setNext currTailSlot =>
      (s.setSlot t { s.slots t with nextSlot := currTailSlot }).goto t
        (.enqSlot (.swapTail currTailSlot) caller)
  | .swapTail currTailSlot =>
      if s.tailSlot = currTailSlot then
        { s.goto t caller.pc with tailSlot := some t, published := t :: s.published }
      else s.goto t (.enqSlot .readTail caller)

/-- The loop goes on with the slot `curr`, if there is one. -/
def walkOn (prev : τ) : Option τ → Pc τ
  | some curr => .combine (.readValid prev curr)
  | none => .release

def flatCombine (t : τ) (s : State τ) : CombinePc τ → State τ
  | .readTail =>
      match s.tailSlot with
      | some curr => s.goto t (walkOn curr (some curr))
      | none => s.goto t .release
  | .readValid prev curr =>
      if (s.slots curr).isRequestValid then s.goto t (.combine (.readOperation curr))
      else if curr ≠ prev then s.goto t (.combine (.readNow prev curr))
      else s.goto t (.combine (.advance curr))
  | .readOperation curr => s.goto t (.combine (.readParameter curr (s.slots curr).operation))
  | .readParameter curr op => s.goto t (.combine (.clearRetVal curr op (s.slots curr).parameter))
  | .clearRetVal curr op param =>
      (s.setSlot curr { s.slots curr with retVal := 0 }).goto t (.combine (.execute curr op param))
  | .execute curr op param =>
      let answer := FlatCombining.execute s.queue (op, param)
      { s.goto t (.combine (.setRetVal curr answer.1)) with
        queue := answer.2
        trace := s.trace ++ [.effect curr (op, param) answer.1] }
  | .setRetVal curr ret =>
      (s.setSlot curr { s.slots curr with retVal := ret }).goto t (.combine (.clearValid curr))
  | .clearValid curr =>
      (s.setSlot curr { s.slots curr with isRequestValid := false }).goto t
        (.combine (.readTimestamp curr))
  | .readTimestamp curr => s.goto t (.combine (.setTimestamp curr s.operationTimestamp))
  | .setTimestamp curr timestamp =>
      (s.setSlot curr { s.slots curr with opTimestamp := timestamp }).goto t
        (.combine (.readCount curr))
  | .readCount curr => s.goto t (.combine (.setCount curr s.operationTimestamp))
  | .setCount curr timestamp =>
      { s.goto t (.combine (.advance curr)) with operationTimestamp := timestamp + 1 }
  | .readNow prev curr => s.goto t (.combine (.readAge prev curr s.operationTimestamp))
  | .readAge prev curr now =>
      if now - (s.slots curr).opTimestamp > unusedSlotThreshold then
        s.goto t (.combine (.readNext prev curr))
      else s.goto t (.combine (.advance curr))
  | .readNext prev curr => s.goto t (.combine (.unlink prev curr (s.slots curr).nextSlot))
  | .unlink prev curr next =>
      { (s.setSlot prev { s.slots prev with nextSlot := next }).goto t
          (.combine (.clearLinked prev curr)) with
        published := s.published.erase curr }
  | .clearLinked prev curr =>
      (s.setSlot curr { s.slots curr with isSlotLinked := false }).goto t
        (.combine (.readNextOfPrev prev))
  | .readNextOfPrev prev => s.goto t (walkOn prev (s.slots prev).nextSlot)
  | .advance curr => s.goto t (walkOn curr (s.slots curr).nextSlot)

/-- The next step of a thread that is inside `fc_operation`. -/
def run (t : τ) (s : State τ) : Option (State τ) :=
  match s.pcs t with
  | .idle => none
  | .setOperation op param =>
      some ((s.setSlot t { s.slots t with operation := op }).goto t (.setParameter op param))
  | .setParameter op param =>
      some ((s.setSlot t { s.slots t with parameter := param }).goto t (.setValid op param))
  | .setValid _ _ =>
      some ((s.setSlot t { s.slots t with isRequestValid := true }).goto t .checkLinked)
  | .checkLinked =>
      some (if (s.slots t).isSlotLinked then s.goto t .tryLock else s.goto t .checkValid)
  | .checkValid =>
      some (if (s.slots t).isRequestValid then s.goto t (.enqSlot .setLinked .tryLock)
        else s.goto t .tryLock)
  | .enqSlot pc caller => some (enqSlot t caller s pc)
  | .tryLock =>
      some (if s.combineCas then s.goto t .spinValid
        else { s.goto t .lockedLinked with combineCas := true })
  | .lockedLinked =>
      some (if (s.slots t).isSlotLinked then s.goto t (.combine .readTail)
        else s.goto t .lockedValid)
  | .lockedValid =>
      some (if (s.slots t).isRequestValid then s.goto t (.enqSlot .setLinked .combine)
        else s.goto t (.combine .readTail))
  | .combine pc => some (flatCombine t s pc)
  | .release => some { s.goto t .readRetVal with combineCas := false }
  | .spinValid =>
      some (if (s.slots t).isRequestValid then s.goto t .spinLock else s.goto t .recheck)
  | .spinLock => some (if s.combineCas then s.goto t .spinLinked else s.goto t .recheck)
  | .spinLinked =>
      some (if (s.slots t).isSlotLinked then s.goto t .spinValid
        else s.goto t (.enqSlot .setLinked .spin))
  | .recheck =>
      some (if (s.slots t).isRequestValid then s.goto t .tryLock else s.goto t .readRetVal)
  | .readRetVal =>
      some { s.goto t .idle with trace := s.trace ++ [.respond t (s.slots t).retVal] }

/-- A thread calls `fc_operation`, or makes a step inside it. -/
inductive Label (τ : Type) where
  | call (t : τ) (op : ℤ) (param : ℕ)
  | run (t : τ)

def step (s : State τ) : Label τ → Option (State τ)
  | .call t op param =>
      match s.pcs t with
      | .idle =>
          some { s.goto t (.setOperation op param) with
            trace := s.trace ++ [.invoke t (op, param)] }
      | _ => none
  | .run t => FlatCombining.run t s

end Steps

end SmcSim.FlatCombining
