import SmcSim.CommandHandshake

/-!
# The kernel of one partition of the queue

`clean_queue.c` with the request slots of `multithread_pim_queue/defs.hh`. A queue is
spread over several partitions; each stores one segment and runs this kernel. A step
makes one access to what the host reads or writes, the slots and the operation register;
the segment and its two indices are the kernel's own.
-/

namespace SmcSim.PimQueue
open CommandHandshake Function

/-! ### Request slots -/

structure RequestSlot where
  infoBits : BitVec 16
  parameter : ℕ
  deriving DecidableEq, Repr

def setRequest (infobits : BitVec 16) : BitVec 16 := infobits ||| 0x0003
def checkValidRequest (infobits : BitVec 16) : BitVec 16 := infobits &&& 0x0001
def checkValidPim (infobits : BitVec 16) : BitVec 16 := infobits &&& 0x0002
def clearRequest (infobits : BitVec 16) : BitVec 16 := infobits &&& 0xfffe
def clearRequestPimValid (infobits : BitVec 16) : BitVec 16 := infobits &&& 0xfffc

/-! ### Parameters -/

inductive Role where
  | enq
  | deq
  deriving DecidableEq, Repr

/-- The value of `PIM_SREG[0]` for the role. -/
def Role.op : Role → ℕ
  | .enq => 1
  | .deq => 2

def Role.other : Role → Role
  | .enq => .deq
  | .deq => .enq

/-- The constants of the build and what `main` hands to each thread. -/
structure Config where
  debugResident : Bool
  numPartitions : ℕ
  numHostThreads : ℕ
  maxSegmentItems : ℕ
  randKeys : ℕ → ℕ → ℕ
  numOps : ℕ → ℕ

/-! ### The kernel -/

/-- `PIM_SREG[0]`, the indices, the segment and the request slots. -/
structure Partition where
  operation : ℕ
  headIndex : ℕ
  tailIndex : ℕ
  currSegment : ℕ → ℕ
  requestSlots : ℕ → RequestSlot

/-- The next access of `execute_kernel`. -/
inductive Position where
  | checkInit
  | checkEnq
  | checkDeq
  | checkPrint
  | checkOff
  | init
  | initOff
  | check (r : Role) (i : ℕ)
  | serve (r : Role) (i : ℕ)
  | readBits (r : Role) (i : ℕ) (last : Bool)
  | writeBits (r : Role) (i : ℕ) (last : Bool) (infobits : BitVec 16)
  | off (r : Role)
  | reset
  | print (i : ℕ)
  | printOff
  deriving DecidableEq, Repr

namespace Partition

def setInfoBits (m : Partition) (i : ℕ) (infobits : BitVec 16) : Partition :=
  { m with requestSlots :=
      update m.requestSlots i { m.requestSlots i with infoBits := infobits } }

def setParameter (m : Partition) (i parameter : ℕ) : Partition :=
  { m with requestSlots :=
      update m.requestSlots i { m.requestSlots i with parameter := parameter } }

/-- Move the parameter of slot `i` to the tail of the segment, or the head of the segment
to the slot. -/
def serve (m : Partition) (i : ℕ) : Role → Partition
  | .enq =>
      { m with
        currSegment := update m.currSegment m.tailIndex (m.requestSlots i).parameter
        tailIndex := m.tailIndex + 1 }
  | .deq => { m.setParameter i (m.currSegment m.headIndex) with headIndex := m.headIndex + 1 }

/-- The segment is full, or emptied. -/
def exhausted (c : Config) (m : Partition) : Role → Bool
  | .enq => m.tailIndex ≥ c.maxSegmentItems
  | .deq => m.headIndex ≥ m.tailIndex ∨ m.headIndex ≥ c.maxSegmentItems

end Partition

def kernelStep (c : Config) : Position → Partition → Option Position × Partition
  | .checkInit, m => (if m.operation = 3 then some .init else some .checkEnq, m)
  | .checkEnq, m => (if m.operation = 1 then some (.check .enq 0) else some .checkDeq, m)
  | .checkDeq, m => (if m.operation = 2 then some (.check .deq 0) else some .checkPrint, m)
  | .checkPrint, m => (if m.operation = 4 then some (.print m.headIndex) else some .checkOff, m)
  | .checkOff, m => (if m.operation = 0 then none else some .checkInit, m)
  | .init, m => (some .initOff, { m with headIndex := 0, tailIndex := 0 })
  | .initOff, m => (some .checkInit, { m with operation := 0 })
  | .check r i, m =>
      if i < c.numHostThreads then
        if checkValidRequest (m.requestSlots i).infoBits = 0 then (some (.check r (i + 1)), m)
        else (some (.serve r i), m)
      else
        (some .checkInit, m)
  | .serve r i, m => (some (.readBits r i ((m.serve i r).exhausted c r)), m.serve i r)
  | .readBits r i last, m => (some (.writeBits r i last (m.requestSlots i).infoBits), m)
  | .writeBits r i last infobits, m =>
      if last then (some (.off r), m.setInfoBits i (clearRequestPimValid infobits))
      else (some (.check r (i + 1)), m.setInfoBits i (clearRequest infobits))
  | .off .enq, m => (some .checkInit, { m with operation := 0 })
  | .off .deq, m => (some .reset, { m with operation := 0 })
  | .reset, m => (some .checkInit, { m with headIndex := 0, tailIndex := 0 })
  | .print i, m => (if i < m.tailIndex then some (.print (i + 1)) else some .printOff, m)
  | .printOff, m => (some .checkInit, { m with operation := 0 })

/-- The only command that the host of the queue gives. -/
def executeKernel (c : Config) : Offload Position Partition where
  enter command m := if command = .runKernel then some (.checkInit, m) else none
  step := kernelStep c

end SmcSim.PimQueue
