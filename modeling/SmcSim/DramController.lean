import SmcSim.Interleavings
import Mathlib.Algebra.Order.Group.Nat
import Mathlib.Data.List.Iterate

/-!
# The DRAM controller with the extra row buffer

`addToReadQueue`, `addToWriteQueue` and `processRespondEvent` of `dram_ctrl.cc`. A packet is split
into bursts. A burst of a read is served by the write queue, by the extra row buffer or by the
DRAM; a read that goes to the DRAM fills the buffer, and dummy bursts stand for the rest of
the row. Which burst goes next, and when, is left to the schedule.
-/

namespace SmcSim.Dram

structure Config where
  burstSize : ℕ
  haveExtraRowBuffer : Bool
  extraRowBufferSize : ℕ
  readBufferSize : ℕ
  writeBufferSize : ℕ
  burst_pos : 0 < burstSize
  row_pos : haveExtraRowBuffer = true → 0 < extraRowBufferSize
  burst_dvd_row : haveExtraRowBuffer = true → burstSize ∣ extraRowBufferSize

/-- `owner` is the read that the helper belongs to; the helpers of dummies have none. -/
structure BurstHelper where
  burstCount : ℕ
  burstsServiced : ℕ
  owner : Option ℕ
  deriving DecidableEq, Repr

/-- A burst for the read number `pkt`; `burstHelper` is the position of its helper, and `issued`
the time at which it has left the read queue. -/
structure DramPacket where
  pkt : ℕ
  addr : ℕ
  size : ℕ
  burstHelper : Option ℕ
  isDummy : Bool
  issued : ℕ
  deriving DecidableEq, Repr

structure Read where
  count : ℕ
  inWriteQueue : ℕ
  inExtraBuf : ℕ
  helper : Option ℕ
  deriving DecidableEq, Repr

/-- A call of `accessAndRespond` for a read. -/
structure Response where
  pkt : ℕ
  isDummy : Bool
  deriving DecidableEq, Repr

structure Fill where
  row : ℕ
  issued : ℕ
  deriving DecidableEq, Repr

structure State where
  readQueue : List DramPacket
  respQueue : List DramPacket
  writeQueue : List DramPacket
  helpers : List BurstHelper
  extraRowBufferAddr : ℕ
  extraAddrValid : Bool
  reads : List Read
  responses : List Response
  clock : ℕ
  lastWrite : ℕ → ℕ
  fill : Option Fill

def initial : State := ⟨[], [], [], [], 0, false, [], [], 0, fun _ => 0, none⟩

section Controller

variable (c : Config)

/-! ### Bursts -/

def nextBurst (addr : ℕ) : ℕ := (addr ||| (c.burstSize - 1)) + 1

/-- The size of the burst at `addr` of a packet that ends before `stop`, an unsigned number. -/
def burstBytes (stop addr : ℕ) : ℕ :=
  (min (nextBurst c addr) stop + 0x10000000000000000 - addr) % 0x100000000

def dramPktCount (addr size : ℕ) : ℕ :=
  ((addr &&& (c.burstSize - 1)) + size + c.burstSize - 1) / c.burstSize

def row (addr : ℕ) : ℕ := addr / c.extraRowBufferSize

/-- Rows are compared as 32-bit numbers. -/
def alignedAddr (addr : ℕ) : ℕ := row c addr % 0x100000000

def FoundInWrQ (writeQueue : List DramPacket) (addr size : ℕ) : Prop :=
  ∃ w ∈ writeQueue, w.addr ≤ addr ∧ addr + size ≤ w.addr + w.size

instance (writeQueue : List DramPacket) (addr size : ℕ) :
    Decidable (FoundInWrQ writeQueue addr size) :=
  inferInstanceAs (Decidable (∃ w ∈ writeQueue, _))

def FoundInExtraBuf (s : State) (addr : ℕ) : Prop :=
  c.haveExtraRowBuffer ∧ s.extraAddrValid ∧ alignedAddr c addr = s.extraRowBufferAddr

instance (s : State) (addr : ℕ) : Decidable (FoundInExtraBuf c s addr) :=
  inferInstanceAs (Decidable (_ ∧ _))

def bursts (addr size : ℕ) : List ℕ := List.iterate (nextBurst c) addr (dramPktCount c addr size)

/-- The read burst is served from the write queue. -/
def ServedByWrQ (s : State) (stop addr : ℕ) : Prop :=
  FoundInWrQ s.writeQueue addr (burstBytes c stop addr)

instance (s : State) (stop addr : ℕ) : Decidable (ServedByWrQ c s stop addr) :=
  inferInstanceAs (Decidable (FoundInWrQ _ _ _))

/-- The read burst is served from the extra row buffer. -/
def ServedByExtraBuf (s : State) (stop addr : ℕ) : Prop :=
  ¬ FoundInWrQ s.writeQueue addr (burstBytes c stop addr) ∧ FoundInExtraBuf c s addr

instance (s : State) (stop addr : ℕ) : Decidable (ServedByExtraBuf c s stop addr) :=
  inferInstanceAs (Decidable (_ ∧ _))

/-! ### Reads -/

structure ReadLoop where
  addr : ℕ
  pktsServicedByWrQ : ℕ
  pktsServicedByExtraBuf : ℕ
  burstHelper : Option ℕ
  readQueue : List DramPacket
  helpers : List BurstHelper

def readBurst (s : State) (id stop count : ℕ) (l : ReadLoop) : ReadLoop :=
  let size := burstBytes c stop l.addr
  if FoundInWrQ s.writeQueue l.addr size then
    { l with addr := nextBurst c l.addr, pktsServicedByWrQ := l.pktsServicedByWrQ + 1 }
  else if FoundInExtraBuf c s l.addr then
    { l with addr := nextBurst c l.addr, pktsServicedByExtraBuf := l.pktsServicedByExtraBuf + 1 }
  else if 1 < count ∧ l.burstHelper = none then
    { l with
      addr := nextBurst c l.addr
      burstHelper := some l.helpers.length
      helpers := l.helpers ++ [⟨count, 0, some id⟩]
      readQueue := l.readQueue ++ [⟨id, l.addr, size, some l.helpers.length, false, 0⟩] }
  else
    { l with
      addr := nextBurst c l.addr
      readQueue := l.readQueue ++ [⟨id, l.addr, size, l.burstHelper, false, 0⟩] }

def readLoop (s : State) (id stop count : ℕ) : ℕ → ReadLoop → ReadLoop
  | 0, l => l
  | n + 1, l => readLoop s id stop count n (readBurst c s id stop count l)

def dummies (id addr : ℕ) (helper : Option ℕ) : List DramPacket :=
  let extraBufferAddr := row c addr * c.extraRowBufferSize
  ((List.range (c.extraRowBufferSize / c.burstSize)).filter
    (fun cnt => cnt ≠ (addr - extraBufferAddr) / c.burstSize)).map
      (fun cnt => ⟨id, extraBufferAddr + c.burstSize * cnt, c.burstSize, helper, true, 0⟩)

/-- `rdQLenPdf` has `readBufferSize` entries, and an index behind them fails an assertion. -/
def pushDummies : List DramPacket → State → Option State
  | [], s => some s
  | p :: ps, s =>
      if s.readQueue.length + s.respQueue.length < c.readBufferSize then
        pushDummies ps { s with readQueue := s.readQueue ++ [p] }
      else none

def addDummiesToReadQueue (id addr : ℕ) (s : State) : Option State :=
  let count := c.extraRowBufferSize / c.burstSize - 1
  if 0 < count then
    if 1 < count then
      pushDummies c (dummies c id addr (some s.helpers.length))
        { s with helpers := s.helpers ++ [⟨count, 0, none⟩] }
    else pushDummies c (dummies c id addr none) s
  else some s

def accessAndRespond (id : ℕ) (isDummy : Bool) (s : State) : State :=
  { s with responses := s.responses ++ [⟨id, isDummy⟩] }

/-- `burst_helper->burstsServiced = pktsServicedByWrQ;` -/
def setServiced (helper : Option ℕ) (serviced : ℕ) (helpers : List BurstHelper) :
    List BurstHelper :=
  match helper with
  | some h => helpers.modify h (fun x => { x with burstsServiced := serviced })
  | none => helpers

def afterLoop (count : ℕ) (l : ReadLoop) (s : State) : State :=
  { s with
    readQueue := l.readQueue
    helpers := l.helpers
    reads := s.reads ++
      [⟨count, l.pktsServicedByWrQ, l.pktsServicedByExtraBuf, l.burstHelper⟩] }

/-- What `addToReadQueue` does after the loop. -/
def finishRead (id addr count : ℕ) (l : ReadLoop) (s : State) : Option State :=
  if l.pktsServicedByWrQ = count then some (accessAndRespond id false (afterLoop count l s))
  else if l.pktsServicedByExtraBuf = count then
    some (accessAndRespond id false (afterLoop count l s))
  else
    (if c.haveExtraRowBuffer then addDummiesToReadQueue c id addr (afterLoop count l s)
      else some (afterLoop count l s)).map
        (fun s => { s with helpers := setServiced l.burstHelper l.pktsServicedByWrQ s.helpers })

def addToReadQueue (addr size : ℕ) (s : State) : Option State :=
  let id := s.reads.length
  let count := dramPktCount c addr size
  finishRead c id addr count
    (readLoop c s id (addr + size) count count ⟨addr, 0, 0, none, s.readQueue, s.helpers⟩) s

/-! ### Writes -/

/-- The entry of the write queue with the new burst merged into it, if that is possible. -/
def mergeInto (addr size : ℕ) (w : DramPacket) : Option DramPacket :=
  if addr ≤ w.addr then
    if w.addr + w.size ≤ addr + size then some { w with addr := addr, size := size }
    else if w.addr ≤ addr + size ∧ w.addr + w.size - addr ≤ c.burstSize then
      some { w with addr := addr, size := w.addr + w.size - addr }
    else none
  else if addr + size ≤ w.addr + w.size then some w
  else if addr ≤ w.addr + w.size ∧ addr + size - w.addr ≤ c.burstSize then
    some { w with size := addr + size - w.addr }
  else none

def writeBurst (addr size : ℕ) : List DramPacket → List DramPacket
  | [] => [⟨0, addr, size, none, false, 0⟩]
  | w :: ws =>
      match mergeInto c addr size w with
      | some w' => w' :: ws
      | none => w :: writeBurst addr size ws

def writeLoop (stop : ℕ) : ℕ → ℕ → List DramPacket → List DramPacket
  | 0, _, queue => queue
  | n + 1, addr, queue =>
      writeLoop stop n (nextBurst c addr) (writeBurst c addr (burstBytes c stop addr) queue)

def Touches (addr size r : ℕ) : Prop := row c addr ≤ r ∧ r ≤ row c (addr + size - 1)

instance (addr size r : ℕ) : Decidable (Touches c addr size r) :=
  inferInstanceAs (Decidable (_ ∧ _))

def addToWriteQueue (addr size : ℕ) (s : State) : State :=
  { s with
    extraAddrValid :=
      if c.haveExtraRowBuffer ∧ s.extraRowBufferAddr = alignedAddr c addr then false
      else s.extraAddrValid
    writeQueue := writeLoop c (addr + size) (dramPktCount c addr size) addr s.writeQueue
    clock := s.clock + 1
    lastWrite := fun r => if Touches c addr size r then s.clock + 1 else s.lastWrite r }

/-! ### Responses -/

def fillBuffer (p : DramPacket) (s : State) : State :=
  if c.haveExtraRowBuffer ∧ p.isDummy = false then
    { s with
      extraRowBufferAddr := alignedAddr c p.addr
      extraAddrValid := true
      fill := some ⟨row c p.addr, p.issued⟩ }
  else s

def processRespondEvent (s : State) : Option State :=
  match s.respQueue with
  | [] => none
  | p :: respQueue =>
      let s : State := { s with respQueue := respQueue }
      match p.burstHelper with
      | some h =>
          s.helpers[h]?.map (fun x =>
            let s : State := { s with
              helpers := s.helpers.set h { x with burstsServiced := x.burstsServiced + 1 } }
            if x.burstsServiced + 1 = x.burstCount then
              if p.isDummy then s else accessAndRespond p.pkt p.isDummy s
            else s)
      | none =>
          let s := fillBuffer c p s
          some (if p.isDummy then s else accessAndRespond p.pkt p.isDummy s)

/-! ### Runs -/

/-- Packets arrive, bursts leave their queues, and the first burst of the response queue is
done. -/
inductive Event where
  | read (addr size : ℕ)
  | write (addr size : ℕ)
  | nextRead (i : ℕ)
  | nextWrite (i : ℕ)
  | respond
  deriving DecidableEq, Repr

/-- `recvTimingReq` accepts the read. -/
def Accepted (s : State) (addr size : ℕ) : Prop :=
  0 < size ∧ s.readQueue.length + s.respQueue.length + dramPktCount c addr size ≤ c.readBufferSize

instance (s : State) (addr size : ℕ) : Decidable (Accepted c s addr size) :=
  inferInstanceAs (Decidable (_ ∧ _))

def step (s : State) : Event → Option State
  | .read addr size => if Accepted c s addr size then addToReadQueue c addr size s else none
  | .write addr size =>
      if 0 < size ∧ s.writeQueue.length + dramPktCount c addr size ≤ c.writeBufferSize then
        some (addToWriteQueue c addr size s)
      else none
  | .nextRead i =>
      s.readQueue[i]?.map (fun p => { s with
        readQueue := s.readQueue.eraseIdx i
        respQueue := s.respQueue ++ [{ p with issued := s.clock + 1 }]
        clock := s.clock + 1 })
  | .nextWrite i =>
      if i < s.writeQueue.length then some { s with writeQueue := s.writeQueue.eraseIdx i }
      else none
  | .respond => processRespondEvent c s

end Controller

end SmcSim.Dram
