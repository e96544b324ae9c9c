import SmcSim.TlbLayouts

/-!
# The DMA engine of the PIM

`ethz_DMA` of `ethz_dma.cc` in timing mode: requests are cut into transfers at the ends of
the TLB's slices by the three states of `nextState`, a transfer is sent as packets of at
most a cache line, and the responses, which come in any order, are charged to the request
whose physical ranges they fall into. The virtual addresses and the vector registers are
natural numbers, and an assertion that fails or a panic is `none`.

The fields `id`, `vaddr` and `vreg` of a request, `owner` of a packet, and `transfers`,
`finished`, `accepted` and `inProgress` of the engine record what has happened; the engine
does not read them.
-/

namespace SmcSim.Dma
open SliceTable TranslationRules Tlb

/-! ### Requests -/

inductive Phase where
  | idle
  | tlbRefill
  | transfer
  deriving DecidableEq, Repr

/-- `DMARequest`. The ranges are the pairs of `mem_pstart` and `mem_pend`. -/
structure Request where
  id : ℕ
  vaddr : ℕ
  vreg : ℕ
  vregPtr : ℕ
  memVstart : ℕ
  memVend : ℕ
  dmaResource : BitVec 8
  isRead : Bool
  memRanges : List Range
  bytesExpected : ℕ
  bytesCompleted : ℕ
  issued : Bool
  deriving DecidableEq, Repr

def newRequest (id vreg start numBytes : ℕ) (dir : Bool) (res : BitVec 8) : Request where
  id := id
  vaddr := start
  vreg := vreg
  vregPtr := vreg
  memVstart := start
  memVend := start + numBytes - 1
  dmaResource := res
  isRead := dir
  memRanges := []
  bytesExpected := numBytes
  bytesCompleted := 0
  issued := false

def Request.nextSubRequest (r : Request) (vaddr : ℕ) : Option (Bool × Request) :=
  if r.memVstart ≤ vaddr then
    if r.memVend ≤ vaddr then some (false, r)
    else
      let diff := vaddr - r.memVstart
      some (true, { r with memVstart := r.memVstart + diff, vregPtr := r.vregPtr + diff })
  else none

/-! ### Packets -/

/-- The address and size of each chunk that `ChunkGenerator` makes after the first. -/
def alignedChunks (chunkSize : ℕ) : ℕ → ℕ → ℕ → List (ℕ × ℕ)
  | 0, _, _ => []
  | fuel + 1, addr, sizeLeft =>
      if sizeLeft = 0 then []
      else
        let size := min sizeLeft chunkSize
        (addr, size) :: alignedChunks chunkSize fuel (addr + size) (sizeLeft - size)

/-- `ChunkGenerator`: the first chunk ends at a multiple of the chunk size. -/
def chunks (chunkSize addr totalSize : ℕ) : List (ℕ × ℕ) :=
  let leftInChunk :=
    if chunkSize = 0 then totalSize else (addr / chunkSize + 1) * chunkSize - addr
  let size := min totalSize leftInChunk
  if size = 0 then []
  else (addr, size) :: alignedChunks chunkSize totalSize (addr + size) (totalSize - size)

structure DmaReqState where
  totBytes : ℕ
  numBytes : ℕ
  deriving DecidableEq, Repr

/-- A call of `dmaAction`. -/
structure Transfer where
  owner : ℕ
  isRead : Bool
  addr : ℕ
  size : ℕ
  data : ℕ
  deriving DecidableEq, Repr

/-- A packet; `senderState` is the number of its `DmaReqState`. -/
structure Packet where
  addr : ℕ
  size : ℕ
  senderState : ℕ
  owner : ℕ
  deriving DecidableEq, Repr

/-! ### The engine -/

structure Hardware where
  config : Config
  table : ℕ → Slice
  cacheLineSize : ℕ

structure State where
  requests : List Request
  currentIndex : Option ℕ
  currentState : Phase
  nextStateScheduled : Bool
  dmaResources : BitVec 8
  dmaDoneEventFree : ℕ
  /-- The `DmaDoneEvent`s that wait to be processed. -/
  doneScheduled : ℕ
  /-- The packets that have not been answered. -/
  pending : List Packet
  reqStates : List DmaReqState
  dtlb : Tlb.State
  transfers : List Transfer
  finished : List Request
  accepted : ℕ
  inProgress : Option ℕ

def maxOutstandingDma : ℕ := 16

/-- The engine after its constructor, with a TLB in any state. -/
def reset (t : Tlb.State) : State where
  requests := []
  currentIndex := none
  currentState := .idle
  nextStateScheduled := false
  dmaResources := 0
  dmaDoneEventFree := maxOutstandingDma
  doneScheduled := 0
  pending := []
  reqStates := []
  dtlb := t
  transfers := []
  finished := []
  accepted := 0
  inProgress := none

/-- `DmaPort::dmaAction`: the packets are queued in the port. -/
def dmaAction (H : Hardware) (owner : ℕ) (isRead : Bool) (addr size data : ℕ) (s : State) : State :=
  { s with
    transfers := s.transfers ++ [⟨owner, isRead, addr, size, data⟩]
    reqStates := s.reqStates ++ [⟨size, 0⟩]
    pending := s.pending ++ (chunks H.cacheLineSize addr size).map
      (fun x => ⟨x.1, x.2, s.reqStates.length, owner⟩) }

/-- `DMA_STATE_IDLE`: the first request that has not been issued. -/
def selectRequest (s : State) : State :=
  match s.requests.findIdx? (fun r => !r.issued) with
  | some i =>
      { s with
        currentIndex := some i
        currentState := .tlbRefill
        inProgress := s.requests[i]?.map Request.id }
  | none => { s with currentIndex := none }

/-- `DMA_STATE_TLBREFILL` for request `r` at position `i`. -/
def checkTlb (H : Hardware) (now : ℕ) (s : State) (i : ℕ) (r : Request) : Option State :=
  let s : State := { s with requests := s.requests.set i { r with issued := true } }
  if r.memVstart < r.memVend then
    if remapCheck s.dtlb r.memVstart = none then
      (refillTLBFunctional H.config H.table now r.memVstart s.dtlb).map
        (fun t => { s with dtlb := t, currentState := .transfer })
    else some { s with currentState := .transfer }
  else some { s with currentState := .idle, inProgress := none }

/-- `DMA_STATE_TRANSFER` for request `r` at position `i`. -/
def startTransfer (H : Hardware) (s : State) (i : ℕ) (r : Request) : Option State :=
  match remapCheck s.dtlb r.memVstart, sliceVend s.dtlb r.memVstart with
  | some pstart, some stop =>
      let vend := min stop r.memVend
      match remapCheck s.dtlb vend with
      | some pend =>
          if pend = pstart + (vend - r.memVstart) ∧ 0 < s.dmaDoneEventFree then
            let r : Request := { r with memRanges := r.memRanges ++ [⟨pstart, pend⟩] }
            (r.nextSubRequest (vend + 1)).map (fun x =>
              dmaAction H r.id r.isRead pstart (pend - pstart + 1) r.vregPtr
                { s with
                  requests := s.requests.set i x.2
                  dmaDoneEventFree := s.dmaDoneEventFree - 1
                  currentState := if x.1 then .tlbRefill else .idle
                  inProgress := if x.1 then s.inProgress else none })
          else none
      | none => none
  | _, _ => none

/-- The request that `current_index` points at. -/
def currentRequest (s : State) : Option (ℕ × Request) :=
  s.currentIndex.bind (fun i => s.requests[i]?.map (fun r => (i, r)))

def nextState (H : Hardware) (now : ℕ) (s : State) : Option State :=
  if s.requests = [] then
    some { s with
      currentState := .idle, currentIndex := none, nextStateScheduled := false, inProgress := none }
  else
    let s : State := { s with nextStateScheduled := true }
    match s.currentState with
    | .idle => some (selectRequest s)
    | .tlbRefill => (currentRequest s).bind (fun x => checkTlb H now s x.1 x.2)
    | .transfer => (currentRequest s).bind (fun x => startTransfer H s x.1 x.2)

/-- `initiate_read` and `initiate_write`. -/
def initiate (H : Hardware) (dir : Bool) (vreg memVaddr numBytes : ℕ) (res : BitVec 8) (now : ℕ)
    (s : State) : Option State :=
  if res ≠ 0 ∧ s.dmaResources &&& res = 0 then
    let s' := { s with
      dmaResources := s.dmaResources ||| res
      requests := newRequest s.accepted vreg memVaddr numBytes dir res :: s.requests
      accepted := s.accepted + 1 }
    if s.nextStateScheduled then some s' else nextState H now { s' with nextStateScheduled := true }
  else none

/-- The positions of the requests that a response matches, once for each matching range. -/
def matching (addr : ℕ) (requests : List Request) : List ℕ :=
  requests.zipIdx.flatMap (fun x =>
    (x.1.memRanges.filter (fun g => g.Contains addr)).map (fun _ => x.2))

def handlePacket (p : Packet) (s : State) : Option State :=
  match matching p.addr s.requests with
  | [i] =>
      s.requests[i]?.bind (fun r =>
        let r : Request := { r with bytesCompleted := r.bytesCompleted + p.size }
        if r.bytesCompleted < r.bytesExpected then
          some { s with requests := s.requests.set i r }
        else if r.bytesCompleted = r.bytesExpected ∧ s.dmaResources &&& r.dmaResource ≠ 0 then
          some { s with
            dmaResources := s.dmaResources &&& ~~~r.dmaResource
            requests := s.requests.eraseIdx i
            finished := s.finished ++ [r] }
        else none)
  | _ => none

/-- `DmaPort::handleResp` for packet `j` of those that have not been answered. -/
def handleResp (j : ℕ) (s : State) : Option State :=
  s.pending[j]?.bind (fun p => s.reqStates[p.senderState]?.bind (fun x =>
    let x : DmaReqState := { x with numBytes := x.numBytes + p.size }
    if x.numBytes ≤ x.totBytes then
      handlePacket p { s with
        pending := s.pending.eraseIdx j
        reqStates := s.reqStates.set p.senderState x
        doneScheduled := if x.numBytes = x.totBytes then s.doneScheduled + 1 else s.doneScheduled }
    else none))

inductive Event where
  | initiate (dir : Bool) (vreg memVaddr numBytes : ℕ) (res : BitVec 8) (now : ℕ)
  | tick (now : ℕ)
  | response (j : ℕ)
  | done
  | cpu (now : ℕ) (e : Tlb.Event)
  deriving DecidableEq

def step (H : Hardware) (s : State) : Event → Option State
  | .initiate dir vreg memVaddr numBytes res now =>
      initiate H dir vreg memVaddr numBytes res now s
  | .tick now => if s.nextStateScheduled then nextState H now s else none
  | .response j => handleResp j s
  | .done =>
      if 0 < s.doneScheduled then
        some { s with
          doneScheduled := s.doneScheduled - 1, dmaDoneEventFree := s.dmaDoneEventFree + 1 }
      else none
  | .cpu now e =>
      (Tlb.step H.config H.table s.dtlb (now, e)).map (fun t => { s with dtlb := t })

end SmcSim.Dma
