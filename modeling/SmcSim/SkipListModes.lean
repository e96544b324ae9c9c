import SmcSim.RegisterHandover
import SmcSim.CommandHandshake
import SmcSim.SkipListKernel

/-!
# The mode register of the skip list

`main` of `multithread_nonstop_pim_skiplist` starts the partitions one after another: it waits for
`PIM_SREG[1]`, adds the initial keys through slot 0, and closes the partition with a mode of its
own, while the kernel of `clean_skiplist.c` sets `PIM_SREG[0]` once its list is initialised. Then
the partitions are started again. What the kernel does with the list is left open.
-/

namespace SmcSim.SkipListModes
open CommandHandshake Interleavings RegisterHandover SkipListKernel Function

/-- The constants of the build, the keys and heights that `main` draws, and what the kernel does
with its list: `list_init`, and the execution of a request. -/
structure Config (μ : Type) where
  debugResident : Bool
  numPartitions : ℕ
  numHostThreads : ℕ
  numHostThreads_pos : 0 < numHostThreads
  initialListSize : ℕ
  parameter : ℕ → ℕ → ℕ
  randomLevel : ℕ → ℕ → ℕ
  listInit : μ → μ
  execute : RequestSlot → μ → BitVec 8 × μ

/-! ### The kernel -/

/-- `PIM_SREG[0]`, `PIM_SREG[1]`, `PIM_SREG[2]`, the request slots and the list. -/
structure Device (μ : Type) where
  operation : ℕ
  maxNodes : ℕ
  timestamp : ℕ
  requestSlots : ℕ → RequestSlot
  list : μ

namespace Device

variable {μ : Type} (d : Device μ)

def setInfoBits (i : ℕ) (infobits : BitVec 8) : Device μ :=
  { d with requestSlots :=
      update d.requestSlots i { d.requestSlots i with infoBits := infobits } }

def setParameter (i parameter : ℕ) : Device μ :=
  { d with requestSlots :=
      update d.requestSlots i { d.requestSlots i with parameter := parameter } }

def setRandomLevel (i randomLevel : ℕ) : Device μ :=
  { d with requestSlots :=
      update d.requestSlots i { d.requestSlots i with randomLevel := randomLevel } }

end Device

/-- The next access of `execute_kernel`. -/
inductive Position where
  | checkInit
  | listInit
  | writeMaxNodes
  | writeTimestamp
  | writeOps
  | checkClose
  | check (i : ℕ)
  | execute (i : ℕ)
  | readRetval (i : ℕ) (retval : BitVec 8)
  | writeRetval (i : ℕ) (infobits : BitVec 8)
  | readClear (i : ℕ)
  | writeClear (i : ℕ) (infobits : BitVec 8)
  deriving DecidableEq, Repr

section System

variable {μ : Type} (c : Config μ)

def kernelStep : Position → Device μ → Option Position × Device μ
  | .checkInit, d => (if d.operation = 0 then some .listInit else some .checkClose, d)
  | .listInit, d => (some .writeMaxNodes, { d with list := c.listInit d.list })
  | .writeMaxNodes, d => (some .writeTimestamp, { d with maxNodes := node.numMemBlocks })
  | .writeTimestamp, d => (some .writeOps, { d with timestamp := 0 })
  | .writeOps, d => (some .checkInit, { d with operation := 1 })
  | .checkClose, d => (if d.operation ≥ 3 then none else some (.check 0), d)
  | .check i, d =>
      if i < c.numHostThreads then
        if checkValidRequest (d.requestSlots i).infoBits = 0 then (some (.check (i + 1)), d)
        else (some (.execute i), d)
      else
        (some .checkInit, d)
  | .execute i, d =>
      (some (.readRetval i (c.execute (d.requestSlots i) d.list).1),
        { d with list := (c.execute (d.requestSlots i) d.list).2 })
  | .readRetval i retval, d =>
      (some (.writeRetval i (setRetval (d.requestSlots i).infoBits retval)), d)
  | .writeRetval i infobits, d => (some (.readClear i), d.setInfoBits i infobits)
  | .readClear i, d => (some (.writeClear i (clearRequest (d.requestSlots i).infoBits)), d)
  | .writeClear i infobits, d => (some (.check (i + 1)), d.setInfoBits i infobits)

def executeKernel : Offload Position (Device μ) where
  enter command d := if command = .runKernel then some (.checkInit, d) else none
  step := kernelStep c

abbrev Partition (μ : Type) := Pim Position (Device μ)

def pimStep (p : Partition μ) : Option (Partition μ) := p.step c.debugResident (executeKernel c)

/-! ### The host -/

/-- The next access of `main`; `again` tells the second start of a partition from the first. -/
inductive HostPosition where
  | writeMaxNodes
  | writeInit
  | checkSleep (again : Bool)
  | giveCommand (again : Bool)
  | wakeUp (again : Bool)
  | pollMaxNodes
  | writeParameter
  | writeRandomLevel
  | writeInfo
  | readInfo
  | close
  | checkDone
  | giveNop
  | writeOps
  | ready
  deriving DecidableEq, Repr

/-- The loop variables of `main`, the number of requests made to the partition, and the info bits
at hand. -/
structure Host where
  position : HostPosition
  i : ℕ
  size : ℕ
  tries : ℕ
  infoBits : BitVec 8
  deriving DecidableEq, Repr

structure State (μ : Type) where
  host : Host
  pims : ℕ → Partition μ

def State.setPim (s : State μ) (h : Host) (p : Partition μ) : State μ :=
  ⟨h, update s.pims s.host.i p⟩

/-- The head of `while (size < (INITIAL_LIST_SIZE / NUM_PARTITIONS))` -/
def nextAdd (h : Host) : Host :=
  if h.size < c.initialListSize / c.numPartitions then { h with position := .writeParameter }
  else { h with position := .close }

/-- The next partition to initialise, or the first one to start again. -/
def nextInit (h : Host) : Host :=
  if h.i + 1 < c.numPartitions then ⟨.writeMaxNodes, h.i + 1, 0, 0, h.infoBits⟩
  else ⟨.writeOps, 0, h.size, h.tries, h.infoBits⟩

def nextOps (h : Host) : Host :=
  if h.i + 1 < c.numPartitions then { h with position := .writeOps, i := h.i + 1 }
  else { h with position := .ready, i := h.i + 1 }

def hostStep (s : State μ) : Option (State μ) :=
  let h := s.host
  let p := s.pims h.i
  let d := p.memory
  match h.position with
  | .writeMaxNodes =>
      some (s.setPim { h with position := .writeInit }
        { p with memory := { d with maxNodes := 0 } })
  | .writeInit =>
      some (s.setPim { h with position := .checkSleep false }
        { p with memory := { d with operation := 0 } })
  | .checkSleep again =>
      if p.status = .sleep then some { s with host := { h with position := .giveCommand again } }
      else some s
  | .giveCommand again =>
      some (s.setPim { h with position := .wakeUp again } { p with command := .runKernel })
  | .wakeUp again =>
      some (s.setPim (if again then nextOps c h else { h with position := .pollMaxNodes })
        p.interrupt)
  | .pollMaxNodes =>
      if d.maxNodes = 0 then some s
      else some { s with host := nextAdd c { h with infoBits := setOperation h.infoBits addOp } }
  | .writeParameter =>
      some (s.setPim { h with position := .writeRandomLevel }
        { p with memory := d.setParameter 0 (c.parameter h.i h.tries) })
  | .writeRandomLevel =>
      some (s.setPim { h with position := .writeInfo }
        { p with memory := d.setRandomLevel 0 (c.randomLevel h.i h.tries) })
  | .writeInfo =>
      some (s.setPim { h with position := .readInfo, infoBits := setRequest h.infoBits }
        { p with memory := d.setInfoBits 0 (setRequest h.infoBits) })
  | .readInfo =>
      let infobits := (d.requestSlots 0).infoBits
      if checkValidRequest infobits ≠ 0 then some { s with host := { h with infoBits := infobits } }
      else
        some { s with host := nextAdd c { h with
          infoBits := infobits
          tries := h.tries + 1
          size := if getRetval infobits = 1 then h.size + 1 else h.size } }
  | .close =>
      some (s.setPim { h with position := .checkDone }
        { p with memory := { d with operation := 3 } })
  | .checkDone =>
      if p.status = .done then some { s with host := { h with position := .giveNop } } else some s
  | .giveNop => some (s.setPim (nextInit c h) { p with command := .nop })
  | .writeOps =>
      some (s.setPim { h with position := .checkSleep true }
        { p with memory := { d with operation := 1 } })
  | .ready => none

inductive Party where
  | host
  | pim (j : ℕ)
  deriving DecidableEq, Repr

def step (s : State μ) : Party → Option (State μ)
  | .host => hostStep c s
  | .pim j =>
      if j < c.numPartitions then
        (pimStep c (s.pims j)).map (fun p => { s with pims := update s.pims j p })
      else none

/-! ### Requests of a mode -/

def kernelAccess (p : Partition μ) : Option (Access ℕ) :=
  match p.position with
  | .running .writeOps => some .overwrite
  | .running .checkInit => if p.memory.operation = 0 then some .act else none
  | .running .checkClose => some .act
  | _ => none

def modeAccess (s : State μ) : Party → Option (ℕ × Access ℕ)
  | .host =>
      match s.host.position with
      | .writeInit => some (s.host.i, .request 0)
      | .close => some (s.host.i, .request 3)
      | .writeOps => some (s.host.i, .request 1)
      | _ => none
  | .pim j => (kernelAccess (s.pims j)).map (fun a => (j, a))

def Waits (p : Partition μ) : Prop :=
  p.command = .nop ∧ p.status = .sleep ∧ p.position = .waiting

/-- `main` comes to the first partition, with any info bits. -/
structure SetUp (s : State μ) : Prop where
  position : s.host.position = .writeMaxNodes
  first : s.host.i = 0
  size : s.host.size = 0
  waits : ∀ j, Waits (s.pims j)

def untracked (s : State μ) : Tracked (State μ) ℕ ℕ := ⟨s, fun _ => none⟩

def Alone : Partition μ → Partition μ → Prop :=
  Reached (fun p (_ : Unit) => pimStep c p) (fun _ _ => True)

/-- No mode that is requested is lost, and the register holds it until the kernel acts on it. A
partition that `main` waits for becomes done, and a request that `main` waits for is answered. -/
structure ModesKept (x : Tracked (State μ) ℕ ℕ) : Prop where
  kept : ∀ a, ¬ Loses (step c) modeAccess x a
  held : ∀ j v, x.requested j = some v → (x.state.pims j).memory.operation = v
  closes : x.state.host.position = .checkDone →
    ∃ p, Alone c (x.state.pims x.state.host.i) p ∧ p.status = .done
  serves : x.state.host.position = .readInfo → ∃ p, Alone c (x.state.pims x.state.host.i) p ∧
    checkValidRequest (p.memory.requestSlots 0).infoBits = 0

end System

end SmcSim.SkipListModes
