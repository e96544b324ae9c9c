import SmcSim.SkipListPrograms
import SmcSim.SetSemantics

/-!
# The skip list kernels

The two variants of `clean_skiplist.c`, `kernel_default` and
`kernel_reduce_redundancy`, with the request slots of
`multithread_nonstop_pim_skiplist/defs.hh`. The variants share the loop over the
slots and differ in how they execute a request, so the loop takes that as a
parameter.
-/

namespace SmcSim.SkipListKernel
open EffectPrograms PimMemory SkipListPrograms RequestServers SetSemantics Function

/-! ### Request slots -/

structure RequestSlot where
  infoBits : BitVec 8
  randomLevel : ℕ
  parameter : ℕ
  deriving DecidableEq, Repr

def addOp : BitVec 8 := 0x40
def removeOp : BitVec 8 := 0x20
def containsOp : BitVec 8 := 0x60

def setOperation (infobits op : BitVec 8) : BitVec 8 := infobits &&& 0x1E ||| op
def extractOperation (infobits : BitVec 8) : BitVec 8 := infobits &&& 0x60
def setRetval (infobits retval : BitVec 8) : BitVec 8 := infobits ||| retval
def getRetval (infobits : BitVec 8) : BitVec 8 := infobits &&& 0x01
def setRequest (infobits : BitVec 8) : BitVec 8 := infobits ||| 0x80
def checkValidRequest (infobits : BitVec 8) : BitVec 8 := infobits &&& 0x80
def clearRequest (infobits : BitVec 8) : BitVec 8 := infobits &&& 0x7F

def opCode : Operation → BitVec 8
  | .contains => containsOp
  | .add => addOp
  | .remove => removeOp

/-! ### Node layout and registers -/

/-- `node_t` -/
def node : Layout where
  key := 0
  topLevel := 4
  next l := 8 + 4 * l
  maxLevel := 30
  blockSize := 128
  key_ne_topLevel := by decide
  key_ne_next l _ := by omega
  topLevel_ne_next l _ := by omega
  next_injective l _ l' _ := by omega

theorem node_numMemBlocks : node.numMemBlocks = 1048576 := by
  unfold Layout.numMemBlocks
  rfl

def currMaxLevel : ℕ := 6

/-! ### Commands on the request slots -/

inductive Port where
  | readInfoBits (i : ℕ)
  | writeInfoBits (i : ℕ) (infobits : BitVec 8)
  | readRandomLevel (i : ℕ)
  | readParameter (i : ℕ)

def PortRes : Port → Type
  | .readInfoBits _ => BitVec 8
  | .writeInfoBits _ _ => Unit
  | .readRandomLevel _ => ℕ
  | .readParameter _ => ℕ

abbrev SkipKernel := Kernel Port PortRes

def readInfoBits (i : ℕ) : SkipKernel (BitVec 8) := port (Port.readInfoBits i)
def writeInfoBits (i : ℕ) (infobits : BitVec 8) : SkipKernel Unit :=
  port (Port.writeInfoBits i infobits)
def readRandomLevel (i : ℕ) : SkipKernel ℕ := port (Port.readRandomLevel i)
def readParameter (i : ℕ) : SkipKernel ℕ := port (Port.readParameter i)

/-! ### The default variant -/

/-- Find the node and execute the request of slot `i`: the return value and the arrays. -/
def executeDefault (fuel i : ℕ) (requestedOp : BitVec 8) (locals : Locals) :
    SkipKernel (BitVec 8 × Locals) := do
  let head ← readSreg listHead
  let levels ← readSreg currMaxLevel
  let (foundNode, locals) ←
    findNode node (readParameter i) (requestedOp = removeOp) fuel levels head 0 locals
  if requestedOp = containsOp then
    if foundNode ≠ 0 then pure (1, locals) else pure (0, locals)
  else if requestedOp = addOp then
    if foundNode = 0 then
      addNode node (readParameter i) (readRandomLevel i) fuel locals
      pure (1, locals)
    else
      pure (0, locals)
  else
    if foundNode ≠ 0 then
      unlinkNode node foundNode locals
      pure (1, locals)
    else
      pure (0, locals)

/-! ### The variant that leaves out redundant pointers -/

/-- The descent of `findNode`, which stops at a `NULL` pointer: the node found, the
lowest level with a pointer of its own, and the arrays. -/
def findNodeReduced (parameter : SkipKernel ℕ) (keepGoing : Bool) (fuel : ℕ) :
    ℕ → ℕ → ℕ → Locals → SkipKernel (ℕ × ℕ × Locals)
  | 0, _, foundNode, locals => pure (foundNode, 0, locals)
  | level + 1, prev, foundNode, locals => do
      let curr ← load prev (node.next level)
      if curr = 0 then
        pure (foundNode, level + 1, locals)
      else
        let c ← walkLevel node parameter fuel level prev curr
        if foundNode = 0 then
          let param ← parameter
          let key ← load c.2 node.key
          if param = key then
            if keepGoing then
              findNodeReduced parameter keepGoing fuel level c.1 c.2 (locals.record level c.1 c.2)
            else
              pure (c.2, 0, locals)
          else
            findNodeReduced parameter keepGoing fuel level c.1 0 (locals.record level c.1 c.2)
        else
          findNodeReduced parameter keepGoing fuel level c.1 foundNode
            (locals.record level c.1 c.2)

/-- `for (level = lowest_valid_level-1; level >= 0; level--)`: the entries of the lowest
valid level, copied to the levels below it. -/
def copyDown (lowestValidLevel : ℕ) : ℕ → Locals → Locals
  | 0, locals => locals
  | level + 1, locals => copyDown lowestValidLevel level
      (locals.record level (locals.preds lowestValidLevel) (locals.succs lowestValidLevel))

/-- `for (level = new_node->top_level; level < lowest_valid_level; level++)` -/
def connectHigher (lowestValidLevel newNode : ℕ) (locals : Locals) : SkipKernel Unit := do
  let top ← load newNode node.topLevel
  Prog.forUp (fun level (_ : Unit) =>
    store (locals.preds level) (node.next level) (locals.succs level))
      (lowestValidLevel - top) top ()

def addNodeReduced (i fuel lowestValidLevel : ℕ) (locals : Locals) : SkipKernel Locals := do
  let newNode ← allocMemoryBlock
  let top ← readRandomLevel i
  store newNode node.topLevel top
  let param ← readParameter i
  store newNode node.key param
  if lowestValidLevel = 0 then
    linkNode node fuel newNode locals
    pure locals
  else
    let locals := copyDown lowestValidLevel lowestValidLevel locals
    connectHigher lowestValidLevel newNode locals
    linkNode node fuel newNode locals
    pure locals

/-- The removal of this variant moves the entries of `succs` past the node and writes
none of them to the vault. -/
def removeNodeReduced (foundNode lowestValidLevel : ℕ) (locals : Locals) : SkipKernel Locals := do
  let locals := copyDown lowestValidLevel lowestValidLevel locals
  let top ← load foundNode node.topLevel
  Prog.forDown (fun level (locals : Locals) => do
    let next ← load foundNode (node.next level)
    if next ≠ 0 then
      let next ← load foundNode (node.next level)
      pure ⟨locals.preds, update locals.succs level next⟩
    else
      pure ⟨locals.preds, update locals.succs level 0⟩) top locals

def executeReduced (fuel i : ℕ) (requestedOp : BitVec 8) (locals : Locals) :
    SkipKernel (BitVec 8 × Locals) := do
  let head ← readSreg listHead
  let levels ← readSreg currMaxLevel
  let (foundNode, lowestValidLevel, locals) ←
    findNodeReduced (readParameter i) (requestedOp = removeOp) fuel levels head 0 locals
  if requestedOp = containsOp then
    if foundNode ≠ 0 then pure (1, locals) else pure (0, locals)
  else if requestedOp = addOp then
    if foundNode = 0 then
      let locals ← addNodeReduced i fuel lowestValidLevel locals
      pure (1, locals)
    else
      pure (0, locals)
  else
    if foundNode ≠ 0 then
      let locals ← removeNodeReduced foundNode lowestValidLevel locals
      pure (1, locals)
    else
      pure (0, locals)

/-! ### The loop over the slots -/

abbrev Variant := ℕ → BitVec 8 → Locals → SkipKernel (BitVec 8 × Locals)

section Loop

variable (execute : Variant)

/-- The body of `for (i = 0; i < NUM_HOST_THREADS; i++)` -/
def serveSlot (i : ℕ) (locals : Locals) : SkipKernel Locals := do
  let info ← readInfoBits i
  if checkValidRequest info = 0 then
    pure locals
  else
    let info ← readInfoBits i
    let (retval, locals) ← execute i (extractOperation info) locals
    let info ← readInfoBits i
    writeInfoBits i (setRetval info retval)
    let info ← readInfoBits i
    writeInfoBits i (clearRequest info)
    pure locals

/-- One round of `while (true)`. `none` is the `break` that ends the kernel. -/
def kernelRound (numHostThreads : ℕ) (locals : Locals) : SkipKernel (Option Locals) := do
  let op ← readSreg 0
  if op = 0 then
    listInit node
    writeSreg 0 1
    pure (some locals)
  else
    let op ← readSreg 0
    if op ≥ 3 then
      pure none
    else
      let locals ← Prog.forUp (serveSlot execute) numHostThreads 0 locals
      pure (some locals)

end Loop

/-! ### Runs of the device -/

def portHandler : Handler Port PortRes (ℕ → RequestSlot)
  | .readInfoBits i, slots => some ((slots i).infoBits, slots)
  | .writeInfoBits i v, slots =>
      some ((), update slots i { slots i with infoBits := v })
  | .readRandomLevel i, slots => some ((slots i).randomLevel, slots)
  | .readParameter i, slots => some ((slots i).parameter, slots)

abbrev Device := Machine (ℕ → RequestSlot)

structure Request where
  thread : ℕ
  infoBits : BitVec 8
  op : Operation
  key : ℕ
  level : ℕ

def Request.slot (r : Request) : RequestSlot :=
  ⟨setRequest (setOperation r.infoBits (opCode r.op)), r.level, r.key⟩

def submit (r : Request) (w : Device) : Device :=
  { w with ports := update w.ports r.thread r.slot }

section Runs

variable (execute : Variant)

/-- One round of the kernel, `none` if it ends or gets stuck. -/
def round (n : ℕ) (locals : Locals) (w : Device) : Option (Locals × Device) :=
  ((kernelRound execute n locals).run (handler portHandler) w).bind
    (fun r => r.1.map (fun locals' => (locals', r.2)))

/-- Submit a request and serve its slot: the return bit that its thread reads, and the
device afterwards. -/
def serveRequest (r : Request) (s : Locals × Device) : Option (BitVec 8 × Locals × Device) :=
  ((serveSlot execute r.thread s.1).run (handler portHandler) (submit r s.2)).map
    (fun s => (getRetval (s.2.ports r.thread).infoBits, s.1, s.2))

/-- The round that initialises the list, then a sequence of requests. -/
def runFromInit (n : ℕ) (requests : List Request) (locals : Locals) (w : Device) :
    Option (List (BitVec 8) × Locals × Device) :=
  (round execute n locals w).bind (serveAll (serveRequest execute) requests)

end Runs

end SmcSim.SkipListKernel
