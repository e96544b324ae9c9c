import SmcSim.SkipListPrograms
import SmcSim.SetSemantics
import Mathlib.Algebra.Ring.Int.Defs
import Mathlib.Algebra.Ring.Nat

/-!
# The sorted linked list kernel

The kernel `clean_linked_list.c`, variant `kernel_fc_with_sort_nonstop`, with the
request slots of `multithread_nonstop_pim_linkedlist/defs.hh`. Every access to a
request slot, to a vault word and to a scalar register is one command. Loops carry
a bound on their rounds; a loop that exceeds it is stuck.
-/

namespace SmcSim.LinkedListKernel
open EffectPrograms PimMemory SkipListPrograms SetSemantics

/-! ### Request slots -/

structure RequestSlot where
  infoBits : BitVec 16
  parameter : ℕ
  deriving DecidableEq, Repr

def addOp : BitVec 16 := 0x4000
def removeOp : BitVec 16 := 0x2000
def containsOp : BitVec 16 := 0x6000

def setOperation (infobits op : BitVec 16) : BitVec 16 := infobits &&& 0x1FFE ||| op
def extractOperation (infobits : BitVec 16) : BitVec 16 := infobits &&& 0x6000
def setRetval (infobits retval : BitVec 16) : BitVec 16 := infobits ||| retval
def getRetval (infobits : BitVec 16) : BitVec 16 := infobits &&& 0x0001
def setRequest (infobits : BitVec 16) : BitVec 16 := infobits ||| 0x8000
def checkValidRequest (infobits : BitVec 16) : BitVec 16 := infobits &&& 0x8000
def clearRequest (infobits : BitVec 16) : BitVec 16 := infobits &&& 0x7FFF

def opCode : Operation → BitVec 16
  | .contains => containsOp
  | .add => addOp
  | .remove => removeOp

/-! ### Struct layouts -/

/-- `node_t` -/
def nodeKey : ℕ := 0
def nodeNext : ℕ := 4

/-- `skiplist_node_t` -/
def skiplistNode : Layout where
  key := 0
  topLevel := 60
  next l := 4 + 4 * l
  maxLevel := 14
  blockSize := 64
  key_ne_topLevel := by decide
  key_ne_next l _ := by omega
  topLevel_ne_next l _ := by omega
  next_injective l _ l' _ := by omega

theorem skiplistNode_numMemBlocks : skiplistNode.numMemBlocks = 2097152 := by
  unfold Layout.numMemBlocks
  rfl

def linkedListHead : ℕ := listHead
def linkedListTail : ℕ := listTail

/-! ### Commands on the request slots -/

/-- Half-word and word accesses to the slots, and the kernel's debug output: the
operation, parameter and return value it prints for the slot it has just served. -/
inductive Port where
  | readInfoBits (i : ℕ)
  | writeInfoBits (i : ℕ) (infobits : BitVec 16)
  | readParameter (i : ℕ)
  | printServed (i : ℕ) (opType : BitVec 16) (param : ℕ) (retval : BitVec 16)
  | printInteger (value : ℕ)

def PortRes : Port → Type
  | .readInfoBits _ => BitVec 16
  | .writeInfoBits _ _ => Unit
  | .readParameter _ => ℕ
  | .printServed _ _ _ _ => Unit
  | .printInteger _ => Unit

abbrev ListKernel := Kernel Port PortRes

def readInfoBits (i : ℕ) : ListKernel (BitVec 16) := port (Port.readInfoBits i)
def writeInfoBits (i : ℕ) (infobits : BitVec 16) : ListKernel Unit :=
  port (Port.writeInfoBits i infobits)
def readParameter (i : ℕ) : ListKernel ℕ := port (Port.readParameter i)
def printServed (i : ℕ) (opType : BitVec 16) (param : ℕ) (retval : BitVec 16) : ListKernel Unit :=
  port (Port.printServed i opType param retval)
def printInteger (value : ℕ) : ListKernel Unit := port (Port.printInteger value)

/-! ### Initialisation and printing -/

def listInit : ListKernel Unit := SkipListPrograms.listInit skiplistNode

def listPrint (fuel : ℕ) : ListKernel Unit := do
  let head ← readSreg linkedListHead
  Prog.loop (fun (curr : ℕ) => do
    let curr ← load curr nodeNext
    let key ← load curr nodeKey
    printInteger key
    let next ← load curr nodeNext
    let tail ← readSreg linkedListTail
    if next ≠ tail then pure (.inl curr) else pure (.inr ())) fuel head

/-! ### Adding the initial nodes -/

def addInitialNode (fuel : ℕ) (locals : Locals) : ListKernel Locals := do
  let info ← readInfoBits 0
  if checkValidRequest info ≠ 0 then
    let head ← readSreg linkedListHead
    let (found, locals) ← findNode skiplistNode (readParameter 0) false fuel 14 head 0 locals
    if found = 0 then
      addNode skiplistNode (readParameter 0) (readSreg 1) fuel locals
      let info ← readInfoBits 0
      writeInfoBits 0 (setRetval info 1)
    let info ← readInfoBits 0
    writeInfoBits 0 (clearRequest info)
    pure locals
  else
    pure locals

/-! ### Sorting the valid requests -/

/-- Conversion of an `unsigned long` to `int` and back, both of 32 bits. -/
def toInt (x : ℕ) : ℤ := Int.bmod x (2 ^ 32)
def toUlong (x : ℤ) : ℕ := (x % (2 ^ 32 : ℕ)).toNat

/-- `requests[i]`; the array is only defined on its entries. -/
def requestAt (requests : List ℕ) (i : ℤ) : ListKernel ℕ :=
  if i < 0 then .stuck else
    match requests[i.toNat]? with
    | some slot => pure slot
    | none => .stuck

def swapRequests (requests : List ℕ) (i j : ℤ) : ListKernel (List ℕ) := do
  let a ← requestAt requests i
  let b ← requestAt requests j
  pure ((requests.set i.toNat b).set j.toNat a)

/-- `do { i++; } while (requests[i]->parameter < pivot)` -/
def scanUp (fuel : ℕ) (requests : List ℕ) (pivot : ℤ) (i : ℤ) : ListKernel ℤ :=
  Prog.loop (fun (i : ℤ) => do
    let slot ← requestAt requests (i + 1)
    let param ← readParameter slot
    if param < toUlong pivot then pure (.inl (i + 1)) else pure (.inr (i + 1))) fuel i

/-- `do { j--; } while (requests[j]->parameter > pivot)` -/
def scanDown (fuel : ℕ) (requests : List ℕ) (pivot : ℤ) (j : ℤ) : ListKernel ℤ :=
  Prog.loop (fun (j : ℤ) => do
    let slot ← requestAt requests (j - 1)
    let param ← readParameter slot
    if param > toUlong pivot then pure (.inl (j - 1)) else pure (.inr (j - 1))) fuel j

def partition (fuel : ℕ) (requests : List ℕ) (lowIndex highIndex : ℤ) :
    ListKernel (List ℕ × ℤ) := do
  let slot ← requestAt requests lowIndex
  let param ← readParameter slot
  let pivot := toInt param
  Prog.loop (fun (s : List ℕ × ℤ × ℤ) => do
    let i ← scanUp fuel s.1 pivot s.2.1
    let j ← scanDown fuel s.1 pivot s.2.2
    if i ≥ j then
      pure (.inr (s.1, j))
    else
      let requests ← swapRequests s.1 i j
      pure (.inl (requests, i, j))) fuel (requests, lowIndex - 1, highIndex + 1)

def quicksort (fuel : ℕ) : ℕ → List ℕ → ℤ → ℤ → ListKernel (List ℕ)
  | 0, _, _, _ => .stuck
  | depth + 1, requests, lowIndex, highIndex =>
      if lowIndex < highIndex then do
        let (requests, pivot) ← partition fuel requests lowIndex highIndex
        let requests ← quicksort fuel depth requests lowIndex pivot
        quicksort fuel depth requests (pivot + 1) highIndex
      else
        pure requests

/-! ### One sweep over the list -/

def gather (numHostThreads : ℕ) : ListKernel (List ℕ) :=
  Prog.forUp (fun i (requests : List ℕ) => do
    let info ← readInfoBits i
    if checkValidRequest info ≠ 0 then pure (requests ++ [i]) else pure requests)
    numHostThreads 0 []

/-- `while (curr_node->key < param)` -/
def advance (fuel param pred curr : ℕ) : ListKernel (ℕ × ℕ) :=
  Prog.loop (fun (c : ℕ × ℕ) => do
    let key ← load c.2 nodeKey
    if key < param then
      let next ← load c.2 nodeNext
      pure (.inl (c.2, next))
    else
      pure (.inr c)) fuel (pred, curr)

/-- Serve one request at the cursor: the new current node and the return value. -/
def serve (opType : BitVec 16) (param pred curr : ℕ) : ListKernel (ℕ × BitVec 16) :=
  if opType = containsOp then do
    let key ← load curr nodeKey
    if key = param then pure (curr, 1) else pure (curr, 0)
  else if opType = addOp then do
    let key ← load curr nodeKey
    if key ≠ param then
      let new ← allocMemoryBlock
      if new ≠ 0 then
        store new nodeKey param
        store new nodeNext curr
        store pred nodeNext new
        pure (new, 1)
      else
        pure (curr, 0)
    else
      pure (curr, 0)
  else if opType = removeOp then do
    let key ← load curr nodeKey
    if key = param then
      let next ← load curr nodeNext
      store pred nodeNext next
      freeMemoryBlock curr
      let curr ← load pred nodeNext
      pure (curr, 1)
    else
      pure (curr, 0)
  else
    pure (curr, 0)

/-- Execute the sorted requests; the cursor carries over from one to the next. -/
def sweep (fuel : ℕ) : List ℕ → ℕ → ℕ → ListKernel Unit
  | [], _, _ => pure ()
  | slot :: rest, pred, curr => do
      let info ← readInfoBits slot
      let opType := extractOperation info
      let param ← readParameter slot
      let c ← advance fuel param pred curr
      let served ← serve opType param c.1 c.2
      printServed slot opType param served.2
      let info ← readInfoBits slot
      writeInfoBits slot (setRetval info served.2)
      let info ← readInfoBits slot
      writeInfoBits slot (clearRequest info)
      sweep fuel rest c.1 served.1

def linkedListOps (fuel numHostThreads : ℕ) : ListKernel Unit := do
  let validRequests ← gather numHostThreads
  let numValidRequests := validRequests.length
  let validRequests ← quicksort fuel fuel validRequests 0 ((numValidRequests : ℤ) - 1)
  let pred ← readSreg linkedListHead
  let curr ← load pred nodeNext
  sweep fuel validRequests pred curr

/-- One round of `while (true)`. `none` is the `break` that ends the kernel. -/
def kernelRound (fuel numHostThreads : ℕ) (locals : Locals) : ListKernel (Option Locals) := do
  let op ← readSreg 0
  if op = 0 then
    listInit
    writeSreg 0 3
    pure (some locals)
  else
    let op ← readSreg 0
    if op = 2 then
      listPrint fuel
      writeSreg 0 1
      pure (some locals)
    else
      let op ← readSreg 0
      if op = 3 then
        let locals ← addInitialNode fuel locals
        pure (some locals)
      else
        let op ← readSreg 0
        if op ≥ 4 then
          pure none
        else
          linkedListOps fuel numHostThreads
          pure (some locals)

end SmcSim.LinkedListKernel
