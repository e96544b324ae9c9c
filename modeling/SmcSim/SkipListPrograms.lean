import SmcSim.PimMemory

/-!
# Skip list programs shared by the kernels

`clean_linked_list.c` builds its initial list as a skip list, with the code that
`clean_skiplist.c` runs for its operations. The two differ in the node struct laid
over a block, so the common programs take the layout as a parameter. Each kernel
says how it reads the parameter of the request it serves.
-/

namespace SmcSim.SkipListPrograms
open EffectPrograms PimMemory

abbrev uint32Max : ℕ := 0xFFFFFFFF

/-- A node struct: the byte offsets of its fields, the length of its array `next`
and its size. No two fields overlap. -/
structure Layout where
  key : ℕ
  topLevel : ℕ
  next : ℕ → ℕ
  maxLevel : ℕ
  blockSize : ℕ
  key_ne_topLevel : key ≠ topLevel
  key_ne_next : ∀ l < maxLevel, key ≠ next l
  topLevel_ne_next : ∀ l < maxLevel, topLevel ≠ next l
  next_injective : ∀ l < maxLevel, ∀ l' < maxLevel, next l = next l' → l = l'

@[irreducible] def Layout.numMemBlocks (L : Layout) : ℕ := 0x8000000 / L.blockSize
def blockBaseAddr : ℕ := 0xC0000000
def listHead : ℕ := 4
def listTail : ℕ := 5

/-- The arrays `preds` and `succs`. -/
structure Locals where
  preds : ℕ → ℕ
  succs : ℕ → ℕ

def Locals.record (locals : Locals) (level prev curr : ℕ) : Locals :=
  ⟨Function.update locals.preds level prev, Function.update locals.succs level curr⟩

variable {Port : Type} {PortRes : Port → Type} (L : Layout)

def initBlocks (numMemBlocks : ℕ) : Kernel Port PortRes Unit := do
  writeSreg freeBlocksHead 0
  Prog.forUp (fun i (_ : Unit) => do
    let freeBlock := blockBaseAddr + i * L.blockSize
    let head ← readSreg freeBlocksHead
    store freeBlock 0 head
    writeSreg freeBlocksHead freeBlock) numMemBlocks 0 ()

def initSentinels : Kernel Port PortRes Unit := do
  let head ← allocMemoryBlock
  writeSreg listHead head
  let tail ← allocMemoryBlock
  writeSreg listTail tail
  store head L.key 0
  store tail L.key uint32Max
  store head L.topLevel L.maxLevel
  store tail L.topLevel L.maxLevel
  Prog.forUp (fun i (_ : Unit) => do
    store head (L.next i) tail
    store tail (L.next i) 0) L.maxLevel 0 ()

def listInit : Kernel Port PortRes Unit := do
  initBlocks L L.numMemBlocks
  initSentinels L
  writeSreg 1 L.numMemBlocks
  writeSreg 2 0

def walkLevel (parameter : Kernel Port PortRes ℕ) (fuel level prev curr : ℕ) :
    Kernel Port PortRes (ℕ × ℕ) :=
  Prog.loop (fun (c : ℕ × ℕ) => do
    let param ← parameter
    let key ← load c.2 L.key
    if param > key then
      let next ← load c.2 (L.next level)
      pure (.inl (c.2, next))
    else
      pure (.inr c)) fuel (prev, curr)

/-- The descent from `level - 1` to `0`: the node found, `0` if none, and the arrays.
It breaks off where the key is found unless `keepGoing` is set. -/
def findNode (parameter : Kernel Port PortRes ℕ) (keepGoing : Bool) (fuel : ℕ) :
    ℕ → ℕ → ℕ → Locals → Kernel Port PortRes (ℕ × Locals)
  | 0, _, foundNode, locals => pure (foundNode, locals)
  | level + 1, prev, foundNode, locals => do
      let curr ← load prev (L.next level)
      let c ← walkLevel L parameter fuel level prev curr
      if foundNode = 0 then
        let param ← parameter
        let key ← load c.2 L.key
        if param = key then
          if keepGoing then
            findNode parameter keepGoing fuel level c.1 c.2 (locals.record level c.1 c.2)
          else
            pure (c.2, locals)
        else
          findNode parameter keepGoing fuel level c.1 0 (locals.record level c.1 c.2)
      else
        findNode parameter keepGoing fuel level c.1 foundNode (locals.record level c.1 c.2)

/-- `for (level = 0; level < new_node->top_level; level++)` -/
def linkNode (fuel newNode : ℕ) (locals : Locals) : Kernel Port PortRes Unit :=
  Prog.loop (fun (level : ℕ) => do
    let top ← load newNode L.topLevel
    if level < top then
      store newNode (L.next level) (locals.succs level)
      store (locals.preds level) (L.next level) newNode
      pure (.inl (level + 1))
    else
      pure (.inr ())) fuel 0

/-- Allocate a node of the given height for the parameter and link it. -/
def addNode (parameter randomLevel : Kernel Port PortRes ℕ) (fuel : ℕ) (locals : Locals) :
    Kernel Port PortRes Unit := do
  let newNode ← allocMemoryBlock
  let top ← randomLevel
  store newNode L.topLevel top
  let param ← parameter
  store newNode L.key param
  linkNode L fuel newNode locals

/-- `for (level = found_node->top_level-1; level >= 0; level--)` -/
def unlinkNode (foundNode : ℕ) (locals : Locals) : Kernel Port PortRes Unit := do
  let top ← load foundNode L.topLevel
  Prog.forDown (fun level (_ : Unit) => do
    let next ← load foundNode (L.next level)
    store (locals.preds level) (L.next level) next) top ()

end SmcSim.SkipListPrograms
