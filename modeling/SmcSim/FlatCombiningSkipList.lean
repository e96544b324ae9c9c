import SmcSim.FlatCombiningPasses
import SmcSim.SkipChains
import Mathlib.Data.Finset.Card

/-!
# The flat-combining skip list

`flat_combine` of `FCSkipList.hh`, on one request. The search goes down the levels and records its
way in two arrays, which are not cleared between requests; it stops early only for `CONTAINS_OP`,
which does not look at them. An addition links a new node of a random height behind the nodes of the
first array, and a removal unlinks the node from them and deletes it.
-/

namespace SmcSim.FlatCombiningSkipList
open SkipChains Function

/-! ### The list -/

def maxLevelBound : ℕ := 14
def intMax : ℕ := 0x7fffffff

def addOp : ℤ := 1
def containsOp : ℤ := 2

structure Node where
  key : ℕ
  topLevel : ℕ
  next : ℕ → ℕ

/-- The arrays `preds` and `succs`. -/
structure Arrays where
  preds : ℕ → ℕ
  succs : ℕ → ℕ

def Arrays.record (arrays : Arrays) (level p c : ℕ) : Arrays :=
  ⟨update arrays.preds level p, update arrays.succs level c⟩

/-- The memory, by address, and which addresses are those of nodes; 0 is NULL. `added` counts the
additions and `deleted` has the keys of the nodes that have been deleted. -/
structure SkipList where
  nodes : ℕ → Node
  live : Finset ℕ
  headNode : ℕ
  maxLevel : ℕ
  arrays : Arrays
  added : ℕ
  deleted : List ℕ

/-- What `rand` returns for the additions, and where they get their nodes, which are not
initialised. -/
structure Environment where
  rand : ℕ → ℕ
  address : Finset ℕ → ℕ → ℕ
  contents : ℕ → Node
  fresh : ∀ live n, address live n ∉ live
  nonnull : ∀ live n, address live n ≠ 0

/-! ### Heights -/

/-- The loop of `randomLevel`. -/
def countBits (x level : ℕ) : ℕ :=
  if h : (x >>> 1) &&& 1 ≠ 0 then countBits (x >>> 1) (level + 1) else level
termination_by x
decreasing_by
  rw [Nat.shiftRight_eq_div_pow]
  refine Nat.div_lt_self (Nat.pos_of_ne_zero ?_) (by decide)
  rintro rfl
  exact h rfl

def randomLevel (maxLevel rand : ℕ) : ℕ :=
  let x := rand % (1 <<< maxLevel)
  if x &&& 0x80000001 ≠ 0 then 1
  else
    let level := countBits x 2
    if level > maxLevel - 1 then maxLevel - 1 else level

namespace SkipList

/-! ### Accesses -/

def node (m : SkipList) (p : ℕ) : Option Node := if p ∈ m.live then some (m.nodes p) else none

/-- `p->next[level] = q`. -/
def setNext (m : SkipList) (p level q : ℕ) : Option SkipList :=
  let node := { m.nodes p with next := update (m.nodes p).next level q }
  if p ∈ m.live then some { m with nodes := update m.nodes p node } else none

/-! ### The search -/

/-- The loop on one level, with the last node that has been passed. -/
def walk (m : SkipList) (param level : ℕ) : ℕ → ℕ → ℕ → Option (ℕ × ℕ)
  | 0, _, _ => none
  | fuel + 1, prevNode, currNode =>
      (m.node currNode).bind (fun n =>
        if param > n.key then walk m param level fuel currNode (n.next level)
        else some (prevNode, currNode))

/-- The loop over the levels, from `iLevel - 1` down. -/
def search (m : SkipList) (op : ℤ) (param : ℕ) : ℕ → ℕ → ℕ → Arrays → Option (ℕ × Arrays)
  | 0, _, foundNode, arrays => some (foundNode, arrays)
  | iLevel + 1, prevNode, foundNode, arrays =>
      (m.node prevNode).bind (fun p =>
        (m.walk param iLevel m.live.card prevNode (p.next iLevel)).bind (fun x =>
          (m.node x.2).bind (fun c =>
            if foundNode = 0 ∧ param = c.key then
              if op = containsOp then some (x.2, arrays)
              else search m op param iLevel x.1 x.2 (arrays.record iLevel x.1 x.2)
            else search m op param iLevel x.1 foundNode (arrays.record iLevel x.1 x.2))))

/-! ### Requests -/

/-- Link a node into the levels below `topLevel`. -/
def linkLevels (newNode : ℕ) : ℕ → SkipList → Option SkipList
  | 0, m => some m
  | level + 1, m =>
      (linkLevels newNode level m).bind (fun m =>
        (m.setNext newNode level (m.arrays.succs level)).bind (fun m =>
          m.setNext (m.arrays.preds level) level newNode))

def unlinkLevels (foundNode : ℕ) : ℕ → SkipList → Option SkipList
  | 0, m => some m
  | level + 1, m =>
      (unlinkLevels foundNode level m).bind (fun m =>
        (m.node foundNode).bind (fun f => m.setNext (m.arrays.preds level) level (f.next level)))

/-- `new Node`, with its key and height. -/
def alloc (e : Environment) (param topLevel : ℕ) (m : SkipList) : SkipList :=
  let newNode := e.address m.live m.added
  let node := { e.contents m.added with key := param, topLevel := topLevel }
  { m with
    nodes := update m.nodes newNode node
    live := insert newNode m.live
    added := m.added + 1 }

def add (e : Environment) (param : ℕ) (m : SkipList) : Option SkipList :=
  let topLevel := randomLevel m.maxLevel (e.rand m.added)
  linkLevels (e.address m.live m.added) topLevel (m.alloc e param topLevel)

def remove (foundNode : ℕ) (m : SkipList) : Option SkipList :=
  (m.node foundNode).bind (fun f =>
    (unlinkLevels foundNode f.topLevel m).map (fun m =>
      { m with live := m.live.erase foundNode, deleted := m.deleted ++ [f.key] }))

/-! ### Well-formed lists -/

def keyOf (m : SkipList) (p : ℕ) : ℕ := (m.nodes p).key
def topOf (m : SkipList) (p : ℕ) : ℕ := (m.nodes p).topLevel
def nextOf (m : SkipList) (l p : ℕ) : ℕ := (m.nodes p).next l

/-- The order of the list. The key of the head node, `INT_MIN`, is a large number as an `ulong_t`,
but it is never looked at. -/
def rank (m : SkipList) (p : ℕ) : ℕ := if p = m.headNode then 0 else m.keyOf p + 1

/-- The nodes of a list whose nodes between the sentinels are `mid`. -/
def cells (m : SkipList) (mid : List ℕ) (tail : ℕ) : List ℕ := m.headNode :: (mid ++ [tail])

def keys (m : SkipList) (mid : List ℕ) : Finset ℕ := (mid.map m.keyOf).toFinset

end SkipList

structure WellFormed (m : SkipList) (mid : List ℕ) (tail : ℕ) : Prop where
  chain : SkipChain m.nextOf m.rank m.topOf maxLevelBound m.headNode 0 (m.cells mid tail)
  live : m.live = (m.cells mid tail).toFinset
  nonnull : 0 ∉ m.cells mid tail
  tailKey : m.keyOf tail = intMax
  headTop : m.topOf m.headNode = maxLevelBound
  tailTop : m.topOf tail = maxLevelBound
  heights : ∀ p ∈ mid, 1 ≤ m.topOf p ∧ m.topOf p ≤ m.maxLevel
  levels : 2 ≤ m.maxLevel ∧ m.maxLevel ≤ maxLevelBound

/-- A request, and its `ret_val`. -/
def execute (e : Environment) (request : ℤ × ℕ) (m : SkipList) : Option (ℤ × SkipList) :=
  (m.search request.1 request.2 m.maxLevel m.headNode 0 m.arrays).bind (fun x =>
    let m := { m with arrays := x.2 }
    if request.1 = containsOp then some (if x.1 ≠ 0 then 1 else 0, m)
    else if request.1 = addOp then
      if x.1 = 0 then (m.add e request.2).map (fun m => (1, m)) else some (0, m)
    else
      if x.1 ≠ 0 then (m.remove x.1).map (fun m => (1, m)) else some (0, m))

end SmcSim.FlatCombiningSkipList
