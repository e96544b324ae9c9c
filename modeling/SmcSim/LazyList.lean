import SmcSim.Linearizability
import SmcSim.SetSemantics
import SmcSim.Interleavings

/-!
# The lazy list

`contains`, `add` and `remove` of `LazyLockList.h`. Threads share the nodes of a sorted list
between two sentinels; a step is one load, store, lock or unlock. `add` and `remove` search
without locks, lock two neighbours and check that they still are neighbours; a node is marked
before it is unlinked. Nodes are numbered in the order in which they are allocated, the memory
of a new node is zero, and nodes are never freed.
-/

namespace SmcSim.LazyList
open Linearizability SetSemantics Function

structure Node where
  key : ℕ
  marked : Bool
  next : Option ℕ
  deriving DecidableEq, Repr

def zeroNode : Node := ⟨0, false, none⟩

/-- `UINT32_MAX`, the key of the sentinel at the end. -/
def maxKey : ℕ := 0xffffffff

inductive Update where
  | add
  | remove
  deriving DecidableEq, Repr

def Update.operation : Update → Operation
  | .add => .add
  | .remove => .remove

/-- Where a thread stands in `contains`. -/
inductive LookupStage where
  | test
  | advance
  | checkKey
  | checkMarked
  deriving DecidableEq, Repr

/-- Where a thread stands in the body of the loop of `add` or `remove`; `result` is what it
returns after it has unlocked the nodes, if it does not search again. -/
inductive Stage where
  | test
  | advance
  | lockPrev
  | lockCurr
  | checkPrev
  | checkCurr
  | checkNext
  | checkKey
  | allocate
  | setKey (newNode : ℕ)
  | setNext (newNode : ℕ)
  | initLock (newNode : ℕ)
  | link (newNode : ℕ)
  | mark
  | readNext
  | unlink (next : Option ℕ)
  | unlockCurr (result : Option Bool)
  | unlockPrev (result : Option Bool)
  deriving DecidableEq, Repr

inductive Pc where
  | idle
  | contains (x currNode : ℕ) (stage : LookupStage)
  | search (update : Update) (x : ℕ)
  | update (update : Update) (x prevNode currNode : ℕ) (stage : Stage)
  | ret (answer : Bool)
  deriving DecidableEq, Repr

structure Memory where
  head : ℕ
  tail : ℕ
  nodes : ℕ → Node
  allocated : ℕ
  linked : List ℕ

/-- The list, the holders of the locks of the nodes, the threads, and the calls and returns. -/
structure State (τ : Type) where
  memory : Memory
  locks : ℕ → Option τ
  pcs : τ → Pc
  history : List (Event τ (Operation × ℕ) Bool)

def Memory.setNode (m : Memory) (a : ℕ) (node : Node) : Memory :=
  { m with nodes := update m.nodes a node }

def Memory.allocate (m : Memory) : Memory := { m with allocated := m.allocated + 1 }

/-- `prev_node->next = new_node` -/
def Memory.link (m : Memory) (prevNode newNode : ℕ) : Memory :=
  { m.setNode prevNode { m.nodes prevNode with next := some newNode } with
    linked := m.linked ++ [newNode] }

/-- `curr_node->marked = true` -/
def Memory.mark (m : Memory) (currNode : ℕ) : Memory :=
  m.setNode currNode { m.nodes currNode with marked := true }

/-- `prev_node->next = next` -/
def Memory.unlink (m : Memory) (prevNode : ℕ) (next : Option ℕ) : Memory :=
  m.setNode prevNode { m.nodes prevNode with next := next }

variable {τ : Type} [DecidableEq τ]

def State.goto (s : State τ) (t : τ) (pc : Pc) : State τ :=
  { s with pcs := update s.pcs t pc }

def State.setLock (s : State τ) (a : ℕ) (holder : Option τ) : State τ :=
  { s with locks := update s.locks a holder }

def State.setMemory (s : State τ) (m : Memory) : State τ := { s with memory := m }

/-- `pthread_mutex_lock` waits until the lock is free. -/
def State.acquire (s : State τ) (t : τ) (a : ℕ) (pc : Pc) : Option (State τ) :=
  match s.locks a with
  | none => some ((s.setLock a (some t)).goto t pc)
  | some _ => none

/-- A step of `contains`. A read through NULL does not return. -/
def lookup (t : τ) (s : State τ) (x curr : ℕ) : LookupStage → Option (State τ)
  | .test =>
      some (s.goto t (.contains x curr
        (if (s.memory.nodes curr).key < x then .advance else .checkKey)))
  | .advance => (s.memory.nodes curr).next.map (fun next => s.goto t (.contains x next .test))
  | .checkKey =>
      some (s.goto t
        (if (s.memory.nodes curr).key = x then .contains x curr .checkMarked else .ret false))
  | .checkMarked => some (s.goto t (.ret (!(s.memory.nodes curr).marked)))

/-- The start of the loop of `add` and `remove`. -/
def search (t : τ) (s : State τ) (update : Update) (x : ℕ) : Option (State τ) :=
  (s.memory.nodes s.memory.head).next.map (fun next =>
    s.goto t (.update update x s.memory.head next .test))

/-- What follows when the nodes have been found to be neighbours. -/
def decideKey (update : Update) (found : Bool) : Stage :=
  match update, found with
  | .add, false => .allocate
  | .remove, true => .mark
  | .add, true | .remove, false => .unlockCurr (some false)

/-- A step of `add` or `remove`. -/
def update (t : τ) (s : State τ) (op : Update) (x prev curr : ℕ) : Stage → Option (State τ)
  | .test =>
      some (s.goto t (.update op x prev curr
        (if (s.memory.nodes curr).key < x then .advance else .lockPrev)))
  | .advance =>
      (s.memory.nodes curr).next.map (fun next => s.goto t (.update op x curr next .test))
  | .lockPrev => s.acquire t prev (.update op x prev curr .lockCurr)
  | .lockCurr => s.acquire t curr (.update op x prev curr .checkPrev)
  | .checkPrev =>
      some (s.goto t (.update op x prev curr
        (if (s.memory.nodes prev).marked then .unlockCurr none else .checkCurr)))
  | .checkCurr =>
      some (s.goto t (.update op x prev curr
        (if (s.memory.nodes curr).marked then .unlockCurr none else .checkNext)))
  | .checkNext =>
      some (s.goto t (.update op x prev curr
        (if (s.memory.nodes prev).next = some curr then .checkKey else .unlockCurr none)))
  | .checkKey =>
      some (s.goto t (.update op x prev curr
        (decideKey op (decide ((s.memory.nodes curr).key = x)))))
  | .allocate =>
      some ((s.setMemory s.memory.allocate).goto t
        (.update op x prev curr (.setKey s.memory.allocated)))
  | .setKey n =>
      some ((s.setMemory (s.memory.setNode n { s.memory.nodes n with key := x })).goto t
        (.update op x prev curr (.setNext n)))
  | .setNext n =>
      some ((s.setMemory (s.memory.setNode n { s.memory.nodes n with next := some curr })).goto t
        (.update op x prev curr (.initLock n)))
  | .initLock n => some ((s.setLock n none).goto t (.update op x prev curr (.link n)))
  | .link n =>
      some ((s.setMemory (s.memory.link prev n)).goto t
        (.update op x prev curr (.unlockCurr (some true))))
  | .mark =>
      some ((s.setMemory (s.memory.mark curr)).goto t (.update op x prev curr .readNext))
  | .readNext =>
      some (s.goto t (.update op x prev curr (.unlink (s.memory.nodes curr).next)))
  | .unlink next =>
      some ((s.setMemory (s.memory.unlink prev next)).goto t
        (.update op x prev curr (.unlockCurr (some true))))
  | .unlockCurr result =>
      some ((s.setLock curr none).goto t (.update op x prev curr (.unlockPrev result)))
  | .unlockPrev result =>
      some ((s.setLock prev none).goto t
        (match result with
          | none => .search op x
          | some answer => .ret answer))

inductive Label (τ : Type) where
  | call (t : τ) (operation : Operation) (x : ℕ)
  | run (t : τ)

def start (m : Memory) : Operation → ℕ → Pc
  | .contains, x => .contains x m.head .test
  | .add, x => .search .add x
  | .remove, x => .search .remove x

def step (s : State τ) : Label τ → Option (State τ)
  | .call t operation x =>
      match s.pcs t with
      | .idle =>
          some { s.goto t (start s.memory operation x) with
            history := s.history ++ [.invoke t (operation, x)] }
      | _ => none
  | .run t =>
      match s.pcs t with
      | .idle => none
      | .contains x curr stage => lookup t s x curr stage
      | .search op x => search t s op x
      | .update op x prev curr stage => update t s op x prev curr stage
      | .ret answer => some { s.goto t .idle with history := s.history ++ [.respond t answer] }

end SmcSim.LazyList
