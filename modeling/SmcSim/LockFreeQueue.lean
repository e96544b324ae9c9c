import SmcSim.Linearizability
import SmcSim.Interleavings

/-!
# The lock-free queue

`enq` and `deq` of `LFQueue.h`. Threads share the pointers `head` and `tail` and the nodes;
a step is one load, store or compare-and-swap. Nodes are numbered in the order in which they
are made, and are never freed; the memory of a new node is not initialised.
-/

namespace SmcSim.LockFreeQueue
open Linearizability Function

structure Node where
  value : ℕ
  next : Option ℕ
  deriving DecidableEq, Repr

inductive Operation where
  | enq (val : ℕ)
  | deq
  deriving DecidableEq, Repr

inductive Answer where
  | done
  | value (v : ℕ)
  deriving DecidableEq, Repr

/-- A first-in first-out queue; `deq` returns 0 if it is empty. -/
def fifo : List ℕ → Operation → Answer × List ℕ
  | queue, .enq val => (.done, queue ++ [val])
  | [], .deq => (.value 0, [])
  | v :: queue, .deq => (.value v, queue)

/-- Where a thread stands in `enq`; `last`, `next` and `newNode` are its variables, and `source`
is the value of `tail` of which it reads the successor. -/
inductive EnqPc where
  | new (val : ℕ)
  | setNext (val newNode : ℕ)
  | setValue (val newNode : ℕ)
  | readTail (val newNode : ℕ)
  | rereadTail (val newNode last : ℕ)
  | readNext (val newNode last source : ℕ)
  | checkTail (val newNode last : ℕ) (next : Option ℕ)
  | swapNext (val newNode last : ℕ)
  | swapTail (val newNode last : ℕ)
  | helpTail (val newNode last next : ℕ)
  deriving DecidableEq, Repr

/-- Where a thread stands in `deq`. -/
inductive DeqPc where
  | readHead
  | readTail (first : ℕ)
  | readNext (first last : ℕ)
  | checkHead (first last : ℕ) (next : Option ℕ)
  | helpTail (last next : ℕ)
  | readValue (first : ℕ) (next : Option ℕ)
  | swapHead (first next value : ℕ)
  deriving DecidableEq, Repr

inductive Pc where
  | idle
  | enq (pc : EnqPc)
  | deq (pc : DeqPc)
  | ret (answer : Answer)
  deriving DecidableEq, Repr

/-- The shared variables and the threads, with the nodes that have been linked so far and the
calls and returns. -/
structure State (τ : Type) where
  head : ℕ
  tail : ℕ
  nodes : ℕ → Node
  allocated : ℕ
  pcs : τ → Pc
  linked : List ℕ
  history : List (Event τ Operation Answer)

variable {τ : Type}

/-- The constructor makes the sentinel; the rest of the memory is arbitrary. -/
def initial (memory : ℕ → Node) : State τ where
  head := 0
  tail := 0
  nodes := update memory 0 ⟨0, none⟩
  allocated := 1
  pcs := fun _ => .idle
  linked := [0]
  history := []

section Steps

variable [DecidableEq τ]

def State.goto (s : State τ) (t : τ) (pc : Pc) : State τ :=
  { s with pcs := update s.pcs t pc }

def State.setNode (s : State τ) (n : ℕ) (node : Node) : State τ :=
  { s with nodes := update s.nodes n node }

/-- A compare-and-swap on `tail`. -/
def State.swapTail (s : State τ) (last next : ℕ) : State τ :=
  if s.tail = last then { s with tail := next } else s

def enq (t : τ) (s : State τ) : EnqPc → State τ
  | .new val => { s.goto t (.enq (.setNext val s.allocated)) with allocated := s.allocated + 1 }
  | .setNext val newNode =>
      (s.setNode newNode { s.nodes newNode with next := none }).goto t
        (.enq (.setValue val newNode))
  | .setValue val newNode =>
      (s.setNode newNode { s.nodes newNode with value := val }).goto t
        (.enq (.readTail val newNode))
  | .readTail val newNode => s.goto t (.enq (.rereadTail val newNode s.tail))
  | .rereadTail val newNode last => s.goto t (.enq (.readNext val newNode last s.tail))
  | .readNext val newNode last source =>
      s.goto t (.enq (.checkTail val newNode last (s.nodes source).next))
  | .checkTail val newNode last next =>
      if last = s.tail then
        match next with
        | none => s.goto t (.enq (.swapNext val newNode last))
        | some next => s.goto t (.enq (.helpTail val newNode last next))
      else s.goto t (.enq (.readTail val newNode))
  | .swapNext val newNode last =>
      if (s.nodes last).next = none then
        { (s.setNode last { s.nodes last with next := some newNode }).goto t
            (.enq (.swapTail val newNode last)) with linked := s.linked ++ [newNode] }
      else s.goto t (.enq (.readTail val newNode))
  | .swapTail _ newNode last => (s.swapTail last newNode).goto t (.ret .done)
  | .helpTail val newNode last next => (s.swapTail last next).goto t (.enq (.readTail val newNode))

/-- A read through NULL does not return. -/
def deq (t : τ) (s : State τ) : DeqPc → Option (State τ)
  | .readHead => some (s.goto t (.deq (.readTail s.head)))
  | .readTail first => some (s.goto t (.deq (.readNext first s.tail)))
  | .readNext first last => some (s.goto t (.deq (.checkHead first last (s.nodes first).next)))
  | .checkHead first last next =>
      some (if first = s.head then
          if first = last then
            match next with
            | none => s.goto t (.ret (.value 0))
            | some next => s.goto t (.deq (.helpTail last next))
          else s.goto t (.deq (.readValue first next))
        else s.goto t (.deq .readHead))
  | .helpTail last next => some ((s.swapTail last next).goto t (.deq .readHead))
  | .readValue first next =>
      next.map (fun next => s.goto t (.deq (.swapHead first next (s.nodes next).value)))
  | .swapHead first next value =>
      some (if s.head = first then { s.goto t (.ret (.value value)) with head := next }
        else s.goto t (.deq .readHead))

inductive Label (τ : Type) where
  | call (t : τ) (operation : Operation)
  | run (t : τ)

def Operation.start : Operation → Pc
  | .enq val => .enq (.new val)
  | .deq => .deq .readHead

def step (s : State τ) : Label τ → Option (State τ)
  | .call t operation =>
      match s.pcs t with
      | .idle =>
          some { s.goto t operation.start with history := s.history ++ [.invoke t operation] }
      | _ => none
  | .run t =>
      match s.pcs t with
      | .idle => none
      | .enq pc => some (enq t s pc)
      | .deq pc => deq t s pc
      | .ret answer => some { s.goto t .idle with history := s.history ++ [.respond t answer] }

end Steps

end SmcSim.LockFreeQueue
