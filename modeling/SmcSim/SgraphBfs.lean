import SmcSim.BreadthFirst

/-!
# Breadth-first search over an offloaded graph

`execute_kernel` of `sgraph_bfs.c` built as `kernel_default`, with the queue macros of `defs.hh`.
A node is identified with its index in `nodes`, a pointer to it is that index, and `ulong_t` has
32 bits. The field `overwritten` records whether a push has replaced an entry of the queue that
had not been read; the kernel does not read it.

What the kernel is for is stated beside it: each iteration is a breadth-first search from its own
node among the nodes that no search has reached yet.
-/

namespace SmcSim.SgraphBfs
open BreadthFirst Function

def word : ℕ := 0x100000000

def sizeofUlong : ℕ := 4

/-- `NC`, the distance of a node that has not been reached. -/
def nc : ℕ := 0xffffffff

structure Graph where
  nodes : ℕ
  successors : ℕ → List ℕ
  successors_lt : ∀ v, ∀ w ∈ successors v, w < nodes

def Graph.outDegree (G : Graph) (v : ℕ) : ℕ := (G.successors v).length

/-! ### The queue -/

structure Ring where
  head : ℕ
  tail : ℕ
  elements : ℕ
  deriving DecidableEq, Repr

def queueInit : Ring := ⟨0, 0, 0⟩

/-- `head++; if (head>=NODES) head=0;` -/
def advance (nodes i : ℕ) : ℕ := if nodes ≤ (i + 1) % word then 0 else (i + 1) % word

def Ring.push (nodes : ℕ) (r : Ring) : Ring :=
  { r with head := advance nodes r.head, elements := (r.elements + 1) % word }

def Ring.pop (nodes : ℕ) (r : Ring) : Ring :=
  { r with tail := advance nodes r.tail, elements := (r.elements + (word - 1)) % word }

/-- The entries from `tail` on that have been pushed and not popped. -/
def Ring.Unread (nodes : ℕ) (r : Ring) (i : ℕ) : Prop := ∃ k < r.elements, (r.tail + k) % nodes = i

instance (nodes : ℕ) (r : Ring) (i : ℕ) : Decidable (r.Unread nodes i) :=
  inferInstanceAs (Decidable (∃ k < r.elements, (r.tail + k) % nodes = i))

/-! ### The kernel -/

structure State where
  distance : ℕ → ℕ
  queue : ℕ → ℕ
  ring : Ring
  totalDistance : ℕ
  sreg3 : ℕ
  overwritten : Bool

def queuePush (nodes x : ℕ) (s : State) : State :=
  { s with
    queue := update s.queue s.ring.head x
    ring := s.ring.push nodes
    overwritten := s.overwritten || decide (s.ring.Unread nodes s.ring.head) }

/-- The body of the loop over the successors of `v`. -/
def visitSuccessor (nodes v : ℕ) (s : State) (succ : ℕ) : State :=
  if s.distance succ = nc then
    let s := { s with distance := update s.distance succ ((s.distance v + 1) % word) }
    let s := { s with totalDistance := (s.totalDistance + s.distance succ) % word }
    queuePush nodes succ s
  else s

/-- `while ( !(queue_empty) )`. -/
def searchLoop (G : Graph) : ℕ → State → Option State
  | 0, _ => none
  | fuel + 1, s =>
      if s.ring.elements = 0 then some s
      else
        let v := s.queue s.ring.tail
        let s := { s with ring := s.ring.pop G.nodes }
        searchLoop G fuel ((G.successors v).foldl (visitSuccessor G.nodes v) s)

def iteration (G : Graph) (fuel x : ℕ) (s : State) : Option State :=
  let s := { s with distance := update s.distance x 0, ring := queueInit }
  searchLoop G fuel (queuePush G.nodes x s)

/-- The iterations before iteration `x`. -/
def iterations (G : Graph) (fuel : ℕ) : ℕ → State → Option State
  | 0, s => some s
  | x + 1, s => (iterations G fuel x s).bind (iteration G fuel x)

def executeKernel (G : Graph) (maxIterations fuel : ℕ) (s : State) : Option State :=
  (iterations G fuel maxIterations { s with totalDistance := 0, overwritten := false }).map
    (fun s => { s with sreg3 := s.totalDistance })

/-! ### The searches -/

def openSuccessors (G : Graph) (distance : ℕ → ℕ) (v : ℕ) : List ℕ :=
  (G.successors v).filter (fun w => distance w = nc)

/-- The search from `x`, which is at distance 0 itself. -/
def searchFrom (G : Graph) (distance : ℕ → ℕ) (x : ℕ) : ℕ → Search ℕ :=
  after (openSuccessors G (update distance x 0)) x

structure Outcome where
  distance : ℕ → ℕ
  totalDistance : ℕ

def Outcome.iterate (G : Graph) (o : Outcome) (x : ℕ) : Outcome :=
  let s := searchFrom G o.distance x G.nodes
  ⟨fun w => if w ∈ s.order then s.depth w else o.distance w,
    (o.totalDistance + s.depthSum) % word⟩

/-- The outcome of the iterations before iteration `x`. -/
def outcome (G : Graph) (distance : ℕ → ℕ) : ℕ → Outcome
  | 0 => ⟨distance, 0⟩
  | x + 1 => (outcome G distance x).iterate G x

end SmcSim.SgraphBfs
