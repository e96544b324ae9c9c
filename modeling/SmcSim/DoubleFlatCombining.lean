import SmcSim.FlatCombiningPasses

/-!
# The queue with two combiners

`DoubleFCQueue.hh`: one thread combines the pushes while another one combines the pops, each with a
publication list and a lock of its own. A push takes the queue for empty if `q_size` is 0, but pops
do not count down: once the queue has been drained, a push writes to the node that was popped last
and leaves `head_node` at NULL. As long as `q_size` and `head_node` agree before every push, the
values come out in the order in which they were put in.
-/

namespace SmcSim.DoubleFlatCombining
open FlatCombining Interleavings ListSegments Function List Option

/-! ### The queue -/

structure QNode where
  val : ℕ
  next : Option ℕ
  deriving DecidableEq, Repr

/-- Nodes are known by their address; the address of a node that has been deleted is free again.
`faulted` says that NULL or an address without a node has been dereferenced, `pushed` and `popped`
are the values so far. -/
structure Queue where
  heap : ℕ → Option QNode
  headNode : Option ℕ
  tailNode : Option ℕ
  qSize : ℕ
  faulted : Bool
  pushed : List ℕ
  popped : List ℤ

namespace Queue

def initial : Queue := ⟨fun _ => none, none, none, 0, false, [], []⟩

/-- `tail_node->next = new_node`. Without a node there the store is lost. -/
def linkTail (newNode : ℕ) (q : Queue) : Queue :=
  match q.tailNode with
  | none => { q with faulted := true }
  | some t =>
      match q.heap t with
      | none => { q with faulted := true }
      | some node => { q with heap := update q.heap t (some { node with next := some newNode }) }

/-- A push, whose node gets the address `newNode`. -/
def push (newNode param : ℕ) (q : Queue) : Queue :=
  let q := { q with heap := update q.heap newNode (some ⟨param, none⟩) }
  let linked := if q.qSize = 0 then { q with headNode := some newNode } else q.linkTail newNode
  { linked with
    tailNode := some newNode
    qSize := (q.qSize + 1) % 0x100000000
    pushed := q.pushed ++ [param] }

/-- A pop, and its `ret_val`. -/
def pop (q : Queue) : ℤ × Queue :=
  match q.headNode with
  | none => (0, { q with faulted := true })
  | some oldHead =>
      match q.heap oldHead with
      | none => (0, { q with faulted := true })
      | some node =>
          (toInt node.val, { q with
            heap := update q.heap oldHead none
            headNode := node.next
            popped := q.popped ++ [toInt node.val] })

def contents (q : Queue) : List ℕ := q.pushed.drop q.popped.length

end Queue

/-! ### The combiners -/

structure State (τ : Type) where
  enq : Walk τ
  deq : Walk τ
  queue : Queue

variable {τ : Type}

def initial (enqTimestamp deqTimestamp : ℤ) : State τ :=
  ⟨⟨fun _ => .new, enqTimestamp, none⟩, ⟨fun _ => .new, deqTimestamp, none⟩, Queue.initial⟩

/-- A pass of a combiner starts, over the slots that are linked then, or the combiner visits its
next slot. -/
inductive Label (τ : Type) where
  | startEnq (p : Publication τ)
  | visitEnq (newNode : ℕ)
  | startDeq (p : Publication τ)
  | visitDeq

section Steps

variable [DecidableEq τ]

def step (s : State τ) : Label τ → Option (State τ)
  | .startEnq p =>
      match s.enq.position with
      | none => some { s with enq := p.start s.enq.operationTimestamp }
      | some _ => none
  | .visitEnq newNode =>
      match s.enq.position, s.queue.heap newNode with
      | some (prev, curr), none =>
          (s.enq.visit (fun r q => some (toInt r.2, q.push newNode r.2)) s.queue prev curr).map
            (fun x => { s with enq := x.1, queue := x.2 })
      | _, _ => none
  | .startDeq p =>
      match s.deq.position with
      | none => some { s with deq := p.start s.deq.operationTimestamp }
      | some _ => none
  | .visitDeq =>
      match s.deq.position with
      | some (prev, curr) =>
          (s.deq.visit (fun _ q => some q.pop) s.queue prev curr).map
            (fun x => { s with deq := x.1, queue := x.2 })
      | none => none

end Steps

def Serving (w : Walk τ) : Prop := ∃ x ∈ w.position, (w.slots x.2).isRequestValid = true

instance (w : Walk τ) : Decidable (Serving w) :=
  match h : w.position with
  | none => isFalse (fun ⟨_, hx, _⟩ => by rw [h] at hx; cases hx)
  | some x =>
      decidable_of_iff ((w.slots x.2).isRequestValid = true)
        ⟨fun hvalid => ⟨x, h, hvalid⟩, fun ⟨_, hx, hvalid⟩ => some.inj (h.symm.trans hx) ▸ hvalid⟩

def Supplied (s : State τ) : Label τ → Prop
  | .visitDeq => Serving s.deq → s.queue.contents ≠ []
  | _ => True

instance (s : State τ) : DecidablePred (Supplied s)
  | .visitDeq => inferInstanceAs (Decidable (_ → _))
  | .startEnq _ | .visitEnq _ | .startDeq _ => isTrue trivial

/-- Before a push `q_size` is 0 exactly if `head_node` is NULL. -/
def Agreeing (s : State τ) : Label τ → Prop
  | .visitEnq _ => Serving s.enq → (s.queue.qSize = 0 ↔ s.queue.headNode = none)
  | _ => True

instance (s : State τ) : DecidablePred (Agreeing s)
  | .visitEnq _ => inferInstanceAs (Decidable (_ → _))
  | .startEnq _ | .startDeq _ | .visitDeq => isTrue trivial

/-- `head_node` leads to the contents, no node has been used after its deletion, and the values have
come out in their order. -/
structure Fifo (q : Queue) : Prop where
  head : q.contents ≠ [] → q.headNode ≠ none
  safe : q.faulted = false
  order : q.popped = (q.pushed.take q.popped.length).map toInt

/-! ### The nodes -/

def succ (heap : ℕ → Option QNode) (p : Option ℕ) : Option ℕ :=
  p.bind (fun a => (heap a).bind QNode.next)

/-- The nodes from `head_node` on, as their addresses and values. -/
structure Holds (q : Queue) (l : List (ℕ × ℕ)) : Prop where
  chain : Seg (succ q.heap) q.headNode (l.map (fun x => some x.1)) none
  nodup : (l.map Prod.fst).Nodup
  stored : ∀ x ∈ l, ∃ next, q.heap x.1 = some ⟨x.2, next⟩
  tail : ∀ x, l.getLast? = some x → q.tailNode = some x.1
  contents : q.contents = l.map Prod.snd
  popped_le : q.popped.length ≤ q.pushed.length
  order : q.popped = (q.pushed.take q.popped.length).map toInt
  safe : q.faulted = false

section Nodes

variable {q : Queue} {l : List (ℕ × ℕ)} {a t v param : ℕ} {next : Option ℕ}

theorem holds_initial : Holds Queue.initial [] where
  chain := rfl
  nodup := .nil
  stored _ hx := absurd hx not_mem_nil
  tail _ h := by cases h
  contents := rfl
  popped_le := Nat.le_refl 0
  order := rfl
  safe := rfl

theorem Holds.headNode_eq_none_iff (h : Holds q l) : q.headNode = none ↔ l = [] := by
  cases l with
  | nil => exact iff_of_true h.chain rfl
  | cons x l =>
    have hhead : q.headNode = some x.1 := h.chain.1
    exact iff_of_false (fun hnone => by rw [hnone] at hhead; cases hhead) (cons_ne_nil _ _)

theorem Holds.fifo (h : Holds q l) : Fifo q where
  head hcontents hnone := by
    rw [h.contents, h.headNode_eq_none_iff.mp hnone] at hcontents
    exact hcontents rfl
  safe := h.safe
  order := h.order

theorem succ_congr {heap heap' : ℕ → Option QNode} (h : ∀ x ∈ l, heap' x.1 = heap x.1) :
    ∀ p ∈ l.map (fun x => some x.1), succ heap' p = succ heap p := by
  intro p hp
  obtain ⟨x, hx, rfl⟩ := List.mem_map.mp hp
  change (heap' x.1).bind _ = (heap x.1).bind _
  rw [h x hx]

theorem Holds.contents_push (h : Holds q l) :
    (q.pushed ++ [param]).drop q.popped.length = (l ++ [(a, param)]).map Prod.snd := by
  rw [drop_append_of_le_length h.popped_le, map_append, ← h.contents]
  rfl

theorem Holds.order_push (h : Holds q l) :
    q.popped = ((q.pushed ++ [param]).take q.popped.length).map toInt := by
  rw [take_append_of_le_length h.popped_le]
  exact h.order

theorem Holds.not_mem (h : Holds q l) (ha : q.heap a = none) : ∀ x ∈ l, x.1 ≠ a := by
  rintro x hx rfl
  obtain ⟨next, hnode⟩ := h.stored x hx
  rw [ha] at hnode
  cases hnode

/-! ### A push -/

private theorem push_first (hsize : q.qSize = 0) :
    q.push a param = { q with
      heap := update q.heap a (some ⟨param, none⟩)
      headNode := some a
      tailNode := some a
      qSize := (q.qSize + 1) % 0x100000000
      pushed := q.pushed ++ [param] } := by
  rw [Queue.push]
  simp only [if_pos hsize]

private theorem push_behind (hsize : q.qSize ≠ 0) (htail : q.tailNode = some t)
    (hnode : q.heap t = some ⟨v, next⟩) (hne : t ≠ a) :
    q.push a param = { q with
      heap := update (update q.heap a (some ⟨param, none⟩)) t (some ⟨v, some a⟩)
      tailNode := some a
      qSize := (q.qSize + 1) % 0x100000000
      pushed := q.pushed ++ [param] } := by
  rw [Queue.push]
  simp only [if_neg hsize, Queue.linkTail, htail, update_of_ne hne, hnode]

private theorem Holds.push_empty (h : Holds q []) (hsize : q.qSize = 0) :
    Holds (q.push a param) [(a, param)] := by
  rw [push_first hsize]
  have hself : update q.heap a (some (QNode.mk param none)) a = some ⟨param, none⟩ :=
    update_self ..
  refine ⟨⟨rfl, ?_⟩, pairwise_singleton _ _, ?_, ?_, ?_, ?_, h.order_push, h.safe⟩
  · change (update q.heap a (some (QNode.mk param none)) a).bind QNode.next = none
    rw [hself]
    rfl
  · intro x hx
    rw [mem_singleton.mp hx]
    exact ⟨none, hself⟩
  · intro x hx
    cases hx
    rfl
  · exact h.contents_push
  · exact Nat.le_trans h.popped_le (by simp)

private theorem Holds.push_behind (h : Holds q (l ++ [(t, v)])) (hsize : q.qSize ≠ 0)
    (ha : q.heap a = none) :
    Holds (q.push a param) (l ++ [(t, v)] ++ [(a, param)]) := by
  have hfresh := h.not_mem ha
  have hne : t ≠ a := hfresh (t, v) (mem_append_right _ (mem_singleton.mpr rfl))
  obtain ⟨next, hnode⟩ := h.stored (t, v) (mem_append_right _ (mem_singleton.mpr rfl))
  have htail := h.tail (t, v) getLast?_concat
  rw [DoubleFlatCombining.push_behind hsize htail hnode hne]
  have hlast : ∀ x ∈ l, x.1 ≠ t := by
    have hnodup := h.nodup
    rw [map_append] at hnodup
    exact fun x hx heq => (nodup_append.mp hnodup).2.2 x.1 (List.mem_map_of_mem hx) t
      (mem_singleton.mpr rfl) heq
  generalize hheap : update (update q.heap a (some ⟨param, none⟩)) t
    (some (QNode.mk v (some a))) = heap
  have hother : ∀ x ∈ l, heap x.1 = q.heap x.1 := by
    intro x hx
    rw [← hheap, update_of_ne (hlast x hx),
      update_of_ne (hfresh x (mem_append_left _ hx))]
  have htnode : heap t = some ⟨v, some a⟩ := by rw [← hheap, update_self]
  have hanode : heap a = some ⟨param, none⟩ := by
    rw [← hheap, update_of_ne hne.symm, update_self]
  refine ⟨?_, ?_, ?_, ?_, h.contents_push, ?_, h.order_push, h.safe⟩
  · have hchain := h.chain
    rw [map_append] at hchain
    obtain ⟨hfront, -⟩ := seg_concat.mp hchain
    rw [map_append, map_append]
    refine seg_concat.mpr ⟨seg_concat.mpr ⟨hfront.congr (succ_congr hother), ?_⟩, ?_⟩
    · change (heap t).bind QNode.next = some a
      rw [htnode]
      rfl
    · change (heap a).bind QNode.next = none
      rw [hanode]
      rfl
  · rw [map_append]
    refine nodup_append.mpr ⟨h.nodup, pairwise_singleton _ _, ?_⟩
    intro b hb b' hb' heq
    obtain ⟨x, hx, rfl⟩ := List.mem_map.mp hb
    exact hfresh x hx (heq.trans (mem_singleton.mp hb'))
  · intro x hx
    rcases mem_append.mp hx with hx | hx
    · rcases mem_append.mp hx with hx | hx
      · obtain ⟨next, hnode⟩ := h.stored x (mem_append_left _ hx)
        exact ⟨next, (hother x hx).trans hnode⟩
      · rw [mem_singleton.mp hx]
        exact ⟨some a, htnode⟩
    · rw [mem_singleton.mp hx]
      exact ⟨none, hanode⟩
  · intro x hx
    rw [getLast?_concat] at hx
    cases hx
    rfl
  · exact Nat.le_trans h.popped_le (by simp)

theorem Holds.push (h : Holds q l) (hagree : q.qSize = 0 ↔ q.headNode = none)
    (ha : q.heap a = none) :
    Holds (q.push a param) (l ++ [(a, param)]) := by
  rcases eq_nil_or_concat' l with rfl | ⟨front, ⟨t, v⟩, rfl⟩
  · exact h.push_empty (hagree.mpr (h.headNode_eq_none_iff.mpr rfl))
  · refine h.push_behind (fun hsize => ?_) ha
    exact absurd (h.headNode_eq_none_iff.mp (hagree.mp hsize)) (by simp)

theorem linkTail_frame (a : ℕ) (q : Queue) :
    (q.linkTail a).headNode = q.headNode ∧ (q.linkTail a).popped = q.popped := by
  rw [Queue.linkTail]
  split
  · exact ⟨rfl, rfl⟩
  · split
    · exact ⟨rfl, rfl⟩
    · exact ⟨rfl, rfl⟩

theorem Holds.not_fifo_push (h : Holds q l) (hsize : q.qSize ≠ 0) (hhead : q.headNode = none) :
    ¬ Fifo (q.push a param) := by
  have hkept : (q.push a param).headNode = none := by
    rw [Queue.push]
    simp only [if_neg hsize, linkTail_frame, hhead]
  have hcontents : (q.push a param).contents = (l ++ [(a, param)]).map Prod.snd := by
    rw [← h.contents_push, Queue.contents, Queue.push]
    simp only [if_neg hsize, linkTail_frame]
  intro hfifo
  refine hfifo.head ?_ hkept
  rw [hcontents, map_append]
  exact append_ne_nil_of_right_ne_nil _ (cons_ne_nil _ _)

/-! ### A pop -/

private theorem pop_first (hhead : q.headNode = some a) (hnode : q.heap a = some ⟨v, next⟩) :
    q.pop = (toInt v, { q with
      heap := update q.heap a none
      headNode := next
      popped := q.popped ++ [toInt v] }) := by
  rw [Queue.pop]
  simp only [hhead, hnode]

theorem Holds.pop (h : Holds q ((a, v) :: l)) : q.pop.1 = toInt v ∧ Holds q.pop.2 l := by
  obtain ⟨next, hnode⟩ := h.stored (a, v) mem_cons_self
  have hhead : q.headNode = some a := h.chain.1
  have hnext : succ q.heap (some a) = next := by
    change (q.heap a).bind QNode.next = next
    rw [hnode]
    rfl
  obtain ⟨hnot, hnodup⟩ := nodup_cons.mp h.nodup
  have hother : ∀ x ∈ l, update q.heap a none x.1 = q.heap x.1 := by
    intro x hx
    refine update_of_ne (fun heq => hnot ?_) _ _
    exact List.mem_map.mpr ⟨x, hx, heq⟩
  have hcontents : q.pushed.drop q.popped.length = v :: l.map Prod.snd := h.contents
  have hvalue : q.pushed[q.popped.length]? = some v := by
    rw [← head?_drop, hcontents]
    rfl
  rw [pop_first hhead hnode]
  dsimp only
  refine ⟨rfl, ?_, hnodup, ?_, ?_, ?_, ?_, ?_, h.safe⟩
  · have hrest := h.chain.2
    rw [hnext] at hrest
    exact hrest.congr (succ_congr hother)
  · intro x hx
    obtain ⟨next, hnode⟩ := h.stored x (mem_cons_of_mem _ hx)
    exact ⟨next, (hother x hx).trans hnode⟩
  · intro x hx
    refine h.tail x ?_
    rw [getLast?_cons, hx]
    rfl
  · change q.pushed.drop (q.popped ++ [toInt v]).length = _
    rw [length_append, length_singleton, ← tail_drop, hcontents]
    rfl
  · obtain ⟨hlt, -⟩ := List.getElem?_eq_some_iff.mp hvalue
    change (q.popped ++ [toInt v]).length ≤ _
    rw [length_append]
    exact hlt
  · change q.popped ++ [toInt v] = (q.pushed.take (q.popped ++ [toInt v]).length).map toInt
    rw [length_append, length_singleton, take_add_one, hvalue, map_append, ← h.order]
    rfl

end Nodes

/-! ### Runs -/

section Runs

variable [DecidableEq τ] {s s' : State τ} {label : Label τ}

theorem visit_cases {execute : ℤ × ℕ → Queue → Option (ℤ × Queue)} {w w' : Walk τ}
    {q q' : Queue} {prev curr : τ} (h : w.visit execute q prev curr = some (w', q')) :
    (∃ r ret, (w.slots curr).isRequestValid = true ∧ execute r q = some (ret, q')) ∨ q' = q := by
  rw [Walk.visit] at h
  split at h
  · next hvalid =>
    obtain ⟨⟨ret, q₁⟩, hexecute, heq⟩ := map_eq_some_iff.mp h
    obtain ⟨-, rfl⟩ := Prod.mk.inj heq
    exact .inl ⟨_, ret, hvalid, hexecute⟩
  · split at h
    · exact .inr (Prod.mk.inj (some.inj h)).2.symm
    · exact .inr (Prod.mk.inj (some.inj h)).2.symm

/-- One step of either combiner. -/
theorem holds_step (h : ∃ l, Holds s.queue l) (hsupplied : Supplied s label)
    (hagreeing : Agreeing s label) (hstep : step s label = some s') : ∃ l, Holds s'.queue l := by
  obtain ⟨l, h⟩ := h
  cases label with
  | startEnq | startDeq =>
    rw [step] at hstep
    split at hstep
    · cases hstep
      exact ⟨l, h⟩
    · cases hstep
  | visitEnq newNode =>
    rw [step] at hstep
    split at hstep
    · next prev curr hposition hfree =>
      obtain ⟨⟨w, q⟩, hvisit, rfl⟩ := map_eq_some_iff.mp hstep
      rcases visit_cases hvisit with ⟨r, ret, hvalid, hpush⟩ | rfl
      · obtain ⟨-, rfl⟩ := Prod.mk.inj (some.inj hpush)
        exact ⟨_, h.push (hagreeing ⟨(prev, curr), hposition, hvalid⟩) hfree⟩
      · exact ⟨l, h⟩
    · cases hstep
  | visitDeq =>
    rw [step] at hstep
    split at hstep
    · next prev curr hposition =>
      obtain ⟨⟨w, q⟩, hvisit, rfl⟩ := map_eq_some_iff.mp hstep
      rcases visit_cases hvisit with ⟨r, ret, hvalid, hpop⟩ | rfl
      · have hcontents := hsupplied ⟨(prev, curr), hposition, hvalid⟩
        rw [h.contents] at hcontents
        cases l with
        | nil => exact absurd rfl hcontents
        | cons x l =>
          obtain ⟨-, hrest⟩ := h.pop
          rw [some.inj hpop] at hrest
          exact ⟨l, hrest⟩
      · exact ⟨l, h⟩
    · cases hstep

/-- In every run in which no pop is served while the queue is empty, and no push while `q_size` and
`head_node` disagree, the queue is in order; and the first push after it has been drained breaks
it. -/
theorem fifo_of_agreeing (enqTimestamp deqTimestamp : ℤ) (s : State τ)
    (hs : Reached step (fun s label => Supplied s label ∧ Agreeing s label)
      (initial enqTimestamp deqTimestamp) s) :
    Fifo s.queue ∧
    (Serving s.enq → s.queue.qSize ≠ 0 → s.queue.headNode = none →
      ∀ newNode s', step s (.visitEnq newNode) = some s' → ¬ Fifo s'.queue) := by
  obtain ⟨l, h⟩ : ∃ l, Holds s.queue l :=
    hs.invariant ⟨[], holds_initial⟩ (fun s label s' h hok hstep => holds_step h hok.1 hok.2 hstep)
  refine ⟨h.fifo, ?_⟩
  rintro ⟨⟨prev, curr⟩, hposition, hvalid⟩ hsize hhead newNode s' hstep
  rw [step, hposition] at hstep
  split at hstep
  · next prev' curr' hposition' hfree =>
    cases hposition'
    obtain ⟨⟨w, q⟩, hvisit, rfl⟩ := map_eq_some_iff.mp hstep
    rw [Walk.visit, if_pos hvalid] at hvisit
    obtain ⟨-, rfl⟩ := Prod.mk.inj (some.inj hvisit)
    exact h.not_fifo_push hsize hhead
  · cases hstep

end Runs

def oneSlot (param : ℕ) : Publication Unit where
  slots _ := ⟨true, pushOp, param, 0, 0, true, none⟩
  tailSlot := some ()
  published := [()]
  chain := ⟨rfl, rfl⟩
  nodup := by decide

theorem fifo_of_agreeing_two : ∃ s : State Unit,
    Reached step (fun s label => Supplied s label ∧ Agreeing s label) (initial 0 0) s ∧
    s.queue.pushed = [1, 2] ∧ s.queue.popped = [1] ∧ Fifo s.queue := by
  have hrun : (runSchedule (guarded step (fun s label => Supplied s label ∧ Agreeing s label))
      (initial 0 0 : State Unit) [.startEnq (oneSlot 1), .visitEnq 0, .startEnq (oneSlot 2),
        .visitEnq 1,
        .startDeq (oneSlot 0), .visitDeq]).map (fun s => (s.queue.pushed, s.queue.popped)) =
      some ([1, 2], [1]) := by
    decide
  obtain ⟨s, hs, hvalues⟩ := exists_of_runSchedule _ hrun
  obtain ⟨hpushed, hpopped⟩ := Prod.mk.inj hvalues
  exact ⟨s, hs, hpushed, hpopped, (fifo_of_agreeing 0 0 s hs).1⟩

/-- The queue is drained and refilled. -/
theorem fifo_refilled : ∃ s : State Unit, Reached step Supplied (initial 0 0) s ∧
    s.queue.contents = [2] ∧ s.queue.headNode = none ∧ s.queue.faulted = true ∧ ¬ Fifo s.queue := by
  have hrun : (runSchedule (guarded step Supplied)
      (initial 0 0 : State Unit) [.startEnq (oneSlot 1), .visitEnq 0, .startDeq (oneSlot 0),
        .visitDeq,
        .startEnq (oneSlot 2), .visitEnq 1]).map
      (fun s => (s.queue.contents, s.queue.headNode, s.queue.faulted)) =
        some ([2], none, true) := by
    decide
  obtain ⟨s, hs, hvalues⟩ := exists_of_runSchedule _ hrun
  obtain ⟨hcontents, hvalues⟩ := Prod.mk.inj hvalues
  obtain ⟨hhead, hfaulted⟩ := Prod.mk.inj hvalues
  refine ⟨s, hs, hcontents, hhead, hfaulted, fun h => h.head ?_ hhead⟩
  rw [hcontents]
  decide

end SmcSim.DoubleFlatCombining
