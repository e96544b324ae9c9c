import SmcSim.FlatCombiningPasses
import SmcSim.SinglePimQueue

/-!
# The flat-combining queue in an array

`flat_combine` of `FCArrayQueue.hh`. The elements are in an array that is used as a ring, as they
are in the segment of a single PIM, and in both an index that has come back to the other one means
an empty queue.
-/

namespace SmcSim.FlatCombiningArray
open FlatCombining RingBuffers RequestServers List

def maxIndex : ℕ := 1048576

section Execution

variable (n : ℕ)

def nextIndex (x : ℕ) : ℕ := (x + 1) % n

/-- A request, and its `ret_val`. -/
def execute (request : ℤ × ℕ) (q : Buffer ℕ) : Option (ℤ × Buffer ℕ) :=
  if request.1 = pushOp then
    some (toInt request.2, { q with
      cells := Function.update q.cells q.tailIndex request.2
      tailIndex := nextIndex n q.tailIndex })
  else
    some (toInt (q.cells q.headIndex), { q with headIndex := nextIndex n q.headIndex })

end Execution

def request (r : ℤ × ℕ) : Request ℕ := if r.1 = pushOp then .enq r.2 else .deq

theorem execute_eq (n : ℕ) (r : ℤ × ℕ) (q : Buffer ℕ) :
    execute n r q = some (toInt (q.step n (request r)).1, (q.step n (request r)).2) := by
  rw [execute, request]
  split
  · rfl
  · rfl

/-- The values that come out of either queue are those that have been put in, in the order of
service, whatever the order of the slots and however often the indices wrap around, as long as the
ring never gets full and nothing is taken out of an empty one. `ret_val` has them as an `int`. -/
theorem dequeued_eq_enqueued :
    (∀ (numHostThreads : ℕ) (slots : ℕ → PimQueue.RequestSlot) (found : List SinglePimQueue.Found)
      (q : Buffer ℕ),
      (∀ f ∈ found, f.operation ≠ 3) →
      Allowed fifo (Fits SinglePimQueue.maxIndex) []
        ((SinglePimQueue.requests numHostThreads found).map SinglePimQueue.request) →
      ∃ answers rest q',
        SinglePimQueue.session numHostThreads SinglePimQueue.maxIndex (⟨3, slots⟩ :: found) q =
          (answers, q') ∧
        Holds SinglePimQueue.maxIndex rest q' ∧
        dequeued ((SinglePimQueue.requests numHostThreads found).map SinglePimQueue.request)
          answers ++
            rest =
          enqueued ((SinglePimQueue.requests numHostThreads found).map SinglePimQueue.request)) ∧
    ∀ (τ : Type) [DecidableEq τ] (ps : List (Publication τ)) (operationTimestamp : ℤ)
      (cells : ℕ → ℕ),
      Allowed fifo (Fits maxIndex) [] ((ps.flatMap Publication.requests).map request) →
      ∃ answers rest q',
        Publication.passes (execute maxIndex) ps operationTimestamp ⟨0, 0, cells⟩ =
          some (answers, q') ∧
        Holds maxIndex rest q' ∧
        dequeued ((ps.flatMap Publication.requests).map request) answers ++ rest.map toInt =
          (enqueued ((ps.flatMap Publication.requests).map request)).map toInt := by
  constructor
  · intro numHostThreads slots found q hfound hallowed
    exact SinglePimQueue.session_fifo (by decide) hfound hallowed slots q
  · intro τ _ ps operationTimestamp cells hallowed
    obtain ⟨answers, rest, q', hserve, hholds, heq⟩ :=
      (holds_empty (by decide) cells).serveAll (fun r q _ _ => execute_eq maxIndex r q) hallowed
    exact ⟨answers, rest, q', Publication.passes_of_serveAll hserve operationTimestamp, hholds, heq⟩

/-- Two threads put 7 and 8 in, and two take a value out. -/
def enqDeqSlots (i : ℕ) : PimQueue.RequestSlot := ⟨if i < 2 then 0x8003 else 0x0003, 7 + i⟩

def pushPop : Publication ℕ where
  slots t := ⟨true, if t < 2 then pushOp else 1, 7 + t, 0, 0, true,
    if t < 3 then some (t + 1) else none⟩
  tailSlot := some 0
  published := [0, 1, 2, 3]
  chain := ⟨rfl, rfl, rfl, rfl, rfl⟩
  nodup := by decide

def rounds (k : ℕ) : List (Request ℕ) := (replicate k [.enq 7, .enq 8, .deq, .deq]).flatten

theorem rounds_succ (k : ℕ) : rounds (k + 1) = .enq 7 :: .enq 8 :: .deq :: .deq :: rounds k := rfl

theorem allowed_rounds {n : ℕ} (hn : 2 < n) (k : ℕ) : Allowed fifo (Fits n) [] (rounds k) := by
  induction k with
  | zero => exact allowed_nil _
  | succ k ih =>
    rw [rounds_succ]
    exact allowed_cons.mpr ⟨Nat.lt_of_succ_lt hn, allowed_cons.mpr ⟨hn, allowed_cons.mpr
      ⟨cons_ne_nil _ _, allowed_cons.mpr ⟨cons_ne_nil _ _, ih⟩⟩⟩⟩

theorem enqueued_rounds (k : ℕ) : enqueued (rounds k) = (replicate k [7, 8]).flatten := by
  induction k with
  | zero => rfl
  | succ k ih => exact congrArg (fun l => 7 :: 8 :: l) ih

theorem requests_rounds (k : ℕ) :
    (SinglePimQueue.requests 4 (replicate k ⟨1, enqDeqSlots⟩)).map SinglePimQueue.request =
      rounds k ∧
      ((replicate k pushPop).flatMap Publication.requests).map request = rounds k := by
  induction k with
  | zero => exact ⟨rfl, rfl⟩
  | succ k ih =>
    exact ⟨congrArg ([Request.enq 7, .enq 8, .deq, .deq] ++ ·) ih.1,
      congrArg ([Request.enq 7, .enq 8, .deq, .deq] ++ ·) ih.2⟩

/-- There are as many rounds as cells, so that the indices wrap around twice. -/
theorem dequeued_eq_enqueued_wrapping :
    (∃ answers rest q', SinglePimQueue.session 4 SinglePimQueue.maxIndex
        (⟨3, enqDeqSlots⟩ :: replicate SinglePimQueue.maxIndex ⟨1, enqDeqSlots⟩)
        ⟨5, 6, fun _ => 0⟩ = (answers, q') ∧
      Holds SinglePimQueue.maxIndex rest q' ∧
      dequeued (rounds SinglePimQueue.maxIndex) answers ++ rest =
        (replicate SinglePimQueue.maxIndex [7, 8]).flatten) ∧
    ∃ answers rest q', Publication.passes (execute maxIndex) (replicate maxIndex pushPop) 0
        ⟨0, 0, fun _ => 0⟩ = some (answers, q') ∧
      Holds maxIndex rest q' ∧ dequeued (rounds maxIndex) answers ++ rest.map toInt =
        ((replicate maxIndex [7, 8]).flatten).map toInt := by
  constructor
  · have h := dequeued_eq_enqueued.1 4 enqDeqSlots
      (replicate SinglePimQueue.maxIndex ⟨1, enqDeqSlots⟩) ⟨5, 6, fun _ => 0⟩
    rw [(requests_rounds _).1, enqueued_rounds] at h
    refine h (fun f hf => ?_) (allowed_rounds (by decide) _)
    rw [eq_of_mem_replicate hf]
    exact (by decide : 1 ≠ 3)
  · have h := dequeued_eq_enqueued.2 ℕ (replicate maxIndex pushPop) 0 (fun _ => 0)
    rw [(requests_rounds _).2, enqueued_rounds] at h
    exact h (allowed_rounds (by decide) _)

end SmcSim.FlatCombiningArray
