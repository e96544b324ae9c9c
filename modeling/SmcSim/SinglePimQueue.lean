import SmcSim.QueueKernel
import SmcSim.RingBuffers

/-!
# The queue of a single PIM

`singlepim_queue.c`, with the request slots of the partitioned queue. All elements are in one
segment, which is used as a ring, and one kernel serves both operations. In every round it looks at
each slot once; meanwhile the host may write the other slots, so a round is given the slots as they
are when the kernel comes to them.
-/

namespace SmcSim.SinglePimQueue
open PimQueue RingBuffers RequestServers Function List Option

def maxIndex : ℕ := 33554432

/-- Not 0 for an enqueue. -/
def extractOp (infobits : BitVec 16) : BitVec 16 := infobits &&& 0x8000

section Kernel

variable (n : ℕ)

/-- The index behind an index of a segment of `n` items. -/
def advance (index : ℕ) : ℕ := if index + 1 ≥ n then 0 else index + 1

def serve (slot : RequestSlot) (q : Buffer ℕ) : RequestSlot × Buffer ℕ :=
  if extractOp slot.infoBits = 0 then
    (⟨clearRequest slot.infoBits, q.cells q.headIndex⟩,
      { q with headIndex := advance n q.headIndex })
  else
    ({ slot with infoBits := clearRequest slot.infoBits },
      { q with
        cells := update q.cells q.tailIndex slot.parameter
        tailIndex := advance n q.tailIndex })

/-- The loop over the slots, for `count` slots from `i` on. -/
def sweep : ℕ → ℕ → (ℕ → RequestSlot) → Buffer ℕ → (ℕ → RequestSlot) × Buffer ℕ
  | 0, _, slots, q => (slots, q)
  | count + 1, i, slots, q =>
      if checkValidRequest (slots i).infoBits = 0 then sweep count (i + 1) slots q
      else
        let x := serve n (slots i) q
        sweep count (i + 1) (update slots i x.1) x.2

structure Machine where
  operation : ℕ
  requestSlots : ℕ → RequestSlot
  queue : Buffer ℕ

/-- One iteration of `execute_kernel`, which ends when `PIM_SREG[0]` is 0. -/
def iteration (numHostThreads : ℕ) (m : Machine) : Option Machine :=
  if m.operation = 3 then
    some { m with queue := { m.queue with headIndex := 0, tailIndex := 0 }, operation := 0 }
  else if m.operation = 1 then
    let x := sweep n numHostThreads 0 m.requestSlots m.queue
    some { m with requestSlots := x.1, queue := x.2 }
  else if m.operation = 4 then some { m with operation := 0 }
  else if m.operation = 0 then none
  else some m

end Kernel

/-! ### Sweeps -/

/-- The slots with a request, of `count` slots from `i` on. -/
def valid (slots : ℕ → RequestSlot) (i count : ℕ) : List ℕ :=
  (List.range' i count).filter (fun j => checkValidRequest (slots j).infoBits ≠ 0)

def request (slot : RequestSlot) : Request ℕ :=
  if extractOp slot.infoBits = 0 then .deq else .enq slot.parameter

def respond (n : ℕ) (slot : RequestSlot) (q : Buffer ℕ) : Option (ℕ × Buffer ℕ) :=
  some ((serve n slot q).1.parameter, (serve n slot q).2)

theorem advance_eq {n index : ℕ} (h : index < n) : advance n index = (index + 1) % n := by
  rw [advance]
  split
  · next hge =>
    rw [show index + 1 = n by omega, Nat.mod_self]
  · next hlt => exact (Nat.mod_eq_of_lt (by omega)).symm

theorem respond_eq (n : ℕ) (slot : RequestSlot) (q : Buffer ℕ) (hhead : q.headIndex < n)
    (htail : q.tailIndex < n) :
    respond n slot q = some ((q.step n (request slot)).1, (q.step n (request slot)).2) := by
  rw [respond, serve, request]
  split
  · rw [advance_eq hhead]
    rfl
  · rw [advance_eq htail]
    rfl

private theorem valid_succ (slots : ℕ → RequestSlot) (i count : ℕ) :
    valid slots i (count + 1) =
      if checkValidRequest (slots i).infoBits = 0 then valid slots (i + 1) count
      else i :: valid slots (i + 1) count := by
  rw [valid, range'_succ, filter_cons]
  split
  · next h => rw [if_neg (of_decide_eq_true h)]; rfl
  · next h => rw [if_pos (by simpa using h)]; rfl

private theorem sweep_below (n : ℕ) {i j count : ℕ} (hj : j < i) (slots : ℕ → RequestSlot)
    (q : Buffer ℕ) : (sweep n count i slots q).1 j = slots j := by
  induction count generalizing i slots q with
  | zero => rfl
  | succ count ih =>
    rw [sweep]
    split
    · exact ih (by omega) slots q
    · exact (ih (by omega) _ _).trans (update_of_ne (by omega) _ _)

theorem serveAll_sweep (n count i : ℕ) (slots : ℕ → RequestSlot) (q : Buffer ℕ) :
    serveAll (respond n) ((valid slots i count).map slots) q =
      some ((valid slots i count).map (fun j => ((sweep n count i slots q).1 j).parameter),
        (sweep n count i slots q).2) := by
  induction count generalizing i slots q with
  | zero => rfl
  | succ count ih =>
    rw [valid_succ, sweep]
    split
    · exact ih (i + 1) slots q
    · -- the other slots are as they were
      have hothers : ∀ j, i + 1 ≤ j → update slots i (serve n (slots i) q).1 j = slots j :=
        fun j hj => update_of_ne (by omega) _ _
      have hvalid : valid (update slots i (serve n (slots i) q).1) (i + 1) count =
          valid slots (i + 1) count := by
        refine filter_congr (fun j hj => ?_)
        rw [hothers j (mem_range'_1.mp hj).1]
      have hmap : (valid slots (i + 1) count).map (update slots i (serve n (slots i) q).1) =
          (valid slots (i + 1) count).map slots := by
        refine map_congr_left (fun j hj => hothers j ?_)
        exact (mem_range'_1.mp (mem_of_mem_filter hj)).1
      have hrest := ih (i + 1) (update slots i (serve n (slots i) q).1) (serve n (slots i) q).2
      rw [hvalid, hmap] at hrest
      rw [map_cons, map_cons, serveAll_cons, respond, bind_some, hrest, map_some,
        sweep_below n (Nat.lt_succ_self i), update_self]

/-! ### Sessions -/

/-- What the kernel finds in `PIM_SREG[0]` and in the slots in one iteration. -/
structure Found where
  operation : ℕ
  requestSlots : ℕ → RequestSlot

section Sessions

variable (numHostThreads : ℕ)

def Found.served (f : Found) : List ℕ :=
  if f.operation = 1 then valid f.requestSlots 0 numHostThreads else []

def requests (found : List Found) : List RequestSlot :=
  found.flatMap (fun f => (f.served numHostThreads).map f.requestSlots)

/-- The iterations of a session, in which the kernel may return and be started again. The answers
are the parameters of the slots that have been served. -/
def session (n : ℕ) : List Found → Buffer ℕ → List ℕ × Buffer ℕ
  | [], q => ([], q)
  | f :: found, q =>
      match iteration n numHostThreads ⟨f.operation, f.requestSlots, q⟩ with
      | none => session n found q
      | some m =>
          let rest := session n found m.queue
          ((f.served numHostThreads).map (fun i => (m.requestSlots i).parameter) ++ rest.1, rest.2)

variable {numHostThreads}

private theorem iteration_serving {n : ℕ} {m : Machine} (h : m.operation = 1) :
    iteration n numHostThreads m = some { m with
      requestSlots := (sweep n numHostThreads 0 m.requestSlots m.queue).1
      queue := (sweep n numHostThreads 0 m.requestSlots m.queue).2 } := by
  rw [iteration, if_neg (by rw [h]; decide), if_pos h]

/-- Without a command to initialise or to serve, the queue is left alone. -/
private theorem iteration_idle {n : ℕ} {m m' : Machine} (hinit : m.operation ≠ 3)
    (hserving : m.operation ≠ 1) (h : iteration n numHostThreads m = some m') :
    m'.queue = m.queue := by
  rw [iteration, if_neg hinit, if_neg hserving] at h
  split at h
  · cases h
    rfl
  · split at h
    · cases h
    · cases h
      rfl

theorem session_of_serveAll {n : ℕ} {found : List Found} (hfound : ∀ f ∈ found, f.operation ≠ 3)
    {q q' : Buffer ℕ} {answers : List ℕ}
    (hserve : serveAll (respond n) (requests numHostThreads found) q = some (answers, q')) :
    session numHostThreads n found q = (answers, q') := by
  induction found generalizing q answers with
  | nil =>
    cases hserve
    rfl
  | cons f found ih =>
    have hnext : ∀ g ∈ found, g.operation ≠ 3 := fun g hg => hfound g (mem_cons_of_mem _ hg)
    rw [requests, flatMap_cons] at hserve
    by_cases hserving : f.operation = 1
    · rw [Found.served, if_pos hserving, serveAll_append, serveAll_sweep, bind_some] at hserve
      obtain ⟨⟨others, q₂⟩, hothers, heq⟩ := map_eq_some_iff.mp hserve
      obtain ⟨rfl, rfl⟩ := Prod.mk.inj heq
      rw [session, iteration_serving hserving, Found.served, if_pos hserving]
      dsimp only
      rw [ih hnext hothers]
    · rw [Found.served, if_neg hserving] at hserve
      have hrest := ih hnext hserve
      rw [session]
      split
      · exact hrest
      · next m hm =>
        have hqueue : m.queue = q := iteration_idle (hfound f mem_cons_self) hserving hm
        rw [Found.served, if_neg hserving, hqueue, hrest]
        rfl

/-- A session that starts with INIT. -/
theorem session_fifo {n : ℕ} (hn : 0 < n) {found : List Found}
    (hfound : ∀ f ∈ found, f.operation ≠ 3)
    (hallowed : Allowed fifo (Fits n) [] ((requests numHostThreads found).map request))
    (slots : ℕ → RequestSlot) (q : Buffer ℕ) :
    ∃ answers rest q', session numHostThreads n (⟨3, slots⟩ :: found) q = (answers, q') ∧
      Holds n rest q' ∧
      dequeued ((requests numHostThreads found).map request) answers ++ rest =
        enqueued ((requests numHostThreads found).map request) := by
  have hrespond : ∀ slot (q : Buffer ℕ), q.headIndex < n → q.tailIndex < n →
      respond n slot q = some (id (q.step n (request slot)).1, (q.step n (request slot)).2) :=
    respond_eq n
  obtain ⟨answers, rest, q', hserve, hholds, heq⟩ :=
    (holds_empty hn q.cells).serveAll hrespond hallowed
  rw [List.map_id, List.map_id, nil_append] at heq
  refine ⟨answers, rest, q', ?_, hholds, heq⟩
  rw [session]
  exact session_of_serveAll hfound hserve

end Sessions

end SmcSim.SinglePimQueue
