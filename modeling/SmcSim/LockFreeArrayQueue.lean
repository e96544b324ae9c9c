import SmcSim.Interleavings
import Mathlib.Data.List.Basic
import Mathlib.Data.Int.ModEq

/-!
# The lock-free array queue

`enq` and `deq` of `LFArrayQueue.h`. A thread reserves the next position of the ring by a
compare-and-swap on the index, and accesses the element afterwards. Reservations are numbered
in their order. A `deq` returns the value of the `enq` with its number along every run in
which nobody reserves a slot of the ring that is still to be accessed, and no slot is read
before it is written.
-/

namespace SmcSim.LockFreeArrayQueue
open Interleavings Function List Option

/-- Where a thread stands; `number` counts the reservations before its own. -/
inductive Pc where
  | idle
  | readTail (val : ℕ)
  | swapTail (val currIndex : ℕ)
  | write (val currIndex number : ℕ)
  | readHead
  | swapHead (currIndex : ℕ)
  | read (currIndex number : ℕ)
  deriving DecidableEq, Repr

/-- The shared variables and the threads, with the values of the enqueues in the order of their
reservations, the number of reservations of dequeues, and what dequeues have returned. -/
structure State (τ : Type) where
  headIndex : ℕ
  tailIndex : ℕ
  queueArray : ℕ → ℕ
  pcs : τ → Pc
  enqs : List ℕ
  deqs : ℕ
  returned : List (ℕ × ℕ)

variable {τ : Type}

/-- The array is not initialised. -/
def initial (memory : ℕ → ℕ) : State τ := ⟨0, 0, memory, fun _ => .idle, [], 0, []⟩

section Steps

variable [DecidableEq τ] (maxIndex : ℕ)

def nextIndex (x : ℕ) : ℕ := (x + 1) % maxIndex

def State.goto (s : State τ) (t : τ) (pc : Pc) : State τ :=
  { s with pcs := update s.pcs t pc }

inductive Label (τ : Type) where
  | enq (t : τ) (val : ℕ)
  | deq (t : τ)
  | run (t : τ)

def run (t : τ) (s : State τ) : Option (State τ) :=
  match s.pcs t with
  | .idle => none
  | .readTail val => some (s.goto t (.swapTail val s.tailIndex))
  | .swapTail val currIndex =>
      some (if s.tailIndex = currIndex then
          { s.goto t (.write val currIndex s.enqs.length) with
            tailIndex := nextIndex maxIndex currIndex
            enqs := s.enqs ++ [val] }
        else s.goto t (.readTail val))
  | .write val currIndex _ =>
      some { s.goto t .idle with queueArray := update s.queueArray currIndex val }
  | .readHead => some (s.goto t (.swapHead s.headIndex))
  | .swapHead currIndex =>
      some (if s.headIndex = currIndex then
          { s.goto t (.read currIndex s.deqs) with
            headIndex := nextIndex maxIndex currIndex
            deqs := s.deqs + 1 }
        else s.goto t .readHead)
  | .read currIndex number =>
      some { s.goto t .idle with returned := s.returned ++ [(number, s.queueArray currIndex)] }

def step (s : State τ) : Label τ → Option (State τ)
  | .enq t val => if s.pcs t = .idle then some (s.goto t (.readTail val)) else none
  | .deq t => if s.pcs t = .idle then some (s.goto t .readHead) else none
  | .run t => run maxIndex t s

/-- Each dequeue has returned the value of the enqueue with its number. -/
def ReturnsEnqueued (s : State τ) : Prop := ∀ r ∈ s.returned, s.enqs[r.1]? = some r.2

/-- The reservations stay within the bounds that the queue is made for. -/
def Bounded (s : State τ) (l : Label τ) : Prop :=
  ∀ s' ∈ step maxIndex s l, s'.deqs ≤ s'.enqs.length ∧ s'.enqs.length ≤ s'.deqs + (maxIndex - 1)

def Pc.uses : Pc → Option ℕ
  | .write _ currIndex _ | .read currIndex _ => some currIndex
  | _ => none

/-- The number of the element that the thread still has to write. -/
def Pc.writes : Pc → Option ℕ
  | .write _ _ number => some number
  | _ => none

/-- Nobody reserves a slot for an element that another thread still has to access, and no slot
is read before its element is written. -/
def Timely (s : State τ) : Label τ → Prop
  | .run t =>
      match s.pcs t with
      | .swapTail _ currIndex => s.tailIndex = currIndex → ∀ u, (s.pcs u).uses ≠ some currIndex
      | .read _ number => ∀ u, (s.pcs u).writes ≠ some number
      | _ => True
  | _ => True

end Steps

/-- The indices, the reservations that are not finished, and the elements of the last lap. -/
structure Ring (maxIndex : ℕ) (s : State τ) : Prop where
  tail : s.tailIndex = s.enqs.length % maxIndex
  head : s.headIndex = s.deqs % maxIndex
  bound : s.deqs ≤ s.enqs.length
  room : s.enqs.length ≤ s.deqs + (maxIndex - 1)
  write : ∀ t val i k, s.pcs t = .write val i k → i = k % maxIndex ∧ s.enqs[k]? = some val ∧
    s.enqs.length ≤ k + maxIndex
  read : ∀ t i k, s.pcs t = .read i k → i = k % maxIndex ∧ k < s.deqs ∧
    s.enqs.length ≤ k + maxIndex
  element : ∀ k v, s.enqs[k]? = some v → s.enqs.length ≤ k + maxIndex →
    (∀ t, (s.pcs t).writes ≠ some k) → s.queueArray (k % maxIndex) = v
  returned : ReturnsEnqueued s

theorem ring_initial (maxIndex : ℕ) (memory : ℕ → ℕ) :
    Ring maxIndex (initial memory : State τ) where
  tail := (Nat.zero_mod maxIndex).symm
  head := (Nat.zero_mod maxIndex).symm
  bound := Nat.le_refl 0
  room := Nat.zero_le _
  write t val i k h := by cases h
  read t i k h := by cases h
  element k v h := by cases h
  returned r hr := by cases hr

section Runs

variable [DecidableEq τ] {maxIndex : ℕ} {s s' : State τ} {t u : τ} {pc pc' : Pc}

theorem update_pc {f : τ → Pc} (h : update f t pc u = pc') :
    u = t ∧ pc = pc' ∨ u ≠ t ∧ f u = pc' := by
  by_cases hu : u = t
  · rw [hu, update_self] at h
    exact .inl ⟨hu, h⟩
  · rw [update_of_ne hu] at h
    exact .inr ⟨hu, h⟩

@[simp] theorem goto_pcs : (s.goto t pc).pcs = update s.pcs t pc := rfl

@[simp] theorem goto_deqs : (s.goto t pc).deqs = s.deqs := rfl

/-- Unless the thread was the writer, the element has no writer that it had not before. -/
theorem writes_ne_of_goto {k : ℕ} (hold : (s.pcs t).writes ≠ some k)
    (hnone : ∀ u, ((s.goto t pc).pcs u).writes ≠ some k) (u : τ) :
    (s.pcs u).writes ≠ some k := by
  by_cases hu : u = t
  · rw [hu]
    exact hold
  · have hother := hnone u
    rw [goto_pcs, update_of_ne hu] at hother
    exact hother

/-- Steps that access neither the indices nor the array. -/
theorem Ring.goto (h : Ring maxIndex s) (hold : (s.pcs t).writes = none)
    (hnew : pc.uses = none) : Ring maxIndex (s.goto t pc) := by
  refine ⟨h.tail, h.head, h.bound, h.room, fun u val i k hu => ?_, fun u i k hu => ?_,
    fun k v hk hlap hnone => ?_, h.returned⟩
  · rcases update_pc hu with ⟨-, rfl⟩ | ⟨-, hu⟩
    · cases hnew
    · exact h.write u val i k hu
  · rcases update_pc hu with ⟨-, rfl⟩ | ⟨-, hu⟩
    · cases hnew
    · exact h.read u i k hu
  · have hk' : (s.pcs t).writes ≠ some k := by simp [hold]
    exact h.element k v hk hlap (writes_ne_of_goto hk' hnone)

/-- A slot that nobody still has to access is not of the element reserved a lap ago. -/
theorem lt_lap {k n : ℕ} (hlap : n ≤ k + maxIndex) (hne : k % maxIndex ≠ n % maxIndex) :
    n + 1 ≤ k + maxIndex := by
  rcases Nat.lt_or_eq_of_le hlap with hlt | rfl
  · exact hlt
  · exact absurd (Nat.add_mod_right k maxIndex).symm hne

/-- Two elements of one lap have different slots. -/
theorem mod_ne_of_lap {j k n : ℕ} (hj : j < n) (hk : k < n) (hjlap : n ≤ j + maxIndex)
    (hklap : n ≤ k + maxIndex) (hne : j ≠ k) : j % maxIndex ≠ k % maxIndex := by
  intro hmod
  rcases Nat.lt_or_gt_of_ne hne with hlt | hlt
  · have hdvd : maxIndex ∣ k - j := (Nat.modEq_iff_dvd' hlt.le).mp hmod
    have hle := Nat.le_of_dvd (by omega) hdvd
    omega
  · have hdvd : maxIndex ∣ j - k := (Nat.modEq_iff_dvd' hlt.le).mp hmod.symm
    have hle := Nat.le_of_dvd (by omega) hdvd
    omega

theorem nextIndex_mod (n : ℕ) : nextIndex maxIndex (n % maxIndex) = (n + 1) % maxIndex :=
  Nat.mod_add_mod n maxIndex 1

section

variable (h : Ring maxIndex s)
include h

theorem Ring.reserveTail {val i : ℕ} (hpc : s.pcs t = .swapTail val i) (hswap : s.tailIndex = i)
    (hfree : ∀ u, (s.pcs u).uses ≠ some i) (hroom : s.enqs.length + 1 ≤ s.deqs + (maxIndex - 1)) :
    Ring maxIndex { s.goto t (.write val i s.enqs.length) with
      tailIndex := nextIndex maxIndex i
      enqs := s.enqs ++ [val] } := by
  have hi : i = s.enqs.length % maxIndex := hswap.symm.trans h.tail
  have hbound := h.bound
  refine ⟨?_, h.head, ?_, ?_, fun u v j k hu => ?_, fun u j k hu => ?_,
    fun k v hk hlap hnone => ?_, fun r hr => ?_⟩
  · simp [hi, nextIndex_mod]
  · simp only [length_append, length_singleton]
    exact Nat.le_succ_of_le hbound
  · simpa using hroom
  · simp only [length_append, length_singleton]
    rcases update_pc hu with ⟨-, hpc'⟩ | ⟨-, hu⟩
    · cases hpc'
      exact ⟨hi, by simp, by omega⟩
    · obtain ⟨rfl, hk, hlap⟩ := h.write u v j k hu
      have hne : k % maxIndex ≠ s.enqs.length % maxIndex := by
        intro heq
        exact hfree u (by rw [hu, hi, ← heq]; rfl)
      exact ⟨rfl, by rw [getElem?_append_left (List.getElem?_eq_some_iff.mp hk).1, hk],
        lt_lap hlap hne⟩
  · simp only [length_append, length_singleton]
    rcases update_pc hu with ⟨-, hpc'⟩ | ⟨-, hu⟩
    · cases hpc'
    · obtain ⟨rfl, hk, hlap⟩ := h.read u j k hu
      have hne : k % maxIndex ≠ s.enqs.length % maxIndex := by
        intro heq
        exact hfree u (by rw [hu, hi, ← heq]; rfl)
      exact ⟨rfl, hk, lt_lap hlap hne⟩
  · simp only [length_append, length_singleton] at hlap
    have hne : k ≠ s.enqs.length := by
      rintro rfl
      exact hnone t (by simp [State.goto, Pc.writes])
    have hlt : k < s.enqs.length := by
      have hlt := (List.getElem?_eq_some_iff.mp hk).1
      simp only [length_append, length_singleton] at hlt
      omega
    rw [getElem?_append_left hlt] at hk
    exact h.element k v hk (by omega) (writes_ne_of_goto (by simp [hpc, Pc.writes]) hnone)
  · have hk := h.returned r hr
    exact (getElem?_append_left (List.getElem?_eq_some_iff.mp hk).1).trans hk

theorem Ring.store {val i number : ℕ} (hpc : s.pcs t = .write val i number) :
    Ring maxIndex { s.goto t .idle with
      queueArray := update s.queueArray i val } := by
  obtain ⟨rfl, hnumber, hlap⟩ := h.write t val i number hpc
  refine ⟨h.tail, h.head, h.bound, h.room, fun u v j k hu => ?_, fun u j k hu => ?_,
    fun k v hk hklap hnone => ?_, h.returned⟩
  · rcases update_pc hu with ⟨-, hpc'⟩ | ⟨-, hu⟩
    · cases hpc'
    · exact h.write u v j k hu
  · rcases update_pc hu with ⟨-, hpc'⟩ | ⟨-, hu⟩
    · cases hpc'
    · exact h.read u j k hu
  · change update s.queueArray (number % maxIndex) val (k % maxIndex) = v
    by_cases heq : k = number
    · subst heq
      rw [update_self]
      exact some.inj (hnumber.symm.trans hk)
    · have hslot : k % maxIndex ≠ number % maxIndex :=
        mod_ne_of_lap (List.getElem?_eq_some_iff.mp hk).1
          (List.getElem?_eq_some_iff.mp hnumber).1 hklap hlap heq
      have hwriter : (s.pcs t).writes ≠ some k := by
        rw [hpc]
        exact fun h => heq (some.inj h).symm
      rw [update_of_ne hslot]
      exact h.element k v hk hklap (writes_ne_of_goto hwriter hnone)

theorem Ring.reserveHead {i : ℕ} (hpc : s.pcs t = .swapHead i) (hswap : s.headIndex = i)
    (hbound : s.deqs + 1 ≤ s.enqs.length) :
    Ring maxIndex { s.goto t (.read i s.deqs) with
      headIndex := nextIndex maxIndex i
      deqs := s.deqs + 1 } := by
  have hi : i = s.deqs % maxIndex := hswap.symm.trans h.head
  have hroom := h.room
  have hroom' : s.enqs.length ≤ s.deqs + 1 + (maxIndex - 1) := by omega
  refine ⟨h.tail, ?_, hbound, hroom', fun u v j k hu => ?_, fun u j k hu => ?_,
    fun k v hk hlap hnone => ?_, h.returned⟩
  · simp [hi, nextIndex_mod]
  · rcases update_pc hu with ⟨-, hpc'⟩ | ⟨-, hu⟩
    · cases hpc'
    · exact h.write u v j k hu
  · rcases update_pc hu with ⟨-, hpc'⟩ | ⟨-, hu⟩
    · cases hpc'
      exact ⟨hi, Nat.lt_succ_self _, by change s.enqs.length ≤ _; omega⟩
    · obtain ⟨hj, hk, hlap⟩ := h.read u j k hu
      exact ⟨hj, Nat.lt_succ_of_lt hk, hlap⟩
  · exact h.element k v hk hlap (writes_ne_of_goto (by simp [hpc, Pc.writes]) hnone)

theorem Ring.load {i number : ℕ} (hpc : s.pcs t = .read i number)
    (hwritten : ∀ u, (s.pcs u).writes ≠ some number) :
    Ring maxIndex { s.goto t .idle with
      returned := s.returned ++ [(number, s.queueArray i)] } := by
  obtain ⟨rfl, hnumber, hlap⟩ := h.read t i number hpc
  have hgoto : Ring maxIndex (s.goto t .idle) := h.goto (by rw [hpc]; rfl) rfl
  refine ⟨h.tail, h.head, h.bound, h.room, hgoto.write, hgoto.read, hgoto.element,
    fun r hr => ?_⟩
  rcases mem_append.mp hr with hr | hr
  · exact h.returned r hr
  · obtain rfl := mem_singleton.mp hr
    have hlt : number < s.enqs.length := lt_of_lt_of_le hnumber h.bound
    have hsome := getElem?_eq_getElem hlt
    exact hsome.trans (congrArg some (h.element number _ hsome hlap hwritten).symm)

theorem Ring.step {l : Label τ} (hbound : Bounded maxIndex s l) (htimely : Timely s l)
    (hstep : step maxIndex s l = some s') : Ring maxIndex s' := by
  have hbounds := hbound s' hstep
  cases l with
  | enq t val =>
    obtain ⟨hidle, rfl⟩ : s.pcs t = .idle ∧ s.goto t (.readTail val) = s' := by
      simpa [LockFreeArrayQueue.step] using hstep
    exact h.goto (by rw [hidle]; rfl) rfl
  | deq t =>
    obtain ⟨hidle, rfl⟩ : s.pcs t = .idle ∧ s.goto t .readHead = s' := by
      simpa [LockFreeArrayQueue.step] using hstep
    exact h.goto (by rw [hidle]; rfl) rfl
  | run t =>
    change run maxIndex t s = some s' at hstep
    cases hpc : s.pcs t with
    | idle =>
      simp only [run, hpc] at hstep
      cases hstep
    | readTail | readHead =>
      simp only [run, hpc, some.injEq] at hstep
      subst hstep
      exact h.goto (by rw [hpc]; rfl) rfl
    | swapTail val i =>
      simp only [run, hpc, some.injEq] at hstep
      simp only [Timely, hpc] at htimely
      split at hstep
      case isTrue hswap =>
        subst hstep
        refine h.reserveTail hpc hswap (htimely hswap) ?_
        simpa using hbounds.2
      case isFalse =>
        subst hstep
        exact h.goto (by rw [hpc]; rfl) rfl
    | write val i number =>
      simp only [run, hpc, some.injEq] at hstep
      subst hstep
      exact h.store hpc
    | swapHead i =>
      simp only [run, hpc, some.injEq] at hstep
      split at hstep
      case isTrue hswap =>
        subst hstep
        exact h.reserveHead hpc hswap hbounds.1
      case isFalse =>
        subst hstep
        exact h.goto (by rw [hpc]; rfl) rfl
    | read i number =>
      simp only [run, hpc, some.injEq] at hstep
      simp only [Timely, hpc] at htimely
      subst hstep
      exact h.load hpc htimely

end

/-- In every run within the bounds in which slots are reserved and read in time, each dequeue
returns the value of the enqueue that reserved the same position. -/
theorem returnsEnqueued_of_timely (memory : ℕ → ℕ)
    (h : Reached (step maxIndex) (fun s l => Bounded maxIndex s l ∧ Timely s l)
      (initial memory) s) : ReturnsEnqueued s := by
  have hring : Ring maxIndex s :=
    h.invariant (ring_initial maxIndex memory)
      (fun _ _ _ hring hok hstep => hring.step hok.1 hok.2 hstep)
  exact hring.returned

end Runs

def maxIndex : ℕ := 2097152

instance (maxIndex : ℕ) (s : State (Fin 3)) (l : Label (Fin 3)) :
    Decidable (Bounded maxIndex s l) :=
  inferInstanceAs (Decidable (∀ s' ∈ step maxIndex s l, _))

instance (s : State (Fin 3)) : (l : Label (Fin 3)) → Decidable (Timely s l)
  | .enq _ _ | .deq _ => isTrue trivial
  | .run t =>
      match h : s.pcs t with
      | .swapTail _ currIndex =>
          decidable_of_iff (s.tailIndex = currIndex → ∀ u, (s.pcs u).uses ≠ some currIndex)
            (by simp [Timely, h])
      | .read _ number =>
          decidable_of_iff (∀ u, (s.pcs u).writes ≠ some number) (by simp [Timely, h])
      | .idle | .readTail _ | .write _ _ _ | .readHead | .swapHead _ =>
          isTrue (by simp [Timely, h])

/-- One thread enqueues an element, another dequeues it. -/
theorem returnsEnqueued_enqDeq :
    ∃ s : State (Fin 3), s.returned = [(0, 5)] ∧ ReturnsEnqueued s := by
  have hrun : (runSchedule (guarded (step maxIndex)
      (fun s l => Bounded maxIndex s l ∧ Timely s l)) (initial (fun _ => 0) : State (Fin 3))
      (turns [(1, .enq 0 5), (3, .run 0), (1, .deq 1), (3, .run 1)])).map State.returned =
        some [(0, 5)] := by decide +kernel
  obtain ⟨s, hreached, hreturned⟩ := exists_of_runSchedule _ hrun
  exact ⟨s, hreturned, returnsEnqueued_of_timely (fun _ => 0) hreached⟩

/-- A dequeue reserves the position after an enqueue has, and reads the slot before the enqueue
writes it: it returns what the memory held. -/
theorem read_before_write : ∃ s : State (Fin 3),
    Reached (step maxIndex) (Bounded maxIndex) (initial (fun _ => 0)) s ∧
      s.enqs = [5] ∧ s.returned = [(0, 0)] ∧ ¬ ReturnsEnqueued s := by
  have hrun : (runSchedule (guarded (step maxIndex) (Bounded maxIndex))
      (initial (fun _ => 0) : State (Fin 3))
      (turns [(1, .enq 0 5), (2, .run 0), (1, .deq 1), (3, .run 1)])).map
        (fun s => (s.enqs, s.returned)) = some ([5], [(0, 0)]) := by decide +kernel
  obtain ⟨s, hreached, hs⟩ := exists_of_runSchedule _ hrun
  obtain ⟨henqs, hreturned⟩ := Prod.mk.inj hs
  refine ⟨s, hreached, henqs, hreturned, fun h => ?_⟩
  have hfirst := h (0, 0) (by simp [hreturned])
  rw [henqs] at hfirst
  simp at hfirst

/-- In a small ring a dequeue that is stalled before it reads finds the element of the next
lap, although no more than one element was ever outstanding. -/
example : ((runSchedule (guarded (step 2) (Bounded 2)) (initial (fun _ => 0))
    (turns [(1, .enq 0 7), (3, .run 0), (1, .deq 1), (2, .run 1), (1, .enq 0 8), (3, .run 0),
      (1, .deq 2), (3, .run 2), (1, .enq 0 9), (3, .run 0), (1, .run 1)]) :
        Option (State (Fin 3))).map (fun s => (s.enqs, s.returned))) =
      some ([7, 8, 9], [(1, 8), (0, 9)]) := by
  decide +kernel

end SmcSim.LockFreeArrayQueue
