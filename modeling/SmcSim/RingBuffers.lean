import SmcSim.RequestServers
import Mathlib.Data.Nat.ModEq

/-!
# Ring buffers

A queue in an array: elements are stored at the tail and taken from the head, and both indices go
back to 0 behind the last cell. The number of the elements is not stored, so equal indices have to
mean that there is none, and a buffer never holds as many elements as it has cells.
-/

namespace SmcSim.RingBuffers
open RequestServers List Function Option

variable {α β : Type}

inductive Request (α : Type) where
  | enq (x : α)
  | deq
  deriving DecidableEq, Repr

/-- An `enq` is answered with its element. -/
def fifo : List α → Request α → Option α × List α
  | l, .enq x => (some x, l ++ [x])
  | l, .deq => (l.head?, l.tail)

def Fits (n : ℕ) (l : List α) : Request α → Prop
  | .enq _ => l.length + 1 < n
  | .deq => l ≠ []

instance (n : ℕ) (l : List α) (r : Request α) : Decidable (Fits n l r) :=
  match r, l with
  | .enq _, l => inferInstanceAs (Decidable (l.length + 1 < n))
  | .deq, [] => isFalse (fun h => h rfl)
  | .deq, _ :: _ => isTrue (cons_ne_nil _ _)

/-! ### What goes in and what comes out -/

def enqueued : List (Request α) → List α
  | [] => []
  | .enq x :: rs => x :: enqueued rs
  | .deq :: rs => enqueued rs

/-- The answers to the `deq`. -/
def dequeued : List (Request α) → List β → List β
  | .deq :: rs, a :: as => a :: dequeued rs as
  | .enq _ :: rs, _ :: as => dequeued rs as
  | _, _ => []

/-! ### The buffer -/

structure Buffer (α : Type) where
  headIndex : ℕ
  tailIndex : ℕ
  cells : ℕ → α

/-- One request to a buffer of `n` cells. -/
def Buffer.step (n : ℕ) (q : Buffer α) : Request α → α × Buffer α
  | .enq x =>
      (x, { q with
        cells := update q.cells q.tailIndex x
        tailIndex := (q.tailIndex + 1) % n })
  | .deq => (q.cells q.headIndex, { q with headIndex := (q.headIndex + 1) % n })

structure Holds (n : ℕ) (l : List α) (q : Buffer α) : Prop where
  head_lt : q.headIndex < n
  length_lt : l.length < n
  tail : q.tailIndex = (q.headIndex + l.length) % n
  cells : ∀ i x, l[i]? = some x → q.cells ((q.headIndex + i) % n) = x

variable {n : ℕ} {l : List α} {q : Buffer α}

theorem holds_empty (hn : 0 < n) (cells : ℕ → α) : Holds n [] ⟨0, 0, cells⟩ where
  head_lt := hn
  length_lt := hn
  tail := (Nat.zero_mod n).symm
  cells i x hi := by simp at hi

theorem Holds.tail_lt (h : Holds n l q) : q.tailIndex < n :=
  h.tail ▸ Nat.mod_lt _ (Nat.zero_lt_of_lt h.head_lt)

/-- Cells of the buffer at different distances behind the head are different. -/
theorem ne_of_distance {head i j : ℕ} (hi : i < n) (hj : j < n) (hne : i ≠ j) :
    (head + i) % n ≠ (head + j) % n := by
  intro heq
  have hcancel : i % n = j % n := Nat.ModEq.add_left_cancel' head heq
  rw [Nat.mod_eq_of_lt hi, Nat.mod_eq_of_lt hj] at hcancel
  exact hne hcancel

theorem Holds.enq (h : Holds n l q) (x : α) (hfits : l.length + 1 < n) :
    Holds n (l ++ [x]) (q.step n (.enq x)).2 where
  head_lt := h.head_lt
  length_lt := by rwa [length_append]
  tail := by
    change (q.tailIndex + 1) % n = _
    rw [h.tail, Nat.mod_add_mod, length_append, ← add_assoc]
    rfl
  cells i y hi := by
    change update q.cells q.tailIndex x ((q.headIndex + i) % n) = y
    rcases lt_trichotomy i l.length with hlt | rfl | hgt
    · rw [getElem?_append_left hlt] at hi
      rw [h.tail, update_of_ne (ne_of_distance (by omega) h.length_lt (by omega))]
      exact h.cells i y hi
    · rw [getElem?_concat_length] at hi
      rw [h.tail, update_self]
      exact some.inj hi
    · rw [getElem?_eq_none (by rw [length_append]; exact hgt)] at hi
      cases hi

theorem Holds.deq {x : α} (h : Holds n (x :: l) q) :
    (q.step n .deq).1 = x ∧ Holds n l (q.step n .deq).2 := by
  have hnext : ∀ i, ((q.headIndex + 1) % n + i) % n = (q.headIndex + (i + 1)) % n := by
    intro i
    rw [Nat.mod_add_mod, add_assoc, add_comm 1 i]
  refine ⟨?_, ⟨Nat.mod_lt _ (Nat.zero_lt_of_lt h.head_lt), Nat.lt_of_succ_lt h.length_lt, ?_, ?_⟩⟩
  · have hfirst := h.cells 0 x rfl
    rwa [add_zero, Nat.mod_eq_of_lt h.head_lt] at hfirst
  · exact h.tail.trans (hnext l.length).symm
  · intro i y hi
    change q.cells (((q.headIndex + 1) % n + i) % n) = y
    rw [hnext]
    exact h.cells (i + 1) y hi

/-- A buffer with room for its elements is a queue. -/
theorem Holds.step (h : Holds n l q) {r : Request α} (hfits : Fits n l r) :
    (fifo l r).1 = some (q.step n r).1 ∧ Holds n (fifo l r).2 (q.step n r).2 := by
  cases r with
  | enq x => exact ⟨rfl, h.enq x hfits⟩
  | deq =>
    cases l with
    | nil => exact absurd rfl hfits
    | cons x l =>
      obtain ⟨hvalue, hrest⟩ := h.deq
      exact ⟨congrArg some hvalue.symm, hrest⟩

/-- What comes out of a server that works on a ring, and what is left in it, is what has been put
in, in the same order. -/
theorem Holds.serveAll {ρ : Type} {serve : ρ → Buffer α → Option (β × Buffer α)}
    {request : ρ → Request α} {encode : α → β}
    (hserve : ∀ r q, q.headIndex < n → q.tailIndex < n →
      serve r q = some (encode (q.step n (request r)).1, (q.step n (request r)).2))
    {rs : List ρ} (h : Holds n l q) (hallowed : Allowed fifo (Fits n) l (rs.map request)) :
    ∃ as rest q', serveAll serve rs q = some (as, q') ∧ Holds n rest q' ∧
      dequeued (rs.map request) as ++ rest.map encode =
        (l ++ enqueued (rs.map request)).map encode := by
  induction rs generalizing l q with
  | nil => exact ⟨[], l, q, rfl, h, by simp [dequeued, enqueued]⟩
  | cons r rs ih =>
    obtain ⟨hfits, hrest⟩ := allowed_cons.mp hallowed
    obtain ⟨hanswer, hnext⟩ := h.step hfits
    obtain ⟨as, rest, q', hall, hholds, heq⟩ := ih hnext hrest
    have hfirst := hserve r q h.head_lt h.tail_lt
    refine ⟨_, rest, q', by rw [serveAll_cons, hfirst, bind_some, hall, map_some], hholds, ?_⟩
    rw [map_cons]
    cases hr : request r with
    | enq x =>
      rw [hr, fifo, append_assoc] at heq
      exact heq
    | deq =>
      rw [hr] at heq hanswer
      cases l with
      | nil => cases hanswer
      | cons x l =>
        cases hanswer
        exact congrArg (encode _ :: ·) heq

end SmcSim.RingBuffers
