import SmcSim.ByteMemory
import SmcSim.EffectPrograms
import SmcSim.Interleavings
import Mathlib.Logic.Function.Basic

/-!
# Programs beside a DMA engine

A program works on a main memory of words, whose locations are of any type, and on a scratchpad
of bytes. A DMA request moves words between the two: each word at its own moment, in any order,
at the latest when the program has waited for the resource of the request. A request for a
resource that is busy, or for no words, fails.

A verified program is read over worlds in which a request in flight keeps the memories since it was
made: until the program has waited for it nothing is known of the words that it brings, and then
each of them is one that the memory has held since. Such a program runs to its end whatever the
timing is.
-/

namespace SmcSim.DmaPrograms
open EffectPrograms Function

variable {Loc α : Type}

/-! ### Commands -/

inductive Op (Loc : Type) where
  | load (l : Loc)
  | store (l : Loc) (v : ℕ)
  /-- An operation that the memory carries out itself. -/
  | modify (l : Loc) (f : ℕ → ℕ)
  | loadSpm (a : ℕ)
  /-- The program takes the word for a copy of `l`. -/
  | loadCopy (a : ℕ) (l : Loc)
  | storeSpm (a v : ℕ)
  | dmaRead (ls : List Loc) (a res : ℕ)
  | dmaWrite (ls : List Loc) (a res : ℕ)
  | dmaWait (rs : List ℕ)

@[reducible] def Res : Op Loc → Type
  | .load _ => ℕ
  | .loadSpm _ => ℕ
  | .loadCopy _ _ => ℕ
  | _ => Unit

abbrev DmaProg (Loc α : Type) := Prog (Op Loc) Res α

def load (l : Loc) : DmaProg Loc ℕ := .call (.load l) .ret
def store (l : Loc) (v : ℕ) : DmaProg Loc Unit := .call (.store l v) .ret
def modify (l : Loc) (f : ℕ → ℕ) : DmaProg Loc Unit := .call (.modify l f) .ret
def loadSpm (a : ℕ) : DmaProg Loc ℕ := .call (.loadSpm a) .ret
def loadCopy (a : ℕ) (l : Loc) : DmaProg Loc ℕ := .call (.loadCopy a l) .ret
def storeSpm (a v : ℕ) : DmaProg Loc Unit := .call (.storeSpm a v) .ret
def dmaRead (ls : List Loc) (a res : ℕ) : DmaProg Loc Unit := .call (.dmaRead ls a res) .ret
def dmaWrite (ls : List Loc) (a res : ℕ) : DmaProg Loc Unit := .call (.dmaWrite ls a res) .ret
def dmaWait (rs : List ℕ) : DmaProg Loc Unit := .call (.dmaWait rs) .ret

/-! ### The machine -/

/-- A request; `left` are the words that have not been moved, each with its scratchpad address. -/
structure Transfer (Loc : Type) where
  res : ℕ
  toSpm : Bool
  left : List (Loc × ℕ)
  locations : List Loc

structure State (Loc : Type) where
  mem : Loc → ℕ
  spm : ℕ → ℕ
  transfers : List (Transfer Loc)
  /-- The locations of every request that has been made. -/
  requested : List (List Loc)

/-- The words of a request lie one behind the other in the scratchpad. -/
def words : List Loc → ℕ → List (Loc × ℕ)
  | [], _ => []
  | l :: ls, a => (l, a) :: words ls (a + 4)

inductive Outcome (β σ : Type) where
  | answer (r : β) (s : σ)
  | blocked
  | failed

def State.Busy (s : State Loc) (res : ℕ) : Prop := ∃ t ∈ s.transfers, t.res = res ∧ t.left ≠ []

instance (s : State Loc) (res : ℕ) : Decidable (s.Busy res) :=
  decidable_of_iff (s.transfers.any (fun t => t.res = res && !t.left.isEmpty) = true) (by
    simp [State.Busy])

def State.request (s : State Loc) (toSpm : Bool) (ls : List Loc) (a res : ℕ) :
    Outcome Unit (State Loc) :=
  if ls.isEmpty ∨ s.Busy res then .failed
  else .answer () { s with
    transfers := ⟨res, toSpm, words ls a, ls⟩ :: s.transfers.filter (fun t => t.res ≠ res)
    requested := s.requested ++ [ls] }

def State.wait (s : State Loc) (rs : List ℕ) : Outcome Unit (State Loc) :=
  if ∃ r ∈ rs, s.Busy r then .blocked
  else .answer () { s with transfers := s.transfers.filter (fun t => t.res ∉ rs) }

def handle [DecidableEq Loc] : (o : Op Loc) → State Loc → Outcome (Res o) (State Loc)
  | .load l, s => .answer (s.mem l) s
  | .store l v, s => .answer () { s with mem := update s.mem l v }
  | .modify l f, s => .answer () { s with mem := update s.mem l (f (s.mem l)) }
  | .loadSpm a, s => .answer (ByteMemory.load s.spm a) s
  | .loadCopy a _, s => .answer (ByteMemory.load s.spm a) s
  | .storeSpm a v, s => .answer () { s with spm := ByteMemory.store s.spm a v }
  | .dmaRead ls a res, s => s.request true ls a res
  | .dmaWrite ls a res, s => s.request false ls a res
  | .dmaWait rs, s => s.wait rs

/-- Word `j` of those that request `i` has not moved. -/
def State.copy [DecidableEq Loc] (s : State Loc) (i j : ℕ) : Option (State Loc) :=
  s.transfers[i]?.bind (fun t => t.left[j]?.map (fun x =>
    let s' := if t.toSpm then { s with spm := ByteMemory.store s.spm x.2 (s.mem x.1) }
      else { s with mem := update s.mem x.1 (ByteMemory.load s.spm x.2) }
    { s' with transfers := s.transfers.set i { t with left := t.left.eraseIdx j } }))

structure Machine (Loc α : Type) where
  prog : DmaProg Loc α
  state : State Loc

inductive Event where
  | kernel
  | copy (i j : ℕ)
  deriving DecidableEq, Repr

def step [DecidableEq Loc] (m : Machine Loc α) : Event → Option (Machine Loc α)
  | .kernel =>
      match m.prog with
      | .call o k =>
          match handle o m.state with
          | .answer r s => some ⟨k r, s⟩
          | .blocked => none
          | .failed => some ⟨.stuck, m.state⟩
      | _ => none
  | .copy i j => (m.state.copy i j).map (fun s => { m with state := s })

def Machine.answer (m : Machine Loc α) : Option α :=
  match m.prog with
  | .ret a => some a
  | _ => none

theorem Machine.ret_of_answer {m : Machine Loc α} {a : α} (h : m.answer = some a) :
    m.prog = .ret a := by
  rw [answer] at h
  split at h
  · next hret => exact hret.trans (congrArg Prog.ret (Option.some.inj h))
  · cases h

def start (p : DmaProg Loc α) (mem : Loc → ℕ) (spm : ℕ → ℕ) : Machine Loc α :=
  ⟨p, ⟨mem, spm, [], []⟩⟩

end SmcSim.DmaPrograms
