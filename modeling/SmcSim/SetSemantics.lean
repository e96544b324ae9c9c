import Mathlib.Data.Finset.Card
import SmcSim.RequestServers

/-!
# Finite sets under contains, add and remove

The abstract object behind the PIM lists: a finite set of keys answering three
operations. A bounded set also has a supply of room; an addition that finds no room
is refused, and a removal gives its room back.
-/

namespace SmcSim.SetSemantics
open RequestServers List

inductive Operation where
  | contains | add | remove
  deriving DecidableEq, Repr

variable {κ : Type} [DecidableEq κ]

def applySet (s : Finset κ) : Operation → κ → Bool × Finset κ
  | .contains, k => (decide (k ∈ s), s)
  | .add, k => (decide (k ∉ s), insert k s)
  | .remove, k => (decide (k ∈ s), s.erase k)

def applySetAll (s : Finset κ) (reqs : List (Operation × κ)) : List Bool × Finset κ :=
  answerAll (fun s r => applySet s r.1 r.2) s reqs

def additions (s : Finset κ) : List (Operation × κ) → ℕ
  | [] => 0
  | (op, k) :: reqs =>
      (if op = .add ∧ k ∉ s then 1 else 0) + additions (applySet s op k).2 reqs

structure BoundedSet (κ : Type) where
  keys : Finset κ
  room : ℕ

namespace BoundedSet

def apply (s : BoundedSet κ) : Operation → κ → Bool × BoundedSet κ
  | .contains, k => (decide (k ∈ s.keys), s)
  | .add, k =>
      if k ∈ s.keys ∨ s.room = 0 then (false, s) else (true, ⟨insert k s.keys, s.room - 1⟩)
  | .remove, k =>
      if k ∈ s.keys then (true, ⟨s.keys.erase k, s.room + 1⟩) else (false, s)

/-- Answers to a sequence of requests, and the bounded set afterwards. -/
def applyAll (s : BoundedSet κ) : List (Operation × κ) → List Bool × BoundedSet κ
  | [] => ([], s)
  | (op, k) :: reqs =>
      let r := s.apply op k
      let rest := r.2.applyAll reqs
      (r.1 :: rest.1, rest.2)

@[simp] theorem applyAll_nil (s : BoundedSet κ) : s.applyAll [] = ([], s) := rfl

@[simp] theorem applyAll_cons (s : BoundedSet κ) (op : Operation) (k : κ)
    (reqs : List (Operation × κ)) :
    s.applyAll ((op, k) :: reqs) =
      ((s.apply op k).1 :: ((s.apply op k).2.applyAll reqs).1,
        ((s.apply op k).2.applyAll reqs).2) := rfl

@[simp] theorem length_applyAll (s : BoundedSet κ) (reqs : List (Operation × κ)) :
    (s.applyAll reqs).1.length = reqs.length := by
  induction reqs generalizing s with
  | nil => rfl
  | cons r reqs ih =>
    obtain ⟨op, k⟩ := r
    simp [ih]

/-- A set that answers by `step` and has room, which the addition of a new key takes and
nothing gives back. -/
def spend (step : Finset κ → Operation → κ → Bool × Finset κ) (s : BoundedSet κ) (op : Operation)
    (k : κ) : Bool × BoundedSet κ :=
  ((step s.keys op k).1,
    ⟨(step s.keys op k).2, if op = .add ∧ k ∉ s.keys then s.room - 1 else s.room⟩)

theorem spend_contains (s : BoundedSet κ) (k : κ) :
    s.spend applySet .contains k = (decide (k ∈ s.keys), s) := by simp [spend, applySet]

variable {s : BoundedSet κ}

theorem spend_add_of_mem {k : κ} (hk : k ∈ s.keys) :
    s.spend applySet .add k = (false, s) := by simp [spend, applySet, hk]

theorem spend_add_of_notMem {k : κ} (hk : k ∉ s.keys) :
    s.spend applySet .add k = (true, ⟨insert k s.keys, s.room - 1⟩) := by
  simp [spend, applySet, hk]

theorem spend_remove_of_mem {k : κ} (hk : k ∈ s.keys) :
    s.spend applySet .remove k = (true, ⟨s.keys.erase k, s.room⟩) := by
  simp [spend, applySet, hk]

theorem spend_remove_of_notMem {k : κ} (hk : k ∉ s.keys) :
    s.spend applySet .remove k = (false, s) := by simp [spend, applySet, hk]

def HasRoom (s : BoundedSet κ) (op : Operation) (k : κ) : Prop :=
  op = .add → k ∉ s.keys → 0 < s.room

theorem allowed_of_additions_le {reqs : List (Operation × κ)} (h : additions s.keys reqs ≤ s.room) :
    Allowed (fun s r => spend applySet s r.1 r.2) (fun s r => HasRoom s r.1 r.2) s reqs := by
  induction reqs generalizing s with
  | nil => exact allowed_nil s
  | cons r reqs ih =>
    obtain ⟨op, k⟩ := r
    simp only [additions] at h
    refine allowed_cons.mpr ⟨?_, ih ?_⟩
    · intro hop hk
      rw [if_pos ⟨hop, hk⟩] at h
      omega
    · by_cases hnew : op = .add ∧ k ∉ s.keys
      · rw [if_pos hnew] at h
        simp only [spend, if_pos hnew]
        omega
      · rw [if_neg hnew] at h
        simp only [spend, if_neg hnew]
        omega

end BoundedSet

/-! ### A set that never forgets -/

/-- Removals are answered, and the key stays. -/
def retainSet (s : Finset κ) : Operation → κ → Bool × Finset κ
  | .contains, k => (decide (k ∈ s), s)
  | .add, k => (decide (k ∉ s), insert k s)
  | .remove, k => (decide (k ∈ s), s)

section Retained

variable {d r : Finset κ} {k : κ}

/-- The requests on a key that lead from a set `d`, and a set `r` that has forgotten
nothing, to disagreement about the key. -/
def pending (d r : Finset κ) (k : κ) : List Operation :=
  if k ∈ d then [.remove] else if k ∈ r then [] else [.add, .remove]

/-- Among the requests, the key is asked for after only `r` has it. -/
def DisagreeOn (d r : Finset κ) (k : κ) (reqs : List (Operation × κ)) : Prop :=
  ∃ op, ((pending d r k).map (fun op => (op, k)) ++ [(op, k)]).Sublist reqs

theorem disagreeOn_cons_other {k' : κ} (hk : k' ≠ k) (op : Operation)
    (reqs : List (Operation × κ)) :
    DisagreeOn d r k' ((op, k) :: reqs) ↔
      DisagreeOn (applySet d op k).2 (retainSet r op k).2 k' reqs := by
  have hd : k' ∈ (applySet d op k).2 ↔ k' ∈ d := by cases op <;> simp [applySet, hk]
  have hr : k' ∈ (retainSet r op k).2 ↔ k' ∈ r := by cases op <;> simp [retainSet, hk]
  have hskip : ∀ o xs, ((o, k') :: xs).Sublist ((op, k) :: reqs) ↔
      ((o, k') :: xs).Sublist reqs := by
    intro o xs
    rw [cons_sublist_cons']
    simp [hk]
  unfold DisagreeOn
  simp only [pending, hd, hr]
  refine exists_congr (fun o => ?_)
  cases (if k' ∈ d then [Operation.remove] else if k' ∈ r then [] else [.add, .remove]) with
  | nil => exact hskip o []
  | cons p ps => exact hskip p _

theorem disagreeOn_cons_same (hsub : d ⊆ r) (op : Operation) (reqs : List (Operation × κ)) :
    DisagreeOn d r k ((op, k) :: reqs) ↔
      (k ∈ r ∧ k ∉ d) ∨ DisagreeOn (applySet d op k).2 (retainSet r op k).2 k reqs := by
  by_cases hd : k ∈ d
  · have hr : k ∈ r := hsub hd
    cases op with
    | contains | add => simp [DisagreeOn, pending, applySet, hd, cons_sublist_cons']
    | remove => simp [DisagreeOn, pending, applySet, retainSet, hd, hr]
  · by_cases hr : k ∈ r
    · simp [DisagreeOn, pending, hd, hr]
    · cases op with
      | contains | remove =>
        simp [DisagreeOn, pending, applySet, retainSet, hd, hr, cons_sublist_cons']
      | add => simp [DisagreeOn, pending, applySet, hd, hr]

theorem applySet_subset_retainSet (hsub : d ⊆ r) (op : Operation) (k : κ) :
    (applySet d op k).2 ⊆ (retainSet r op k).2 := by
  cases op with
  | contains => exact hsub
  | add => exact Finset.insert_subset_insert k hsub
  | remove => exact (Finset.erase_subset k d).trans hsub

/-- On one request the two sets disagree about a key that only one of them has. -/
theorem retainSet_answer_iff (hsub : d ⊆ r) (op : Operation) (k : κ) :
    (retainSet r op k).1 = (applySet d op k).1 ↔ ¬ (k ∈ r ∧ k ∉ d) := by
  have hmem : k ∈ d → k ∈ r := fun h => hsub h
  cases op with
  | contains | add | remove =>
    simp only [retainSet, applySet, decide_eq_decide]
    tauto

theorem retainSet_answers_iff (hsub : d ⊆ r) (reqs : List (Operation × κ)) :
    (answerAll (fun s q => retainSet s q.1 q.2) r reqs).1 =
        (answerAll (fun s q => applySet s q.1 q.2) d reqs).1 ↔
      ∀ k, ¬ DisagreeOn d r k reqs := by
  induction reqs generalizing d r with
  | nil => simp [DisagreeOn]
  | cons q reqs ih =>
    obtain ⟨op, k⟩ := q
    simp only [answerAll_cons, cons.injEq, retainSet_answer_iff hsub,
      ih (applySet_subset_retainSet hsub op k)]
    constructor
    · rintro ⟨hk, hrest⟩ k'
      by_cases hkk : k' = k
      · rw [hkk, disagreeOn_cons_same hsub]
        exact fun h => h.elim hk (hrest k)
      · rw [disagreeOn_cons_other hkk]
        exact hrest k'
    · intro h
      have hk := h k
      rw [disagreeOn_cons_same hsub, not_or] at hk
      refine ⟨hk.1, fun k' => ?_⟩
      by_cases hkk : k' = k
      · rw [hkk]
        exact hk.2
      · have hk' := h k'
        rwa [disagreeOn_cons_other hkk] at hk'

theorem BoundedSet.spend_retain_remove (s : BoundedSet κ) (k : κ) :
    s.spend retainSet .remove k = (decide (k ∈ s.keys), s) := by simp [spend, retainSet]

/-- A set that never forgets takes no more room. -/
theorem BoundedSet.allowed_retainSet {s t : BoundedSet κ} (hkeys : s.keys ⊆ t.keys)
    (hroom : s.room ≤ t.room) {reqs : List (Operation × κ)}
    (h : Allowed (fun s q => spend applySet s q.1 q.2) (fun s q => HasRoom s q.1 q.2) s reqs) :
    Allowed (fun s q => spend retainSet s q.1 q.2) (fun s q => HasRoom s q.1 q.2) t reqs := by
  induction reqs generalizing s t with
  | nil => exact allowed_nil t
  | cons q reqs ih =>
    obtain ⟨op, k⟩ := q
    obtain ⟨hhead, htail⟩ := allowed_cons.mp h
    have hnew : k ∉ t.keys → k ∉ s.keys := fun ht hs => ht (hkeys hs)
    refine allowed_cons.mpr ⟨fun hop hk => (hhead hop (hnew hk)).trans_le hroom, ?_⟩
    refine ih (applySet_subset_retainSet hkeys op k) ?_ htail
    simp only [spend]
    by_cases ht : op = .add ∧ k ∉ t.keys
    · rw [if_pos ⟨ht.1, hnew ht.2⟩, if_pos ht]
      exact Nat.sub_le_sub_right hroom 1
    · rw [if_neg ht]
      split
      · exact (Nat.sub_le _ _).trans hroom
      · exact hroom

end Retained

end SmcSim.SetSemantics
