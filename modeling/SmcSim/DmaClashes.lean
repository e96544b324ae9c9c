import SmcSim.DmaLedger
import SmcSim.DmaLogic

/-!
# Requests that overlap in main memory

`ethz_DMA::handle_packet` finds the request of a response by the address alone, and panics if the
address is in the ranges of two requests. A program with such requests in flight does not run to
its end, although all of them may only read.
-/

namespace SmcSim.DmaPrograms
open EffectPrograms Interleavings List

variable {Loc α : Type}

def Transfer.Covers (address : Loc → ℕ) (a : ℕ) (t : Transfer Loc) : Prop :=
  ∃ l ∈ t.locations, address l ≤ a ∧ a < address l + 4

instance (address : Loc → ℕ) (a : ℕ) : DecidablePred (Transfer.Covers address a) :=
  fun t => inferInstanceAs (Decidable (∃ l ∈ t.locations, _))

def State.outstanding (s : State Loc) : List (Transfer Loc) :=
  s.transfers.filter (fun t => !t.left.isEmpty)

/-- The response for word `j` of request `i` is in the ranges of two requests. -/
def Clashes (address : Loc → ℕ) (s : State Loc) : Event → Prop
  | .kernel => False
  | .copy i j => ∃ t ∈ s.transfers[i]?, ∃ x ∈ t.left[j]?,
      1 < s.outstanding.countP (Transfer.Covers address (address x.1) ·)

instance (address : Loc → ℕ) (s : State Loc) : DecidablePred (Clashes address s)
  | .kernel => .isFalse id
  | .copy i j => inferInstanceAs (Decidable (∃ t ∈ s.transfers[i]?, ∃ x ∈ t.left[j]?, _))

/-- The program does not go on after a panic. -/
def checkedStep [DecidableEq Loc] (address : Loc → ℕ) (m : Machine Loc α) (e : Event) :
    Option (Machine Loc α) :=
  if Clashes address m.state e then some ⟨.stuck, m.state⟩ else step m e

def Machine.panicked (m : Machine Loc α) : Bool :=
  match m.prog with
  | .stuck => true
  | _ => false

/-- Every run comes to `P` or panics, and it panics only by a response that clashes. -/
def RunsTo [DecidableEq Loc] (address : Loc → ℕ) (P : Machine Loc α → Prop) (m : Machine Loc α) :
    Prop :=
  Inevitable (checkedStep address) (fun m => m.prog = .stuck ∨ P m) m ∧
    ∀ m', Reached (checkedStep address) (fun m e => ¬ Clashes address m.state e) m m' →
      m'.prog ≠ .stuck

section Runs

variable [DecidableEq Loc] {address : Loc → ℕ} {m m' : Machine Loc α} {P P' : Machine Loc α → Prop}

theorem RunsTo.mono (h : RunsTo address P m) (hP : ∀ m, P m → P' m) : RunsTo address P' m :=
  ⟨h.1.mono (fun m => Or.imp_right (hP m)), h.2⟩

theorem inevitable_checkedStep (h : Inevitable step P m) :
    Inevitable (checkedStep address) (fun m => m.prog = .stuck ∨ P m) m := by
  induction h with
  | now h => exact .now (.inr h)
  | @later m hgoes _ ih =>
    refine .later ?_ (fun e m' hm' => ?_)
    · obtain ⟨e, m', hm'⟩ := hgoes
      by_cases hclash : Clashes address m.state e
      · exact ⟨e, _, if_pos hclash⟩
      · exact ⟨e, m', (if_neg hclash).trans hm'⟩
    · by_cases hclash : Clashes address m.state e
      · cases (if_pos hclash).symm.trans hm'
        exact .now (.inl rfl)
      · exact ih e m' ((if_neg hclash).symm.trans hm')

theorem reached_of_checkedStep {ok ok' : Machine Loc α → Event → Prop}
    (h : Reached (checkedStep address) ok m m')
    (hok : ∀ m e, ok m e → ¬ Clashes address m.state e ∧ ok' m e) : Reached step ok' m m' := by
  induction h with
  | start => exact .start
  | next _ he hstep ih => exact .next ih (hok _ _ he).2 ((if_neg (hok _ _ he).1).symm.trans hstep)

theorem runsTo_of_wp {C : Loc → ℕ → ℕ → Prop} {s : State Loc} {w : World Loc} {p : DmaProg Loc α}
    {Q : α → World Loc → Prop} (h : Rel s w) (hC : ∀ o s, Assumed C o s)
    (hp : (Rules.mk (fun _ => False) C).wp p w Q) :
    RunsTo address (fun m => ∃ a w', m.prog = .ret a ∧ Q a w' ∧ Rel m.state w') ⟨p, s⟩ := by
  refine ⟨inevitable_checkedStep ((inevitable_of_wp h hC hp).mono (fun m hm => ?_)),
    fun m hreached hstuck => ?_⟩
  · exact hm.resolve_left (fun ⟨_, _, _, hfalse⟩ => hfalse)
  · have hreached' : Reached step (fun _ _ => True) ⟨p, s⟩ m :=
      reached_of_checkedStep hreached (fun _ _ hok => ⟨hok, trivial⟩)
    obtain ⟨w', -, hwp⟩ := post_of_reached h hp (fun m o _ _ _ => hC o m.state) hreached'
    rw [hstuck] at hwp
    exact hwp

end Runs

/-! ### The engine -/

/-- The engine has the outstanding requests, each with the ranges of its words. -/
def HeldBy (address : Loc → ℕ) (s : State Loc) (d : Dma.State) : Prop :=
  List.Forall₂ (fun t r => ∀ a,
    (r.memRanges.filter (fun g => g.Contains a)).length = if t.Covers address a then 1 else 0)
    s.outstanding d.requests

variable {address : Loc → ℕ} {s : State Loc} {d : Dma.State} {i j : ℕ}

theorem length_matching (h : HeldBy address s d) (a : ℕ) :
    (Dma.matching a d.requests).length = s.outstanding.countP (Transfer.Covers address a ·) := by
  have hsum : (Dma.matching a d.requests).length =
      (d.requests.map (fun r => (r.memRanges.filter (fun g => g.Contains a)).length)).sum := by
    rw [Dma.matching, length_flatMap]
    conv_rhs => rw [← zipIdx_map_fst 0 d.requests, List.map_map]
    simp only [length_map, Function.comp_def]
  rw [hsum]
  clear hsum
  unfold HeldBy at h
  generalize s.outstanding = ts, d.requests = rs at h ⊢
  induction h with
  | nil => rfl
  | cons hr _ ih =>
    rw [map_cons, sum_cons, ih, hr a, countP_cons, add_comm]
    simp only [decide_eq_true_eq]

/-- A response makes the program's machine panic if and only if `handle_packet` finds two ranges. -/
theorem clashes_iff_matching (h : HeldBy address s d) {t : Transfer Loc} {x : Loc × ℕ}
    (ht : s.transfers[i]? = some t) (hx : t.left[j]? = some x) :
    Clashes address s (.copy i j) ↔ 1 < (Dma.matching (address x.1) d.requests).length := by
  rw [length_matching h]
  constructor
  · rintro ⟨t', ht', x', hx', hcount⟩
    cases ht.symm.trans ht'
    cases hx.symm.trans hx'
    exact hcount
  · exact fun hcount => ⟨t, ht, x, hx, hcount⟩

/-- The requests of a run that wellServed_of_undisturbed is about do not clash. -/
theorem not_clashes_of_ledger {D : Tlb.Dtlb} (hd : Dma.Ledger D d)
    (h : List.Forall₂ (fun t r => ∀ a, t.Covers address a → a ∈ r.paddrs D.layout)
      s.outstanding d.requests) (e : Event) : ¬ Clashes address s e := by
  have hcount : ∀ a, s.outstanding.countP (Transfer.Covers address a ·) ≤
      (d.requests.flatMap (Dma.Request.paddrs D.layout)).count a := by
    intro a
    generalize s.outstanding = ts, d.requests = rs at h ⊢
    induction h with
    | nil => exact Nat.zero_le _
    | @cons t r _ _ hr _ ih =>
      rw [countP_cons, flatMap_cons, count_append, add_comm]
      refine Nat.add_le_add ?_ ih
      split
      · next hcovers => exact one_le_count_iff.mpr (hr a (of_decide_eq_true hcovers))
      · exact Nat.zero_le _
  cases e with
  | kernel => exact id
  | copy i j =>
    rintro ⟨t, -, x, -, hlt⟩
    have hle := nodup_iff_count_le_one.mp hd.orders.distinct (address x.1)
    exact absurd (hcount (address x.1)) (by omega)

end SmcSim.DmaPrograms
