import SmcSim.DmaPrograms

/-!
# What a program asks for

Some properties of the commands of a program do not depend on what the memories hold: the program is
read as the tree of its commands, every answer is possible, and the only state is the list of the
requests made so far, with the resources that have not been waited for since.
-/

namespace SmcSim.DmaPrograms
open EffectPrograms Interleavings List Option

variable {Loc α : Type}

structure Issued (Loc : Type) where
  requested : List (List Loc)
  /-- The resources of the requests that have not been waited for. -/
  unawaited : List ℕ

def Issued.after (w : Issued Loc) : Op Loc → Issued Loc
  | .dmaRead ls _ res => ⟨w.requested ++ [ls], res :: w.unawaited⟩
  | .dmaWrite ls _ res => ⟨w.requested ++ [ls], res :: w.unawaited⟩
  | .dmaWait rs => { w with unawaited := w.unawaited.filter (fun res => res ∉ rs) }
  | _ => w

/-- Every command meets `P`, whatever the answers are. -/
def anyAnswer (P : Op Loc → Prop) : CommandSpec (Op Loc) Res (Issued Loc) where
  pre o w Q := P o ∧ ∀ r, Q r (w.after o)
  mono _ _ _ _ hQ h := ⟨h.1, fun r => hQ r _ (h.2 r)⟩
  onStuck := True

structure Issues (s : State Loc) (w : Issued Loc) : Prop where
  requested : s.requested = w.requested
  unawaited : ∀ res ∈ w.unawaited, ∃ t ∈ s.transfers, t.res = res

section Runs

variable {P : Op Loc → Prop} {o : Op Loc} {s s' : State Loc} {w : Issued Loc}

theorem any_command {Q : Res o → Issued Loc → Prop} (h : P o) (hq : ∀ r, Q r (w.after o)) :
    (anyAnswer P).wp (.call o .ret) w Q := ⟨h, hq⟩

theorem any_then {α : Type} {k : Res o → DmaProg Loc α} {Q : α → Issued Loc → Prop} (h : P o)
    (hq : ∀ r, (anyAnswer P).wp (k r) (w.after o) Q) :
    (anyAnswer P).wp ((.call o .ret : DmaProg Loc (Res o)) >>= k) w Q :=
  CommandSpec.wp_seq (any_command h hq)

theorem Issues.request {ls : List Loc} {toSpm : Bool} {a res : ℕ} (h : Issues s w)
    (hs' : s.request toSpm ls a res = .answer () s') :
    Issues s' ⟨w.requested ++ [ls], res :: w.unawaited⟩ := by
  rw [State.request] at hs'
  split at hs'
  · cases hs'
  · cases hs'
    refine ⟨congrArg (· ++ [ls]) h.requested, fun r hr => ?_⟩
    by_cases heq : r = res
    · exact ⟨_, mem_cons_self, heq.symm⟩
    · obtain ⟨t, ht, rfl⟩ := h.unawaited r ((mem_cons.mp hr).resolve_left heq)
      exact ⟨t, mem_cons_of_mem _ (mem_filter.mpr ⟨ht, decide_eq_true heq⟩), rfl⟩

variable [DecidableEq Loc]

theorem Issues.handle {r : Res o} (h : Issues s w) (hs' : handle o s = .answer r s') :
    Issues s' (w.after o) := by
  cases o with
  | dmaRead | dmaWrite => exact h.request hs'
  | dmaWait rs =>
    rw [DmaPrograms.handle, State.wait] at hs'
    split at hs'
    · cases hs'
    · cases hs'
      refine ⟨h.requested, fun res hres => ?_⟩
      obtain ⟨hopen, hnot⟩ := mem_filter.mp hres
      obtain ⟨t, ht, rfl⟩ := h.unawaited res hopen
      exact ⟨t, mem_filter.mpr ⟨ht, hnot⟩, rfl⟩
  | _ =>
    cases hs'
    exact ⟨h.requested, h.unawaited⟩

theorem Issues.copy {i j : ℕ} (h : Issues s w) (hs' : s.copy i j = some s') : Issues s' w := by
  obtain ⟨t, ht, hcopy⟩ := bind_eq_some_iff.mp hs'
  obtain ⟨x, -, rfl⟩ := map_eq_some_iff.mp hcopy
  refine ⟨?_, fun res hres => ?_⟩
  · rw [← h.requested]
    dsimp only
    split
    · rfl
    · rfl
  · obtain ⟨t', ht', rfl⟩ := h.unawaited res hres
    obtain ⟨n, hn⟩ := mem_iff_getElem?.mp ht'
    by_cases hin : i = n
    · rw [hin, hn] at ht
      obtain rfl := some.inj ht
      refine ⟨{ t' with left := t'.left.eraseIdx j }, mem_iff_getElem?.mpr ⟨n, ?_⟩, rfl⟩
      rw [hin, getElem?_set_self (List.getElem?_eq_some_iff.mp hn).1]
    · exact ⟨t', mem_iff_getElem?.mpr ⟨n, (getElem?_set_ne hin).trans hn⟩, rfl⟩

variable {ok : Machine Loc α → Event → Prop} {p : DmaProg Loc α} {m : Machine Loc α}
  {Q : α → Issued Loc → Prop} {mem : Loc → ℕ} {spm : ℕ → ℕ}

/-- The rest of the program, after the requests made so far. -/
theorem issues_of_reached (hp : (anyAnswer P).wp p ⟨[], []⟩ Q)
    (hreached : Reached step ok (start p mem spm) m) :
    ∃ w, Issues m.state w ∧ (anyAnswer P).wp m.prog w Q := by
  refine hreached.invariant (I := fun m => ∃ w, Issues m.state w ∧ (anyAnswer P).wp m.prog w Q)
    ⟨⟨[], []⟩, ⟨rfl, forall_mem_nil _⟩, hp⟩ ?_
  rintro m e m' ⟨w, hissues, hwp⟩ - hstep
  cases e with
  | copy i j =>
    obtain ⟨s', hs', rfl⟩ := map_eq_some_iff.mp hstep
    exact ⟨w, hissues.copy hs', hwp⟩
  | kernel =>
    obtain ⟨prog, s⟩ := m
    cases prog with
    | ret | stuck => cases hstep
    | call o k =>
      cases hs' : handle o s with
      | answer r s' =>
        simp only [step, hs', some.injEq] at hstep
        exact hstep ▸ ⟨w.after o, hissues.handle hs', hwp.2 r⟩
      | blocked => simp only [step, hs', reduceCtorEq] at hstep
      | failed =>
        simp only [step, hs', some.injEq] at hstep
        exact hstep ▸ ⟨w, hissues, trivial⟩

theorem call_of_anyAnswer (hp : (anyAnswer P).wp p ⟨[], []⟩ Q)
    (hreached : Reached step ok (start p mem spm) m) {k : Res o → DmaProg Loc α}
    (hm : m.prog = .call o k) : P o := by
  obtain ⟨w, -, hwp⟩ := issues_of_reached hp hreached
  rw [hm] at hwp
  exact hwp.1

end Runs

end SmcSim.DmaPrograms
