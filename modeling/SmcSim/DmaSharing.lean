import SmcSim.DmaTransfers

/-!
# The DMA engine and the processor share the TLB

The engine checks the rule of a transfer in one tick and uses it in the next, and it refills
the TLB without waiting. In between, the accesses of the processor can replace the rule or
request the same entry. Along every run in which they do not, and in which the request that
is served keeps its position, every look-up of the engine succeeds.
-/

namespace SmcSim.Dma
open TranslationRules Tlb Interleavings List Option Prod

def InUse (s : State) (i : ℕ) (r : Request) : Prop :=
  r.issued = false ∨ s.currentState ≠ .idle ∧ s.currentIndex = some i

/-- The answer to packet `j` completes the request at position `i`. -/
def Completes (s : State) (j i : ℕ) : Prop :=
  ∃ p r, s.pending[j]? = some p ∧ matching p.addr s.requests = [i] ∧ s.requests[i]? = some r ∧
    r.bytesCompleted + p.size = r.bytesExpected

/-- The step does not take the rule or the position of the request that is served. -/
def Undisturbed (D : Dtlb) (s : State) : Event → Prop
  | .initiate _ _ memVaddr numBytes _ _ =>
      s.currentState = .idle ∧ 0 < numBytes ∧ ∀ a, memVaddr ≤ a → a < memVaddr + numBytes →
        D.layout.Mapped a ∧ entryAddr D.config a ∉ s.dtlb.pendingRefills
  | .response j =>
      s.currentState ≠ .idle → ∀ i c, Completes s j i → s.currentIndex = some c → c < i
  | .cpu _ e =>
      (∀ b, e.adds = some b → EntryFits D b) ∧
      (e.adds ≠ none → s.currentState = .transfer → ∀ i r, currentRequest s = some (i, r) →
        Survives D.config s.dtlb r.memVstart) ∧
      ∀ b, e = .requestRefill b true → ∀ i r, s.requests[i]? = some r → InUse s i r →
        ∀ a, r.Left a → entryAddr D.config a ≠ entryAddr D.config b
  | .tick _ | .done => True

/-- `slice_vend` and the assertion of `DMA_STATE_TRANSFER` succeed, and a refill in
`DMA_STATE_TLBREFILL` does not meet a pending one. -/
structure LookUpsSucceed (D : Dtlb) (s : State) : Prop where
  transfer : s.currentState = .transfer → ∃ i r pstart stop pend,
    currentRequest s = some (i, r) ∧ remapCheck s.dtlb r.memVstart = some pstart ∧
    sliceVend s.dtlb r.memVstart = some stop ∧
    remapCheck s.dtlb (min stop r.memVend) = some pend ∧
    pend = pstart + (min stop r.memVend - r.memVstart)
  refill : s.currentState = .tlbRefill → ∃ i r, currentRequest s = some (i, r) ∧
    (r.memVstart < r.memVend → remapCheck s.dtlb r.memVstart = none →
      entryAddr D.config r.memVstart ∉ s.dtlb.pendingRefills ∧
      ∀ now, refillTLBFunctional D.config D.table now r.memVstart s.dtlb ≠ none)

/-- The request that is served has its position and, when it needs it, its rule. -/
structure Steady (D : Dtlb) (s : State) : Prop where
  consistent : Consistent D s.dtlb
  current : s.currentState ≠ .idle → ∃ i r, currentRequest s = some (i, r)
  ready : s.currentState = .transfer → ∀ i r, currentRequest s = some (i, r) →
    r.memVstart < r.memVend ∧ Covered s.dtlb.rules r.memVstart
  left : ∀ i r, s.requests[i]? = some r → InUse s i r → ∀ a, r.Left a →
    D.layout.Mapped a ∧ entryAddr D.config a ∉ s.dtlb.pendingRefills

section Runs

variable {D : Dtlb} {line now i : ℕ} {s s' : State} {r : Request}

theorem steady_reset {t : Tlb.State} (h : Consistent D t) : Steady D (reset t) where
  consistent := h
  current hphase := absurd rfl hphase
  ready hphase := by cases hphase
  left i r hr := by cases hr

/-- The first address that is left of the request that is served. -/
theorem Steady.first (h : Steady D s) (hne : s.currentState ≠ .idle)
    (hcurrent : currentRequest s = some (i, r)) (hle : r.memVstart ≤ r.memVend) :
    D.layout.Mapped r.memVstart ∧ entryAddr D.config r.memVstart ∉ s.dtlb.pendingRefills := by
  obtain ⟨hindex, hr⟩ := currentRequest_eq_some.mp hcurrent
  exact h.left i r hr (.inr ⟨hne, hindex⟩) _ ⟨le_rfl, hle⟩

theorem Steady.schedule (h : Steady D s) (b : Bool) :
    Steady D { s with nextStateScheduled := b } :=
  ⟨h.consistent, h.current, h.ready, h.left⟩

/-! ### Ticks -/

theorem Steady.selectRequest (h : Steady D s) (hidle : s.currentState = .idle) :
    Steady D (selectRequest s) := by
  rcases selectRequest_cases s with ⟨i, r, hr, hissued, hs⟩ | ⟨-, hs⟩
  · rw [hs]
    refine ⟨h.consistent, fun _ => ⟨i, r, currentRequest_eq_some.mpr ⟨rfl, hr⟩⟩,
      (fun hphase => by cases hphase), fun k r' hr' huse => ?_⟩
    refine h.left k r' hr' (.inl ?_)
    rcases huse with hnew | ⟨-, hk⟩
    · exact hnew
    · obtain rfl : i = k := some.inj hk
      obtain rfl : r = r' := some.inj (hr.symm.trans hr')
      exact hissued
  · rw [hs]
    refine ⟨h.consistent, fun hphase => absurd hidle hphase, fun hphase => ?_,
      fun k r' hr' huse => ?_⟩
    · rw [show s.currentState = .transfer from hphase] at hidle
      cases hidle
    · rcases huse with hnew | ⟨hphase, -⟩
      · exact h.left k r' hr' (.inl hnew)
      · exact absurd hidle hphase

theorem Steady.checkTlb (line now : ℕ) (h : Steady D s) (hphase : s.currentState = .tlbRefill)
    (hcurrent : currentRequest s = some (i, r)) :
    ∃ s', checkTlb (hardware D line) now s i r = some s' ∧ Steady D s' := by
  obtain ⟨hindex, hr⟩ := currentRequest_eq_some.mp hcurrent
  have huse : InUse s i r := .inr ⟨by simp [hphase], hindex⟩
  have hi : i < s.requests.length := (List.getElem?_eq_some_iff.mp hr).1
  by_cases hlt : r.memVstart < r.memVend
  · obtain ⟨hmapped, hpending⟩ := h.first (by simp [hphase]) hcurrent (le_of_lt hlt)
    obtain ⟨t, ht, hcons, hcovered, hsame⟩ :=
      checkTlb_eq line now i h.consistent hlt hmapped hpending
    refine ⟨_, ht, hcons, fun _ => ⟨i, { r with issued := true }, ?_⟩, fun _ k r' hk => ?_,
      fun k r' hr' huse' => ?_⟩
    · exact currentRequest_eq_some.mpr ⟨hindex, getElem?_set_self hi⟩
    · obtain rfl := eq_of_currentRequest_set hk hindex rfl
      exact ⟨hlt, hcovered⟩
    · change ∀ a, r'.Left a → D.layout.Mapped a ∧ entryAddr D.config a ∉ t.pendingRefills
      rw [hsame]
      rcases getElem?_set_cases hr' with ⟨rfl, rfl⟩ | ⟨hne, hold⟩
      · exact h.left k r hr huse
      · refine h.left k r' hold (huse'.imp_right (fun hk => ?_))
        exact absurd (some.inj (hindex.symm.trans hk.2)) (fun he => hne he.symm)
  · refine ⟨_, checkTlb_of_single (not_lt.mp hlt), h.consistent, fun hne => absurd rfl hne,
      (fun hne => by cases hne), fun k r' hr' huse' => ?_⟩
    rcases huse' with hnew | ⟨hne, -⟩
    · rcases getElem?_set_cases hr' with ⟨rfl, rfl⟩ | ⟨-, hold⟩
      · cases hnew
      · exact h.left k r' hold (.inl hnew)
    · exact absurd rfl hne

theorem Request.left_of_advance {L : Layout} {a : ℕ} (h : (r.advance L).Left a) : r.Left a := by
  refine ⟨le_trans ?_ h.1, h.2⟩
  unfold Request.advance
  dsimp only
  split
  · exact Nat.le_add_right _ _
  · exact le_rfl

theorem Steady.transferred (h : Steady D s) (hphase : s.currentState = .transfer)
    (hcurrent : currentRequest s = some (i, r)) :
    Steady D (transferred (hardware D line) D.layout s i r) := by
  obtain ⟨hindex, hr⟩ := currentRequest_eq_some.mp hcurrent
  have huse : InUse s i r := .inr ⟨by simp [hphase], hindex⟩
  have hi : i < s.requests.length := (List.getElem?_eq_some_iff.mp hr).1
  refine ⟨h.consistent, fun _ => ⟨i, r.advance D.layout, ?_⟩, fun hready => ?_,
    fun k r' hr' huse' a ha => ?_⟩
  · exact currentRequest_eq_some.mpr ⟨hindex, getElem?_set_self hi⟩
  · simp only [Dma.transferred, dmaAction] at hready
    split at hready
    · cases hready
    · cases hready
  · rcases getElem?_set_cases hr' with ⟨rfl, rfl⟩ | ⟨hne, hold⟩
    · exact h.left k r hr huse a (Request.left_of_advance ha)
    · refine h.left k r' hold (huse'.imp_right (fun hk => ?_)) a ha
      exact absurd (some.inj (hindex.symm.trans hk.2)) (fun he => hne he.symm)

/-- What a tick can do when the request that is served has its rule. -/
theorem Steady.nextState_cases (h : Steady D s)
    (hstep : nextState (hardware D line) now s = some s') :
    (s.requests = [] ∧ s' = { s with
      currentState := .idle, currentIndex := none, nextStateScheduled := false,
      inProgress := none }) ∨
    (s.currentState = .idle ∧ s' = Dma.selectRequest { s with nextStateScheduled := true }) ∨
    (s.currentState = .tlbRefill ∧ ∃ i r, currentRequest s = some (i, r) ∧
      Dma.checkTlb (hardware D line) now { s with nextStateScheduled := true } i r = some s') ∨
    (s.currentState = .transfer ∧ ∃ i r, currentRequest s = some (i, r) ∧ 0 < s.dmaDoneEventFree ∧
      s' = Dma.transferred (hardware D line) D.layout { s with nextStateScheduled := true } i
        r) := by
  rcases Dma.nextState_cases hstep with hempty | ⟨-, hidle⟩ | ⟨-, hrefill⟩ |
    ⟨-, hphase, i, r, hcurrent, hstep⟩
  · exact .inl hempty
  · exact .inr (.inl hidle)
  · exact .inr (.inr (.inl hrefill))
  · obtain ⟨hlt, hcovered⟩ := h.ready hphase i r hcurrent
    have hmapped := (h.first (by simp [hphase]) hcurrent (le_of_lt hlt)).1
    rw [startTransfer_eq (s := { s with nextStateScheduled := true }) h.consistent hcovered hmapped
      (le_of_lt hlt)] at hstep
    obtain ⟨hfree, rfl⟩ := of_guard hstep
    exact .inr (.inr (.inr ⟨hphase, i, r, hcurrent, hfree, rfl⟩))

theorem Steady.nextState (h : Steady D s)
    (hstep : nextState (hardware D line) now s = some s') : Steady D s' := by
  have h' := h.schedule true
  rcases h.nextState_cases hstep with ⟨hempty, rfl⟩ | ⟨hidle, rfl⟩ |
    ⟨hphase, i, r, hcurrent, hstep⟩ | ⟨hphase, i, r, hcurrent, -, rfl⟩
  · refine ⟨h.consistent, fun hne => absurd rfl hne, (fun hne => by cases hne), fun i r hr => ?_⟩
    change s.requests[i]? = some r at hr
    rw [hempty] at hr
    cases hr
  · exact h'.selectRequest hidle
  · obtain ⟨s₁, hs₁, hsteady⟩ := h'.checkTlb line now hphase hcurrent
    obtain rfl : s₁ = s' := some.inj (hs₁.symm.trans hstep)
    exact hsteady
  · exact h'.transferred hphase hcurrent

/-! ### The other events -/

def insertRequest (dir : Bool) (vreg memVaddr numBytes : ℕ) (res : BitVec 8) (s : State) : State :=
  { s with
    dmaResources := s.dmaResources ||| res
    requests := newRequest s.accepted vreg memVaddr numBytes dir res :: s.requests
    accepted := s.accepted + 1 }

variable {res : BitVec 8}

theorem initiate_cases {dir : Bool} {vreg memVaddr numBytes : ℕ} {H : Hardware}
    (h : initiate H dir vreg memVaddr numBytes res now s = some s') :
    res ≠ 0 ∧ s.dmaResources &&& res = 0 ∧
      (s' = insertRequest dir vreg memVaddr numBytes res s ∨
        nextState H now { insertRequest dir vreg memVaddr numBytes res s with
          nextStateScheduled := true } = some s') := by
  obtain ⟨hres, h⟩ := ite_none_right_eq_some.mp h
  refine ⟨hres.1, hres.2, ?_⟩
  split at h
  · exact .inl (some.inj h).symm
  · exact .inr h

section

variable (h : Steady D s)
include h

theorem Steady.insertRequest {dir : Bool} {vreg memVaddr numBytes : ℕ}
    (hok : Undisturbed D s (.initiate dir vreg memVaddr numBytes res now)) :
    Steady D (insertRequest dir vreg memVaddr numBytes res s) := by
  obtain ⟨hidle, hpos, hbytes⟩ := hok
  refine ⟨h.consistent, fun hne => absurd hidle hne, fun hphase => ?_, fun k r hr huse a ha => ?_⟩
  · rw [show s.currentState = .transfer from hphase] at hidle
    cases hidle
  · cases k with
    | zero =>
      cases hr
      have hend : a ≤ memVaddr + numBytes - 1 := ha.2
      exact hbytes a ha.1 (by omega)
    | succ k =>
      rcases huse with hissued | ⟨hne, -⟩
      · exact h.left k r hr (.inl hissued) a ha
      · exact absurd hidle hne

theorem Steady.initiate {dir : Bool} {vreg memVaddr numBytes : ℕ}
    (hok : Undisturbed D s (.initiate dir vreg memVaddr numBytes res now))
    (hstep : initiate (hardware D line) dir vreg memVaddr numBytes res now s = some s') :
    Steady D s' := by
  obtain ⟨-, -, rfl | hnext⟩ := initiate_cases hstep
  · exact h.insertRequest hok
  · exact ((h.insertRequest hok).schedule true).nextState hnext

theorem Steady.handleResp {j : ℕ} (hok : Undisturbed D s (.response j))
    (hstep : handleResp j s = some s') : Steady D s' := by
  obtain ⟨p, t, k, r, hp, -, hmatch, hr, ⟨-, rfl⟩ | ⟨hdone, rfl⟩⟩ := handleResp_cases hstep
  rotate_left
  · -- The request is erased, behind the one that is served.
    have hbehind : s.currentState ≠ .idle → ∀ c, s.currentIndex = some c → c < k :=
      fun hne c hc => hok hne k c ⟨p, r, hp, hmatch, hr, hdone⟩ hc
    have hkeep : ∀ c < k, (s.requests.eraseIdx k)[c]? = s.requests[c]? :=
      fun c hc => getElem?_eraseIdx_of_lt hc
    refine ⟨h.consistent, fun hne => ?_, fun hphase i r' hcurrent => ?_, fun i r' hr' huse => ?_⟩
    · obtain ⟨c, r', hcurrent⟩ := h.current hne
      obtain ⟨hc, hr'⟩ := currentRequest_eq_some.mp hcurrent
      exact ⟨c, r', currentRequest_eq_some.mpr ⟨hc, (hkeep c (hbehind hne c hc)).trans hr'⟩⟩
    · have hne : s.currentState ≠ .idle := by
        rw [show s.currentState = .transfer from hphase]
        decide
      obtain ⟨hi, hr'⟩ := currentRequest_eq_some.mp hcurrent
      refine h.ready hphase i r' (currentRequest_eq_some.mpr ⟨hi, ?_⟩)
      exact (hkeep i (hbehind hne i hi)).symm.trans hr'
    · by_cases hi : i < k
      · exact h.left i r' ((hkeep i hi).symm.trans hr') huse
      · have hshift : s.requests[i + 1]? = some r' := by
          rw [← hr']
          exact (getElem?_eraseIdx_of_ge (not_lt.mp hi)).symm
        rcases huse with hissued | ⟨hne, hc⟩
        · exact h.left (i + 1) r' hshift (.inl hissued)
        · exact absurd (hbehind hne i hc) hi
  · -- Only the count of a request changes.
    have hsame : ∀ {i : ℕ} {r' : Request},
        (s.requests.set k { r with bytesCompleted := r.bytesCompleted + p.size })[i]? = some r' →
        ∃ r₀, s.requests[i]? = some r₀ ∧ r'.memVstart = r₀.memVstart ∧ r'.memVend = r₀.memVend ∧
          r'.issued = r₀.issued := by
      intro i r' hr'
      rcases getElem?_set_cases hr' with ⟨rfl, rfl⟩ | ⟨-, hold⟩
      · exact ⟨r, hr, rfl, rfl, rfl⟩
      · exact ⟨r', hold, rfl, rfl, rfl⟩
    refine ⟨h.consistent, fun hne => ?_, fun hphase i r' hcurrent => ?_,
      fun i r' hr' huse a ha => ?_⟩
    · obtain ⟨c, r', hcurrent⟩ := h.current hne
      obtain ⟨hc, hr'⟩ := currentRequest_eq_some.mp hcurrent
      have hlt : c < s.requests.length := (List.getElem?_eq_some_iff.mp hr').1
      obtain ⟨r₁, hr₁⟩ : ∃ r₁, (s.requests.set k
          { r with bytesCompleted := r.bytesCompleted + p.size })[c]? = some r₁ :=
        ⟨_, getElem?_eq_getElem (by rw [length_set]; exact hlt)⟩
      exact ⟨c, r₁, currentRequest_eq_some.mpr ⟨hc, hr₁⟩⟩
    · obtain ⟨hi, hr'⟩ := currentRequest_eq_some.mp hcurrent
      obtain ⟨r₀, hr₀, hstart, hend, -⟩ := hsame hr'
      rw [hstart, hend]
      exact h.ready hphase i r₀ (currentRequest_eq_some.mpr ⟨hi, hr₀⟩)
    · obtain ⟨r₀, hr₀, hstart, hend, hissued⟩ := hsame hr'
      refine h.left i r₀ hr₀ (huse.imp_left (fun hi => hissued ▸ hi)) a ?_
      exact ⟨hstart ▸ ha.1, hend ▸ ha.2⟩

theorem Steady.cpu {e : Tlb.Event} (hok : Undisturbed D s (.cpu now e))
    (hstep : step (hardware D line) s (.cpu now e) = some s') : Steady D s' := by
  obtain ⟨hfits, hsurvives, hrequest⟩ := hok
  obtain ⟨t, ht, rfl⟩ := map_eq_some_iff.mp hstep
  obtain ⟨hcons, hcovered⟩ := h.consistent.step hfits ht
  refine ⟨hcons, h.current, fun hphase i r hcurrent => ?_, fun i r hr huse a ha => ?_⟩
  · obtain ⟨hlt, hold⟩ := h.ready hphase i r hcurrent
    exact ⟨hlt, hcovered _ hold (fun hadds => hsurvives hadds hphase i r hcurrent)⟩
  · obtain ⟨hmapped, hpending⟩ := h.left i r hr huse a ha
    refine ⟨hmapped, fun hmem => ?_⟩
    rcases pendingRefills_of_step D.config D.table ht hmem with hold | ⟨b, hb, hentry⟩
    · exact hpending hold
    · exact hrequest b hb i r hr huse a ha hentry

theorem Steady.step {e : Event} (hok : Undisturbed D s e)
    (hstep : step (hardware D line) s e = some s') : Steady D s' := by
  cases e with
  | initiate dir vreg memVaddr numBytes res now => exact h.initiate hok hstep
  | tick now => exact h.nextState (ite_none_right_eq_some.mp hstep).2
  | response j => exact h.handleResp hok hstep
  | done =>
    obtain ⟨-, rfl⟩ := of_guard hstep
    exact ⟨h.consistent, h.current, h.ready, h.left⟩
  | cpu now e => exact h.cpu hok hstep

theorem Steady.lookUpsSucceed : LookUpsSucceed D s := by
  constructor
  · intro hphase
    have hne : s.currentState ≠ .idle := by simp [hphase]
    obtain ⟨i, r, hcurrent⟩ := h.current hne
    obtain ⟨hlt, hcovered⟩ := h.ready hphase i r hcurrent
    have hmapped := (h.first hne hcurrent (le_of_lt hlt)).1
    obtain ⟨hpstart, hstop, hvend, hpend⟩ :=
      lookUps h.consistent hcovered hmapped (le_of_lt hlt)
    refine ⟨i, r, _, _, _, hcurrent, hpstart, hstop, hvend ▸ hpend, ?_⟩
    rw [hvend, Nat.add_sub_cancel_left]
  · intro hphase
    have hne : s.currentState ≠ .idle := by simp [hphase]
    obtain ⟨i, r, hcurrent⟩ := h.current hne
    refine ⟨i, r, hcurrent, fun hlt hmiss => ?_⟩
    obtain ⟨hmapped, hpending⟩ := h.first hne hcurrent (le_of_lt hlt)
    refine ⟨hpending, fun now hnone => ?_⟩
    obtain ⟨t, ht, -⟩ := h.consistent.refill hmapped (translate_eq_none_iff.mp hmiss) hpending now
    rw [ht] at hnone
    cases hnone

end

/-- In every run whose steps all leave the request that is served its rule, its position and
its entries of the table, the look-ups of the engine succeed in every state. -/
theorem lookUpsSucceed_of_undisturbed (D : Dtlb) (line : ℕ) (t : Tlb.State)
    (ht : Consistent D t) (s : State)
    (h : Reached (step (hardware D line)) (Undisturbed D) (reset t) s) : LookUpsSucceed D s := by
  have hsteady : Steady D s := h.invariant (I := Steady D) (steady_reset ht)
    (fun s e s' hs hok hstep => hs.step hok hstep)
  exact hsteady.lookUpsSucceed

end Runs

/-- A request for eight bytes of the first page, its refill, and an access of the processor. -/
theorem lookUpsSucceed_firstPage : ∃ s,
    Reached (step (hardware fourPagesDtlb 64)) (Undisturbed fourPagesDtlb)
      (reset (initial scratchpad)) s ∧
    s.currentState = .transfer ∧ LookUpsSucceed fourPagesDtlb s := by
  have hrun : (runSchedule (step (hardware fourPagesDtlb 64)) (reset (initial scratchpad))
      [.initiate true 0 0x8000 8 1 0, .tick 1, .cpu 2 (.access 0x8004)]).map State.currentState =
        some .transfer := by
    decide +kernel
  obtain ⟨s, hs, hphase⟩ := map_eq_some_iff.mp hrun
  have hfirst : Undisturbed fourPagesDtlb (reset (initial scratchpad))
      (.initiate true 0 0x8000 8 1 0) :=
    ⟨rfl, by decide, fun a hle hlt => ⟨⟨hle, lt_trans hlt (by decide)⟩, not_mem_nil⟩⟩
  have hreached : Reached (step (hardware fourPagesDtlb 64)) (Undisturbed fourPagesDtlb)
      (reset (initial scratchpad)) s := by
    refine reached_of_cons _ hfirst (fun e he s => ?_) hs
    rcases mem_cons.mp he with rfl | he
    · trivial
    · obtain rfl := mem_singleton.mp he
      exact ⟨nofun, fun hadds => absurd rfl hadds, nofun⟩
  exact ⟨s, hreached, hphase, lookUpsSucceed_of_undisturbed fourPagesDtlb 64 (initial scratchpad)
    (consistent_initial fourPagesDtlb) s hreached⟩

/-- The processor's refill of the second page is answered when the engine has just refilled
the first page, and takes its place. -/
def refillBetween : List Event :=
  [.cpu 1 (.requestRefill 0x9000 true), .initiate true 0 0x8000 8 1 2, .tick 3,
    .cpu 4 (.refillResponse 0x9000)]

/-- With `IDEAL_REFILL` a miss of the processor does the same. -/
def idealRefillBetween : List Event :=
  [.initiate true 0 0x8000 8 1 2, .tick 3, .cpu 4 (.refill 0x9000)]

def sameEntry : List Event :=
  [.cpu 1 (.requestRefill 0x8000 true), .initiate true 0 0x8000 8 1 2]

theorem lookUps_fail_of_sharing :
    (∀ ls ∈ [refillBetween, idealRefillBetween], ∃ s,
      runSchedule (step (hardware fourPagesDtlb 64)) (reset (initial scratchpad)) ls = some s ∧
      (currentRequest s).map (fun x => (s.currentState, sliceVend s.dtlb x.2.memVstart)) =
        some (.transfer, none) ∧ ¬ LookUpsSucceed fourPagesDtlb s) ∧
    ∃ s, runSchedule (step (hardware fourPagesDtlb 64)) (reset (initial scratchpad)) sameEntry =
        some s ∧
      (currentRequest s).map (fun x => (s.currentState, decide (x.2.memVstart < x.2.memVend),
        remapCheck s.dtlb x.2.memVstart,
        (refillTLBFunctional fourPagesDtlb.config fourPagesDtlb.table 3 x.2.memVstart
          s.dtlb).isSome)) =
          some (.tlbRefill, true, none, false) ∧ ¬ LookUpsSucceed fourPagesDtlb s := by
  constructor
  · have hrun : ∀ ls ∈ [refillBetween, idealRefillBetween],
        (runSchedule (step (hardware fourPagesDtlb 64)) (reset (initial scratchpad)) ls).map
          (fun s => (currentRequest s).map
            (fun x => (s.currentState, sliceVend s.dtlb x.2.memVstart))) =
          some (some (.transfer, none)) := by
      decide +kernel
    intro ls hls
    obtain ⟨s, hs, hvalues⟩ := map_eq_some_iff.mp (hrun ls hls)
    refine ⟨s, hs, hvalues, fun hlookUps => ?_⟩
    obtain ⟨⟨i, r⟩, hcurrent, hr⟩ := map_eq_some_iff.mp hvalues
    obtain ⟨hphase, hvend⟩ := mk.inj hr
    obtain ⟨i', r', pstart, stop, pend, hcurrent', -, hstop, -⟩ := hlookUps.transfer hphase
    obtain ⟨-, rfl⟩ := mk.inj (some.inj (hcurrent.symm.trans hcurrent'))
    cases hvend.symm.trans hstop
  · have hrun : (runSchedule (step (hardware fourPagesDtlb 64)) (reset (initial scratchpad))
        sameEntry).map (fun s => (currentRequest s).map (fun x =>
          (s.currentState, decide (x.2.memVstart < x.2.memVend), remapCheck s.dtlb x.2.memVstart,
            (refillTLBFunctional fourPagesDtlb.config fourPagesDtlb.table 3 x.2.memVstart
              s.dtlb).isSome))) = some (some (.tlbRefill, true, none, false)) := by
      decide +kernel
    obtain ⟨s, hs, hvalues⟩ := map_eq_some_iff.mp hrun
    refine ⟨s, hs, hvalues, fun hlookUps => ?_⟩
    obtain ⟨⟨i, r⟩, hcurrent, hr⟩ := map_eq_some_iff.mp hvalues
    simp only [mk.injEq, decide_eq_true_eq, isSome_eq_false_iff,
      isNone_iff_eq_none] at hr
    obtain ⟨hphase, hlt, hmiss, hpanic⟩ := hr
    obtain ⟨i', r', hcurrent', hrefill⟩ := hlookUps.refill hphase
    obtain ⟨-, rfl⟩ := mk.inj (some.inj (hcurrent.symm.trans hcurrent'))
    exact (hrefill hlt hmiss).2 3 hpanic

end SmcSim.Dma
