import SmcSim.DmaEngine

/-!
# What the states of the DMA engine do

With a rule for the first address that is left, `DMA_STATE_TRANSFER` moves the bytes up to
the end of the slice or of the request.
-/

namespace SmcSim.Dma
open TranslationRules Tlb Interleavings Option List

def hardware (D : Dtlb) (cacheLineSize : ℕ) : Hardware := ⟨D.config, D.table, cacheLineSize⟩

def Request.Left (r : Request) (a : ℕ) : Prop := r.memVstart ≤ a ∧ a ≤ r.memVend

def Request.piece (L : Layout) (r : Request) : ℕ :=
  min (L.rest r.memVstart + 1) (r.memVend + 1 - r.memVstart)

/-- More than one byte is left after the next transfer. -/
def Request.More (L : Layout) (r : Request) : Prop := r.memVstart + r.piece L < r.memVend

instance (L : Layout) (r : Request) : Decidable (r.More L) := inferInstanceAs (Decidable (_ < _))

def Request.advance (L : Layout) (r : Request) : Request :=
  { r with
    memRanges := r.memRanges ++
      [⟨L.physical r.memVstart, L.physical r.memVstart + (r.piece L - 1)⟩]
    memVstart := if r.More L then r.memVstart + r.piece L else r.memVstart
    vregPtr := if r.More L then r.vregPtr + r.piece L else r.vregPtr }

/-- The engine after the next transfer of the request at position `i`. -/
def transferred (H : Hardware) (L : Layout) (s : State) (i : ℕ) (r : Request) : State :=
  dmaAction H r.id r.isRead (L.physical r.memVstart) (r.piece L) r.vregPtr
    { s with
      requests := s.requests.set i (r.advance L)
      dmaDoneEventFree := s.dmaDoneEventFree - 1
      currentState := if r.More L then .tlbRefill else .idle
      inProgress := if r.More L then s.inProgress else none }

section Lemmas

variable {D : Dtlb} {line now i : ℕ} {s s' : State} {r : Request}

theorem currentRequest_eq_some {k : ℕ} :
    currentRequest s = some (k, r) ↔ s.currentIndex = some k ∧ s.requests[k]? = some r := by
  unfold currentRequest
  cases s.currentIndex with
  | none => simp
  | some c =>
    simp only [bind_some, map_eq_some_iff, Prod.mk.injEq, some.injEq]
    constructor
    · rintro ⟨r', hr', rfl, rfl⟩
      exact ⟨rfl, hr'⟩
    · rintro ⟨rfl, hr⟩
      exact ⟨r, hr, rfl, rfl⟩

theorem Request.piece_pos (L : Layout) (h : r.memVstart ≤ r.memVend) : 0 < r.piece L := by
  unfold Request.piece
  omega

theorem Request.piece_le (L : Layout) (h : r.memVstart ≤ r.memVend) :
    r.memVstart + r.piece L ≤ r.memVend + 1 := by
  unfold Request.piece
  omega

theorem lookUps (hcons : Consistent D s.dtlb) (hcovered : Covered s.dtlb.rules r.memVstart)
    (hmapped : D.layout.Mapped r.memVstart) (hle : r.memVstart ≤ r.memVend) :
    remapCheck s.dtlb r.memVstart = some (D.layout.physical r.memVstart) ∧
      sliceVend s.dtlb r.memVstart = some (r.memVstart + D.layout.rest r.memVstart) ∧
      min (r.memVstart + D.layout.rest r.memVstart) r.memVend =
        r.memVstart + (r.piece D.layout - 1) ∧
      remapCheck s.dtlb (r.memVstart + (r.piece D.layout - 1)) =
        some (D.layout.physical r.memVstart + (r.piece D.layout - 1)) := by
  obtain ⟨htranslate, hstop⟩ := hcovered.lookUp hcons.fits hmapped
  have hpiece : r.piece D.layout - 1 ≤ D.layout.rest r.memVstart := by
    unfold Request.piece
    omega
  have hend := (hcovered.add hcons.fits hmapped hpiece).lookUp hcons.fits
    (D.layout.inside _ _ hmapped hpiece).1
  refine ⟨htranslate, hstop, ?_, ?_⟩
  · unfold Request.piece
    omega
  · rw [remapCheck, hend.1, (D.layout.inside _ _ hmapped hpiece).2.2]

theorem startTransfer_eq (hcons : Consistent D s.dtlb) (hcovered : Covered s.dtlb.rules r.memVstart)
    (hmapped : D.layout.Mapped r.memVstart) (hle : r.memVstart ≤ r.memVend) :
    startTransfer (hardware D line) s i r =
      if 0 < s.dmaDoneEventFree then
        some (transferred (hardware D line) D.layout s i r) else none := by
  obtain ⟨hpstart, hstop, hvend, hpend⟩ := lookUps hcons hcovered hmapped hle
  have hpos := Request.piece_pos D.layout hle
  have hsize : D.layout.physical r.memVstart + (r.piece D.layout - 1) -
      D.layout.physical r.memVstart + 1 = r.piece D.layout := by omega
  have hdiff : r.memVstart + (r.piece D.layout - 1) - r.memVstart = r.piece D.layout - 1 := by omega
  simp only [startTransfer, hpstart, hstop, hvend, hpend, hsize, hdiff, true_and]
  split
  · next hfree =>
    have hnext : r.memVstart + (r.piece D.layout - 1) + 1 =
        r.memVstart + r.piece D.layout := by omega
    have hlater : r.memVstart ≤ r.memVstart + r.piece D.layout := Nat.le_add_right _ _
    rw [hnext]
    simp only [Request.nextSubRequest, hlater, if_true, transferred, Request.advance, Request.More,
      Nat.add_sub_cancel_left]
    by_cases hmore : r.memVstart + r.piece D.layout < r.memVend
    · simp [hmore, not_le.mpr hmore]
    · simp [hmore, not_lt.mp hmore]
  · rfl

/-- `DMA_STATE_TLBREFILL` ends with a rule for the first address that is left. -/
theorem checkTlb_eq (line now i : ℕ) (hcons : Consistent D s.dtlb) (hlt : r.memVstart < r.memVend)
    (hmapped : D.layout.Mapped r.memVstart)
    (hpending : entryAddr D.config r.memVstart ∉ s.dtlb.pendingRefills) :
    ∃ t, checkTlb (hardware D line) now s i r = some { s with
        requests := s.requests.set i { r with issued := true }
        dtlb := t
        currentState := .transfer } ∧
      Consistent D t ∧ Covered t.rules r.memVstart ∧ t.pendingRefills = s.dtlb.pendingRefills := by
  by_cases hcovered : Covered s.dtlb.rules r.memVstart
  · have hhit : remapCheck s.dtlb r.memVstart ≠ none := by
      rw [remapCheck, Ne, translate_eq_none_iff]
      exact fun hmiss => hmiss hcovered
    refine ⟨s.dtlb, ?_, hcons, hcovered, rfl⟩
    simp only [checkTlb, hlt, if_true, hhit, if_false]
  · have hmiss : remapCheck s.dtlb r.memVstart = none := translate_eq_none_iff.mpr hcovered
    obtain ⟨t, ht, hcons', hcovered', hsame⟩ := hcons.refill hmapped hcovered hpending now
    refine ⟨t, ?_, hcons', hcovered', hsame⟩
    simp only [checkTlb, hlt, if_true, hmiss, hardware, ht, map_some]

theorem checkTlb_of_single (hle : r.memVend ≤ r.memVstart) :
    checkTlb (hardware D line) now s i r = some { s with
      requests := s.requests.set i { r with issued := true }
      currentState := .idle
      inProgress := none } := by
  simp only [checkTlb, not_lt.mpr hle, if_false]

/-- What a tick can do. -/
theorem nextState_cases {H : Hardware} (h : nextState H now s = some s') :
    (s.requests = [] ∧ s' = { s with
      currentState := .idle, currentIndex := none, nextStateScheduled := false,
      inProgress := none }) ∨
    (s.requests ≠ [] ∧ s.currentState = .idle ∧
      s' = selectRequest { s with nextStateScheduled := true }) ∨
    (s.requests ≠ [] ∧ s.currentState = .tlbRefill ∧ ∃ i r, currentRequest s = some (i, r) ∧
      checkTlb H now { s with nextStateScheduled := true } i r = some s') ∨
    (s.requests ≠ [] ∧ s.currentState = .transfer ∧ ∃ i r, currentRequest s = some (i, r) ∧
      startTransfer H { s with nextStateScheduled := true } i r = some s') := by
  unfold nextState at h
  split at h
  · next hempty => exact .inl ⟨hempty, (some.inj h).symm⟩
  · next hne =>
    refine .inr ?_
    cases hphase : s.currentState with
    | idle =>
      simp only [hphase] at h
      exact .inl ⟨hne, rfl, (some.inj h).symm⟩
    | tlbRefill =>
      simp only [hphase] at h
      obtain ⟨⟨i, r⟩, hcurrent, hstep⟩ := bind_eq_some_iff.mp h
      exact .inr (.inl ⟨hne, rfl, i, r, hcurrent, hstep⟩)
    | transfer =>
      simp only [hphase] at h
      obtain ⟨⟨i, r⟩, hcurrent, hstep⟩ := bind_eq_some_iff.mp h
      exact .inr (.inr ⟨hne, rfl, i, r, hcurrent, hstep⟩)

theorem requests_ne_nil (hcurrent : currentRequest s = some (i, r)) : s.requests ≠ [] := by
  intro hempty
  have hr := (currentRequest_eq_some.mp hcurrent).2
  rw [hempty] at hr
  cases hr

theorem nextState_of_current (H : Hardware) (now : ℕ) (hcurrent : currentRequest s = some (i, r)) :
    (s.currentState = .tlbRefill →
      nextState H now s = checkTlb H now { s with nextStateScheduled := true } i r) ∧
    (s.currentState = .transfer →
      nextState H now s = startTransfer H { s with nextStateScheduled := true } i r) := by
  have hcurrent' : currentRequest { s with nextStateScheduled := true } = some (i, r) := hcurrent
  constructor
  all_goals
    intro hphase
    unfold nextState
    rw [if_neg (requests_ne_nil hcurrent)]
    simp only [hphase] at hcurrent' ⊢
    rw [hcurrent', bind_some]

theorem selectRequest_cases (s : State) :
    (∃ i r, s.requests[i]? = some r ∧ r.issued = false ∧ selectRequest s = { s with
      currentIndex := some i, currentState := .tlbRefill, inProgress := some r.id }) ∨
    ((∀ r ∈ s.requests, r.issued = true) ∧ selectRequest s = { s with currentIndex := none }) := by
  cases hfind : s.requests.findIdx? (fun r => !r.issued) with
  | none =>
    refine .inr ⟨fun r hr => ?_, ?_⟩
    · have hissued := findIdx?_eq_none_iff.mp hfind r hr
      simpa using hissued
    · simp only [selectRequest, hfind]
  | some i =>
    obtain ⟨hi, hissued, -⟩ := findIdx?_eq_some_iff_getElem.mp hfind
    have hr : s.requests[i]? = some s.requests[i] := getElem?_eq_getElem hi
    refine .inl ⟨i, s.requests[i], hr, by simpa using hissued, ?_⟩
    simp only [selectRequest, hfind, hr, map_some]

theorem getElem?_set_cases {α : Type} {l : List α} {k : ℕ} {x y : α}
    (h : (l.set i x)[k]? = some y) : (k = i ∧ y = x) ∨ (k ≠ i ∧ l[k]? = some y) := by
  by_cases hk : k = i
  · subst hk
    have hlt : k < l.length := by
      have := (List.getElem?_eq_some_iff.mp h).1
      rwa [List.length_set] at this
    rw [getElem?_set_self hlt] at h
    exact .inl ⟨rfl, (some.inj h).symm⟩
  · rw [getElem?_set_ne (fun he => hk he.symm)] at h
    exact .inr ⟨hk, h⟩

/-- The request that is served has just been replaced. -/
theorem eq_of_currentRequest_set {l : List Request} {k : ℕ} {x : Request}
    (h : currentRequest s = some (k, r)) (hindex : s.currentIndex = some i)
    (hrequests : s.requests = l.set i x) : r = x := by
  obtain ⟨hk, hr⟩ := currentRequest_eq_some.mp h
  obtain rfl : i = k := some.inj (hindex.symm.trans hk)
  rw [hrequests] at hr
  rcases getElem?_set_cases hr with ⟨-, hx⟩ | ⟨hne, -⟩
  · exact hx
  · exact absurd rfl hne

/-- The answer to packet `j` has been counted for its transfer. -/
def counted (j : ℕ) (p : Packet) (x : DmaReqState) (s : State) : State :=
  { s with
    pending := s.pending.eraseIdx j
    reqStates := s.reqStates.set p.senderState { x with numBytes := x.numBytes + p.size }
    doneScheduled :=
      if x.numBytes + p.size = x.totBytes then s.doneScheduled + 1 else s.doneScheduled }

/-- The answer has been charged to the request at position `k`. -/
def charged (k : ℕ) (r : Request) (p : Packet) (s : State) : State :=
  { s with requests := s.requests.set k { r with bytesCompleted := r.bytesCompleted + p.size } }

/-- The answer has completed the request at position `k`. -/
def completed (k : ℕ) (r : Request) (p : Packet) (s : State) : State :=
  { s with
    dmaResources := s.dmaResources &&& ~~~r.dmaResource
    requests := s.requests.eraseIdx k
    finished := s.finished ++ [{ r with bytesCompleted := r.bytesCompleted + p.size }] }

/-- What a response can do. -/
theorem handleResp_cases {j : ℕ} (h : handleResp j s = some s') :
    ∃ p x k r, s.pending[j]? = some p ∧ s.reqStates[p.senderState]? = some x ∧
      matching p.addr s.requests = [k] ∧ s.requests[k]? = some r ∧
      (r.bytesCompleted + p.size < r.bytesExpected ∧ s' = charged k r p (counted j p x s) ∨
        r.bytesCompleted + p.size = r.bytesExpected ∧ s' = completed k r p (counted j p x s)) := by
  obtain ⟨p, hp, h⟩ := bind_eq_some_iff.mp h
  obtain ⟨x, hx, h⟩ := bind_eq_some_iff.mp h
  obtain ⟨-, h⟩ := ite_none_right_eq_some.mp h
  unfold handlePacket at h
  split at h
  · next k hk =>
    obtain ⟨r, hr, h⟩ := bind_eq_some_iff.mp h
    refine ⟨p, x, k, r, hp, hx, hk, hr, ?_⟩
    dsimp only at h
    split at h
    · next hless => exact .inl ⟨hless, (some.inj h).symm⟩
    · obtain ⟨hdone, rfl⟩ := of_guard h
      exact .inr ⟨hdone.1, rfl⟩
  · cases h

end Lemmas

end SmcSim.Dma
