import SmcSim.DmaOutstanding

/-!
# A single request

The engine serves one request that nobody disturbs, with responses that come at any time
and in any order. Every byte is moved and the request is completed if and only if it has at
least two bytes, does not end with the first byte of a slice, meets at most sixteen
slices and has no two bytes at one physical address.
-/

namespace SmcSim.Dma
open TranslationRules Tlb Interleavings List Option

def Event.Own : Event → Prop
  | .tick _ | .response _ | .done => True
  | .initiate _ _ _ _ _ _ | .cpu _ _ => False

instance : (e : Event) → Decidable e.Own
  | .tick _ | .response _ | .done => .isTrue trivial
  | .initiate _ _ _ _ _ _ | .cpu _ _ => .isFalse id

def Quiet (s : State) : Prop := s.currentState = .idle ∧ ∀ r ∈ s.requests, r.issued = true

instance (s : State) : Decidable (Quiet s) := inferInstanceAs (Decidable (_ ∧ _))

structure ServedSoFar (D : Dtlb) (line : ℕ) (r : Request) (s : State) : Prop where
  tick : s.nextStateScheduled = true → ∀ now, nextState (hardware D line) now s ≠ none
  response : ∀ j < s.pending.length, handleResp j s ≠ none
  moved : Quiet s → s.transfers.flatMap Transfer.moves = r.moves D.layout
  completed : Quiet s → s.pending = [] → s.requests = [] ∧ s.dmaResources &&& r.dmaResource = 0 ∧
    ∃ r' ∈ s.finished, r'.id = r.id ∧ r'.bytesCompleted = r'.bytesExpected ∧
      r'.bytesExpected = r.bytesExpected
  ends : ∃ s', Reached (step (hardware D line)) (fun _ e => e.Own) s s' ∧ Quiet s' ∧
    s'.pending = []

/-- The request is accepted and served correctly in every run. -/
def ServedAlone (D : Dtlb) (line : ℕ) (t : Tlb.State) (dir : Bool) (vreg memVaddr numBytes : ℕ)
    (res : BitVec 8) (now : ℕ) : Prop :=
  ∃ s₀, initiate (hardware D line) dir vreg memVaddr numBytes res now (reset t) = some s₀ ∧
    ∀ s, Reached (step (hardware D line)) (fun _ e => e.Own) s₀ s →
      ServedSoFar D line (newRequest 0 vreg memVaddr numBytes dir res) s

/-! ### Requests that are served -/

structure Alone (D : Dtlb) (r₀ : Request) (s : State) : Prop where
  accepted : s.accepted = 1
  single : s.requests.length ≤ 1
  same : ∀ r ∈ s.requests ++ s.finished, r.moves D.layout = r₀.moves D.layout
  scheduled : s.requests ≠ [] → s.nextStateScheduled = true
  free : maxOutstandingDma ≤ s.dmaDoneEventFree + s.transfers.length
  left : ∀ r ∈ s.requests, r.issued = false ∨ s.inProgress = some r.id →
    s.transfers.length + D.layout.slices r.memVstart (r.memVend + 1 - r.memVstart) =
      D.layout.slices r₀.vaddr r₀.bytesExpected
  incomplete : ∀ r ∈ s.requests, r.bytesCompleted < r.bytesExpected

variable {D : Dtlb} {line now i j : ℕ} {s s' : State} {r r₀ : Request}

theorem Alone.schedule (h : Alone D r₀ s) : Alone D r₀ { s with nextStateScheduled := true } :=
  ⟨h.accepted, h.single, h.same, fun _ => rfl, h.free, h.left, h.incomplete⟩

theorem Alone.eq_of_mem {r' : Request} (h : Alone D r₀ s) (hr : r ∈ s.requests)
    (hr' : r' ∈ s.requests) : r = r' := by
  have hsingle := h.single
  cases hrequests : s.requests with
  | nil =>
    rw [hrequests] at hr
    cases hr
  | cons x xs =>
    rw [hrequests, length_cons] at hsingle
    obtain rfl : xs = [] := eq_nil_of_length_eq_zero (by omega)
    rw [hrequests] at hr hr'
    exact (mem_singleton.mp hr).trans (mem_singleton.mp hr').symm

theorem Alone.selectRequest (hl : Ledger D s) (h : Alone D r₀ s) (hidle : s.currentState = .idle)
    (hscheduled : s.nextStateScheduled = true) : Alone D r₀ (selectRequest s) := by
  have hnone := hl.orders.idle hidle
  rcases selectRequest_cases s with ⟨i, r, hr, hissued, hs⟩ | ⟨-, hs⟩
  · rw [hs]
    refine ⟨h.accepted, h.single, h.same, fun _ => hscheduled, h.free, fun r' hr' hopen => ?_,
      h.incomplete⟩
    refine h.left r' hr' (.inl ?_)
    rcases hopen with hopen | hopen
    · exact hopen
    · have hid := some.inj hopen
      obtain rfl := eq_of_id hl.orders.requestIds (mem_of_getElem? hr) hr' hid
      exact hissued
  · rw [hs]
    exact ⟨h.accepted, h.single, h.same, fun _ => hscheduled, h.free, h.left, h.incomplete⟩

/-- What the requests have in common is kept when one is replaced by a later state of it. -/
theorem forall_set {P : Request → Prop} {requests : List Request} {x : Request}
    (h : ∀ r ∈ requests, P r) (hx : P x) : ∀ r ∈ requests.set i x, P r := by
  intro r hr
  rcases mem_or_eq_of_mem_set hr with hmem | rfl
  · exact h r hmem
  · exact hx

theorem same_set {requests finished : List Request} {x : Request}
    (h : ∀ r ∈ requests ++ finished, r.moves D.layout = r₀.moves D.layout)
    (hr : requests[i]? = some r) (hx : x.moves D.layout = r.moves D.layout) :
    ∀ r ∈ requests.set i x ++ finished, r.moves D.layout = r₀.moves D.layout := by
  intro r' hr'
  rcases mem_append.mp hr' with hreq | hfin
  · rcases mem_or_eq_of_mem_set hreq with hmem | rfl
    · exact h r' (mem_append_left _ hmem)
    · exact hx.trans (h r (mem_append_left _ (mem_of_getElem? hr)))
  · exact h r' (mem_append_right _ hfin)

/-- A transfer that leaves more than a byte goes to the end of its slice. -/
theorem Request.slices_of_more (hlt : r.memVstart < r.memVend) (hmore : r.More D.layout) :
    D.layout.slices r.memVstart (r.memVend + 1 - r.memVstart) =
      1 + D.layout.slices (r.advance D.layout).memVstart
        (r.memVend + 1 - (r.advance D.layout).memVstart) := by
  have hadvance : (r.advance D.layout).memVstart = r.memVstart + r.piece D.layout := if_pos hmore
  have hpiece : r.piece D.layout = D.layout.rest r.memVstart + 1 := by
    unfold Request.More Request.piece at hmore
    unfold Request.piece
    omega
  rw [Layout.slices_of_lt (by unfold Request.More at hmore; omega), hadvance, ← hpiece, Nat.sub_sub,
    add_comm]

theorem Alone.transferred (hl : Ledger D s) (h : Alone D r₀ s) (hphase : s.currentState = .transfer)
    (hcurrent : currentRequest s = some (i, r)) (hfree : 0 < s.dmaDoneEventFree)
    (hscheduled : s.nextStateScheduled = true) :
    Alone D r₀ (transferred (hardware D line) D.layout s i r) := by
  obtain ⟨hr, hprogress, hissued, hshape, -⟩ := hl.current_transfer hphase hcurrent
  have hmem := mem_of_getElem? hr
  refine ⟨h.accepted, ?_, same_set h.same hr rfl, fun _ => hscheduled, ?_, fun r' hr' hopen => ?_,
    forall_set h.incomplete (h.incomplete r hmem)⟩
  · change (s.requests.set i _).length ≤ 1
    rw [length_set]
    exact h.single
  · have hle := h.free
    change maxOutstandingDma ≤ s.dmaDoneEventFree - 1 + (s.transfers ++ [_]).length
    rw [length_append, length_singleton]
    omega
  · change (s.transfers ++ [_]).length + _ = _
    rw [length_append, length_singleton]
    rcases mem_set_cases hl.orders.requestIds hr hr' with rfl | ⟨hold, hne⟩
    · -- The request goes on only if more than a byte is left.
      have hmore : r.More D.layout := by
        by_contra hlast
        rcases hopen with hopen | hopen
        · rw [show r.issued = false from hopen] at hissued
          cases hissued
        · rw [show (Dma.transferred (hardware D line) D.layout s i r).inProgress = none from
            if_neg hlast] at hopen
          cases hopen
      have hbefore := h.left r hmem (.inr hprogress)
      rw [Request.slices_of_more hshape.start_lt hmore, ← add_assoc] at hbefore
      exact hbefore
    · exact absurd (congrArg Request.id (h.eq_of_mem hold hmem)) hne

theorem Alone.checkTlb (hl : Ledger D s) (h : Alone D r₀ s) (hphase : s.currentState = .tlbRefill)
    (hcurrent : currentRequest s = some (i, r)) (hscheduled : s.nextStateScheduled = true)
    (hstep : checkTlb (hardware D line) now s i r = some s') : Alone D r₀ s' := by
  have hr := (currentRequest_eq_some.mp hcurrent).2
  have hmem := mem_of_getElem? hr
  have hshape := hl.orders.shape r hmem
  have hne : s.currentState ≠ .idle := by simp [hphase]
  have hprogress := hl.orders.served hne i r hcurrent
  obtain ⟨hmapped, hpending⟩ := hl.steady.first hne hcurrent (le_of_lt hshape.start_lt)
  obtain ⟨t, ht, -⟩ := checkTlb_eq line now i hl.steady.consistent hshape.start_lt hmapped hpending
  cases hstep.symm.trans ht
  refine ⟨h.accepted, ?_, same_set h.same hr rfl, fun _ => hscheduled, h.free,
    fun r' hr' hopen => ?_, forall_set h.incomplete (h.incomplete r hmem)⟩
  · change (s.requests.set i _).length ≤ 1
    rw [length_set]
    exact h.single
  · rcases mem_set_cases hl.orders.requestIds hr hr' with rfl | ⟨hold, hid⟩
    · exact h.left r hmem (.inr hprogress)
    · exact absurd (congrArg Request.id (h.eq_of_mem hold hmem)) hid

theorem Alone.nextState (hl : Ledger D s) (h : Alone D r₀ s)
    (hstep : nextState (hardware D line) now s = some s') : Alone D r₀ s' := by
  have hl' := hl.schedule true
  rcases hl.steady.nextState_cases hstep with ⟨hempty, rfl⟩ | ⟨hidle, rfl⟩ |
    ⟨hphase, i, r, hcurrent, hstep⟩ | ⟨hphase, i, r, hcurrent, hfree, rfl⟩
  · refine ⟨h.accepted, h.single, h.same, fun hne => absurd hempty hne, h.free, fun r hr => ?_,
      h.incomplete⟩
    rw [show _ = [] from hempty] at hr
    cases hr
  · exact h.schedule.selectRequest hl' hidle rfl
  · exact h.schedule.checkTlb hl' hphase hcurrent rfl hstep
  · exact h.schedule.transferred hl' hphase hcurrent hfree rfl

theorem Alone.handleResp (h : Alone D r₀ s) (hstep : handleResp j s = some s') : Alone D r₀ s' := by
  obtain ⟨p, x, k, r, -, -, -, hr, hs⟩ := handleResp_cases hstep
  have hmem := mem_of_getElem? hr
  have hne := h.scheduled (requests_ne_nil_of_handleResp hstep)
  rcases hs with ⟨hless, rfl⟩ | ⟨-, rfl⟩
  · refine ⟨h.accepted, ?_, same_set h.same hr rfl, fun _ => hne, h.free,
      forall_set h.left (h.left r hmem), forall_set h.incomplete hless⟩
    change (s.requests.set k _).length ≤ 1
    rw [length_set]
    exact h.single
  · refine ⟨h.accepted, ?_, fun r' hr' => ?_, fun _ => hne, h.free,
      fun r' hr' => h.left r' (mem_of_mem_eraseIdx hr'),
      fun r' hr' => h.incomplete r' (mem_of_mem_eraseIdx hr')⟩
    · exact le_trans (eraseIdx_sublist _ _).length_le h.single
    · rcases mem_append.mp hr' with hreq | hfin
      · exact h.same r' (mem_append_left _ (mem_of_mem_eraseIdx hreq))
      · rcases mem_append.mp hfin with hold | hnew
        · exact h.same r' (mem_append_right _ hold)
        · obtain rfl := mem_singleton.mp hnew
          exact h.same r (mem_append_left _ hmem)

variable {e : Event} {res : BitVec 8} {dir : Bool} {memVaddr : ℕ} {t : Tlb.State}

/-- An answer that completes the request comes when nothing of it is left to be issued. -/
theorem Alone.undisturbed (hl : Ledger D s) (h : Alone D r₀ s) (hown : e.Own) :
    Undisturbed D s e := by
  cases e with
  | tick now => trivial
  | done => trivial
  | initiate | cpu => exact hown.elim
  | response j =>
    rintro hne i c ⟨p, r, hp, hmatch, hr, hdone⟩ hc
    obtain ⟨k, r', hmatch', hr', hid⟩ := hl.matching (mem_of_getElem? hp)
    obtain rfl : k = i := by
      rw [hmatch] at hmatch'
      exact (singleton_inj.mp hmatch').symm
    obtain rfl : r = r' := some.inj (hr.symm.trans hr')
    have hmem := mem_of_getElem? hr
    obtain ⟨c', r', hcurrent⟩ := hl.steady.current hne
    obtain rfl := h.eq_of_mem hmem (mem_of_getElem? (currentRequest_eq_some.mp hcurrent).2)
    have hprogress := hl.orders.served hne c' r hcurrent
    have hcharged := hl.charged.charged r hmem
    have hle := hl.orders.issuedBytes_le hmem
    have hsize := size_le_bytesOf (q := fun q => q.owner = r.id) (mem_of_getElem? hp)
      (by simp [hid])
    exact absurd hprogress (hl.orders.not_inProgress hmem (by omega))

theorem separate_of_own (hown : e.Own) : Separate D s e := by
  cases e with
  | initiate => exact hown.elim
  | tick | response | done | cpu => trivial

theorem Alone.step (hl : Ledger D s) (h : Alone D r₀ s) (hown : e.Own)
    (hstep : step (hardware D line) s e = some s') : Ledger D s' ∧ Alone D r₀ s' := by
  refine ⟨hl.step (h.undisturbed hl hown) (separate_of_own hown) hstep, ?_⟩
  cases e with
  | initiate | cpu => exact hown.elim
  | tick now => exact h.nextState hl (ite_none_right_eq_some.mp hstep).2
  | response j => exact h.handleResp hstep
  | done =>
    obtain ⟨-, rfl⟩ := of_guard hstep
    refine ⟨h.accepted, h.single, h.same, h.scheduled, ?_, h.left, h.incomplete⟩
    have hfree := h.free
    change maxOutstandingDma ≤ s.dmaDoneEventFree + 1 + s.transfers.length
    omega

/-! No tick fails, and the request can be completed. -/

theorem nextState_ne_none (line now : ℕ) (h : Ledger D s)
    (hfree : s.currentState = .transfer → 0 < s.dmaDoneEventFree) :
    nextState (hardware D line) now s ≠ none := by
  have h' := h.schedule true
  cases hphase : s.currentState with
  | idle =>
    unfold Dma.nextState
    split
    · exact some_ne_none _
    · simp only [hphase]
      exact some_ne_none _
  | tlbRefill =>
    obtain ⟨i, r, hcurrent⟩ := h.steady.current (by simp [hphase])
    obtain ⟨s₁, hs₁, -⟩ := h'.steady.checkTlb line now hphase hcurrent
    rw [(nextState_of_current _ _ hcurrent).1 hphase, hs₁]
    exact some_ne_none _
  | transfer =>
    obtain ⟨i, r, hcurrent⟩ := h.steady.current (by simp [hphase])
    obtain ⟨hr, -, -, hshape, -⟩ := h'.current_transfer hphase hcurrent
    have hcovered := (h'.steady.ready hphase i r hcurrent).2
    rw [(nextState_of_current _ _ hcurrent).2 hphase, startTransfer_eq h'.steady.consistent hcovered
      hshape.mapped_start (le_of_lt hshape.start_lt), if_pos (hfree hphase)]
    exact some_ne_none _

def workLeft (inProgress : Option ℕ) (phase : Phase) (r : Request) : ℕ :=
  if inProgress = some r.id then
    4 * (r.memVend + 1 - r.memVstart) + (if phase = .tlbRefill then 2 else 1)
  else if r.issued then 0 else 4 * r.bytesExpected + 3

def rank (s : State) : ℕ :=
  (s.requests.map (workLeft s.inProgress s.currentState)).sum + s.pending.length

theorem length_chunks_le (chunkSize addr n : ℕ) : (chunks chunkSize addr n).length ≤ n := by
  have hsum := chunks_sum chunkSize addr n
  have hpos : ∀ x ∈ (chunks chunkSize addr n).map Prod.snd, 1 ≤ x := by
    intro x hx
    obtain ⟨y, hy, rfl⟩ := List.mem_map.mp hx
    exact (chunks_inside hy).2.2
  have hle := length_le_sum_of_one_le _ hpos
  rw [hsum, length_map] at hle
  exact hle

theorem rank_of_handleResp (hstep : handleResp j s = some s') : rank s' < rank s := by
  obtain ⟨p, x, k, r, hp, -, -, hr, hs⟩ := handleResp_cases hstep
  have hj : j < s.pending.length := (List.getElem?_eq_some_iff.mp hp).1
  have hlength : (s.pending.eraseIdx j).length + 1 = s.pending.length := by
    rw [length_eraseIdx_of_lt hj]
    omega
  rcases hs with ⟨-, rfl⟩ | ⟨-, rfl⟩
  · have hsame : (s.requests.set k { r with bytesCompleted := r.bytesCompleted + p.size }).map
        (workLeft s.inProgress s.currentState) =
          s.requests.map (workLeft s.inProgress s.currentState) := map_set_same _ hr rfl
    simp only [rank, charged, counted, hsame]
    omega
  · obtain ⟨hk, rfl⟩ := List.getElem?_eq_some_iff.mp hr
    have hsum := ((getElem_cons_eraseIdx_perm hk).map
      (workLeft s.inProgress s.currentState)).sum_eq
    rw [map_cons, sum_cons] at hsum
    simp only [rank, completed, counted]
    omega

theorem rank_of_nextState (hl : Ledger D s) (hr : s.requests = [r])
    (hquiet : ¬ Quiet s) (hstep : nextState (hardware D line) now s = some s') :
    rank s' < rank s := by
  have hl' := hl.schedule true
  have hmem : r ∈ s.requests := hr ▸ mem_singleton.mpr rfl
  have hshape := hl.orders.shape r hmem
  have hrank : rank s = workLeft s.inProgress s.currentState r + s.pending.length := by
    simp [rank, hr]
  have hat : ∀ {i r'}, s.requests[i]? = some r' → i = 0 ∧ r' = r := by
    intro i r' hr'
    rw [hr] at hr'
    cases i with
    | zero => exact ⟨rfl, (some.inj hr').symm⟩
    | succ i => cases hr'
  rw [hrank]
  rcases hl.steady.nextState_cases hstep with ⟨hempty, rfl⟩ | ⟨hidle, rfl⟩ |
    ⟨hphase, i, r', hcurrent, hstep⟩ | ⟨hphase, i, r', hcurrent, -, rfl⟩
  · rw [hr] at hempty
    cases hempty
  · have hnone := hl.orders.idle hidle
    rcases selectRequest_cases { s with nextStateScheduled := true } with
      ⟨i, r', hr', hissued, hs⟩ | ⟨hall, -⟩
    · obtain ⟨rfl, rfl⟩ := hat hr'
      have hstart := hshape.unissued hissued
      have hstop := hshape.stop_eq
      rw [hs]
      simp only [rank, hr, map_cons, map_nil, sum_cons, sum_nil, workLeft,
        hissued, hnone]
      simp
      omega
    · exact absurd ⟨hidle, hall⟩ hquiet
  · obtain ⟨rfl, rfl⟩ := hat (currentRequest_eq_some.mp hcurrent).2
    have hne : s.currentState ≠ .idle := by simp [hphase]
    have hprogress := hl.orders.served hne 0 r' hcurrent
    obtain ⟨hmapped, hpending⟩ := hl.steady.first hne hcurrent (le_of_lt hshape.start_lt)
    obtain ⟨t, ht, -⟩ :=
      checkTlb_eq line now 0 hl'.steady.consistent hshape.start_lt hmapped hpending
    cases hstep.symm.trans ht
    simp [rank, hr, workLeft, hprogress, hphase]
  · obtain ⟨hr', hprogress, hissued, -, -⟩ := hl'.current_transfer hphase hcurrent
    obtain ⟨rfl, rfl⟩ := hat hr'
    have hpos := Request.piece_pos D.layout (le_of_lt hshape.start_lt)
    have hle := Request.piece_le D.layout (le_of_lt hshape.start_lt)
    have hchunks := length_chunks_le line (D.layout.physical r'.memVstart) (r'.piece D.layout)
    have hprogress' : s.inProgress = some r'.id := hprogress
    by_cases hmore : r'.More D.layout
    · simp [rank, hr, workLeft, hprogress', hphase, Dma.transferred, dmaAction, Request.advance,
        hmore, hardware]
      omega
    · simp [rank, hr, workLeft, hprogress', hphase, Dma.transferred, dmaAction, Request.advance,
        hmore, hardware, hissued]
      omega

/-- The engine has nothing to answer when it has no request. -/
theorem Ledger.pending_of_empty (h : Ledger D s) (hempty : s.requests = []) :
    s.currentState = .idle ∧ s.pending = [] := by
  constructor
  · by_contra hne
    obtain ⟨i, r, hcurrent⟩ := h.steady.current hne
    have hr := (currentRequest_eq_some.mp hcurrent).2
    rw [hempty] at hr
    cases hr
  · rw [eq_nil_iff_forall_not_mem]
    intro p hp
    have hrequest := (h.charged.packets p hp).request
    rw [hempty] at hrequest
    cases hrequest

/-- With at most sixteen slices there is always an event left for the next transfer. -/
theorem Alone.free_pos (hl : Ledger D s) (h : Alone D r₀ s)
    (hslices : D.layout.slices r₀.vaddr r₀.bytesExpected ≤ maxOutstandingDma)
    (hphase : s.currentState = .transfer) : 0 < s.dmaDoneEventFree := by
  obtain ⟨i, r, hcurrent⟩ := hl.steady.current (by simp [hphase])
  obtain ⟨hr, hprogress, -, hshape, -⟩ := hl.current_transfer hphase hcurrent
  have hleft := h.left r (mem_of_getElem? hr) (.inr hprogress)
  have hlt := hshape.start_lt
  have hpos := Layout.slices_pos (L := D.layout) (a := r.memVstart)
    (n := r.memVend + 1 - r.memVstart) (by omega)
  have hfree := h.free
  omega

theorem Alone.exists_completed (hl : Ledger D s) (h : Alone D r₀ s)
    (hslices : D.layout.slices r₀.vaddr r₀.bytesExpected ≤ maxOutstandingDma) :
    ∃ s', Reached (Dma.step (hardware D line)) (fun _ e => e.Own) s s' ∧ Quiet s' ∧
      s'.pending = [] := by
  refine exists_reached_goal (P := fun s => Ledger D s ∧ Alone D r₀ s) rank (fun s hs hnot => ?_)
    ⟨hl, h⟩
  obtain ⟨hl, h⟩ := hs
  by_cases hpending : s.pending = []
  · have hquiet : ¬ Quiet s := fun hquiet => hnot ⟨hquiet, hpending⟩
    have hne : s.requests ≠ [] := by
      intro hempty
      refine hquiet ⟨(hl.pending_of_empty hempty).1, fun r hr => ?_⟩
      rw [hempty] at hr
      cases hr
    obtain ⟨r, hr⟩ : ∃ r, s.requests = [r] := by
      refine length_eq_one_iff.mp (le_antisymm h.single ?_)
      exact length_pos_iff.mpr hne
    obtain ⟨s', hs'⟩ := ne_none_iff_exists'.mp
      (nextState_ne_none line 0 hl (h.free_pos hl hslices))
    have hstep : Dma.step (hardware D line) s (.tick 0) = some s' := by
      rw [Dma.step, if_pos (h.scheduled hne), hs']
    exact ⟨.tick 0, s', trivial, hstep, h.step (e := .tick 0) hl trivial hstep,
      rank_of_nextState hl hr hquiet hs'⟩
  · have hj : 0 < s.pending.length := length_pos_iff.mpr hpending
    obtain ⟨s', hs'⟩ := ne_none_iff_exists'.mp (hl.handleResp_ne_none hj)
    have hstep : Dma.step (hardware D line) s (.response 0) = some s' := hs'
    exact ⟨.response 0, s', trivial, hstep, h.step (e := .response 0) hl trivial hstep,
      rank_of_handleResp hs'⟩

theorem Alone.servedSoFar (hl : Ledger D s) (h : Alone D r₀ s) (hid : r₀.id = 0)
    (hslices : D.layout.slices r₀.vaddr r₀.bytesExpected ≤ maxOutstandingDma) :
    ServedSoFar D line r₀ s := by
  -- All transfers are for the one request.
  have hall : issuedMoves 0 s.transfers = s.transfers.flatMap Transfer.moves := by
    have howners : transfersOf 0 s.transfers = s.transfers := by
      rw [transfersOf, filter_eq_self]
      intro t ht
      have hlt := hl.moved.owners t ht
      rw [h.accepted] at hlt
      simpa using hlt
    rw [issuedMoves, howners]
  have hzero : ∀ r ∈ s.requests ++ s.finished, r.id = 0 := by
    intro r hr
    have hlt := (hl.orders.known r.id).mp (by
      rw [allIds, ← map_append]
      exact List.mem_map_of_mem hr)
    rw [h.accepted] at hlt
    omega
  have hwell := hl.wellServed h.scheduled
  obtain ⟨r', hr', -⟩ := hwell.accepted 0 (by rw [h.accepted]; exact Nat.one_pos)
  refine ⟨fun _ now => nextState_ne_none line now hl (h.free_pos hl hslices),
    fun j hj => hl.handleResp_ne_none hj, fun hquiet => ?_, fun hquiet hpending => ?_,
    h.exists_completed hl hslices⟩
  · rw [← hall, ← h.same r' hr', ← hzero r' hr']
    rcases mem_append.mp hr' with hreq | hfin
    · refine hwell.moved r' hreq (hquiet.2 r' hreq) ?_
      rw [hl.orders.idle hquiet.1]
      exact (some_ne_none _).symm
    · exact (hwell.finished r' hfin).1
  · have hempty : s.requests = [] := by
      rw [eq_nil_iff_forall_not_mem]
      intro r hr
      have hcharged := hl.charged.charged r hr
      rw [hpending, issuedBytes, hl.orders.idle hquiet.1, if_neg (some_ne_none _).symm,
        if_pos (hquiet.2 r hr)] at hcharged
      exact absurd hcharged (ne_of_lt (h.incomplete r hr))
    rw [hempty, nil_append] at hr'
    refine ⟨hempty, ?_, r', hr', ?_, (hwell.finished r' hr').2, ?_⟩
    · rw [hl.reserved.busy, resources, hempty]
      simp
    · rw [hid]
      exact hzero r' (mem_append_right _ hr')
    · have hsame := h.same r' (mem_append_right _ hr')
      rw [← Request.length_moves (L := D.layout), hsame, Request.length_moves]

/-- The engine with its first request, for which a tick has been made at once. -/
def started (t : Tlb.State) (r : Request) : State :=
  { reset t with
    dmaResources := r.dmaResource
    requests := [r]
    accepted := 1
    nextStateScheduled := true
    currentIndex := some 0
    currentState := .tlbRefill
    inProgress := some r.id }

theorem initiate_reset (H : Hardware) (t : Tlb.State) (dir : Bool) (vreg memVaddr numBytes : ℕ)
    (now : ℕ) (hres : res ≠ 0) :
    initiate H dir vreg memVaddr numBytes res now (reset t) =
      some (started t (newRequest 0 vreg memVaddr numBytes dir res)) := by
  have hne : ¬ res = 0#8 := hres
  simp [initiate, started, reset, hne, Dma.nextState, Dma.selectRequest, newRequest]

theorem undisturbed_reset {vreg numBytes : ℕ}
    (hpending : t.pendingRefills = []) (hbytes : 1 ≤ numBytes)
    (hmapped : ∀ k < numBytes, D.layout.Mapped (memVaddr + k)) :
    Undisturbed D (reset t) (.initiate dir vreg memVaddr numBytes res now) := by
  refine ⟨rfl, hbytes, fun a hle hlt => ⟨?_, ?_⟩⟩
  · have ha := hmapped (a - memVaddr) (by omega)
    rwa [Nat.add_sub_cancel' hle] at ha
  · change entryAddr D.config a ∉ t.pendingRefills
    rw [hpending]
    exact not_mem_nil

theorem slices_newRequest {numBytes : ℕ} (hbytes : 1 ≤ numBytes) :
    D.layout.slices memVaddr (memVaddr + numBytes - 1 + 1 - memVaddr) =
      D.layout.slices memVaddr numBytes := by
  have hsize : memVaddr + numBytes - 1 + 1 - memVaddr = numBytes := by omega
  rw [hsize]

theorem servedAlone_of {vreg numBytes : ℕ}
    (ht : Consistent D t) (hpending : t.pendingRefills = []) (hres : res ≠ 0)
    (hmapped : ∀ k < numBytes, D.layout.Mapped (memVaddr + k)) (htwo : 2 ≤ numBytes)
    (htail : 0 < D.layout.rest (memVaddr + numBytes - 2))
    (hdistinct : ((newRequest 0 vreg memVaddr numBytes dir res).paddrs D.layout).Nodup)
    (hslices : D.layout.slices memVaddr numBytes ≤ maxOutstandingDma) :
    ServedAlone D line t dir vreg memVaddr numBytes res now := by
  have hinit := initiate_reset (hardware D line) t dir vreg memVaddr numBytes now hres
  have hok : Undisturbed D (reset t) (.initiate dir vreg memVaddr numBytes res now) :=
    undisturbed_reset hpending (by omega) hmapped
  have hsep : Separate D (reset t) (.initiate dir vreg memVaddr numBytes res now) := by
    refine ⟨htwo, htail, ?_⟩
    simpa [reset] using hdistinct
  have hstep : Dma.step (hardware D line) (reset t)
      (.initiate dir vreg memVaddr numBytes res now) = some _ := hinit
  have hl := (ledger_reset ht).step hok hsep hstep
  refine ⟨_, hinit, fun s hs => ?_⟩
  have hinv : Ledger D s ∧ Alone D (newRequest 0 vreg memVaddr numBytes dir res) s := by
    refine hs.invariant (I := fun s => Ledger D s ∧
      Alone D (newRequest 0 vreg memVaddr numBytes dir res) s) ⟨hl, ?_⟩
      (fun s e s' h hown hstep => h.2.step h.1 hown hstep)
    refine ⟨rfl, le_refl 1, fun r hr => ?_, fun _ => rfl, le_rfl, fun r hr _ => ?_,
      fun r hr => ?_⟩
    · obtain rfl := mem_singleton.mp hr
      rfl
    · obtain rfl := mem_singleton.mp hr
      change 0 + D.layout.slices memVaddr (memVaddr + numBytes - 1 + 1 - memVaddr) = _
      rw [slices_newRequest (by omega), zero_add]
      rfl
    · obtain rfl := mem_singleton.mp hr
      change 0 < numBytes
      omega
  exact hinv.2.servedSoFar hinv.1 rfl hslices

/-! ### Requests that are not served

If no response comes, the ticks make all transfers, and the responses to them show whether
two of them overlap. -/

structure Ticking (D : Dtlb) (r₀ : Request) (s : State) (r : Request) : Prop where
  steady : Steady D s
  requests : s.requests = [r]
  shape : r.Shape D.layout
  moves : r.moves D.layout = r₀.moves D.layout
  vend : r.memVend = r₀.memVend
  vaddr : r.vaddr = r₀.vaddr
  ranges : r.memRanges = s.transfers.map Transfer.range
  scheduled : s.nextStateScheduled = true
  free : s.dmaDoneEventFree + s.transfers.length = maxOutstandingDma
  firsts : ∀ t ∈ s.transfers, 0 < t.size ∧ ∃ p ∈ s.pending, p.addr = t.addr
  serving : s.currentState ≠ .idle → s.currentIndex = some 0 ∧
    s.transfers.flatMap Transfer.moves = (r.moves D.layout).take (r.memVstart - r.vaddr) ∧
    s.transfers.length + D.layout.slices r.memVstart (r.memVend + 1 - r.memVstart) =
      D.layout.slices r.vaddr r.bytesExpected
  issued : s.currentState ≠ .tlbRefill → r.issued = true
  ended : s.currentState = .idle → (s.transfers.flatMap Transfer.moves).length < r.bytesExpected ∨
    r.Tail D.layout ∧ s.transfers.length = D.layout.slices r.vaddr r.bytesExpected

theorem Ticking.current (h : Ticking D r₀ s r) (hne : s.currentState ≠ .idle) :
    currentRequest s = some (0, r) :=
  currentRequest_eq_some.mpr ⟨(h.serving hne).1, h.requests ▸ rfl⟩

theorem Ticking.refill (h : Ticking D r₀ s r) (hphase : s.currentState = .tlbRefill)
    (hstep : nextState (hardware D line) now s = some s') :
    s'.currentState = .transfer ∧ Ticking D r₀ s' { r with issued := true } := by
  have hne : s.currentState ≠ .idle := by simp [hphase]
  have hsteady := h.steady.nextState hstep
  have hlt := h.shape.start_lt
  obtain ⟨-, hpending⟩ := h.steady.first hne (h.current hne) (le_of_lt hlt)
  obtain ⟨t, ht, -⟩ := checkTlb_eq (s := { s with nextStateScheduled := true }) line now 0
    h.steady.consistent hlt h.shape.mapped_start hpending
  rw [(nextState_of_current _ _ (h.current hne)).1 hphase, ht] at hstep
  cases hstep
  obtain ⟨hindex, hmoves, hslices⟩ := h.serving hne
  refine ⟨rfl, hsteady, ?_, h.shape.issue, h.moves, h.vend, h.vaddr, h.ranges, rfl, h.free,
    h.firsts,
    fun _ => ⟨hindex, hmoves, hslices⟩, fun _ => rfl, (fun hidle => by cases hidle)⟩
  change s.requests.set 0 _ = _
  rw [h.requests]
  rfl

theorem Ticking.transfer (h : Ticking D r₀ s r) (hphase : s.currentState = .transfer)
    (hstep : nextState (hardware D line) now s = some s') :
    s'.currentState = (if r.More D.layout then .tlbRefill else .idle) ∧
      Ticking D r₀ s' (r.advance D.layout) := by
  have hne : s.currentState ≠ .idle := by simp [hphase]
  have hsteady := h.steady.nextState hstep
  have hcurrent := h.current hne
  have hshape := h.shape
  have hlt := hshape.start_lt
  have hissued := h.issued (by simp [hphase])
  have hcovered := (h.steady.ready hphase 0 r hcurrent).2
  obtain ⟨hindex, hmoves, hslices⟩ := h.serving hne
  rw [(nextState_of_current _ _ hcurrent).2 hphase, startTransfer_eq
    (s := { s with nextStateScheduled := true }) h.steady.consistent hcovered hshape.mapped_start
    (le_of_lt hlt)] at hstep
  split at hstep
  · next hfree =>
    cases hstep
    have hall : (s.transfers ++ [r.transfer D.layout]).flatMap Transfer.moves =
        (r.moves D.layout).take (r.memVstart - r.vaddr + r.piece D.layout) := by
      rw [hshape.take_moves, flatMap_append, hmoves, flatMap_singleton]
    have hlength : (s.transfers ++ [r.transfer D.layout]).length = s.transfers.length + 1 := by
      rw [length_append, length_singleton]
    have hpiece := Request.piece_pos D.layout (le_of_lt hlt)
    refine ⟨rfl, hsteady, ?_, hshape.advance hissued, h.moves, h.vend, h.vaddr, ?_, rfl, ?_,
      fun t ht => ?_, fun hserving => ⟨hindex, ?_⟩, fun _ => hissued, fun hidle => ?_⟩
    · change s.requests.set 0 _ = _
      rw [h.requests]
      rfl
    · change r.memRanges ++ [(r.transfer D.layout).range] =
        (s.transfers ++ [r.transfer D.layout]).map Transfer.range
      rw [map_append, h.ranges]
      rfl
    · have hbefore := h.free
      have hpos : 0 < s.dmaDoneEventFree := hfree
      change s.dmaDoneEventFree - 1 + (s.transfers ++ [r.transfer D.layout]).length = _
      omega
    · rcases mem_append.mp ht with hold | hnew
      · obtain ⟨hsize, p, hp, haddr⟩ := h.firsts t hold
        exact ⟨hsize, p, mem_append_left _ hp, haddr⟩
      · obtain rfl := mem_singleton.mp hnew
        obtain ⟨size, -, -, -, hchunks⟩ :=
          chunks_cons line (D.layout.physical r.memVstart) hpiece
        refine ⟨hpiece, ⟨D.layout.physical r.memVstart, size, s.reqStates.length, r.id⟩, ?_, rfl⟩
        refine mem_append_right _ (List.mem_map.mpr ⟨(_, size), ?_, rfl⟩)
        change (D.layout.physical r.memVstart, size) ∈
          chunks line (D.layout.physical r.memVstart) (r.piece D.layout)
        rw [hchunks]
        exact mem_cons_self
    · -- More than one byte is left, so the transfer went to the end of a slice.
      have hmore : r.More D.layout := by
        by_contra hlast
        exact hserving (if_neg hlast)
      have hadvance : (r.advance D.layout).memVstart = r.memVstart + r.piece D.layout :=
        if_pos hmore
      constructor
      · rw [hadvance]
        change (s.transfers ++ [r.transfer D.layout]).flatMap Transfer.moves =
          (r.moves D.layout).take (r.memVstart + r.piece D.layout - r.vaddr)
        rw [hall, Nat.sub_add_comm hshape.start_le]
      · rw [Request.slices_of_more hlt hmore, ← add_assoc, ← hlength] at hslices
        exact hslices
    · have hlast : ¬ r.More D.layout := by
        intro hmore
        have hrefill : (transferred (hardware D line) D.layout
            { s with nextStateScheduled := true } 0 r).currentState = .tlbRefill := if_pos hmore
        rw [hrefill] at hidle
        cases hidle
      have hstop := hshape.stop_eq
      have hstart := hshape.start_le
      have hle := Request.piece_le D.layout (le_of_lt hlt)
      by_cases htail : r.Tail D.layout
      · refine .inr ⟨htail, ?_⟩
        have hend := (hshape.last hlast).mpr htail
        have hone : D.layout.slices r.memVstart (r.memVend + 1 - r.memVstart) = 1 := by
          obtain ⟨k, hk⟩ : ∃ k, r.memVend + 1 - r.memVstart = k + 1 :=
            ⟨r.memVend - r.memVstart, by omega⟩
          have hrest : k - D.layout.rest r.memVstart = 0 := by
            unfold Request.piece at hend
            omega
          rw [hk, Layout.slices, hrest, Layout.slices]
        change (s.transfers ++ [r.transfer D.layout]).length =
          D.layout.slices r.vaddr r.bytesExpected
        omega
      · refine .inl ?_
        have hend : r.memVstart + r.piece D.layout ≠ r.memVend + 1 :=
          fun he => htail ((hshape.last hlast).mp he)
        change ((s.transfers ++ [r.transfer D.layout]).flatMap Transfer.moves).length <
          r.bytesExpected
        rw [hall, length_take, Request.length_moves]
        omega
  · cases hstep

def ticksLeft (s : State) : ℕ :=
  match s.currentState with
  | .idle => 0
  | .tlbRefill => 2 * (s.requests.map (fun r => r.memVend + 1 - r.memVstart)).sum + 1
  | .transfer => 2 * (s.requests.map (fun r => r.memVend + 1 - r.memVstart)).sum

theorem Ticking.tick (h : Ticking D r₀ s r) (hne : s.currentState ≠ .idle)
    (hstep : nextState (hardware D line) now s = some s') :
    (∃ r', Ticking D r₀ s' r') ∧ ticksLeft s' < ticksLeft s := by
  have hlt := h.shape.start_lt
  cases hphase : s.currentState with
  | idle => exact absurd hphase hne
  | tlbRefill =>
    obtain ⟨hphase', h'⟩ := h.refill hphase hstep
    refine ⟨⟨_, h'⟩, ?_⟩
    simp [ticksLeft, hphase, hphase', h.requests, h'.requests]
  | transfer =>
    obtain ⟨hphase', h'⟩ := h.transfer hphase hstep
    have hpos := Request.piece_pos D.layout (le_of_lt hlt)
    refine ⟨⟨_, h'⟩, ?_⟩
    by_cases hmore : r.More D.layout
    · rw [if_pos hmore] at hphase'
      simp [ticksLeft, hphase, hphase', h.requests, h'.requests, Request.advance, hmore]
      omega
    · rw [if_neg hmore] at hphase'
      simp [ticksLeft, hphase, hphase', h.requests]
      omega

/-- If no tick panics, the ticks alone make the last transfer. -/
theorem Ticking.exists_idle {s₀ : State} (h : Ticking D r₀ s₀ r)
    (hserved : ∀ s, Reached (step (hardware D line)) (fun _ e => e.Own) s₀ s →
      ServedSoFar D line r₀ s) :
    ∃ s, Reached (step (hardware D line)) (fun _ e => e.Own) s₀ s ∧ s.currentState = .idle ∧
      ∃ r, Ticking D r₀ s r := by
  have hcloser : ∀ s, (Reached (step (hardware D line)) (fun _ e => e.Own) s₀ s ∧
      ∃ r, Ticking D r₀ s r) → ¬ s.currentState = .idle → ∃ e s', Event.Own e ∧
      step (hardware D line) s e = some s' ∧ (Reached (step (hardware D line)) (fun _ e => e.Own)
        s₀ s' ∧ ∃ r, Ticking D r₀ s' r) ∧ ticksLeft s' < ticksLeft s := by
    rintro s ⟨hreached, r', hticking⟩ hne
    obtain ⟨s', hs'⟩ := ne_none_iff_exists'.mp ((hserved s hreached).tick hticking.scheduled 0)
    have hstep : step (hardware D line) s (.tick 0) = some s' := by
      rw [step, if_pos hticking.scheduled, hs']
    obtain ⟨hticking', hless⟩ := hticking.tick hne hs'
    exact ⟨.tick 0, s', trivial, hstep, ⟨.next hreached (l := .tick 0) trivial hstep, hticking'⟩,
      hless⟩
  obtain ⟨s, hs, ⟨-, hticking⟩, hidle⟩ := exists_reached ticksLeft hcloser ⟨.start, r, h⟩
  exact ⟨s, hs, hidle, hticking⟩

/-- If every packet can be answered, no two transfers overlap. -/
theorem Ticking.nodup (h : Ticking D r₀ s r)
    (hresponse : ∀ j < s.pending.length, handleResp j s ≠ none) :
    ((s.transfers.flatMap Transfer.moves).map Move.paddr).Nodup := by
  rw [← rangeAddrs_ranges (fun t ht => (h.firsts t ht).1), ← h.ranges]
  refine nodup_of_starts (fun g hg => ?_) (fun g hg => ?_)
  · rw [h.ranges] at hg
    obtain ⟨t, -, rfl⟩ := List.mem_map.mp hg
    exact Nat.le_add_right _ _
  · rw [h.ranges] at hg
    obtain ⟨t, ht, rfl⟩ := List.mem_map.mp hg
    obtain ⟨-, p, hp, haddr⟩ := h.firsts t ht
    obtain ⟨j, hj, hget⟩ := mem_iff_getElem.mp hp
    obtain ⟨s', hs'⟩ := ne_none_iff_exists'.mp (hresponse j hj)
    obtain ⟨p', x, k, r', hp', -, hmatching, -⟩ := handleResp_cases hs'
    obtain rfl : p = p' := by
      rw [getElem?_eq_getElem hj, hget] at hp'
      exact some.inj hp'
    have hlength := congrArg List.length hmatching
    rw [matching, h.requests] at hlength
    simp only [zipIdx_cons, zipIdx_nil, flatMap_cons, flatMap_nil,
      append_nil, length_map, length_cons, length_nil, haddr] at hlength
    exact le_of_eq hlength

/-- A request of one byte is never transferred. -/
theorem not_servedAlone_of_single {vreg : ℕ}
    (hres : res ≠ 0) : ¬ ServedAlone D line t dir vreg memVaddr 1 res now := by
  rintro ⟨s₀, hinit, hserved⟩
  rw [initiate_reset _ _ _ _ _ _ _ hres] at hinit
  cases hinit
  have hcurrent : currentRequest (started t (newRequest 0 vreg memVaddr 1 dir res)) =
      some (0, newRequest 0 vreg memVaddr 1 dir res) := currentRequest_eq_some.mpr ⟨rfl, rfl⟩
  have hle : (newRequest 0 vreg memVaddr 1 dir res).memVend ≤
      (newRequest 0 vreg memVaddr 1 dir res).memVstart := le_refl memVaddr
  have htick := ((nextState_of_current (hardware D line) 0 hcurrent).1 rfl).trans
    (checkTlb_of_single hle)
  have hmoved := (hserved _ (.next .start (l := .tick 0) trivial htick)).moved ⟨rfl, ?_⟩
  · cases hmoved
  · intro r hr
    obtain rfl := mem_singleton.mp hr
    rfl

theorem ticking_started {vreg numBytes : ℕ}
    (ht : Consistent D t) (hpending : t.pendingRefills = []) (hres : res ≠ 0) (htwo : 2 ≤ numBytes)
    (hmapped : ∀ k < numBytes, D.layout.Mapped (memVaddr + k)) :
    Ticking D (newRequest 0 vreg memVaddr numBytes dir res)
      (started t (newRequest 0 vreg memVaddr numBytes dir res))
      (newRequest 0 vreg memVaddr numBytes dir res) := by
  have hok : Undisturbed D (reset t) (.initiate dir vreg memVaddr numBytes res 0) :=
    undisturbed_reset hpending (by omega) hmapped
  have hinit := initiate_reset (hardware D 0) t dir vreg memVaddr numBytes 0 hres
  refine ⟨(steady_reset ht).initiate hok hinit, rfl, newRequest_shape 0 htwo hmapped, rfl, rfl, rfl,
    rfl, rfl, rfl, fun x hx => ?_, fun _ => ⟨rfl, ?_, ?_⟩, fun hne => absurd rfl hne,
    (fun hidle => by cases hidle)⟩
  · cases hx
  · change [] = List.take (memVaddr - memVaddr) _
    rw [Nat.sub_self]
    rfl
  · change 0 + D.layout.slices memVaddr (memVaddr + numBytes - 1 + 1 - memVaddr) = _
    rw [slices_newRequest (by omega), zero_add]
    rfl

/-- A request that nobody disturbs is served if and only if it has at least two bytes, its
last two bytes are in one slice, its bytes have different physical addresses and it
meets at most sixteen slices. -/
theorem servedAlone_iff (D : Dtlb) (line : ℕ) (t : Tlb.State) (dir : Bool)
    (vreg memVaddr numBytes : ℕ) (res : BitVec 8) (now : ℕ) (ht : Consistent D t)
    (hpending : t.pendingRefills = []) (hres : res ≠ 0) (hbytes : 1 ≤ numBytes)
    (hmapped : ∀ k < numBytes, D.layout.Mapped (memVaddr + k)) :
    ServedAlone D line t dir vreg memVaddr numBytes res now ↔
      2 ≤ numBytes ∧ 0 < D.layout.rest (memVaddr + numBytes - 2) ∧
        ((newRequest 0 vreg memVaddr numBytes dir res).paddrs D.layout).Nodup ∧
        D.layout.slices memVaddr numBytes ≤ maxOutstandingDma := by
  constructor
  · intro h
    have htwo : 2 ≤ numBytes := by
      by_contra hone
      obtain rfl : numBytes = 1 := by omega
      exact not_servedAlone_of_single hres h
    obtain ⟨s₀, hinit, hserved⟩ := h
    rw [initiate_reset _ _ _ _ _ _ _ hres] at hinit
    cases hinit
    obtain ⟨s, hs, hidle, r, hr⟩ :=
      (ticking_started ht hpending hres htwo hmapped).exists_idle hserved
    have hquiet : Quiet s := by
      refine ⟨hidle, fun r' hr' => ?_⟩
      rw [hr.requests] at hr'
      obtain rfl := mem_singleton.mp hr'
      exact hr.issued (by simp [hidle])
    have hmoved := (hserved s hs).moved hquiet
    have hexpected : r.bytesExpected = numBytes := by
      have hlength := congrArg List.length hr.moves
      rw [Request.length_moves, Request.length_moves] at hlength
      exact hlength
    rcases hr.ended hidle with hshort | ⟨htail, hslices⟩
    · rw [hmoved, Request.length_moves, hexpected] at hshort
      exact absurd hshort (lt_irrefl _)
    · refine ⟨htwo, ?_, ?_, ?_⟩
      · have htail' : 0 < D.layout.rest (r.memVend - 1) := htail
        rw [hr.vend] at htail'
        change 0 < D.layout.rest (memVaddr + numBytes - 1 - 1) at htail'
        rwa [Nat.sub_sub] at htail'
      · rw [Request.paddrs, ← hmoved]
        exact hr.nodup (hserved s hs).response
      · have hfree := hr.free
        rw [hr.vaddr, hexpected] at hslices
        change _ = D.layout.slices memVaddr numBytes at hslices
        omega
  · rintro ⟨htwo, htail, hdistinct, hslices⟩
    exact servedAlone_of ht hpending hres hmapped htwo htail hdistinct hslices

theorem servedAlone_acrossPages :
    ServedAlone fourPagesDtlb 64 (initial scratchpad) true 0 0x8ffc 8 1 0 := by
  refine (servedAlone_iff fourPagesDtlb 64 (initial scratchpad) true 0 0x8ffc 8 1 0
    (consistent_initial fourPagesDtlb) rfl (by decide) (by decide) (fun k hk => ?_)).mpr
    ⟨by decide, by decide, by decide, by decide +kernel⟩
  exact ⟨le_trans (by decide) (Nat.le_add_right _ k),
    lt_of_lt_of_le (Nat.add_lt_add_left hk _) (by decide)⟩

/-- Of five bytes the last one is in the second page. It is never moved, and when all
packets are answered the request waits for it. -/
theorem lastByte_not_moved : ∃ s₀ s,
    initiate (hardware fourPagesDtlb 64) true 0 0x8ffc 5 1 0 (reset (initial scratchpad)) =
      some s₀ ∧
    Reached (step (hardware fourPagesDtlb 64)) (fun _ e => e.Own) s₀ s ∧ Quiet s ∧
    s.pending = [] ∧ s.transfers.map Transfer.range = [⟨0x10ffc, 0x10fff⟩] ∧
    s.requests.map (fun r => (r.bytesCompleted, r.bytesExpected)) = [(4, 5)] ∧
    ¬ ServedAlone fourPagesDtlb 64 (initial scratchpad) true 0 0x8ffc 5 1 0 := by
  have hinit := initiate_reset (hardware fourPagesDtlb 64) (initial scratchpad) true 0 0x8ffc 5 0
    (show (1 : BitVec 8) ≠ 0 by decide)
  have hrun : (runSchedule (guarded (step (hardware fourPagesDtlb 64)) (fun _ e => e.Own))
      (started (initial scratchpad) (newRequest 0 0 0x8ffc 5 true 1))
      [.tick 1, .tick 2, .response 0]).map (fun s => (decide (Quiet s), s.pending,
        s.transfers.map Transfer.range,
        s.requests.map (fun r => (r.bytesCompleted, r.bytesExpected)))) =
      some (true, [], [⟨0x10ffc, 0x10fff⟩], [(4, 5)]) := by
    decide +kernel
  obtain ⟨s, hs, hvalues⟩ := exists_of_runSchedule _ hrun
  simp only [Prod.mk.injEq, decide_eq_true_eq] at hvalues
  obtain ⟨hquiet, hpending, hranges, hrequests⟩ := hvalues
  refine ⟨_, s, hinit, hs, hquiet, hpending, hranges, hrequests, ?_⟩
  rintro ⟨s₀, hinit', hserved⟩
  cases hinit.symm.trans hinit'
  have hempty := ((hserved s hs).completed hquiet hpending).1
  rw [hempty] at hrequests
  cases hrequests

end SmcSim.Dma
