import SmcSim.DmaSharing
import SmcSim.DmaPackets

/-!
# The ledger of the DMA engine

What has been moved for each request, and how many of its bytes have been answered. The
bytes that a request has been issued are the first ones that it asks for, in order, and
every packet that is not answered is of a request that is still outstanding.
-/

namespace SmcSim.Dma
open TranslationRules Tlb List Option

/-- One byte goes from physical memory to the vector register, or back. -/
structure Move where
  isRead : Bool
  paddr : ℕ
  vreg : ℕ
  deriving DecidableEq, Repr

def Request.moves (L : Layout) (r : Request) : List Move :=
  (List.range r.bytesExpected).map
    (fun k => ⟨r.isRead, L.physical (r.vaddr + k), r.vreg + k⟩)

def Request.paddrs (L : Layout) (r : Request) : List ℕ := (r.moves L).map Move.paddr

def Transfer.moves (t : Transfer) : List Move :=
  (List.range t.size).map (fun k => ⟨t.isRead, t.addr + k, t.data + k⟩)

def Transfer.range (t : Transfer) : Range := ⟨t.addr, t.addr + (t.size - 1)⟩

def Request.transfer (L : Layout) (r : Request) : Transfer :=
  ⟨r.id, r.isRead, L.physical r.memVstart, r.piece L, r.vregPtr⟩

def transfersOf (id : ℕ) (ts : List Transfer) : List Transfer := ts.filter (fun t => t.owner = id)

def issuedMoves (id : ℕ) (ts : List Transfer) : List Move :=
  (transfersOf id ts).flatMap Transfer.moves

def issuedBytes (inProgress : Option ℕ) (r : Request) : ℕ :=
  if inProgress = some r.id then r.memVstart - r.vaddr
  else if r.issued then r.bytesExpected else 0

structure Request.Shape (L : Layout) (r : Request) : Prop where
  stop_eq : r.memVend + 1 = r.vaddr + r.bytesExpected
  start_le : r.vaddr ≤ r.memVstart
  start_lt : r.memVstart < r.memVend
  vreg_eq : r.vregPtr = r.vreg + (r.memVstart - r.vaddr)
  unissued : r.issued = false → r.memVstart = r.vaddr
  mapped : ∀ k < r.bytesExpected, L.Mapped (r.vaddr + k)

/-- The last two bytes are in one slice. -/
def Request.Tail (L : Layout) (r : Request) : Prop := 0 < L.rest (r.memVend - 1)

/-- The numbers of the requests that are outstanding or finished. -/
def allIds (s : State) : List ℕ := s.requests.map Request.id ++ s.finished.map Request.id

structure Orders (D : Dtlb) (s : State) : Prop where
  shape : ∀ r ∈ s.requests, r.Shape D.layout
  tail : ∀ r ∈ s.requests, r.Tail D.layout
  ids : (allIds s).Nodup
  known : ∀ k, k ∈ allIds s ↔ k < s.accepted
  served : s.currentState ≠ .idle → ∀ i r, currentRequest s = some (i, r) →
    s.inProgress = some r.id
  idle : s.currentState = .idle → s.inProgress = none
  issued : s.currentState = .transfer → ∀ i r, currentRequest s = some (i, r) → r.issued = true
  distinct : (s.requests.flatMap (Request.paddrs D.layout)).Nodup

structure Moved (D : Dtlb) (s : State) : Prop where
  owners : ∀ t ∈ s.transfers, t.owner < s.accepted
  moved : ∀ r ∈ s.requests,
    issuedMoves r.id s.transfers = (r.moves D.layout).take (issuedBytes s.inProgress r)
  ranges : ∀ r ∈ s.requests, r.memRanges = (transfersOf r.id s.transfers).map Transfer.range
  kept : ∀ r ∈ s.finished, issuedMoves r.id s.transfers = r.moves D.layout ∧
    r.bytesCompleted = r.bytesExpected
  sizes : ∀ t ∈ s.transfers, 0 < t.size

structure Packet.Open (s : State) (p : Packet) : Prop where
  pos : 0 < p.size
  request : p.owner ∈ s.requests.map Request.id
  transfer : ∃ t, s.transfers[p.senderState]? = some t ∧ t.owner = p.owner ∧
    t.range.Contains p.addr

structure Charged (s : State) : Prop where
  charged : ∀ r ∈ s.requests,
    r.bytesCompleted + bytesOf (fun p => p.owner = r.id) s.pending = issuedBytes s.inProgress r
  packets : ∀ p ∈ s.pending, p.Open s
  lengths : s.reqStates.length = s.transfers.length
  answered : ∀ (k : ℕ) x, s.reqStates[k]? = some x →
    x.numBytes + bytesOf (fun p => p.senderState = k) s.pending = x.totBytes

def resources (s : State) : List (BitVec 8) := s.requests.map Request.dmaResource

/-- Exactly the resources of the outstanding requests are busy, each for one request. -/
structure Reserved (s : State) : Prop where
  busy : s.dmaResources = (resources s).foldr (· ||| ·) 0
  nonzero : 0 ∉ resources s
  disjoint : (resources s).Pairwise (fun x y => x &&& y = 0)

/-! ### Lists of requests -/

variable {requests : List Request} {i : ℕ} {r r' x : Request}

theorem map_set_same {β : Type} (f : Request → β) (hi : requests[i]? = some r) (hf : f x = f r) :
    (requests.set i x).map f = requests.map f := by
  rw [map_set, hf]
  apply ext_getElem?
  intro k
  by_cases hk : i = k
  · subst hk
    have hlt : i < (requests.map f).length := by
      rw [length_map]
      exact (List.getElem?_eq_some_iff.mp hi).1
    rw [getElem?_set_self hlt, getElem?_map, hi]
    rfl
  · rw [getElem?_set_ne hk]

theorem flatMap_set_same {β : Type} (f : Request → List β) (hi : requests[i]? = some r)
    (hf : f x = f r) : (requests.set i x).flatMap f = requests.flatMap f := by
  rw [flatMap_def, flatMap_def, map_set_same f hi hf]

section

variable (hids : (requests.map Request.id).Nodup)
include hids

/-- With distinct numbers, the other requests have other numbers. -/
theorem mem_set_cases (hi : requests[i]? = some r) (h : r' ∈ requests.set i x) :
    r' = x ∨ r' ∈ requests ∧ r'.id ≠ r.id := by
  obtain ⟨k, hk⟩ := mem_iff_getElem?.mp h
  rcases getElem?_set_cases hk with ⟨-, rfl⟩ | ⟨hne, hold⟩
  · exact .inl rfl
  · refine .inr ⟨mem_of_getElem? hold, fun hid => hne ?_⟩
    have hlt : k < (requests.map Request.id).length := by
      rw [length_map]
      exact (List.getElem?_eq_some_iff.mp hold).1
    refine (getElem?_inj hlt hids).mp ?_
    rw [getElem?_map, getElem?_map, hi, hold, map_some, map_some, hid]

theorem mem_eraseIdx_cases (hi : requests[i]? = some r) (h : r' ∈ requests.eraseIdx i) :
    r' ∈ requests ∧ r'.id ≠ r.id := by
  obtain ⟨hlt, rfl⟩ := List.getElem?_eq_some_iff.mp hi
  have hperm := (getElem_cons_eraseIdx_perm hlt).map Request.id
  have hnodup := hperm.nodup_iff.mpr hids
  rw [map_cons, nodup_cons] at hnodup
  refine ⟨mem_of_mem_eraseIdx h, fun hid => hnodup.1 ?_⟩
  rw [← hid]
  exact List.mem_map_of_mem h

theorem eq_of_id (hr : r ∈ requests) (hr' : r' ∈ requests) (hid : r.id = r'.id) : r = r' :=
  inj_on_of_nodup_map hids hr hr' hid

end

/-! ### One request -/

variable {L : Layout}

section

variable (h : r.Shape L)
include h

theorem Request.Shape.mapped_start : L.Mapped r.memVstart := by
  have hk := h.mapped (r.memVstart - r.vaddr) (by
    have := h.stop_eq
    have := h.start_le
    have := h.start_lt
    omega)
  rwa [Nat.add_sub_cancel' h.start_le] at hk

/-- The last transfer takes all that is left if and only if the last two bytes are in one
slice. -/
theorem Request.Shape.last (hlast : ¬ r.More L) :
    r.memVstart + r.piece L = r.memVend + 1 ↔ r.Tail L := by
  have hlt := h.start_lt
  have hle := Request.piece_le L (le_of_lt hlt)
  unfold Request.More at hlast
  constructor
  · intro hall
    obtain ⟨j, hj⟩ : ∃ j, r.memVend - 1 = r.memVstart + j := ⟨r.memVend - 1 - r.memVstart, by omega⟩
    have hinside : j < L.rest r.memVstart := by
      unfold Request.piece at hall
      omega
    have hrest := (L.inside r.memVstart j h.mapped_start (le_of_lt hinside)).2.1
    rw [Request.Tail, hj, hrest]
    exact Nat.sub_pos_of_lt hinside
  · intro htail
    by_contra hne
    have hpiece : r.piece L = L.rest r.memVstart + 1 := by
      unfold Request.piece at hlast hne hle ⊢
      omega
    have hrest := (L.inside r.memVstart (L.rest r.memVstart) h.mapped_start (le_rfl)).2.1
    have hend : r.memVstart + L.rest r.memVstart = r.memVend - 1 := by omega
    rw [hend, Nat.sub_self] at hrest
    exact absurd hrest (Nat.ne_of_gt htail)

theorem Request.Shape.issue : Request.Shape L { r with issued := true } :=
  ⟨h.stop_eq, h.start_le, h.start_lt, h.vreg_eq, (fun hissued => by cases hissued), h.mapped⟩

theorem Request.Shape.complete (n : ℕ) : Request.Shape L { r with bytesCompleted := n } :=
  ⟨h.stop_eq, h.start_le, h.start_lt, h.vreg_eq, h.unissued, h.mapped⟩

theorem Request.Shape.advance (hissued : r.issued = true) : (r.advance L).Shape L := by
  have hunissued : (r.advance L).issued = false → (r.advance L).memVstart = r.vaddr := by
    intro hi
    rw [show r.issued = false from hi] at hissued
    cases hissued
  have hstart := h.start_le
  have hvreg := h.vreg_eq
  by_cases hmore : r.More L
  · have hadvance : (r.advance L).memVstart = r.memVstart + r.piece L := if_pos hmore
    have hvreg' : (r.advance L).vregPtr = r.vregPtr + r.piece L := if_pos hmore
    refine ⟨h.stop_eq, ?_, ?_, ?_, hunissued, h.mapped⟩
    · exact hadvance ▸ le_trans hstart (Nat.le_add_right _ _)
    · exact hadvance ▸ hmore
    · rw [hadvance, hvreg', show (r.advance L).vreg = r.vreg from rfl,
        show (r.advance L).vaddr = r.vaddr from rfl]
      omega
  · have hadvance : (r.advance L).memVstart = r.memVstart := if_neg hmore
    have hvreg' : (r.advance L).vregPtr = r.vregPtr := if_neg hmore
    refine ⟨h.stop_eq, hadvance ▸ hstart, hadvance ▸ h.start_lt, ?_, hunissued, h.mapped⟩
    rw [hadvance, hvreg']
    exact hvreg

end

theorem Request.length_moves : (r.moves L).length = r.bytesExpected := by
  simp [Request.moves]

theorem Request.Shape.take_moves (h : r.Shape L) :
    (r.moves L).take (r.memVstart - r.vaddr + r.piece L) =
      (r.moves L).take (r.memVstart - r.vaddr) ++ (r.transfer L).moves := by
  have hstop := h.stop_eq
  have hstart := h.start_le
  have hlt := h.start_lt
  have hle := Request.piece_le L (le_of_lt hlt)
  unfold Request.moves Transfer.moves Request.transfer
  rw [← map_take, ← map_take, take_range, take_range,
    min_eq_left (by omega), min_eq_left (by omega), range_add, map_append,
    List.map_map]
  congr 1
  apply map_congr_left
  intro k hk
  have hinside : k ≤ L.rest r.memVstart := by
    have hk' := mem_range.mp hk
    unfold Request.piece at hk'
    omega
  have haddr : r.vaddr + (r.memVstart - r.vaddr + k) = r.memVstart + k := by omega
  simp only [Function.comp_apply, haddr, (L.inside _ _ h.mapped_start hinside).2.2, h.vreg_eq,
    add_assoc]

/-! ### The whole ledger -/

structure Ledger (D : Dtlb) (s : State) : Prop where
  steady : Steady D s
  orders : Orders D s
  moved : Moved D s
  charged : Charged s
  reserved : Reserved s

section Ledger

variable {D : Dtlb} {line now : ℕ} {s s' : State}

theorem Orders.requestIds (h : Orders D s) : (s.requests.map Request.id).Nodup :=
  (nodup_append.mp h.ids).1

theorem Orders.issuedBytes_le (h : Orders D s) (hr : r ∈ s.requests) :
    issuedBytes s.inProgress r ≤ r.bytesExpected := by
  have hshape := h.shape r hr
  have hstop := hshape.stop_eq
  have hlt := hshape.start_lt
  unfold issuedBytes
  split
  · omega
  · split
    · exact Nat.le_refl _
    · exact Nat.zero_le _

/-- A request that has been moved completely is not the one that is served. -/
theorem Orders.not_inProgress (h : Orders D s) (hr : r ∈ s.requests)
    (hall : issuedBytes s.inProgress r = r.bytesExpected) : s.inProgress ≠ some r.id := by
  intro hprogress
  have hshape := h.shape r hr
  have hstop := hshape.stop_eq
  have hstart := hshape.start_le
  have hlt := hshape.start_lt
  rw [issuedBytes, if_pos hprogress] at hall
  omega

theorem ledger_reset {t : Tlb.State} (h : Consistent D t) : Ledger D (reset t) where
  steady := steady_reset h
  orders := {
    shape := forall_mem_nil _
    tail := forall_mem_nil _
    ids := .nil
    known := fun k => ⟨fun hk => absurd hk not_mem_nil, fun hk => absurd hk (Nat.not_lt_zero k)⟩
    served := fun hne => absurd rfl hne
    idle := fun _ => rfl
    issued := (fun hphase => by cases hphase)
    distinct := .nil }
  moved := {
    owners := forall_mem_nil _
    moved := forall_mem_nil _
    ranges := forall_mem_nil _
    kept := forall_mem_nil _
    sizes := forall_mem_nil _ }
  charged := {
    charged := forall_mem_nil _
    packets := forall_mem_nil _
    lengths := rfl
    answered := (fun k x hx => by cases hx) }
  reserved := ⟨rfl, not_mem_nil, .nil⟩

structure Position (s : State) : Prop where
  served : s.currentState ≠ .idle → ∀ i r, currentRequest s = some (i, r) →
    s.inProgress = some r.id
  idle : s.currentState = .idle → s.inProgress = none
  issued : s.currentState = .transfer → ∀ i r, currentRequest s = some (i, r) → r.issued = true

theorem Orders.position (h : Orders D s) : Position s := ⟨h.served, h.idle, h.issued⟩

/-- One request is replaced by a later state of it. -/
theorem Orders.set (h : Orders D s) (hr : s.requests[i]? = some r)
    (hrequests : s'.requests = s.requests.set i x) (hid : x.id = r.id)
    (hmoves : x.moves D.layout = r.moves D.layout) (hshape : x.Shape D.layout)
    (hvend : x.memVend = r.memVend) (hfinished : s'.finished = s.finished)
    (haccepted : s'.accepted = s.accepted) (hposition : Position s') : Orders D s' := by
  have hids : allIds s' = allIds s := by
    rw [allIds, allIds, hrequests, hfinished, map_set_same Request.id hr hid]
  refine ⟨fun r' hr' => ?_, fun r' hr' => ?_, hids ▸ h.ids, hids ▸ haccepted ▸ h.known,
    hposition.served, hposition.idle, hposition.issued, ?_⟩
  · rw [hrequests] at hr'
    rcases mem_set_cases h.requestIds hr hr' with rfl | ⟨hmem, -⟩
    · exact hshape
    · exact h.shape r' hmem
  · rw [hrequests] at hr'
    rcases mem_set_cases h.requestIds hr hr' with rfl | ⟨hmem, -⟩
    · rw [Request.Tail, hvend]
      exact h.tail r (mem_of_getElem? hr)
    · exact h.tail r' hmem
  · rw [hrequests, flatMap_set_same (Request.paddrs D.layout) hr (by
      rw [Request.paddrs, Request.paddrs, hmoves])]
    exact h.distinct

theorem Reserved.set (h : Reserved s) (hr : s.requests[i]? = some r)
    (hrequests : s'.requests = s.requests.set i x) (hx : x.dmaResource = r.dmaResource)
    (hbusy : s'.dmaResources = s.dmaResources) : Reserved s' := by
  have hres : resources s' = resources s := by
    rw [resources, resources, hrequests, map_set_same Request.dmaResource hr hx]
  exact ⟨by rw [hbusy, hres]; exact h.busy, hres ▸ h.nonzero, hres ▸ h.disjoint⟩

section

variable (h : Ledger D s)
include h

/-- Nothing but the phase changes. -/
theorem Ledger.frame (hsteady : Steady D s') (hrequests : s'.requests = s.requests)
    (hfinished : s'.finished = s.finished) (haccepted : s'.accepted = s.accepted)
    (htransfers : s'.transfers = s.transfers) (hpending : s'.pending = s.pending)
    (hreq : s'.reqStates = s.reqStates) (hres : s'.dmaResources = s.dmaResources)
    (hposition : Position s')
    (hbytes : ∀ r ∈ s.requests, issuedBytes s'.inProgress r = issuedBytes s.inProgress r) :
    Ledger D s' where
  steady := hsteady
  orders := by
    have hids : allIds s' = allIds s := by rw [allIds, allIds, hrequests, hfinished]
    exact ⟨hrequests ▸ h.orders.shape, hrequests ▸ h.orders.tail, hids ▸ h.orders.ids,
      hids ▸ haccepted ▸ h.orders.known,
      hposition.served, hposition.idle, hposition.issued, hrequests ▸ h.orders.distinct⟩
  moved := by
    refine ⟨htransfers ▸ haccepted ▸ h.moved.owners, fun r hr => ?_,
      hrequests ▸ htransfers ▸ h.moved.ranges, hfinished ▸ htransfers ▸ h.moved.kept,
      htransfers ▸ h.moved.sizes⟩
    rw [hrequests] at hr
    rw [htransfers, hbytes r hr]
    exact h.moved.moved r hr
  charged := by
    refine ⟨fun r hr => ?_, fun p hp => ?_, hreq ▸ htransfers ▸ h.charged.lengths,
      hreq ▸ hpending ▸ h.charged.answered⟩
    · rw [hrequests] at hr
      rw [hpending, hbytes r hr]
      exact h.charged.charged r hr
    · rw [hpending] at hp
      obtain ⟨hpos, hrequest, htransfer⟩ := h.charged.packets p hp
      exact ⟨hpos, hrequests ▸ hrequest, htransfers ▸ htransfer⟩
  reserved := by
    have hsame : resources s' = resources s := by rw [resources, resources, hrequests]
    exact ⟨by rw [hres, hsame]; exact h.reserved.busy, hsame ▸ h.reserved.nonzero,
      hsame ▸ h.reserved.disjoint⟩

theorem Ledger.schedule (b : Bool) : Ledger D { s with nextStateScheduled := b } :=
  h.frame (h.steady.schedule b) rfl rfl rfl rfl rfl rfl rfl
    ⟨h.orders.served, h.orders.idle, h.orders.issued⟩ (fun _ _ => rfl)

theorem Ledger.selectRequest (hidle : s.currentState = .idle) : Ledger D (selectRequest s) := by
  have hsteady := h.steady.selectRequest hidle
  have hnone := h.orders.idle hidle
  rcases selectRequest_cases s with ⟨i, r, hr, hissued, hs⟩ | ⟨-, hs⟩
  · rw [hs] at hsteady ⊢
    refine h.frame hsteady rfl rfl rfl rfl rfl rfl rfl ⟨fun _ k r' hk => ?_,
      (fun hphase => by cases hphase), (fun hphase => by cases hphase)⟩ (fun r' hr' => ?_)
    · obtain ⟨hk, hr'⟩ := currentRequest_eq_some.mp hk
      obtain rfl : i = k := some.inj hk
      obtain rfl : r = r' := some.inj (hr.symm.trans hr')
      rfl
    · -- Nothing has been moved for the request that is selected.
      by_cases hid : r.id = r'.id
      · obtain rfl := eq_of_id h.orders.requestIds (mem_of_getElem? hr) hr' hid
        have hstart := (h.orders.shape r hr').unissued hissued
        simp [issuedBytes, hnone, hissued, hstart]
      · simp [issuedBytes, hnone, hid]
  · rw [hs] at hsteady ⊢
    refine h.frame hsteady rfl rfl rfl rfl rfl rfl rfl ⟨fun hne => absurd hidle hne,
      h.orders.idle, fun hphase => ?_⟩ (fun _ _ => rfl)
    rw [show s.currentState = .transfer from hphase] at hidle
    cases hidle

theorem Ledger.checkTlb (hphase : s.currentState = .tlbRefill)
    (hcurrent : currentRequest s = some (i, r))
    (hstep : checkTlb (hardware D line) now s i r = some s') : Ledger D s' := by
  obtain ⟨hindex, hr⟩ := currentRequest_eq_some.mp hcurrent
  have hmem := mem_of_getElem? hr
  have hshape := h.orders.shape r hmem
  have hne : s.currentState ≠ .idle := by simp [hphase]
  have hprogress := h.orders.served hne i r hcurrent
  obtain ⟨s₁, hs₁, hsteady⟩ := h.steady.checkTlb line now hphase hcurrent
  obtain rfl : s₁ = s' := some.inj (hs₁.symm.trans hstep)
  obtain ⟨hmapped, hpending⟩ := h.steady.first hne hcurrent (le_of_lt hshape.start_lt)
  obtain ⟨t, ht, -⟩ := checkTlb_eq line now i h.steady.consistent hshape.start_lt hmapped hpending
  cases hstep.symm.trans ht
  -- The request that is served is marked, which does not change what has been moved for it.
  have hrest : ∀ {r'}, r' ∈ s.requests.set i { r with issued := true } →
      ∃ r₀ ∈ s.requests, r'.id = r₀.id ∧ r'.moves D.layout = r₀.moves D.layout ∧
        r'.memRanges = r₀.memRanges ∧ r'.bytesCompleted = r₀.bytesCompleted ∧
        issuedBytes s.inProgress r' = issuedBytes s.inProgress r₀ := by
    intro r' hr'
    rcases mem_set_cases h.orders.requestIds hr hr' with rfl | ⟨hold, -⟩
    · refine ⟨r, hmem, rfl, rfl, rfl, rfl, ?_⟩
      simp only [issuedBytes, hprogress, if_true]
    · exact ⟨r', hold, rfl, rfl, rfl, rfl, rfl⟩
  refine ⟨hsteady, h.orders.set hr rfl rfl rfl hshape.issue rfl rfl rfl
    ⟨fun _ k r' hk => ?_, (fun hidle => by cases hidle), fun _ k r' hk => ?_⟩, ?_, ?_,
    h.reserved.set hr rfl rfl rfl⟩
  · obtain rfl := eq_of_currentRequest_set hk hindex rfl
    exact hprogress
  · obtain rfl := eq_of_currentRequest_set hk hindex rfl
    rfl
  · refine ⟨h.moved.owners, fun r' hr' => ?_, fun r' hr' => ?_, h.moved.kept, h.moved.sizes⟩
    · obtain ⟨r₀, hr₀, hid, hmoves, -, -, hbytes⟩ := hrest hr'
      rw [hid, hmoves]
      exact (h.moved.moved r₀ hr₀).trans
        (congrArg (fun n => (r₀.moves D.layout).take n) hbytes.symm)
    · obtain ⟨r₀, hr₀, hid, -, hranges, -, -⟩ := hrest hr'
      rw [hid, hranges]
      exact h.moved.ranges r₀ hr₀
  · refine ⟨fun r' hr' => ?_, fun p hp => ?_, h.charged.lengths, h.charged.answered⟩
    · obtain ⟨r₀, hr₀, hid, -, -, hcompleted, hbytes⟩ := hrest hr'
      rw [hid, hcompleted]
      exact (h.charged.charged r₀ hr₀).trans hbytes.symm
    · obtain ⟨hpos, hrequest, htransfer⟩ := h.charged.packets p hp
      refine ⟨hpos, ?_, htransfer⟩
      change p.owner ∈ (s.requests.set i { r with issued := true }).map Request.id
      rw [map_set_same (x := { r with issued := true }) Request.id hr rfl]
      exact hrequest

end

/-! A transfer -/

theorem transfersOf_concat_self {id : ℕ} {t : Transfer} (ts : List Transfer) (ht : t.owner = id) :
    transfersOf id (ts ++ [t]) = transfersOf id ts ++ [t] := by
  simp [transfersOf, ht]

theorem transfersOf_concat_other {id : ℕ} {t : Transfer} (ts : List Transfer) (ht : t.owner ≠ id) :
    transfersOf id (ts ++ [t]) = transfersOf id ts := by
  simp [transfersOf, ht]

theorem Request.Shape.issuedBytes_advance (h : r.Shape D.layout) (htail : r.Tail D.layout)
    (hissued : r.issued = true) (hprogress : s.inProgress = some r.id) :
    issuedBytes (if r.More D.layout then s.inProgress else none) (r.advance D.layout) =
      r.memVstart - r.vaddr + r.piece D.layout := by
  have hstart := h.start_le
  have hstop := h.stop_eq
  by_cases hmore : r.More D.layout
  · have hadvance : (r.advance D.layout).memVstart = r.memVstart + r.piece D.layout := if_pos hmore
    rw [if_pos hmore, issuedBytes,
      if_pos (show s.inProgress = some (r.advance D.layout).id from hprogress), hadvance]
    change r.memVstart + r.piece D.layout - r.vaddr = _
    omega
  · have hlast := (h.last hmore).mpr htail
    rw [if_neg hmore, issuedBytes, if_neg nofun,
      if_pos (show (r.advance D.layout).issued = true from hissued)]
    change r.bytesExpected = _
    omega

/-- Nothing is moved for another request. -/
theorem issuedBytes_other {P : Prop} [Decidable P] (hprogress : s.inProgress = some r.id)
    (hid : r'.id ≠ r.id) :
    issuedBytes (if P then s.inProgress else none) r' = issuedBytes s.inProgress r' := by
  have hne : s.inProgress ≠ some r'.id := by
    rw [hprogress]
    exact fun he => hid (some.inj he).symm
  split
  · rfl
  · rw [issuedBytes, issuedBytes, if_neg hne, if_neg nofun]

section Transferred

variable (h : Ledger D s) (hphase : s.currentState = .transfer)
  (hcurrent : currentRequest s = some (i, r))
include h hphase hcurrent

theorem Ledger.current_transfer : s.requests[i]? = some r ∧ s.inProgress = some r.id ∧
    r.issued = true ∧ r.Shape D.layout ∧ r.Tail D.layout := by
  have hr := (currentRequest_eq_some.mp hcurrent).2
  have hne : s.currentState ≠ .idle := by simp [hphase]
  exact ⟨hr, h.orders.served hne i r hcurrent, h.orders.issued hphase i r hcurrent,
    h.orders.shape r (mem_of_getElem? hr), h.orders.tail r (mem_of_getElem? hr)⟩

theorem Ledger.moved_transferred : Moved D (transferred (hardware D line) D.layout s i r) := by
  obtain ⟨hr, hprogress, hissued, hshape, htail⟩ := h.current_transfer hphase hcurrent
  have hmem := mem_of_getElem? hr
  have hids := h.orders.requestIds
  have hself : transfersOf r.id (s.transfers ++ [r.transfer D.layout]) =
      transfersOf r.id s.transfers ++ [r.transfer D.layout] :=
    transfersOf_concat_self s.transfers rfl
  have hother : ∀ {k}, k ≠ r.id →
      transfersOf k (s.transfers ++ [r.transfer D.layout]) = transfersOf k s.transfers :=
    fun hk => transfersOf_concat_other s.transfers hk.symm
  refine ⟨fun t ht => ?_, fun r' hr' => ?_, fun r' hr' => ?_, fun r' hr' => ?_, fun t ht => ?_⟩
  · rcases mem_append.mp ht with hold | hnew
    · exact h.moved.owners t hold
    · obtain rfl := mem_singleton.mp hnew
      refine (h.orders.known r.id).mp ?_
      exact mem_append_left _ (List.mem_map_of_mem hmem)
  · rcases mem_set_cases hids hr hr' with rfl | ⟨hold, hid⟩
    · change (transfersOf r.id (s.transfers ++ [r.transfer D.layout])).flatMap Transfer.moves =
        (r.moves D.layout).take
          (issuedBytes (if r.More D.layout then s.inProgress else none) (r.advance D.layout))
      have hbefore := h.moved.moved r hmem
      rw [issuedBytes, if_pos hprogress] at hbefore
      rw [hshape.issuedBytes_advance htail hissued hprogress, hshape.take_moves, ← hbefore, hself,
        flatMap_append, flatMap_singleton]
      rfl
    · change (transfersOf r'.id (s.transfers ++ [r.transfer D.layout])).flatMap Transfer.moves =
        (r'.moves D.layout).take (issuedBytes (if r.More D.layout then s.inProgress else none) r')
      rw [issuedBytes_other hprogress hid, hother hid]
      exact h.moved.moved r' hold
  · rcases mem_set_cases hids hr hr' with rfl | ⟨hold, hid⟩
    · change r.memRanges ++ [(r.transfer D.layout).range] =
        (transfersOf r.id (s.transfers ++ [r.transfer D.layout])).map Transfer.range
      rw [hself, map_append, ← h.moved.ranges r hmem]
      rfl
    · change r'.memRanges =
        (transfersOf r'.id (s.transfers ++ [r.transfer D.layout])).map Transfer.range
      rw [hother hid]
      exact h.moved.ranges r' hold
  · have hid : r'.id ≠ r.id := by
      intro hid
      exact (nodup_append.mp h.orders.ids).2.2 r.id (List.mem_map_of_mem hmem) r'.id
        (List.mem_map_of_mem hr') hid.symm
    change (transfersOf r'.id (s.transfers ++ [r.transfer D.layout])).flatMap Transfer.moves =
      r'.moves D.layout ∧ r'.bytesCompleted = r'.bytesExpected
    rw [hother hid]
    exact h.moved.kept r' hr'
  · rcases mem_append.mp ht with hold | hnew
    · exact h.moved.sizes t hold
    · obtain rfl := mem_singleton.mp hnew
      exact Request.piece_pos D.layout (le_of_lt hshape.start_lt)

theorem Ledger.charged_transferred : Charged (transferred (hardware D line) D.layout s i r) := by
  obtain ⟨hr, hprogress, hissued, hshape, htail⟩ := h.current_transfer hphase hcurrent
  have hmem := mem_of_getElem? hr
  -- The packets of the new transfer.
  let new : List Packet := (chunks line (D.layout.physical r.memVstart) (r.piece D.layout)).map
    (fun x => ⟨x.1, x.2, s.reqStates.length, r.id⟩)
  have hnew : ∀ p ∈ new, p.owner = r.id ∧ p.senderState = s.reqStates.length ∧ 0 < p.size ∧
      (r.transfer D.layout).range.Contains p.addr := by
    intro p hp
    obtain ⟨x, hx, rfl⟩ := List.mem_map.mp hp
    obtain ⟨hle, hend, hpos⟩ := chunks_inside hx
    refine ⟨rfl, rfl, hpos, hle, ?_⟩
    change x.1 ≤ D.layout.physical r.memVstart + (r.piece D.layout - 1)
    omega
  have hsum : (new.map Packet.size).sum = r.piece D.layout := sum_size_chunks _ _ _ _ _
  have hmine : bytesOf (fun p => p.owner = r.id) new = r.piece D.layout := by
    rw [bytesOf_of_forall (fun p hp => by simp [(hnew p hp).1]), hsum]
  have hothers : ∀ k, k ≠ r.id → bytesOf (fun p => p.owner = k) new = 0 := fun k hk =>
    bytesOf_of_forall_not (fun p hp => by simp [(hnew p hp).1, hk.symm])
  have hlength := h.charged.lengths
  refine ⟨fun r' hr' => ?_, fun p hp => ?_, ?_, fun k x hx => ?_⟩
  · rcases mem_set_cases h.orders.requestIds hr hr' with rfl | ⟨hold, hid⟩
    · change r.bytesCompleted + bytesOf (fun p => p.owner = r.id) (s.pending ++ new) =
        issuedBytes (if r.More D.layout then s.inProgress else none) (r.advance D.layout)
      have hbefore := h.charged.charged r hmem
      rw [issuedBytes, if_pos hprogress] at hbefore
      rw [hshape.issuedBytes_advance htail hissued hprogress, ← hbefore, bytesOf_append,
        hmine, add_assoc]
    · change r'.bytesCompleted + bytesOf (fun p => p.owner = r'.id) (s.pending ++ new) =
        issuedBytes (if r.More D.layout then s.inProgress else none) r'
      rw [issuedBytes_other hprogress hid, ← h.charged.charged r' hold, bytesOf_append,
        hothers r'.id hid, add_zero]
  · have hids : (s.requests.set i (r.advance D.layout)).map Request.id =
        s.requests.map Request.id := map_set_same Request.id hr rfl
    rcases mem_append.mp hp with hold | hp
    · obtain ⟨hpos, hrequest, t, ht, howner, hcontains⟩ := h.charged.packets p hold
      refine ⟨hpos, hids ▸ hrequest, t, ?_, howner, hcontains⟩
      change (s.transfers ++ [r.transfer D.layout])[p.senderState]? = some t
      rwa [getElem?_append_left (List.getElem?_eq_some_iff.mp ht).1]
    · obtain ⟨howner, hsender, hpos, hcontains⟩ := hnew p hp
      refine ⟨hpos, hids ▸ howner ▸ List.mem_map_of_mem hmem, r.transfer D.layout, ?_, howner.symm,
        hcontains⟩
      change (s.transfers ++ [r.transfer D.layout])[p.senderState]? = some (r.transfer D.layout)
      rw [hsender, hlength, getElem?_concat_length]
  · change (s.reqStates ++ [(⟨r.piece D.layout, 0⟩ : DmaReqState)]).length =
      (s.transfers ++ [r.transfer D.layout]).length
    rw [length_append, length_append, hlength]
    rfl
  · change (s.reqStates ++ [(⟨r.piece D.layout, 0⟩ : DmaReqState)])[k]? = some x at hx
    change x.numBytes + bytesOf (fun p => p.senderState = k) (s.pending ++ new) = x.totBytes
    rw [bytesOf_append]
    rcases lt_trichotomy k s.reqStates.length with hk | rfl | hk
    · have hnone : bytesOf (fun p => p.senderState = k) new = 0 :=
        bytesOf_of_forall_not (fun p hp => by simp [(hnew p hp).2.1, Nat.ne_of_gt hk])
      rw [getElem?_append_left hk] at hx
      rw [hnone, add_zero]
      exact h.charged.answered k x hx
    · rw [getElem?_concat_length] at hx
      cases hx
      have hold : bytesOf (fun p => p.senderState = s.reqStates.length) s.pending = 0 := by
        apply bytesOf_of_forall_not
        intro p hp
        obtain ⟨-, -, t, ht, -⟩ := h.charged.packets p hp
        have hlt := (List.getElem?_eq_some_iff.mp ht).1
        simp only [decide_eq_false_iff_not]
        omega
      have hall : bytesOf (fun p => p.senderState = s.reqStates.length) new = r.piece D.layout := by
        rw [bytesOf_of_forall (fun p hp => by simp [(hnew p hp).2.1]), hsum]
      rw [hold, hall]
      simp only [zero_add]
    · rw [getElem?_eq_none (by simp; omega)] at hx
      cases hx

theorem Ledger.transferred : Ledger D (transferred (hardware D line) D.layout s i r) := by
  obtain ⟨hr, hprogress, hissued, hshape, htail⟩ := h.current_transfer hphase hcurrent
  have hindex := (currentRequest_eq_some.mp hcurrent).1
  refine ⟨h.steady.transferred hphase hcurrent,
    h.orders.set hr rfl rfl rfl (hshape.advance hissued) rfl rfl rfl ?_,
    h.moved_transferred hphase hcurrent, h.charged_transferred hphase hcurrent,
    h.reserved.set hr rfl rfl rfl⟩
  refine ⟨fun hne k r' hk => ?_, fun hidle => ?_, fun htransfer => ?_⟩
  · obtain rfl := eq_of_currentRequest_set hk hindex rfl
    by_cases hmore : r.More D.layout
    · exact (if_pos hmore).trans hprogress
    · exact absurd (if_neg hmore) hne
  · by_cases hmore : r.More D.layout
    · cases (if_pos hmore).symm.trans hidle
    · exact if_neg hmore
  · by_cases hmore : r.More D.layout
    · cases (if_pos hmore).symm.trans htransfer
    · cases (if_neg hmore).symm.trans htransfer

end Transferred

end Ledger

end SmcSim.Dma
