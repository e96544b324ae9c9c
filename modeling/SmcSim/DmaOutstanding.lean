import SmcSim.DmaLedger
import Mathlib.Data.List.Flatten

/-!
# Several outstanding requests

`requests` is a vector into which new requests are inserted at the front and from which
finished ones are erased, while `current_index` is kept across ticks. Along every run in
which the request that is served keeps its position, every byte of every request is moved
once and every response is charged to the request that it belongs to.
-/

namespace SmcSim.Dma
open Tlb Interleavings List Option

/-! ### Resources -/

variable {x : BitVec 8} {xs : List (BitVec 8)}

theorem foldr_or_and_self (h : x ∈ xs) : xs.foldr (· ||| ·) 0 &&& x = x := by
  induction xs with
  | nil => cases h
  | cons y ys ih =>
    rw [foldr_cons]
    rcases mem_cons.mp h with rfl | hmem
    · ext k hk
      simp only [BitVec.getElem_and, BitVec.getElem_or]
      cases x[k] <;> simp
    · have hrest := ih hmem
      rw [← hrest]
      ext k hk
      simp only [BitVec.getElem_and, BitVec.getElem_or]
      cases y[k] <;> cases x[k] <;> simp

theorem foldr_or_and_of_disjoint (h : ∀ y ∈ xs, x &&& y = 0) : xs.foldr (· ||| ·) 0 &&& x = 0 := by
  induction xs with
  | nil => simp
  | cons y ys ih =>
    have hhead := h y mem_cons_self
    have hrest := ih (fun y' hy' => h y' (mem_cons_of_mem _ hy'))
    rw [foldr_cons]
    ext k hk
    have hhead' := congrArg (fun z => z[k]) hhead
    have hrest' := congrArg (fun z => z[k]) hrest
    simp only [BitVec.getElem_and, BitVec.getElem_or] at hhead' hrest' ⊢
    revert hhead' hrest'
    cases x[k] <;> cases y[k] <;> simp

theorem or_and_not_of_disjoint {y : BitVec 8} (h : y &&& x = 0) : (x ||| y) &&& ~~~x = y := by
  ext k hk
  have hk' := congrArg (fun z => z[k]) h
  simp only [BitVec.getElem_and, BitVec.getElem_or, BitVec.getElem_not] at hk' ⊢
  revert hk'
  cases x[k] <;> cases y[k] <;> simp

section Runs

variable {D : Dtlb} {line now j k : ℕ} {s s' : State} {r : Request} {p : Packet}

theorem Reserved.mem_busy (h : Reserved s) (hr : r ∈ s.requests) :
    s.dmaResources &&& r.dmaResource ≠ 0 := by
  have hmem : r.dmaResource ∈ resources s := List.mem_map_of_mem hr
  rw [h.busy, foldr_or_and_self hmem]
  exact fun hzero => h.nonzero (hzero ▸ hmem)

theorem Reserved.erase (h : Reserved s) (hr : s.requests[k]? = some r)
    (hrequests : s'.requests = s.requests.eraseIdx k)
    (hbusy : s'.dmaResources = s.dmaResources &&& ~~~r.dmaResource) : Reserved s' := by
  obtain ⟨hk, rfl⟩ := List.getElem?_eq_some_iff.mp hr
  have hperm : ((s.requests[k]).dmaResource :: resources s').Perm (resources s) := by
    have hmap := (getElem_cons_eraseIdx_perm hk).map Request.dmaResource
    rw [resources, resources, hrequests]
    exact hmap
  have hpairwise :=
    hperm.symm.pairwise h.disjoint (fun {x y} hxy => by rw [BitVec.and_comm]; exact hxy)
  obtain ⟨hhead, htail⟩ := pairwise_cons.mp hpairwise
  refine ⟨?_, fun hzero => h.nonzero (hperm.subset (mem_cons_of_mem _ hzero)), htail⟩
  have hcomm : LeftCommutative (fun x y : BitVec 8 => x ||| y) :=
    ⟨fun a b c => by rw [← BitVec.or_assoc, BitVec.or_comm a, BitVec.or_assoc]⟩
  have hfold : (resources s).foldr (· ||| ·) 0 =
      (s.requests[k]).dmaResource ||| (resources s').foldr (· ||| ·) 0 :=
    (hperm.foldr_eq 0).symm
  rw [hbusy, h.busy, hfold]
  exact or_and_not_of_disjoint (foldr_or_and_of_disjoint hhead)

/-! ### Matching -/

theorem rangeAddrs_range {t : Transfer} (h : 0 < t.size) :
    rangeAddrs t.range = t.moves.map Move.paddr := by
  have hsize : t.addr + (t.size - 1) + 1 - t.addr = t.size := by omega
  rw [rangeAddrs, Transfer.moves, List.map_map, Transfer.range]
  dsimp only
  rw [hsize, range'_eq_map_range]
  rfl

theorem rangeAddrs_ranges {ts : List Transfer} (h : ∀ t ∈ ts, 0 < t.size) :
    (ts.map Transfer.range).flatMap rangeAddrs = (ts.flatMap Transfer.moves).map Move.paddr := by
  induction ts with
  | nil => rfl
  | cons t ts ih =>
    rw [map_cons, flatMap_cons, flatMap_cons, map_append,
      rangeAddrs_range (h t mem_cons_self),
      ih (fun t' ht' => h t' (mem_cons_of_mem _ ht'))]

section

variable (h : Ledger D s)
include h

theorem Ledger.rangeAddrs_sublist (hr : r ∈ s.requests) :
    (r.memRanges.flatMap rangeAddrs).Sublist (r.paddrs D.layout) := by
  have hsizes : ∀ t ∈ transfersOf r.id s.transfers, 0 < t.size :=
    fun t ht => h.moved.sizes t (mem_filter.mp ht).1
  have hmoved := h.moved.moved r hr
  rw [issuedMoves] at hmoved
  rw [h.moved.ranges r hr, rangeAddrs_ranges hsizes, hmoved, Request.paddrs]
  exact (take_sublist _ _).map _

theorem Ledger.matching (hp : p ∈ s.pending) :
    ∃ k r, matching p.addr s.requests = [k] ∧ s.requests[k]? = some r ∧ r.id = p.owner := by
  obtain ⟨-, hrequest, t, ht, howner, hcontains⟩ := h.charged.packets p hp
  obtain ⟨r, hr, hid⟩ := List.mem_map.mp hrequest
  obtain ⟨k, hk⟩ := mem_iff_getElem?.mp hr
  have hrange : t.range ∈ r.memRanges := by
    rw [h.moved.ranges r hr]
    refine List.mem_map_of_mem (mem_filter.mpr ⟨mem_of_getElem? ht, ?_⟩)
    simp [howner, hid]
  have hnodup : (s.requests.flatMap (fun r => r.memRanges.flatMap rangeAddrs)).Nodup :=
    h.orders.distinct.sublist (List.Sublist.flatMap_right _ (fun r hr => h.rangeAddrs_sublist hr))
  exact ⟨k, r, matching_of_nodup hnodup hk hrange hcontains, hk, hid⟩

/-- The bytes of a packet are missing in the counts of its request and of its transfer. -/
theorem Ledger.room (hp : s.pending[j]? = some p) (hr : s.requests[k]? = some r)
    (hid : r.id = p.owner) :
    (∃ x, s.reqStates[p.senderState]? = some x ∧ x.numBytes + p.size ≤ x.totBytes) ∧
      r.bytesCompleted + p.size ≤ r.bytesExpected := by
  have hmem := mem_of_getElem? hp
  constructor
  · obtain ⟨-, -, t, ht, -⟩ := h.charged.packets p hmem
    have hlt := (List.getElem?_eq_some_iff.mp ht).1
    rw [← h.charged.lengths] at hlt
    have hx := getElem?_eq_getElem hlt
    refine ⟨_, hx, ?_⟩
    have hanswered := h.charged.answered _ _ hx
    have hsize := size_le_bytesOf (q := fun q => q.senderState = p.senderState) hmem (by simp)
    omega
  · have hrequest := mem_of_getElem? hr
    have hcharged := h.charged.charged r hrequest
    have hle := h.orders.issuedBytes_le hrequest
    have hsize := size_le_bytesOf (q := fun q => q.owner = r.id) hmem (by simp [hid])
    omega

/-- No response makes the engine panic. -/
theorem Ledger.handleResp_ne_none (hj : j < s.pending.length) : handleResp j s ≠ none := by
  have hp := getElem?_eq_getElem hj
  obtain ⟨k, r, hmatch, hr, hid⟩ := h.matching (mem_of_getElem? hp)
  obtain ⟨⟨x, hx, hbytes⟩, hle⟩ := h.room hp hr hid
  have hbusy := h.reserved.mem_busy (mem_of_getElem? hr)
  simp only [handleResp, hp, hx, bind_some, hbytes, if_true, handlePacket, hmatch, hr]
  split
  · exact some_ne_none _
  · rw [if_pos ⟨by omega, hbusy⟩]
    exact some_ne_none _

end

/-! ### Responses -/

/-- A request keeps its number and its mark. -/
theorem Position.set {x : Request} (h : Position s) (hr : s.requests[k]? = some r)
    (hrequests : s'.requests = s.requests.set k x) (hid : x.id = r.id)
    (hissued : x.issued = r.issued) (hindex : s'.currentIndex = s.currentIndex)
    (hstate : s'.currentState = s.currentState) (hprogress : s'.inProgress = s.inProgress) :
    Position s' := by
  have hsame : ∀ {i : ℕ} {r' : Request}, currentRequest s' = some (i, r') →
      ∃ r₀, currentRequest s = some (i, r₀) ∧ r'.id = r₀.id ∧ r'.issued = r₀.issued := by
    intro i r' hcurrent
    obtain ⟨hi, hr'⟩ := currentRequest_eq_some.mp hcurrent
    rw [hrequests] at hr'
    rw [hindex] at hi
    rcases getElem?_set_cases hr' with ⟨rfl, rfl⟩ | ⟨-, hold⟩
    · exact ⟨r, currentRequest_eq_some.mpr ⟨hi, hr⟩, hid, hissued⟩
    · exact ⟨r', currentRequest_eq_some.mpr ⟨hi, hold⟩, rfl, rfl⟩
  refine ⟨fun hne i r' hcurrent => ?_, fun hidle => ?_, fun hphase i r' hcurrent => ?_⟩
  · obtain ⟨r₀, hr₀, hid', -⟩ := hsame hcurrent
    rw [hprogress, hid']
    exact h.served (hstate ▸ hne) i r₀ hr₀
  · rw [hprogress]
    exact h.idle (hstate ▸ hidle)
  · obtain ⟨r₀, hr₀, -, hissued'⟩ := hsame hcurrent
    rw [hissued']
    exact h.issued (hstate ▸ hphase) i r₀ hr₀

section

variable (h : Ledger D s)
include h

/-- The answer is counted for the transfer. -/
theorem Ledger.answered_erase {x : DmaReqState} (hp : s.pending[j]? = some p)
    (hx : s.reqStates[p.senderState]? = some x) (n : ℕ) (y : DmaReqState)
    (hy : (s.reqStates.set p.senderState { x with numBytes := x.numBytes + p.size })[n]? = some y) :
    y.numBytes + bytesOf (fun q => q.senderState = n) (s.pending.eraseIdx j) = y.totBytes := by
  have hsplit := bytesOf_eraseIdx (q := fun q => q.senderState = n) hp
  rcases getElem?_set_cases hy with ⟨rfl, rfl⟩ | ⟨hne, hold⟩
  · have hbefore := h.charged.answered _ _ hx
    simp only [decide_true, if_true] at hsplit
    dsimp only
    omega
  · have hbefore := h.charged.answered _ _ hold
    simp only [decide_eq_true_eq, hne.symm, if_false, add_zero] at hsplit
    omega

/-- The answer counts for the request that moved the packet. -/
private theorem Ledger.charged_owner (hp : s.pending[j]? = some p) (hr : r ∈ s.requests)
    (hid : r.id = p.owner) :
    r.bytesCompleted + p.size + bytesOf (fun q => q.owner = r.id) (s.pending.eraseIdx j) =
      issuedBytes s.inProgress r := by
  have hsplit := bytesOf_eraseIdx (q := fun q => q.owner = r.id) hp
  have hbefore := h.charged.charged r hr
  simp only [hid, decide_true, if_true] at hsplit hbefore ⊢
  omega

/-- It does not count for another request. -/
private theorem Ledger.charged_other (hp : s.pending[j]? = some p) (hr : r ∈ s.requests)
    (hid : p.owner ≠ r.id) :
    r.bytesCompleted + bytesOf (fun q => q.owner = r.id) (s.pending.eraseIdx j) =
      issuedBytes s.inProgress r := by
  have hsplit := bytesOf_eraseIdx (q := fun q => q.owner = r.id) hp
  simp only [decide_eq_true_eq, hid, if_false, add_zero] at hsplit
  exact hsplit ▸ h.charged.charged r hr

/-- The answer is charged to a request that is not completed by it. -/
private theorem Ledger.charge {x : DmaReqState}
    (hsteady : Steady D (Dma.charged k r p (counted j p x s))) (hp : s.pending[j]? = some p)
    (hx : s.reqStates[p.senderState]? = some x) (hr : s.requests[k]? = some r)
    (hid : r.id = p.owner) : Ledger D (Dma.charged k r p (counted j p x s)) := by
  have hmem := mem_of_getElem? hr
  have hids := h.orders.requestIds
  refine ⟨hsteady, ?_, ?_, ?_, h.reserved.set hr rfl rfl rfl⟩
  · exact h.orders.set hr rfl rfl rfl ((h.orders.shape r hmem).complete _) rfl rfl rfl
      (h.orders.position.set hr rfl rfl rfl rfl rfl rfl)
  · refine ⟨h.moved.owners, fun r' hr' => ?_, fun r' hr' => ?_, h.moved.kept, h.moved.sizes⟩
    · rcases mem_set_cases hids hr hr' with rfl | ⟨hold, -⟩
      · exact h.moved.moved r hmem
      · exact h.moved.moved r' hold
    · rcases mem_set_cases hids hr hr' with rfl | ⟨hold, -⟩
      · exact h.moved.ranges r hmem
      · exact h.moved.ranges r' hold
  · refine ⟨fun r' hr' => ?_, fun q hq => ?_, ?_, h.answered_erase hp hx⟩
    · rcases mem_set_cases hids hr hr' with rfl | ⟨hold, hne⟩
      · exact h.charged_owner hp hmem hid
      · exact h.charged_other hp hold (fun he => hne (he.symm.trans hid.symm))
    · obtain ⟨hpos, hrequest, htransfer⟩ := h.charged.packets q (mem_of_mem_eraseIdx hq)
      refine ⟨hpos, ?_, htransfer⟩
      change q.owner ∈ (s.requests.set k _).map Request.id
      rw [map_set_same Request.id hr]
      exacts [hrequest, rfl]
    · change (s.reqStates.set _ _).length = _
      rw [length_set]
      exact h.charged.lengths

/-- The last answer completes a request. -/
private theorem Ledger.finish {x : DmaReqState}
    (hsteady : Steady D (completed k r p (counted j p x s))) (hp : s.pending[j]? = some p)
    (hx : s.reqStates[p.senderState]? = some x) (hr : s.requests[k]? = some r)
    (hid : r.id = p.owner) (hdone : r.bytesCompleted + p.size = r.bytesExpected)
    (hbehind : s.currentState ≠ .idle → ∀ c, s.currentIndex = some c → c < k) :
    Ledger D (completed k r p (counted j p x s)) := by
  have hmem := mem_of_getElem? hr
  have hids := h.orders.requestIds
  -- All bytes of the request have been moved, and this was the last packet.
  have hle := h.orders.issuedBytes_le hmem
  have hsum := h.charged_owner hp hmem hid
  have hall : issuedBytes s.inProgress r = r.bytesExpected := by omega
  have hlast : bytesOf (fun q => q.owner = r.id) (s.pending.eraseIdx j) = 0 := by omega
  have hperm : (r.id :: (s.requests.eraseIdx k).map Request.id).Perm
      (s.requests.map Request.id) := by
    obtain ⟨hk, rfl⟩ := List.getElem?_eq_some_iff.mp hr
    exact (getElem_cons_eraseIdx_perm hk).map Request.id
  refine ⟨hsteady, ?_, ?_, ?_, h.reserved.erase hr rfl rfl⟩
  · have hallIds : (s.requests.map Request.id ++ s.finished.map Request.id).Perm
        ((s.requests.eraseIdx k).map Request.id ++
          (s.finished ++ [{ r with bytesCompleted := r.bytesCompleted + p.size }]).map
            Request.id) := by
      rw [map_append, map_singleton, ← append_assoc]
      refine (hperm.symm.append_right _).trans ?_
      exact (perm_append_singleton _ _).symm
    refine ⟨fun r' hr' => h.orders.shape r' (mem_of_mem_eraseIdx hr'),
      fun r' hr' => h.orders.tail r' (mem_of_mem_eraseIdx hr'),
      hallIds.nodup_iff.mp h.orders.ids, fun n => ?_, fun hne i r' hcurrent => ?_, h.orders.idle,
      fun hphase i r' hcurrent => ?_, ?_⟩
    · exact hallIds.mem_iff.symm.trans (h.orders.known n)
    · obtain ⟨hi, hr'⟩ := currentRequest_eq_some.mp hcurrent
      refine h.orders.served hne i r' (currentRequest_eq_some.mpr ⟨hi, ?_⟩)
      exact (getElem?_eraseIdx_of_lt (hbehind hne i hi)).symm.trans hr'
    · have hne : s.currentState ≠ .idle := by
        rw [show s.currentState = .transfer from hphase]
        decide
      obtain ⟨hi, hr'⟩ := currentRequest_eq_some.mp hcurrent
      refine h.orders.issued hphase i r' (currentRequest_eq_some.mpr ⟨hi, ?_⟩)
      exact (getElem?_eraseIdx_of_lt (hbehind hne i hi)).symm.trans hr'
    · exact h.orders.distinct.sublist ((eraseIdx_sublist _ _).flatMap _)
  · refine ⟨h.moved.owners, fun r' hr' => h.moved.moved r' (mem_of_mem_eraseIdx hr'),
      fun r' hr' => h.moved.ranges r' (mem_of_mem_eraseIdx hr'), fun r' hr' => ?_,
      h.moved.sizes⟩
    rcases mem_append.mp hr' with hold | hnew
    · exact h.moved.kept r' hold
    · obtain rfl := mem_singleton.mp hnew
      refine ⟨?_, hdone⟩
      have hmoved := h.moved.moved r hmem
      rw [hall, ← Request.length_moves (L := D.layout), take_length] at hmoved
      exact hmoved
  · refine ⟨fun r' hr' => ?_, fun q hq => ?_, ?_, h.answered_erase hp hx⟩
    · obtain ⟨hold, hne⟩ := mem_eraseIdx_cases hids hr hr'
      exact h.charged_other hp hold (fun he => hne (he.symm.trans hid.symm))
    · obtain ⟨hpos, hrequest, htransfer⟩ := h.charged.packets q (mem_of_mem_eraseIdx hq)
      refine ⟨hpos, ?_, htransfer⟩
      rcases mem_cons.mp (hperm.mem_iff.mpr hrequest) with hsame | hother
      · have hsize := size_le_bytesOf (q := fun q => q.owner = r.id) hq (by simp [hsame])
        exact absurd hpos (not_lt.mpr (hsize.trans_eq hlast))
      · exact hother
    · change (s.reqStates.set _ _).length = _
      rw [length_set]
      exact h.charged.lengths

theorem Ledger.handleResp (hok : Undisturbed D s (.response j)) (hstep : handleResp j s = some s') :
    Ledger D s' := by
  have hsteady := h.steady.handleResp hok hstep
  obtain ⟨p, x, k, r, hp, hx, hmatch, hr, hs⟩ := handleResp_cases hstep
  obtain ⟨k', r', hmatch', hr', hid⟩ := h.matching (mem_of_getElem? hp)
  obtain rfl : k' = k := by
    rw [hmatch] at hmatch'
    exact (singleton_inj.mp hmatch').symm
  obtain rfl : r = r' := some.inj (hr.symm.trans hr')
  rcases hs with ⟨-, rfl⟩ | ⟨hdone, rfl⟩
  · exact h.charge hsteady hp hx hr hid
  · exact h.finish hsteady hp hx hr hid hdone
      (fun hne c hc => hok hne k' c ⟨p, r, hp, hmatch, hr, hdone⟩ hc)

end

/-! ### New requests -/

/-- The request is not the end of one slice and one byte of another, and no two outstanding
bytes are at one physical address. -/
def Separate (D : Dtlb) (s : State) : Event → Prop
  | .initiate dir vreg memVaddr numBytes res _ =>
      2 ≤ numBytes ∧ 0 < D.layout.rest (memVaddr + numBytes - 2) ∧
        ((newRequest s.accepted vreg memVaddr numBytes dir res :: s.requests).flatMap
          (Request.paddrs D.layout)).Nodup
  | .tick _ | .response _ | .done | .cpu _ _ => True

instance (s : State) (e : Event) : Decidable (Separate D s e) := by
  cases e <;> unfold Separate <;> infer_instance

variable {dir : Bool} {vreg memVaddr numBytes : ℕ} {res : BitVec 8}

theorem newRequest_shape (id : ℕ) (htwo : 2 ≤ numBytes)
    (hmapped : ∀ k < numBytes, D.layout.Mapped (memVaddr + k)) :
    (newRequest id vreg memVaddr numBytes dir res).Shape D.layout := by
  refine ⟨?_, le_rfl, ?_, ?_, fun _ => rfl, hmapped⟩
  · change memVaddr + numBytes - 1 + 1 = memVaddr + numBytes
    omega
  · change memVaddr < memVaddr + numBytes - 1
    omega
  · change vreg = vreg + (memVaddr - memVaddr)
    omega

theorem newRequest_tail (id : ℕ) (htail : 0 < D.layout.rest (memVaddr + numBytes - 2)) :
    (newRequest id vreg memVaddr numBytes dir res).Tail D.layout := by
  change 0 < D.layout.rest (memVaddr + numBytes - 1 - 1)
  rwa [Nat.sub_sub]

theorem Reserved.insert (h : Reserved s) (hres : res ≠ 0) (hfree : s.dmaResources &&& res = 0) :
    Reserved (insertRequest dir vreg memVaddr numBytes res s) := by
  refine ⟨?_, fun hzero => ?_, pairwise_cons.mpr ⟨fun y hy => ?_, h.disjoint⟩⟩
  · change s.dmaResources ||| res = res ||| (resources s).foldr (· ||| ·) 0
    rw [h.busy, BitVec.or_comm]
  · rcases mem_cons.mp hzero with hzero | hold
    · exact hres hzero.symm
    · exact h.nonzero hold
  · have hbusy : s.dmaResources &&& y = y := by
      rw [h.busy]
      exact foldr_or_and_self hy
    change res &&& y = 0
    rw [← hbusy, ← BitVec.and_assoc, BitVec.and_comm res, hfree]
    simp

theorem Ledger.insert (h : Ledger D s)
    (hok : Undisturbed D s (.initiate dir vreg memVaddr numBytes res now))
    (hsep : Separate D s (.initiate dir vreg memVaddr numBytes res now)) (hres : res ≠ 0)
    (hfree : s.dmaResources &&& res = 0) :
    Ledger D (insertRequest dir vreg memVaddr numBytes res s) := by
  have hidle := hok.1
  have hnone := h.orders.idle hidle
  -- The number of the new request has not been used.
  have hfresh : ∀ k ∈ s.requests.map Request.id, k ≠ s.accepted := fun k hk =>
    ne_of_lt ((h.orders.known k).mp (mem_append_left _ hk))
  have htransfers : transfersOf s.accepted s.transfers = [] := by
    rw [transfersOf, filter_eq_nil_iff]
    intro t ht
    simp [ne_of_lt (h.moved.owners t ht)]
  refine ⟨h.steady.insertRequest hok, ?_, ?_, ?_, h.reserved.insert hres hfree⟩
  · refine ⟨fun r hr => ?_, fun r hr => ?_, nodup_cons.mpr ⟨?_, h.orders.ids⟩, fun k => ?_,
      fun hne => absurd hidle hne, h.orders.idle, fun hphase => ?_, hsep.2.2⟩
    · rcases mem_cons.mp hr with rfl | hold
      · exact newRequest_shape _ hsep.1 (fun k hk =>
          (hok.2.2 (memVaddr + k) (Nat.le_add_right _ _) (Nat.add_lt_add_left hk _)).1)
      · exact h.orders.shape r hold
    · rcases mem_cons.mp hr with rfl | hold
      · exact newRequest_tail _ hsep.2.1
      · exact h.orders.tail r hold
    · exact fun hmem => lt_irrefl _ ((h.orders.known s.accepted).mp hmem)
    · change k ∈ s.accepted :: allIds s ↔ k < s.accepted + 1
      rw [mem_cons, h.orders.known]
      omega
    · rw [show s.currentState = .transfer from hphase] at hidle
      cases hidle
  · refine ⟨fun t ht => Nat.lt_succ_of_lt (h.moved.owners t ht), fun r hr => ?_, fun r hr => ?_,
      h.moved.kept, h.moved.sizes⟩
    · rcases mem_cons.mp hr with rfl | hold
      · change (transfersOf s.accepted s.transfers).flatMap Transfer.moves =
          List.take (issuedBytes s.inProgress _) _
        rw [htransfers, hnone]
        rfl
      · exact h.moved.moved r hold
    · rcases mem_cons.mp hr with rfl | hold
      · change [] = (transfersOf s.accepted s.transfers).map Transfer.range
        rw [htransfers]
        rfl
      · exact h.moved.ranges r hold
  · refine ⟨fun r hr => ?_, fun p hp => ?_, h.charged.lengths, h.charged.answered⟩
    · rcases mem_cons.mp hr with rfl | hold
      · have hzero : bytesOf (fun p => p.owner = s.accepted) s.pending = 0 := by
          apply bytesOf_of_forall_not
          intro p hp
          simpa using hfresh _ (h.charged.packets p hp).request
        change 0 + bytesOf (fun p => p.owner = s.accepted) s.pending = issuedBytes s.inProgress _
        rw [hzero, hnone]
        rfl
      · exact h.charged.charged r hold
    · obtain ⟨hpos, hrequest, htransfer⟩ := h.charged.packets p hp
      exact ⟨hpos, mem_cons_of_mem _ hrequest, htransfer⟩

/-! ### Runs -/

theorem Ledger.nextState (h : Ledger D s)
    (hstep : nextState (hardware D line) now s = some s') : Ledger D s' := by
  have hsteady := h.steady.nextState hstep
  have h' := h.schedule true
  rcases h.steady.nextState_cases hstep with ⟨hempty, rfl⟩ | ⟨hidle, rfl⟩ |
    ⟨hphase, i, r, hcurrent, hstep⟩ | ⟨hphase, i, r, hcurrent, -, rfl⟩
  · refine h.frame hsteady rfl rfl rfl rfl rfl rfl rfl ⟨fun hne => absurd rfl hne, fun _ => rfl,
      (fun hphase => by cases hphase)⟩ (fun r hr => ?_)
    rw [hempty] at hr
    cases hr
  · exact h'.selectRequest hidle
  · exact h'.checkTlb hphase hcurrent hstep
  · exact h'.transferred hphase hcurrent

variable {e : Event} {H : Hardware}

theorem Ledger.step (h : Ledger D s) (hok : Undisturbed D s e) (hsep : Separate D s e)
    (hstep : step (hardware D line) s e = some s') : Ledger D s' := by
  cases e with
  | initiate dir vreg memVaddr numBytes res now =>
    obtain ⟨hres, hfree, rfl | hnext⟩ := initiate_cases hstep
    · exact h.insert hok hsep hres hfree
    · exact ((h.insert hok hsep hres hfree).schedule true).nextState hnext
  | tick now => exact h.nextState (ite_none_right_eq_some.mp hstep).2
  | response j => exact h.handleResp hok hstep
  | done =>
    have hsteady := h.steady.step hok hstep
    obtain ⟨-, rfl⟩ := of_guard hstep
    exact h.frame hsteady rfl rfl rfl rfl rfl rfl rfl
      ⟨h.orders.served, h.orders.idle, h.orders.issued⟩ (fun _ _ => rfl)
  | cpu now e =>
    have hsteady := h.steady.step hok hstep
    obtain ⟨t, -, rfl⟩ := map_eq_some_iff.mp hstep
    exact h.frame hsteady rfl rfl rfl rfl rfl rfl rfl
      ⟨h.orders.served, h.orders.idle, h.orders.issued⟩ (fun _ _ => rfl)

/-! ### The next tick -/

theorem checkTlb_cases (h : checkTlb H now s k r = some s') :
    ∃ t phase current, s' = { s with
      requests := s.requests.set k { r with issued := true }
      dtlb := t
      currentState := phase
      inProgress := current } := by
  simp only [checkTlb] at h
  split at h
  · split at h
    · obtain ⟨t, -, rfl⟩ := map_eq_some_iff.mp h
      exact ⟨t, _, _, rfl⟩
    · exact ⟨_, _, _, (some.inj h).symm⟩
  · exact ⟨_, _, _, (some.inj h).symm⟩

theorem startTransfer_cases (h : startTransfer H s k r = some s') :
    ∃ x, x.dmaResource = r.dmaResource ∧ s'.requests = s.requests.set k x ∧
      s'.dmaResources = s.dmaResources ∧ s'.nextStateScheduled = s.nextStateScheduled := by
  simp only [startTransfer] at h
  split at h
  · split at h
    · obtain ⟨-, h⟩ := ite_none_right_eq_some.mp h
      obtain ⟨x, hx, rfl⟩ := map_eq_some_iff.mp h
      refine ⟨x.2, ?_, rfl, rfl, rfl⟩
      obtain ⟨-, hx⟩ := ite_none_right_eq_some.mp hx
      split at hx
      · exact some.inj hx ▸ rfl
      · exact some.inj hx ▸ rfl
    · cases h
  · cases h

theorem scheduled_of_requests (h : nextState H now s = some s')
    (hne : s.requests ≠ []) : s'.nextStateScheduled = true := by
  rcases nextState_cases h with ⟨hempty, -⟩ | ⟨-, -, rfl⟩ | ⟨-, -, i, r, -, hstep⟩ |
    ⟨-, -, i, r, -, hstep⟩
  · exact absurd hempty hne
  · rcases selectRequest_cases { s with nextStateScheduled := true } with
      ⟨i, r, -, -, hs⟩ | ⟨-, hs⟩
    · rw [hs]
    · rw [hs]
  · obtain ⟨t, phase, current, rfl⟩ := checkTlb_cases hstep
    rfl
  · obtain ⟨x, -, -, -, hscheduled⟩ := startTransfer_cases hstep
    exact hscheduled

theorem requests_ne_nil_of_handleResp (h : handleResp j s = some s') : s.requests ≠ [] := by
  obtain ⟨p, x, k, r, -, -, -, hr, -⟩ := handleResp_cases h
  intro hempty
  rw [hempty] at hr
  cases hr

/-- A step schedules a tick or leaves the schedule as it is, unless it is a tick that finds no
requests. -/
theorem scheduled_cases (hstep : Dma.step H s e = some s') :
    s'.nextStateScheduled = true ∨
    (s'.nextStateScheduled = s.nextStateScheduled ∧ (s'.requests ≠ [] → s.requests ≠ [])) ∨
    ∃ now, e = .tick now ∧ s.requests = [] ∧ s'.requests = [] := by
  cases e with
  | initiate dir vreg memVaddr numBytes res now =>
    obtain ⟨-, hstep⟩ := ite_none_right_eq_some.mp hstep
    split at hstep
    · next hscheduled =>
      cases hstep
      exact .inl hscheduled
    · exact .inl (scheduled_of_requests hstep (cons_ne_nil _ _))
  | tick now =>
    have hnext := (ite_none_right_eq_some.mp hstep).2
    by_cases hempty : s.requests = []
    · rcases nextState_cases hnext with ⟨-, rfl⟩ | ⟨hne, -⟩ | ⟨hne, -⟩ | ⟨hne, -⟩
      · exact .inr (.inr ⟨now, rfl, hempty, hempty⟩)
      all_goals exact absurd hempty hne
    · exact .inl (scheduled_of_requests hnext hempty)
  | response j =>
    have hrequests := requests_ne_nil_of_handleResp hstep
    obtain ⟨p, x, k, r, -, -, -, -, ⟨-, rfl⟩ | ⟨-, rfl⟩⟩ := handleResp_cases hstep
    all_goals exact .inr (.inl ⟨rfl, fun _ => hrequests⟩)
  | done =>
    obtain ⟨-, rfl⟩ := of_guard hstep
    exact .inr (.inl ⟨rfl, id⟩)
  | cpu now e =>
    obtain ⟨t, -, rfl⟩ := map_eq_some_iff.mp hstep
    exact .inr (.inl ⟨rfl, id⟩)

theorem scheduled_of_step (h : s.requests ≠ [] → s.nextStateScheduled = true)
    (hstep : Dma.step H s e = some s') (hne : s'.requests ≠ []) : s'.nextStateScheduled = true := by
  obtain hnext | ⟨hsame, hrequests⟩ | ⟨-, -, -, hempty⟩ := scheduled_cases hstep
  · exact hnext
  · rw [hsame]
    exact h (hrequests hne)
  · exact absurd hempty hne

theorem scheduled_or_empty (hscheduled : s.nextStateScheduled = true)
    (hstep : Dma.step H s e = some s') :
    s'.nextStateScheduled = true ∨ ∃ now, e = .tick now ∧ s.requests = [] := by
  obtain hnext | ⟨hsame, -⟩ | ⟨now, htick, hempty, -⟩ := scheduled_cases hstep
  · exact .inl hnext
  · exact .inl (hsame.trans hscheduled)
  · exact .inr ⟨now, htick, hempty⟩

/-! ### Busy resources belong to requests -/

theorem reserved_reset (t : Tlb.State) : Reserved (reset t) :=
  ⟨rfl, not_mem_nil, List.Pairwise.nil⟩

section

variable (h : Reserved s)
include h

theorem Reserved.congr (hrequests : s'.requests = s.requests)
    (hbusy : s'.dmaResources = s.dmaResources) : Reserved s' := by
  have hresources : resources s' = resources s := by
    rw [resources, resources, hrequests]
  exact ⟨by rw [hbusy, hresources]; exact h.busy, hresources ▸ h.nonzero, hresources ▸ h.disjoint⟩

theorem Reserved.nextState (hstep : nextState H now s = some s') : Reserved s' := by
  rcases nextState_cases hstep with ⟨-, rfl⟩ | ⟨-, -, rfl⟩ | ⟨-, -, i, r, hcurrent, hcheck⟩ |
    ⟨-, -, i, r, hcurrent, htransfer⟩
  · exact h.congr rfl rfl
  · rcases selectRequest_cases { s with nextStateScheduled := true } with
      ⟨i, r, -, -, hselect⟩ | ⟨-, hselect⟩
    · rw [hselect]
      exact h.congr rfl rfl
    · rw [hselect]
      exact h.congr rfl rfl
  · obtain ⟨t, phase, current, rfl⟩ := checkTlb_cases hcheck
    exact h.set (currentRequest_eq_some.mp hcurrent).2 rfl rfl rfl
  · obtain ⟨x, hresource, hrequests, hbusy, -⟩ := startTransfer_cases htransfer
    exact h.set (currentRequest_eq_some.mp hcurrent).2 hrequests hresource hbusy

theorem Reserved.handleResp (hstep : handleResp j s = some s') : Reserved s' := by
  obtain ⟨p, x, k, r, -, -, -, hr, ⟨-, rfl⟩ | ⟨-, rfl⟩⟩ := handleResp_cases hstep
  · exact h.set hr rfl rfl rfl
  · exact h.erase hr rfl rfl

theorem Reserved.step (hstep : Dma.step H s e = some s') : Reserved s' := by
  cases e with
  | initiate dir vreg memVaddr numBytes res now =>
    obtain ⟨hres, hfree, rfl | hnext⟩ := initiate_cases hstep
    · exact h.insert hres hfree
    · exact ((h.insert hres hfree).congr rfl rfl).nextState hnext
  | tick now => exact h.nextState (ite_none_right_eq_some.mp hstep).2
  | response j => exact h.handleResp hstep
  | done =>
    obtain ⟨-, rfl⟩ := of_guard hstep
    exact h.congr rfl rfl
  | cpu now e =>
    obtain ⟨t, -, rfl⟩ := map_eq_some_iff.mp hstep
    exact h.congr rfl rfl

theorem Reserved.requests_ne_nil (hbusy : s.dmaResources &&& res ≠ 0) : s.requests ≠ [] := by
  intro hempty
  rw [h.busy, resources, hempty] at hbusy
  simp at hbusy

end

/-- In every run `DMA_STATUS` shows the resources of the outstanding requests, each for one. -/
theorem reserved_of_reached (H : Hardware) (t : Tlb.State) (s : State)
    (h : Reached (Dma.step H) (fun _ _ => True) (reset t) s) : Reserved s :=
  h.invariant (reserved_reset t) (fun _ _ _ hs _ => hs.step)

/-! ### Service -/

/-- `current_index` points at the request that is served; each request that was accepted has
had its first bytes moved once, all of them unless it waits or is served, and as long as
there are requests the engine goes on; and every response is charged to its request. -/
structure WellServed (D : Dtlb) (s : State) : Prop where
  current : s.currentState ≠ .idle → ∃ i r, currentRequest s = some (i, r) ∧
    s.inProgress = some r.id
  idle : s.currentState = .idle → s.inProgress = none
  scheduled : s.requests ≠ [] → s.nextStateScheduled = true
  accepted : ∀ k < s.accepted, ∃ r ∈ s.requests ++ s.finished, r.id = k
  started : ∀ r ∈ s.requests, ∃ n, issuedMoves r.id s.transfers = (r.moves D.layout).take n
  moved : ∀ r ∈ s.requests, r.issued = true → s.inProgress ≠ some r.id →
    issuedMoves r.id s.transfers = r.moves D.layout
  finished : ∀ r ∈ s.finished, issuedMoves r.id s.transfers = r.moves D.layout ∧
    r.bytesCompleted = r.bytesExpected
  charged : ∀ (j : ℕ) p, s.pending[j]? = some p → ∃ k r, matching p.addr s.requests = [k] ∧
    s.requests[k]? = some r ∧ r.id = p.owner ∧ handleResp j s ≠ none

theorem Ledger.wellServed (h : Ledger D s)
    (hscheduled : s.requests ≠ [] → s.nextStateScheduled = true) : WellServed D s where
  current hne := by
    obtain ⟨i, r, hcurrent⟩ := h.steady.current hne
    exact ⟨i, r, hcurrent, h.orders.served hne i r hcurrent⟩
  idle := h.orders.idle
  scheduled := hscheduled
  accepted k hk := by
    have hmem := (h.orders.known k).mpr hk
    rw [allIds, ← map_append] at hmem
    obtain ⟨r, hr, hid⟩ := List.mem_map.mp hmem
    exact ⟨r, hr, hid⟩
  started r hr := ⟨_, h.moved.moved r hr⟩
  moved r hr hissued hprogress := by
    have hmoved := h.moved.moved r hr
    rw [issuedBytes, if_neg hprogress, if_pos hissued, ← Request.length_moves (L := D.layout),
      take_length] at hmoved
    exact hmoved
  finished := h.moved.kept
  charged j p hp := by
    obtain ⟨k, r, hmatch, hr, hid⟩ := h.matching (mem_of_getElem? hp)
    exact ⟨k, r, hmatch, hr, hid, h.handleResp_ne_none (List.getElem?_eq_some_iff.mp hp).1⟩

/-- In every run whose steps all leave the request that is served its position and its rule,
and in which requests do not overlap and do not end with a single byte of a slice, the
requests are well served in every state. -/
theorem wellServed_of_undisturbed (D : Dtlb) (line : ℕ) (t : Tlb.State) (ht : Consistent D t)
    (s : State) (h : Reached (step (hardware D line))
      (fun s e => Undisturbed D s e ∧ Separate D s e) (reset t) s) : WellServed D s := by
  have hledger : Ledger D s := h.invariant (I := Ledger D) (ledger_reset ht)
    (fun s e s' hs hok hstep => hs.step hok.1 hok.2 hstep)
  refine hledger.wellServed (h.invariant (I := fun s => s.requests ≠ [] →
    s.nextStateScheduled = true) (fun hne => absurd rfl hne)
    (fun s e s' hs _ hstep => scheduled_of_step hs hstep))

end Runs

/-- A request for the end of one page and the start of the next gets its two transfers. -/
theorem wellServed_acrossPages : ∃ s,
    Reached (step (hardware fourPagesDtlb 64))
      (fun s e => Undisturbed fourPagesDtlb s e ∧ Separate fourPagesDtlb s e)
      (reset (initial scratchpad)) s ∧
    s.transfers.map Transfer.range = [⟨0x10ffc, 0x10fff⟩, ⟨0x12000, 0x12003⟩] ∧
    WellServed fourPagesDtlb s := by
  have hrun : (runSchedule (step (hardware fourPagesDtlb 64)) (reset (initial scratchpad))
      [.initiate true 0 0x8ffc 8 1 0, .tick 1, .tick 2, .tick 3, .tick 4]).map
        (fun s => s.transfers.map Transfer.range) =
      some [⟨0x10ffc, 0x10fff⟩, ⟨0x12000, 0x12003⟩] := by
    decide +kernel
  obtain ⟨s, hs, hranges⟩ := map_eq_some_iff.mp hrun
  have hfirst : Undisturbed fourPagesDtlb (reset (initial scratchpad))
      (.initiate true 0 0x8ffc 8 1 0) := by
    refine ⟨rfl, by decide, fun a hle hlt => ⟨⟨?_, ?_⟩, not_mem_nil⟩⟩
    · exact le_trans (by decide) hle
    · exact lt_trans hlt (by decide)
  have hreached : Reached (step (hardware fourPagesDtlb 64))
      (fun s e => Undisturbed fourPagesDtlb s e ∧ Separate fourPagesDtlb s e)
      (reset (initial scratchpad)) s := by
    refine reached_of_cons _ ⟨hfirst, by decide +kernel⟩ (fun e he s => ?_) hs
    obtain ⟨now, rfl⟩ : ∃ now, e = .tick now := by
      simp only [mem_cons, not_mem_nil, or_false] at he
      rcases he with rfl | rfl | rfl | rfl <;> exact ⟨_, rfl⟩
    exact ⟨trivial, trivial⟩
  exact ⟨s, hreached, hranges, wellServed_of_undisturbed fourPagesDtlb 64 (initial scratchpad)
    (consistent_initial fourPagesDtlb) s hreached⟩

/-- The second request comes between the refill for the first one and its transfer. -/
def requestBetween : List Event :=
  [.initiate true 0 0x8000 8 1 0, .tick 1, .initiate true 16 0x8010 8 2 2, .tick 3, .tick 4,
    .tick 5, .tick 6, .tick 7]

/-- Two requests are outstanding. -/
theorem reserved_requestBetween : ∃ s,
    Reached (step (hardware fourPagesDtlb 64)) (fun _ _ => True) (reset (initial scratchpad)) s ∧
    s.requests.map Request.dmaResource = [2, 1] ∧ s.dmaResources = 3 ∧ Reserved s := by
  have hrun : (runSchedule (guarded (step (hardware fourPagesDtlb 64)) (fun _ _ => True))
      (reset (initial scratchpad)) requestBetween).map
      (fun s => (s.requests.map Request.dmaResource, s.dmaResources)) = some ([2, 1], 3) := by
    decide +kernel
  obtain ⟨s, hreached, hvalues⟩ := exists_of_runSchedule _ hrun
  simp only [Prod.mk.injEq] at hvalues
  exact ⟨s, hreached, hvalues.1, hvalues.2,
    reserved_of_reached (hardware fourPagesDtlb 64) (initial scratchpad) s hreached⟩

/-- The second request is transferred twice, so that its packets match two ranges, and the
first one never. -/
theorem requestBetween_not_wellServed : ∃ s,
    Reached (step (hardware fourPagesDtlb 64)) (Separate fourPagesDtlb)
      (reset (initial scratchpad)) s ∧
    s.currentState = .idle ∧ s.requests.map (fun r => (r.id, r.issued)) = [(1, true), (0, true)] ∧
    s.transfers.map Transfer.owner = [1, 1] ∧ handleResp 0 s = none ∧
    ¬ WellServed fourPagesDtlb s := by
  have hrun : (runSchedule (guarded (step (hardware fourPagesDtlb 64)) (Separate fourPagesDtlb))
      (reset (initial scratchpad)) requestBetween).map (fun s => (s.currentState,
        s.requests.map (fun r => (r.id, r.issued)), s.transfers.map Transfer.owner,
        (handleResp 0 s).isSome, s.pending.length)) =
      some (.idle, [(1, true), (0, true)], [1, 1], false, 2) := by
    decide +kernel
  obtain ⟨s, hreached, hvalues⟩ := exists_of_runSchedule _ hrun
  simp only [Prod.mk.injEq, isSome_eq_false_iff, isNone_iff_eq_none] at hvalues
  obtain ⟨hidle, hrequests, howners, hresponse, hpending⟩ := hvalues
  refine ⟨s, hreached, hidle, hrequests, howners, hresponse, fun hwell => ?_⟩
  have hlt : 0 < s.pending.length := by omega
  obtain ⟨k, r, -, -, -, hanswered⟩ := hwell.charged 0 _ (getElem?_eq_getElem hlt)
  exact hanswered hresponse

end SmcSim.Dma
