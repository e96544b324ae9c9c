import SmcSim.TlbPorts

/-!
# Addresses on the way back

A request that needs a response is turned away any number of times, by the TLB because of a
miss or by the port downstream, before it is accepted, and its response is refused any
number of times. The stack of sender states comes back as it was. The address comes back
if the address pushed last is the one that the requester sent.
-/

namespace SmcSim.Tlb
open SliceTable TranslationRules Option List

/-- One arrival of the packet at the TLB. Other packets may have changed the TLB before. -/
structure Attempt where
  now : ℕ
  state : PortState
  refillAccepted : Bool
  accepted : Bool

section Journey

variable (c : Params) (table : ℕ → Slice)

def attempt (x : Attempt) (p : Packet) : Option Outcome :=
  (recvTimingReq c table x.now x.refillAccepted x.accepted p x.state).map Prod.fst

def turnedAway : List Attempt → Packet → Option Packet
  | [], p => some p
  | x :: xs, p =>
      (attempt c table x p).bind (fun outcome =>
        match outcome with
        | .retry q => turnedAway xs q
        | .sent _ | .answered _ => none)

/-- The packet that the requester gets after it has refused the response `m` times. -/
def respond : ℕ → Packet → Option Packet
  | 0, p => (recvTimingResp true p).map Prod.snd
  | m + 1, p => (recvTimingResp false p).bind (fun x => respond m x.2)

/-- `dequeue` has no retry for what the TLB has answered itself. -/
def deliver (m : ℕ) : Outcome → Option Packet
  | .sent p => respond m p
  | .answered p => if m = 0 then some p else none
  | .retry _ => none

def journey (xs : List Attempt) (last : Attempt) (p : Packet) : Option Outcome :=
  (turnedAway c table xs p).bind (attempt c table last)

/-- The requester gets the packet with its address and its stack. -/
def Restored (xs : List Attempt) (last : Attempt) (m : ℕ) (p : Packet) : Prop :=
  ∃ q, (journey c table xs last p).bind (deliver m) = some q ∧ q.addr = p.addr ∧
    q.senderState = p.senderState

def PushesOwnAddress (xs : List Attempt) (p : Packet) : Prop :=
  match xs.find? (fun x => ¬ Misses c (target c p) x.state.tlb) with
  | none => target c p = p.addr
  | some x => translation c.toConfig table (target c p) x.state.tlb = some p.addr

end Journey

def Outcome.Accepted : Outcome → Prop
  | .retry _ => False
  | .sent _ | .answered _ => True

structure Packet.Plain (c : Params) (p : Packet) : Prop where
  fresh : p.isRemapped = false
  needsResponse : p.needsResponse = true
  notInhibited : p.memInhibitAsserted = false
  notRefill : ¬ AtRefillReg c p

section Lemmas

variable {c : Params} {table : ℕ → Slice} {p q : Packet} {x last : Attempt} {xs : List Attempt}
  {a b m : ℕ} {outcome : Outcome}

theorem Packet.Same.target (h : p.Same q) (haddr : q.addr = p.addr) : target c q = target c p := by
  have hwrite : hmcWrite c q = hmcWrite c p := by rw [hmcWrite, hmcWrite, h.isWrite, haddr]
  have hword : q.word c.toConfig = p.word c.toConfig := by rw [Packet.word, Packet.word, h.data]
  rw [Tlb.target, Tlb.target, hwrite, hword, haddr]

/-- A packet that the port downstream refuses is as it was before. -/
theorem forward_cases (hneeds : p.needsResponse = true) (hinhibit : p.memInhibitAsserted = false)
    (accepted : Bool) (a : ℕ) :
    forward accepted a p = .sent { p with senderState := .addrMapper a :: p.senderState } ∨
      forward accepted a p = .retry p := by
  have hpush : p.needsResponse = true ∧ ¬ p.memInhibitAsserted = true :=
    ⟨hneeds, by simp [hinhibit]⟩
  unfold forward
  rw [if_pos hpush]
  cases accepted with
  | true => exact .inl rfl
  | false =>
    refine .inr ?_
    rw [if_neg Bool.false_ne_true, if_pos hneeds]
    rfl

/-- A packet that is refused is as it was. -/
theorem respond_pushed {rest : List SenderState} (m : ℕ)
    (h : p.senderState = .addrMapper a :: rest) :
    respond m p = some { p with addr := a, senderState := rest } := by
  induction m with
  | zero => simp [respond, recvTimingResp, h]
  | succ m ih =>
    have hsame : recvTimingResp false p = some (false, p) := by
      unfold recvTimingResp
      split
      · rfl
      · next hother => exact absurd h (hother a rest)
    rw [respond, hsame, bind_some, ih]

/-! ### Attempts -/

structure Waiting (c : Params) (table : ℕ → Slice) (xs : List Attempt) (p q : Packet) : Prop where
  same : p.Same q
  waiting : q.isRemapped = false → q.addr = p.addr ∧
    xs.find? (fun x => ¬ Misses c (target c p) x.state.tlb) = none
  translated : q.isRemapped = true → ∃ x,
    xs.find? (fun x => ¬ Misses c (target c p) x.state.tlb) = some x ∧
      translation c.toConfig table (target c p) x.state.tlb = some q.addr

theorem attempt_of_remapped (hremapped : p.isRemapped = true)
    (h : attempt c table x p = some outcome) :
    (AtRefillReg c p ∧ outcome = .answered p) ∨ outcome = forward x.accepted p.addr p := by
  obtain ⟨⟨outcome', s'⟩, hreq, rfl⟩ := map_eq_some_iff.mp h
  simp only [recvTimingReq] at hreq
  split at hreq
  · next hreg =>
    split at hreq
    · obtain ⟨t, -, hanswer⟩ := map_eq_some_iff.mp hreq
      obtain ⟨rfl, -⟩ := Prod.mk.inj hanswer
      exact .inl ⟨hreg, rfl⟩
    · cases hreq
  · obtain ⟨rfl, -⟩ := Prod.mk.inj (some.inj hreq)
    exact .inr rfl

theorem attempt_of_fresh (hplain : p.Plain c) (h : attempt c table x p = some outcome) :
    ∃ q, p.Same q ∧ q.addr = p.addr ∧ q.isRemapped = false ∧
      ((Misses c (target c p) x.state.tlb ∧ outcome = .retry q) ∨
        (¬ Misses c (target c p) x.state.tlb ∧
          ∃ b, translation c.toConfig table (target c p) x.state.tlb = some b ∧
            outcome = forward x.accepted (target c p) (remapped b q))) := by
  obtain ⟨⟨outcome', s'⟩, hreq, rfl⟩ := map_eq_some_iff.mp h
  exact recvTimingReq_cases hplain.notRefill hplain.fresh hreq

/-- One more attempt that is turned away. -/
theorem Waiting.next {q' : Packet} (hplain : p.Plain c) (h : Waiting c table xs p q)
    (hattempt : attempt c table x q = some (.retry q')) : Waiting c table (xs ++ [x]) p q' := by
  have hneeds : q.needsResponse = true := h.same.needsResponse.trans hplain.needsResponse
  have hinhibit : q.memInhibitAsserted = false :=
    h.same.memInhibitAsserted.trans hplain.notInhibited
  cases hremapped : q.isRemapped with
  | true =>
    obtain ⟨x₀, hfirst, htranslation⟩ := h.translated hremapped
    obtain rfl : q' = q := by
      rcases attempt_of_remapped hremapped hattempt with ⟨-, hanswered⟩ | hforward
      · cases hanswered
      · rcases forward_cases hneeds hinhibit x.accepted q.addr with hsent | hretry
        · cases hforward.trans hsent
        · exact Outcome.retry.inj (hforward.trans hretry)
    refine ⟨h.same, fun hfresh => ?_, fun _ => ⟨x₀, ?_, htranslation⟩⟩
    · rw [hremapped] at hfresh
      cases hfresh
    · rw [find?_append, hfirst, some_or]
  | false =>
    obtain ⟨haddr, hnone⟩ := h.waiting hremapped
    have hplain' : q.Plain c := by
      refine ⟨hremapped, hneeds, hinhibit, fun hreg => hplain.notRefill ?_⟩
      rwa [AtRefillReg, haddr] at hreg
    obtain ⟨q₁, hsame₁, haddr₁, hfresh₁, hcases⟩ := attempt_of_fresh hplain' hattempt
    rw [h.same.target haddr] at hcases
    rcases hcases with ⟨hmiss, hretry⟩ | ⟨hhit, b, hb, hforward⟩
    · obtain rfl := Outcome.retry.inj hretry
      refine ⟨h.same.trans hsame₁, fun _ => ⟨haddr₁.trans haddr, ?_⟩, fun htrue => ?_⟩
      · rw [find?_append, hnone, none_or, find?_singleton]
        exact if_neg (by simpa using hmiss)
      · rw [hfresh₁] at htrue
        cases htrue
    · have hneeds₁ : (remapped b q₁).needsResponse = true := hsame₁.needsResponse.trans hneeds
      have hinhibit₁ : (remapped b q₁).memInhibitAsserted = false :=
        hsame₁.memInhibitAsserted.trans hinhibit
      obtain rfl : q' = remapped b q₁ := by
        rcases forward_cases hneeds₁ hinhibit₁ x.accepted (target c p) with hsent | hretry
        · cases hforward.trans hsent
        · exact Outcome.retry.inj (hforward.trans hretry)
      refine ⟨(h.same.trans hsame₁).remapped b, (fun hfalse => by cases hfalse),
        fun _ => ⟨x, ?_, hb⟩⟩
      rw [find?_append, hnone, none_or, find?_singleton]
      exact if_pos (by simpa using hhit)

theorem Waiting.run {q' : Packet} {ys : List Attempt} (hplain : p.Plain c)
    (h : Waiting c table ys p q) (hrun : turnedAway c table xs q = some q') :
    Waiting c table (ys ++ xs) p q' := by
  induction xs generalizing ys q with
  | nil =>
    cases hrun
    rwa [append_nil]
  | cons x xs ih =>
    obtain ⟨outcome, hattempt, hrest⟩ := bind_eq_some_iff.mp hrun
    cases outcome with
    | retry q₁ =>
      have hnext := ih (h.next hplain hattempt) hrest
      rwa [append_assoc] at hnext
    | sent | answered => cases hrest

theorem waiting_of_turnedAway (hplain : p.Plain c) (hrun : turnedAway c table xs p = some q) :
    Waiting c table xs p q := by
  have hstart : Waiting c table [] p p := by
    refine ⟨.refl p, fun _ => ⟨rfl, rfl⟩, fun htrue => ?_⟩
    rw [hplain.fresh] at htrue
    cases htrue
  exact hstart.run hplain hrun

/-! ### The way back -/

/-- What the requester gets when the last attempt has pushed an address. -/
theorem deliver_sent (m : ℕ) (hsame : p.Same q) :
    ∃ r, deliver m (.sent { q with senderState := .addrMapper a :: q.senderState }) = some r ∧
      r.addr = a ∧ r.senderState = p.senderState :=
  ⟨_, respond_pushed m rfl, rfl, hsame.senderState⟩

theorem restored_iff_of_sent (hjourney : journey c table xs last p =
      some (.sent { q with senderState := .addrMapper a :: q.senderState })) (hsame : p.Same q) :
    Restored c table xs last m p ↔ a = p.addr := by
  obtain ⟨r, hr, haddr, hstack⟩ := deliver_sent (a := a) m hsame
  constructor
  · rintro ⟨r', hr', haddr', -⟩
    rw [hjourney, bind_some, hr] at hr'
    cases hr'
    exact haddr.symm.trans haddr'
  · rintro rfl
    refine ⟨r, ?_, haddr, hstack⟩
    rw [hjourney, bind_some, hr]

end Lemmas

/-- A request that was accepted after any attempts comes back with its address and its stack
if and only if the last attempt has pushed that address. -/
theorem restored_iff (c : Params) (table : ℕ → Slice) (xs : List Attempt) (last : Attempt) (m : ℕ)
    (p : Packet) (hplain : p.Plain c)
    (haccepted : ∃ outcome, journey c table xs last p = some outcome ∧ outcome.Accepted) :
    Restored c table xs last m p ↔ PushesOwnAddress c table xs p := by
  obtain ⟨outcome, hjourney, haccepted⟩ := haccepted
  obtain ⟨q, hrun, hlast⟩ := bind_eq_some_iff.mp hjourney
  have h := waiting_of_turnedAway hplain hrun
  have hneeds : q.needsResponse = true := h.same.needsResponse.trans hplain.needsResponse
  have hinhibit : q.memInhibitAsserted = false :=
    h.same.memInhibitAsserted.trans hplain.notInhibited
  cases hremapped : q.isRemapped with
  | false =>
    obtain ⟨haddr, hnone⟩ := h.waiting hremapped
    have hplain' : q.Plain c := by
      refine ⟨hremapped, hneeds, hinhibit, fun hreg => hplain.notRefill ?_⟩
      rwa [AtRefillReg, haddr] at hreg
    obtain ⟨q₁, hsame₁, haddr₁, hfresh₁, hcases⟩ := attempt_of_fresh hplain' hlast
    rw [h.same.target haddr] at hcases
    rw [PushesOwnAddress, hnone]
    rcases hcases with ⟨-, rfl⟩ | ⟨-, b, -, hforward⟩
    · exact haccepted.elim
    · rcases forward_cases (p := remapped b q₁) (hsame₁.needsResponse.trans hneeds)
        (hsame₁.memInhibitAsserted.trans hinhibit) last.accepted (target c p) with hsent | hretry
      · rw [hforward, hsent] at hjourney
        exact restored_iff_of_sent hjourney ((h.same.trans hsame₁).remapped b)
      · rw [hforward, hretry] at haccepted
        exact haccepted.elim
  | true =>
    obtain ⟨x, hfirst, htranslation⟩ := h.translated hremapped
    have hpushes : PushesOwnAddress c table xs p ↔ q.addr = p.addr := by
      rw [PushesOwnAddress, hfirst]
      dsimp only
      rw [htranslation, some.injEq]
    rw [hpushes]
    rcases attempt_of_remapped hremapped hlast with ⟨hreg, rfl⟩ | hforward
    · -- The translation is the address of the refill register, and not that of the request.
      have hne : q.addr ≠ p.addr := by
        intro haddr
        refine hplain.notRefill ?_
        rwa [AtRefillReg, haddr] at hreg
      constructor
      · rintro ⟨r, hr, haddr, -⟩
        rw [hjourney, bind_some, deliver] at hr
        split at hr
        · cases hr
          exact haddr
        · cases hr
      · exact fun haddr => absurd haddr hne
    · rcases forward_cases hneeds hinhibit last.accepted q.addr with hsent | hretry
      · rw [hforward, hsent] at hjourney
        exact restored_iff_of_sent hjourney h.same
      · rw [hforward, hretry] at haccepted
        exact haccepted.elim

/-- An arrival of the packet at the TLB with the rules `rules`. -/
def arrival (rules : List Rule) (accepted : Bool) : Attempt :=
  ⟨1, ⟨⟨rules, []⟩, 0⟩, true, accepted⟩

/-- A read that misses, and is accepted when the refill has been answered. -/
theorem restored_afterMiss : Restored (smallPorts false 0x40) (pageSlices fourPages 0x8000)
    [arrival [scratchpad] true] (arrival [scratchpad, secondPage] true) 2 (readPacket 0x9004) := by
  refine (restored_iff (smallPorts false 0x40) (pageSlices fourPages 0x8000)
    [arrival [scratchpad] true]
    (arrival [scratchpad, secondPage] true) 2 (readPacket 0x9004) ⟨rfl, rfl, rfl, by decide⟩
    ⟨_, rfl, trivial⟩).mpr ?_
  change target (smallPorts false 0x40) (readPacket 0x9004) = 0x9004
  decide

/-- A read that the port downstream has refused once comes back with its physical address, and
an HMC command with the address that it was for. -/
theorem address_not_restored :
    ((journey (smallPorts false 0x40) (pageSlices fourPages 0x8000)
        [arrival [scratchpad, secondPage] false] (arrival [scratchpad, secondPage] true)
        (readPacket 0x9004)).bind (deliver 0)).map Packet.addr = some 0x12004 ∧
    ((journey (smallPorts false 0x40) (pageSlices fourPages 0x8000) []
        (arrival [scratchpad, secondPage] true) (writePacket 0x44 0x9004)).bind
        (deliver 0)).map Packet.addr = some 0x9004 ∧
    ¬ Restored (smallPorts false 0x40) (pageSlices fourPages 0x8000)
      [arrival [scratchpad, secondPage] false] (arrival [scratchpad, secondPage] true) 0
      (readPacket 0x9004) ∧
    ¬ Restored (smallPorts false 0x40) (pageSlices fourPages 0x8000) []
      (arrival [scratchpad, secondPage] true) 0 (writePacket 0x44 0x9004) := by
  have hread : ((journey (smallPorts false 0x40) (pageSlices fourPages 0x8000)
      [arrival [scratchpad, secondPage] false] (arrival [scratchpad, secondPage] true)
      (readPacket 0x9004)).bind (deliver 0)).map Packet.addr = some 0x12004 := by
    decide
  have hcommand : ((journey (smallPorts false 0x40) (pageSlices fourPages 0x8000) []
      (arrival [scratchpad, secondPage] true) (writePacket 0x44 0x9004)).bind
      (deliver 0)).map Packet.addr = some 0x9004 := by
    decide
  refine ⟨hread, hcommand, ?_, ?_⟩
  · rintro ⟨q, hq, haddr, -⟩
    rw [hq, map_some, haddr] at hread
    exact absurd hread (by decide)
  · rintro ⟨q, hq, haddr, -⟩
    rw [hq, map_some, haddr] at hcommand
    exact absurd hcommand (by decide)

end SmcSim.Tlb
