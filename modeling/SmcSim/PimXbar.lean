import Mathlib.Algebra.Order.Ring.Nat
import SmcSim.Interleavings

/-!
# The ideal responses of the PIM crossbar

`PIMXBar` answers ideal instruction fetches and ideal accesses to the SPM itself: it puts them
into `port_list` and `pkt_list`, and `respond` sends one response each time its event comes. A
port that gets a response may send requests from inside `sendTimingResp`.
-/

namespace SmcSim.PimXbar

open Interleavings List Option

structure Request where
  port : ℕ
  pkt : ℕ
  deriving DecidableEq

/-- `received` and `delivered` are the requests in the order in which they came and were
answered. -/
structure State where
  now : ℕ := 0
  portList : List ℕ := []
  pktList : List ℕ := []
  responseScheduled : Bool := false
  respondEvent : Option ℕ := none
  received : List Request := []
  delivered : List Request := []

/-- An event is not scheduled twice: `none` is a failed assertion. -/
def schedule (s : State) (tick : ℕ) : Option State :=
  match s.respondEvent with
  | none => some { s with respondEvent := some tick }
  | some _ => none

/-- `WAIT_ps` -/
def waitPs : ℕ := 1

/-- What `recvTimingReq` does with an ideal request, whether it is an instruction fetch or an access
to the SPM. -/
def recvTimingReq (s : State) (r : Request) : Option State :=
  let s := { s with
    portList := s.portList ++ [r.port]
    pktList := s.pktList ++ [r.pkt]
    received := s.received ++ [r] }
  if s.responseScheduled then some s
  else schedule { s with responseScheduled := true } (s.now + waitPs)

/-- The requests that come one after the other. -/
def recvAll (s : State) : List Request → Option State
  | [] => some s
  | r :: rs => (recvTimingReq s r).bind (fun s => recvAll s rs)

/-- The response is sent, with the requests that come from inside `sendTimingResp` and its
result. -/
def respond (s : State) (nested : List Request) (success : Bool) : Option State :=
  match s.portList, s.pktList, s.responseScheduled with
  | port :: _, pkt :: _, true => do
    let s ← recvAll { s with respondEvent := none } nested
    let s := if success then { s with
      portList := s.portList.tail
      pktList := s.pktList.tail
      delivered := s.delivered ++ [⟨port, pkt⟩] } else s
    if s.pktList.isEmpty then some { s with responseScheduled := false }
    else schedule { s with responseScheduled := true } (s.now + if success then 0 else 1)
  | _, _, _ => none

inductive Event
  | recvTimingReq (r : Request)
  | respond (nested : List Request) (success : Bool)

def step (s : State) (l : ℕ × Event) : Option State :=
  match l.2 with
  | .recvTimingReq r => recvTimingReq { s with now := l.1 } r
  | .respond nested success => respond { s with now := l.1 } nested success

/-- Time does not pass an event that is scheduled, and `respond` is called by its event. -/
def Happens (s : State) (l : ℕ × Event) : Prop :=
  s.now ≤ l.1 ∧ (∀ t ∈ s.respondEvent, l.1 ≤ t) ∧
  match l.2 with
  | .recvTimingReq _ => True
  | .respond _ _ => s.respondEvent = some l.1

/-- The events in which a port takes its response. -/
def Event.Takes : Event → Prop
  | .recvTimingReq _ => False
  | .respond _ success => success = true

/-- The requests that wait for their responses. -/
def waiting (s : State) : List Request := List.zipWith Request.mk s.portList s.pktList

/-- The two queues match, and the log is what was delivered and what waits. -/
structure Queued (s : State) : Prop where
  lengths : s.portList.length = s.pktList.length
  in_order : s.received = s.delivered ++ waiting s

/-- What holds between two events, and of the queues also inside `respond`, after any number of the
requests that come from there. -/
structure Serves (s : State) : Prop extends Queued s where
  scheduled : s.responseScheduled = true ↔ s.pktList ≠ []
  nested : ∀ t rs, s.respondEvent = some t →
    ∃ s', recvAll { s with now := t, respondEvent := none } rs = some s' ∧ Queued s'
  asserts : ∀ l, Happens s l → (step s l).isSome
  delivers : ∃ s', Reached step (fun s l => Happens s l ∧ l.2.Takes) s s' ∧
    s'.delivered = s.received

/-- The event is scheduled exactly when a request waits. -/
structure Ok (s : State) : Prop extends Queued s where
  scheduled : s.responseScheduled = !s.pktList.isEmpty
  event : s.respondEvent.isSome = s.responseScheduled
  now_le : ∀ t ∈ s.respondEvent, s.now ≤ t

variable {s s' : State} {r : Request}

theorem Queued.push (h : Queued s) : Queued { s with
    portList := s.portList ++ [r.port]
    pktList := s.pktList ++ [r.pkt]
    received := s.received ++ [r] } := by
  refine ⟨by simp [h.lengths], ?_⟩
  simp [waiting, zipWith_append h.lengths, h.in_order]

theorem Ok.recvTimingReq (h : Ok s) (r : Request) : ∃ s', recvTimingReq s r = some s' ∧ Ok s' := by
  have hevent := h.event
  have hpush := h.push (r := r)
  unfold PimXbar.recvTimingReq
  cases hflag : s.responseScheduled with
  | true =>
    rw [hflag] at hevent
    exact ⟨_, rfl, ⟨hpush.lengths, hpush.in_order⟩, by simp, hevent, h.now_le⟩
  | false =>
    rw [hflag, isSome_eq_false_iff, isNone_iff_eq_none] at hevent
    simp only [schedule, hevent, Bool.false_eq_true, if_false]
    exact ⟨_, rfl, ⟨hpush.lengths, hpush.in_order⟩, by simp, rfl, by simp⟩

/-- While `respond` runs, the flag is set and requests only join the queues. -/
theorem Queued.recvAll (rs : List Request) (h : Queued s) (hflag : s.responseScheduled = true) :
    ∃ s', recvAll s rs = some s' ∧ Queued s' ∧ s'.respondEvent = s.respondEvent ∧
      s'.delivered = s.delivered ∧ s'.received = s.received ++ rs ∧
      s'.portList = s.portList ++ rs.map Request.port ∧
        s'.pktList = s.pktList ++ rs.map Request.pkt := by
  induction rs generalizing s with
  | nil => exact ⟨s, rfl, h, by simp⟩
  | cons r rs ih =>
    obtain ⟨s', hs', hq, hevent, hdelivered, hreceived, hports, hpkts⟩ := ih (h.push (r := r)) hflag
    refine ⟨s', ?_, hq, hevent, hdelivered, by simp [hreceived], by simp [hports], by simp [hpkts]⟩
    rw [PimXbar.recvAll, PimXbar.recvTimingReq]
    simp only [hflag, if_true] at hs' ⊢
    exact hs'

/-- What `respond` leaves behind: the flag and the event for the requests that still wait. -/
theorem Queued.reschedule (h : Queued s) (hevent : s.respondEvent = none) (tick : ℕ) :
    ∃ s', (if s.pktList.isEmpty then some { s with responseScheduled := false }
      else schedule { s with responseScheduled := true } (s.now + tick)) = some s' ∧ Ok s' ∧
      s'.received = s.received ∧ s'.pktList = s.pktList := by
  cases hempty : s.pktList.isEmpty with
  | true =>
    exact ⟨_, rfl, ⟨⟨h.lengths, h.in_order⟩, by simp [hempty], by simp [hevent], by simp [hevent]⟩,
      rfl, rfl⟩
  | false =>
    simp only [schedule, hevent, Bool.false_eq_true, if_false]
    exact ⟨_, rfl, ⟨⟨h.lengths, h.in_order⟩, by simp [hempty], rfl, by simp⟩, rfl, rfl⟩

theorem Ok.respond (h : Ok s) (hnow : s.respondEvent = some s.now) (nested : List Request)
    (success : Bool) : ∃ s', respond s nested success = some s' ∧ Ok s' ∧
      s'.received = s.received ++ nested ∧
      s'.pktList.length + success.toNat = s.pktList.length + nested.length := by
  have hflag : s.responseScheduled = true := by
    rw [← h.event, hnow]
    rfl
  have hscheduled := h.scheduled
  have hlengths := h.lengths
  obtain ⟨pkt, pkts, hpkts⟩ : ∃ pkt pkts, s.pktList = pkt :: pkts := by
    rw [hflag] at hscheduled
    exact exists_cons_of_ne_nil (by simpa using hscheduled.symm)
  obtain ⟨port, ports, hports⟩ : ∃ port ports, s.portList = port :: ports := by
    rw [hpkts] at hlengths
    exact exists_cons_of_length_eq_add_one hlengths
  obtain ⟨s₁, hs₁, hq, hevent, hdelivered, hreceived, hports₁, hpkts₁⟩ :=
    Queued.recvAll (s := { s with respondEvent := none }) nested ⟨h.lengths, h.in_order⟩ hflag
  have hlength : s₁.pktList.length = pkts.length + 1 + nested.length := by
    rw [hpkts₁, length_append, length_map, hpkts, length_cons]
  simp only [hports, hpkts, hflag] at hs₁
  simp only [PimXbar.respond, hports, hpkts, hflag, hs₁, bind_eq_bind, bind_some]
  cases success with
  | false =>
    obtain ⟨s', hs', hok, hreceived', hpkts'⟩ := hq.reschedule hevent 1
    exact ⟨s', hs', hok, hreceived'.trans hreceived, by rw [hpkts']; exact hlength⟩
  | true =>
    have hpop : Queued { s₁ with
        portList := s₁.portList.tail
        pktList := s₁.pktList.tail
        delivered := s₁.delivered ++ [⟨port, pkt⟩] } := by
      refine ⟨by simp [hq.lengths], ?_⟩
      rw [hq.in_order]
      simp [waiting, hports₁, hports, hpkts₁, hpkts]
    obtain ⟨s', hs', hok, hreceived', hpkts'⟩ := hpop.reschedule hevent 0
    refine ⟨s', hs', hok, hreceived'.trans hreceived, ?_⟩
    rw [hpkts', length_tail, hlength, length_cons, Bool.toNat_true]
    omega

theorem Ok.later (h : Ok s) {l : ℕ × Event} (hl : Happens s l) : Ok { s with now := l.1 } :=
  ⟨⟨h.lengths, h.in_order⟩, h.scheduled, h.event, hl.2.1⟩

theorem Ok.step (h : Ok s) {l : ℕ × Event} (hl : Happens s l) :
    ∃ s', step s l = some s' ∧ Ok s' := by
  have hlater := h.later hl
  obtain ⟨now, event⟩ := l
  obtain ⟨-, -, hl⟩ := hl
  cases event with
  | recvTimingReq r => exact hlater.recvTimingReq r
  | respond nested success =>
    obtain ⟨s', hs', hok, -⟩ := hlater.respond hl nested success
    exact ⟨s', hs', hok⟩

theorem Ok.delivers (h : Ok s) :
    ∃ s', Reached PimXbar.step (fun s l => Happens s l ∧ l.2.Takes) s s' ∧
    s'.delivered = s.received := by
  have hempties : ∃ s', Reached PimXbar.step (fun s l => Happens s l ∧ l.2.Takes) s s' ∧
      (Ok s' ∧ s'.received = s.received) ∧ s'.pktList = [] := by
    refine exists_reached (P := fun s' => Ok s' ∧ s'.received = s.received)
      (G := fun s' => s'.pktList = []) (fun s' => s'.pktList.length) ?_ ⟨h, rfl⟩
    intro s₁ ⟨hok, hsame⟩ hwaits
    obtain ⟨t, ht⟩ := isSome_iff_exists.mp
      (show s₁.respondEvent.isSome = true by simp [hok.event, hok.scheduled, hwaits])
    have hnext : Happens s₁ (t, .respond [] true) :=
      ⟨hok.now_le t ht, fun t' ht' => (some.inj (ht.symm.trans ht')).le, ht⟩
    obtain ⟨s₂, hstep, hok₂, hsame₂, hlength⟩ := (hok.later hnext).respond ht [] true
    refine ⟨_, s₂, ⟨hnext, rfl⟩, hstep, ⟨hok₂, by simp [hsame₂, hsame]⟩, ?_⟩
    simp only [Bool.toNat_true, length_nil] at hlength
    omega
  obtain ⟨s', hreached, ⟨hok, hsame⟩, hempty⟩ := hempties
  refine ⟨s', hreached, ?_⟩
  rw [← hsame, hok.in_order]
  simp [waiting, hempty]

theorem serves_reached (s : State) (h : Reached step Happens {} s) : Serves s := by
  obtain ⟨hok, hasserts⟩ :=
    h.total (I := Ok) ⟨⟨rfl, rfl⟩, rfl, rfl, nofun⟩ (fun _ _ hs hl => hs.step hl)
  refine ⟨hok.toQueued, by simp [hok.scheduled], fun t rs ht => ?_, hasserts, hok.delivers⟩
  have hflag : s.responseScheduled = true := by
    rw [← hok.event, ht]
    rfl
  obtain ⟨s', hs', hqueued, -⟩ := Queued.recvAll (s := { s with now := t, respondEvent := none }) rs
    ⟨hok.lengths, hok.in_order⟩ hflag
  exact ⟨s', hs', hqueued⟩

/-- A port sends its next request from inside the response to the first one. -/
theorem serves_nested : ∃ s, Reached step Happens {} s ∧ s.pktList = [8] ∧ Serves s := by
  have hrun : Reached step Happens {} _ := .next (.next .start
    (l := (5, .recvTimingReq ⟨2, 7⟩)) ⟨by decide, nofun, trivial⟩ rfl)
    (l := (6, .respond [⟨2, 8⟩] true)) ⟨by decide, by simp [waitPs], rfl⟩ rfl
  exact ⟨_, hrun, rfl, serves_reached _ hrun⟩

end SmcSim.PimXbar
