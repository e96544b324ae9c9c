import SmcSim.QueueAccounts

/-!
# First-in first-out across partition changes

From the state that `main` sets up before it starts the threads, the queue keeps its
promises along every run in which `enq_part` and `deq_part` only move to partitions that
no thread is still engaged in. Without that condition a delayed thread writes its request
into a partition that serves the other role by then.
-/

namespace SmcSim.PimQueue
open Interleavings List

/-! ### The invariant -/

structure Invariant (c : Config) (initial : List ℕ) (s : State) (σ : ℕ → Session) : Prop where
  coherent : Coherent c s σ
  ring : Ring c s σ
  stored : Stored c initial s
  accounted : ∀ t, Accounted s t (s.threads t)
  outside : ∀ t, c.numHostThreads ≤ t → ¬ (s.threads t).Busy

variable {c : Config} {initial : List ℕ} {s s' : State} {σ σ' : ℕ → Session} {t q : ℕ}

theorem Kept.ring (h : Kept s s' σ σ' t) (hring : Ring c s σ) : Ring c s' σ' := by
  refine ⟨fun r => h.part ▸ hring.parts r, fun q hq hnone => ?_⟩
  obtain ⟨hcurrent, hrole⟩ := h.sessions q
  rw [hrole, h.part]
  exact hring.rests q hq (hcurrent ▸ hnone)

theorem Kept.accounted (h : Kept s s' σ σ' t) {u : ℕ} (hu : u ≠ t)
    (hacc : Accounted s u (s.threads u)) : Accounted s' u (s'.threads u) := by
  rw [h.threads u hu]
  exact hacc.frame (fun r => by rw [h.log]) (h.slots u hu _) (h.holding _ u)

section

variable (h : Invariant c initial s σ)
include h

theorem Invariant.thread_step (ht : t < c.numHostThreads)
    (hpos : (s.threads t).position ≠ .changePart) (hstep : threadStep c t s = some s') :
    ∃ σ', Invariant c initial s' σ' := by
  obtain ⟨σ', hcoherent, hkept⟩ := h.coherent.thread_step hstep hpos
  refine ⟨σ', hcoherent, hkept.ring h.ring,
    h.stored.congr hkept.log (contents_congr hkept.part hkept.content), fun u => ?_, fun u hu => ?_⟩
  · by_cases hut : u = t
    · subst hut
      exact (h.accounted u).thread_step h.coherent hstep
    · exact hkept.accounted hut (h.accounted u)
  · rw [hkept.threads u (by omega)]
    exact h.outside u hu

theorem Invariant.changePart (hsize : 0 < c.maxSegmentItems) (ht : t < c.numHostThreads)
    (hpos : (s.threads t).position = .changePart) (happart : PartsApart c s (.thread t))
    (hfree : Undisturbed c s (.thread t)) (hstep : threadStep c t s = some s') :
    ∃ σ', Invariant c initial s' σ' := by
  have hcoherent := h.coherent
  have hok := hcoherent.threads t
  simp only [ThreadOk, hpos] at hok
  have hpart : s.part (s.threads t).role = (s.threads t).currPart :=
    (hcoherent.current _ _).mp (by rw [hok]; rfl)
  have hnext := happart hpos
  have hengaged : ∀ u, ¬ Engaged s u (nextPartition c (s.threads t).currPart) := by
    intro u
    by_cases hu : u < c.numHostThreads
    · exact hfree hpos u hu
    · exact fun he => h.outside u (Nat.le_of_not_lt hu) he.2
  have hrest := h.ring.resting_next hcoherent hpos hengaged hnext
  have hnew := hcoherent.changePart hpos rfl hengaged hrest hsize
  have haccount := (h.accounted t).thread_step hcoherent hstep
  simp only [threadStep, hpos, Option.some.injEq] at hstep
  rw [hstep] at hnew
  have hpart' : s'.part = Function.update s.part (s.threads t).role
      (nextPartition c (s.threads t).currPart) := hstep ▸ rfl
  have hpims : s'.pims = s.pims := hstep ▸ rfl
  have hlog : s'.log = s.log := hstep ▸ rfl
  have hothers : ∀ u, u ≠ t → s'.threads u = s.threads u := fun u hu => hstep ▸ setThread_ne hu
  rw [← hpart] at hok hnext hrest hnew hpart'
  refine ⟨_, hnew, h.ring.changePart hcoherent hnext hpart',
    h.stored.congr hlog (contents_changePart hcoherent h.ring hok hnext hrest hpart' hpims),
    fun u => ?_, fun u hu => ?_⟩
  · by_cases hut : u = t
    · exact hut ▸ haccount
    · rw [hothers u hut]
      exact (h.accounted u).frame (fun r => by rw [hlog]) (by simp [State.slot, hpims])
        (by rw [hpims])
  · rw [hothers u (by omega)]
    exact h.outside u hu

theorem Invariant.pim_step (hstep : pimStep c q s = some s') : ∃ σ', Invariant c initial s' σ' := by
  obtain ⟨p, hp, rfl⟩ := Option.map_eq_some_iff.mp hstep
  refine ⟨_, h.coherent.pim_step hp, ⟨h.ring.parts, fun q' hq' hnone => ?_⟩,
    h.stored.pim_step h.coherent h.ring hp, fun t => (h.accounted t).pim_step h.coherent hp,
    h.outside⟩
  rw [apply_update_of_eq σ Session.current Session.after_current] at hnone
  rw [apply_update_of_eq σ Session.role Session.after_role]
  exact h.ring.rests q' hq' hnone

theorem Invariant.step {a : Party} (hsize : 0 < c.maxSegmentItems)
    (hok : PartsApart c s a ∧ Undisturbed c s a) (hstep : step c s a = some s') :
    ∃ σ', Invariant c initial s' σ' := by
  cases a with
  | thread t =>
    obtain ⟨ht, hstep⟩ := Option.ite_none_right_eq_some.mp hstep
    by_cases hpos : (s.threads t).position = .changePart
    · exact h.changePart hsize ht hpos hok.1 hok.2 hstep
    · exact h.thread_step ht hpos hstep
  | pim q => exact h.pim_step (Option.ite_none_right_eq_some.mp hstep).2

end

theorem Accounted.counted {th : Thread} (h : Accounted s t th) (r : Role) :
    th.counted r <+: movedFor s.log r t ∧
      (movedFor s.log r t).length ≤ (th.counted r).length + 1 := by
  have hsettled : Settled s t th → th.counted r <+: movedFor s.log r t ∧
      (movedFor s.log r t).length ≤ (th.counted r).length + 1 := by
    intro hs
    rw [hs r]
    exact ⟨prefix_rfl, Nat.le_succ _⟩
  have howed : ∀ v, Owed s t th v → th.counted r <+: movedFor s.log r t ∧
      (movedFor s.log r t).length ≤ (th.counted r).length + 1 := by
    intro v ho
    rw [ho r]
    refine ⟨prefix_append _ _, ?_⟩
    split <;> simp
  unfold Accounted at h
  dsimp only at h
  cases hpos : th.position <;> simp only [hpos] at h
  case writeInfo => exact hsettled h.1
  case readInfo | checkPart | recheckPart | lastRead =>
    by_cases hs : Served s t th
    · exact howed _ (h.1 hs)
    · exact hsettled (h.2.1 hs)
  case readParameter => exact howed _ h
  all_goals exact hsettled h

theorem Invariant.fifo (h : Invariant c initial s σ) : Fifo c initial s where
  stored := h.stored
  counted t _ r := (h.accounted t).counted r

/-! ### The state that `main` sets up -/

/-- The variables of `ops_routine` before its loop. -/
def Thread.fresh (currPart : ℕ) : Thread where
  position := .readPart
  role := .enq
  opCount := 0
  infoBits := 0
  parameter := 0
  currPart := currPart
  operations := []

/-- Before each round of threads: the two current partitions have been started, and no
slot holds a request. -/
structure SetUp (c : Config) (s : State) : Prop where
  parts : ∀ r, s.part r < c.numPartitions
  apart : s.part .deq ≠ s.part .enq
  threads : ∀ t, ∃ q, s.threads t = nextOperation c t (.fresh q)
  slots : ∀ q t, (s.slot q t).infoBits = 0 ∨ (s.slot q t).infoBits = 2
  started : ∀ r, (s.pims (s.part r)).command = .runKernel ∧
    (s.pims (s.part r)).status = .sleep ∧ (s.pims (s.part r)).position = .woken ∧
    (s.pims (s.part r)).memory.operation = r.op ∧ Room c r (s.pims (s.part r)).memory
  resting : ∀ q, (∀ r, s.part r ≠ q) → (s.pims q).command = .nop ∧ (s.pims q).status = .sleep ∧
    (s.pims q).position = .waiting ∧ (s.pims q).memory.operation = 0 ∧
    Closed c (if q ∈ partitionsFrom c (s.part .deq) (s.part .enq) then .enq else .deq)
      (s.pims q).memory
  log : s.log = []

namespace SetUp

def session (c : Config) (s : State) (q : ℕ) : Session :=
  if s.part .enq = q then .serving .enq
  else if s.part .deq = q then .serving .deq
  else .resting (if q ∈ partitionsFrom c (s.part .deq) (s.part .enq) then .enq else .deq)

theorem session_part (h : SetUp c s) (r : Role) : session c s (s.part r) = .serving r := by
  cases r with
  | enq => simp [session]
  | deq => simp [session, Ne.symm h.apart]

theorem session_of_ne (hq : ∀ r, s.part r ≠ q) : session c s q =
    .resting (if q ∈ partitionsFrom c (s.part .deq) (s.part .enq) then .enq else .deq) := by
  simp [session, hq]

theorem coherent (h : SetUp c s) : Coherent c s (session c s) where
  current q r := by
    by_cases hq : ∃ r', s.part r' = q
    · obtain ⟨r', rfl⟩ := hq
      rw [h.session_part]
      have hapart := h.apart
      cases r <;> cases r' <;> simp [Session.current, hapart, Ne.symm hapart]
    · rw [session_of_ne (fun r' hr' => hq ⟨r', hr'⟩)]
      refine iff_of_false (fun hnone => ?_) (fun hr => hq ⟨r, hr⟩)
      cases hnone
  pims q := by
    by_cases hq : ∃ r', s.part r' = q
    · obtain ⟨r', rfl⟩ := hq
      obtain ⟨hcommand, hstatus, hposition, hop, hroom⟩ := h.started r'
      rw [h.session_part]
      refine ⟨hop, hcommand, ?_⟩
      simpa only [Runs, hposition] using ⟨hstatus, hroom⟩
    · have hne : ∀ r', s.part r' ≠ q := fun r' hr' => hq ⟨r', hr'⟩
      obtain ⟨hcommand, hstatus, hposition, hop, hclosed⟩ := h.resting q hne
      rw [session_of_ne hne]
      exact ⟨hop, ⟨hcommand, .inr ⟨.inr hposition, hstatus⟩⟩, hclosed⟩
  slotBits q t := by
    rcases h.slots q t with hbits | hbits
    · exact .inl hbits
    · exact .inr (.inl hbits)
  threadBits t := by
    obtain ⟨q, hq⟩ := h.threads t
    rw [hq, nextOperation_infoBits]
    exact .inl rfl
  requests q t hslot := by
    rcases h.slots q t with hbits | hbits
    · cases hbits.symm.trans hslot
    · cases hbits.symm.trans hslot
  threads t := by
    obtain ⟨q, hq⟩ := h.threads t
    rw [hq]
    exact threadOk_nextOperation
  closers q r t hclosing := by
    unfold session at hclosing
    split at hclosing
    · cases hclosing
    · split at hclosing <;> cases hclosing

theorem ring (h : SetUp c s) : Ring c s (session c s) := by
  refine ⟨h.parts, fun q _ hnone => ?_⟩
  have hne : ∀ r, s.part r ≠ q := by
    rintro r rfl
    rw [h.session_part] at hnone
    cases hnone
  rw [session_of_ne hne, Session.role]
  by_cases hq : q ∈ partitionsFrom c (s.part .deq) (s.part .enq)
  · simp [hq]
  · simp [hq]

theorem invariant (h : SetUp c s) : Invariant c (contents c s) s (session c s) where
  coherent := h.coherent
  ring := h.ring
  stored := by simp [Stored, h.log, moved]
  accounted t := by
    obtain ⟨q, hq⟩ := h.threads t
    rw [hq]
    refine accounted_nextOperation (fun r => ?_)
    simp [h.log, movedFor, Thread.counted, Thread.fresh]
  outside t _ := by
    obtain ⟨q, hq⟩ := h.threads t
    rw [hq]
    rcases nextOperation_position c t (.fresh q) with hpos | hpos
    · exact fun hbusy => hbusy.1 hpos
    · exact fun hbusy => hbusy.2 hpos

theorem maxSegmentItems_pos (h : SetUp c s) : 0 < c.maxSegmentItems := by
  have hroom := (h.started .enq).2.2.2.2.2
  omega

end SetUp

/-- The partition `q` after `main` has enqueued the items. -/
def mainPartition (c : Config) (items : List ℕ) (q : ℕ) : Partition where
  operation := if q = items.length / c.maxSegmentItems then Role.enq.op
    else if q = 0 then Role.deq.op else 0
  headIndex := 0
  tailIndex := min c.maxSegmentItems (items.length - q * c.maxSegmentItems)
  currSegment j := items.getD (q * c.maxSegmentItems + j) 0
  requestSlots _ := ⟨0, 0⟩

/-- The first round: the partitions have been filled from the first on, and the last of
them and the first have been started. -/
def mainState (c : Config) (items : List ℕ) : State where
  part
    | .enq => items.length / c.maxSegmentItems
    | .deq => 0
  threads t := nextOperation c t (.fresh 0)
  pims q :=
    if q = items.length / c.maxSegmentItems ∨ q = 0 then
      ⟨.runKernel, .sleep, .woken, mainPartition c items q⟩
    else
      ⟨.nop, .sleep, .waiting, mainPartition c items q⟩
  log := []

variable {items : List ℕ}

theorem mainState_memory : ((mainState c items).pims q).memory = mainPartition c items q := by
  unfold mainState
  dsimp only
  split <;> rfl

theorem partitionsFrom_zero {e : ℕ} (he : e < c.numPartitions) :
    partitionsFrom c 0 e = List.range (e + 1) := by
  unfold partitionsFrom
  rw [distance_eq (by omega) he, if_pos (Nat.zero_le e), Nat.sub_zero]
  conv_rhs => rw [← List.map_id (List.range (e + 1))]
  refine map_congr_left (fun j hj => ?_)
  rw [mem_range] at hj
  rw [Nat.zero_add, Nat.mod_eq_of_lt (by omega), id]

theorem mainPartition_content :
    (mainPartition c items q).content = (items.drop (q * c.maxSegmentItems)).take
      c.maxSegmentItems := by
  refine ext_getElem ?_ (fun j hj _ => ?_)
  · simp [Partition.content, mainPartition]
  · have hlen : j < items.length - q * c.maxSegmentItems := by
      simp [Partition.content, mainPartition] at hj
      omega
    simp [Partition.content, mainPartition, show q * c.maxSegmentItems + j < items.length by omega]

/-- The queue holds the items in the order of their keys. -/
theorem contents_mainState (hsize : 0 < c.maxSegmentItems)
    (hfits : items.length / c.maxSegmentItems < c.numPartitions) :
    contents c (mainState c items) = items := by
  have htake : ∀ k, (List.range k).flatMap
      (fun q => ((mainState c items).pims q).memory.content) =
        items.take (k * c.maxSegmentItems) := by
    intro k
    induction k with
    | zero => simp
    | succ k ih =>
      rw [range_succ, flatMap_append, ih, flatMap_singleton, mainState_memory,
        mainPartition_content, Nat.succ_mul, take_add]
  have hlength : items.length ≤ (items.length / c.maxSegmentItems + 1) * c.maxSegmentItems := by
    have hlt := Nat.lt_div_mul_add (a := items.length) hsize
    rw [Nat.succ_mul]
    omega
  calc contents c (mainState c items)
      = (List.range (items.length / c.maxSegmentItems + 1)).flatMap
          (fun q => ((mainState c items).pims q).memory.content) := by
        rw [← partitionsFrom_zero hfits]
        rfl
    _ = items := by rw [htake, take_of_length_le hlength]

theorem setUp_mainState (hsize : 0 < c.maxSegmentItems) (hfull : c.maxSegmentItems ≤ items.length)
    (hfits : items.length / c.maxSegmentItems < c.numPartitions) :
    SetUp c (mainState c items) := by
  have hpos : 0 < items.length / c.maxSegmentItems := Nat.div_pos hfull hsize
  have hle := Nat.div_mul_le_self items.length c.maxSegmentItems
  have hlt := Nat.lt_div_mul_add (a := items.length) hsize
  refine ⟨fun r => ?_, ?_, fun t => ⟨0, rfl⟩, fun q t => .inl ?_, fun r => ?_, fun q hq => ?_, rfl⟩
  · cases r with
    | enq => exact hfits
    | deq => exact lt_trans hpos hfits
  · exact ne_of_lt hpos
  · rw [State.slot, mainState_memory]
    rfl
  · cases r with
    | enq =>
      simp only [mainState, true_or, if_true, mainPartition, Room, true_and]
      omega
    | deq =>
      simp only [mainState, or_true, if_true, mainPartition, Room, true_and]
      rw [if_neg (ne_of_lt hpos)]
      exact ⟨rfl, by omega, Nat.min_le_left _ _⟩
  · have henq : q ≠ items.length / c.maxSegmentItems := (hq .enq).symm
    have hdeq : q ≠ 0 := (hq .deq).symm
    have hring : partitionsFrom c ((mainState c items).part .deq) ((mainState c items).part .enq) =
        List.range (items.length / c.maxSegmentItems + 1) := partitionsFrom_zero hfits
    simp only [hring, mem_range]
    simp only [mainState, henq, hdeq, or_self, if_false, mainPartition, true_and]
    by_cases hin : q < items.length / c.maxSegmentItems
    · have hmul := Nat.mul_le_mul_right c.maxSegmentItems (Nat.succ_le_of_lt hin)
      rw [Nat.succ_mul] at hmul
      rw [if_pos (by omega)]
      exact ⟨rfl, min_eq_left (by omega)⟩
    · have hmul := Nat.mul_le_mul_right c.maxSegmentItems
        (show items.length / c.maxSegmentItems + 1 ≤ q by omega)
      rw [Nat.succ_mul] at hmul
      rw [if_neg (by omega)]
      exact ⟨rfl, by dsimp only; omega⟩

/-- The queue is first-in first-out along every run of any number of threads and of the PIMs
in which a variable only moves to a partition that no thread is engaged in. -/
theorem fifo_of_undisturbed (c : Config) (s₀ s : State) (hsetUp : SetUp c s₀)
    (h : Reached (step c) (fun s a => PartsApart c s a ∧ Undisturbed c s a) s₀ s) :
    Fifo c (contents c s₀) s := by
  obtain ⟨σ, hσ⟩ := h.invariant (I := fun s => ∃ σ, Invariant c (contents c s₀) s σ)
    ⟨_, hsetUp.invariant⟩
    (fun s a s' ⟨σ, hs⟩ hok hstep => hs.step hsetUp.maxSegmentItems_pos hok hstep)
  exact hσ.fifo

/-! ### A delayed thread -/

def twoThreads : Config where
  debugResident := false
  numPartitions := 4
  numHostThreads := 2
  maxSegmentItems := 1
  randKeys t _ := if t = 0 then 7 else 30
  numOps _ := 3

/-- Thread 1 dequeues the first element and moves `deq_part` on. -/
def dequeueFirst : List (ℕ × Party) := [(2, .thread 1), (12, .pim 0), (10, .thread 1)]

theorem fifo_of_dequeueFirst : ∃ s, Reached (step twoThreads)
      (fun s a => PartsApart twoThreads s a ∧ Undisturbed twoThreads s a)
      (mainState twoThreads [10, 20]) s ∧
    (moved s.log .deq = [10] ∧ s.part .deq = 1) ∧ Fifo twoThreads [10, 20] s := by
  have hrun : (runSchedule (guarded (step twoThreads)
      (fun s a => PartsApart twoThreads s a ∧ Undisturbed twoThreads s a))
      (mainState twoThreads [10, 20]) (turns dequeueFirst)).map
        (fun s => (moved s.log .deq, s.part .deq)) = some ([10], 1) := by
    decide +kernel
  obtain ⟨s, hreached, hmoved⟩ := exists_of_runSchedule _ hrun
  have hfifo := fifo_of_undisturbed twoThreads _ s
    (setUp_mainState (by decide) (by decide) (by decide)) hreached
  rw [contents_mainState (by decide) (by decide)] at hfifo
  exact ⟨s, hreached, Prod.mk.inj hmoved, hfifo⟩

/-- Thread 0 has read `enq_part` when thread 1 dequeues, fills that partition, dequeues again
and so starts it for dequeues. Then thread 0 writes its request there. -/
def delayedEnqueue : List (ℕ × Party) :=
  [(1, .thread 0)] ++ dequeueFirst ++
    [(10, .pim 0), (5, .thread 1), (11, .pim 2), (9, .thread 1), (9, .pim 2), (2, .thread 1),
      (3, .pim 2), (2, .thread 1), (12, .pim 1), (10, .thread 1), (2, .thread 0), (11, .pim 2),
      (3, .thread 0)]

/-- Thread 0 counts an enqueue of 7 that took the element 30 out of the queue. -/
theorem delayedEnqueue_not_fifo : ∃ s, Reached (step twoThreads)
      (fun s a => PartsApart twoThreads s a ∧ DequeueReady twoThreads s a)
      (mainState twoThreads [10, 20]) s ∧
    (s.threads 0).counted .enq = [7] ∧ movedFor s.log .enq 0 = [] ∧
    movedFor s.log .deq 0 = [30] ∧ ¬ Fifo twoThreads [10, 20] s := by
  have hrun : (runSchedule (guarded (step twoThreads)
      (fun s a => PartsApart twoThreads s a ∧ DequeueReady twoThreads s a))
      (mainState twoThreads [10, 20]) (turns delayedEnqueue)).map
        (fun s => ((s.threads 0).counted .enq, movedFor s.log .enq 0, movedFor s.log .deq 0)) =
      some ([7], [], [30]) := by
    decide +kernel
  obtain ⟨s, hreached, hvalues⟩ := exists_of_runSchedule _ hrun
  simp only [Prod.mk.injEq] at hvalues
  obtain ⟨hcounted, henq, hdeq⟩ := hvalues
  refine ⟨s, hreached, hcounted, henq, hdeq, fun hfifo => ?_⟩
  have hle := (hfifo.counted 0 (by decide) .enq).1
  rw [hcounted, henq] at hle
  exact absurd hle (by decide)

end SmcSim.PimQueue
