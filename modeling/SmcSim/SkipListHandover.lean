import SmcSim.QueueModes
import SmcSim.SkipListStages

/-!
# Modes are handed over

No mode that `main` requests of the skip list is lost, if it adds at least one key to each
partition, and together with the queue this is what both programs rely on. Both lose requests
otherwise.
-/

namespace SmcSim.SkipListModes
open CommandHandshake Interleavings RegisterHandover SkipListKernel Option

/-! ### Open requests -/

/-- The modes that the host has requested and may not have been acted on. -/
def Written (h : Host) (j v : ℕ) : Prop :=
  match h.position with
  | .checkSleep false | .giveCommand false | .wakeUp false | .pollMaxNodes => j = h.i ∧ v = 0
  | .checkDone => j = h.i ∧ v = 3
  | .checkSleep true | .giveCommand true | .wakeUp true => j ≤ h.i ∧ v = 1
  | .writeOps | .ready => j < h.i ∧ v = 1
  | _ => False

variable {μ : Type} {c : Config μ} {s s' : State μ} {p p' : Partition μ} {j v : ℕ} {a : Party}

/-- The register holds the mode, and the kernel will come to the test of it. -/
structure Open (v : ℕ) (p : Partition μ) : Prop where
  operation : p.memory.operation = v
  close : v = 3 → p.status = .busy
  ahead : match p.position with
    | .running k => Loop k ∧ (v = 0 → k = .checkInit)
    | .initStatus | .initCommand | .assertingBusy | .assertingCommand | .settingDone => False
    | _ => v ≠ 3

theorem Open.access {b : Access ℕ} (h : Open v p) (haccess : kernelAccess p = some b) :
    b = .act := by
  have hahead := h.ahead
  unfold kernelAccess at haccess
  split at haccess
  · next hpos =>
    rw [hpos] at hahead
    exact hahead.1.elim
  · split at haccess
    · exact (some.inj haccess).symm
    · cases haccess
  · exact (some.inj haccess).symm
  · cases haccess

/-- A kernel that does not act on the mode keeps it. -/
theorem Open.pim_step (h : Open v p) (hnone : kernelAccess p = none)
    (hstep : pimStep c p = some p') : Open v p' := by
  obtain ⟨command, status, position, d⟩ := p
  obtain ⟨hop, hclose, hahead⟩ := h
  cases position with
  | waiting | exited => cases hstep
  | woken | assertingSleep | awaitingNop =>
    simp only [pimStep, Pim.step] at hstep
    split at hstep
    all_goals
      cases hstep
      exact ⟨hop, hclose, hahead⟩
  | goingToSleep =>
    cases hstep
    exact ⟨hop, hclose, hahead⟩
  | settingBusy | settingSleep =>
    cases hstep
    exact ⟨hop, fun hv => absurd hv hahead, hahead⟩
  | executing =>
    by_cases hcommand : command = .runKernel
    · simp only [pimStep, Pim.step, executeKernel, hcommand, if_true, some.injEq] at hstep
      subst hstep
      exact ⟨hop, hclose, trivial, fun _ => rfl⟩
    · simp only [pimStep, Pim.step, executeKernel, hcommand, if_false, some.injEq] at hstep
      subst hstep
      exact ⟨hop, hclose, hahead⟩
  | running k =>
    obtain ⟨hloop, hinit⟩ := hahead
    change d.operation = v at hop
    have hne : v ≠ 0 := by
      intro hv
      obtain rfl := hinit hv
      simp [kernelAccess, hop, hv] at hnone
    rw [← hop] at hne
    obtain ⟨hop', ⟨k', hk', hloop'⟩ | ⟨hleft, -⟩⟩ := kernelStep_loop (c := c) hloop hne
    · obtain rfl := step_running rfl hk' hstep
      exact ⟨hop'.trans hop, hclose, hloop', fun hv => absurd (hop.trans hv) hne⟩
    · cases k with
      | checkClose => simp [kernelAccess] at hnone
      | check i =>
        simp only [kernelStep] at hleft
        split at hleft
        · split at hleft <;> cases hleft
        · cases hleft
      | checkInit =>
        simp only [kernelStep] at hleft
        split at hleft <;> cases hleft
      | _ => cases hleft
  | _ => exact hahead.elim

theorem Open.setPim {h : Host} (hj : Open v (s.pims j)) (hp : j = s.host.i → Open v p) :
    Open v ((s.setPim h p).pims j) := by
  by_cases hi : j = s.host.i
  · rw [hi, setPim_same]
    exact hp hi
  · rw [setPim_ne hi]
    exact hj

theorem Open.interrupt (h : Open v p) : Open v p.interrupt := by
  unfold Pim.interrupt
  split
  · next hpos =>
    have hahead := h.ahead
    rw [hpos] at hahead
    exact ⟨h.operation, h.close, hahead⟩
  · exact h

structure Requested (s : State μ) (j v : ℕ) : Prop where
  written : Written s.host j v
  open_ : Open v (s.pims j)

theorem Requested.host_step (h : Requested s j v) (hs : Invariant s)
    (hstep : hostStep c s = some s') : Requested s' j v := by
  obtain ⟨hwritten, hopen⟩ := h
  have hp := hs.current
  have hsame := hwritten
  cases hpos : s.host.position <;>
    simp only [Written, hostStep, hpos, some.injEq, reduceCtorEq] at hwritten hstep hp
  case checkSleep again =>
    split at hstep
    · cases hstep
      refine ⟨?_, hopen⟩
      cases again <;> exact hwritten
    · exact some.inj hstep ▸ ⟨hsame, hopen⟩
  case giveCommand again =>
    subst hstep
    refine ⟨?_, hopen.setPim (fun hj => ?_)⟩
    · cases again <;> exact hwritten
    · subst hj
      exact ⟨hopen.operation, hopen.close, hopen.ahead⟩
  case wakeUp again =>
    subst hstep
    refine ⟨?_, hopen.setPim (fun hj => ?_)⟩
    · cases again with
      | false => exact hwritten
      | true =>
        simp only [if_true, State.setPim, nextOps]
        split <;> exact ⟨Nat.lt_succ_of_le hwritten.1, hwritten.2⟩
    · subst hj
      exact hopen.interrupt
  case pollMaxNodes =>
    obtain ⟨rfl, rfl⟩ := hwritten
    split at hstep
    · exact some.inj hstep ▸ ⟨hsame, hopen⟩
    · next hmax =>
      -- the kernel has acted on the mode before the host sees the list initialised
      exfalso
      have hahead := hopen.ahead
      obtain ⟨-, hstarts | ⟨-, -, hpos' | hpos'⟩ | ⟨hone, -⟩⟩ := hp
      · exact hmax hstarts.2.1
      · rw [hpos'] at hahead
        exact hahead.1
      · rw [hpos'] at hahead
        exact hahead.1
      · cases hone.symm.trans hopen.operation
  case checkDone =>
    obtain ⟨rfl, rfl⟩ := hwritten
    split at hstep
    · next hdone => cases hdone.symm.trans (hopen.close rfl)
    · exact some.inj hstep ▸ ⟨hsame, hopen⟩
  case writeOps =>
    subst hstep
    exact ⟨⟨le_of_lt hwritten.1, hwritten.2⟩,
      hopen.setPim (fun hj => absurd hj (ne_of_lt hwritten.1))⟩

theorem Requested.step (h : Requested s j v) (hs : Invariant s) (hstep : step c s a = some s')
    (haccess : ∀ b, modeAccess s a ≠ some (j, b)) : Requested s' j v := by
  cases a with
  | host => exact h.host_step hs hstep
  | pim j' =>
    obtain ⟨p, hp, rfl⟩ := map_eq_some_iff.mp (ite_none_right_eq_some.mp hstep).2
    refine ⟨h.written, ?_⟩
    by_cases hj : j = j'
    · subst hj
      have hnone : kernelAccess (s.pims j) = none := by
        cases hb : kernelAccess (s.pims j) with
        | none => rfl
        | some b => exact absurd (by simp only [modeAccess, hb, map_some]) (haccess b)
      simpa using h.open_.pim_step hnone hp
    · simpa [hj] using h.open_

/-- The host requests a mode of a partition that rests, or of a kernel in its loop. -/
theorem requested_of_request (hs : Invariant s) (hstep : step c s a = some s')
    (haccess : modeAccess s a = some (j, .request v)) : Requested s' j v := by
  have hp := hs.current
  cases a with
  | pim j' =>
    obtain ⟨b, hb, hpair⟩ := map_eq_some_iff.mp haccess
    obtain ⟨-, rfl⟩ := Prod.mk.inj hpair
    unfold kernelAccess at hb
    split at hb
    · cases hb
    · split at hb <;> cases hb
    · cases hb
    · cases hb
  | host =>
    cases hpos : s.host.position <;>
      simp only [modeAccess, SkipListModes.step, hostStep, hpos, some.injEq, Prod.mk.injEq,
        Access.request.injEq, reduceCtorEq] at haccess hstep hp
    all_goals
      obtain ⟨rfl, rfl⟩ := haccess
      subst hstep
    case writeInit =>
      refine ⟨⟨rfl, rfl⟩, setPim_same ▸ ⟨rfl, (fun h => by cases h), ?_⟩⟩
      rw [show (s.pims s.host.i).position = .waiting from hp.1.2.2]
      exact Nat.zero_ne_add_one 2
    case close =>
      obtain ⟨-, -, hbusy, k, hk, hloop⟩ := hp
      refine ⟨⟨rfl, rfl⟩, setPim_same ▸ ⟨rfl, fun _ => hbusy, ?_⟩⟩
      rw [hk]
      exact ⟨hloop, (fun h => by cases h)⟩
    case writeOps =>
      refine ⟨⟨le_rfl, rfl⟩, setPim_same ▸ ⟨rfl, (fun h => by cases h), ?_⟩⟩
      rcases hp.2 with ⟨hrest | hrest, -⟩ | ⟨hrest | hrest, -⟩ <;>
      · rw [hrest]
        exact Nat.succ_ne_succ_iff.mpr (Nat.zero_ne_add_one 1)

theorem Requested.access_eq_act {b : Access ℕ} (h : Requested s j v)
    (haccess : modeAccess s a = some (j, b)) : b = .act := by
  cases a with
  | pim j' =>
    obtain ⟨b', hb, hpair⟩ := map_eq_some_iff.mp haccess
    obtain ⟨rfl, rfl⟩ := Prod.mk.inj hpair
    exact h.open_.access hb
  | host =>
    have hwritten := h.written
    cases hpos : s.host.position <;>
      simp only [modeAccess, Written, hpos, reduceCtorEq] at haccess hwritten
    obtain ⟨rfl, -⟩ := Prod.mk.inj (some.inj haccess)
    exact absurd hwritten.1 (lt_irrefl _)

/-! ### Waits -/

/-- The steps from a position of the kernel to its end, once it is to be closed. -/
def closeRank (n : ℕ) : Resident Position → ℕ
  | .running (.check i) => 6 * (n - i) + 6
  | .running (.execute i) => 6 * (n - (i + 1)) + 11
  | .running (.readRetval i _) => 6 * (n - (i + 1)) + 10
  | .running (.writeRetval i _) => 6 * (n - (i + 1)) + 9
  | .running (.readClear i) => 6 * (n - (i + 1)) + 8
  | .running (.writeClear i _) => 6 * (n - (i + 1)) + 7
  | .running .checkInit => 5
  | .running .checkClose => 4
  | .assertingBusy => 3
  | .assertingCommand => 2
  | .settingDone => 1
  | _ => 0

theorem closer_to_done (hcommand : p.command = .runKernel) (h : Operates p 3 ∨ Ends p)
    (hdone : p.status ≠ .done) : ∃ p', pimStep c p = some p' ∧
      closeRank c.numHostThreads p'.position < closeRank c.numHostThreads p.position := by
  obtain ⟨command, status, position, d⟩ := p
  obtain rfl : command = .runKernel := hcommand
  rcases h with ⟨hop, -, k, rfl, hloop⟩ | ⟨-, hpos⟩
  · change d.operation = 3 at hop
    cases k with
    | checkInit | checkClose =>
      simp [pimStep, Pim.step, executeKernel, kernelStep, hop, closeRank]
    | check i =>
      by_cases hi : i < c.numHostThreads
      · by_cases hvalid : checkValidRequest (d.requestSlots i).infoBits = 0
        · simp only [pimStep, Pim.step, executeKernel, kernelStep, hi, hvalid, if_true,
            some.injEq, exists_eq_left', closeRank]
          omega
        · simp only [pimStep, Pim.step, executeKernel, kernelStep, hi, hvalid, if_true, if_false,
            some.injEq, exists_eq_left', closeRank]
          omega
      · simp [pimStep, Pim.step, executeKernel, kernelStep, hi, closeRank]
    | execute i | readRetval i retval | writeRetval i infobits | readClear i
    | writeClear i infobits =>
      simp [pimStep, Pim.step, executeKernel, kernelStep, closeRank]
    | _ => exact hloop.elim
  · cases position with
    | assertingBusy =>
      obtain rfl : status = .busy := hpos
      simp [pimStep, Pim.step, closeRank]
    | assertingCommand | settingDone => simp [pimStep, Pim.step, closeRank]
    | awaitingNop => exact absurd hpos hdone
    | _ => exact hpos.elim

/-- A kernel that is to be closed ends. -/
theorem alone_done (hp : Current .checkDone p) : ∃ p', Alone c p p' ∧ p'.status = .done := by
  refine exists_reached_goal (P := Current .checkDone)
    (fun p => closeRank c.numHostThreads p.position) (fun p hp hnot => ?_) hp
  obtain ⟨p', hstep, hlt⟩ := closer_to_done hp.1 hp.2 hnot
  exact ⟨(), p', trivial, hstep, hp.step hstep, hlt⟩

/-- The steps behind slot `i` up to the answer of slot 0. -/
def restRank (n i : ℕ) : ℕ := if i = 0 then 0 else 6 * (n - (i + 1)) + 9

def answerRank (n : ℕ) : Resident Position → ℕ
  | .running .writeTimestamp => 10
  | .running .writeOps => 9
  | .running .checkInit => 8
  | .running .checkClose => 7
  | .running (.check i) => if i = 0 then 6 else 6 * (n - i) + 9
  | .running (.execute i) => restRank n i + 5
  | .running (.readRetval i _) => restRank n i + 4
  | .running (.writeRetval i _) => restRank n i + 3
  | .running (.readClear i) => restRank n i + 2
  | .running (.writeClear i _) => restRank n i + 1
  | _ => 0

theorem closer_to_answer (hcommand : p.command = .runKernel)
    (h : Initialised p ∨ Operates p 1)
    (hvalid : checkValidRequest (p.memory.requestSlots 0).infoBits ≠ 0) :
    ∃ p', pimStep c p = some p' ∧
      (checkValidRequest (p'.memory.requestSlots 0).infoBits = 0 ∨
        answerRank c.numHostThreads p'.position < answerRank c.numHostThreads p.position) := by
  obtain ⟨command, status, position, d⟩ := p
  obtain rfl : command = .runKernel := hcommand
  have hpos := c.numHostThreads_pos
  rcases h with ⟨-, -, rfl | rfl⟩ | ⟨hop, -, k, rfl, hloop⟩
  · exact ⟨_, rfl, .inr (by simp [answerRank])⟩
  · exact ⟨_, rfl, .inr (by simp [answerRank])⟩
  · change d.operation = 1 at hop
    cases k with
    | checkInit | checkClose =>
      simp [pimStep, Pim.step, executeKernel, kernelStep, hop, answerRank]
    | check i =>
      by_cases hi : i < c.numHostThreads
      · by_cases hbits : checkValidRequest (d.requestSlots i).infoBits = 0
        · have hne : i ≠ 0 := by
            rintro rfl
            exact hvalid hbits
          have hk : (kernelStep c (.check i) d).1 = some (.check (i + 1)) := by
            simp [kernelStep, hi, hbits]
          refine ⟨_, pimStep_running rfl hk, .inr ?_⟩
          simp only [answerRank, hne, Nat.succ_ne_zero, if_false]
          omega
        · have hk : (kernelStep c (.check i) d).1 = some (.execute i) := by
            simp only [kernelStep, hi, hbits, if_true, if_false]
          refine ⟨_, pimStep_running rfl hk, .inr ?_⟩
          simp only [answerRank, restRank]
          split <;> omega
      · have hk : (kernelStep c (.check i) d).1 = some .checkInit := by
          simp [kernelStep, hi]
        refine ⟨_, pimStep_running rfl hk, .inr ?_⟩
        have hne : i ≠ 0 := by omega
        simp only [answerRank, hne, if_false]
        omega
    | execute i | readRetval i retval | writeRetval i infobits | readClear i =>
      exact ⟨_, rfl, .inr (by simp [answerRank])⟩
    | writeClear i infobits =>
      by_cases hi : i = 0
      · subst hi
        refine ⟨_, rfl, .inl ?_⟩
        have hcleared : checkValidRequest infobits = 0 := hloop
        simpa [executeKernel, kernelStep, Device.setInfoBits] using hcleared
      · exact ⟨_, rfl, .inr (by simp [answerRank, restRank, hi])⟩
    | _ => exact hloop.elim

theorem alone_answered (hcommand : p.command = .runKernel) (h : Initialised p ∨ Operates p 1) :
    ∃ p', Alone c p p' ∧ checkValidRequest (p'.memory.requestSlots 0).infoBits = 0 := by
  by_cases hvalid : checkValidRequest (p.memory.requestSlots 0).infoBits = 0
  · exact ⟨p, .start, hvalid⟩
  · refine exists_reached_of_closer
      (P := fun p => Current .writeInfo p ∧
        checkValidRequest (p.memory.requestSlots 0).infoBits ≠ 0)
      (fun p => answerRank c.numHostThreads p.position) (fun p ⟨hp, hvalid⟩ => ?_)
      ⟨⟨hcommand, h⟩, hvalid⟩
    obtain ⟨p', hstep, hnext⟩ := closer_to_answer (c := c) hp.1 hp.2 hvalid
    refine ⟨(), p', trivial, hstep, ?_⟩
    by_cases hvalid' : checkValidRequest (p'.memory.requestSlots 0).infoBits = 0
    · exact .inl hvalid'
    · exact .inr ⟨⟨hp.step hstep, hvalid'⟩, hnext.resolve_left hvalid'⟩

theorem modesKept (hsetUp : SetUp s) (hsize : 0 < c.initialListSize / c.numPartitions)
    {x : Tracked (State μ) ℕ ℕ}
    (h : Reached (trackedStep (step c) modeAccess) (fun _ _ => True) (untracked s) x) :
    ModesKept c x := by
  obtain ⟨hinvariant, hrequested⟩ := reached_requested (J := Requested) (I := Invariant)
    (fun _ _ => True) h hsetUp.invariant (fun j v hv => by cases hv)
    (fun s a s' hs _ hstep => hs.step hsize hstep)
    (fun s a s' j v hs hstep haccess => requested_of_request hs hstep haccess)
    (fun s a s' j v hs hrequested hstep haccess => hrequested.step hs hstep haccess)
  have hcurrent := hinvariant.current
  refine ⟨fun a => ?_, fun j v hv => (hrequested j v hv).open_.operation, fun hpos => ?_,
    fun hpos => ?_⟩
  · exact not_loses (J := Requested) hrequested
      (fun j v b hrequested _ haccess => hrequested.access_eq_act haccess)
  · rw [hpos] at hcurrent
    exact alone_done hcurrent
  · rw [hpos] at hcurrent
    exact alone_answered hcurrent.1 (hcurrent.2.imp_left And.left)

/-! ### Both programs -/

/-- In every run of the queue in which `enq_part` and `deq_part` only move to partitions that no
thread is engaged in, and of the skip list if `main` adds at least one key to each partition, no
mode that the host requests is lost. -/
theorem modes_handed_over {μ : Type} (c : PimQueue.Config) (s : PimQueue.State)
    (x : Tracked PimQueue.State ℕ PimQueue.Role) (c' : Config μ) (s' : State μ)
    (x' : Tracked (State μ) ℕ ℕ) (hqueue : PimQueue.SetUp c s)
    (h : Reached (trackedStep (PimQueue.step c) PimQueue.modeAccess) (fun x a =>
      PimQueue.PartsApart c x.state a ∧ PimQueue.Undisturbed c x.state a) (PimQueue.afterMain s) x)
    (hlist : SetUp s') (hsize : 0 < c'.initialListSize / c'.numPartitions)
    (h' : Reached (trackedStep (step c') modeAccess) (fun _ _ => True) (untracked s') x') :
    PimQueue.ModesKept c x ∧ ModesKept c' x' :=
  ⟨PimQueue.modesKept hqueue h, modesKept hlist hsize h'⟩

/-- Two partitions for the given number of keys, with the list left out. -/
def twoPartitions (initialListSize : ℕ) : Config Unit where
  debugResident := false
  numPartitions := 2
  numHostThreads := 2
  numHostThreads_pos := by decide
  initialListSize := initialListSize
  parameter _ _ := 1
  randomLevel _ _ := 1
  listInit := id
  execute _ _ := (1, ())

def idlePims : State Unit where
  host := ⟨.writeMaxNodes, 0, 0, 0, 0⟩
  pims _ := ⟨.nop, .sleep, .waiting, ⟨0, 0, 0, fun _ => ⟨0, 0, 0⟩, ()⟩⟩

theorem setUp_idlePims : SetUp idlePims := ⟨rfl, rfl, rfl, fun _ => ⟨rfl, rfl, rfl⟩⟩

def threePartitions : PimQueue.Config := { PimQueue.twoThreads with numPartitions := 3 }

theorem modes_handed_over_once :
    ∃ x, Reached (trackedStep (PimQueue.step threePartitions) PimQueue.modeAccess) (fun x a =>
        PimQueue.PartsApart threePartitions x.state a ∧
        PimQueue.Undisturbed threePartitions x.state a)
        (PimQueue.afterMain (PimQueue.mainState threePartitions [10, 20])) x ∧
      x.requested 1 = some .deq ∧
      ∃ x', Reached (trackedStep (step (twoPartitions 2)) modeAccess) (fun _ _ => True)
          (untracked idlePims) x' ∧ x'.requested 0 = some 3 ∧
        PimQueue.ModesKept threePartitions x ∧ ModesKept (twoPartitions 2) x' := by
  have hqueue : (runSchedule (guarded
      (trackedStep (PimQueue.step threePartitions) PimQueue.modeAccess) (fun x a =>
        PimQueue.PartsApart threePartitions x.state a ∧
        PimQueue.Undisturbed threePartitions x.state a))
      (PimQueue.afterMain (PimQueue.mainState threePartitions [10, 20]))
      (turns [(2, .thread 1), (12, .pim 0), (10, .thread 1)])).map (fun x => x.requested 1) =
      some (some .deq) := by
    decide +kernel
  have hlist : (runSchedule (guarded (trackedStep (step (twoPartitions 2)) modeAccess)
      (fun _ _ => True)) (untracked idlePims)
      (turns [(5, .host), (20, .pim 0), (5, .host), (20, .pim 0), (2, .host)])).map
        (fun x => x.requested 0) = some (some 3) := by
    decide +kernel
  obtain ⟨x, hreached, hdeq⟩ := exists_of_runSchedule _ hqueue
  obtain ⟨x', hreached', hclose⟩ := exists_of_runSchedule _ hlist
  have hkept := modes_handed_over threePartitions _ x (twoPartitions 2) _ x'
    (PimQueue.setUp_mainState (by decide) (by decide) (by decide)) hreached setUp_idlePims
    (by decide) hreached'
  exact ⟨x, hreached, hdeq, x', hreached', hclose, hkept⟩

theorem waits_forever {y z : Tracked (State μ) ℕ ℕ}
    (hpos : y.state.host.position = .checkDone)
    (hops : Operates (y.state.pims y.state.host.i) 1)
    (h : Reached (trackedStep (step c) modeAccess) (fun _ _ => True) y z) :
    z.state.host.position = .checkDone := by
  have hkept := h.invariant (I := fun z => z.state.host.position = .checkDone ∧
    Operates (z.state.pims z.state.host.i) 1) ⟨hpos, hops⟩ ?_
  · exact hkept.1
  · intro z a z' ⟨hpos, hops⟩ _ hstep
    obtain ⟨s', hs', rfl⟩ := map_eq_some_iff.mp hstep
    cases a with
    | host =>
      have hbusy : (z.state.pims z.state.host.i).status ≠ .done := by
        rw [hops.2.1]
        decide
      simp only [step, hostStep, hpos, hbusy, if_false, some.injEq] at hs'
      subst hs'
      exact ⟨hpos, hops⟩
    | pim j =>
      obtain ⟨p, hp, rfl⟩ := map_eq_some_iff.mp (ite_none_right_eq_some.mp hs').2
      refine ⟨hpos, ?_⟩
      by_cases hj : z.state.host.i = j
      · subst hj
        simpa using (hops.step_ops hp).2
      · simpa [hj] using hops

/-- In the queue thread 1 has emptied partition 0, and thread 0 has filled partition 2 and requests
partition 0 for its enqueues, when the kernel of partition 0 turns it off; thread 1 then waits for
its enqueue there. In the skip list with fewer keys than partitions the host closes a partition as
soon as it sees the list initialised, and waits forever. -/
theorem modes_lost :
    (∃ x y, Reached (trackedStep (PimQueue.step threePartitions) PimQueue.modeAccess)
          (fun x a => PimQueue.PartsApart threePartitions x.state a)
          (PimQueue.afterMain (PimQueue.mainState threePartitions [10, 20])) x ∧
        Loses (PimQueue.step threePartitions) PimQueue.modeAccess x (.pim 0) ∧
        Reached (trackedStep (PimQueue.step threePartitions) PimQueue.modeAccess)
          (fun x a => PimQueue.PartsApart threePartitions x.state a) x y ∧
        y.state.part .enq = 0 ∧ (y.state.threads 1).position = .checkPart ∧
        (y.state.threads 1).currPart = 0 ∧ (y.state.slot 0 1).infoBits = 3 ∧
        (y.state.pims 0).status = .done ∧ (y.state.pims 0).memory.operation = 0) ∧
    ∃ x y, Reached (trackedStep (step (twoPartitions 1)) modeAccess) (fun _ _ => True)
          (untracked idlePims) x ∧
        Loses (step (twoPartitions 1)) modeAccess x (.pim 0) ∧
        trackedStep (step (twoPartitions 1)) modeAccess x (.pim 0) = some y ∧
        ∀ z, Reached (trackedStep (step (twoPartitions 1)) modeAccess) (fun _ _ => True) y z →
          z.state.host.position = .checkDone := by
  have hqueue : (runSchedule (guarded
      (trackedStep (PimQueue.step threePartitions) PimQueue.modeAccess)
      (fun x a => PimQueue.PartsApart threePartitions x.state a))
      (PimQueue.afterMain (PimQueue.mainState threePartitions [10, 20]))
      (turns [(2, .thread 1), (12, .pim 0), (10, .thread 1), (3, .thread 0), (10, .pim 2),
        (5, .thread 0)])).bind (fun x => (runSchedule (guarded
        (trackedStep (PimQueue.step threePartitions) PimQueue.modeAccess)
        (fun x a => PimQueue.PartsApart threePartitions x.state a)) x
        (turns [(10, .pim 0), (2, .thread 1), (3, .pim 0), (4, .thread 0), (12, .pim 0),
          (4, .thread 1)])).map (fun y => decide
            (((PimQueue.step threePartitions x.state (.pim 0)).isSome ∧
              PimQueue.modeAccess x.state (.pim 0) = some (0, .overwrite) ∧
              x.requested 0 = some .enq) ∧
            y.state.part .enq = 0 ∧ (y.state.threads 1).position = .checkPart ∧
            (y.state.threads 1).currPart = 0 ∧ (y.state.slot 0 1).infoBits = 3 ∧
            (y.state.pims 0).status = .done ∧ (y.state.pims 0).memory.operation = 0))) =
      some true := by
    decide +kernel
  have hlist : (runSchedule (guarded (trackedStep (step (twoPartitions 1)) modeAccess)
      (fun _ _ => True)) (untracked idlePims)
      (turns [(5, .host), (7, .pim 0), (2, .host), (1, .pim 0)])).bind (fun x =>
        (trackedStep (step (twoPartitions 1)) modeAccess x (.pim 0)).map (fun y => decide
          (((step (twoPartitions 1) x.state (.pim 0)).isSome ∧
            modeAccess x.state (.pim 0) = some (0, .overwrite) ∧ x.requested 0 = some 3) ∧
            y.state.host.position = .checkDone ∧ y.state.host.i = 0 ∧
            (y.state.pims 0).memory.operation = 1 ∧ (y.state.pims 0).status = .busy ∧
            (y.state.pims 0).position = .running .checkInit))) = some true := by
    decide +kernel
  constructor
  · obtain ⟨x, hx, hrest⟩ := bind_eq_some_iff.mp hqueue
    obtain ⟨y, hy, hvalues⟩ := map_eq_some_iff.mp hrest
    obtain ⟨⟨hsome, haccess, hrequested⟩, hwaits⟩ := of_decide_eq_true hvalues
    exact ⟨x, y, reached_of_runSchedule _ hx, loses_of_overwrite hsome haccess hrequested,
      reached_of_runSchedule _ hy, hwaits⟩
  · obtain ⟨x, hx, hrest⟩ := bind_eq_some_iff.mp hlist
    obtain ⟨y, hy, hvalues⟩ := map_eq_some_iff.mp hrest
    obtain ⟨⟨hsome, haccess, hrequested⟩, hpos, hi, hop, hbusy, hkernel⟩ :=
      of_decide_eq_true hvalues
    refine ⟨x, y, reached_of_runSchedule _ hx, loses_of_overwrite hsome haccess hrequested, hy,
      fun z hz => waits_forever hpos ?_ hz⟩
    rw [hi]
    exact ⟨hop, hbusy, .checkInit, hkernel, trivial⟩

end SmcSim.SkipListModes
