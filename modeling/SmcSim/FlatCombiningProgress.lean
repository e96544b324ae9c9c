import SmcSim.FlatCombiningCalls

/-!
# The publication list and the calls along every run

A thread that runs alone, while nobody else holds the lock, returns. So every call can be
brought to its end: first the combiner finishes its pass, then the caller makes its own.
-/

namespace SmcSim.FlatCombining
open Linearizability ListSegments Interleavings Function List

variable {τ : Type} [DecidableEq τ]

structure Invariant (s : State τ) : Prop where
  lock : Locked s
  list : Published s
  calls : Calls s
  queue : Sequential s

theorem invariant_initial (timestamp : ℤ) : Invariant (initial timestamp : State τ) :=
  ⟨locked_initial timestamp, published_initial timestamp, calls_initial timestamp, rfl, rfl⟩

variable {s : State τ}

theorem Invariant.step {s' : State τ} {l : Label τ} (h : Invariant s) (hstep : step s l = some s') :
    Invariant s' :=
  ⟨h.lock.step hstep, h.list.step h.lock hstep, h.calls.step h.lock h.list hstep,
    h.queue.step hstep⟩

theorem invariant_of_reached {timestamp : ℤ}
    (h : Reached step (fun _ _ => True) (initial timestamp) s) : Invariant s :=
  h.invariant (invariant_initial timestamp) (fun _ _ _ hinv _ hstep => hinv.step hstep)

/-! ### A thread that runs alone -/

section Rank

/-- The number of slots behind `x`. -/
def slotsBehind (published : List τ) (x : τ) : ℕ := published.length - published.idxOf x - 1

variable (published : List τ) (tailSlot : Option τ)

def EnqPc.rank : EnqPc τ → ℕ
  | .swapTail currTailSlot => if tailSlot = currTailSlot then 1 else 4
  | .setNext currTailSlot => if tailSlot = currTailSlot then 2 else 5
  | .readTail => 3
  | .setTimestamp _ => 6
  | .readTimestamp => 7
  | .setLinked => 8

def CombinePc.rank : CombinePc τ → ℕ
  | .readTail => 16 * published.length + 4
  | .readValid _ curr => 16 * slotsBehind published curr + 15
  | .readOperation curr | .readNow _ curr => 16 * slotsBehind published curr + 14
  | .readParameter curr _ | .readAge _ curr _ => 16 * slotsBehind published curr + 13
  | .clearRetVal curr _ _ | .readNext _ curr => 16 * slotsBehind published curr + 12
  | .execute curr _ _ | .unlink _ curr _ => 16 * slotsBehind published curr + 11
  | .setRetVal curr _ => 16 * slotsBehind published curr + 10
  | .clearLinked prev _ => 16 * slotsBehind published prev + 10
  | .clearValid curr | .readNextOfPrev curr => 16 * slotsBehind published curr + 9
  | .readTimestamp curr => 16 * slotsBehind published curr + 8
  | .setTimestamp curr _ => 16 * slotsBehind published curr + 7
  | .readCount curr => 16 * slotsBehind published curr + 6
  | .setCount curr _ => 16 * slotsBehind published curr + 5
  | .advance curr => 16 * slotsBehind published curr + 4

/-- A bound on the steps to the return, of a thread that runs alone. -/
def Pc.rank : Pc τ → ℕ
  | .idle => 0
  | .readRetVal => 1
  | .release => 3
  | .combine cp => cp.rank published
  | .enqSlot pc .combine => 16 * published.length + 20 + pc.rank tailSlot
  | .lockedValid => 16 * published.length + 29
  | .lockedLinked => 16 * published.length + 30
  | .tryLock => 16 * published.length + 31
  | .recheck => 16 * published.length + 32
  | .spinLock => 16 * published.length + 33
  | .spinValid => 16 * published.length + 34
  | .enqSlot pc _ => 16 * published.length + 50 + pc.rank tailSlot
  | .checkValid | .spinLinked => 16 * published.length + 60
  | .checkLinked => 16 * published.length + 61
  | .setValid _ _ => 16 * published.length + 62
  | .setParameter _ _ => 16 * published.length + 63
  | .setOperation _ _ => 16 * published.length + 64

variable {published tailSlot} {s s' : State τ} {t x : τ} {pc : Pc τ}

def rank (t : τ) (s : State τ) : ℕ := (s.pcs t).rank s.published s.tailSlot

theorem slotsBehind_of_split {pre post : List τ} (hsplit : published = pre ++ x :: post)
    (hnodup : published.Nodup) : slotsBehind published x = post.length := by
  have hx : x ∉ pre := by
    rw [hsplit] at hnodup
    exact fun hmem => (nodup_append.mp hnodup).2.2 x hmem x mem_cons_self rfl
  rw [slotsBehind, hsplit, idxOf_append_of_notMem hx, idxOf_cons_self]
  simp only [length_append, length_cons]
  omega

theorem rank_walkOn (h : Published s) (hx : x ∈ s.published) :
    (walkOn x (s.slots x).nextSlot).rank s.published s.tailSlot <
      16 * slotsBehind s.published x + 4 := by
  obtain ⟨pre, post, hsplit⟩ := append_of_mem hx
  have hchain := h.chain
  rw [hsplit] at hchain
  rw [nextSlot_of_split hchain, slotsBehind_of_split hsplit h.nodup]
  cases post with
  | nil =>
    change 3 < _
    omega
  | cons v post =>
    change 16 * slotsBehind s.published v + 15 < _
    rw [slotsBehind_of_split (hsplit.trans (append_cons pre x _)) h.nodup, length_cons]
    omega

/-- The state after a step that does not change the list. -/
theorem rank_goto (hpublished : s'.published = s.published) (htail : s'.tailSlot = s.tailSlot)
    (hpcs : s'.pcs = update s.pcs t pc) (hlt : pc.rank s.published s.tailSlot < rank t s) :
    rank t s' < rank t s := by
  rw [rank, hpublished, htail, hpcs, update_self]
  exact hlt

theorem enqSlot_closer {caller : Caller} {pc : EnqPc τ} (hpc : s.pcs t = .enqSlot pc caller) :
    rank t (enqSlot t caller s pc) < rank t s := by
  have hrank : rank t s = (Pc.enqSlot pc caller).rank s.published s.tailSlot := by rw [rank, hpc]
  cases pc with
  | swapTail next =>
    simp only [enqSlot]
    split
    · next htail =>
      rw [hrank]
      change (update s.pcs t _ t).rank (t :: s.published) (some t) < _
      rw [update_self]
      cases caller <;> simp [Caller.pc, Pc.rank, CombinePc.rank, EnqPc.rank, htail] <;> omega
    · next htail =>
      refine rank_goto rfl rfl rfl ?_
      rw [hrank]
      cases caller <;> simp [Pc.rank, EnqPc.rank, htail]
  | setNext next =>
    refine rank_goto rfl rfl rfl ?_
    rw [hrank]
    cases caller <;> simp only [Pc.rank, EnqPc.rank] <;> split <;> omega
  | readTail =>
    refine rank_goto rfl rfl rfl ?_
    rw [hrank]
    cases caller <;> simp [Pc.rank, EnqPc.rank]
  | setLinked | readTimestamp | setTimestamp =>
    refine rank_goto rfl rfl rfl ?_
    rw [hrank]
    cases caller <;> simp [Pc.rank, EnqPc.rank]

theorem flatCombine_closer {cp : CombinePc τ} (h : Published s) (hpc : s.pcs t = .combine cp) :
    rank t (flatCombine t s cp) < rank t s := by
  have hrank : rank t s = cp.rank s.published := by
    rw [rank, hpc]
    rfl
  have hplace := h.place t
  rw [hpc] at hplace
  cases cp with
  | readTail =>
    simp only [flatCombine]
    split
    · next curr htail =>
      refine rank_goto rfl rfl rfl ?_
      rw [hrank]
      change 16 * slotsBehind s.published curr + 15 < 16 * s.published.length + 4
      have hchain := h.chain
      cases hpublished : s.published with
      | nil =>
        rw [hpublished, htail] at hchain
        cases hchain
      | cons v post =>
        rw [hpublished, htail] at hchain
        obtain ⟨rfl⟩ := hchain.1
        have hnodup := h.nodup
        rw [hpublished] at hnodup
        have hbehind : slotsBehind (curr :: post) curr = post.length :=
          slotsBehind_of_split (nil_append _).symm hnodup
        rw [hbehind, length_cons]
        omega
    · refine rank_goto rfl rfl rfl ?_
      rw [hrank]
      change 3 < 16 * _ + 4
      omega
  | readValid prev curr =>
    simp only [flatCombine]
    split_ifs <;> refine rank_goto rfl rfl rfl ?_ <;> rw [hrank] <;> simp [Pc.rank, CombinePc.rank]
  | readAge prev curr now =>
    simp only [flatCombine]
    split <;> refine rank_goto rfl rfl rfl ?_ <;> rw [hrank] <;> simp [Pc.rank, CombinePc.rank]
  | readNextOfPrev prev =>
    refine rank_goto rfl rfl rfl ?_
    rw [hrank]
    exact Nat.lt_trans (rank_walkOn h hplace) (by simp [CombinePc.rank])
  | advance curr =>
    refine rank_goto rfl rfl rfl ?_
    rw [hrank]
    exact rank_walkOn h hplace
  | unlink prev curr next =>
    obtain ⟨⟨pre, post, hsplit⟩, -⟩ := hplace
    have herase : s.published.erase curr = pre ++ prev :: post := by
      rw [hsplit, erase_of_adjacent (hsplit ▸ h.nodup)]
    rw [hrank]
    change (update s.pcs t _ t).rank (s.published.erase curr) _ < _
    rw [update_self]
    change 16 * slotsBehind (s.published.erase curr) prev + 10 <
      16 * slotsBehind s.published curr + 11
    rw [slotsBehind_of_split herase (h.nodup.erase curr),
      slotsBehind_of_split (hsplit.trans (append_cons pre prev _)) h.nodup]
    omega
  | readOperation | readParameter | clearRetVal | execute | setRetVal | clearValid | readTimestamp
  | setTimestamp | readCount | setCount | readNow | readNext | clearLinked =>
    refine rank_goto rfl rfl rfl ?_
    rw [hrank]
    simp [Pc.rank, CombinePc.rank]

def Undisturbed (t : τ) (s : State τ) : Prop := s.combineCas = true → (s.pcs t).Holds

theorem run_closer (h : Published s) (hfree : Undisturbed t s) (hidle : s.pcs t ≠ .idle) :
    ∃ s', run t s = some s' ∧ rank t s' < rank t s := by
  have hrank : rank t s = (s.pcs t).rank s.published s.tailSlot := rfl
  cases hpc : s.pcs t <;> rw [hpc] at hrank <;> simp only [FlatCombining.run, hpc]
  case idle => exact absurd hpc hidle
  case enqSlot pc caller => exact ⟨_, rfl, enqSlot_closer hpc⟩
  case combine cp => exact ⟨_, rfl, flatCombine_closer h hpc⟩
  case tryLock | spinLock =>
    have hcas : s.combineCas = false := by
      by_contra hlocked
      have hholds := hfree (by simpa using hlocked)
      rw [hpc] at hholds
      exact hholds
    rw [hcas]
    refine ⟨_, rfl, rank_goto rfl rfl rfl ?_⟩
    rw [hrank]
    simp [Pc.rank]
  case setOperation | setParameter | setValid | release | readRetVal =>
    refine ⟨_, rfl, rank_goto rfl rfl rfl ?_⟩
    rw [hrank]
    simp [Pc.rank]
  case checkLinked | checkValid | lockedLinked | lockedValid | spinValid | spinLinked | recheck =>
    refine ⟨_, rfl, ?_⟩
    split <;> refine rank_goto rfl rfl rfl ?_ <;> rw [hrank] <;>
      simp [Pc.rank, CombinePc.rank, EnqPc.rank]

theorem run_pcs (hrun : run t s = some s') : ∃ pc, s'.pcs = update s.pcs t pc := by
  cases hpc : s.pcs t <;>
    simp only [FlatCombining.run, hpc, Option.some.injEq, reduceCtorEq] at hrun
  case enqSlot pc caller =>
    subst hrun
    obtain ⟨-, pc', hpcs, -⟩ := enqSlot_holds t caller s pc
    exact ⟨pc', hpcs⟩
  case combine cp =>
    subst hrun
    obtain ⟨-, pc', hpcs, -⟩ := flatCombine_holds t s cp
    exact ⟨pc', hpcs⟩
  case setOperation | setParameter | setValid | release | readRetVal =>
    subst hrun
    exact ⟨_, rfl⟩
  all_goals
    split at hrun
    · subst hrun
      exact ⟨_, rfl⟩
    · subst hrun
      exact ⟨_, rfl⟩

/-- Nobody else takes the lock when the thread runs. -/
theorem Undisturbed.run (hfree : Undisturbed t s) (hlock : Locked s) (hrun : run t s = some s') :
    Undisturbed t s' := by
  intro hcas
  obtain ⟨c, hc⟩ := (hlock.run hrun).holder hcas
  by_cases hct : c = t
  · rwa [hct] at hc
  · obtain ⟨pc, hpcs⟩ := run_pcs hrun
    rw [hpcs, update_of_ne hct] at hc
    exact absurd (hlock.unique c t hc (hfree (hlock.held c hc))) hct

end Rank

section Return

variable {s : State τ} {t : τ}

/-- A thread that nobody disturbs returns. -/
theorem Undisturbed.returns (h : Invariant s) (hfree : Undisturbed t s) :
    ∃ s', Reached step (fun _ _ => True) s s' ∧ Invariant s' ∧ s'.pcs t = .idle ∧
      s'.combineCas = false := by
  have hcloser : ∀ s, Invariant s ∧ Undisturbed t s → ¬ s.pcs t = .idle →
      ∃ l s', True ∧ step s l = some s' ∧ (Invariant s' ∧ Undisturbed t s') ∧
        rank t s' < rank t s := by
    rintro s ⟨hinv, hfree⟩ hidle
    obtain ⟨s', hrun, hlt⟩ := run_closer hinv.list hfree hidle
    have hstep : step s (.run t) = some s' := hrun
    exact ⟨.run t, s', trivial, hstep, ⟨hinv.step hstep, hfree.run hinv.lock hrun⟩, hlt⟩
  obtain ⟨s', hreached, ⟨hinv, hfree'⟩, hidle⟩ := exists_reached (rank t) hcloser ⟨h, hfree⟩
  refine ⟨s', hreached, hinv, hidle, ?_⟩
  by_contra hlocked
  have hholds := hfree' (by simpa using hlocked)
  rw [hidle] at hholds
  exact hholds

/-- Every call can be brought to its end. -/
theorem Invariant.returns (h : Invariant s) (t : τ) :
    ∃ s', Reached FlatCombining.step (fun _ _ => True) s s' ∧ s'.pcs t = .idle := by
  cases hcas : s.combineCas with
  | false =>
    have hfree : Undisturbed t s := fun hlocked => by
      rw [hcas] at hlocked
      cases hlocked
    obtain ⟨s', hreached, -, hidle, -⟩ := hfree.returns h
    exact ⟨s', hreached, hidle⟩
  | true =>
    obtain ⟨c, hc⟩ := h.lock.holder hcas
    have hholder : Undisturbed c s := fun _ => hc
    obtain ⟨s₁, hreached₁, h₁, -, hcas₁⟩ := hholder.returns h
    have hfree : Undisturbed t s₁ := fun hlocked => by
      rw [hcas₁] at hlocked
      cases hlocked
    obtain ⟨s', hreached, -, hidle, -⟩ := hfree.returns h₁
    exact ⟨s', hreached₁.trans hreached, hidle⟩

end Return

/-! ### All runs -/

/-- The thread is inside `enq_slot`. -/
def InEnqSlot (s : State τ) (t : τ) : Prop := ∃ pc caller, s.pcs t = .enqSlot pc caller

/-- The combiner has taken the slot off the list and has not yet cleared its flag. -/
def BeingUnlinked (s : State τ) (t : τ) : Prop := ∃ c prev, s.pcs c = .combine (.clearLinked prev t)

/-- Following the links from `tail_slot` visits the slots of `l` and ends. -/
def ListedFromTail (s : State τ) (l : List τ) : Prop :=
  Seg (succ s.slots) s.tailSlot (l.map some) none

structure WellPublished (s : State τ) : Prop where
  list : ∃ l, ListedFromTail s l ∧ l.Nodup ∧
    ∀ t, ¬ InEnqSlot s t → ¬ BeingUnlinked s t → (t ∈ l ↔ (s.slots t).isSlotLinked = true)
  calls : ∀ t, ∃ (finished : List ((ℤ × ℕ) × ℤ)) (phase : Phase (ℤ × ℕ) ℤ),
    threadEvents t s.trace = finished.flatMap (cycle t) ++ opened t phase ∧
      (phase = .quiet ↔ s.pcs t = .idle)
  answers : Legal execute [] s.trace

omit [DecidableEq τ] in
theorem Published.mem_iff {t : τ} (h : Published s) (henq : ¬ InEnqSlot s t)
    (hunlink : ¬ BeingUnlinked s t) : t ∈ s.published ↔ (s.slots t).isSlotLinked = true := by
  refine ⟨h.linked t, fun hflag => ?_⟩
  by_contra hnot
  rcases h.outside t hflag hnot with hpc | hpc
  · cases hpc' : s.pcs t with
    | enqSlot pc caller => exact henq ⟨pc, caller, hpc'⟩
    | _ =>
      rw [hpc'] at hpc
      exact hpc
  · exact hunlink hpc

theorem Waiting.phase {t : τ} (h : Waiting s t) (hcalls : Calls s) :
    ∃ phase, phaseOf t s.trace = some phase ∧ phase ≠ .quiet := by
  rcases h with ⟨-, r, h⟩ | ⟨-, h⟩ | ⟨-, c, ⟨ret, hc⟩ | hc⟩
  · exact ⟨_, h, by simp⟩
  · exact ⟨_, h, by simp⟩
  · have hcall := hcalls c
    rw [hc] at hcall
    obtain ⟨-, ⟨-, r, h⟩, -⟩ := hcall
    exact ⟨_, h, by simp⟩
  · have hcall := hcalls c
    rw [hc] at hcall
    obtain ⟨-, ⟨-, r, h⟩, -⟩ := hcall
    exact ⟨_, h, by simp⟩

theorem Calls.phase (h : Calls s) (t : τ) :
    ∃ phase, phaseOf t s.trace = some phase ∧ (phase = .quiet ↔ s.pcs t = .idle) := by
  have hcall := h t
  cases hpc : s.pcs t <;> rw [hpc] at hcall
  case idle => exact ⟨_, hcall.2, by simp⟩
  case setOperation => exact ⟨_, hcall.2, by simp⟩
  case setParameter | setValid => exact ⟨_, hcall.2.1, by simp⟩
  case release | readRetVal =>
    obtain ⟨-, r, hphase⟩ := hcall
    exact ⟨_, hphase, by simp⟩
  case combine cp =>
    obtain ⟨phase, hphase, hne⟩ := hcall.1.phase h
    exact ⟨phase, hphase, by simp [hne]⟩
  all_goals
    obtain ⟨phase, hphase, hne⟩ := Waiting.phase hcall h
    exact ⟨phase, hphase, by simp [hne]⟩

/-- In every interleaving the publication list is well formed, every call is executed once and
returns the result of that execution, and every call can be brought to its end. -/
theorem wellPublished_of_reached (timestamp : ℤ) (s : State τ)
    (h : Reached step (fun _ _ => True) (initial timestamp) s) :
    WellPublished s ∧ ∀ t, ∃ s', Reached step (fun _ _ => True) s s' ∧ s'.pcs t = .idle := by
  have hinv := invariant_of_reached h
  refine ⟨⟨⟨s.published, hinv.list.chain, hinv.list.nodup, fun t => hinv.list.mem_iff⟩, fun t => ?_,
    hinv.queue.1⟩, fun t => hinv.returns t⟩
  obtain ⟨phase, hphase, hidle⟩ := hinv.calls.phase t
  obtain ⟨finished, hfinished⟩ := cycles_of_phase hphase
  exact ⟨finished, phase, hfinished, hidle⟩

/-- In every interleaving `combine_cas` is set exactly while a thread combines, one at a time. -/
theorem locked_of_reached (timestamp : ℤ) (s : State τ)
    (h : Reached step (fun _ _ => True) (initial timestamp) s) : Locked s :=
  (invariant_of_reached h).lock

def pushAndPop : List (Label Bool) :=
  [.call true 2 7, .call false 1 0] ++
    turns [(13, .run true), (13, .run false), (27, .run true), (3, .run false)]

theorem wellPublished_pushAndPop :
    ∃ s, Reached step (fun _ _ => True) (initial 5 : State Bool) s ∧
      s.trace = [.invoke true (2, 7), .invoke false (1, 0), .effect false (1, 0) 0,
        .effect true (2, 7) 7, .respond true 7, .respond false 0] ∧
      WellPublished s ∧ ∀ t, ∃ s', Reached step (fun _ _ => True) s s' ∧ s'.pcs t = .idle := by
  have hrun : (runSchedule (guarded step (fun _ _ => True)) (initial 5 : State Bool) pushAndPop).map
      (fun s => s.trace) = some [.invoke true (2, 7), .invoke false (1, 0), .effect false (1, 0) 0,
        .effect true (2, 7) 7, .respond true 7, .respond false 0] := by
    decide +kernel
  obtain ⟨s, hreached, htrace⟩ := exists_of_runSchedule _ hrun
  exact ⟨s, hreached, htrace, wellPublished_of_reached 5 s hreached⟩

/-- The thread that pushes combines while the other one spins. -/
theorem locked_push : ∃ s : State Bool, Reached step (fun _ _ => True) (initial 5) s ∧
    s.combineCas = true ∧ (∃ pc, s.pcs true = .combine pc) ∧ s.pcs false = .spinLock ∧
      Locked s := by
  have hrun : ∃ s, runSchedule (guarded step (fun _ _ => True)) (initial 5 : State Bool)
      (pushAndPop.take 30) = some s ∧ s.combineCas = true ∧ (∃ pc, s.pcs true = .combine pc) ∧
      s.pcs false = .spinLock :=
    ⟨_, rfl, rfl, ⟨_, rfl⟩, rfl⟩
  obtain ⟨s, hs, hset, hcombines, hspins⟩ := hrun
  have hreached := reached_of_runSchedule _ hs
  exact ⟨s, hreached, hset, hcombines, hspins, locked_of_reached 5 s hreached⟩

end SmcSim.FlatCombining
