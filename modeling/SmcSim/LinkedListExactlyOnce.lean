import SmcSim.LinkedListMailbox

/-!
# Every request is executed exactly once

Safety holds for an arbitrary vault, even one on which the kernel goes wrong: the
ownership discipline does not depend on the list. On a well-formed vault the kernel
never gets stuck, every round ends, and a round serves all requests that were
submitted before it started.
-/

namespace SmcSim.LinkedListKernel
open EffectPrograms PimMemory SkipListPrograms SkipListShape SetSemantics List Option CommandSpec

/-! ### The kernel on an arbitrary vault -/

variable {V : Type} {d : CommandSpec Port PortRes V} {w : Machine V}

private theorem wp_advance_of_tolerant {fuel k p c : ℕ} {Q : ℕ × ℕ → Machine V → Prop}
    (hs : d.onStuck) (hQ : ∀ c, Q c w) : (spec d).wp (advance fuel k p c) w Q := by
  induction fuel generalizing p c with
  | zero => exact hs
  | succ fuel ih =>
    simp only [advance, Prog.loop, Prog.bind_eq, wp_bind]
    refine wp_load_of_tolerant hs ?_
    by_cases hlt : w.memory.vault c nodeKey < k
    · simp only [hlt, if_true, wp_bind]
      refine wp_load_of_tolerant hs ?_
      exact ih
    · simp only [hlt, if_false, wp_pure, wp_ret]
      exact hQ (p, c)

private theorem wp_serve_of_tolerant {opType : BitVec 16} {k p c : ℕ}
    {Q : ℕ × BitVec 16 → Machine V → Prop} (hs : d.onStuck)
    (hQ : ∀ c b m', (∀ i ≠ freeBlocksHead, m'.sreg i = w.memory.sreg i) →
      Q (c, retvalBit b) { w with memory := m' }) :
    (spec d).wp (serve opType k p c) w Q := by
  have hsame := fun c b => hQ c b w.memory (fun _ _ => rfl)
  unfold serve
  by_cases h1 : opType = containsOp
  · rw [if_pos h1, wp_bind]
    refine wp_load_of_tolerant hs ?_
    by_cases hk : w.memory.vault c nodeKey = k
    · rw [if_pos hk]
      exact hsame c true
    · rw [if_neg hk]
      exact hsame c false
  rw [if_neg h1]
  by_cases h2 : opType = addOp
  · rw [if_pos h2, wp_bind]
    refine wp_load_of_tolerant hs ?_
    by_cases hk : w.memory.vault c nodeKey ≠ k
    · rw [if_pos hk, wp_bind]
      refine wp_allocMemoryBlock_of_tolerant hs ?_
      intro b m' hsreg
      by_cases hb : b ≠ 0
      · rw [if_pos hb, wp_bind]
        refine wp_store_of_tolerant hs ?_
        rw [wp_bind]
        refine wp_store_of_tolerant hs ?_
        rw [wp_bind]
        refine wp_store_of_tolerant hs ?_
        exact hQ b true _ hsreg
      · rw [if_neg hb]
        exact hQ c false m' hsreg
    · rw [if_neg hk]
      exact hsame c false
  rw [if_neg h2]
  by_cases h3 : opType = removeOp
  · rw [if_pos h3, wp_bind]
    refine wp_load_of_tolerant hs ?_
    by_cases hk : w.memory.vault c nodeKey = k
    · rw [if_pos hk, wp_bind]
      refine wp_load_of_tolerant hs ?_
      rw [wp_bind]
      refine wp_store_of_tolerant hs ?_
      simp only [freeMemoryBlock, wp_bind, wp_readSreg]
      refine wp_store_of_tolerant hs ?_
      simp only [wp_writeSreg]
      refine wp_load_of_tolerant hs ?_
      exact hQ _ true _ (fun i hi => Memory.setSreg_ne hi)
    · rw [if_neg hk]
      exact hsame c false
  · rw [if_neg h3]
    exact hsame c false

variable {keys : ℕ → Prop} {fuel n : ℕ} {locals : Locals}

theorem wp_sweep_of_tolerant {rely : Rely} (req : ℕ → RequestSlot) (order : List ℕ)
    {w : Machine Ghost} {p c : ℕ} {Q : Unit → Machine Ghost → Prop}
    (hwait : ∀ i ∈ order, w.ports.held i = some ⟨req i, none⟩ ∧ Valid (req i).infoBits ∧
      getRetval (req i).infoBits = 0) (hnd : order.Nodup)
    (hQ : ∀ m' g', (∀ i ≠ freeBlocksHead, m'.sreg i = w.memory.sreg i) →
      (∀ i, g'.held i = if i ∈ order then none else w.ports.held i) → Q () ⟨m', g'⟩) :
    (spec (ownership rely True)).wp (sweep fuel order p c) w Q := by
  induction order generalizing w p c Q with
  | nil => exact hQ w.memory w.ports (fun _ _ => rfl) (fun i => by simp)
  | cons i order ih =>
    obtain ⟨hheld, hvalid, hret⟩ := hwait i mem_cons_self
    obtain ⟨hin, hnd⟩ := nodup_cons.mp hnd
    simp only [sweep, wp_bind]
    refine wp_readInfoBits_held hheld (wp_readParameter_held hheld ?_)
    refine wp_advance_of_tolerant trivial (fun c' => ?_)
    refine wp_serve_of_tolerant trivial (fun c'' b m' hsreg => ?_)
    refine wp_answer hheld hvalid hret ?_
    refine ih ?_ hnd ?_
    · intro j hj
      have hji : j ≠ i := fun he => hin (he ▸ hj)
      obtain ⟨hheld', hrest⟩ := hwait j (mem_cons_of_mem i hj)
      exact ⟨by simpa [Ghost.answer, hji] using hheld', hrest⟩
    · intro m'' g'' hsreg' hheld'
      refine hQ m'' g'' (fun j hj => (hsreg' j hj).trans (hsreg j hj)) (fun j => ?_)
      rw [hheld' j]
      by_cases hji : j = i
      · subst hji
        simp [Ghost.answer]
      · by_cases hjo : j ∈ order
        · simp [hjo]
        · simp [hjo, hji, Ghost.answer]

def RoundEnd (r : Option Locals) (w : Machine Ghost) : Prop :=
  (∃ locals, r = some locals) ∧ w.memory.sreg 0 = 1 ∧ ∀ i, w.ports.held i = none

private theorem wp_kernelRound_of_tolerant {w : Machine Ghost} (hkeys : ∀ k, keys k → k < 2 ^ 32)
    (hfuel : n + 2 ≤ fuel) (hmode : w.memory.sreg 0 = 1) (hopen : ∀ i, w.ports.held i = none) :
    (spec (ownership (submitting keys) True)).wp (kernelRound fuel n locals) w RoundEnd := by
  refine wp_kernelRound_ops hmode ?_
  simp only [linkedListOps, wp_bind, wp_readSreg]
  refine wp_mono (wp_gather hopen) ?_
  rintro xs ⟨m, g⟩ ⟨hm, seen, hg⟩
  obtain rfl : m = w.memory := hm
  have hreq : ∀ i ∈ xs, IsRequest (seen i) ∧ keys (seen i).parameter :=
    fun i hi => (hg.relied i (hg.lt hi)).1 (hg.valid hi)
  have hheld : ∀ i ∈ xs, g.held i = some ⟨seen i, none⟩ := fun i hi => (hg.held i).trans (if_pos hi)
  have hlen := hg.length_le
  have hread : ReadsRank (ownership (submitting keys) True) ⟨w.memory, g⟩
      (fun i => (seen i).parameter) xs := fun i hi Q hQ => wp_readParameter_held (hheld i hi) hQ
  refine wp_quicksort_all hread (fun i hi => hkeys _ (hreq i hi).2) (by omega) ?_
  intro order hperm _
  refine wp_load_of_tolerant trivial ?_
  refine wp_sweep_of_tolerant seen order ?_ (hperm.nodup_iff.mpr hg.nodup) ?_
  · intro i hi
    have hix := hperm.mem_iff.mp hi
    exact ⟨hheld i hix, hg.valid hix, (hreq i hix).1.retval⟩
  · intro m' g' hsreg hheld'
    refine ⟨⟨locals, rfl⟩, (hsreg 0 (by decide)).trans hmode, fun i => ?_⟩
    rw [hheld' i]
    by_cases hi : i ∈ order
    · simp [hi]
    · have hix : i ∉ xs := fun hx => hi (hperm.mem_iff.mpr hx)
      rw [if_neg hi]
      exact (hg.held i).trans (if_neg hix)

/-! ### Safety -/

variable {onStuck : Prop}

/-- The rest of the kernel's round is verified against the ownership discipline. -/
def Verified (keys : ℕ → Prop) (onStuck : Prop) (Q : Option Locals → Machine Ghost → Prop)
    (s : System) : Prop :=
  ∃ g, MailboxRel keys s.machine.ports g ∧
    (spec (ownership (submitting keys) onStuck)).wp s.kernel ⟨s.machine.memory, g⟩ Q

variable {Q : Option Locals → Machine Ghost → Prop}

variable {s : System} {m : Machine Mailbox} {b : Mailbox} {g : Ghost} {cells free : List ℕ} {i : ℕ}
  {trace trace' : List Event} {op : Operation}

theorem Verified.host (h : Verified keys onStuck Q s) (i : ℕ) (op : Operation)
    {key : ℕ} (hkey : keys key) :
    Verified keys onStuck Q
      ⟨{ s.machine with ports := hostStep i op key s.machine.ports }, s.kernel⟩ := by
  obtain ⟨g, hr, hwp⟩ := h
  exact ⟨g, hr.host hkey, hwp⟩

theorem Verified.call {m' : Machine Mailbox} {o : PimOp Port} {r : PimOp.Res PortRes o}
    {k : PimOp.Res PortRes o → ListKernel (Option Locals)}
    (h : Verified keys onStuck Q ⟨m, .call o k⟩)
    (ho : handler mailboxHandler o m = some (r, m')) : Verified keys onStuck Q ⟨m', k r⟩ := by
  obtain ⟨g, hr, hwp⟩ := h
  obtain ⟨w', ⟨hm, hr'⟩, hwp'⟩ := (spec (ownership (submitting keys) onStuck)).wp_step
    (spec_sound (mailbox_sound keys onStuck)) (s := m) ⟨rfl, hr⟩ hwp ho
  obtain ⟨mem, ports⟩ := w'
  obtain rfl : m'.memory = mem := hm
  exact ⟨ports, hr', hwp'⟩

/-- Between rounds the kernel knows the slots as they are. -/
theorem MailboxRel.refresh (h : MailboxRel keys b g)
    (hopen : ∀ i, g.held i = none) : MailboxRel keys b ⟨fun _ => none, b.slots, g.served⟩ := by
  refine ⟨fun i => ?_, fun _ _ _ => rfl, h.served⟩
  have hs := h.slot i
  rw [hopen i] at hs
  exact hs

theorem Initial.rel (h : Initial fuel n s) :
    MailboxRel keys s.machine.ports ⟨fun _ => none, s.machine.ports.slots, []⟩ := by
  have htrace : s.machine.ports.trace = [] := h.trace
  refine ⟨fun i => ⟨.quiet, by rw [htrace]; rfl, ?_⟩, fun _ _ _ => rfl, by rw [htrace]; rfl⟩
  have hpc := h.hosts i
  generalize s.machine.ports.hosts i = host at hpc
  obtain ⟨pc, v⟩ := host
  obtain rfl : pc = .idle := hpc
  exact .idle (h.slots i)

theorem verified_of_reachable (hkeys : ∀ k, keys k → k < 2 ^ 32) (hfuel : n + 2 ≤ fuel)
    (h : Reachable fuel n keys s) : Verified keys True RoundEnd s := by
  induction h with
  | initial s h =>
    obtain ⟨locals, hk⟩ := h.kernel
    refine ⟨_, h.rel, ?_⟩
    rw [hk]
    exact wp_kernelRound_of_tolerant hkeys hfuel h.mode (fun _ => rfl)
  | step s s' _ hstep ih =>
    cases hstep with
    | host i op key hi hkey => exact ih.host i op hkey
    | pim s' hpim =>
      obtain ⟨m, kernel⟩ := s
      cases kernel with
      | ret r =>
        obtain ⟨g, hr, ⟨locals, rfl⟩, hmode, hopen⟩ := ih
        cases hpim
        exact ⟨_, hr.refresh hopen, wp_kernelRound_of_tolerant hkeys hfuel hmode (fun _ => rfl)⟩
      | call o k =>
        obtain ⟨⟨r, m'⟩, ho, rfl⟩ := map_eq_some_iff.mp hpim
        exact ih.call ho
      | stuck => cases hpim

/-! ### Progress -/

/-- The end of a round on a well-formed vault of `blocks` blocks: every request that
stood in a slot when the round began has been reported. -/
structure RoundServes (n blocks : ℕ) (g : Ghost) (r : Option Locals) (w : Machine Ghost) :
    Prop where
  ends : RoundEnd r w
  shape : ∃ cells free, ListShape w.memory cells free ∧ cells.length + free.length = blocks
  served : ∃ reported, w.ports.served = g.served ++ reported ∧
    ∀ i < n, Valid (g.left i).infoBits → ∃ e ∈ reported, e.slot = i

structure IsRun (fuel n : ℕ) (keys : ℕ → Prop) (run : ℕ → System) : Prop where
  start : Initial fuel n (run 0)
  step : ∀ t, Step fuel n keys (run t) (run (t + 1))

/-- The kernel is never starved. -/
def PimFair (fuel n : ℕ) (run : ℕ → System) : Prop :=
  ∀ t, ∃ t' ≥ t, pimStep fuel n (run t') = some (run (t' + 1))

variable {run : ℕ → System}

private theorem wp_kernelRound_serves {w : Machine Ghost}
    (hkeys : ∀ k, keys k → KeyInRange k) (h : ListShape w.memory cells free)
    (hfuel : cells.length + free.length + n + 2 ≤ fuel) (hmode : w.memory.sreg 0 = 1)
    (hopen : ∀ i, w.ports.held i = none) :
    (spec (ownership (submitting keys) False)).wp (kernelRound fuel n locals) w
      (RoundServes n (cells.length + free.length) w.ports) := by
  refine wp_kernelRound_ops hmode ?_
  refine wp_mono
    (wp_linkedListOps h hopen (fun i _ slot hr hv => ⟨(hr.1 hv).1, hkeys _ (hr.1 hv).2⟩) hfuel) ?_
  rintro _ w' ⟨seen, order, hb⟩
  obtain ⟨hsreg, cells', free', hshape, hperm, _⟩ := hb.vault
  obtain ⟨g, hg, hports⟩ := hb.ports
  have hlen := hperm.length_eq
  simp only [length_append] at hlen
  refine ⟨⟨⟨locals, rfl⟩, (hsreg 0 (by decide)).trans hmode, hb.held⟩,
    ⟨cells', free', hshape, hlen⟩, ?_⟩
  obtain ⟨reported, hserved, hmem⟩ := Ghost.answerAll_served seen order g hb.length
  refine ⟨reported, ?_, fun i hi hv => hmem i ?_⟩
  · rw [hports, hserved, hg.served]
  · have hseen : seen i = w.ports.left i := (hb.relied i hi).2 hv
    refine hb.gathered.mem_iff.mpr (mem_filter.mpr ⟨mem_range.mpr hi, ?_⟩)
    simpa [hseen] using hv

private theorem hostStep_trace (i : ℕ) (op : Operation) (key : ℕ) (b : Mailbox) :
    b.trace <+: (hostStep i op key b).trace := by
  unfold hostStep
  cases (b.hosts i).pc with
  | idle | wroteParameter | wroteOperation => simp
  | waiting op key =>
    by_cases hv : checkValidRequest (b.slots i).infoBits ≠ 0
    · dsimp only
      rw [if_pos hv]
      exact prefix_rfl
    · dsimp only
      rw [if_neg hv]
      exact prefix_append _ _

theorem mailboxHandler_trace {o : Port} {b' : Mailbox} {r : PortRes o}
    (h : mailboxHandler o b = some (r, b')) : b.trace <+: b'.trace := by
  cases o with
  | readInfoBits | writeInfoBits | readParameter | printInteger =>
    cases h
    exact prefix_rfl
  | printServed i opType param retval =>
    cases h
    exact prefix_append _ _

theorem handler_trace {o : PimOp Port} {m' : Machine Mailbox} {r : PimOp.Res PortRes o}
    (h : handler mailboxHandler o m = some (r, m')) : m.ports.trace <+: m'.ports.trace := by
  cases o with
  | load | store =>
    simp only [handler, ite_none_left_eq_some] at h
    obtain ⟨_, h⟩ := h
    cases h
    exact prefix_rfl
  | readSreg | writeSreg =>
    cases h
    exact prefix_rfl
  | port c =>
    obtain ⟨⟨r', b'⟩, hb, he⟩ := map_eq_some_iff.mp h
    cases he
    exact mailboxHandler_trace hb

theorem Step.trace_le {s' : System} (h : Step fuel n keys s s') : s.trace <+: s'.trace := by
  cases h with
  | host i op key hi hkey => exact hostStep_trace i op key _
  | pim s' h =>
    obtain ⟨m, kernel⟩ := s
    cases kernel with
    | ret r =>
      cases r with
      | none => cases h
      | some locals =>
        cases h
        exact prefix_rfl
    | call o k =>
      obtain ⟨⟨r, m'⟩, ho, rfl⟩ := map_eq_some_iff.mp h
      exact handler_trace ho
    | stuck => cases h

section

variable (h : IsRun fuel n keys run)
include h

theorem IsRun.trace_le {t t' : ℕ} (ht : t ≤ t') : (run t).trace <+: (run t').trace := by
  induction t', ht using Nat.le_induction with
  | base => exact prefix_rfl
  | succ t' _ ih => exact ih.trans (h.step t').trace_le

theorem IsRun.reachable (t : ℕ) : Reachable fuel n keys (run t) := by
  induction t with
  | zero => exact .initial _ h.start
  | succ t ih => exact .step _ _ ih (h.step t)

/-- Until the kernel's next step only hosts move. -/
theorem exists_pimStep (hfair : PimFair fuel n run) (t : ℕ) (hv : Verified keys False Q (run t)) :
    ∃ t' ≥ t, (run t').kernel = (run t).kernel ∧ Verified keys False Q (run t') ∧
      pimStep fuel n (run t') = some (run (t' + 1)) := by
  obtain ⟨t₁, ht₁, hpim⟩ := hfair t
  obtain ⟨delay, rfl⟩ := Nat.exists_eq_add_of_le ht₁
  clear ht₁
  induction delay generalizing t with
  | zero => exact ⟨t, le_refl t, rfl, hv, hpim⟩
  | succ delay ih =>
    have hstep := h.step t
    generalize hnext : run (t + 1) = s' at hstep
    cases hstep with
    | pim _ hp => exact ⟨t, le_refl t, rfl, hv, hnext ▸ hp⟩
    | host i op key hi hkey =>
      have hv' := hv.host i op hkey
      rw [← hnext] at hv'
      rw [← Nat.succ_add_eq_add_succ] at hpim
      obtain ⟨t', ht', hk, hrest⟩ := ih (t + 1) hv' hpim
      exact ⟨t', by omega, hk.trans (by rw [hnext]), hrest⟩

theorem round_ends (hfair : PimFair fuel n run) (kernel : ListKernel (Option Locals)) (t : ℕ)
    (hk : (run t).kernel = kernel) (hv : Verified keys False Q (run t)) :
    ∃ t' ≥ t, ∃ r g, (run t').kernel = .ret r ∧ MailboxRel keys (run t').machine.ports g ∧
      Q r ⟨(run t').machine.memory, g⟩ := by
  induction kernel generalizing t with
  | ret r =>
    obtain ⟨g, hr, hq⟩ := hv
    rw [hk] at hq
    exact ⟨t, le_refl t, r, g, hk, hr, hq⟩
  | stuck =>
    obtain ⟨g, _, hq⟩ := hv
    rw [hk] at hq
    exact hq.elim
  | call o k ih =>
    obtain ⟨t₁, ht₁, hk₁, hv₁, hpim⟩ := exists_pimStep h hfair t hv
    rw [hk] at hk₁
    generalize run t₁ = s₁ at hk₁ hv₁ hpim
    obtain ⟨m, kernel⟩ := s₁
    obtain rfl : kernel = .call o k := hk₁
    obtain ⟨⟨r, m'⟩, ho, hnext⟩ := map_eq_some_iff.mp hpim
    have hv₂ : Verified keys False Q (run (t₁ + 1)) := hnext ▸ hv₁.call ho
    obtain ⟨t', ht', hrest⟩ := ih r (t₁ + 1) (by rw [← hnext]) hv₂
    exact ⟨t', by omega, hrest⟩

end

/-- A round on a well-formed vault of `blocks` blocks leaves one. -/
def LeavesVault (blocks : ℕ) (r : Option Locals) (w : Machine Ghost) : Prop :=
  RoundEnd r w ∧ ∃ cells free, ListShape w.memory cells free ∧ cells.length + free.length = blocks

theorem verified_kernelRound (hkeys : ∀ k, keys k → KeyInRange k) (hrel : MailboxRel keys m.ports g)
    (hopen : ∀ i, g.held i = none) (hmode : m.memory.sreg 0 = 1)
    (hshape : ListShape m.memory cells free) (hfuel : cells.length + free.length + n + 2 ≤ fuel) :
    Verified keys False
      (RoundServes n (cells.length + free.length) ⟨fun _ => none, m.ports.slots, g.served⟩)
      ⟨m, kernelRound fuel n locals⟩ :=
  ⟨_, hrel.refresh hopen, wp_kernelRound_serves hkeys hshape hfuel hmode (fun _ => rfl)⟩

theorem Verified.mono {Q' : Option Locals → Machine Ghost → Prop}
    (h : Verified keys onStuck Q s) (hQ : ∀ r w, Q r w → Q' r w) : Verified keys onStuck Q' s := by
  obtain ⟨g, hr, hwp⟩ := h
  exact ⟨g, hr, wp_mono hwp hQ⟩

/-- On a well-formed vault the kernel is never stuck and never stops. -/
theorem Verified.step {blocks : ℕ} {s' : System} (hkeys : ∀ k, keys k → KeyInRange k)
    (hfuel : blocks + n + 2 ≤ fuel) (hstep : Step fuel n keys s s')
    (h : Verified keys False (LeavesVault blocks) s) :
    Verified keys False (LeavesVault blocks) s' := by
  cases hstep with
  | host i op key hi hkey => exact h.host i op hkey
  | pim s' hpim =>
    obtain ⟨m, kernel⟩ := s
    cases kernel with
    | ret r =>
      obtain ⟨g, hr, ⟨⟨locals, rfl⟩, hmode, hopen⟩, cells, free, hshape, rfl⟩ := h
      cases hpim
      refine (verified_kernelRound hkeys hr hopen hmode hshape hfuel).mono ?_
      intro r w hw
      exact ⟨hw.ends, hw.shape⟩
    | call o k =>
      obtain ⟨⟨r, m'⟩, ho, rfl⟩ := map_eq_some_iff.mp hpim
      exact h.call ho
    | stuck => cases hpim

theorem Initial.verified (h : Initial fuel n s)
    (hkeys : ∀ k, keys k → KeyInRange k) (hshape : ListShape s.machine.memory cells free)
    (hfuel : cells.length + free.length + n + 2 ≤ fuel) :
    Verified keys False (LeavesVault (cells.length + free.length)) s := by
  obtain ⟨locals, hk⟩ := h.kernel
  have hv : Verified keys False _ ⟨s.machine, kernelRound fuel n locals⟩ :=
    verified_kernelRound hkeys h.rel (fun _ => rfl) h.mode hshape hfuel
  rw [← hk] at hv
  refine hv.mono ?_
  intro r w hw
  exact ⟨hw.ends, hw.shape⟩

theorem IsRun.verified (h : IsRun fuel n keys run)
    (hkeys : ∀ k, keys k → KeyInRange k) (hshape : ListShape (run 0).machine.memory cells free)
    (hfuel : cells.length + free.length + n + 2 ≤ fuel) (t : ℕ) :
    Verified keys False (LeavesVault (cells.length + free.length)) (run t) := by
  induction t with
  | zero => exact h.start.verified hkeys hshape hfuel
  | succ t ih => exact ih.step hkeys hfuel (h.step t)

theorem threadEvents_le (h : trace <+: trace') :
    threadEvents i trace <+: threadEvents i trace' := h.filter _

/-- The first thing to happen to a submitted request is its execution. -/
theorem execute_of_submitted {key : ℕ}
    {phase : Phase} (h : trace <+: trace') (hphase : phaseOf i trace = some (.submitted op key))
    (hphase' : phaseOf i trace' = some phase)
    (hne : threadEvents i trace' ≠ threadEvents i trace) :
    ∃ r, threadEvents i trace ++ [.execute ⟨i, opCode op, key, r⟩] <+: threadEvents i trace' := by
  obtain ⟨more, hmore⟩ := threadEvents_le (i := i) h
  rw [← hmore] at hne ⊢
  rw [phaseOf, ← hmore, foldlM_append] at hphase'
  have hbefore :
      (threadEvents i trace).foldlM Phase.next .quiet = some (.submitted op key) := hphase
  rw [hbefore] at hphase'
  cases more with
  | nil => simp at hne
  | cons e more =>
    have hthread : e.thread = i := by
      have he : e ∈ threadEvents i trace' := hmore ▸ by simp
      simpa using (mem_filter.mp he).2
    rw [bind_eq_bind, bind_some, foldlM_cons] at hphase'
    obtain ⟨phase₁, hnext, _⟩ := bind_eq_some_iff.mp hphase'
    cases e with
    | submit | complete => cases hnext
    | execute e =>
      obtain ⟨slot, opType, param, retval⟩ := e
      obtain rfl : slot = i := hthread
      simp only [Phase.next, ite_none_right_eq_some] at hnext
      obtain ⟨⟨rfl, rfl⟩, _⟩ := hnext
      exact ⟨retval, by simp⟩

theorem MailboxRel.valid_of_submitted (h : MailboxRel keys b g) {key : ℕ}
    (hphase : phaseOf i b.trace = some (.submitted op key)) : Valid (b.slots i).infoBits := by
  obtain ⟨phase, hp, hs⟩ := h.slot i
  rw [hphase] at hp
  cases hp
  generalize b.slots i = slot at hs
  generalize b.hosts i = host at hs
  cases hs with
  | pending _ hslot _ _ _ => exact hslot

theorem threadEvents_ne_of_reported {before reported}
    (h : trace <+: trace') (hbefore : trace.filterMap Event.execution? = before)
    (hafter : trace'.filterMap Event.execution? = before ++ reported) {e : Execution}
    (he : e ∈ reported) (hi : e.slot = i) : threadEvents i trace' ≠ threadEvents i trace := by
  obtain ⟨more, rfl⟩ := h
  rw [filterMap_append, hbefore, append_cancel_left_eq] at hafter
  rw [← hafter] at he
  obtain ⟨event, hmem, hev⟩ := mem_filterMap.mp he
  have hthread : event.thread = i := by
    cases event with
    | execute e' =>
      cases hev
      exact hi
    | submit j op key => cases hev
    | complete j r => cases hev
  intro heq
  have hnil : threadEvents i more = [] := by simpa [threadEvents] using heq
  have hin : event ∈ threadEvents i more := mem_filter.mpr ⟨hmem, by simpa using hthread⟩
  rw [hnil] at hin
  cases hin

/-- A submitted request is executed, by the end of the round after the running one. -/
theorem IsRun.executes (h : IsRun fuel n keys run)
    (hfair : PimFair fuel n run) (hkeys : ∀ k, keys k → KeyInRange k)
    (hshape : ListShape (run 0).machine.memory cells free)
    (hfuel : cells.length + free.length + n + 2 ≤ fuel) {t : ℕ} {key : ℕ}
    (hi : i < n) (hphase : phaseOf i (run t).trace = some (.submitted op key)) :
    ∃ t' ≥ t, ∃ r, threadEvents i (run t).trace ++ [.execute ⟨i, opCode op, key, r⟩] <+:
      threadEvents i (run t').trace := by
  obtain ⟨t₁, ht₁, r₁, _, hk₁, _⟩ := round_ends h hfair _ t rfl (h.verified hkeys hshape hfuel t)
  obtain ⟨t₂, ht₂, hk₂, ⟨g, hrel, hwp⟩, hpim⟩ :=
    exists_pimStep h hfair t₁ (h.verified hkeys hshape hfuel t₁)
  rw [hk₁] at hk₂
  rw [hk₂] at hwp
  obtain ⟨⟨⟨locals, rfl⟩, hmode, hopen⟩, cells₂, free₂, hshape₂, hlen⟩ := hwp
  have hnext : run (t₂ + 1) = ⟨(run t₂).machine, kernelRound fuel n locals⟩ := by
    rw [pimStep, hk₂] at hpim
    exact (some.inj hpim).symm
  have hv : Verified keys False _ ⟨(run t₂).machine, kernelRound fuel n locals⟩ :=
    verified_kernelRound hkeys hrel hopen hmode hshape₂ (hlen ▸ hfuel)
  rw [← hnext] at hv
  obtain ⟨t₃, ht₃, r₃, g₃, _, hrel₃, hserves⟩ := round_ends h hfair _ (t₂ + 1) rfl hv
  obtain ⟨reported, hserved, hmem⟩ := hserves.served
  have h₁₂ : (run t).trace <+: (run t₂).trace := h.trace_le (by omega)
  have h₂₃ : (run t₂).trace <+: (run t₃).trace := h.trace_le (by omega)
  obtain ⟨phase, hphase₃, _⟩ := hrel₃.slot i
  refine ⟨t₃, by omega, execute_of_submitted (h₁₂.trans h₂₃) hphase hphase₃ ?_⟩
  intro heq
  have h₂ : threadEvents i (run t₂).trace = threadEvents i (run t).trace :=
    (heq ▸ threadEvents_le h₂₃).eq_of_length_le (threadEvents_le h₁₂).length_le
  have hphase₂ : phaseOf i (run t₂).trace = some (.submitted op key) := by
    rw [phaseOf, h₂]
    exact hphase
  obtain ⟨e, he, hslot⟩ := hmem i hi (hrel.valid_of_submitted hphase₂)
  exact threadEvents_ne_of_reported h₂₃ hrel.served (hrel₃.served.trans hserved) he hslot
    (heq.trans h₂.symm)

/-- In every interleaving the events of a thread are its requests, one after another:
submitted, executed once with the operation and key that were submitted, and completed
with the return value of that execution. On a well-formed vault with a kernel that is
not starved, every submitted request is executed. -/
theorem mailbox_executes_exactly_once (fuel n : ℕ) (keys : ℕ → Prop)
    (hkeys : ∀ k, keys k → k < 2 ^ 32) (hfuel : n + 2 ≤ fuel) :
    (∀ s, Reachable fuel n keys s → ∀ i,
      ∃ (finished : List (Operation × ℕ × BitVec 16)) (phase : Phase),
      threadEvents i s.trace = finished.flatMap (cycle i) ++ opened i phase) ∧
    (∀ run cells free, IsRun fuel n keys run → PimFair fuel n run →
      (∀ k, keys k → KeyInRange k) → ListShape (run 0).machine.memory cells free →
      cells.length + free.length + n + 2 ≤ fuel →
      ∀ t i op key, i < n → phaseOf i (run t).trace = some (.submitted op key) →
        ∃ t' ≥ t, ∃ r, threadEvents i (run t).trace ++ [.execute ⟨i, opCode op, key, r⟩] <+:
          threadEvents i (run t').trace) := by
  constructor
  · intro s hs i
    obtain ⟨g, hrel, _⟩ := verified_of_reachable hkeys hfuel hs
    obtain ⟨phase, hphase, _⟩ := hrel.slot i
    obtain ⟨finished, hfin⟩ := cycles_of_phases (threadEvents i s.trace)
      (fun e he => by simpa using (mem_filter.mp he).2) hphase
    exact ⟨finished, phase, hfin⟩
  · intro run cells free hrun hfair hrange hshape hlen t i op key hi hphase
    exact hrun.executes hfair hrange hshape hlen hi hphase

/-! ### A run with one request -/

theorem Verified.pimStep_eq_some {blocks : ℕ}
    (h : Verified keys False (LeavesVault blocks) s) (fuel n : ℕ) :
    ∃ s', pimStep fuel n s = some s' := by
  obtain ⟨m, kernel⟩ := s
  obtain ⟨g, hr, hwp⟩ := h
  cases kernel with
  | ret r =>
    obtain ⟨⟨⟨locals, rfl⟩, _⟩, _⟩ := hwp
    exact ⟨_, rfl⟩
  | call o k =>
    rcases spec_sound (mailbox_sound keys False) o m _ _ ⟨rfl, hr⟩ hwp with
      ⟨r, m', _, ho, _⟩ | ⟨_, hstuck⟩
    · exact ⟨⟨m', k r⟩, by simp [pimStep, ho]⟩
    · exact hstuck.elim
  | stuck => exact hwp.elim

/-- A vault with one free block, and two threads, before their first requests. -/
def twoThreads : System :=
  ⟨⟨sentinelsAndOneBlock, ⟨fun _ => ⟨.idle, 0⟩, fun _ => ⟨0, 0⟩, []⟩⟩,
    kernelRound 7 2 ⟨fun _ => 0, fun _ => 0⟩⟩

/-- The threads submit the addition and the removal of 7, then the kernel runs on. -/
def twoThreadsRun : ℕ → System
  | 0 => twoThreads
  | t + 1 =>
      let s := twoThreadsRun t
      if t < 3 then ⟨{ s.machine with ports := hostStep 0 .add 7 s.machine.ports }, s.kernel⟩
      else if t < 6 then ⟨{ s.machine with ports := hostStep 1 .remove 7 s.machine.ports },
        s.kernel⟩
      else (pimStep 7 2 s).getD s

theorem twoThreads_initial : Initial 7 2 twoThreads :=
  ⟨rfl, ⟨_, rfl⟩, fun _ => by simp [twoThreads, Valid, checkValidRequest], fun _ => rfl, rfl⟩

theorem twoThreadsRun_step {t : ℕ}
    (h : Verified (fun k => k = 7) False (LeavesVault 3) (twoThreadsRun t)) :
    Step 7 2 (fun k => k = 7) (twoThreadsRun t) (twoThreadsRun (t + 1)) ∧
      (6 ≤ t → pimStep 7 2 (twoThreadsRun t) = some (twoThreadsRun (t + 1))) := by
  obtain ⟨s', hpim⟩ := h.pimStep_eq_some 7 2
  by_cases ht : t < 3
  · simp only [twoThreadsRun, ht, if_true]
    exact ⟨.host 0 .add 7 (by decide) rfl, fun h6 => by omega⟩
  by_cases ht6 : t < 6
  · simp only [twoThreadsRun, ht, ht6, if_true, if_false]
    exact ⟨.host 1 .remove 7 (by decide) rfl, fun h6 => by omega⟩
  · simp only [twoThreadsRun, ht, ht6, if_false, hpim, getD_some]
    exact ⟨.pim s' hpim, fun _ => trivial⟩

theorem keyInRange_seven : ∀ k, k = 7 → KeyInRange k := by
  rintro _ rfl
  decide

theorem twoThreadsRun_verified (t : ℕ) :
    Verified (fun k => k = 7) False (LeavesVault 3) (twoThreadsRun t) := by
  induction t with
  | zero =>
    exact twoThreads_initial.verified keyInRange_seven sentinelsAndOneBlock_shape (by decide)
  | succ t ih => exact ih.step keyInRange_seven (by decide) (twoThreadsRun_step ih).1

theorem twoThreadsRun_isRun : IsRun 7 2 (fun k => k = 7) twoThreadsRun :=
  ⟨twoThreads_initial, fun t => (twoThreadsRun_step (twoThreadsRun_verified t)).1⟩

theorem twoThreadsRun_fair : PimFair 7 2 twoThreadsRun := by
  intro t
  exact ⟨t + 6, by omega, (twoThreadsRun_step (twoThreadsRun_verified (t + 6))).2 (by omega)⟩

theorem mailbox_executes_two_requests :
    (∀ i, ∃ (finished : List (Operation × ℕ × BitVec 16)) (phase : Phase),
      threadEvents i (twoThreadsRun 6).trace = finished.flatMap (cycle i) ++ opened i phase) ∧
    (∃ t' ≥ 6, ∃ r, threadEvents 0 (twoThreadsRun 6).trace ++ [.execute ⟨0, addOp, 7, r⟩] <+:
      threadEvents 0 (twoThreadsRun t').trace) ∧
    ∃ t' ≥ 6, ∃ r, threadEvents 1 (twoThreadsRun 6).trace ++ [.execute ⟨1, removeOp, 7, r⟩] <+:
      threadEvents 1 (twoThreadsRun t').trace := by
  have h := mailbox_executes_exactly_once 7 2 (fun k => k = 7) (by rintro _ rfl; decide) (by decide)
  have hexecutes := h.2 twoThreadsRun [64, 128] [192] twoThreadsRun_isRun twoThreadsRun_fair
    keyInRange_seven sentinelsAndOneBlock_shape (by decide) 6
  exact ⟨h.1 _ (twoThreadsRun_isRun.reachable 6), hexecutes 0 .add 7 (by decide) rfl,
    hexecutes 1 .remove 7 (by decide) rfl⟩

end SmcSim.LinkedListKernel
