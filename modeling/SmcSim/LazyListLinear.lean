import SmcSim.LazyListLocks

/-!
# The lazy list is linearizable

An `add` takes effect when its node is linked, a `remove` when its node is marked, and both when
they have found, under the locks, that there is nothing to do. A `contains` that returns 1 takes
effect when it reads the mark. One that returns 0 has seen a moment at which the key was not in
the list: while the key is in the list, its node is ahead of the thread.
-/

namespace SmcSim.LazyList
open Linearizability SetSemantics SuccessorPaths Interleavings Option List

def setObject (keys : Finset ℕ) (r : Operation × ℕ) : Bool × Finset ℕ := applySet keys r.1 r.2

/-! ### Keys in the list -/

/-- An unmarked node has the key. -/
def Present (m : Memory) (x : ℕ) : Prop :=
  ∃ a ∈ m.linked, m.marked a = false ∧ m.key a = x

/-- The unmarked node with the key can be reached from `curr`. -/
def Ahead (m : Memory) (x curr : ℕ) : Prop :=
  ∃ a ∈ m.linked, m.marked a = false ∧ m.key a = x ∧ Leads m.next curr a

def Follows (m m' : Memory) : Prop :=
  ∀ x, ∀ curr ∈ m.linked, Ahead m x curr → ¬ Present m' x ∨ Ahead m' x curr

variable {m m' : Memory} {x y prev curr n : ℕ} {node : Node}

theorem Follows.refl (m : Memory) : Follows m m := fun _ _ _ h => .inr h

theorem follows_of_carries (hcarries : Carries m m') (hlinked : ∀ a ∈ m.linked, a ∈ m'.linked)
    (hkey : ∀ a ∈ m.linked, m'.key a = m.key a)
    (hmarked : ∀ a ∈ m.linked, m'.marked a = m.marked a) : Follows m m' := by
  rintro x curr hcurr ⟨a, ha, hmark, rfl, hl⟩
  have hmark' := (hmarked a ha).trans hmark
  exact .inr ⟨a, hlinked a ha, hmark', hkey a ha, hcarries curr hcurr a hmark' hl⟩

theorem present_congr (hlinked : m'.linked = m.linked) (hkey : ∀ a ∈ m.linked, m'.key a = m.key a)
    (hmarked : ∀ a ∈ m.linked, m'.marked a = m.marked a) : Present m' x ↔ Present m x := by
  unfold Present
  rw [hlinked]
  constructor
  · rintro ⟨a, ha, hmark, hx⟩
    exact ⟨a, ha, (hmarked a ha).symm.trans hmark, (hkey a ha).symm.trans hx⟩
  · rintro ⟨a, ha, hmark, hx⟩
    exact ⟨a, ha, (hmarked a ha).trans hmark, (hkey a ha).trans hx⟩

theorem Shape.ahead_head (h : Shape m) (hx : Present m x) : Ahead m x m.head := by
  obtain ⟨a, ha, hmark, hkey⟩ := hx
  exact ⟨a, ha, hmark, hkey, h.reachable a ha hmark⟩

theorem Ahead.next (h : Ahead m x curr) (hlt : m.key curr < x) (hnext : m.next curr = some n) :
    Ahead m x n := by
  obtain ⟨a, ha, hmark, rfl, hl⟩ := h
  refine ⟨a, ha, hmark, rfl, hl.behind ?_ hnext⟩
  rintro rfl
  exact lt_irrefl _ hlt

theorem Ahead.here (h : Ahead m x curr) (hshape : Shape m) (hcurr : curr ∈ m.linked)
    (hle : x ≤ m.key curr) : m.key curr = x ∧ m.marked curr = false := by
  obtain ⟨a, ha, hmark, rfl, hl⟩ := h
  obtain rfl := hshape.ascending.eq_of_key hl hcurr hle
  exact ⟨rfl, hmark⟩

theorem present_link (hn : m.nodes n = ⟨x, false, some curr⟩) :
    Present (m.link prev n) y ↔ y = x ∨ Present m y := by
  have hmem : ∀ a, a ∈ (m.link prev n).linked ↔ a ∈ m.linked ∨ a = n := by
    simp [Memory.link]
  unfold Present
  rw [link_key, link_marked]
  constructor
  · rintro ⟨a, ha, hmark, rfl⟩
    rcases (hmem a).mp ha with ha | rfl
    · exact .inr ⟨a, ha, hmark, rfl⟩
    · exact .inl (congrArg Node.key hn)
  · rintro (rfl | ⟨a, ha, hmark, hkey⟩)
    · exact ⟨n, (hmem n).mpr (.inr rfl), congrArg Node.marked hn, congrArg Node.key hn⟩
    · exact ⟨a, (hmem a).mpr (.inl ha), hmark, hkey⟩

theorem Shape.present_mark (h : Shape m) (hcurr : curr ∈ m.linked) (hmark : m.marked curr = false) :
    Present (m.mark curr) y ↔ y ≠ m.key curr ∧ Present m y := by
  unfold Present
  rw [mark_key]
  constructor
  · rintro ⟨a, ha, hamark, rfl⟩
    have hne := ne_of_mark_marked hamark
    rw [mark_marked_of_ne hne] at hamark
    exact ⟨fun hkey => hne (h.unique ha hcurr hamark hmark hkey), a, ha, hamark, rfl⟩
  · rintro ⟨hne, a, ha, hamark, rfl⟩
    have hac : a ≠ curr := by
      rintro rfl
      exact hne rfl
    exact ⟨a, ha, (mark_marked_of_ne hac).trans hamark, rfl⟩

theorem Shape.follows_mark (h : Shape m) (hcurr : curr ∈ m.linked) (hmark : m.marked curr = false) :
    Follows m (m.mark curr) := by
  rintro x c hc ⟨a, ha, hamark, rfl, hl⟩
  by_cases hac : a = curr
  · left
    rw [h.present_mark hcurr hmark, hac]
    exact fun hpresent => hpresent.1 rfl
  · have hamark' := (mark_marked_of_ne hac).trans hamark
    exact .inr ⟨a, ha, hamark', congrFun mark_key a, carries_mark c hc a hamark' hl⟩

theorem Shape.not_present (h : Shape m) (hwindow : Window m x prev curr)
    (hnb : Neighbours m prev curr) (hlt : x < m.key curr) : ¬ Present m x := by
  rintro ⟨a, ha, hmark, hkey⟩
  exact absurd (h.gap hwindow hnb ha hmark hkey) (Nat.not_le_of_lt hlt)

/-! ### Traces -/

def Stage.result : Stage → Option Bool
  | .readNext | .unlink _ => some true
  | .unlockCurr result | .unlockPrev result => result
  | _ => none

variable {τ : Type} [DecidableEq τ]

section Phases

variable (init : Finset ℕ) (trace : List (Event τ (Operation × ℕ) Bool)) (t : τ)

def SeenAbsent (x : ℕ) : Prop := Seen setObject init t (fun keys => x ∉ keys) trace

def Pc.PhaseAt (m : Memory) : Pc → Prop
  | .idle => phaseOf t trace = some .quiet
  | .contains x curr _ => phaseOf t trace = some (.invoked (.contains, x)) ∧
      (SeenAbsent init trace t x ∨ Ahead m x curr)
  | .search op x => phaseOf t trace = some (.invoked (op.operation, x))
  | .update op x _ _ stage => phaseOf t trace = some (match stage.result with
      | none => .invoked (op.operation, x)
      | some answer => .effected (op.operation, x) answer)
  | .ret answer => ∃ r, phaseOf t trace = some (.effected r answer)

end Phases

structure Linearized (init : Finset ℕ) (s : State τ) (trace : List (Event τ (Operation × ℕ) Bool)) :
    Prop where
  history : trace.filter Event.visible = s.history
  legal : Legal setObject init trace
  keys : ∀ x, ValidKey x → (x ∈ stateAfter setObject init trace ↔ Present s.memory x)
  phase : ∀ t, (s.pcs t).PhaseAt init trace t s.memory

variable {init : Finset ℕ} {s s' : State τ} {t u : τ} {pc : Pc}
  {trace trace' : List (Event τ (Operation × ℕ) Bool)} {r : Operation × ℕ} {answer : Bool}
  {e : Event τ (Operation × ℕ) Bool} {op : Update} {stage : Stage}

theorem Pc.PhaseAt.congr (h : pc.PhaseAt init trace t m) (hat : pc.At m)
    (hphase : phaseOf t trace' = phaseOf t trace)
    (hseen : ∀ x, SeenAbsent init trace t x → SeenAbsent init trace' t x)
    (hahead : ∀ x curr, ValidKey x → curr ∈ m.linked → Ahead m x curr →
      SeenAbsent init trace' t x ∨ Ahead m' x curr) : pc.PhaseAt init trace' t m' := by
  cases pc with
  | idle | search | update => exact hphase.trans h
  | ret answer =>
    obtain ⟨r, h⟩ := h
    exact ⟨r, hphase.trans h⟩
  | contains x curr stage =>
    obtain ⟨h, hwhere⟩ := h
    refine ⟨hphase.trans h, ?_⟩
    rcases hwhere with hwhere | hwhere
    · exact .inl (hseen x hwhere)
    · exact hahead x curr hat.1 hat.2.1 hwhere

section

variable (h : Linearized init s trace)
include h

section

variable (hthreads : Threads s)
include hthreads

theorem Linearized.change (hhistory : trace'.filter Event.visible = s'.history)
    (hlegal : Legal setObject init trace')
    (hkeys : ∀ x, ValidKey x → (x ∈ stateAfter setObject init trace' ↔ Present s'.memory x))
    (hfollows : Follows s.memory s'.memory)
    (hothers : ∀ u, u ≠ t → phaseOf u trace' = phaseOf u trace)
    (hseen : ∀ u, u ≠ t → ∀ x, SeenAbsent init trace u x → SeenAbsent init trace' u x)
    (hpcs : s'.pcs = Function.update s.pcs t pc) (hphase : pc.PhaseAt init trace' t s'.memory) :
    Linearized init s' trace' := by
  refine ⟨hhistory, hlegal, hkeys, fun u => ?_⟩
  rw [hpcs]
  by_cases hu : u = t
  · rw [hu, Function.update_self]
    exact hphase
  · rw [Function.update_of_ne hu]
    refine (h.phase u).congr (hthreads.place u) (hothers u hu) (hseen u hu)
      (fun x curr hx hcurr hahead => ?_)
    rcases hfollows x curr hcurr hahead with hgone | hahead
    · exact .inl (Seen.now (fun hmem => hgone ((hkeys x hx).mp hmem)))
    · exact .inr hahead

/-- A step at which no operation takes effect. -/
theorem Linearized.silent (hhistory : s'.history = s.history)
    (hpresent : ∀ x, Present s'.memory x ↔ Present s.memory x)
    (hfollows : Follows s.memory s'.memory) (hpcs : s'.pcs = Function.update s.pcs t pc)
    (hphase : pc.PhaseAt init trace t s'.memory) : Linearized init s' trace :=
  h.change hthreads (h.history.trans hhistory.symm) h.legal
    (fun x hx => (h.keys x hx).trans (hpresent x).symm) hfollows (fun _ _ => rfl)
    (fun _ _ _ => id) hpcs hphase

theorem Linearized.goto (hphase : pc.PhaseAt init trace t s.memory) :
    Linearized init (s.goto t pc) trace :=
  h.silent hthreads rfl (fun _ => .rfl) (Follows.refl _) rfl hphase

theorem Linearized.visible (hvisible : e.visible = true) (he : e.thread = t)
    (hhistory : s'.history = s.history ++ [e]) (hmemory : s'.memory = s.memory)
    (hpcs : s'.pcs = Function.update s.pcs t pc)
    (hphase : pc.PhaseAt init (trace ++ [e]) t s.memory) : Linearized init s' (trace ++ [e]) := by
  have hne : ∀ u, u ≠ t → e.thread ≠ u := fun u hu heq => hu (heq.symm.trans he)
  refine h.change hthreads ?_ (h.legal.visible hvisible) (fun x hx => ?_) ?_
    (fun u hu => phaseOf_append_other (hne u hu))
      (fun u hu x hseen => hseen.append (hne u hu)) hpcs ?_
  · rw [filter_append, h.history, hhistory, filter_cons_of_pos hvisible]
    rfl
  · rw [stateAfter_visible hvisible, hmemory]
    exact h.keys x hx
  · rw [hmemory]
    exact Follows.refl _
  · rw [hmemory]
    exact hphase

theorem Linearized.effect (hhistory : s'.history = s.history)
    (hanswer : (setObject (stateAfter setObject init trace) r).1 = answer)
    (hkeys : ∀ x, ValidKey x →
      (x ∈ (setObject (stateAfter setObject init trace) r).2 ↔ Present s'.memory x))
    (hfollows : Follows s.memory s'.memory) (hpcs : s'.pcs = Function.update s.pcs t pc)
    (hphase : pc.PhaseAt init (trace ++ [.effect t r answer]) t s'.memory) :
    Linearized init s' (trace ++ [.effect t r answer]) := by
  have hne : ∀ u, u ≠ t → (Event.effect t r answer).thread ≠ u := fun u hu heq => hu heq.symm
  refine h.change hthreads ?_ (h.legal.effect hanswer) (fun x hx => ?_) hfollows
    (fun u hu => phaseOf_append_other (hne u hu)) (fun u hu x hseen => hseen.append (hne u hu)) hpcs
    hphase
  · rw [filter_append, h.history, hhistory]
    exact append_nil _
  · rw [stateAfter_effect]
    exact hkeys x hx

theorem Linearized.absent (hphase : phaseOf t trace = some (.invoked (.contains, x)))
    (hseen : SeenAbsent init trace t x) :
    ∃ trace', Linearized init (s.goto t (.ret false)) trace' := by
  obtain ⟨pre, post, rfl, hpost, habsent⟩ := hseen
  have hstep : setObject (stateAfter setObject init pre) (.contains, x) =
      (false, stateAfter setObject init pre) := by
    simp [setObject, applySet, habsent]
  refine ⟨pre ++ .effect t (.contains, x) false :: post, h.change hthreads ?_ (h.legal.insert hstep)
    (fun y hy => ?_) (Follows.refl _) (fun u hu => phaseOf_insert_other (Ne.symm hu))
    (fun u hu y hseen => hseen.insert (Ne.symm hu) hstep) rfl
    ⟨(.contains, x), phaseOf_insert hpost hphase⟩⟩
  · rw [filter_visible_insert]
    exact h.history
  · rw [stateAfter_insert hstep]
    exact h.keys y hy

end

theorem Linearized.lookup {stage : LookupStage} (hinv : Invariant s)
    (hpc : s.pcs t = .contains x curr stage) (hrun : lookup t s x curr stage = some s') :
    ∃ trace', Linearized init s' trace' := by
  obtain ⟨hphase, hwhere⟩ : phaseOf t trace = some (.invoked (.contains, x)) ∧
      (SeenAbsent init trace t x ∨ Ahead s.memory x curr) := by
    have hphase := h.phase t
    rwa [hpc] at hphase
  obtain ⟨hx, hcurr, hstage⟩ : ValidKey x ∧ curr ∈ s.memory.linked ∧ stage.At s.memory x curr := by
    have hplace := hinv.threads.place t
    rwa [hpc] at hplace
  cases stage with
  | test =>
    cases hrun
    split
    · exact ⟨trace, h.goto hinv.threads ⟨hphase, hwhere⟩⟩
    · exact ⟨trace, h.goto hinv.threads ⟨hphase, hwhere⟩⟩
  | advance =>
    obtain ⟨b, hnext, rfl⟩ := map_eq_some_iff.mp hrun
    exact ⟨trace, h.goto hinv.threads ⟨hphase, hwhere.imp_right (fun ha => ha.next hstage hnext)⟩⟩
  | checkKey =>
    cases hrun
    split
    · exact ⟨trace, h.goto hinv.threads ⟨hphase, hwhere⟩⟩
    · next hne =>
      rcases hwhere with hseen | hahead
      · exact h.absent hinv.threads hphase hseen
      · exact absurd (hahead.here hinv.shape hcurr hstage).1 hne
  | checkMarked =>
    cases hrun
    cases hmark : (s.memory.nodes curr).marked with
    | true =>
      rcases hwhere with hseen | hahead
      · exact h.absent hinv.threads hphase hseen
      · have hunmarked := (hahead.here hinv.shape hcurr hstage.ge).2
        rw [Memory.marked, hmark] at hunmarked
        cases hunmarked
    | false =>
      have hmem := (h.keys x hx).mpr ⟨curr, hcurr, hmark, hstage⟩
      refine ⟨_, h.effect (r := (.contains, x)) hinv.threads rfl ?_ (fun y hy => h.keys y hy)
        (Follows.refl _) rfl ⟨_, phaseOf_effect hphase⟩⟩
      simp [setObject, applySet, hmem]

end

variable {stage' : Stage}

theorem phaseAt_of_stage (h : (Pc.update op x prev curr stage).PhaseAt init trace t m)
    (hresult : stage'.result = stage.result) :
    (Pc.update op x prev curr stage').PhaseAt init trace t m' := by
  simp only [Pc.PhaseAt, hresult] at h ⊢
  exact h

section

variable (h : Linearized init s trace)
include h

/-- A step of `add` or `remove` at which it does not take effect. -/
theorem Linearized.gotoStage (hthreads : Threads s) (hpc : s.pcs t = .update op x prev curr stage)
    (hresult : stage'.result = stage.result) :
    Linearized init (s.goto t (.update op x prev curr stage')) trace := by
  have hphase := h.phase t
  rw [hpc] at hphase
  exact h.goto hthreads (phaseAt_of_stage hphase hresult)

/-- The effect of an operation that changes nothing, under the locks. -/
theorem Linearized.decideKey (hinv : Invariant s) (hx : ValidKey x)
    (hphase : phaseOf t trace = some (.invoked (op.operation, x)))
    (hwindow : Window s.memory x prev curr) (hnb : Neighbours s.memory prev curr)
    (hle : x ≤ s.memory.key curr) :
    ∃ trace', Linearized init (s.goto t (.update op x prev curr
      (decideKey op (decide (s.memory.key curr = x))))) trace' := by
  by_cases hkey : s.memory.key curr = x
  · have hmem : x ∈ stateAfter setObject init trace :=
      (h.keys x hx).mpr ⟨curr, hwindow.currLinked, hnb.currUnmarked, hkey⟩
    rw [decide_eq_true hkey]
    cases op with
    | remove => exact ⟨trace, h.goto hinv.threads hphase⟩
    | add =>
      refine ⟨_, h.effect (r := (.add, x)) hinv.threads rfl ?_ (fun y hy => ?_) (Follows.refl _)
        rfl (phaseOf_effect hphase)⟩
      · simp [setObject, applySet, hmem]
      · simp only [setObject, applySet, Finset.insert_eq_of_mem hmem]
        exact h.keys y hy
  · have hlt : x < s.memory.key curr := lt_of_le_of_ne hle (Ne.symm hkey)
    have hmem : x ∉ stateAfter setObject init trace :=
      fun hmem => hinv.shape.not_present hwindow hnb hlt ((h.keys x hx).mp hmem)
    rw [decide_eq_false hkey]
    cases op with
    | add => exact ⟨trace, h.goto hinv.threads hphase⟩
    | remove =>
      refine ⟨_, h.effect (r := (.remove, x)) hinv.threads rfl ?_ (fun y hy => ?_) (Follows.refl _)
        rfl (phaseOf_effect hphase)⟩
      · simp [setObject, applySet, hmem]
      · simp only [setObject, applySet, Finset.erase_eq_of_notMem hmem]
        exact h.keys y hy

theorem Linearized.write_fresh (hinv : Invariant s) (hpc : s.pcs t = .update op x prev curr stage)
    (hnode : stage.node = some n) (hresult : stage'.result = stage.result) :
    Linearized init ((s.setMemory (s.memory.setNode n node)).goto t
      (.update op x prev curr stage')) trace := by
  have hmine : (s.pcs t).node = some n := by
    rw [hpc]
    exact hnode
  have hfresh := (hinv.threads.place t).fresh hmine
  have hkeeps : Keeps s.memory (s.memory.setNode n node) (· ∈ s.memory.linked) none :=
    keeps_setNode_of_fresh hfresh
  have hmarked : ∀ a ∈ s.memory.linked,
      (s.memory.setNode n node).marked a = s.memory.marked a := fun a => hkeeps.marked
  have hphase := h.phase t
  rw [hpc] at hphase
  exact h.silent hinv.threads rfl (fun y => present_congr rfl hkeeps.key hmarked)
    (follows_of_carries (carries_setNode_of_fresh hinv.shape hfresh) (fun _ => id) hkeeps.key
      hmarked) rfl (phaseAt_of_stage hphase hresult)

end

theorem history_of_acquire {a : ℕ} (h : s.acquire t a pc = some s') :
    s'.history = s.history ∧ s'.pcs = Function.update s.pcs t pc := by
  unfold State.acquire at h
  split at h
  · cases h
    exact ⟨rfl, rfl⟩
  · cases h

section

variable (h : Linearized init s trace)
include h

theorem Linearized.acquire {a : ℕ} (hthreads : Threads s) (hrun : s.acquire t a pc = some s')
    (hphase : pc.PhaseAt init trace t s.memory) : Linearized init s' trace := by
  have hmemory := memory_of_acquire hrun
  obtain ⟨hhistory, hpcs⟩ := history_of_acquire hrun
  refine h.silent hthreads hhistory (fun y => ?_) ?_ hpcs ?_
  · rw [hmemory]
  · rw [hmemory]
    exact Follows.refl _
  · rw [hmemory]
    exact hphase

theorem Linearized.update (hinv : Invariant s) (hpc : s.pcs t = .update op x prev curr stage)
    (hrun : update t s op x prev curr stage = some s') : ∃ trace', Linearized init s' trace' := by
  obtain ⟨hx, hwindow, hstage⟩ : ValidKey x ∧ Window s.memory x prev curr ∧
      stage.At s.memory op x prev curr := by
    have hplace := hinv.threads.place t
    rwa [hpc] at hplace
  have hphase := h.phase t
  rw [hpc] at hphase
  cases stage with
  | test | checkPrev | checkCurr | checkNext =>
    cases hrun
    split
    · exact ⟨trace, h.gotoStage hinv.threads hpc rfl⟩
    · exact ⟨trace, h.gotoStage hinv.threads hpc rfl⟩
  | advance =>
    obtain ⟨b, -, rfl⟩ := map_eq_some_iff.mp hrun
    exact ⟨trace, h.goto hinv.threads hphase⟩
  | lockPrev | lockCurr => exact ⟨trace, h.acquire hinv.threads hrun hphase⟩
  | checkKey =>
    cases hrun
    exact h.decideKey hinv hx hphase hwindow hstage.2 hstage.1
  | allocate =>
    cases hrun
    exact ⟨trace, h.silent hinv.threads rfl (fun _ => .rfl) (fun _ _ _ => .inr) rfl hphase⟩
  | setKey n | setNext n =>
    cases hrun
    exact ⟨trace, h.write_fresh hinv hpc rfl rfl⟩
  | initLock | unlockCurr =>
    cases hrun
    exact ⟨trace, h.silent hinv.threads rfl (fun _ => .rfl) (Follows.refl _) rfl hphase⟩
  | link n =>
    cases hrun
    obtain ⟨rfl, hlt, hnb, hfresh, hfilled⟩ := hstage
    have hne : n ≠ prev := by
      rintro rfl
      exact hfresh.unlinked hwindow.prevLinked
    have habsent : x ∉ stateAfter setObject init trace :=
      fun hmem => hinv.shape.not_present hwindow hnb hlt ((h.keys x hx).mp hmem)
    refine ⟨_, h.effect (r := (.add, x)) hinv.threads rfl ?_ (fun y hy => ?_)
      (follows_of_carries (carries_link hnb hne hfilled) (fun a => mem_append_left _)
        (fun a _ => congrFun link_key a) (fun a _ => congrFun link_marked a)) rfl
      (phaseOf_effect hphase)⟩
    · simp [setObject, applySet, habsent]
    · change y ∈ insert x (stateAfter setObject init trace) ↔ Present (s.memory.link prev n) y
      rw [present_link hfilled, Finset.mem_insert, h.keys y hy]
  | mark =>
    cases hrun
    obtain ⟨rfl, hkey, hnb⟩ := hstage
    have hmem : x ∈ stateAfter setObject init trace :=
      (h.keys x hx).mpr ⟨curr, hwindow.currLinked, hnb.currUnmarked, hkey⟩
    refine ⟨_, h.effect (r := (.remove, x)) hinv.threads rfl ?_ (fun y hy => ?_)
      (hinv.shape.follows_mark hwindow.currLinked hnb.currUnmarked) rfl (phaseOf_effect hphase)⟩
    · simp [setObject, applySet, hmem]
    · change y ∈ (stateAfter setObject init trace).erase x ↔ Present (s.memory.mark curr) y
      rw [hinv.shape.present_mark hwindow.currLinked hnb.currUnmarked, Finset.mem_erase, hkey,
        h.keys y hy]
  | readNext =>
    cases hrun
    exact ⟨trace, h.gotoStage hinv.threads hpc rfl⟩
  | unlink next =>
    cases hrun
    obtain ⟨-, hremoved, rfl⟩ := hstage
    have hkey : ∀ a ∈ s.memory.linked, (s.memory.unlink prev (s.memory.next curr)).key a =
        s.memory.key a := fun a _ => congrFun unlink_key a
    have hmarked : ∀ a ∈ s.memory.linked, (s.memory.unlink prev (s.memory.next curr)).marked a =
        s.memory.marked a := fun a _ => congrFun unlink_marked a
    exact ⟨trace, h.silent hinv.threads rfl (fun y => present_congr rfl hkey hmarked)
      (follows_of_carries (carries_unlink hwindow hremoved) (fun _ => id) hkey hmarked) rfl hphase⟩
  | unlockPrev result =>
    cases hrun
    cases result with
    | none => exact ⟨trace, h.silent hinv.threads rfl (fun _ => .rfl) (Follows.refl _) rfl hphase⟩
    | some answer =>
      exact ⟨trace, h.silent hinv.threads rfl (fun _ => .rfl) (Follows.refl _) rfl ⟨_, hphase⟩⟩

theorem Linearized.step {l : Label τ} (hinv : Invariant s) (hcall : ValidCall s l)
    (hstep : step s l = some s') : ∃ trace', Linearized init s' trace' := by
  cases l with
  | call t operation x =>
    simp only [LazyList.step] at hstep
    split at hstep
    · next hidle =>
      cases hstep
      have hphase := h.phase t
      rw [hidle] at hphase
      have hinvoked : phaseOf t (trace ++ [.invoke t (operation, x)]) =
          some (.invoked (operation, x)) := phaseOf_invoke hphase
      refine ⟨_, h.visible (e := .invoke t (operation, x)) hinv.threads rfl rfl rfl rfl rfl ?_⟩
      cases operation with
      | contains =>
        refine ⟨hinvoked, ?_⟩
        by_cases hmem : x ∈ stateAfter setObject init (trace ++ [.invoke t (.contains, x)])
        · right
          rw [stateAfter_visible rfl] at hmem
          exact hinv.shape.ahead_head ((h.keys x hcall).mp hmem)
        · exact .inl (Seen.now hmem)
      | add | remove => exact hinvoked
    · cases hstep
  | run t =>
    simp only [LazyList.step] at hstep
    split at hstep
    · cases hstep
    · next x curr stage hpc => exact h.lookup hinv hpc hstep
    · next op x hpc =>
      have hphase := h.phase t
      rw [hpc] at hphase
      obtain ⟨b, -, rfl⟩ := map_eq_some_iff.mp hstep
      exact ⟨trace, h.goto hinv.threads hphase⟩
    · next op x prev curr stage hpc => exact h.update hinv hpc hstep
    · next answer hpc =>
      cases hstep
      have hphase := h.phase t
      rw [hpc] at hphase
      obtain ⟨r, hphase⟩ := hphase
      exact ⟨_, h.visible (e := .respond t answer) hinv.threads rfl rfl rfl rfl rfl
        (phaseOf_respond hphase)⟩

end

/-! ### All runs -/

structure Start (s : State τ) : Prop where
  list : SortedChain s.memory.next s.memory.key s.memory.head s.memory.tail s.memory.linked
  headKey : s.memory.key s.memory.head = 0
  tailKey : s.memory.key s.memory.tail = maxKey
  end_next : s.memory.next s.memory.tail = none
  unmarked : ∀ a, s.memory.marked a = false
  allocated : ∀ a ∈ s.memory.linked, a < s.memory.allocated
  zero : ∀ n, s.memory.allocated ≤ n → s.memory.nodes n = zeroNode
  locks : ∀ a, s.locks a = none
  pcs : ∀ t, s.pcs t = .idle
  history : s.history = []

def keySet (m : Memory) : Finset ℕ := (m.linked.map m.key).toFinset.filter ValidKey

/-- Keys from `a` along the links grow, and lead to the end. -/
def LeadsToTail (m : Memory) (a : ℕ) : Prop := ∃ l, SortedChain m.next m.key a m.tail l

/-- The nodes that can be reached from the head, in the order of the links; the unmarked ones
form a sorted list with the sentinel at its end. -/
def SortedUnmarked (m : Memory) : Prop :=
  ∃ l : List ℕ, l.head? = some m.head ∧ l.IsChain (fun a b => m.next a = some b) ∧
    (∀ a, a ∈ l ↔ Leads m.next m.head a) ∧
    (l.filter (fun a => !m.marked a)).Pairwise (fun a b => m.key a < m.key b) ∧
    (l.filter (fun a => !m.marked a)).getLast? = some m.tail

structure WellFormed (s : State τ) : Prop where
  sorted : SortedUnmarked s.memory
  marked : ∀ a, s.memory.marked a = true → LeadsToTail s.memory a
  progress : ∀ t, s.pcs t ≠ .idle →
    ∃ u, s.pcs u ≠ .idle ∧ (step s (.run u)).isSome = true

section Runs

variable {a : ℕ}

theorem Shape.leadsToTail (h : Shape m) (ha : a ∈ m.linked) : LeadsToTail m a :=
  h.ascending.exists_chain h.last (fun b hb => (h.bound b hb).trans h.tailKey.ge) ha

theorem Shape.tail_unmarked (h : Shape m) : m.marked m.tail = false := by
  cases hmark : m.marked m.tail with
  | false => rfl
  | true =>
    have hlt := (h.marked m.tail hmark).2.2
    rw [h.tailKey] at hlt
    exact absurd hlt (lt_irrefl _)

theorem Shape.sortedUnmarked (h : Shape m) : SortedUnmarked m := by
  obtain ⟨l, hl⟩ := h.leadsToTail h.head
  refine ⟨l, hl.first, hl.chain.imp (fun _ _ => And.left),
    fun a => ⟨hl.leads, hl.mem h.next_tail⟩, hl.pairwise.filter _, ?_⟩
  obtain ⟨front, hfront⟩ := getLast?_eq_some_iff.mp hl.final
  have hmark := h.tail_unmarked
  rw [hfront, filter_append]
  simp [hmark]

theorem Invariant.wellFormed (h : Invariant s) : WellFormed s :=
  ⟨h.shape.sortedUnmarked, fun a ha => h.shape.leadsToTail (h.shape.marked a ha).1,
    fun _ ht => h.exists_step ht⟩

omit [DecidableEq τ] in
theorem Start.invariant (h : Start s) : Invariant s := by
  refine ⟨⟨h.list.first_mem, h.list.final_mem, h.headKey, h.tailKey, h.list.ascending h.end_next,
    fun a ha hnone => ?_, fun a ha => h.tailKey ▸ h.list.key_le ha, fun a ha _ => h.list.leads ha,
    fun a ha => ?_, h.allocated, h.zero⟩, ⟨fun t => ?_, fun a t => ?_, fun t u n ht => ?_⟩⟩
  · rcases h.list.next_mem ha with heq | ⟨b, -, hnext, -⟩
    · exact heq
    · rw [hnone] at hnext
      cases hnext
  · rw [h.unmarked a] at ha
    cases ha
  · rw [h.pcs t]
    trivial
  · rw [h.locks a, h.pcs t]
    exact ⟨fun heq => (by cases heq), False.elim⟩
  · rw [h.pcs t] at ht
    cases ht

theorem Start.linearized (h : Start s) : Linearized (keySet s.memory) s [] := by
  refine ⟨h.history.symm, rfl, fun x hx => ?_, fun t => ?_⟩
  · change x ∈ keySet s.memory ↔ _
    simp [keySet, Present, hx, h.unmarked]
  · rw [h.pcs t]
    rfl

theorem Pc.PhaseAt.isSome (h : pc.PhaseAt init trace t m) : (phaseOf t trace).isSome = true := by
  apply isSome_iff_exists.mpr
  cases pc with
  | idle | search | update => exact ⟨_, h⟩
  | contains => exact ⟨_, h.1⟩
  | ret answer =>
    obtain ⟨r, h⟩ := h
    exact ⟨_, h⟩

/-- In every interleaving the unmarked nodes are sorted, marked nodes lead to the end, threads
do not wait for each other forever, and the calls and returns are those of a set. -/
theorem linearizable_set_of_reached (s₀ s : State τ) (hstart : Start s₀)
    (h : Reached step ValidCall s₀ s) :
    WellFormed s ∧ Linearizable setObject (keySet s₀.memory) s.history := by
  obtain ⟨hinv, trace, hlin⟩ := h.invariant
    (I := fun s => Invariant s ∧ ∃ trace, Linearized (keySet s₀.memory) s trace)
    ⟨hstart.invariant, [], hstart.linearized⟩
    (fun s l s' ⟨hinv, trace, hlin⟩ hcall hstep =>
      ⟨hinv.step hcall hstep, hlin.step hinv hcall hstep⟩)
  exact ⟨hinv.wellFormed, trace, hlin.history, fun t => (hlin.phase t).isSome, hlin.legal⟩

/-- In every interleaving a thread has the lock of a node exactly from its `lock` to its
`unlock`. -/
theorem locks_of_reached (s₀ s : State τ) (hstart : Start s₀) (h : Reached step ValidCall s₀ s)
    (a : ℕ) (t : τ) : s.locks a = some t ↔ (s.pcs t).Holds a := by
  have hinv : Invariant s := h.invariant hstart.invariant (fun _ _ _ hs => hs.step)
  exact hinv.threads.locks a t

end Runs

/-! ### A run -/

def oneKey : State Bool where
  memory :=
    { head := 0
      tail := 2
      nodes := fun a => match a with
        | 0 => ⟨0, false, some 1⟩
        | 1 => ⟨7, false, some 2⟩
        | 2 => ⟨maxKey, false, none⟩
        | _ => zeroNode
      allocated := 3
      linked := [0, 1, 2] }
  locks := fun _ => none
  pcs := fun _ => .idle
  history := []

theorem oneKey_start : Start oneKey := by
  refine ⟨⟨rfl, rfl, by decide⟩, rfl, rfl, rfl, fun a => ?_, by decide, fun n hn => ?_,
    fun _ => rfl, fun _ => rfl, rfl⟩
  · match a with
    | 0 | 1 | 2 => rfl
    | n + 3 => rfl
  · match n, hn with
    | n + 3, _ => rfl

/-- A `contains` reads the mark of a node after a `remove` has marked it. -/
def overtaken : List (Label Bool) :=
  .call true .contains 7 :: turns [(4, .run true)] ++ .call false .remove 7 ::
    turns [(10, .run false), (2, .run true), (4, .run false)]

instance (s : State Bool) : (l : Label Bool) → Decidable (ValidCall s l)
  | .call _ _ x => inferInstanceAs (Decidable (ValidKey x))
  | .run _ => isTrue trivial

theorem linearizable_overtaken : ∃ s : State Bool, Reached step ValidCall oneKey s ∧
    s.history = [.invoke true (.contains, 7), .invoke false (.remove, 7), .respond true false,
      .respond false true] ∧
    WellFormed s ∧ Linearizable setObject (keySet oneKey.memory) s.history := by
  have hrun : (runSchedule (guarded step ValidCall) oneKey overtaken).map (fun s => s.history) =
      some [.invoke true (.contains, 7), .invoke false (.remove, 7), .respond true false,
        .respond false true] := by
    decide +kernel
  obtain ⟨s, hreached, hhistory⟩ := exists_of_runSchedule _ hrun
  exact ⟨s, hreached, hhistory, linearizable_set_of_reached oneKey s oneKey_start hreached⟩

/-- The `remove` holds both locks while the `contains` is at the node that it has marked. -/
theorem locks_of_remove : ∃ s : State Bool, Reached step ValidCall oneKey s ∧
    s.pcs true = .contains 7 1 .checkMarked ∧ s.pcs false = .update .remove 7 0 1 .readNext ∧
    s.locks 0 = some false ∧ s.locks 1 = some false ∧
    ∀ a t, s.locks a = some t ↔ (s.pcs t).Holds a := by
  have hrun : (runSchedule (guarded step ValidCall) oneKey (overtaken.take 15)).map
      (fun s => (s.pcs true, s.pcs false, s.locks 0, s.locks 1)) =
      some (.contains 7 1 .checkMarked, .update .remove 7 0 1 .readNext, some false,
        some false) := by
    decide +kernel
  obtain ⟨s, hreached, hvalues⟩ := exists_of_runSchedule _ hrun
  simp only [Prod.mk.injEq] at hvalues
  obtain ⟨htrue, hfalse, hprev, hcurr⟩ := hvalues
  exact ⟨s, hreached, htrue, hfalse, hprev, hcurr, locks_of_reached oneKey s oneKey_start hreached⟩

end SmcSim.LazyList
