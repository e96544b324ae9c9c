import SmcSim.LazyListShape

/-!
# Runs of the lazy list

Every step keeps the shape of the list and what the threads know. A thread that waits for a lock
while it holds another one waits for a greater key, so some thread can always go on.
-/

namespace SmcSim.LazyList
open Option

variable {τ : Type}

structure Invariant (s : State τ) : Prop where
  shape : Shape s.memory
  threads : Threads s

section Steps

variable [DecidableEq τ] {s s' : State τ} {t u : τ} {pc : Pc} {op : Update}
  {x prev curr n a : ℕ} {stage stage' : Stage}

theorem holds_of_stage (hprev : stage'.holdsPrev = stage.holdsPrev)
    (hcurr : stage'.holdsCurr = stage.holdsCurr) (a : ℕ) :
    (Pc.update op x prev curr stage').Holds a ↔ (Pc.update op x prev curr stage).Holds a := by
  simp only [Pc.Holds, hprev, hcurr]

theorem Invariant.goto (h : Invariant s) (hat : pc.At s.memory)
    (hholds : ∀ a, pc.Holds a ↔ (s.pcs t).Holds a)
    (hnode : ∀ n, pc.node = some n → (s.pcs t).node = some n) : Invariant (s.goto t pc) :=
  ⟨h.shape, h.threads.goto hat hholds hnode⟩

/-- A step from one stage to another with the same locks. -/
theorem Invariant.gotoStage (h : Invariant s) (hpc : s.pcs t = .update op x prev curr stage)
    (hat : (Pc.update op x prev curr stage').At s.memory)
    (hprev : stage'.holdsPrev = stage.holdsPrev) (hcurr : stage'.holdsCurr = stage.holdsCurr)
    (hnode : stage'.node = none) :
    Invariant (s.goto t (.update op x prev curr stage')) := by
  refine h.goto hat (fun a => ?_) (fun n hn => ?_)
  · rw [hpc]
    exact holds_of_stage hprev hcurr a
  · have hnone : (Pc.update op x prev curr stage').node = none := hnode
    rw [hnone] at hn
    cases hn

theorem Shape.exists_next {m : Memory} (h : Shape m) (ha : a ∈ m.linked) (hlt : m.key a < maxKey) :
    ∃ b, (m.nodes a).next = some b ∧ b ∈ m.linked := by
  cases hnext : (m.nodes a).next with
  | none =>
    have htail := h.last a ha hnext
    rw [htail, h.tailKey] at hlt
    exact absurd hlt (lt_irrefl _)
  | some b => exact ⟨b, rfl, h.closed ha hnext⟩

theorem Invariant.lookup {stage : LookupStage} (h : Invariant s)
    (hpc : s.pcs t = .contains x curr stage) (hrun : lookup t s x curr stage = some s') :
    Invariant s' := by
  obtain ⟨hx, hcurr, hstage⟩ : ValidKey x ∧ curr ∈ s.memory.linked ∧ stage.At s.memory x curr := by
    have hplace := h.threads.place t
    rwa [hpc] at hplace
  have hgoto : ∀ pc : Pc, pc.At s.memory → (∀ a, ¬ pc.Holds a) → pc.node = none →
      Invariant (s.goto t pc) := by
    intro pc hat hholds hnode
    refine h.goto hat (fun a => ?_) (fun n hn => ?_)
    · rw [hpc]
      exact ⟨hholds a, False.elim⟩
    · rw [hnode] at hn
      cases hn
  cases stage with
  | test =>
    cases hrun
    split
    · next hlt => exact hgoto _ ⟨hx, hcurr, hlt⟩ (fun _ => id) rfl
    · next hge => exact hgoto _ ⟨hx, hcurr, Nat.le_of_not_lt hge⟩ (fun _ => id) rfl
  | advance =>
    obtain ⟨b, hnext, rfl⟩ := map_eq_some_iff.mp hrun
    exact hgoto _ ⟨hx, h.shape.closed hcurr hnext, trivial⟩ (fun _ => id) rfl
  | checkKey =>
    cases hrun
    split
    · next heq => exact hgoto _ ⟨hx, hcurr, heq⟩ (fun _ => id) rfl
    · exact hgoto _ trivial (fun _ => id) rfl
  | checkMarked =>
    cases hrun
    exact hgoto _ trivial (fun _ => id) rfl

theorem Invariant.search (h : Invariant s) (hpc : s.pcs t = .search op x)
    (hrun : search t s op x = some s') : Invariant s' := by
  have hx : ValidKey x := by
    have hplace := h.threads.place t
    rwa [hpc] at hplace
  obtain ⟨b, hnext, rfl⟩ := map_eq_some_iff.mp hrun
  refine h.goto ⟨hx, ⟨h.shape.head, h.shape.closed h.shape.head hnext, ?_⟩, trivial⟩ (fun a => ?_)
    (fun n hn => by cases hn)
  · rw [h.shape.headKey]
    exact hx.1
  · rw [hpc]
    simp [Pc.Holds, Stage.holdsPrev, Stage.holdsCurr]

theorem memory_of_acquire (h : s.acquire t a pc = some s') : s'.memory = s.memory := by
  unfold State.acquire at h
  split at h
  · cases h
    rfl
  · cases h

theorem decideKey_at {m : Memory} (hle : x ≤ m.key curr) (hnb : Neighbours m prev curr) :
    (decideKey op (decide (m.key curr = x))).At m op x prev curr := by
  by_cases hkey : m.key curr = x
  · rw [decide_eq_true hkey]
    cases op with
    | add => exact hle
    | remove => exact ⟨rfl, hkey, hnb⟩
  · rw [decide_eq_false hkey]
    cases op with
    | add => exact ⟨rfl, lt_of_le_of_ne hle (Ne.symm hkey), hnb⟩
    | remove => exact hle

theorem decideKey_holds (op : Update) (found : Bool) : (decideKey op found).holdsPrev = true ∧
    (decideKey op found).holdsCurr = true ∧ (decideKey op found).node = none := by
  cases op <;> cases found <;> exact ⟨rfl, rfl, rfl⟩

theorem Threads.write_held {node : Node} (h : Threads s)
    (hpc : s.pcs t = .update op x prev curr stage)
    (hat : (Pc.update op x prev curr stage').At (s.memory.setNode a node))
    (hprev : stage'.holdsPrev = stage.holdsPrev) (hcurr : stage'.holdsCurr = stage.holdsCurr)
    (hnode : stage'.node = none) (hkey : node.key = s.memory.key a)
    (hheld : (Pc.update op x prev curr stage).Holds a) :
    Threads ((s.setMemory (s.memory.setNode a node)).goto t (.update op x prev curr stage')) := by
  refine h.write s.memory.linked hat (fun a => ?_) (fun n hn => ?_) (fun _ => hkey)
    (fun _ => id) (fun _ => .inl) (.inl ?_)
  · rw [hpc]
    exact holds_of_stage hprev hcurr a
  · have hnone : (Pc.update op x prev curr stage').node = none := hnode
    rw [hnone] at hn
    cases hn
  · rw [hpc]
    exact hheld

theorem Invariant.write_fresh {node : Node} (h : Invariant s)
    (hpc : s.pcs t = .update op x prev curr stage) (hnode : stage.node = some n)
    (hat : (Pc.update op x prev curr stage').At (s.memory.setNode n node))
    (hprev : stage'.holdsPrev = stage.holdsPrev) (hcurr : stage'.holdsCurr = stage.holdsCurr)
    (hnode' : stage'.node = some n) (hmark : node.marked = false) :
    Invariant ((s.setMemory (s.memory.setNode n node)).goto t (.update op x prev curr stage')) := by
  have hmine : (s.pcs t).node = some n := by
    rw [hpc]
    exact hnode
  have hfresh := (h.threads.place t).fresh hmine
  refine ⟨h.shape.setNode_of_fresh hfresh hmark, h.threads.write s.memory.linked hat
    (fun a => ?_) (fun k hk => ?_) (fun hmem => absurd hmem hfresh.unlinked) (fun _ => id)
    (fun _ => .inl) (.inr hmine)⟩
  · rw [hpc]
    exact holds_of_stage hprev hcurr a
  · cases hnode'.symm.trans hk
    exact hmine

theorem Invariant.update (h : Invariant s) (hpc : s.pcs t = .update op x prev curr stage)
    (hrun : update t s op x prev curr stage = some s') : Invariant s' := by
  obtain ⟨hx, hwindow, hstage⟩ : ValidKey x ∧ Window s.memory x prev curr ∧
      stage.At s.memory op x prev curr := by
    have hplace := h.threads.place t
    rwa [hpc] at hplace
  cases stage with
  | test =>
    cases hrun
    split
    · next hlt => exact h.gotoStage hpc ⟨hx, hwindow, hlt⟩ rfl rfl rfl
    · next hge => exact h.gotoStage hpc ⟨hx, hwindow, Nat.le_of_not_lt hge⟩ rfl rfl rfl
  | advance =>
    obtain ⟨b, hnext, rfl⟩ := map_eq_some_iff.mp hrun
    refine h.goto ⟨hx, ⟨hwindow.currLinked, h.shape.closed hwindow.currLinked hnext, hstage⟩,
      trivial⟩ (fun a => ?_) (fun n hn => by cases hn)
    rw [hpc]
    simp [Pc.Holds, Stage.holdsPrev, Stage.holdsCurr]
  | lockPrev =>
    have hat : (Pc.update op x prev curr .lockCurr).At s.memory := ⟨hx, hwindow, hstage⟩
    refine ⟨?_, h.threads.acquire hat rfl (fun b => ?_) hrun⟩
    · rw [memory_of_acquire hrun]
      exact h.shape
    · rw [hpc]
      simp [Pc.Holds, Stage.holdsPrev, Stage.holdsCurr]
  | lockCurr =>
    have hat : (Pc.update op x prev curr .checkPrev).At s.memory := ⟨hx, hwindow, hstage⟩
    refine ⟨?_, h.threads.acquire hat rfl (fun b => ?_) hrun⟩
    · rw [memory_of_acquire hrun]
      exact h.shape
    · rw [hpc]
      simp [Pc.Holds, Stage.holdsPrev, Stage.holdsCurr, or_comm]
  | checkPrev =>
    cases hrun
    split
    · exact h.gotoStage hpc ⟨hx, hwindow, hstage⟩ rfl rfl rfl
    · next hmark =>
      exact h.gotoStage hpc ⟨hx, hwindow, hstage, Bool.eq_false_of_not_eq_true hmark⟩ rfl rfl rfl
  | checkCurr =>
    cases hrun
    obtain ⟨hle, hprev⟩ := hstage
    split
    · exact h.gotoStage hpc ⟨hx, hwindow, hle⟩ rfl rfl rfl
    · next hmark =>
      exact h.gotoStage hpc ⟨hx, hwindow, hle, hprev, Bool.eq_false_of_not_eq_true hmark⟩
        rfl rfl rfl
  | checkNext =>
    cases hrun
    obtain ⟨hle, hprev, hcurr⟩ := hstage
    split
    · next hnext =>
      exact h.gotoStage hpc ⟨hx, hwindow, hle, hprev, hcurr, hnext⟩ rfl rfl rfl
    · exact h.gotoStage hpc ⟨hx, hwindow, hle⟩ rfl rfl rfl
  | checkKey =>
    cases hrun
    obtain ⟨hprev, hcurr, hnode⟩ := decideKey_holds op
      (decide ((s.memory.nodes curr).key = x))
    exact h.gotoStage hpc ⟨hx, hwindow, decideKey_at hstage.1 hstage.2⟩ hprev hcurr hnode
  | allocate =>
    cases hrun
    obtain ⟨hop, hlt, hnb⟩ := hstage
    have hnew : s.memory.allocated ∉ s.memory.linked :=
      fun hmem => lt_irrefl _ (h.shape.allocated _ hmem)
    refine ⟨h.shape.allocate, h.threads.change rfl (fun u _ => ⟨fun _ => id, fun _ _ => rfl,
      fun _ _ => rfl, fun k _ hf => ⟨⟨hf.unlinked, Nat.lt_succ_of_lt hf.allocated⟩, rfl⟩⟩)
      ⟨hx, ⟨hwindow.prevLinked, hwindow.currLinked, hwindow.lt⟩, hop, hlt, ?_,
        ⟨hnew, Nat.lt_succ_self _⟩, h.shape.zero _ (le_rfl)⟩
      (fun a => ?_) (fun _ _ _ => .rfl) (fun k hk u _ hu => ?_)⟩
    · exact ⟨hnb.prevUnmarked, hnb.currUnmarked, hnb.link⟩
    · exact (h.threads.locks a t).trans (by rw [hpc]; exact .rfl)
    · cases hk
      exact lt_irrefl _ ((h.threads.place u).fresh hu).allocated
  | setKey n =>
    cases hrun
    obtain ⟨hop, hlt, hnb, hfresh, hzero⟩ := hstage
    refine h.write_fresh hpc rfl ?_ rfl rfl rfl (congrArg Node.marked hzero)
    have hk : Keeps s.memory (s.memory.setNode n { s.memory.nodes n with key := x })
      (· ∈ s.memory.linked) none := keeps_setNode_of_fresh hfresh
    refine ⟨hx, hk.window hwindow, hop, ?_, hk.neighbours hwindow.prevLinked hwindow.currLinked hnb,
      ⟨hfresh.unlinked, hfresh.allocated⟩, ?_⟩
    · rw [hk.key curr hwindow.currLinked]
      exact hlt
    · rw [setNode_nodes_self, hzero]
      rfl
  | setNext n =>
    cases hrun
    obtain ⟨hop, hlt, hnb, hfresh, hfilled⟩ := hstage
    refine h.write_fresh hpc rfl ?_ rfl rfl rfl (congrArg Node.marked hfilled)
    have hk : Keeps s.memory (s.memory.setNode n { s.memory.nodes n with next := some curr })
      (· ∈ s.memory.linked) none := keeps_setNode_of_fresh hfresh
    refine ⟨hx, hk.window hwindow, hop, ?_, hk.neighbours hwindow.prevLinked hwindow.currLinked hnb,
      ⟨hfresh.unlinked, hfresh.allocated⟩, ?_⟩
    · rw [hk.key curr hwindow.currLinked]
      exact hlt
    · rw [setNode_nodes_self, hfilled]
  | initLock n =>
    cases hrun
    have hfresh := hstage.2.2.2.1
    have hholds : ∀ u, ¬ (s.pcs u).Holds n :=
      fun u hu => hfresh.unlinked ((h.threads.place u).linked hu)
    refine ⟨h.shape, h.threads.release ⟨hx, hwindow, hstage⟩ (fun b => ?_) (fun u _ => hholds u)
      (fun k hk => by rw [hpc]; exact hk)⟩
    have hsame : (Pc.update op x prev curr (.link n)).Holds b ↔ (s.pcs t).Holds b := by
      rw [hpc]
      exact holds_of_stage rfl rfl b
    refine ⟨fun hb => ⟨?_, hsame.mp hb⟩, fun hb => hsame.mpr hb.2⟩
    rintro rfl
    exact hholds t (hsame.mp hb)
  | link n =>
    cases hrun
    obtain ⟨hop, hlt, hnb, hfresh, hfilled⟩ := hstage
    have hold : ∀ b ∈ s.memory.linked, b ∈ s.memory.linked ++ [n] :=
      fun b hb => List.mem_append_left _ hb
    have hkey : (s.memory.link prev n).key = s.memory.key := link_key
    refine ⟨h.shape.link hx hwindow hnb hlt hfresh hfilled, h.threads.write _
      ⟨hx, hwindow.congr hkey hold, ?_⟩
      (fun a => ?_) (fun k hk => by cases hk) (fun _ => rfl) hold (fun b hb => ?_) (.inl ?_)⟩
    · change x ≤ (s.memory.link prev n).key curr
      rw [hkey]
      exact hlt.le
    · rw [hpc]
      exact holds_of_stage rfl rfl a
    · rw [hpc]
      rcases List.mem_append.mp hb with hb | hb
      · exact .inl hb
      · rw [List.mem_singleton.mp hb]
        exact .inr rfl
    · rw [hpc]
      exact .inl ⟨rfl, rfl⟩
  | mark =>
    cases hrun
    obtain ⟨hop, hkey, hnb⟩ := hstage
    have hne : prev ≠ curr := hwindow.ne hkey.ge
    refine ⟨h.shape.mark hwindow.currLinked (hkey ▸ hx), h.threads.write_held hpc
      ⟨hx, hwindow.congr mark_key (fun _ => id), hop, ?_⟩ rfl rfl rfl rfl (.inr ⟨rfl, rfl⟩)⟩
    exact ⟨(congrFun mark_key curr).trans hkey, (mark_marked_of_ne hne).trans hnb.prevUnmarked,
      mark_marked_self, (congrFun mark_next prev).trans hnb.link⟩
  | readNext =>
    cases hrun
    exact h.gotoStage hpc ⟨hx, hwindow, hstage.1, hstage.2, rfl⟩ rfl rfl rfl
  | unlink next =>
    cases hrun
    obtain ⟨hop, hremoved, rfl⟩ := hstage
    refine ⟨h.shape.unlink hwindow hremoved, h.threads.write_held hpc
      ⟨hx, hwindow.congr unlink_key (fun _ => id), ?_⟩ rfl rfl rfl rfl (.inl ⟨rfl, rfl⟩)⟩
    change x ≤ (s.memory.unlink prev (s.memory.next curr)).key curr
    rw [unlink_key]
    exact hremoved.key.ge
  | unlockCurr result =>
    cases hrun
    have hne : prev ≠ curr := hwindow.ne hstage
    refine ⟨h.shape, h.threads.release ⟨hx, hwindow, hstage⟩ (fun b => ?_) (fun u hu hheld => ?_)
      (fun k hk => by cases hk)⟩
    · rw [hpc]
      simp only [Pc.Holds, Stage.holdsPrev, Stage.holdsCurr]
      grind
    · exact hu (h.threads.exclusive hheld (by rw [hpc]; exact .inr ⟨rfl, rfl⟩))
  | unlockPrev result =>
    cases hrun
    have hothers : ∀ u, u ≠ t → ¬ (s.pcs u).Holds prev := fun u hu hheld =>
      hu (h.threads.exclusive hheld (by rw [hpc]; exact .inl ⟨rfl, rfl⟩))
    have hholds : ∀ b, False ↔ b ≠ prev ∧ (s.pcs t).Holds b := by
      intro b
      rw [hpc]
      simp only [Pc.Holds, Stage.holdsPrev, Stage.holdsCurr]
      grind
    cases result with
    | none =>
      exact ⟨h.shape, h.threads.release hx hholds hothers (fun k hk => by cases hk)⟩
    | some answer =>
      exact ⟨h.shape, h.threads.release trivial hholds hothers (fun k hk => by cases hk)⟩

def ValidCall (_ : State τ) : Label τ → Prop
  | .call _ _ x => ValidKey x
  | .run _ => True

theorem Invariant.step {l : Label τ} (h : Invariant s) (hcall : ValidCall s l)
    (hstep : step s l = some s') : Invariant s' := by
  cases l with
  | call t operation x =>
    simp only [LazyList.step] at hstep
    split at hstep
    · next hidle =>
      cases hstep
      have hstart : (start s.memory operation x).At s.memory := by
        cases operation with
        | contains => exact ⟨hcall, h.shape.head, trivial⟩
        | add | remove => exact hcall
      have hfree : (∀ a, ¬ (start s.memory operation x).Holds a) ∧
          (start s.memory operation x).node = none := by
        cases operation <;> exact ⟨fun _ => id, rfl⟩
      refine ⟨h.shape, h.threads.change rfl (fun _ _ => Keeps.refl _) hstart (fun a => ?_)
        (fun _ _ _ => .rfl) (fun n hn => ?_)⟩
      · refine (h.threads.locks a t).trans ?_
        rw [hidle]
        exact ⟨False.elim, hfree.1 a⟩
      · rw [hfree.2] at hn
        cases hn
    · cases hstep
  | run t =>
    simp only [LazyList.step] at hstep
    split at hstep
    · cases hstep
    · next x curr stage hpc => exact h.lookup hpc hstep
    · next op x hpc => exact h.search hpc hstep
    · next op x prev curr stage hpc => exact h.update hpc hstep
    · next answer hpc =>
      cases hstep
      refine ⟨h.shape, h.threads.change rfl (fun _ _ => Keeps.refl _) trivial (fun a => ?_)
        (fun _ _ _ => .rfl) (fun n hn => by cases hn)⟩
      refine (h.threads.locks a t).trans ?_
      rw [hpc]
      exact .rfl

/-! ### No deadlock -/

def Pc.Wants : Pc → ℕ → Prop
  | .update _ _ prev _ .lockPrev, a => a = prev
  | .update _ _ _ curr .lockCurr, a => a = curr
  | _, _ => False

theorem locked_of_acquire (h : s.acquire t a pc = none) : ∃ u, s.locks a = some u := by
  unfold State.acquire at h
  split at h
  · cases h
  · next u hlock => exact ⟨u, hlock⟩

/-- A thread in an operation can go on, unless it waits for a lock that is taken. -/
theorem Invariant.stuck (h : Invariant s) (hidle : s.pcs t ≠ .idle)
    (hstuck : LazyList.step s (.run t) = none) :
    ∃ a u, (s.pcs t).Wants a ∧ s.locks a = some u := by
  have hplace := h.threads.place t
  simp only [LazyList.step] at hstuck
  split at hstuck
  · next hpc => exact absurd hpc hidle
  · next x curr stage hpc =>
    rw [hpc] at hplace
    obtain ⟨hx, hcurr, hstage⟩ := hplace
    cases stage with
    | advance =>
      obtain ⟨b, hnext, -⟩ := h.shape.exists_next hcurr (hstage.trans hx.2)
      simp [LazyList.lookup, hnext] at hstuck
    | test | checkKey | checkMarked => cases hstuck
  · next op x hpc =>
    have hlt : s.memory.key s.memory.head < maxKey := by
      rw [h.shape.headKey]
      decide
    obtain ⟨b, hnext, -⟩ := h.shape.exists_next h.shape.head hlt
    simp [LazyList.search, hnext] at hstuck
  · next op x prev curr stage hpc =>
    rw [hpc] at hplace ⊢
    obtain ⟨hx, hwindow, hstage⟩ := hplace
    cases stage with
    | advance =>
      obtain ⟨b, hnext, -⟩ := h.shape.exists_next hwindow.currLinked (hstage.trans hx.2)
      simp [LazyList.update, hnext] at hstuck
    | lockPrev =>
      obtain ⟨u, hu⟩ := locked_of_acquire hstuck
      exact ⟨prev, u, rfl, hu⟩
    | lockCurr =>
      obtain ⟨u, hu⟩ := locked_of_acquire hstuck
      exact ⟨curr, u, rfl, hu⟩
    | _ => cases hstuck
  · cases hstuck

omit [DecidableEq τ] in
/-- A thread that holds a lock waits for a greater key only. -/
theorem Invariant.key_lt (h : Invariant s) {b : ℕ} (hholds : (s.pcs t).Holds a)
    (hwants : (s.pcs t).Wants b) :
    s.memory.key a < s.memory.key b ∧ b ∈ s.memory.linked := by
  have hplace := h.threads.place t
  cases hpc : s.pcs t with
  | update op x prev curr stage =>
    rw [hpc] at hplace hholds hwants
    obtain ⟨-, hwindow, hstage⟩ := hplace
    cases stage with
    | lockPrev =>
      rcases hholds with ⟨-, hholds⟩ | ⟨-, hholds⟩
      · cases hholds
      · cases hholds
    | lockCurr =>
      obtain rfl : b = curr := hwants
      rcases hholds with ⟨rfl, -⟩ | ⟨-, hholds⟩
      · exact ⟨hwindow.lt.trans_le hstage, hwindow.currLinked⟩
      · cases hholds
    | _ => cases hwants
  | idle | contains | search | ret =>
    rw [hpc] at hwants
    cases hwants

omit [DecidableEq τ] in
theorem ne_idle_of_holds (h : (s.pcs t).Holds a) : s.pcs t ≠ .idle := by
  intro hidle
  rw [hidle] at h
  exact h

/-- The holder of a lock can go on, or waits for a thread that can. -/
theorem Invariant.exists_step_of_holds (h : Invariant s) (hholds : (s.pcs t).Holds a) :
    ∃ u, s.pcs u ≠ .idle ∧ (LazyList.step s (.run u)).isSome = true := by
  -- the keys of the nodes that are waited for grow, and are bounded
  induction hk : maxKey - s.memory.key a using Nat.strongRecOn generalizing t a with
  | ind k ih =>
    have hidle := ne_idle_of_holds hholds
    cases hstep : LazyList.step s (.run t) with
    | some s' => exact ⟨t, hidle, by rw [hstep]; rfl⟩
    | none =>
      obtain ⟨b, u, hwants, hlock⟩ := h.stuck hidle hstep
      obtain ⟨hlt, hb⟩ := h.key_lt hholds hwants
      have hle := h.shape.bound b hb
      exact ih (maxKey - s.memory.key b) (by omega) ((h.threads.locks b u).mp hlock) rfl

/-- If some thread is in an operation, some such thread can make a step. -/
theorem Invariant.exists_step (h : Invariant s) (hidle : s.pcs t ≠ .idle) :
    ∃ u, s.pcs u ≠ .idle ∧ (LazyList.step s (.run u)).isSome = true := by
  cases hstep : LazyList.step s (.run t) with
  | some s' => exact ⟨t, hidle, by rw [hstep]; rfl⟩
  | none =>
    obtain ⟨a, u, -, hlock⟩ := h.stuck hidle hstep
    exact h.exists_step_of_holds ((h.threads.locks a u).mp hlock)

end Steps

end SmcSim.LazyList
