import SmcSim.LockFreeQueueShape

/-!
# The lock-free queue is linearizable

An `enq` takes effect when its node is linked, and a `deq` that returns a value when it moves
`head`. A `deq` that finds the queue empty takes effect when it has read that the sentinel has
no successor; whether it returns is only decided later, when `head` has not moved.
-/

namespace SmcSim.LockFreeQueue
open Linearizability ListSegments Interleavings Function List Option

variable {τ : Type}

/-! ### Contents -/

def contents (s : State τ) : List ℕ :=
  (s.linked.drop (s.linked.idxOf s.head + 1)).map (fun a => (s.nodes a).value)

variable {s s' : State τ}

theorem contents_congr (hlinked : s'.linked = s.linked) (hhead : s'.head = s.head)
    (hvalue : ∀ a ∈ s.linked, (s'.nodes a).value = (s.nodes a).value) :
    contents s' = contents s := by
  unfold contents
  rw [hlinked, hhead]
  apply map_congr_left
  intro a ha
  exact hvalue a (mem_of_mem_drop ha)

private theorem contents_link {n val : ℕ} (h : Shape s) (hlinked : s'.linked = s.linked ++ [n])
    (hhead : s'.head = s.head) (hvalue : ∀ a ∈ s.linked, (s'.nodes a).value = (s.nodes a).value)
    (hnew : (s'.nodes n).value = val) : contents s' = contents s ++ [val] := by
  have hlt := idxOf_lt_length_of_mem h.order.1
  unfold contents
  rw [hlinked, hhead, idxOf_append_of_mem h.order.1, drop_append_of_le_length hlt,
    map_append, map_singleton, hnew]
  congr 1
  apply map_congr_left
  intro a ha
  exact hvalue a (mem_of_mem_drop ha)

/-- Moving `head` to the next node takes the first value out. -/
private theorem contents_unlink {x : ℕ} (h : Shape s) (hlink : Link s s.head x)
    (hlinked : s'.linked = s.linked) (hnodes : s'.nodes = s.nodes) (hhead : s'.head = x) :
    contents s = (s.nodes x).value :: contents s' := by
  have hnext := h.behind hlink
  obtain ⟨-, hidx⟩ := idxOf_of_next h.nodup hnext
  obtain ⟨hlt, hget⟩ := List.getElem?_eq_some_iff.mp hnext
  unfold contents
  rw [hlinked, hnodes, hhead, hidx, drop_eq_getElem_cons hlt, hget, map_cons]

private theorem contents_of_last (h : Shape s) {first : ℕ} (hfirst : UpTo s.linked first s.head)
    (hnone : (s.nodes first).next = none) : contents s = [] := by
  have hlast := (h.next first hfirst.1).symm.trans hnone
  rw [hfirst.last hlast] at hlast
  unfold contents
  rw [drop_eq_nil_of_le (List.getElem?_eq_none_iff.mp hlast)]
  rfl

private theorem swapTail_history (s : State τ) (last x : ℕ) :
    (s.swapTail last x).history = s.history := by
  unfold State.swapTail
  split <;> rfl

private theorem swapTail_contents (s : State τ) (last x : ℕ) :
    contents (s.swapTail last x) = contents s := by
  unfold State.swapTail
  split <;> rfl

private theorem swapTail_pcs (s : State τ) (last x : ℕ) : (s.swapTail last x).pcs = s.pcs := by
  unfold State.swapTail
  split <;> rfl

/-! ### Traces -/

variable [DecidableEq τ]

def EnqPc.val : EnqPc → ℕ
  | .new val | .setNext val _ | .setValue val _ | .readTail val _ | .rereadTail val _ _
  | .readNext val _ _ _ | .checkTail val _ _ _ | .swapNext val _ _ | .swapTail val _ _
  | .helpTail val _ _ _ => val

section Phases

variable (trace : List (Event τ Operation Answer)) (t : τ)

def SeenEmpty : Prop := Seen fifo [] t (fun queue => queue = []) trace

def Pc.PhaseAt : Pc → Prop
  | .idle => phaseOf t trace = some .quiet
  | .enq (.swapTail val _ _) => phaseOf t trace = some (.effected (.enq val) .done)
  | .enq pc => phaseOf t trace = some (.invoked (.enq pc.val))
  | .deq (.checkHead _ _ none) => phaseOf t trace = some (.invoked .deq) ∧ SeenEmpty trace t
  | .deq _ => phaseOf t trace = some (.invoked .deq)
  | .ret answer => ∃ r, phaseOf t trace = some (.effected r answer)

end Phases

structure Linearized (s : State τ) (trace : List (Event τ Operation Answer)) : Prop where
  history : trace.filter Event.visible = s.history
  legal : Legal fifo [] trace
  queue : stateAfter fifo [] trace = contents s
  phase : ∀ t, (s.pcs t).PhaseAt trace t

theorem linearized_initial (memory : ℕ → Node) : Linearized (initial memory : State τ) [] where
  history := rfl
  legal := rfl
  queue := rfl
  phase _ := rfl

variable {t u : τ} {pc : Pc} {trace trace' : List (Event τ Operation Answer)} {r : Operation}
  {answer : Answer} {e : Event τ Operation Answer}

theorem Pc.PhaseAt.congr (h : pc.PhaseAt trace t) (hphase : phaseOf t trace' = phaseOf t trace)
    (hseen : SeenEmpty trace t → SeenEmpty trace' t) : pc.PhaseAt trace' t := by
  cases pc with
  | idle => exact hphase.trans h
  | ret answer =>
    obtain ⟨r, h⟩ := h
    exact ⟨r, hphase.trans h⟩
  | enq pc => cases pc <;> exact hphase.trans h
  | deq pc =>
    cases pc with
    | checkHead first last next =>
      cases next with
      | none => exact ⟨hphase.trans h.1, hseen h.2⟩
      | some x => exact hphase.trans h
    | readHead | readTail | readNext | helpTail | readValue | swapHead => exact hphase.trans h

section

variable (h : Linearized s trace)
include h

/-- A step at which no operation takes effect. -/
theorem Linearized.silent (hhistory : s'.history = s.history) (hcontents : contents s' = contents s)
    (hpcs : s'.pcs = update s.pcs t pc) (hphase : pc.PhaseAt trace t) :
    Linearized s' trace := by
  refine ⟨h.history.trans hhistory.symm, h.legal, h.queue.trans hcontents.symm, fun u => ?_⟩
  rw [hpcs]
  by_cases hu : u = t
  · rw [hu, update_self]
    exact hphase
  · rw [update_of_ne hu]
    exact h.phase u

theorem Linearized.phase_append (he : e.thread = t) (hpcs : s'.pcs = update s.pcs t pc)
    (hphase : pc.PhaseAt (trace ++ [e]) t) (u : τ) : (s'.pcs u).PhaseAt (trace ++ [e]) u := by
  rw [hpcs]
  by_cases hu : u = t
  · rw [hu, update_self]
    exact hphase
  · rw [update_of_ne hu]
    have hne : e.thread ≠ u := fun heq => hu (heq.symm.trans he)
    exact (h.phase u).congr (phaseOf_append_other hne) (fun hseen => hseen.append hne)

theorem Linearized.visible (hvisible : e.visible = true) (he : e.thread = t)
    (hhistory : s'.history = s.history ++ [e]) (hcontents : contents s' = contents s)
    (hpcs : s'.pcs = update s.pcs t pc) (hphase : pc.PhaseAt (trace ++ [e]) t) :
    Linearized s' (trace ++ [e]) := by
  refine ⟨?_, h.legal.visible hvisible, ?_, h.phase_append he hpcs hphase⟩
  · rw [filter_append, h.history, hhistory, filter_cons_of_pos hvisible]
    rfl
  · rw [stateAfter_visible hvisible, h.queue, hcontents]

theorem Linearized.effect (hhistory : s'.history = s.history)
    (hstep : fifo (contents s) r = (answer, contents s'))
    (hpcs : s'.pcs = update s.pcs t pc)
    (hphase : pc.PhaseAt (trace ++ [.effect t r answer]) t) :
    Linearized s' (trace ++ [.effect t r answer]) := by
  refine ⟨?_, h.legal.effect ?_, ?_, h.phase_append rfl hpcs hphase⟩
  · rw [filter_append, h.history, hhistory]
    exact append_nil _
  · rw [h.queue, hstep]
  · rw [stateAfter_effect, h.queue, hstep]

theorem Linearized.empty (hphase : phaseOf t trace = some (.invoked .deq))
    (hseen : SeenEmpty trace t) : ∃ trace', Linearized (s.goto t (.ret (.value 0))) trace' := by
  obtain ⟨pre, post, rfl, hpost, hempty⟩ := hseen
  have hstep : fifo (stateAfter fifo [] pre) .deq = (.value 0, stateAfter fifo [] pre) := by
    rw [hempty]
    rfl
  refine ⟨pre ++ .effect t .deq (.value 0) :: post, ?_, h.legal.insert hstep, ?_, fun u => ?_⟩
  · rw [filter_visible_insert]
    exact h.history
  · rw [stateAfter_insert hstep]
    exact h.queue
  · change Pc.PhaseAt _ u (update s.pcs t _ u)
    by_cases hu : u = t
    · rw [hu, update_self]
      exact ⟨.deq, phaseOf_insert hpost hphase⟩
    · rw [update_of_ne hu]
      exact (h.phase u).congr (phaseOf_insert_other (Ne.symm hu))
        (fun hseen => hseen.insert (Ne.symm hu) hstep)

theorem Linearized.goto (hphase : pc.PhaseAt trace t) : Linearized (s.goto t pc) trace :=
  h.silent rfl rfl rfl hphase

theorem Linearized.swapTail {last x : ℕ} (hphase : pc.PhaseAt trace t) :
    Linearized ((s.swapTail last x).goto t pc) trace := by
  refine h.silent (swapTail_history s last x) (swapTail_contents s last x) ?_ hphase
  rw [← swapTail_pcs s last x]
  rfl

theorem Linearized.enq {pc : EnqPc} (hshape : Shape s) (hpc : s.pcs t = .enq pc) :
    ∃ trace', Linearized (enq t s pc) trace' := by
  have hphase := h.phase t
  have hplace := hshape.place t
  rw [hpc] at hphase hplace
  cases pc with
  | new val => exact ⟨trace, h.silent rfl rfl rfl hphase⟩
  | setNext val n | setValue val n =>
    have hfresh := Pc.At.fresh hplace rfl
    refine ⟨trace, h.silent rfl (contents_congr rfl rfl (fun a ha => ?_)) rfl hphase⟩
    have hne : a ≠ n := by
      rintro rfl
      exact hfresh.unlinked ha
    exact congrArg Node.value (update_of_ne hne _ _)
  | readTail | rereadTail | readNext => exact ⟨trace, h.goto hphase⟩
  | checkTail val n last next =>
    simp only [LockFreeQueue.enq]
    split
    · cases next with
      | none | some => exact ⟨trace, h.goto hphase⟩
    · exact ⟨trace, h.goto hphase⟩
  | swapNext val n last =>
    obtain ⟨hready, hlast⟩ := hplace
    simp only [LockFreeQueue.enq]
    split
    · next hnext =>
      have hne : n ≠ last := by
        rintro rfl
        exact hready.fresh.unlinked hlast
      refine ⟨_, h.effect (r := .enq val) rfl ?_ rfl (phaseOf_effect hphase)⟩
      refine congrArg (Prod.mk Answer.done) (Eq.symm ?_)
      refine contents_link hshape rfl rfl (fun a _ => ?_) ?_
      · change (update s.nodes last _ a).value = _
        by_cases hal : a = last
        · rw [hal, update_self]
        · rw [update_of_ne hal]
      · change (update s.nodes last _ n).value = _
        rw [update_of_ne hne, hready.filled]
    · exact ⟨trace, h.goto hphase⟩
  | swapTail val n last => exact ⟨trace, h.swapTail ⟨.enq val, hphase⟩⟩
  | helpTail val n last next => exact ⟨trace, h.swapTail hphase⟩

theorem Linearized.deq {pc : DeqPc} (hshape : Shape s) (hpc : s.pcs t = .deq pc)
    (hrun : deq t s pc = some s') : ∃ trace', Linearized s' trace' := by
  have hphase := h.phase t
  have hplace := hshape.place t
  rw [hpc] at hphase hplace
  cases pc with
  | readHead | readTail =>
    cases hrun
    exact ⟨trace, h.goto hphase⟩
  | readNext first last =>
    cases hrun
    refine ⟨trace, h.goto ?_⟩
    cases hnext : (s.nodes first).next with
    | none =>
      refine ⟨hphase, Seen.now ?_⟩
      rw [h.queue]
      exact contents_of_last hshape hplace.1 hnext
    | some x => exact hphase
  | checkHead first last next =>
    cases hrun
    cases next with
    | none =>
      obtain ⟨hphase, hseen⟩ := hphase
      split
      · split
        · exact h.empty hphase hseen
        · exact ⟨trace, h.goto hphase⟩
      · exact ⟨trace, h.goto hphase⟩
    | some x =>
      split
      · split
        · exact ⟨trace, h.goto hphase⟩
        · exact ⟨trace, h.goto hphase⟩
      · exact ⟨trace, h.goto hphase⟩
  | helpTail last next =>
    cases hrun
    exact ⟨trace, h.swapTail hphase⟩
  | readValue first next =>
    obtain ⟨x, rfl, -⟩ := hplace
    cases hrun
    exact ⟨trace, h.goto hphase⟩
  | swapHead first next value =>
    obtain ⟨hlink, -, hvalue⟩ := hplace
    cases hrun
    split
    · next hhead =>
      have hcontents : contents s = (s.nodes next).value ::
          contents { s.goto t (.ret (.value value)) with head := next } :=
        contents_unlink hshape (hhead ▸ hlink) rfl rfl rfl
      refine ⟨_, h.effect (r := .deq) rfl ?_ rfl ⟨.deq, phaseOf_effect hphase⟩⟩
      rw [hcontents, hvalue]
      rfl
    · exact ⟨trace, h.goto hphase⟩

theorem Linearized.step {l : Label τ} (hshape : Shape s) (hstep : step s l = some s') :
    ∃ trace', Linearized s' trace' := by
  cases l with
  | call t operation =>
    simp only [LockFreeQueue.step] at hstep
    split at hstep
    · next hidle =>
      cases hstep
      have hphase := h.phase t
      rw [hidle] at hphase
      refine ⟨_, h.visible (e := .invoke t operation) rfl rfl rfl rfl rfl ?_⟩
      cases operation with
      | enq | deq => exact phaseOf_invoke hphase
    · cases hstep
  | run t =>
    simp only [LockFreeQueue.step] at hstep
    split at hstep
    · cases hstep
    · next pc hpc =>
      cases hstep
      exact h.enq hshape hpc
    · next pc hpc => exact h.deq hshape hpc hstep
    · next answer hpc =>
      cases hstep
      have hphase := h.phase t
      rw [hpc] at hphase
      obtain ⟨r, hphase⟩ := hphase
      exact ⟨_, h.visible (e := .respond t answer) rfl rfl rfl rfl rfl (phaseOf_respond hphase)⟩

end

/-! ### All runs -/

/-- A `deq` that returns 0 takes effect at a moment at which the queue satisfies `P`. -/
def ZeroOnlyIf (P : List ℕ → Prop) (trace : List (Event τ Operation Answer)) : Prop :=
  ∀ pre t post, trace = pre ++ .effect t .deq (.value 0) :: post → P (stateAfter fifo [] pre)

/-- The calls and returns are linearizable to a queue whose `deq` returns 0 only if `P`. -/
def LinearizableIf (P : List ℕ → Prop) (history : List (Event τ Operation Answer)) : Prop :=
  ∃ trace : List (Event τ Operation Answer), trace.filter Event.visible = history ∧
    (∀ t, (phaseOf t trace).isSome = true) ∧ Legal fifo [] trace ∧ ZeroOnlyIf P trace

/-- Following the links from `head` visits the nodes of `l` and ends. -/
def ListedFromHead (s : State τ) (l : List ℕ) : Prop :=
  Seg (fun p => p.bind (fun a => (s.nodes a).next)) (some s.head) (l.map some) none

structure WellLinked (s : State τ) : Prop where
  chain : ∃ l, ListedFromHead s l ∧ l.Nodup ∧ s.head ∈ l ∧ s.tail ∈ l
  read : ∀ t first next, s.pcs t = .deq (.readValue first next) → next ≠ none

omit [DecidableEq τ] in
theorem seg_drop (h : Shape s) (k i : ℕ) (hlength : i + k = s.linked.length) :
    Seg (fun p => p.bind (fun a => (s.nodes a).next)) s.linked[i]? ((s.linked.drop i).map some)
      none := by
  induction k generalizing i with
  | zero =>
    rw [drop_eq_nil_of_le (by omega), getElem?_eq_none (by omega)]
    rfl
  | succ k ih =>
    have hlt : i < s.linked.length := by omega
    have hnext : (s.nodes s.linked[i]).next = s.linked[i + 1]? := by
      rw [h.next _ (getElem_mem hlt), h.nodup.idxOf_getElem i hlt]
    rw [drop_eq_getElem_cons hlt, getElem?_eq_getElem hlt, map_cons]
    refine ⟨rfl, ?_⟩
    change Seg _ (s.nodes s.linked[i]).next _ none
    rw [hnext]
    exact ih (i + 1) (by omega)

omit [DecidableEq τ] in
theorem Shape.wellLinked (h : Shape s) : WellLinked s := by
  have hlt := idxOf_lt_length_of_mem h.order.1
  have hhead : s.linked[s.linked.idxOf s.head]? = some s.head := getElem?_idxOf h.order.1
  have hdrop : ∀ a ∈ s.linked, s.linked.idxOf s.head ≤ s.linked.idxOf a →
      a ∈ s.linked.drop (s.linked.idxOf s.head) := by
    intro a ha hle
    have hmem := ha
    rw [← take_append_drop (s.linked.idxOf s.head) s.linked] at hmem
    rcases mem_append.mp hmem with hmem | hmem
    · have := (mem_take_iff_idxOf_lt ha).mp hmem
      omega
    · exact hmem
  refine ⟨⟨s.linked.drop (s.linked.idxOf s.head), ?_, h.nodup.sublist (drop_sublist _ _),
    hdrop _ h.order.1 (Nat.le_refl _), hdrop _ h.order.2.1 h.order.2.2⟩, fun t first next hpc => ?_⟩
  · unfold ListedFromHead
    rw [← hhead]
    exact seg_drop h (s.linked.length - s.linked.idxOf s.head) _ (by omega)
  · have hplace := h.place t
    rw [hpc] at hplace
    obtain ⟨x, rfl, -⟩ := hplace
    exact some_ne_none x

theorem fifo_zero {queue : List ℕ} (h : (fifo queue .deq).1 = .value 0) :
    queue = [] ∨ queue.head? = some 0 := by
  cases queue with
  | nil => exact .inl rfl
  | cons v queue =>
    right
    cases h
    rfl

omit [DecidableEq τ] in
theorem zeroOnlyIf_of_legal (h : Legal fifo [] trace) :
    ZeroOnlyIf (fun queue => queue = [] ∨ queue.head? = some 0) trace := by
  rintro pre t post rfl
  apply fifo_zero
  exact h.answer

theorem Pc.PhaseAt.isSome (h : pc.PhaseAt trace t) : (phaseOf t trace).isSome = true := by
  apply isSome_iff_exists.mpr
  cases pc with
  | idle => exact ⟨_, h⟩
  | ret answer =>
    obtain ⟨r, h⟩ := h
    exact ⟨_, h⟩
  | enq pc => cases pc <;> exact ⟨_, h⟩
  | deq pc =>
    cases pc with
    | checkHead first last next =>
      cases next with
      | none => exact ⟨_, h.1⟩
      | some x => exact ⟨_, h⟩
    | readHead | readTail | readNext | helpTail | readValue | swapHead => exact ⟨_, h⟩

/-- In every interleaving the nodes form a chain that `tail` is on, no value is read through
NULL, and the calls and returns are linearizable. -/
theorem linearizable_of_reached (memory : ℕ → Node) (s : State τ)
    (h : Reached step (fun _ _ => True) (initial memory) s) :
    WellLinked s ∧ LinearizableIf (fun queue => queue = [] ∨ queue.head? = some 0) s.history := by
  obtain ⟨hshape, trace, hlin⟩ := h.invariant (I := fun s => Shape s ∧ ∃ trace, Linearized s trace)
    ⟨shape_initial memory, [], linearized_initial memory⟩
    (fun s l s' ⟨hshape, trace, hlin⟩ _ hstep => ⟨hshape.step hstep, hlin.step hshape hstep⟩)
  exact ⟨hshape.wellLinked, trace, hlin.history, fun t => (hlin.phase t).isSome, hlin.legal,
    zeroOnlyIf_of_legal hlin.legal⟩

/-- A `deq` that moves `tail` for an `enq` that has not done it yet. -/
def helpedEnq : List (Label Bool) :=
  .call true (.enq 5) :: turns [(8, .run true)] ++ .call false .deq ::
    turns [(12, .run false), (2, .run true)]

theorem linearizable_helpedEnq : ∃ s : State Bool,
    Reached step (fun _ _ => True) (initial (fun _ => ⟨9, some 9⟩)) s ∧
    s.history = [.invoke true (.enq 5), .invoke false .deq, .respond false (.value 5),
      .respond true .done] ∧
    WellLinked s ∧ LinearizableIf (fun queue => queue = [] ∨ queue.head? = some 0) s.history := by
  have hrun : (runSchedule (guarded step (fun _ _ => True))
      (initial (fun _ => ⟨9, some 9⟩) : State Bool) helpedEnq).map (fun s => s.history) =
      some [.invoke true (.enq 5), .invoke false .deq, .respond false (.value 5),
        .respond true .done] := by
    decide +kernel
  obtain ⟨s, hreached, hhistory⟩ := exists_of_runSchedule _ hrun
  exact ⟨s, hreached, hhistory, linearizable_of_reached _ s hreached⟩

/-! ### A queue that holds a 0 -/

def enqZero : List (Label Unit) :=
  .call () (.enq 0) :: turns [(10, .run ())] ++ .call () .deq :: turns [(7, .run ())]

def zeroHistory : List (Event Unit Operation Answer) :=
  [.invoke () (.enq 0), .respond () .done, .invoke () .deq, .respond () (.value 0)]

/-- The only trace with these calls and returns. -/
theorem trace_of_zeroHistory {trace : List (Event Unit Operation Answer)}
    (hvisible : trace.filter Event.visible = zeroHistory)
    (hphase : (phaseOf () trace).isSome = true) :
    trace = [.invoke () (.enq 0), .effect () (.enq 0) .done, .respond () .done, .invoke () .deq,
      .effect () .deq (.value 0), .respond () (.value 0)] := by
  obtain ⟨phase, hphase⟩ := isSome_iff_exists.mp hphase
  obtain ⟨finished, hfinished⟩ := cycles_of_phase hphase
  have hall : threadEvents () trace = trace := filter_eq_self.mpr (fun e _ => by simp)
  rw [hall] at hfinished
  rw [hfinished, zeroHistory] at hvisible
  rw [hfinished]
  rw [filter_append, filter_visible_cycles] at hvisible
  rcases finished with _ | ⟨⟨r₁, a₁⟩, _ | ⟨⟨r₂, a₂⟩, _ | ⟨c, rest⟩⟩⟩ <;> cases phase <;>
    cases hvisible
  rfl

theorem zero_of_nonempty_queue : ∃ s : State Unit,
    Reached step (fun _ _ => True) (initial (fun _ => ⟨0, none⟩)) s ∧ s.history = zeroHistory ∧
    ¬ LinearizableIf (fun queue => queue = []) s.history := by
  have hrun : (runSchedule (guarded step (fun _ _ => True))
      (initial (fun _ => ⟨0, none⟩) : State Unit) enqZero).map (fun s => s.history) =
      some zeroHistory := by
    decide +kernel
  obtain ⟨s, hreached, hhistory⟩ := exists_of_runSchedule _ hrun
  refine ⟨s, hreached, hhistory, ?_⟩
  rw [hhistory]
  rintro ⟨trace, hvisible, hphase, -, hzero⟩
  have htrace := trace_of_zeroHistory hvisible (hphase ())
  have hempty := hzero [.invoke () (.enq 0), .effect () (.enq 0) .done, .respond () .done,
    .invoke () .deq] () [.respond () (.value 0)] htrace
  cases hempty

end SmcSim.LockFreeQueue
