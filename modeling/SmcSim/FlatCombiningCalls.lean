import SmcSim.FlatCombiningList

/-!
# Every call is executed once

The request of a thread waits in its slot, is executed by the combiner, and its result waits in
the slot until the thread returns it. A combiner finds its own request on the list, so that
it is executed when the pass is over.
-/

namespace SmcSim.FlatCombining
open Linearizability Interleavings Function List Option

variable {τ : Type} [DecidableEq τ]

/-! ### Requests -/

section Requests

variable (s : State τ) (t : τ)

def Served : Prop :=
  (s.slots t).isRequestValid = false ∧
    ∃ r, phaseOf t s.trace = some (.effected r (s.slots t).retVal)

def Pending : Prop :=
  (s.slots t).isRequestValid = true ∧
    phaseOf t s.trace = some (.invoked ((s.slots t).operation, (s.slots t).parameter))

/-- The combiner has executed the request and has not yet stored `ret`. -/
def Executed (ret : ℤ) : Prop :=
  (s.slots t).isRequestValid = true ∧ ∃ r, phaseOf t s.trace = some (.effected r ret)

/-- The combiner has executed the request and has not yet cleared it. -/
def Finishing : Prop :=
  ∃ c, (∃ ret, s.pcs c = .combine (.setRetVal t ret)) ∨ s.pcs c = .combine (.clearValid t)

def Waiting : Prop :=
  Served s t ∨ Pending s t ∨ (s.slots t).isRequestValid = true ∧ Finishing s t

/-- `c` comes after `x` in the list. -/
def Behind (l : List τ) (x c : τ) : Prop := ∃ pre post, l = pre ++ x :: post ∧ c ∈ post

/-- The combiner `c` has served itself, or will come to its slot after `x`. -/
def OwnBehind (c x : τ) : Prop := Served s c ∨ Behind s.published x c

def OwnFrom (c x : τ) : Prop := c = x ∨ OwnBehind s c x

/-- What the combiner `c` knows about the request it has come to, and about its own. -/
def CombinePc.CallAt (c : τ) : CombinePc τ → Prop
  | .readTail => Served s c ∨ c ∈ s.published
  | .readValid _ curr => OwnFrom s c curr
  | .readOperation curr => Pending s curr ∧ OwnFrom s c curr
  | .readParameter curr op => Pending s curr ∧ OwnFrom s c curr ∧ op = (s.slots curr).operation
  | .clearRetVal curr op param | .execute curr op param => Pending s curr ∧ OwnFrom s c curr ∧
      (op, param) = ((s.slots curr).operation, (s.slots curr).parameter)
  | .setRetVal curr ret => Executed s curr ret ∧ OwnFrom s c curr
  | .clearValid curr => Executed s curr (s.slots curr).retVal ∧ OwnFrom s c curr
  | .readTimestamp curr | .setTimestamp curr _ | .readCount curr | .setCount curr _ | .advance curr
  | .readNow _ curr | .readAge _ curr _ | .readNext _ curr | .unlink _ curr _ => OwnBehind s c curr
  | .clearLinked prev _ | .readNextOfPrev prev => OwnBehind s c prev

def Pc.CallAt : Pc τ → Prop
  | .idle => (s.slots t).isRequestValid = false ∧ phaseOf t s.trace = some .quiet
  | .setOperation op param =>
      (s.slots t).isRequestValid = false ∧ phaseOf t s.trace = some (.invoked (op, param))
  | .setParameter op param =>
      (s.slots t).isRequestValid = false ∧ phaseOf t s.trace = some (.invoked (op, param)) ∧
        (s.slots t).operation = op
  | .setValid op param =>
      (s.slots t).isRequestValid = false ∧ phaseOf t s.trace = some (.invoked (op, param)) ∧
        (s.slots t).operation = op ∧ (s.slots t).parameter = param
  | .release | .readRetVal => Served s t
  | .combine pc => Waiting s t ∧ pc.CallAt s t
  | _ => Waiting s t

end Requests

def Calls (s : State τ) : Prop := ∀ t, (s.pcs t).CallAt s t

theorem calls_initial (timestamp : ℤ) : Calls (initial timestamp : State τ) :=
  fun _ => ⟨rfl, rfl⟩

/-! ### What steps keep -/

section Frames

variable {s s' : State τ} {t u c x curr : τ} {pc : Pc τ} {cp : CombinePc τ} {ret : ℤ}

structure SameRequest (s s' : State τ) (t : τ) : Prop where
  valid : (s'.slots t).isRequestValid = (s.slots t).isRequestValid
  operation : (s'.slots t).operation = (s.slots t).operation
  parameter : (s'.slots t).parameter = (s.slots t).parameter
  retVal : (s'.slots t).retVal = (s.slots t).retVal
  phase : phaseOf t s'.trace = phaseOf t s.trace

theorem Served.same (h : Served s t) (hsame : SameRequest s s' t) : Served s' t := by
  refine ⟨hsame.valid.trans h.1, ?_⟩
  rw [hsame.phase, hsame.retVal]
  exact h.2

theorem Pending.same (h : Pending s t) (hsame : SameRequest s s' t) : Pending s' t := by
  refine ⟨hsame.valid.trans h.1, ?_⟩
  rw [hsame.phase, hsame.operation, hsame.parameter]
  exact h.2

theorem Executed.same (h : Executed s t ret) (hsame : SameRequest s s' t) : Executed s' t ret := by
  refine ⟨hsame.valid.trans h.1, ?_⟩
  rw [hsame.phase]
  exact h.2

theorem Waiting.same (h : Waiting s t) (hsame : SameRequest s s' t)
    (hfinishing : Finishing s t → Finishing s' t) : Waiting s' t := by
  rcases h with h | h | ⟨hvalid, h⟩
  · exact .inl (h.same hsame)
  · exact .inr (.inl (h.same hsame))
  · exact .inr (.inr ⟨hsame.valid.trans hvalid, hfinishing h⟩)

theorem Waiting.served (h : Waiting s t) (hvalid : (s.slots t).isRequestValid = false) :
    Served s t := by
  rcases h with h | h | ⟨h, -⟩
  · exact h
  · rw [h.1] at hvalid
    cases hvalid
  · rw [h] at hvalid
    cases hvalid

def CombinePc.serves : CombinePc τ → Option τ
  | .readOperation curr | .readParameter curr _ | .clearRetVal curr _ _ | .execute curr _ _
  | .setRetVal curr _ | .clearValid curr => some curr
  | _ => none

theorem CombinePc.CallAt.valid (h : cp.CallAt s c) (hserves : cp.serves = some curr) :
    (s.slots curr).isRequestValid = true := by
  cases cp <;> cases hserves <;> exact h.1.1

theorem OwnBehind.same (h : OwnBehind s c x) (hsame : SameRequest s s' c)
    (hbehind : Behind s.published x c → Behind s'.published x c) : OwnBehind s' c x :=
  h.elim (fun h => .inl (h.same hsame)) (fun h => .inr (hbehind h))

theorem OwnFrom.same (h : OwnFrom s c x) (hsame : SameRequest s s' c)
    (hbehind : Behind s.published x c → Behind s'.published x c) : OwnFrom s' c x :=
  h.imp id (fun h => h.same hsame hbehind)

/-- What the combiner knows depends on its own request and on the one it serves. -/
theorem CombinePc.CallAt.same (h : cp.CallAt s c) (hown : SameRequest s s' c)
    (hcurr : ∀ curr, cp.serves = some curr → SameRequest s s' curr)
    (hmem : c ∈ s.published → c ∈ s'.published)
    (hbehind : ∀ x, Behind s.published x c → Behind s'.published x c) : cp.CallAt s' c := by
  cases cp with
  | readTail => exact h.imp (fun h => h.same hown) hmem
  | readValid prev curr => exact OwnFrom.same h hown (hbehind curr)
  | readOperation curr => exact ⟨h.1.same (hcurr curr rfl), h.2.same hown (hbehind curr)⟩
  | readParameter curr op =>
    exact ⟨h.1.same (hcurr curr rfl), h.2.1.same hown (hbehind curr),
      h.2.2.trans (hcurr curr rfl).operation.symm⟩
  | clearRetVal curr op param | execute curr op param =>
    refine ⟨h.1.same (hcurr curr rfl), h.2.1.same hown (hbehind curr), ?_⟩
    rw [(hcurr curr rfl).operation, (hcurr curr rfl).parameter]
    exact h.2.2
  | setRetVal curr ret => exact ⟨h.1.same (hcurr curr rfl), h.2.same hown (hbehind curr)⟩
  | clearValid curr =>
    refine ⟨?_, h.2.same hown (hbehind curr)⟩
    rw [(hcurr curr rfl).retVal]
    exact h.1.same (hcurr curr rfl)
  | readTimestamp | setTimestamp | readCount | setCount | advance | readNow | readAge | readNext
  | unlink | clearLinked | readNextOfPrev => exact OwnBehind.same h hown (hbehind _)

/-- What a thread that is not the combiner knows depends on its own request. -/
theorem Pc.CallAt.same (h : pc.CallAt s t) (hsame : SameRequest s s' t)
    (hfinishing : Finishing s t → Finishing s' t)
    (hcombine : ∀ cp, pc = .combine cp → cp.CallAt s t → cp.CallAt s' t) : pc.CallAt s' t := by
  cases pc with
  | idle | setOperation => exact ⟨hsame.valid.trans h.1, hsame.phase.trans h.2⟩
  | setParameter op param =>
    exact ⟨hsame.valid.trans h.1, hsame.phase.trans h.2.1, hsame.operation.trans h.2.2⟩
  | setValid op param =>
    exact ⟨hsame.valid.trans h.1, hsame.phase.trans h.2.1, hsame.operation.trans h.2.2.1,
      hsame.parameter.trans h.2.2.2⟩
  | release | readRetVal => exact Served.same h hsame
  | combine cp => exact ⟨h.1.same hsame hfinishing, hcombine cp rfl h.2⟩
  | checkLinked | checkValid | enqSlot | tryLock | lockedLinked | lockedValid | spinValid | spinLock
  | spinLinked | recheck => exact Waiting.same h hsame hfinishing

theorem Pc.CallAt.waiting (h : pc.CallAt s t) (hvalid : (s.slots t).isRequestValid = true) :
    Waiting s t ∧ ∀ s', Waiting s' t → (∀ cp, pc ≠ .combine cp) → pc.CallAt s' t := by
  have hnot : ¬ (s.slots t).isRequestValid = false := by
    rw [hvalid]
    exact Bool.noConfusion
  cases pc with
  | idle | setOperation op param | setParameter op param | setValid op param =>
    exact absurd h.1 hnot
  | release | readRetVal => exact absurd h.1 hnot
  | combine cp => exact ⟨h.1, fun s' _ hcp => absurd rfl (hcp cp)⟩
  | checkLinked | checkValid | enqSlot | tryLock | lockedLinked | lockedValid | spinValid | spinLock
  | spinLinked | recheck => exact ⟨h, fun s' h _ => h⟩

omit [DecidableEq τ] in
theorem Finishing.serves (h : Finishing s u) (hlock : Locked s) (hpc : s.pcs t = .combine cp) :
    cp.serves = some u := by
  obtain ⟨c, ⟨ret, hc⟩ | hc⟩ := h <;>
  · obtain rfl := hlock.not_combine hpc hc
    rw [hpc] at hc
    cases hc
    rfl

@[simp] def Pc.Finishes (pc : Pc τ) : Prop :=
  (∃ curr ret, pc = .combine (.setRetVal curr ret)) ∨ ∃ curr, pc = .combine (.clearValid curr)

omit [DecidableEq τ] in
theorem not_finishes (h : ∀ cp, pc ≠ .combine cp) : ¬ pc.Finishes := by
  rintro (⟨curr, ret, hpc⟩ | ⟨curr, hpc⟩) <;> exact h _ hpc

theorem Finishing.keep (h : Finishing s u) (hpcs : s'.pcs = update s.pcs t pc)
    (hpc : ¬ (s.pcs t).Finishes) : Finishing s' u := by
  obtain ⟨c, hc⟩ := h
  have hct : c ≠ t := by
    rintro rfl
    rcases hc with ⟨ret, hc⟩ | hc
    · exact hpc (.inl ⟨u, ret, hc⟩)
    · exact hpc (.inr ⟨u, hc⟩)
  refine ⟨c, ?_⟩
  rwa [hpcs, update_of_ne hct]

/-- A step that changes no request. -/
theorem Calls.keep (h : Calls s) (hsame : ∀ i, SameRequest s s' i)
    (hpcs : s'.pcs = update s.pcs t pc) (hfinishing : ∀ u, Finishing s u → Finishing s' u)
    (hcombine : ∀ u cp, u ≠ t → s.pcs u = .combine cp → cp.CallAt s u → cp.CallAt s' u)
    (hat : pc.CallAt s' t) : Calls s' := by
  rw [Calls, hpcs]
  exact (forall_update_iff s.pcs (fun u pc => pc.CallAt s' u)).mpr ⟨hat, fun u hu =>
    (h u).same (hsame u) (hfinishing u) (fun cp hcp => hcombine u cp hu hcp)⟩

/-- A step that changes no request and not the list. -/
theorem Calls.move (h : Calls s) (hsame : ∀ i, SameRequest s s' i)
    (hpublished : s'.published = s.published) (hpcs : s'.pcs = update s.pcs t pc)
    (hpc : ¬ (s.pcs t).Finishes) (hat : pc.CallAt s t) : Calls s' := by
  have hfinishing : ∀ u, Finishing s u → Finishing s' u := fun u hf => hf.keep hpcs hpc
  have hcombine : ∀ u (cp : CombinePc τ), cp.CallAt s u → cp.CallAt s' u := by
    intro u cp hcp
    exact hcp.same (hsame u) (fun curr _ => hsame curr) (hpublished ▸ id) (hpublished ▸ fun _ => id)
  exact h.keep hsame hpcs hfinishing (fun u cp _ _ => hcombine u cp)
    (hat.same (hsame t) (hfinishing t) (fun cp _ => hcombine t cp))

theorem Calls.own (h : Calls s) (hvalid : (s.slots t).isRequestValid = false)
    (hcp : ∀ cp, s.pcs t ≠ .combine cp) (hother : ∀ i, i ≠ t → SameRequest s s' i)
    (hpublished : s'.published = s.published) (hpcs : s'.pcs = update s.pcs t pc)
    (hat : pc.CallAt s' t) : Calls s' := by
  have hfinishing : ∀ u, Finishing s u → Finishing s' u :=
    fun u hf => hf.keep hpcs (not_finishes hcp)
  rw [Calls, hpcs]
  refine (forall_update_iff s.pcs (fun u pc => pc.CallAt s' u)).mpr ⟨hat, fun u hu =>
    (h u).same (hother u hu) (hfinishing u) (fun cp _ hcall => ?_)⟩
  refine hcall.same (hother u hu) (fun curr hserves => hother curr ?_) (hpublished ▸ id)
    (hpublished ▸ fun _ => id)
  rintro rfl
  cases hvalid.symm.trans (hcall.valid hserves)

theorem Calls.serve {cp' : CombinePc τ} (h : Calls s) (hlock : Locked s)
    (hpc : s.pcs t = .combine cp) (hserves : cp.serves = some curr)
    (hother : ∀ i, i ≠ curr → SameRequest s s' i)
    (hpcs : s'.pcs = update s.pcs t (.combine cp')) (hwaiting : Waiting s' curr)
    (hat : cp'.CallAt s' t) : Calls s' := by
  have hcall := h t
  rw [hpc] at hcall
  have hvalid := hcall.2.valid hserves
  have hfinishing : ∀ u, u ≠ curr → Finishing s u → Finishing s' u := by
    intro u hu hf
    have hu' := hf.serves hlock hpc
    rw [hserves] at hu'
    exact absurd (some.inj hu').symm hu
  rw [Calls, hpcs]
  refine (forall_update_iff s.pcs (fun u pc => pc.CallAt s' u)).mpr
    ⟨⟨?_, hat⟩, fun u hu => ?_⟩
  · by_cases htc : t = curr
    · rw [htc]
      exact hwaiting
    · exact hcall.1.same (hother t htc) (hfinishing t htc)
  · have hcp : ∀ cp, s.pcs u ≠ .combine cp := fun cp hcp => hu (hlock.not_combine hpc hcp)
    by_cases huc : u = curr
    · rw [huc] at hcp ⊢
      exact ((h curr).waiting hvalid).2 s' hwaiting hcp
    · exact (h u).same (hother u huc) (hfinishing u huc) (fun cp hcp' => absurd hcp' (hcp cp))

end Frames

/-! ### Steps -/

section Steps

variable {s s' : State τ} {t u c x curr : τ} {pc : Pc τ} {cp : CombinePc τ}

theorem sameRequest_setSlot (s : State τ) (u t : τ) {slot : SlotInfo τ} (pc : Pc τ)
    (hvalid : slot.isRequestValid = (s.slots u).isRequestValid)
    (hoperation : slot.operation = (s.slots u).operation)
    (hparameter : slot.parameter = (s.slots u).parameter) (hret : slot.retVal = (s.slots u).retVal)
    (i : τ) : SameRequest s ((s.setSlot u slot).goto t pc) i := by
  exact ⟨apply_update_of_eq s.slots _ hvalid i, apply_update_of_eq s.slots _ hoperation i,
    apply_update_of_eq s.slots _ hparameter i, apply_update_of_eq s.slots _ hret i, rfl⟩

theorem sameRequest_of_ne (s : State τ) (u t : τ) (slot : SlotInfo τ) (pc : Pc τ) {i : τ}
    (hi : i ≠ u) : SameRequest s ((s.setSlot u slot).goto t pc) i := by
  refine ⟨?_, ?_, ?_, ?_, rfl⟩ <;>
    rw [State.goto_slots, State.setSlot_slots, update_of_ne hi]

theorem setSlot_self (s : State τ) (t u : τ) (slot : SlotInfo τ) (pc : Pc τ) :
    ((s.setSlot u slot).goto t pc).slots u = slot := update_self _ _ _

omit [DecidableEq τ] in
theorem Behind.cons {l : List τ} (h : Behind l x c) : Behind (t :: l) x c := by
  obtain ⟨pre, post, rfl, hc⟩ := h
  exact ⟨t :: pre, post, rfl, hc⟩

theorem caller_callAt (caller : Caller) (hwaiting : Waiting s t) (hmem : t ∈ s.published) :
    (caller.pc : Pc τ).CallAt s t := by
  cases caller with
  | combine => exact ⟨hwaiting, .inr hmem⟩
  | tryLock | spin => exact hwaiting

theorem Calls.enqSlot {caller : Caller} {pc : EnqPc τ} (h : Calls s)
    (hpc : s.pcs t = .enqSlot pc caller) : Calls (enqSlot t caller s pc) := by
  have hwaiting : Waiting s t := by
    have hcall := h t
    rwa [hpc] at hcall
  have hnot : ¬ (s.pcs t).Finishes := by simp [hpc]
  cases pc with
  | setLinked | setTimestamp | setNext =>
    exact h.move (sameRequest_setSlot s t t _ rfl rfl rfl rfl) rfl rfl hnot hwaiting
  | readTimestamp | readTail =>
    exact h.move (fun _ => ⟨rfl, rfl, rfl, rfl, rfl⟩) rfl rfl hnot hwaiting
  | swapTail next =>
    simp only [FlatCombining.enqSlot]
    split
    · have hsame : ∀ i, SameRequest s { s.goto t caller.pc with
          tailSlot := some t, published := t :: s.published } i :=
            fun _ => ⟨rfl, rfl, rfl, rfl, rfl⟩
      have hfinishing : ∀ u, Finishing s u → Finishing { s.goto t caller.pc with
          tailSlot := some t, published := t :: s.published } u := fun u hf => hf.keep rfl hnot
      refine h.keep hsame rfl hfinishing (fun u cp _ _ hcp => ?_)
        (caller_callAt caller (hwaiting.same (hsame t) (hfinishing t)) mem_cons_self)
      exact hcp.same (hsame u) (fun curr _ => hsame curr) (mem_cons_of_mem t)
        (fun x hx => hx.cons)
    · exact h.move (fun _ => ⟨rfl, rfl, rfl, rfl, rfl⟩) rfl rfl hnot hwaiting

omit [DecidableEq τ] in
/-- What comes after a slot of a list without repetitions. -/
theorem Behind.mem {l pre post : List τ} (h : Behind l x c) (hnodup : l.Nodup)
    (hsplit : l = pre ++ x :: post) : c ∈ post := by
  obtain ⟨pre', post', hsplit', hc⟩ := h
  have hpost : post' = post := by
    rw [hsplit] at hnodup
    have heq : pre ++ x :: post = pre' ++ x :: post' := hsplit.symm.trans hsplit'
    have hx : x ∉ pre ∧ x ∉ post := by
      simp only [nodup_append, nodup_cons] at hnodup
      exact ⟨fun hmem => hnodup.2.2 x hmem x mem_cons_self rfl, hnodup.2.1.1⟩
    rcases append_eq_append_iff.mp heq with ⟨mid, hpre', hrest⟩ | ⟨mid, hpre, hrest⟩
    · cases mid with
      | nil => exact (List.cons.inj hrest).2.symm
      | cons y mid =>
        obtain ⟨rfl, hpost⟩ := List.cons.inj hrest
        rw [hpost] at hx
        simp at hx
    · cases mid with
      | nil => exact (List.cons.inj hrest).2
      | cons y mid =>
        obtain ⟨rfl, -⟩ := List.cons.inj hrest
        rw [hpre] at hx
        simp at hx
  rwa [← hpost]

/-- The combiner goes on to the next slot, or has served itself. -/
theorem OwnBehind.walkOn (h : OwnBehind s t x) (hpub : Published s) (hx : x ∈ s.published)
    (hwaiting : Waiting s t) : (walkOn x (s.slots x).nextSlot).CallAt s t := by
  obtain ⟨pre, post, hsplit⟩ := append_of_mem hx
  have hchain := hpub.chain
  rw [hsplit] at hchain
  rw [nextSlot_of_split hchain]
  have hcases : Served s t ∨ t ∈ post := h.imp id (fun h => h.mem hpub.nodup hsplit)
  cases post with
  | nil => exact hcases.resolve_right not_mem_nil
  | cons v post =>
    refine ⟨hwaiting, ?_⟩
    rcases hcases with hserved | hmem
    · exact .inr (.inl hserved)
    · rcases mem_cons.mp hmem with rfl | hmem
      · exact .inl rfl
      · refine .inr (.inr ⟨pre ++ [x], post, ?_, hmem⟩)
        rw [hsplit, append_assoc]
        rfl

/-- The combiner starts at the end of the list. -/
theorem own_of_tail (hpub : Published s) (htail : s.tailSlot = some curr)
    (h : Served s t ∨ t ∈ s.published) : OwnFrom s t curr := by
  rcases h with hserved | hmem
  · exact .inr (.inl hserved)
  · have hchain := hpub.chain
    cases hpublished : s.published with
    | nil =>
      rw [hpublished] at hmem
      cases hmem
    | cons v post =>
      rw [hpublished, htail] at hchain
      obtain ⟨rfl⟩ := hchain.1
      rw [hpublished] at hmem
      rcases mem_cons.mp hmem with rfl | hmem
      · exact .inl rfl
      · exact .inr (.inr ⟨[], post, hpublished, hmem⟩)

theorem OwnFrom.behind (h : OwnFrom s t curr) (hserved : t = curr → Served s t) :
    OwnBehind s t curr :=
  h.elim (fun h => .inl (hserved h)) id

/-- A request that the combiner has not come to is not being finished. -/
theorem Waiting.pending (h : Waiting s u) (hlock : Locked s) (hpc : s.pcs t = .combine cp)
    (hserves : cp.serves = none) (hvalid : (s.slots u).isRequestValid = true) : Pending s u := by
  rcases h with h | h | ⟨-, h⟩
  · rw [h.1] at hvalid
    cases hvalid
  · exact h
  · have hu := h.serves hlock hpc
    rw [hserves] at hu
    cases hu

section

variable (h : Calls s) (hlock : Locked s)
include h hlock

theorem Pending.clearRetVal {op : ℤ} {param : ℕ}
    (hpc : s.pcs t = .combine (.clearRetVal curr op param)) :
    Calls (flatCombine t s (.clearRetVal curr op param)) := by
  have hcall := h t
  rw [hpc] at hcall
  obtain ⟨-, hpending, hown, hrequest⟩ := hcall
  have hself := setSlot_self s t curr { s.slots curr with retVal := 0 }
    (.combine (.execute curr op param))
  have hnew : Pending (flatCombine t s (.clearRetVal curr op param)) curr := by
    refine ⟨(congrArg SlotInfo.isRequestValid hself).trans hpending.1, ?_⟩
    exact hpending.2.trans (by rw [flatCombine, hself])
  have hother : ∀ i, i ≠ curr → SameRequest s (flatCombine t s (.clearRetVal curr op param)) i :=
    fun i hi => sameRequest_of_ne s curr t _ _ hi
  refine h.serve hlock hpc rfl hother rfl (.inr (.inl hnew)) ⟨hnew, ?_, ?_⟩
  · by_cases htc : t = curr
    · exact .inl htc
    · exact hown.same (hother t htc) id
  · rw [flatCombine, hself]
    exact hrequest

/-- The combiner executes the request. -/
theorem Pending.execute {op : ℤ} {param : ℕ} (hpc : s.pcs t = .combine (.execute curr op param)) :
    Calls (flatCombine t s (.execute curr op param)) := by
  have hcall := h t
  rw [hpc] at hcall
  obtain ⟨-, hpending, hown, hrequest⟩ := hcall
  have hphase := hpending.2
  rw [← hrequest] at hphase
  have hnew : Executed (flatCombine t s (.execute curr op param)) curr
      (FlatCombining.execute s.queue (op, param)).1 :=
    ⟨hpending.1, (op, param), phaseOf_effect hphase⟩
  have hother : ∀ i, i ≠ curr → SameRequest s (flatCombine t s (.execute curr op param)) i :=
    fun i hi => ⟨rfl, rfl, rfl, rfl, phaseOf_append_other (Ne.symm hi)⟩
  have hfinishing : Finishing (flatCombine t s (.execute curr op param)) curr :=
    ⟨t, .inl ⟨(FlatCombining.execute s.queue (op, param)).1, update_self _ _ _⟩⟩
  refine h.serve hlock hpc rfl hother rfl (.inr (.inr ⟨hpending.1, hfinishing⟩)) ⟨hnew, ?_⟩
  by_cases htc : t = curr
  · exact .inl htc
  · exact hown.same (hother t htc) id

theorem Executed.setRetVal {ret : ℤ} (hpc : s.pcs t = .combine (.setRetVal curr ret)) :
    Calls (flatCombine t s (.setRetVal curr ret)) := by
  have hcall := h t
  rw [hpc] at hcall
  obtain ⟨-, hexecuted, hown⟩ := hcall
  have hself :=
    setSlot_self s t curr { s.slots curr with retVal := ret } (.combine (.clearValid curr))
  have hvalid : ((flatCombine t s (.setRetVal curr ret)).slots curr).isRequestValid = true :=
    (congrArg SlotInfo.isRequestValid hself).trans hexecuted.1
  have hother : ∀ i, i ≠ curr → SameRequest s (flatCombine t s (.setRetVal curr ret)) i :=
    fun i hi => sameRequest_of_ne s curr t _ _ hi
  refine h.serve hlock hpc rfl hother rfl (.inr (.inr ⟨hvalid, t, .inr ?_⟩)) ⟨⟨hvalid, ?_⟩, ?_⟩
  · exact update_self _ _ _
  · rw [flatCombine, hself]
    exact hexecuted.2
  · by_cases htc : t = curr
    · exact .inl htc
    · exact hown.same (hother t htc) id

/-- The result of the request is there. -/
theorem Executed.clearValid (hpc : s.pcs t = .combine (.clearValid curr)) :
    Calls (flatCombine t s (.clearValid curr)) := by
  have hcall := h t
  rw [hpc] at hcall
  obtain ⟨-, hexecuted, hown⟩ := hcall
  have hself := setSlot_self s t curr { s.slots curr with isRequestValid := false }
    (.combine (.readTimestamp curr))
  have hserved : Served (flatCombine t s (.clearValid curr)) curr := by
    refine ⟨congrArg SlotInfo.isRequestValid hself, ?_⟩
    rw [flatCombine, hself]
    exact hexecuted.2
  have hother : ∀ i, i ≠ curr → SameRequest s (flatCombine t s (.clearValid curr)) i :=
    fun i hi => sameRequest_of_ne s curr t _ _ hi
  refine h.serve hlock hpc rfl hother rfl (.inl hserved) ?_
  by_cases htc : t = curr
  · rw [htc]
    exact .inl hserved
  · exact (hown.same (hother t htc) id).behind (fun h => absurd h htc)

/-- The combiner takes a slot off the list that it has passed. -/
theorem Calls.unlink {prev : τ} {next : Option τ} (hpub : Published s)
    (hpc : s.pcs t = .combine (.unlink prev curr next)) :
    Calls (flatCombine t s (.unlink prev curr next)) := by
  obtain ⟨⟨pre, post, hsplit⟩, -⟩ : Adjacent s.published prev curr ∧ _ := by
    have hplace := hpub.place t
    rwa [hpc] at hplace
  have hcall := h t
  rw [hpc] at hcall
  obtain ⟨hwaiting, hown⟩ := hcall
  have hslots : ∀ i, SameRequest s ((s.setSlot prev { s.slots prev with nextSlot := next }).goto t
      (.combine (.clearLinked prev curr))) i := sameRequest_setSlot s prev t _ rfl rfl rfl rfl
  have hsame : ∀ i, SameRequest s (flatCombine t s (.unlink prev curr next)) i := fun i =>
    ⟨(hslots i).valid, (hslots i).operation, (hslots i).parameter, (hslots i).retVal, rfl⟩
  have hfinishing : ∀ u, Finishing s u → Finishing (flatCombine t s (.unlink prev curr next)) u :=
    fun u hf => hf.keep rfl (by simp [hpc])
  refine h.keep hsame rfl hfinishing (fun u cp hu hcp => absurd (hlock.not_combine hpc hcp) hu)
    ⟨hwaiting.same (hsame t) (hfinishing t), ?_⟩
  refine hown.imp (fun hserved => hserved.same (hsame t)) (fun hbehind => ?_)
  have hmem : t ∈ post := hbehind.mem hpub.nodup (hsplit.trans (append_cons pre prev _))
  refine ⟨pre, post, ?_, hmem⟩
  change s.published.erase curr = _
  rw [hsplit, erase_of_adjacent (hsplit ▸ hpub.nodup)]

theorem Calls.flatCombine (hpub : Published s) (hpc : s.pcs t = .combine cp) :
    Calls (flatCombine t s cp) := by
  have hplace := hpub.place t
  have hcall := h t
  rw [hpc] at hplace hcall
  obtain ⟨hwaiting, hcall⟩ := hcall
  have hgoto : ∀ pc, ¬ (s.pcs t).Finishes → pc.CallAt s t → Calls (s.goto t pc) := by
    intro pc hnot hat
    exact h.move (fun _ => ⟨rfl, rfl, rfl, rfl, rfl⟩) rfl rfl hnot hat
  cases cp with
  | clearRetVal curr op param => exact Pending.clearRetVal h hlock hpc
  | execute curr op param => exact Pending.execute h hlock hpc
  | setRetVal curr ret => exact Executed.setRetVal h hlock hpc
  | clearValid curr => exact Executed.clearValid h hlock hpc
  | unlink prev curr next => exact h.unlink hlock hpub hpc
  | readTail =>
    have hnot : ¬ (s.pcs t).Finishes := by simp [hpc]
    simp only [FlatCombining.flatCombine]
    split
    · next curr htail => exact hgoto _ hnot ⟨hwaiting, own_of_tail hpub htail hcall⟩
    · next htail =>
      refine hgoto _ hnot (hcall.resolve_right (fun hmem => ?_))
      have hchain := hpub.chain
      rw [htail] at hchain
      cases hpublished : s.published with
      | nil =>
        rw [hpublished] at hmem
        cases hmem
      | cons v post =>
        rw [hpublished] at hchain
        cases hchain.1
  | readValid prev curr =>
    have hnot : ¬ (s.pcs t).Finishes := by simp [hpc]
    simp only [FlatCombining.flatCombine]
    split
    · next hvalid =>
      refine hgoto _ hnot ⟨hwaiting, ?_, hcall⟩
      exact ((h curr).waiting hvalid).1.pending hlock hpc rfl hvalid
    · next hvalid =>
      have hbehind : OwnBehind s t curr := OwnFrom.behind hcall (fun htc => hwaiting.served
        (htc ▸ Bool.eq_false_iff.mpr hvalid))
      split <;> exact hgoto _ hnot ⟨hwaiting, hbehind⟩
  | readOperation curr =>
    exact hgoto _ (by simp [hpc]) ⟨hwaiting, hcall.1, hcall.2, rfl⟩
  | readParameter curr op =>
    refine hgoto _ (by simp [hpc]) ⟨hwaiting, hcall.1, hcall.2.1, ?_⟩
    rw [hcall.2.2]
  | readAge prev curr now =>
    simp only [FlatCombining.flatCombine]
    split <;> exact hgoto _ (by simp [hpc]) ⟨hwaiting, hcall⟩
  | readTimestamp curr | readCount curr | readNow prev curr | readNext prev curr =>
    exact hgoto _ (by simp [hpc]) ⟨hwaiting, hcall⟩
  | setCount curr timestamp =>
    exact h.move (fun _ => ⟨rfl, rfl, rfl, rfl, rfl⟩) rfl rfl (by simp [hpc])
      ⟨hwaiting, hcall⟩
  | setTimestamp curr timestamp | clearLinked prev curr =>
    exact h.move (sameRequest_setSlot s curr t _ rfl rfl rfl rfl) rfl rfl
      (by simp [hpc]) ⟨hwaiting, hcall⟩
  | readNextOfPrev prev | advance prev =>
    exact hgoto _ (by simp [hpc]) (OwnBehind.walkOn hcall hpub hplace hwaiting)

end

omit [DecidableEq τ] in
/-- The slot of the holder of the lock is on the list if its flag is set. -/
theorem Published.mem_of_linked (hpub : Published s) (hlock : Locked s)
    (hpc : s.pcs t = .lockedLinked) (hflag : (s.slots t).isSlotLinked = true) :
    t ∈ s.published := by
  by_contra hnot
  rcases hpub.outside t hflag hnot with henq | ⟨c, prev, hc⟩
  · rw [hpc] at henq
    exact henq
  · have hct : c = t := by
      apply hlock.unique c t
      · rw [hc]
        trivial
      · rw [hpc]
        trivial
    rw [hct, hpc] at hc
    cases hc

theorem Calls.run (h : Calls s) (hlock : Locked s) (hpub : Published s) (hrun : run t s = some s') :
    Calls s' := by
  have hcall := h t
  have hgoto : ∀ pc, (∀ cp, s.pcs t ≠ .combine cp) → pc.CallAt s t → Calls (s.goto t pc) := by
    intro pc hcp hat
    exact h.move (fun _ => ⟨rfl, rfl, rfl, rfl, rfl⟩) rfl rfl (not_finishes hcp) hat
  cases hpc : s.pcs t <;> rw [hpc] at hcall hgoto <;>
    simp only [FlatCombining.run, hpc, some.injEq, reduceCtorEq] at hrun
  case enqSlot pc caller =>
    subst hrun
    exact h.enqSlot hpc
  case combine cp =>
    subst hrun
    exact h.flatCombine hlock hpub hpc
  case setOperation op param =>
    subst hrun
    have hself := setSlot_self s t t { s.slots t with operation := op } (.setParameter op param)
    refine h.own hcall.1 (by simp [hpc]) (fun i hi => sameRequest_of_ne s t t _ _ hi) rfl rfl
      ⟨?_, hcall.2, ?_⟩
    · exact (congrArg SlotInfo.isRequestValid hself).trans hcall.1
    · exact congrArg SlotInfo.operation hself
  case setParameter op param =>
    subst hrun
    have hself := setSlot_self s t t { s.slots t with parameter := param } (.setValid op param)
    refine h.own hcall.1 (by simp [hpc]) (fun i hi => sameRequest_of_ne s t t _ _ hi) rfl rfl
      ⟨?_, hcall.2.1, ?_, ?_⟩
    · exact (congrArg SlotInfo.isRequestValid hself).trans hcall.1
    · exact (congrArg SlotInfo.operation hself).trans hcall.2.2
    · exact congrArg SlotInfo.parameter hself
  case setValid op param =>
    subst hrun
    have hself := setSlot_self s t t { s.slots t with isRequestValid := true } .checkLinked
    obtain ⟨hvalid, hphase, hop, hparam⟩ := hcall
    refine h.own hvalid (by simp [hpc]) (fun i hi => sameRequest_of_ne s t t _ _ hi) rfl rfl
      (.inr (.inl ⟨congrArg SlotInfo.isRequestValid hself, ?_⟩))
    rw [hself, hop, hparam]
    exact hphase
  case readRetVal =>
    subst hrun
    obtain ⟨hvalid, r, hphase⟩ := hcall
    exact h.own hvalid (by simp [hpc])
      (fun i hi => ⟨rfl, rfl, rfl, rfl, phaseOf_append_other (Ne.symm hi)⟩) rfl rfl
      ⟨hvalid, phaseOf_respond hphase⟩
  case release =>
    subst hrun
    exact h.move (fun _ => ⟨rfl, rfl, rfl, rfl, rfl⟩) rfl rfl (by simp [hpc]) hcall
  case tryLock =>
    split at hrun
    · subst hrun
      exact hgoto _ (by simp) hcall
    · subst hrun
      exact h.move (fun _ => ⟨rfl, rfl, rfl, rfl, rfl⟩) rfl rfl (by simp [hpc]) hcall
  case lockedLinked =>
    split at hrun
    · next hflag =>
      subst hrun
      exact hgoto _ (by simp) ⟨hcall, .inr (hpub.mem_of_linked hlock hpc hflag)⟩
    · subst hrun
      exact hgoto _ (by simp) hcall
  case lockedValid =>
    split at hrun
    · subst hrun
      exact hgoto _ (by simp) hcall
    · next hvalid =>
      subst hrun
      exact hgoto _ (by simp) ⟨hcall, .inl (Waiting.served hcall (Bool.eq_false_iff.mpr hvalid))⟩
  case recheck =>
    split at hrun
    · subst hrun
      exact hgoto _ (by simp) hcall
    · next hvalid =>
      subst hrun
      exact hgoto _ (by simp) (Waiting.served hcall (Bool.eq_false_iff.mpr hvalid))
  case checkLinked | checkValid | spinValid | spinLock | spinLinked =>
    split at hrun <;>
    · subst hrun
      exact hgoto _ (by simp) hcall

theorem Calls.step {l : Label τ} (h : Calls s) (hlock : Locked s) (hpub : Published s)
    (hstep : step s l = some s') : Calls s' := by
  cases l with
  | run t => exact h.run hlock hpub hstep
  | call t op param =>
    simp only [FlatCombining.step] at hstep
    split at hstep
    · next hidle =>
      cases hstep
      have hcall := h t
      rw [hidle] at hcall
      exact h.own hcall.1 (by simp [hidle])
        (fun i hi => ⟨rfl, rfl, rfl, rfl, phaseOf_append_other (Ne.symm hi)⟩) rfl rfl
        ⟨hcall.1, phaseOf_invoke hcall.2⟩
    · cases hstep

end Steps

/-! ### The queue -/

section Queue

variable {s s' : State τ} {t : τ}

/-- The queue is what the executed operations make of it, and they gave its answers. -/
def Sequential (s : State τ) : Prop :=
  Legal execute [] s.trace ∧ stateAfter execute [] s.trace = s.queue

omit [DecidableEq τ] in
theorem Sequential.keep (h : Sequential s) (htrace : s'.trace = s.trace)
    (hqueue : s'.queue = s.queue) : Sequential s' := by
  unfold Sequential
  rw [htrace, hqueue]
  exact h

omit [DecidableEq τ] in
theorem Sequential.visible {e : Event τ (ℤ × ℕ) ℤ} (h : Sequential s) (he : e.visible = true)
    (htrace : s'.trace = s.trace ++ [e]) (hqueue : s'.queue = s.queue) : Sequential s' := by
  unfold Sequential
  rw [htrace, hqueue, stateAfter_visible he]
  exact ⟨h.1.visible he, h.2⟩

theorem Sequential.flatCombine (h : Sequential s) (cp : CombinePc τ) :
    Sequential (flatCombine t s cp) := by
  cases cp with
  | execute curr op param =>
    refine ⟨h.1.effect ?_, ?_⟩
    · rw [h.2]
    · change stateAfter execute [] (s.trace ++ [_]) = _
      rw [stateAfter_effect, h.2]
      rfl
  | readTail | readAge =>
    simp only [FlatCombining.flatCombine]
    split <;> exact h.keep rfl rfl
  | readValid prev curr =>
    simp only [FlatCombining.flatCombine]
    split_ifs <;> exact h.keep rfl rfl
  | _ => exact h.keep rfl rfl

theorem Sequential.run (h : Sequential s) (hrun : run t s = some s') : Sequential s' := by
  cases hpc : s.pcs t <;> simp only [FlatCombining.run, hpc, some.injEq, reduceCtorEq] at hrun
  case enqSlot pc caller =>
    subst hrun
    cases pc <;> try exact h.keep rfl rfl
    simp only [enqSlot]
    split <;> exact h.keep rfl rfl
  case combine cp =>
    subst hrun
    exact h.flatCombine cp
  case readRetVal =>
    subst hrun
    exact h.visible rfl rfl rfl
  case setOperation | setParameter | setValid | release =>
    subst hrun
    exact h.keep rfl rfl
  all_goals
    split at hrun <;> subst hrun <;> exact h.keep rfl rfl

theorem Sequential.step {l : Label τ} (h : Sequential s) (hstep : step s l = some s') :
    Sequential s' := by
  cases l with
  | run t => exact h.run hstep
  | call t op param =>
    simp only [FlatCombining.step] at hstep
    split at hstep
    · cases hstep
      exact h.visible rfl rfl rfl
    · cases hstep

end Queue

end SmcSim.FlatCombining
