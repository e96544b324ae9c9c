import SmcSim.FlatCombining

/-!
# The lock and the publication list

At most one thread holds the lock, and only that thread changes links between slots that are
on the list. A slot is on the list once at most; it is on the list if its flag is set, unless
its owner is about to add it or the combiner has just taken it off.
-/

namespace SmcSim.FlatCombining
open ListSegments Interleavings Function List Option

variable {τ : Type}

/-! ### The lock -/

def Pc.Holds : Pc τ → Prop
  | .lockedLinked | .lockedValid | .enqSlot _ .combine | .combine _ | .release => True
  | _ => False

structure Locked (s : State τ) : Prop where
  held : ∀ t, (s.pcs t).Holds → s.combineCas = true
  holder : s.combineCas = true → ∃ t, (s.pcs t).Holds
  unique : ∀ t u, (s.pcs t).Holds → (s.pcs u).Holds → t = u

theorem locked_initial (timestamp : ℤ) : Locked (initial timestamp : State τ) where
  held _ h := h.elim
  holder h := by cases h
  unique _ _ h := h.elim

theorem holds_caller (pc : EnqPc τ) (caller : Caller) :
    (caller.pc : Pc τ).Holds ↔ (Pc.enqSlot pc caller).Holds := by
  cases caller <;> simp [Caller.pc, Pc.Holds]

theorem holds_enqSlot (pc pc' : EnqPc τ) (caller : Caller) :
    (Pc.enqSlot pc caller).Holds ↔ (Pc.enqSlot pc' caller).Holds := by
  cases caller <;> simp [Pc.Holds]

theorem holds_walkOn (prev : τ) (next : Option τ) : (walkOn prev next).Holds := by
  cases next <;> trivial

variable [DecidableEq τ] {s s' : State τ} {t u : τ} {pc : Pc τ}

/-- A step that neither takes nor releases the lock. -/
theorem Locked.keep (h : Locked s) (hcas : s'.combineCas = s.combineCas)
    (hpcs : s'.pcs = update s.pcs t pc) (hholds : pc.Holds ↔ (s.pcs t).Holds) :
    Locked s' := by
  have hsame : ∀ u, (s'.pcs u).Holds ↔ (s.pcs u).Holds := fun u =>
    iff_of_eq (hpcs ▸ apply_update_of_eq s.pcs Pc.Holds (propext hholds) u)
  refine ⟨fun u hu => ?_, fun hlocked => ?_, fun u v hu hv => ?_⟩
  · rw [hcas]
    exact h.held u ((hsame u).mp hu)
  · rw [hcas] at hlocked
    obtain ⟨u, hu⟩ := h.holder hlocked
    exact ⟨u, (hsame u).mpr hu⟩
  · exact h.unique u v ((hsame u).mp hu) ((hsame v).mp hv)

/-- What a thread in `enq_slot` does next, as far as the lock goes. -/
theorem enqSlot_holds (t : τ) (caller : Caller) (s : State τ) (pc : EnqPc τ) :
    (enqSlot t caller s pc).combineCas = s.combineCas ∧
      ∃ pc', (enqSlot t caller s pc).pcs = update s.pcs t pc' ∧
        (pc'.Holds ↔ (Pc.enqSlot pc caller).Holds) := by
  cases pc with
  | swapTail currTailSlot =>
    simp only [enqSlot]
    split
    · exact ⟨rfl, _, rfl, holds_caller _ _⟩
    · exact ⟨rfl, _, rfl, holds_enqSlot _ _ _⟩
  | setLinked | readTimestamp | setTimestamp | readTail | setNext =>
    exact ⟨rfl, _, rfl, holds_enqSlot _ _ _⟩

theorem flatCombine_holds (t : τ) (s : State τ) (pc : CombinePc τ) :
    (flatCombine t s pc).combineCas = s.combineCas ∧
      ∃ pc', (flatCombine t s pc).pcs = update s.pcs t pc' ∧ pc'.Holds := by
  cases pc with
  | readTail | readAge =>
    simp only [flatCombine]
    split <;> exact ⟨rfl, _, rfl, trivial⟩
  | readValid =>
    simp only [flatCombine]
    split_ifs <;> exact ⟨rfl, _, rfl, trivial⟩
  | readNextOfPrev | advance => exact ⟨rfl, _, rfl, holds_walkOn _ _⟩
  | readOperation | readParameter | clearRetVal | execute | setRetVal | clearValid | readTimestamp
  | setTimestamp | readCount | setCount | readNow | readNext | unlink | clearLinked =>
    exact ⟨rfl, _, rfl, trivial⟩

/-- The thread takes the lock when it is free. -/
theorem Locked.tryLock (h : Locked s) (hfree : s.combineCas = false) :
    Locked { s.goto t .lockedLinked with combineCas := true } := by
  have hnone : ∀ u, ¬ (s.pcs u).Holds := by
    intro u hu
    have := h.held u hu
    rw [hfree] at this
    cases this
  have hself : ∀ u, ((s.goto t .lockedLinked).pcs u).Holds → u = t := by
    intro u hu
    by_contra hne
    rw [State.goto_pcs, update_of_ne hne] at hu
    exact hnone u hu
  refine ⟨fun u _ => rfl, fun _ => ⟨t, ?_⟩, fun u v hu hv => (hself u hu).trans (hself v hv).symm⟩
  change (update s.pcs t _ t).Holds
  rw [update_self]
  trivial

theorem Locked.release (h : Locked s) (hpc : s.pcs t = .release) :
    Locked { s.goto t .readRetVal with combineCas := false } := by
  have hnone : ∀ u, ¬ ((s.goto t .readRetVal).pcs u).Holds := by
    intro u hu
    by_cases hut : u = t
    · subst hut
      rw [State.goto_pcs, update_self] at hu
      exact hu
    · rw [State.goto_pcs, update_of_ne hut] at hu
      exact hut (h.unique u t hu (by rw [hpc]; trivial))
  exact ⟨fun u hu => (hnone u hu).elim, fun hlocked => (by cases hlocked),
    fun u v hu => (hnone u hu).elim⟩

theorem Locked.run (h : Locked s) (hrun : run t s = some s') : Locked s' := by
  have hsame : ∀ pc, ¬ (s.pcs t).Holds → ¬ pc.Holds → Locked (s.goto t pc) := by
    intro pc hold hnew
    exact h.keep rfl rfl (iff_of_false hnew hold)
  cases hpc : s.pcs t <;> simp only [FlatCombining.run, hpc, some.injEq, reduceCtorEq] at hrun
  case enqSlot pc caller =>
    subst hrun
    obtain ⟨hcas, pc', hpcs, hholds⟩ := enqSlot_holds t caller s pc
    exact h.keep hcas hpcs (hpc ▸ hholds)
  case combine pc =>
    subst hrun
    obtain ⟨hcas, pc', hpcs, hholds⟩ := flatCombine_holds t s pc
    exact h.keep hcas hpcs (hpc ▸ iff_of_true hholds trivial)
  case tryLock =>
    split at hrun
    · subst hrun
      exact hsame _ (hpc ▸ id) id
    · next hfree =>
      subst hrun
      exact h.tryLock (by simpa using hfree)
  case release =>
    subst hrun
    exact h.release hpc
  case lockedLinked | lockedValid =>
    split at hrun <;>
    · subst hrun
      exact h.keep rfl rfl (hpc ▸ iff_of_true trivial trivial)
  case checkLinked | checkValid | spinValid | spinLock | spinLinked | recheck =>
    split at hrun <;>
    · subst hrun
      exact hsame _ (hpc ▸ id) id
  case setOperation | setParameter | setValid | readRetVal =>
    subst hrun
    exact h.keep rfl rfl (hpc ▸ iff_of_false id id)

theorem Locked.step {l : Label τ} (h : Locked s) (hstep : step s l = some s') : Locked s' := by
  cases l with
  | run t => exact h.run hstep
  | call t op param =>
    simp only [FlatCombining.step] at hstep
    split at hstep
    · next hidle => exact some.inj hstep ▸ h.keep rfl rfl (hidle ▸ iff_of_false id id)
    · cases hstep

/-! ### The list -/

section Lists

omit [DecidableEq τ]

/-- Following `next_slot`. -/
def succ (slots : τ → SlotInfo τ) (p : Option τ) : Option τ := p.bind (fun t => (slots t).nextSlot)

def Adjacent (l : List τ) (prev curr : τ) : Prop := ∃ pre post, l = pre ++ prev :: curr :: post

/-- The owner has set the flag of its slot and has not yet added the slot to the list. -/
def Pc.Enqueuing : Pc τ → Prop
  | .enqSlot .setLinked _ => False
  | .enqSlot _ _ => True
  | _ => False

variable (slots : τ → SlotInfo τ) (published : List τ)

def CombinePc.At : CombinePc τ → Prop
  | .readTail => True
  | .readValid prev curr => prev = curr ∧ curr ∈ published ∨ Adjacent published prev curr
  | .readOperation curr | .readParameter curr _ | .clearRetVal curr _ _ | .execute curr _ _
  | .setRetVal curr _ | .clearValid curr | .readTimestamp curr | .setTimestamp curr _
  | .readCount curr | .setCount curr _ | .advance curr => curr ∈ published
  | .readNow prev curr | .readAge prev curr _ | .readNext prev curr => Adjacent published prev curr
  | .unlink prev curr next => Adjacent published prev curr ∧ (slots curr).nextSlot = next
  | .clearLinked prev curr => prev ∈ published ∧ curr ∉ published ∧ (slots curr).isSlotLinked = true
  | .readNextOfPrev prev => prev ∈ published

def Pc.At (t : τ) : Pc τ → Prop
  | .checkValid | .lockedValid | .enqSlot .setLinked _ => (slots t).isSlotLinked = false
  | .enqSlot (.swapTail currTailSlot) _ =>
      t ∉ published ∧ (slots t).isSlotLinked = true ∧ (slots t).nextSlot = currTailSlot
  | .enqSlot _ _ => t ∉ published ∧ (slots t).isSlotLinked = true
  | .combine pc => pc.At slots published
  | _ => True

structure Published (s : State τ) : Prop where
  chain : Seg (succ s.slots) s.tailSlot (s.published.map some) none
  nodup : s.published.Nodup
  linked : ∀ t ∈ s.published, (s.slots t).isSlotLinked = true
  outside : ∀ t, (s.slots t).isSlotLinked = true → t ∉ s.published →
    (s.pcs t).Enqueuing ∨ ∃ c prev, s.pcs c = .combine (.clearLinked prev t)
  place : ∀ t, (s.pcs t).At s.slots s.published t
  apart : ∀ c prev t, s.pcs c = .combine (.clearLinked prev t) → ¬ (s.pcs t).Enqueuing

theorem published_initial (timestamp : ℤ) : Published (initial timestamp : State τ) where
  chain := rfl
  nodup := nodup_nil
  linked t ht := absurd ht not_mem_nil
  outside t ht := by cases ht
  place t := trivial
  apart c prev t h := by cases h

variable {slots published} {c prev curr : τ}

theorem Adjacent.right_mem (h : Adjacent published prev curr) : curr ∈ published := by
  obtain ⟨pre, post, rfl⟩ := h
  simp

theorem nextSlot_of_split {tail : Option τ} {pre post : List τ}
    (h : Seg (succ slots) tail ((pre ++ t :: post).map some) none) :
    (slots t).nextSlot = post.head? := by
  rw [map_append, seg_append] at h
  obtain ⟨m, -, -, hpost⟩ := h
  cases post with
  | nil => exact hpost
  | cons u post => exact hpost.1

theorem Pc.Enqueuing.at_of (h : pc.Enqueuing) (hat : pc.At slots published t) :
    t ∉ published ∧ (slots t).isSlotLinked = true := by
  cases pc with
  | enqSlot pc caller =>
    cases pc with
    | setLinked => exact h.elim
    | swapTail currTailSlot => exact ⟨hat.1, hat.2.1⟩
    | readTimestamp | setTimestamp | readTail | setNext => exact hat
  | _ => exact h.elim

theorem Published.not_mem (h : Published s) (ht : (s.slots t).isSlotLinked = false) :
    t ∉ s.published := by
  intro hmem
  have hlinked := h.linked t hmem
  rw [ht] at hlinked
  cases hlinked

theorem Published.not_clearing (h : Published s) (ht : (s.slots t).isSlotLinked = false)
    (c prev : τ) : s.pcs c ≠ .combine (.clearLinked prev t) := by
  intro hc
  have hplace := h.place c
  rw [hc] at hplace
  have hlinked : (s.slots t).isSlotLinked = true := hplace.2.2
  rw [ht] at hlinked
  cases hlinked

theorem succ_congr {slots slots' : τ → SlotInfo τ} {l : List τ}
    (h : ∀ i ∈ l, (slots' i).nextSlot = (slots i).nextSlot) :
    ∀ p ∈ l.map some, succ slots' p = succ slots p := by
  intro p hp
  obtain ⟨i, hi, rfl⟩ := List.mem_map.mp hp
  exact h i hi

theorem caller_not_enqueuing (caller : Caller) : ¬ (caller.pc : Pc τ).Enqueuing := by
  cases caller <;> exact id

theorem caller_at (caller : Caller) (slots : τ → SlotInfo τ) (published : List τ) :
    (caller.pc : Pc τ).At slots published t := by
  cases caller <;> trivial

/-- Only the combiner is in `flat_combine`. -/
theorem Locked.not_combine (hlock : Locked s) {cp cp' : CombinePc τ} (hpc : s.pcs t = .combine cp)
    (hu : s.pcs u = .combine cp') : u = t := by
  apply hlock.unique u t
  · rw [hu]
    trivial
  · rw [hpc]
    trivial

theorem Published.at_walkOn (h : Published s) (ht : u ∈ s.published) :
    Pc.At s.slots s.published t (walkOn u (s.slots u).nextSlot) := by
  obtain ⟨pre, post, hsplit⟩ := append_of_mem ht
  have hchain := h.chain
  rw [hsplit] at hchain
  rw [nextSlot_of_split hchain]
  cases post with
  | nil => trivial
  | cons v post => exact .inr ⟨pre, post, hsplit⟩

theorem walkOn_not_enqueuing (prev : τ) (next : Option τ) : ¬ (walkOn prev next).Enqueuing := by
  cases next <;> exact id

theorem walkOn_ne (prev : τ) (next : Option τ) (prev' u : τ) :
    walkOn prev next ≠ .combine (.clearLinked prev' u) := by
  cases next <;> exact fun hcp => by cases hcp

variable {slots' : τ → SlotInfo τ} {published' : List τ} {cp : CombinePc τ}

/-- The combiner knows as much when flags of other slots are set, and when links change of
slots that are not on the list. -/
theorem CombinePc.At.mono (h : cp.At slots published)
    (hnext : ∀ i ∈ published, (slots' i).nextSlot = (slots i).nextSlot)
    (hlinked : ∀ i, (slots i).isSlotLinked = true → (slots' i).isSlotLinked = true) :
    cp.At slots' published := by
  cases cp with
  | unlink prev curr next => exact ⟨h.1, (hnext curr h.1.right_mem).trans h.2⟩
  | clearLinked prev curr => exact ⟨h.1, h.2.1, hlinked curr h.2.2⟩
  | _ => exact h

theorem Adjacent.push (h : Adjacent published prev curr) : Adjacent (t :: published) prev curr := by
  obtain ⟨pre, post, rfl⟩ := h
  exact ⟨t :: pre, post, rfl⟩

/-- Slots are added in front of those that the combiner walks along. -/
theorem CombinePc.At.push (h : cp.At slots published) (ht : ∀ prev, cp ≠ .clearLinked prev t) :
    cp.At slots (t :: published) := by
  cases cp with
  | readTail => trivial
  | readValid prev curr =>
    rcases h with ⟨rfl, hmem⟩ | hadj
    · exact .inl ⟨rfl, mem_cons_of_mem t hmem⟩
    · exact .inr hadj.push
  | unlink prev curr next => exact ⟨h.1.push, h.2⟩
  | clearLinked prev curr =>
    refine ⟨mem_cons_of_mem t h.1, fun hmem => ?_, h.2.2⟩
    rcases mem_cons.mp hmem with rfl | hmem
    · exact ht prev rfl
    · exact h.2.1 hmem
  | readNow | readAge | readNext => exact Adjacent.push h
  | readOperation | readParameter | clearRetVal | execute | setRetVal | clearValid | readTimestamp
  | setTimestamp | readCount | setCount | advance | readNextOfPrev =>
    exact mem_cons_of_mem t h

/-- What a thread knows does not depend on the slots of others, unless it is the combiner. -/
theorem Pc.At.frame (h : pc.At slots published u)
    (hlinked : (slots' u).isSlotLinked = (slots u).isSlotLinked)
    (hnext : u ∉ published → (slots' u).nextSlot = (slots u).nextSlot ∧ u ∉ published')
    (hcombine : ∀ cp, pc = .combine cp → cp.At slots' published') :
    pc.At slots' published' u := by
  cases pc with
  | checkValid | lockedValid => exact hlinked.trans h
  | enqSlot pc caller =>
    cases pc with
    | setLinked => exact hlinked.trans h
    | swapTail currTailSlot =>
      exact ⟨(hnext h.1).2, hlinked.trans h.2.1, (hnext h.1).1.trans h.2.2⟩
    | readTimestamp | setTimestamp | readTail | setNext => exact ⟨(hnext h.1).2, hlinked.trans h.2⟩
  | combine cp => exact hcombine cp rfl
  | _ => trivial

theorem Pc.at_of_clear (henq : ¬ pc.Enqueuing)
    (hcombine : ∀ cp, pc ≠ .combine cp) (hclear : (slots' u).isSlotLinked = false) :
    pc.At slots' published' u := by
  cases pc with
  | checkValid | lockedValid => exact hclear
  | enqSlot pc caller =>
    cases pc with
    | setLinked => exact hclear
    | readTimestamp | setTimestamp | readTail | setNext | swapTail => exact absurd trivial henq
  | combine cp => exact absurd rfl (hcombine cp)
  | _ => trivial

end Lists

variable {caller : Caller} {prev curr : τ} {next : Option τ}

/-- A thread at `pc` is not about to clear a flag. -/
@[simp] abbrev Pc.Spares (pc : Pc τ) : Prop := ∀ prev u, pc ≠ .combine (.clearLinked prev u)

section

variable (h : Published s)
include h

/-- A step of a thread that is not about to clear a flag, neither before nor after it. -/
theorem Published.of_step (hpcs : s'.pcs = update s.pcs t pc) (hold : (s.pcs t).Spares)
    (hnew : pc.Spares)
    (hchain : Seg (succ s'.slots) s'.tailSlot (s'.published.map some) none)
    (hnodup : s'.published.Nodup) (hlinked : ∀ u ∈ s'.published, (s'.slots u).isSlotLinked = true)
    (hother : ∀ u, u ≠ t → (s'.slots u).isSlotLinked = (s.slots u).isSlotLinked ∧
      (s'.slots u).nextSlot = (s.slots u).nextSlot ∧ (u ∈ s'.published ↔ u ∈ s.published))
    (hat : pc.At s'.slots s'.published t)
    (hcombine : ∀ u cp, s.pcs u = .combine cp → cp.At s'.slots s'.published)
    (hout : (s'.slots t).isSlotLinked = true → t ∉ s'.published →
      pc.Enqueuing ∨ ∃ c prev, s.pcs c = .combine (.clearLinked prev t))
    (henq : pc.Enqueuing → ∀ c prev, s.pcs c ≠ .combine (.clearLinked prev t)) : Published s' := by
  have hclear : ∀ c prev u, s'.pcs c = .combine (.clearLinked prev u) ↔
      s.pcs c = .combine (.clearLinked prev u) := by
    intro c prev u
    rw [hpcs]
    exact iff_of_eq (apply_update_of_eq s.pcs (· = .combine (.clearLinked prev u))
      (propext (iff_of_false (hnew prev u) (hold prev u))) c)
  refine ⟨hchain, hnodup, hlinked, ?_, ?_, ?_⟩
  · simp only [hclear]
    rw [hpcs]
    exact (forall_update_iff s.pcs (fun u pc => (s'.slots u).isSlotLinked = true →
      u ∉ s'.published → pc.Enqueuing ∨ ∃ c prev, s.pcs c = .combine (.clearLinked prev u))).mpr
      ⟨hout, fun u hu hflag hnot =>
        h.outside u ((hother u hu).1 ▸ hflag) (fun hmem => hnot ((hother u hu).2.2.mpr hmem))⟩
  · rw [hpcs]
    exact (forall_update_iff s.pcs (fun u pc => pc.At s'.slots s'.published u)).mpr
      ⟨hat, fun u hu => (h.place u).frame (hother u hu).1 (fun hnot => ⟨(hother u hu).2.1,
        fun hmem => hnot ((hother u hu).2.2.mp hmem)⟩) (hcombine u)⟩
  · intro c prev
    simp only [hclear]
    rw [hpcs]
    exact (forall_update_iff s.pcs (fun u pc =>
      s.pcs c = .combine (.clearLinked prev u) → ¬ pc.Enqueuing)).mpr
      ⟨fun hc hpc => henq hpc c prev hc, fun u _ => h.apart c prev u⟩

theorem Published.own (hother : ∀ i, i ≠ t → (s'.slots i).isSlotLinked = (s.slots i).isSlotLinked ∧
      (s'.slots i).nextSlot = (s.slots i).nextSlot)
    (hset : (s.slots t).isSlotLinked = true → (s'.slots t).isSlotLinked = true)
    (hnext : t ∈ s.published → (s'.slots t).nextSlot = (s.slots t).nextSlot)
    (htail : s'.tailSlot = s.tailSlot) (hpublished : s'.published = s.published)
    (hpcs : s'.pcs = update s.pcs t pc) (hat : pc.At s'.slots s.published t)
    (hout : (s'.slots t).isSlotLinked = true → t ∉ s.published →
      pc.Enqueuing ∨ ∃ c prev, s.pcs c = .combine (.clearLinked prev t))
    (henq : pc.Enqueuing → ∀ c prev, s.pcs c ≠ .combine (.clearLinked prev t))
    (hold : (s.pcs t).Spares) (hnew : pc.Spares) : Published s' := by
  have hnextAll : ∀ i ∈ s.published, (s'.slots i).nextSlot = (s.slots i).nextSlot := by
    intro i hi
    by_cases hit : i = t
    · subst hit
      exact hnext hi
    · exact (hother i hit).2
  have hlinked : ∀ i, (s.slots i).isSlotLinked = true → (s'.slots i).isSlotLinked = true := by
    intro i hi
    by_cases hit : i = t
    · subst hit
      exact hset hi
    · exact (hother i hit).1.trans hi
  refine h.of_step hpcs hold hnew ?_ (hpublished ▸ h.nodup)
    (fun u hu => hlinked u (h.linked u (hpublished ▸ hu)))
    (fun u hu => ⟨(hother u hu).1, (hother u hu).2, by rw [hpublished]⟩) (hpublished ▸ hat)
    (fun u cp hcp => ?_) (hpublished ▸ hout) henq
  · rw [htail, hpublished]
    exact h.chain.congr (succ_congr hnextAll)
  · have hplace := h.place u
    rw [hcp] at hplace
    exact hpublished ▸ CombinePc.At.mono hplace hnextAll hlinked

/-- A step that changes neither links nor flags. -/
theorem Published.keep (hsame : ∀ i, (s'.slots i).isSlotLinked = (s.slots i).isSlotLinked ∧
      (s'.slots i).nextSlot = (s.slots i).nextSlot) (htail : s'.tailSlot = s.tailSlot)
    (hpublished : s'.published = s.published) (hpcs : s'.pcs = update s.pcs t pc)
    (hat : pc.At s.slots s.published t) (henq : pc.Enqueuing ↔ (s.pcs t).Enqueuing)
    (hold : (s.pcs t).Spares) (hnew : pc.Spares) : Published s' := by
  refine h.own (fun i _ => hsame i) (fun hset => (hsame t).1.trans hset)
    (fun _ => (hsame t).2) htail
    hpublished hpcs ?_ (fun hset hnot => ?_) (fun hpc c prev hc => ?_) hold hnew
  · refine hat.frame (hsame t).1 (fun hnot => ⟨(hsame t).2, hnot⟩) (fun cp hcp => ?_)
    rw [hcp] at hat
    exact CombinePc.At.mono hat (fun i _ => (hsame i).2) (fun i hi => (hsame i).1.trans hi)
  · rw [henq]
    exact h.outside t ((hsame t).1.symm.trans hset) hnot
  · exact h.apart c prev t hc (henq.mp hpc)

theorem Published.setLinked (hpc : s.pcs t = .enqSlot .setLinked caller) :
    Published ((s.setSlot t { s.slots t with isSlotLinked := true }).goto t
      (.enqSlot .readTimestamp caller)) := by
  have hflag : (s.slots t).isSlotLinked = false := by
    have hplace := h.place t
    rwa [hpc] at hplace
  have hself : update s.slots t { s.slots t with isSlotLinked := true } t =
      { s.slots t with isSlotLinked := true } := update_self _ _ _
  refine h.own (fun i hi => ?_) (fun _ => ?_) (fun _ => ?_) rfl rfl rfl ⟨h.not_mem hflag, ?_⟩
    (fun _ _ => .inl trivial) (fun _ c prev => h.not_clearing hflag c prev)
    (fun prev u hcp => ?_) (fun prev u hcp => ?_)
  · rw [State.goto_slots, State.setSlot_slots, update_of_ne hi]
    exact ⟨rfl, rfl⟩
  · exact congrArg SlotInfo.isSlotLinked hself
  · exact (congrArg SlotInfo.nextSlot hself).trans rfl
  · exact congrArg SlotInfo.isSlotLinked hself
  · rw [hpc] at hcp
    cases hcp
  · cases hcp

theorem Published.setNext (hpc : s.pcs t = .enqSlot (.setNext next) caller) :
    Published ((s.setSlot t { s.slots t with nextSlot := next }).goto t
      (.enqSlot (.swapTail next) caller)) := by
  obtain ⟨hnot, hflag⟩ : t ∉ s.published ∧ (s.slots t).isSlotLinked = true := by
    have hplace := h.place t
    rwa [hpc] at hplace
  have hself : update s.slots t { s.slots t with nextSlot := next } t =
      { s.slots t with nextSlot := next } := update_self _ _ _
  have hlinked : (update s.slots t { s.slots t with nextSlot := next } t).isSlotLinked =
      true := (congrArg SlotInfo.isSlotLinked hself).trans hflag
  refine h.own (fun i hi => ?_) (fun _ => hlinked) (fun hmem => absurd hmem hnot) rfl rfl rfl
    ⟨hnot, hlinked, congrArg SlotInfo.nextSlot hself⟩ (fun _ _ => .inl trivial)
    (fun _ c prev hc => h.apart c prev t hc (by rw [hpc]; trivial)) (fun prev u hcp => ?_)
    (fun prev u hcp => ?_)
  · rw [State.goto_slots, State.setSlot_slots, update_of_ne hi]
    exact ⟨rfl, rfl⟩
  · rw [hpc] at hcp
    cases hcp
  · cases hcp

/-- A slot is added to the list. -/
theorem Published.push (hpc : s.pcs t = .enqSlot (.swapTail next) caller)
    (htail : s.tailSlot = next) :
    Published { s.goto t caller.pc with tailSlot := some t, published := t :: s.published } := by
  obtain ⟨hnot, hflag, hnext⟩ : t ∉ s.published ∧ (s.slots t).isSlotLinked = true ∧
      (s.slots t).nextSlot = next := by
    have hplace := h.place t
    rwa [hpc] at hplace
  refine h.of_step rfl (by simp [hpc]) (by cases caller <;> simp [Caller.pc]) ⟨rfl, ?_⟩
    (nodup_cons.mpr ⟨hnot, h.nodup⟩) (fun u hu => ?_) (fun u hu => ⟨rfl, rfl, by simp [hu]⟩)
    (caller_at caller _ _) (fun u cp hcp => ?_) (fun _ hout => absurd mem_cons_self hout)
    (fun henq => absurd henq (caller_not_enqueuing caller))
  · change Seg (succ s.slots) (s.slots t).nextSlot _ none
    rw [hnext, ← htail]
    exact h.chain
  · rcases mem_cons.mp hu with rfl | hu
    · exact hflag
    · exact h.linked u hu
  · have hplace := h.place u
    rw [hcp] at hplace
    refine CombinePc.At.push hplace (fun prev hprev => h.apart u prev t (hprev ▸ hcp) ?_)
    rw [hpc]
    trivial

end

theorem erase_of_adjacent {pre post : List τ} (h : (pre ++ prev :: curr :: post).Nodup) :
    (pre ++ prev :: curr :: post).erase curr = pre ++ prev :: post := by
  have hne : prev ≠ curr := by
    rintro rfl
    simp [nodup_append] at h
  have hpre : curr ∉ pre := by
    intro hmem
    exact (nodup_append.mp h).2.2 curr hmem curr (by simp) rfl
  rw [erase_append_right _ hpre, erase_cons_tail (by simpa using hne), erase_cons_head]

/-- A step of the combiner within `flat_combine`: no other thread is there. -/
theorem Locked.published_of_combine {cp cp' : CombinePc τ} (hlock : Locked s)
    (hpc : s.pcs t = .combine cp) (hpcs : s'.pcs = update s.pcs t (.combine cp'))
    (hchain : Seg (succ s'.slots) s'.tailSlot (s'.published.map some) none)
    (hnodup : s'.published.Nodup) (hlinked : ∀ u ∈ s'.published, (s'.slots u).isSlotLinked = true)
    (hout : ∀ u, (s'.slots u).isSlotLinked = true → u ∉ s'.published →
      (s.pcs u).Enqueuing ∨ ∃ prev, cp' = .clearLinked prev u)
    (hat : cp'.At s'.slots s'.published)
    (hothers : ∀ u, (∀ cp, s.pcs u ≠ .combine cp) → (s.pcs u).At s'.slots s'.published u)
    (hapart : ∀ prev u, cp' = .clearLinked prev u → ¬ (s.pcs u).Enqueuing) : Published s' := by
  have hself : s'.pcs t = .combine cp' := by rw [hpcs, update_self]
  have hother : ∀ u, u ≠ t → s'.pcs u = s.pcs u := fun u hu => by rw [hpcs, update_of_ne hu]
  have hcombine : ∀ u cp, u ≠ t → s.pcs u ≠ .combine cp :=
    fun u cp hu hcp => hu (hlock.not_combine hpc hcp)
  have henq : ∀ u, (s'.pcs u).Enqueuing ↔ (s.pcs u).Enqueuing := by
    intro u
    by_cases hut : u = t
    · rw [hut, hself, hpc]
      exact .rfl
    · rw [hother u hut]
  refine ⟨hchain, hnodup, hlinked, fun u hflag hnot => ?_, fun u => ?_, fun c prev u hc => ?_⟩
  · rw [henq]
    exact (hout u hflag hnot).imp_right (fun ⟨prev, hcp⟩ => ⟨t, prev, hcp ▸ hself⟩)
  · by_cases hut : u = t
    · rw [hut, hself]
      exact hat
    · rw [hother u hut]
      exact hothers u (fun cp => hcombine u cp hut)
  · rw [henq]
    by_cases hct : c = t
    · rw [hct, hself] at hc
      exact hapart prev u (Pc.combine.inj hc)
    · exact absurd ((hother c hct).symm.trans hc) (hcombine c _ hct)

/-- The combiner takes a slot off the list. -/
theorem Published.unlink (h : Published s) (hlock : Locked s)
    (hpc : s.pcs t = .combine (.unlink prev curr next)) :
    Published { (s.setSlot prev { s.slots prev with nextSlot := next }).goto t
      (.combine (.clearLinked prev curr)) with published := s.published.erase curr } := by
  obtain ⟨⟨pre, post, hsplit⟩, hnext⟩ : Adjacent s.published prev curr ∧
      (s.slots curr).nextSlot = next := by
    have hplace := h.place t
    rwa [hpc] at hplace
  have hnodup := h.nodup
  rw [hsplit] at hnodup
  have herase : s.published.erase curr = pre ++ prev :: post := by
    rw [hsplit, erase_of_adjacent hnodup]
  have hprev : prev ∉ pre ∧ prev ∉ post := by
    simp only [nodup_append, nodup_cons, mem_cons, not_or] at hnodup
    exact ⟨fun hmem => hnodup.2.2 prev hmem prev (.inl rfl) rfl, hnodup.2.1.1.2⟩
  have hmem : prev ∈ s.published ∧ curr ∈ s.published := by simp [hsplit]
  have hsame : ∀ i, i ≠ prev → update s.slots prev { s.slots prev with nextSlot := next } i =
      s.slots i := fun i hi => update_of_ne hi _ _
  have hlinked : ∀ i, (update s.slots prev
      { s.slots prev with nextSlot := next } i).isSlotLinked = (s.slots i).isSlotLinked :=
    apply_update_of_eq s.slots SlotInfo.isSlotLinked rfl
  refine hlock.published_of_combine hpc rfl ?_ (h.nodup.erase curr)
    (fun u hu => (hlinked u).trans (h.linked u (mem_of_mem_erase hu))) (fun u hu hout => ?_)
    ⟨by simp [herase], h.nodup.not_mem_erase, (hlinked curr).trans (h.linked curr hmem.2)⟩
    (fun u hcombine => ?_) (fun prev' u hcp henq => ?_)
  · have hchain := h.chain
    rw [hsplit, map_append, map_cons, map_cons] at hchain
    change Seg (succ _) _ ((s.published.erase curr).map some) none
    rw [herase, map_append, map_cons]
    refine hchain.unlink (succ_congr (fun i hi => ?_)) ?_ (succ_congr (fun i hi => ?_))
    · exact congrArg _ (hsame i (fun hip => hprev.1 (hip ▸ hi)))
    · exact (congrArg SlotInfo.nextSlot (update_self prev _ s.slots)).trans hnext.symm
    · exact congrArg _ (hsame i (fun hip => hprev.2 (hip ▸ hi)))
  · by_cases huc : u = curr
    · exact .inr ⟨prev, by rw [huc]⟩
    · have hnot : u ∉ s.published := fun hmem => hout ((mem_erase_of_ne huc).mpr hmem)
      refine (h.outside u ((hlinked u).symm.trans hu) hnot).imp_right (fun ⟨c, prev', hc⟩ => ?_)
      rw [hlock.not_combine hpc hc, hpc] at hc
      cases hc
  · refine (h.place u).frame (hlinked u)
      (fun hnot => ⟨?_, fun hmem => hnot (mem_of_mem_erase hmem)⟩)
      (fun cp hcp => absurd hcp (hcombine cp))
    exact congrArg _ (hsame u (fun hup => hnot (hup ▸ hmem.1)))
  · cases hcp
    exact (henq.at_of (h.place curr)).1 hmem.2

/-- The combiner clears the flag of a slot that it has taken off the list. -/
theorem Published.clearLinked (h : Published s) (hlock : Locked s)
    (hpc : s.pcs t = .combine (.clearLinked prev curr)) :
    Published ((s.setSlot curr { s.slots curr with isSlotLinked := false }).goto t
      (.combine (.readNextOfPrev prev))) := by
  obtain ⟨hprev, hnot, hflag⟩ : prev ∈ s.published ∧ curr ∉ s.published ∧
      (s.slots curr).isSlotLinked = true := by
    have hplace := h.place t
    rwa [hpc] at hplace
  have hsame : ∀ i, i ≠ curr → update s.slots curr
      { s.slots curr with isSlotLinked := false } i = s.slots i :=
    fun i hi => update_of_ne hi _ _
  have hself : (update s.slots curr
      { s.slots curr with isSlotLinked := false } curr).isSlotLinked = false :=
    congrArg SlotInfo.isSlotLinked (update_self curr _ s.slots)
  have hnext : ∀ i, (update s.slots curr
      { s.slots curr with isSlotLinked := false } i).nextSlot = (s.slots i).nextSlot :=
    apply_update_of_eq s.slots SlotInfo.nextSlot rfl
  refine hlock.published_of_combine hpc rfl
    (h.chain.congr (succ_congr (fun i _ => hnext i))) h.nodup
    (fun u hu => ?_) (fun u hu hout => ?_) hprev (fun u hcombine => ?_) nofun
  · have huc : u ≠ curr := fun huc => hnot (huc ▸ hu)
    exact (congrArg SlotInfo.isSlotLinked (hsame u huc)).trans (h.linked u hu)
  · have huc : u ≠ curr := by
      rintro rfl
      cases hself.symm.trans hu
    have hset := (congrArg SlotInfo.isSlotLinked (hsame u huc)).symm.trans hu
    refine .inl ((h.outside u hset hout).resolve_right (fun ⟨c, prev', hc⟩ => ?_))
    rw [hlock.not_combine hpc hc, hpc] at hc
    cases hc
    exact huc rfl
  · by_cases huc : u = curr
    · subst huc
      exact Pc.at_of_clear (h.apart t prev u hpc) hcombine hself
    · exact (h.place u).frame (congrArg _ (hsame u huc)) (fun hnot => ⟨hnext u, hnot⟩)
        (fun cp hcp => absurd hcp (hcombine cp))

/-! ### Runs -/

/-- A step that changes a slot, but neither its link nor its flag. -/
theorem setSlot_same (s : State τ) (t : τ) {slot : SlotInfo τ}
    (hlinked : slot.isSlotLinked = (s.slots t).isSlotLinked)
    (hnext : slot.nextSlot = (s.slots t).nextSlot) (i : τ) :
    ((s.setSlot t slot).slots i).isSlotLinked = (s.slots i).isSlotLinked ∧
      ((s.setSlot t slot).slots i).nextSlot = (s.slots i).nextSlot := by
  exact ⟨apply_update_of_eq s.slots SlotInfo.isSlotLinked hlinked i,
    apply_update_of_eq s.slots SlotInfo.nextSlot hnext i⟩

section

variable (h : Published s)
include h

theorem Published.goto (hat : pc.At s.slots s.published t)
    (henq : pc.Enqueuing ↔ (s.pcs t).Enqueuing)
    (hold : (s.pcs t).Spares) (hnew : pc.Spares) : Published (s.goto t pc) :=
  h.keep (fun _ => ⟨rfl, rfl⟩) rfl rfl rfl hat henq hold hnew

theorem Published.enqSlot {pc : EnqPc τ} (hpc : s.pcs t = .enqSlot pc caller) :
    Published (enqSlot t caller s pc) := by
  have hplace := h.place t
  rw [hpc] at hplace
  have hold : (s.pcs t).Spares := by simp [hpc]
  cases pc with
  | setLinked => exact h.setLinked hpc
  | readTimestamp | readTail => exact h.goto hplace (hpc ▸ .rfl) hold nofun
  | setTimestamp timestamp =>
    exact h.keep (setSlot_same s t rfl rfl) rfl rfl rfl hplace (hpc ▸ .rfl) hold nofun
  | setNext next => exact h.setNext hpc
  | swapTail next =>
    simp only [FlatCombining.enqSlot]
    split
    · next htail => exact h.push hpc htail
    · exact h.goto ⟨hplace.1, hplace.2.1⟩ (hpc ▸ .rfl) hold nofun

theorem Published.flatCombine {cp : CombinePc τ} (hlock : Locked s) (hpc : s.pcs t = .combine cp) :
    Published (flatCombine t s cp) := by
  have hplace := h.place t
  rw [hpc] at hplace
  have hsame : ∀ cp' : CombinePc τ, (Pc.combine cp').Enqueuing ↔ (s.pcs t).Enqueuing := by
    intro cp'
    rw [hpc]
    exact .rfl
  have hmove : ∀ next prev, (walkOn prev next : Pc τ).Enqueuing ↔ (s.pcs t).Enqueuing := by
    intro next prev
    rw [hpc]
    exact iff_of_false (walkOn_not_enqueuing prev next) id
  cases cp with
  | unlink prev curr next => exact h.unlink hlock hpc
  | clearLinked prev curr => exact h.clearLinked hlock hpc
  | readTail =>
    have hold : (s.pcs t).Spares := by simp [hpc]
    simp only [FlatCombining.flatCombine]
    split
    · next curr htail =>
      have hchain := h.chain
      refine h.goto (.inl ⟨rfl, ?_⟩) (hsame _) hold (walkOn_ne _ _)
      cases hpub : s.published with
      | nil =>
        rw [hpub, htail] at hchain
        cases hchain
      | cons v post =>
        rw [hpub, htail] at hchain
        obtain ⟨rfl⟩ := hchain.1
        exact mem_cons_self
    · exact h.goto trivial (hmove none t) hold (walkOn_ne t none)
  | readValid prev curr =>
    have hold : (s.pcs t).Spares := by simp [hpc]
    have hmem : curr ∈ s.published := by
      rcases hplace with ⟨-, hmem⟩ | hadj
      · exact hmem
      · exact hadj.right_mem
    simp only [FlatCombining.flatCombine]
    split
    · exact h.goto hmem (hsame _) hold (by simp)
    split
    · next hne =>
      refine h.goto ?_ (hsame _) hold (by simp)
      rcases hplace with ⟨rfl, -⟩ | hadj
      · exact absurd rfl hne
      · exact hadj
    · exact h.goto hmem (hsame _) hold (by simp)
  | readAge prev curr now =>
    have hold : (s.pcs t).Spares := by simp [hpc]
    simp only [FlatCombining.flatCombine]
    split
    · exact h.goto hplace (hsame _) hold (by simp)
    · exact h.goto (Adjacent.right_mem hplace) (hsame _) hold (by simp)
  | readOperation curr | readParameter curr op | execute curr op param | readTimestamp curr
  | readCount curr | setCount curr timestamp | readNow prev curr =>
    exact h.keep (fun _ => ⟨rfl, rfl⟩) rfl rfl rfl hplace (hsame _) (by simp [hpc]) (by simp)
  | readNext prev curr =>
    exact h.goto ⟨hplace, rfl⟩ (hsame _) (by simp [hpc]) (by simp)
  | clearRetVal curr op param | setRetVal curr ret | clearValid curr
  | setTimestamp curr timestamp =>
    exact h.keep (setSlot_same s curr rfl rfl) rfl rfl rfl hplace (hsame _) (by simp [hpc])
      (by simp)
  | readNextOfPrev | advance =>
    exact h.goto (h.at_walkOn hplace) (hmove _ _) (by simp [hpc]) (walkOn_ne _ _)

theorem Published.run (hlock : Locked s) (hrun : run t s = some s') : Published s' := by
  have hplace := h.place t
  have hgoto : ∀ pc, ¬ (s.pcs t).Enqueuing → (∀ cp, s.pcs t ≠ .combine cp) →
      pc.At s.slots s.published t →
      ¬ pc.Enqueuing → pc.Spares → Published (s.goto t pc) := by
    intro pc hold hcp hat hnew hne
    exact h.goto hat (iff_of_false hnew hold) (fun prev u => hcp _) hne
  cases hpc : s.pcs t <;> rw [hpc] at hplace hgoto <;>
    simp only [FlatCombining.run, hpc, some.injEq, reduceCtorEq] at hrun
  case enqSlot pc caller =>
    subst hrun
    exact h.enqSlot hpc
  case combine cp =>
    subst hrun
    exact h.flatCombine hlock hpc
  case checkLinked | lockedLinked | spinLinked =>
    split at hrun
    · subst hrun
      exact hgoto _ id (by simp) trivial id (by simp)
    · next hflag =>
      subst hrun
      exact hgoto _ id (by simp) (Bool.eq_false_iff.mpr hflag) id (by simp)
  case checkValid | lockedValid =>
    split at hrun
    · subst hrun
      exact hgoto _ id (by simp) hplace id (by simp)
    · subst hrun
      exact hgoto _ id (by simp) trivial id (by simp)
  case tryLock =>
    split at hrun
    · subst hrun
      exact hgoto _ id (by simp) trivial id (by simp)
    · subst hrun
      exact h.keep (fun _ => ⟨rfl, rfl⟩) rfl rfl rfl trivial (hpc ▸ .rfl) (by simp [hpc]) (by simp)
  case spinValid | spinLock | recheck =>
    split at hrun <;>
    · subst hrun
      exact hgoto _ id (by simp) trivial id (by simp)
  case release | readRetVal =>
    subst hrun
    exact h.keep (fun _ => ⟨rfl, rfl⟩) rfl rfl rfl trivial (hpc ▸ .rfl) (by simp [hpc]) (by simp)
  case setOperation | setParameter | setValid =>
    subst hrun
    exact h.keep (setSlot_same s t rfl rfl) rfl rfl rfl trivial (hpc ▸ .rfl) (by simp [hpc])
      (by simp)

theorem Published.step {l : Label τ} (hlock : Locked s) (hstep : step s l = some s') :
    Published s' := by
  cases l with
  | run t => exact h.run hlock hstep
  | call t op param =>
    simp only [FlatCombining.step] at hstep
    split at hstep
    · next hidle =>
      cases hstep
      exact h.keep (fun _ => ⟨rfl, rfl⟩) rfl rfl rfl trivial (hidle ▸ .rfl) (by simp [hidle])
        (by simp)
    · cases hstep

end

end SmcSim.FlatCombining
