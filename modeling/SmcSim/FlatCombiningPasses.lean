import SmcSim.FlatCombiningList

/-!
# Passes over the publication list

The loop of `flat_combine` and its siblings in the other flat-combining headers, which differ only
in what they do with a request. It visits the slots from `tail_slot` on: a request is executed and
answered, and a slot that has not been used for long is unlinked. So the object gets the requests
that are found, in the order of the list, and each slot gets the answer to its own.
-/

namespace SmcSim.FlatCombining
open ListSegments RequestServers Function List Option

/-! ### The loop -/

/-- `prev_slot` and `curr_slot` are given as long as `curr_slot` is not NULL. -/
structure Walk (τ : Type) where
  slots : τ → SlotInfo τ
  operationTimestamp : ℤ
  position : Option (τ × τ)

variable {τ σ : Type} [DecidableEq τ]

namespace Walk

def answer (w : Walk τ) (curr : τ) (ret : ℤ) : Walk τ :=
  { w with
    slots := update w.slots curr { w.slots curr with
      retVal := ret
      isRequestValid := false
      opTimestamp := w.operationTimestamp }
    operationTimestamp := w.operationTimestamp + 1 }

def unlink (w : Walk τ) (prev curr : τ) : Walk τ :=
  let slots := update w.slots prev
    { w.slots prev with nextSlot := (w.slots curr).nextSlot }
  { w with slots := update slots curr { slots curr with isSlotLinked := false } }

def behind (w : Walk τ) (prev : τ) : Walk τ :=
  { w with position := (w.slots prev).nextSlot.map (fun curr => (prev, curr)) }

def visit (execute : ℤ × ℕ → σ → Option (ℤ × σ)) (w : Walk τ) (object : σ) (prev curr : τ) :
    Option (Walk τ × σ) :=
  if (w.slots curr).isRequestValid then
    (execute ((w.slots curr).operation, (w.slots curr).parameter) object).map
      (fun answer => ((w.answer curr answer.1).behind curr, answer.2))
  else if curr ≠ prev ∧ w.operationTimestamp - (w.slots curr).opTimestamp > unusedSlotThreshold then
    some ((w.unlink prev curr).behind prev, object)
  else some (w.behind curr, object)

end Walk

variable {w : Walk τ} {prev curr t : τ}

theorem Walk.unlink_other (hprev : t ≠ prev) (hcurr : t ≠ curr) :
    (w.unlink prev curr).slots t = w.slots t := by
  change update (update w.slots prev _) curr _ t = w.slots t
  rw [update_of_ne hcurr, update_of_ne hprev]

theorem Walk.unlink_prev (hne : prev ≠ curr) :
    (w.unlink prev curr).slots prev =
      { w.slots prev with nextSlot := (w.slots curr).nextSlot } := by
  change update (update w.slots prev _) curr _ prev = _
  rw [update_of_ne hne, update_self]

theorem Walk.unlink_curr (hne : prev ≠ curr) :
    (w.unlink prev curr).slots curr = { w.slots curr with isSlotLinked := false } := by
  change update (update w.slots prev _) curr _ curr = _
  rw [update_self, update_of_ne hne.symm]

/-- The iterations until `curr_slot` is NULL. -/
def combine (execute : ℤ × ℕ → σ → Option (ℤ × σ)) : ℕ → Walk τ → σ → Option (Walk τ × σ)
  | 0, _, _ => none
  | fuel + 1, w, object =>
      match w.position with
      | none => some (w, object)
      | some (prev, curr) =>
          (w.visit execute object prev curr).bind (fun next => combine execute fuel next.1 next.2)

/-! ### What it does -/

def pending (slots : τ → SlotInfo τ) (l : List τ) : List τ :=
  l.filter (fun t => (slots t).isRequestValid)

def requests (slots : τ → SlotInfo τ) (l : List τ) : List (ℤ × ℕ) :=
  (pending slots l).map (fun t => ((slots t).operation, (slots t).parameter))

structure Visited (slots slots' : τ → SlotInfo τ) (curr : τ) : Prop where
  others : ∀ t, t ≠ curr → slots' t = slots t
  next : (slots' curr).nextSlot = (slots curr).nextSlot
  served : (slots' curr).isRequestValid = false
  idle : (slots curr).isRequestValid = false → (slots' curr).retVal = (slots curr).retVal

/-- The slots after the loop has gone through a list behind `prev`. -/
structure Passed (slots slots' : τ → SlotInfo τ) (prev : τ) (l : List τ) (answers : List ℤ) :
    Prop where
  answered : (pending slots l).map (fun t => (slots' t).retVal) = answers
  served : ∀ t ∈ l, (slots' t).isRequestValid = false
  idle : ∀ t ∈ l, (slots t).isRequestValid = false → (slots' t).retVal = (slots t).retVal
  before : slots' prev = { slots prev with nextSlot := (slots' prev).nextSlot }
  others : ∀ t, t ≠ prev → t ∉ l → slots' t = slots t
  /-- The slots that stay in the list. -/
  linked : ∃ kept : List τ, kept.Sublist l ∧
    Seg (succ slots') (slots' prev).nextSlot (kept.map some) none ∧
    ∀ t ∈ l, t ∉ kept → (slots' t).isSlotLinked = false

section Passes

variable {execute : ℤ × ℕ → σ → Option (ℤ × σ)} {slots slots' slots₁ : τ → SlotInfo τ} {l : List τ}
  {answers answers' : List ℤ} {object object' : σ}

section

omit [DecidableEq τ]

theorem pending_congr (h : ∀ t ∈ l, slots₁ t = slots t) : pending slots₁ l = pending slots l :=
  filter_congr (fun t ht => by rw [h t ht])

theorem requests_congr (h : ∀ t ∈ l, slots₁ t = slots t) :
    requests slots₁ l = requests slots l := by
  rw [requests, requests, pending_congr h]
  exact map_congr_left (fun t ht => by rw [h t (mem_of_mem_filter ht)])

theorem pending_cons_of_valid (h : (slots curr).isRequestValid = true) :
    pending slots (curr :: l) = curr :: pending slots l := filter_cons_of_pos h

theorem pending_cons_of_idle (h : (slots curr).isRequestValid = false) :
    pending slots (curr :: l) = pending slots l :=
  filter_cons_of_neg (by rw [h]; exact Bool.false_ne_true)

theorem Visited.mem (h : Visited slots slots₁ curr) (hcurr : curr ∉ l) :
    ∀ t ∈ l, slots₁ t = slots t :=
  fun t ht => h.others t (fun heq => hcurr (heq ▸ ht))

theorem Visited.seg (h : Visited slots slots₁ curr) (hcurr : curr ∉ l)
    (hseg : Seg (succ slots) (slots curr).nextSlot (l.map some) none) :
    Seg (succ slots₁) (slots₁ curr).nextSlot (l.map some) none := by
  rw [h.next]
  exact hseg.congr (succ_congr (fun t ht => congrArg SlotInfo.nextSlot (h.mem hcurr t ht)))

theorem passed_nil (h : (slots prev).nextSlot = none) : Passed slots slots prev [] [] where
  answered := rfl
  served _ ht := absurd ht not_mem_nil
  idle _ ht := absurd ht not_mem_nil
  before := rfl
  others _ _ _ := rfl
  linked := ⟨[], .slnil, h, forall_mem_nil _⟩

/-- The slot behind `prev` stays in the list, and the loop goes on behind it. -/
theorem Passed.stay (h : Passed slots₁ slots' curr l answers) (hnodup : (prev :: curr :: l).Nodup)
    (hvisited : Visited slots slots₁ curr) (hnext : (slots prev).nextSlot = some curr)
    (hanswers : (pending slots (curr :: l)).map (fun t => (slots' t).retVal) = answers') :
    Passed slots slots' prev (curr :: l) answers' := by
  obtain ⟨hprev, hcurr⟩ := nodup_cons.mp hnodup
  obtain ⟨hcurr, -⟩ := nodup_cons.mp hcurr
  have hne : prev ≠ curr := fun heq => hprev (heq ▸ mem_cons_self)
  have hkept : slots' prev = slots prev := by
    rw [h.others prev hne (fun hmem => hprev (mem_cons_of_mem _ hmem)), hvisited.others prev hne]
  obtain ⟨kept, hsub, hseg, hgone⟩ := h.linked
  refine ⟨hanswers, ?_, ?_, ?_, ?_, ?_⟩
  · intro t ht
    rcases mem_cons.mp ht with rfl | ht
    · rw [h.before]
      exact hvisited.served
    · exact h.served t ht
  · intro t ht hvalid
    rcases mem_cons.mp ht with rfl | ht
    · rw [h.before]
      exact hvisited.idle hvalid
    · have heq := hvisited.mem hcurr t ht
      rw [h.idle t ht (heq ▸ hvalid), heq]
  · rw [hkept]
  · intro t htprev ht
    have htcurr : t ≠ curr := fun heq => ht (heq ▸ mem_cons_self)
    rw [h.others t htcurr (fun hmem => ht (mem_cons_of_mem _ hmem)), hvisited.others t htcurr]
  · refine ⟨curr :: kept, hsub.cons_cons curr, ?_, ?_⟩
    · rw [hkept, hnext]
      exact ⟨rfl, hseg⟩
    · intro t ht hnot
      rcases mem_cons.mp ht with rfl | ht
      · exact absurd mem_cons_self hnot
      · exact hgone t ht (fun hmem => hnot (mem_cons_of_mem _ hmem))

end

theorem Passed.unlink (h : Passed (w.unlink prev curr).slots slots' prev l answers)
    (hnodup : (prev :: curr :: l).Nodup) (hidle : (w.slots curr).isRequestValid = false) :
    Passed w.slots slots' prev (curr :: l) answers := by
  obtain ⟨hprev, hcurr⟩ := nodup_cons.mp hnodup
  obtain ⟨hcurr, -⟩ := nodup_cons.mp hcurr
  have hne : prev ≠ curr := fun heq => hprev (heq ▸ mem_cons_self)
  have hmem : ∀ t ∈ l, (w.unlink prev curr).slots t = w.slots t := fun t ht =>
    Walk.unlink_other (fun heq => hprev (mem_cons_of_mem _ (heq ▸ ht)))
      (fun heq => hcurr (heq ▸ ht))
  have hgone : slots' curr = { w.slots curr with isSlotLinked := false } := by
    rw [h.others curr hne.symm hcurr, Walk.unlink_curr hne]
  obtain ⟨kept, hsub, hseg, hkept⟩ := h.linked
  refine ⟨?_, ?_, ?_, ?_, ?_, kept, hsub.cons curr, hseg, ?_⟩
  · rw [pending_cons_of_idle hidle, ← pending_congr hmem]
    exact h.answered
  · intro t ht
    rcases mem_cons.mp ht with rfl | ht
    · rw [hgone]
      exact hidle
    · exact h.served t ht
  · intro t ht hvalid
    rcases mem_cons.mp ht with rfl | ht
    · rw [hgone]
    · rw [h.idle t ht (hmem t ht ▸ hvalid), hmem t ht]
  · rw [h.before, Walk.unlink_prev hne]
  · intro t htprev ht
    rw [h.others t htprev (fun hmem => ht (mem_cons_of_mem _ hmem)),
      Walk.unlink_other htprev (fun heq => ht (heq ▸ mem_cons_self))]
  · intro t ht hnot
    rcases mem_cons.mp ht with rfl | ht
    · rw [hgone]
    · exact hkept t ht hnot

theorem visit_stay (hcurr : curr ∉ l)
    (hserve : serveAll execute (requests w.slots (curr :: l)) object = some (answers, object'))
    (hstays : (w.slots curr).isRequestValid = false →
      ¬ (curr ≠ prev ∧ w.operationTimestamp - (w.slots curr).opTimestamp > unusedSlotThreshold)) :
    ∃ (w₁ : Walk τ) (object₁ : σ) (answers₁ : List ℤ), w.visit execute object prev curr =
      some (w₁.behind curr, object₁) ∧
      serveAll execute (requests w₁.slots l) object₁ = some (answers₁, object') ∧
      Visited w.slots w₁.slots curr ∧
      ∀ slots', Passed w₁.slots slots' curr l answers₁ →
        (pending w.slots (curr :: l)).map (fun t => (slots' t).retVal) = answers := by
  cases hvalid : (w.slots curr).isRequestValid with
  | true =>
    rw [requests, pending_cons_of_valid hvalid] at hserve
    obtain ⟨⟨ret, object₁⟩, hexecute, hserve⟩ := bind_eq_some_iff.mp hserve
    obtain ⟨⟨answers₁, object₂⟩, hrest, heq⟩ := map_eq_some_iff.mp hserve
    obtain ⟨rfl, rfl⟩ := Prod.mk.inj heq
    have hself : (w.answer curr ret).slots curr = _ := update_self ..
    have hvisited : Visited w.slots (w.answer curr ret).slots curr :=
      ⟨fun t ht => update_of_ne ht _ _, by rw [hself], by rw [hself],
        fun h => by rw [hvalid] at h; cases h⟩
    refine ⟨w.answer curr ret, object₁, answers₁, ?_, ?_, hvisited, ?_⟩
    · rw [Walk.visit, if_pos hvalid, hexecute]
      rfl
    · rw [requests_congr (hvisited.mem hcurr)]
      exact hrest
    · intro slots' hpassed
      rw [pending_cons_of_valid hvalid, map_cons, hpassed.before, hself, ← hpassed.answered,
        pending_congr (hvisited.mem hcurr)]
  | false =>
    have hpending : pending w.slots (curr :: l) = pending w.slots l := pending_cons_of_idle hvalid
    refine ⟨w, object, answers, ?_, ?_, ⟨fun _ _ => rfl, rfl, hvalid, fun _ => rfl⟩, ?_⟩
    · rw [Walk.visit, hvalid, if_neg Bool.false_ne_true, if_neg (hstays hvalid)]
    · rwa [requests, ← hpending]
    · intro slots' hpassed
      rw [hpending]
      exact hpassed.answered

theorem combine_succ (fuel : ℕ) (h : w.position = some (prev, curr)) :
    combine execute (fuel + 1) w object =
      (w.visit execute object prev curr).bind (fun next => combine execute fuel next.1 next.2) := by
  rw [combine, h]

omit [DecidableEq τ] in
theorem Walk.behind_of_next (h : (w.slots prev).nextSlot = some curr) :
    (w.behind prev).position = some (prev, curr) := by
  rw [Walk.behind, h]
  rfl

/-- The loop goes through the list behind `prev`. -/
theorem combine_behind (hseg : Seg (succ w.slots) (w.slots prev).nextSlot (l.map some) none)
    (hnodup : (prev :: l).Nodup)
    (hserve : serveAll execute (requests w.slots l) object = some (answers, object')) :
    ∃ w', combine execute (l.length + 1) (w.behind prev) object = some (w', object') ∧
      Passed w.slots w'.slots prev l answers := by
  induction l generalizing w prev object answers with
  | nil =>
    cases hserve
    refine ⟨w.behind prev, ?_, passed_nil hseg⟩
    have hnone : (w.slots prev).nextSlot = none := hseg
    rw [combine, Walk.behind, hnone]
    rfl
  | cons curr l ih =>
    obtain ⟨hnext, hrest⟩ := hseg
    obtain ⟨hprev, hnodup'⟩ := nodup_cons.mp hnodup
    have hcurr := (nodup_cons.mp hnodup').1
    rw [length_cons, combine_succ _ (Walk.behind_of_next hnext)]
    by_cases hold : (w.slots curr).isRequestValid = false ∧ curr ≠ prev ∧
        w.operationTimestamp - (w.slots curr).opTimestamp > unusedSlotThreshold
    · obtain ⟨hidle, hunused⟩ := hold
      have hne : prev ≠ curr := hunused.1.symm
      have hvisit : (w.behind prev).visit execute object prev curr =
          some ((w.unlink prev curr).behind prev, object) := by
        rw [Walk.visit, show ((w.behind prev).slots curr).isRequestValid = false from hidle,
          if_neg Bool.false_ne_true]
        exact if_pos hunused
      have hmem : ∀ t ∈ l, (w.unlink prev curr).slots t = w.slots t := fun t ht =>
        Walk.unlink_other (fun heq => hprev (mem_cons_of_mem _ (heq ▸ ht)))
          (fun heq => hcurr (heq ▸ ht))
      have hseg' : Seg (succ (w.unlink prev curr).slots) ((w.unlink prev curr).slots prev).nextSlot
          (l.map some) none := by
        rw [Walk.unlink_prev hne]
        exact hrest.congr (succ_congr (fun t ht => by rw [hmem t ht]))
      have hserve' : serveAll execute (requests (w.unlink prev curr).slots l) object =
          some (answers, object') := by
        rwa [requests_congr hmem, requests, ← pending_cons_of_idle hidle]
      obtain ⟨w', hcombine, hpassed⟩ := ih hseg'
        (nodup_cons.mpr ⟨fun h => hprev (mem_cons_of_mem _ h), hnodup'.tail⟩) hserve'
      refine ⟨w', ?_, hpassed.unlink hnodup hidle⟩
      rw [hvisit]
      exact hcombine
    · obtain ⟨w₁, object₁, answers₁, hvisit, hserve₁, hvisited, hanswers⟩ :=
        visit_stay (w := w.behind prev) hcurr hserve (fun hidle hunused => hold ⟨hidle, hunused⟩)
      obtain ⟨w', hcombine, hpassed⟩ := ih (hvisited.seg hcurr hrest) hnodup' hserve₁
      refine ⟨w', ?_, hpassed.stay hnodup hvisited hnext (hanswers _ hpassed)⟩
      rw [hvisit]
      exact hcombine

end Passes

/-! ### Whole passes -/

/-- Slots that are linked from `tail_slot`. -/
structure Publication (τ : Type) where
  slots : τ → SlotInfo τ
  tailSlot : Option τ
  published : List τ
  chain : Seg (succ slots) tailSlot (published.map some) none
  nodup : published.Nodup

namespace Publication

def requests (p : Publication τ) : List (ℤ × ℕ) := FlatCombining.requests p.slots p.published

/-- What the slots with a request find in `ret_val` afterwards. -/
def answers (p : Publication τ) (w : Walk τ) : List ℤ :=
  (pending p.slots p.published).map (fun t => (w.slots t).retVal)

/-- `prev_slot` and `curr_slot` start at `tail_slot`. -/
def start (p : Publication τ) (operationTimestamp : ℤ) : Walk τ :=
  ⟨p.slots, operationTimestamp, p.tailSlot.map (fun t => (t, t))⟩

/-- A pass. No slot is visited twice. -/
def pass (execute : ℤ × ℕ → σ → Option (ℤ × σ)) (p : Publication τ) (operationTimestamp : ℤ)
    (object : σ) : Option (Walk τ × σ) :=
  combine execute (p.published.length + 1) (p.start operationTimestamp) object

theorem pass_of_serveAll {execute : ℤ × ℕ → σ → Option (ℤ × σ)} {p : Publication τ}
    {object object' : σ} {answers : List ℤ}
    (hserve : serveAll execute p.requests object = some (answers, object'))
    (operationTimestamp : ℤ) :
    ∃ w, p.pass execute operationTimestamp object = some (w, object') ∧ p.answers w = answers ∧
      (∀ t ∈ p.published, (w.slots t).isRequestValid = false) ∧
      (∀ t ∈ p.published, (p.slots t).isRequestValid = false →
        (w.slots t).retVal = (p.slots t).retVal) ∧
      (∀ t ∉ p.published, w.slots t = p.slots t) ∧
      ∃ p' : Publication τ, p'.slots = w.slots ∧ p'.tailSlot = p.tailSlot ∧
        p'.published.Sublist p.published := by
  obtain ⟨slots, tailSlot, published, chain, nodup⟩ := p
  cases published with
  | nil =>
    cases hserve
    obtain rfl : tailSlot = none := chain
    exact ⟨_, rfl, rfl, forall_mem_nil _, forall_mem_nil _,
      fun _ _ => rfl, ⟨slots, none, [], rfl, nodup_nil⟩, rfl, rfl, .slnil⟩
  | cons curr l =>
    obtain ⟨rfl, hrest⟩ := chain
    have hcurr := (nodup_cons.mp nodup).1
    obtain ⟨w₁, object₁, answers₁, hvisit, hserve₁, hvisited, hanswers⟩ :=
      visit_stay (w := ⟨slots, operationTimestamp, some (curr, curr)⟩) hcurr hserve
        (fun _ hunused => hunused.1 rfl)
    obtain ⟨w, hcombine, hpassed⟩ := combine_behind (hvisited.seg hcurr hrest) nodup hserve₁
    refine ⟨w, ?_, hanswers _ hpassed, ?_, ?_, ?_, ?_⟩
    · rw [pass, length_cons, combine_succ _ rfl]
      change (Walk.visit execute ⟨slots, operationTimestamp, some (curr, curr)⟩ object curr
        curr).bind _ = _
      rw [hvisit]
      exact hcombine
    · intro t ht
      rcases mem_cons.mp ht with rfl | ht
      · rw [hpassed.before]
        exact hvisited.served
      · exact hpassed.served t ht
    · intro t ht hidle
      rcases mem_cons.mp ht with rfl | ht
      · rw [hpassed.before]
        exact hvisited.idle hidle
      · have heq := hvisited.mem hcurr t ht
        exact (hpassed.idle t ht (by rw [heq]; exact hidle)).trans (congrArg SlotInfo.retVal heq)
    · intro t ht
      have htcurr : t ≠ curr := fun heq => ht (heq ▸ mem_cons_self)
      exact (hpassed.others t htcurr (fun hmem => ht (mem_cons_of_mem _ hmem))).trans
        (hvisited.others t htcurr)
    · obtain ⟨kept, hsub, hkeptseg, -⟩ := hpassed.linked
      exact ⟨⟨w.slots, some curr, curr :: kept, ⟨rfl, hkeptseg⟩,
        nodup.sublist (hsub.cons_cons curr)⟩, rfl, rfl, hsub.cons_cons curr⟩

/-- Passes one after the other; in between the threads collect their answers, publish new requests
and link their slots again. -/
def passes (execute : ℤ × ℕ → σ → Option (ℤ × σ)) :
    List (Publication τ) → ℤ → σ → Option (List ℤ × σ)
  | [], _, object => some ([], object)
  | p :: ps, operationTimestamp, object =>
      (p.pass execute operationTimestamp object).bind (fun x =>
        (passes execute ps x.1.operationTimestamp x.2).map (fun y => (p.answers x.1 ++ y.1, y.2)))

theorem passes_of_serveAll {execute : ℤ × ℕ → σ → Option (ℤ × σ)} {ps : List (Publication τ)}
    {object object' : σ} {answers : List ℤ}
    (hserve : serveAll execute (ps.flatMap requests) object = some (answers, object'))
    (operationTimestamp : ℤ) :
    passes execute ps operationTimestamp object = some (answers, object') := by
  induction ps generalizing object answers operationTimestamp with
  | nil => exact hserve
  | cons p ps ih =>
    rw [flatMap_cons, serveAll_append] at hserve
    obtain ⟨⟨first, object₁⟩, hfirst, hserve⟩ := bind_eq_some_iff.mp hserve
    obtain ⟨⟨others, object₂⟩, hothers, heq⟩ := map_eq_some_iff.mp hserve
    obtain ⟨rfl, rfl⟩ := Prod.mk.inj heq
    obtain ⟨w, hpass, hanswers, -⟩ := p.pass_of_serveAll hfirst operationTimestamp
    rw [passes, hpass, bind_some, ih hothers, map_some, hanswers]

end Publication

end SmcSim.FlatCombining
