import SmcSim.TlbLayouts
import SmcSim.TlbVectors
import Mathlib.Data.List.Nodup

/-!
# Refills on their way

The timing mode of `ethz_TLB` without ideal refills. A request that misses is turned away; the entry
of its page is read from the slice table, unless such a read is already on its way or the memory
refuses it, and when the entry arrives the TLB tells the other side to retry. `pending_refills` has
to be the list of the reads that the memory has accepted and not answered, since an answer that is
not in the list is a panic.
-/

namespace SmcSim.Tlb
open SliceTable TranslationRules Interleavings Function List Option

/-! ### The system -/

inductive Phase where
  | idle
  /-- Turned away, and the memory has refused to read the entry. -/
  | refused (a : ℕ)
  /-- Turned away while the entry is being read. -/
  | waiting (a : ℕ)
  /-- The entry has arrived since. `evicted` says that a rule for the address has been evicted after
  that. -/
  | answered (a : ℕ) (evicted : Bool)
  deriving DecidableEq, Repr

structure System where
  tlb : State
  /-- The reads that the memory has accepted and not answered, by an address of the page. -/
  inFlight : List ℕ
  phase : ℕ → Phase
  /-- The calls of `slavePort.sendRetry`. -/
  retries : ℕ
  panicked : Bool

/-- What arrives at the ports: a request or the retry of one, with the answer of the memory if the
entry has to be read, the answer to a read, and a retry from the memory. -/
inductive Arrival where
  | request (t a : ℕ) (accepted : Bool)
  | response (i : ℕ)
  | retry
  deriving DecidableEq, Repr

/-- The entry for `b` has arrived, and `out` was evicted. -/
def Phase.arrived (c : Config) (b : ℕ) (out : Option Rule) : Phase → Phase
  | .waiting a => if entryAddr c a = entryAddr c b then .answered a false else .waiting a
  | .answered a gone => .answered a (gone || out.any (fun r => r.original.Contains a))
  | p => p

namespace System

variable (c : Config) (table : ℕ → Slice)

/-- `refillTLB_timing`; the value says whether the entry is on its way. -/
def refillTLBTiming (accepted : Bool) (a : ℕ) (y : System) : Option (Bool × System) :=
  if c.sliceVStart ≤ a then
    if entryAddr c a ∈ y.tlb.pendingRefills then some (true, y)
    else
      let pushed := y.tlb.pendingRefills ++ [entryAddr c a]
      if accepted then
        some (true, { y with
          tlb := { y.tlb with pendingRefills := pushed }
          inFlight := y.inFlight ++ [a] })
      else
        -- pop_back
        some (false, { y with tlb := { y.tlb with pendingRefills := pushed.dropLast } })
  else none

/-- `recvTimingReq` for an address that is to be remapped. -/
def recvTimingReq (now t a : ℕ) (accepted : Bool) (y : System) : Option System :=
  match remap c now a y.tlb with
  | some (some _, tlb) => some { y with tlb := tlb, phase := update y.phase t .idle }
  | some (none, tlb) =>
      (refillTLBTiming c accepted a { y with tlb := tlb }).map (fun x => { x.2 with
        phase := update y.phase t (if x.1 then .waiting a else .refused a) })
  | none => none

/-- The rule that `updateTLB` erases. -/
def evicted (y : System) : Option Rule :=
  if c.tlbSize ≤ y.tlb.rules.length then y.tlb.rules[leastRecentlyUsed y.tlb.rules]? else none

/-- `recvTimingResp` for read `i`. -/
def recvTimingResp (now i : ℕ) (y : System) : Option System :=
  y.inFlight[i]?.map (fun b =>
    let y := { y with inFlight := y.inFlight.eraseIdx i }
    if entryAddr c b ∈ y.tlb.pendingRefills then
      { y with
        tlb := updateTLB c now (table (index c b))
          { y.tlb with pendingRefills := y.tlb.pendingRefills.erase (entryAddr c b) }
        phase := fun t => (y.phase t).arrived c b (y.evicted c)
        retries := y.retries + 1 }
    else { y with panicked := true })

def step (y : System) : ℕ × Arrival → Option System
  | (now, .request t a accepted) => recvTimingReq c now t a accepted y
  | (now, .response i) => recvTimingResp c table now i y
  -- recvRetryMaster
  | (_, .retry) => some { y with retries := y.retries + 1 }

def start (static : Rule) : System := ⟨initial static, [], fun _ => .idle, 0, false⟩

end System

/-- Misses are for pages of the region, or for pages whose entry says nothing about it. -/
def Asked (c : Config) (R : Region) (table : ℕ → Slice) (y : System) : Arrival → Prop
  | .request _ a _ => translate y.tlb.rules a = none → RefillOk c R table a
  | _ => True

/-! ### The invariant -/

def Covered (c : Config) (table : ℕ → Slice) (a : ℕ) : Prop :=
  (ruleOf 0 (table (index c a))).original.Contains a

instance (c : Config) (table : ℕ → Slice) (a : ℕ) : Decidable (Covered c table a) :=
  inferInstanceAs (Decidable (_ ∧ _))

structure Booked (c : Config) (table : ℕ → Slice) (y : System) : Prop where
  booked : y.tlb.pendingRefills = y.inFlight.map (entryAddr c)
  nodup : y.tlb.pendingRefills.Nodup
  running : y.panicked = false
  waiting : ∀ t a, y.phase t = .waiting a → entryAddr c a ∈ y.tlb.pendingRefills
  answered : ∀ t a, Covered c table a → y.phase t = .answered a false →
    ∃ r ∈ y.tlb.rules, r.original.Contains a

/-- Neither the rules nor the entries on their way contradict the region. -/
structure Agrees (c : Config) (R : Region) (table : ℕ → Slice) (y : System) : Prop where
  sound : Sound R.Mem R.physical y.tlb.rules
  asked : ∀ b ∈ y.inFlight, RefillOk c R table b

section Steps

variable {c : Config} {R : Region} {table : ℕ → Slice} {static : Rule} {y y' : System}
  {now t a b i : ℕ} {accepted : Bool}

theorem booked_start : Booked c table (System.start static) where
  booked := rfl
  nodup := .nil
  running := rfl
  waiting t a h := by cases h
  answered t a _ h := by cases h

theorem agrees_start (hstatic : ∀ a, R.Mem a → ¬ static.original.Contains a) :
    Agrees c R table (System.start static) where
  sound r hr a ha hcontains := by
    rw [mem_singleton.mp hr] at hcontains
    exact absurd hcontains (hstatic a ha)
  asked b hb := absurd hb not_mem_nil

/-! ### A request -/

/-- A refused read leaves no trace. -/
theorem System.refillTLBTiming_cases {x : Bool × System}
    (h : y.refillTLBTiming c accepted a = some x) :
    entryAddr c a ∈ y.tlb.pendingRefills ∧ x = (true, y) ∨
      entryAddr c a ∉ y.tlb.pendingRefills ∧ x = (true, { y with
        tlb := { y.tlb with pendingRefills := y.tlb.pendingRefills ++ [entryAddr c a] }
        inFlight := y.inFlight ++ [a] }) ∨
      x = (false, y) := by
  rw [System.refillTLBTiming] at h
  split at h
  · split at h
    · next hpending => exact .inl ⟨hpending, (some.inj h).symm⟩
    · next hpending =>
      simp only [dropLast_concat] at h
      split at h
      · exact .inr (.inl ⟨hpending, (some.inj h).symm⟩)
      · exact .inr (.inr (some.inj h).symm)
  · cases h

/-- What a request does: it hits, its entry is on its way already, its entry is asked for, or the
memory refuses that. -/
theorem System.recvTimingReq_cases (h : y.recvTimingReq c now t a accepted = some y') :
    y' = { y with
        tlb := { y.tlb with rules := recordUse now a y.tlb.rules }
        phase := update y.phase t .idle } ∨
      translate y.tlb.rules a = none ∧
        (entryAddr c a ∈ y.tlb.pendingRefills ∧
            y' = { y with phase := update y.phase t (.waiting a) } ∨
          entryAddr c a ∉ y.tlb.pendingRefills ∧ y' = { y with
            tlb := { y.tlb with pendingRefills := y.tlb.pendingRefills ++ [entryAddr c a] }
            inFlight := y.inFlight ++ [a]
            phase := update y.phase t (.waiting a) } ∨
          y' = { y with phase := update y.phase t (.refused a) }) := by
  rw [System.recvTimingReq, remap] at h
  cases hx : translate y.tlb.rules a with
  | some x =>
    rw [hx] at h
    exact .inl (some.inj h).symm
  | none =>
    rw [hx] at h
    refine .inr ⟨rfl, ?_⟩
    by_cases htable : c.sliceTablePtr = 0
    · rw [if_neg (not_not_intro htable)] at h
      cases h
    · rw [if_pos htable] at h
      obtain ⟨x, hx, rfl⟩ := map_eq_some_iff.mp h
      rcases System.refillTLBTiming_cases hx with ⟨hpending, rfl⟩ | ⟨hnew, rfl⟩ | rfl
      · exact .inl ⟨hpending, rfl⟩
      · exact .inr (.inl ⟨hnew, rfl⟩)
      · exact .inr (.inr rfl)

theorem contains_recordUse {rules : List Rule} (h : ∃ r ∈ rules, r.original.Contains b) :
    ∃ r ∈ recordUse now a rules, r.original.Contains b := by
  obtain ⟨r, hr, hcontains⟩ := h
  have horiginal : r.original ∈ (recordUse now a rules).map Rule.original := by
    rw [map_recordUse Rule.original (fun _ => rfl)]
    exact List.mem_map_of_mem hr
  obtain ⟨r', hr', heq⟩ := List.mem_map.mp horiginal
  exact ⟨r', hr', heq ▸ hcontains⟩

variable {p : Phase}

/-- Only the request of one master changes. -/
theorem Booked.setPhase (h : Booked c table y)
    (hwaiting : ∀ a, p = .waiting a → entryAddr c a ∈ y.tlb.pendingRefills)
    (hanswered : ∀ a gone, p ≠ .answered a gone) :
    Booked c table { y with phase := update y.phase t p } where
  booked := h.booked
  nodup := h.nodup
  running := h.running
  waiting u a hu := by
    by_cases hut : u = t
    · subst hut
      exact hwaiting a ((update_self ..).symm.trans hu)
    · exact h.waiting u a ((update_of_ne hut ..).symm.trans hu)
  answered u a ha hu := by
    by_cases hut : u = t
    · subst hut
      exact absurd ((update_self ..).symm.trans hu) (hanswered a false)
    · exact h.answered u a ha ((update_of_ne hut ..).symm.trans hu)

theorem Booked.recordUse (h : Booked c table y) :
    Booked c table { y with tlb := { y.tlb with rules := recordUse now a y.tlb.rules } } :=
  ⟨h.booked, h.nodup, h.running, h.waiting,
    fun t b hb ht => contains_recordUse (h.answered t b hb ht)⟩

theorem Booked.push (h : Booked c table y) (hnew : entryAddr c a ∉ y.tlb.pendingRefills) :
    Booked c table { y with
      tlb := { y.tlb with pendingRefills := y.tlb.pendingRefills ++ [entryAddr c a] }
      inFlight := y.inFlight ++ [a] } where
  booked := by
    change y.tlb.pendingRefills ++ [entryAddr c a] = _
    rw [h.booked, map_append]
    rfl
  nodup := nodup_append.mpr ⟨h.nodup, pairwise_singleton _ _, fun x hx z hz heq =>
    hnew (mem_singleton.mp hz ▸ heq ▸ hx)⟩
  running := h.running
  waiting t b ht := mem_append_left _ (h.waiting t b ht)
  answered := h.answered

theorem Booked.recvTimingReq (h : Booked c table y)
    (hy' : y.recvTimingReq c now t a accepted = some y') : Booked c table y' := by
  rcases System.recvTimingReq_cases hy' with rfl | ⟨-, ⟨hpending, rfl⟩ | ⟨hnew, rfl⟩ | rfl⟩
  · exact h.recordUse.setPhase (fun _ hp => by cases hp) (fun _ _ => Phase.noConfusion)
  · exact h.setPhase (fun b hb => Phase.waiting.inj hb ▸ hpending) (fun _ _ => Phase.noConfusion)
  · exact (h.push hnew).setPhase
      (fun b hb => Phase.waiting.inj hb ▸ mem_append_right _ (mem_singleton.mpr rfl))
      (fun _ _ => Phase.noConfusion)
  · exact h.setPhase (fun b hb => by cases hb) (fun _ _ => Phase.noConfusion)

theorem Agrees.recvTimingReq (h : Agrees c R table y)
    (hok : translate y.tlb.rules a = none → RefillOk c R table a)
    (hy' : y.recvTimingReq c now t a accepted = some y') : Agrees c R table y' := by
  rcases System.recvTimingReq_cases hy' with rfl | ⟨hmiss, ⟨-, rfl⟩ | ⟨-, rfl⟩ | rfl⟩
  · exact ⟨sound_recordUse h.sound, h.asked⟩
  · exact ⟨h.sound, h.asked⟩
  · refine ⟨h.sound, fun b hb => ?_⟩
    rcases mem_append.mp hb with hold | hnew
    · exact h.asked b hold
    · rw [mem_singleton.mp hnew]
      exact hok hmiss
  · exact ⟨h.sound, h.asked⟩

/-! ### An answer -/

theorem index_of_entryAddr (harch : 8 ≤ 3 * c.pimArch) (h : entryAddr c a = entryAddr c b) :
    index c a = index c b := by
  have hwords : 0 < 3 * c.pimArch / 8 := Nat.div_pos harch (by decide)
  exact Nat.eq_of_mul_eq_mul_right hwords (Nat.add_left_cancel h)

theorem contains_updateTLB {x : Slice} (h : ∃ r ∈ y.tlb.rules, r.original.Contains a)
    (hkept : (y.evicted c).any (fun r => r.original.Contains a) = false) (pending : List ℕ) :
    ∃ r ∈ (updateTLB c now x { y.tlb with pendingRefills := pending }).rules,
      r.original.Contains a := by
  obtain ⟨r, hr, hcontains⟩ := h
  refine ⟨r, mem_append_left _ ?_, hcontains⟩
  rw [System.evicted] at hkept
  change r ∈ if c.tlbSize ≤ y.tlb.rules.length then
    y.tlb.rules.eraseIdx (leastRecentlyUsed y.tlb.rules) else y.tlb.rules
  split
  · next hfull =>
    rw [if_pos hfull] at hkept
    obtain ⟨j, hj⟩ := mem_iff_getElem?.mp hr
    refine mem_eraseIdx_iff_getElem?.mpr ⟨j, fun heq => ?_, hj⟩
    rw [← heq, hj] at hkept
    exact absurd (decide_eq_true hcontains) (by simpa using hkept)
  · exact hr

private theorem Phase.waiting_of_arrived {out : Option Rule} (h : p.arrived c b out = .waiting a) :
    p = .waiting a ∧ entryAddr c a ≠ entryAddr c b := by
  cases p with
  | waiting a' =>
    rw [Phase.arrived] at h
    split at h
    · cases h
    · next hne =>
      obtain rfl := Phase.waiting.inj h
      exact ⟨rfl, hne⟩
  | idle | refused | answered => cases h

private theorem Phase.answered_of_arrived {out : Option Rule}
    (h : p.arrived c b out = .answered a false) :
    p = .waiting a ∧ entryAddr c a = entryAddr c b ∨
      p = .answered a false ∧ out.any (fun r => r.original.Contains a) = false := by
  cases p with
  | waiting a' =>
    rw [Phase.arrived] at h
    split at h
    · next heq =>
      obtain ⟨rfl, -⟩ := Phase.answered.inj h
      exact .inl ⟨rfl, heq⟩
    · cases h
  | answered a' gone =>
    obtain ⟨rfl, hgone⟩ := Phase.answered.inj h
    obtain ⟨rfl, hout⟩ := Bool.or_eq_false_iff.mp hgone
    exact .inr ⟨rfl, hout⟩
  | idle => cases h
  | refused a' => cases h

/-- The read that is answered is in the list. -/
theorem Booked.mem_pending (h : Booked c table y) (hi : y.inFlight[i]? = some b) :
    entryAddr c b ∈ y.tlb.pendingRefills := by
  rw [h.booked]
  exact List.mem_map_of_mem (mem_of_getElem? hi)

theorem Booked.erase (h : Booked c table y) (hi : y.inFlight[i]? = some b) :
    y.tlb.pendingRefills.erase (entryAddr c b) = (y.inFlight.eraseIdx i).map (entryAddr c) := by
  have hget : y.tlb.pendingRefills[i]? = some (entryAddr c b) := by
    rw [h.booked, getElem?_map, hi]
    rfl
  obtain ⟨hlt, hentry⟩ := List.getElem?_eq_some_iff.mp hget
  rw [← eraseIdx_map, ← h.booked, ← hentry, List.Nodup.erase_getElem h.nodup i hlt]

theorem Booked.recvTimingResp (h : Booked c table y) (harch : 8 ≤ 3 * c.pimArch)
    (hy' : y.recvTimingResp c table now i = some y') : Booked c table y' := by
  obtain ⟨b, hb, hy'⟩ := map_eq_some_iff.mp hy'
  rw [if_pos (h.mem_pending hb)] at hy'
  subst hy'
  exact
    { booked := h.erase hb
      nodup := h.nodup.erase _
      running := h.running
      waiting := by
        intro t a ht
        obtain ⟨hold, hne⟩ := Phase.waiting_of_arrived ht
        exact (mem_erase_of_ne hne).mpr (h.waiting t a hold)
      answered := by
        intro t a ha ht
        rcases Phase.answered_of_arrived ht with ⟨hold, heq⟩ | ⟨hold, hkept⟩
        · -- the entry that arrives is the one for `a`
          refine ⟨_, mem_append_right _ (mem_singleton.mpr rfl), ?_⟩
          rw [← index_of_entryAddr harch heq]
          exact ha
        · exact contains_updateTLB (h.answered t a ha hold) hkept _ }

theorem Agrees.recvTimingResp (h : Agrees c R table y) (hd : Describes R table)
    (hreg : Registered c R) (hy' : y.recvTimingResp c table now i = some y') :
    Agrees c R table y' := by
  obtain ⟨b, hb, hy'⟩ := map_eq_some_iff.mp hy'
  have hasked : ∀ b' ∈ y.inFlight.eraseIdx i, RefillOk c R table b' :=
    fun b' hb' => h.asked b' (mem_of_mem_eraseIdx hb')
  dsimp only at hy'
  split at hy'
  · subst hy'
    exact ⟨sound_updateTLB _ h.sound (hd.refill hreg (h.asked b (mem_of_getElem? hb))), hasked⟩
  · subst hy'
    exact ⟨h.sound, hasked⟩

/-! ### Runs -/

theorem Booked.step {e : ℕ × Arrival} (h : Booked c table y) (harch : 8 ≤ 3 * c.pimArch)
    (hy' : y.step c table e = some y') : Booked c table y' := by
  obtain ⟨now, arrival⟩ := e
  cases arrival with
  | request t a accepted => exact h.recvTimingReq hy'
  | response i => exact h.recvTimingResp harch hy'
  | retry =>
    cases hy'
    exact ⟨h.booked, h.nodup, h.running, h.waiting, h.answered⟩

theorem Agrees.step {e : ℕ × Arrival} (h : Agrees c R table y) (hd : Describes R table)
    (hreg : Registered c R) (hok : Asked c R table y e.2) (hy' : y.step c table e = some y') :
    Agrees c R table y' := by
  obtain ⟨now, arrival⟩ := e
  cases arrival with
  | request t a accepted => exact h.recvTimingReq hok hy'
  | response i => exact h.recvTimingResp hd hreg hy'
  | retry =>
    cases hy'
    exact ⟨h.sound, h.asked⟩

theorem Booked.response (h : Booked c table y) (ht : y.phase t = .waiting a) :
    ∃ i b, y.inFlight[i]? = some b ∧ entryAddr c b = entryAddr c a ∧
      ∀ now, ∃ y', y.step c table (now, .response i) = some y' ∧ y'.phase t = .answered a false ∧
        y'.retries = y.retries + 1 := by
  have hpending := h.waiting t a ht
  rw [h.booked] at hpending
  obtain ⟨b, hb, heq⟩ := List.mem_map.mp hpending
  obtain ⟨i, hi⟩ := mem_iff_getElem?.mp hb
  refine ⟨i, b, hi, heq, fun now => ?_⟩
  rw [System.step, System.recvTimingResp, hi, map_some, if_pos (h.mem_pending hi)]
  refine ⟨_, rfl, ?_, rfl⟩
  change (y.phase t).arrived c b _ = _
  rw [ht, Phase.arrived, if_pos heq.symm]

theorem Booked.hit (h : Booked c table y) (ha : Covered c table a)
    (ht : y.phase t = .answered a false) : ∃ x, translate y.tlb.rules a = some x := by
  rw [← isSome_iff_exists, isSome_iff_ne_none]
  intro hnone
  obtain ⟨r, hr, hcontains⟩ := h.answered t a ha ht
  exact translate_eq_none.mp hnone r hr hcontains

private theorem System.step_of_translate {x : ℕ} (hx : translate y.tlb.rules a = some x) (now t : ℕ)
    (accepted : Bool) :
    ∃ y', y.step c table (now, .request t a accepted) = some y' ∧
      remap c now a y.tlb = some (some x, y'.tlb) ∧ y'.phase t = .idle := by
  have hremap : remap c now a y.tlb =
      some (some x, { y.tlb with rules := recordUse now a y.tlb.rules }) := remap_of_translate hx
  refine ⟨{ y with
      tlb := { y.tlb with rules := recordUse now a y.tlb.rules }
      phase := update y.phase t .idle }, ?_, hremap, update_self ..⟩
  rw [System.step, System.recvTimingReq, hremap]

/-- A miss is turned away, and its entry is on its way unless the memory has refused it. -/
private theorem System.step_of_miss (htable : c.sliceTablePtr ≠ 0) (ha : c.sliceVStart ≤ a)
    (hmiss : translate y.tlb.rules a = none) (now t : ℕ) (accepted : Bool) :
    ∃ y', y.step c table (now, .request t a accepted) = some y' ∧
      (y'.phase t = .waiting a ∨ accepted = false ∧ y'.phase t = .refused a) := by
  have hremap : remap c now a y.tlb = some (none, y.tlb) := by
    rw [remap, hmiss, if_pos htable]
  rw [System.step, System.recvTimingReq, hremap]
  dsimp only
  rw [System.refillTLBTiming, if_pos ha]
  split
  · exact ⟨_, rfl, .inl (update_self ..)⟩
  · cases accepted with
    | true => exact ⟨_, rfl, .inl (update_self ..)⟩
    | false => exact ⟨_, rfl, .inr ⟨rfl, update_self ..⟩⟩

end Steps

/-- In every state that misses, retries, reads that are accepted or refused and their answers lead
to: `pending_refills` has the addresses of the reads in flight, each once, and there has been no
panic; a request that misses is refused its read, or waits for a read that is in flight, whose
answer makes it retry; and then it hits, unless a rule for it has been evicted in between. The hit
is right for a region that the table describes. -/
theorem pendingRefills_of_reached (c : Config) (table : ℕ → Slice) (static : Rule)
    (harch : c.pimArch = 32 ∨ c.pimArch = 64) (y : System)
    (hy : Reached (System.step c table) (fun _ _ => True) (System.start static) y) :
    (y.tlb.pendingRefills = y.inFlight.map (entryAddr c) ∧ y.tlb.pendingRefills.Nodup) ∧
    y.panicked = false ∧
    (∀ t a, c.sliceTablePtr ≠ 0 → c.sliceVStart ≤ a → translate y.tlb.rules a = none →
      ∀ now accepted, ∃ y', y.step c table (now, .request t a accepted) = some y' ∧
        (y'.phase t = .waiting a ∨ accepted = false ∧ y'.phase t = .refused a)) ∧
    (∀ t a, y.phase t = .waiting a →
      ∃ i b, y.inFlight[i]? = some b ∧ entryAddr c b = entryAddr c a ∧
        ∀ now, ∃ y', y.step c table (now, .response i) = some y' ∧ y'.phase t = .answered a false ∧
          y'.retries = y.retries + 1) ∧
    ∀ t a, Covered c table a → y.phase t = .answered a false →
      ∃ x, (∀ now accepted, ∃ y', y.step c table (now, .request t a accepted) = some y' ∧
          remap c now a y.tlb = some (some x, y'.tlb) ∧ y'.phase t = .idle) ∧
        ∀ R, Describes R table → Registered c R → R.Mem a →
          (∀ b, R.Mem b → ¬ static.original.Contains b) →
          Reached (System.step c table) (fun y e => Asked c R table y e.2) (System.start static) y →
          x = R.physical a := by
  have harch' : 8 ≤ 3 * c.pimArch := by omega
  have hbooked : Booked c table y :=
    hy.invariant booked_start (fun y e y' h _ hstep => h.step harch' hstep)
  refine ⟨⟨hbooked.booked, hbooked.nodup⟩, hbooked.running,
    fun t a htable ha hmiss now accepted => System.step_of_miss htable ha hmiss now t accepted,
    fun t a ht => hbooked.response ht, fun t a ha ht => ?_⟩
  obtain ⟨x, hx⟩ := hbooked.hit ha ht
  refine ⟨x, fun now accepted => System.step_of_translate hx now t accepted,
    fun R hd hreg hmem hstatic hasked => ?_⟩
  have hagrees : Agrees c R table y :=
    hasked.invariant (agrees_start hstatic) (fun y e y' h hok hstep => h.step hd hreg hok hstep)
  exact hagrees.sound.translate hmem hx

/-- A page is missed, read and found. -/
theorem pendingRefills_of_reached_fourPages : ∃ y y',
    Reached (System.step (twoEntries 0x8000) (pageSlices fourPages 0x8000)) (fun _ _ => True)
      (System.start scratchpad) y ∧
    y.phase 0 = .answered 0x9004 false ∧
    y.step (twoEntries 0x8000) (pageSlices fourPages 0x8000) (3, .request 0 0x9004 true) = some y' ∧
    remap (twoEntries 0x8000) 3 0x9004 y.tlb = some (some 0x12004, y'.tlb) := by
  have hrun : (runSchedule (System.step (twoEntries 0x8000) (pageSlices fourPages 0x8000))
      (System.start scratchpad) [(1, .request 0 0x9004 true), (2, .response 0)]).map
        (fun y => y.phase 0) = some (.answered 0x9004 false) := by
    decide
  obtain ⟨y, hy, hphase⟩ := map_eq_some_iff.mp hrun
  have hmem : (pagesRegion fourPages 0x8000).Mem 0x9004 := ⟨by decide, by decide⟩
  have hasked : Reached (System.step (twoEntries 0x8000) (pageSlices fourPages 0x8000))
      (fun y e => Asked (twoEntries 0x8000) (pagesRegion fourPages 0x8000)
        (pageSlices fourPages 0x8000) y e.2) (System.start scratchpad) y := by
    refine reached_of_cons _ ?_ (fun l hl y => ?_) hy
    · exact fun _ => .inl hmem
    · rw [mem_singleton.mp hl]
      trivial
  have hreached : Reached (System.step (twoEntries 0x8000) (pageSlices fourPages 0x8000))
      (fun _ _ => True) (System.start scratchpad) y :=
    hasked.mono (fun _ _ _ => trivial)
  obtain ⟨-, -, -, -, hhit⟩ := pendingRefills_of_reached (twoEntries 0x8000)
    (pageSlices fourPages 0x8000) scratchpad (.inl rfl) y hreached
  obtain ⟨x, hretry, hright⟩ := hhit 0 0x9004 (by decide) hphase
  have hd : Describes (pagesRegion fourPages 0x8000) (pageSlices fourPages 0x8000) :=
    describes_of_merged (by decide) (by decide) (fun _ hk => merged_pageSlices hk)
  have hx : x = 0x12004 := hright (pagesRegion fourPages 0x8000) hd ⟨rfl, rfl, by decide⟩ hmem
    (fun _ hb hcontains => absurd (le_trans hb.1 hcontains.2) (by decide)) hasked
  obtain ⟨y', hstep, hremap, -⟩ := hretry 3 true
  exact ⟨y, y', hreached, hphase, hstep, hx ▸ hremap⟩

end SmcSim.Tlb
