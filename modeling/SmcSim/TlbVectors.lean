import SmcSim.Tlb

/-!
# The vectors of the TLB

`ethz_tlb.cc` keeps the rules of the TLB in three vectors, which refills edit at the same
positions. Every event does to the vectors what it does to the list of rules.
-/

namespace SmcSim.Tlb
open SliceTable TranslationRules Interleavings List Option

/-- The vectors, and for the record an identifier for every rule and the times at which the rules
have been inserted or hit. -/
structure Vectors where
  originalRanges : List Range
  remappedRanges : List Range
  lastUsed : List ℕ
  pendingRefills : List ℕ
  ids : List ℕ
  uses : List (ℕ × ℕ)
  issued : ℕ

namespace Vectors

/-- The constructor; `(Tick)-1` is the time of the static rule. -/
def initial (original remapped : Range) : Vectors :=
  ⟨[original], [remapped], [2 ^ 64 - 1], [], [0], [], 1⟩

/-- The loop over `originalRanges`: the first position that contains the address. -/
def lookup (a : ℕ) : List Range → Option ℕ
  | [] => none
  | r :: rs => if r.Contains a then some 0 else (lookup a rs).map (· + 1)

def use (i now : ℕ) (v : Vectors) : Vectors :=
  { v with
    lastUsed := v.lastUsed.set i now
    uses := v.uses ++ [(v.ids.getD i 0, now)] }

/-- `remap`; a position behind the end of a vector is undefined. -/
def remap (c : Config) (now a : ℕ) (v : Vectors) : Option (Option ℕ × Vectors) :=
  match lookup a v.originalRanges with
  | some i =>
      match v.originalRanges[i]?, v.remappedRanges[i]?, v.lastUsed[i]? with
      | some original, some remapped, some _ =>
          some (some (a - original.start + remapped.start), if 0 < i then v.use i now else v)
      | _, _, _ => none
  | none => if c.sliceTablePtr ≠ 0 then some (none, v) else none

/-- The loop of `updateTLB` that starts at `lastUsed[1]`. -/
def minIndex (lastUsed : List ℕ) : ℕ :=
  (List.range' 1 (lastUsed.length - 1)).foldl
    (fun least i => if lastUsed.getD i 0 < lastUsed.getD least 0 then i else least) 1

def erase (i : ℕ) (v : Vectors) : Vectors :=
  { v with
    originalRanges := v.originalRanges.eraseIdx i
    remappedRanges := v.remappedRanges.eraseIdx i
    lastUsed := v.lastUsed.eraseIdx i
    ids := v.ids.eraseIdx i }

def push (now : ℕ) (x : Slice) (v : Vectors) : Vectors :=
  { v with
    originalRanges := v.originalRanges ++ [⟨x.vaddr, lastAddr x.vaddr x.size⟩]
    remappedRanges := v.remappedRanges ++ [⟨x.paddr, lastAddr x.paddr x.size⟩]
    lastUsed := v.lastUsed ++ [now]
    ids := v.ids ++ [v.issued]
    uses := v.uses ++ [(v.issued, now)]
    issued := v.issued + 1 }

def updateTLB (c : Config) (now : ℕ) (x : Slice) (v : Vectors) : Option Vectors :=
  if c.tlbSize ≤ v.originalRanges.length then
    if 1 < v.lastUsed.length then some ((v.erase (minIndex v.lastUsed)).push now x) else none
  else some (v.push now x)

section Refills

variable (c : Config) (table : ℕ → Slice)

def refillTLBFunctional (now a : ℕ) (v : Vectors) : Option Vectors :=
  if c.sliceVStart ≤ a then
    if entryAddr c a ∈ v.pendingRefills then none else updateTLB c now (table (index c a)) v
  else none

def refillTLBTiming (accepted : Bool) (a : ℕ) (v : Vectors) : Option Vectors :=
  if c.sliceVStart ≤ a then
    if entryAddr c a ∈ v.pendingRefills then some v
    else if accepted then some { v with pendingRefills := v.pendingRefills ++ [entryAddr c a] }
    else some v
  else none

def recvRefill (now a : ℕ) (v : Vectors) : Option Vectors :=
  if entryAddr c a ∈ v.pendingRefills then
    updateTLB c now (table (index c a))
      { v with pendingRefills := v.pendingRefills.erase (entryAddr c a) }
  else none

def step (v : Vectors) : ℕ × Event → Option Vectors
  | (now, .access a) => (remap c now a v).map Prod.snd
  | (now, .refill a) => refillTLBFunctional c table now a v
  | (_, .requestRefill a accepted) => refillTLBTiming c accepted a v
  | (now, .refillResponse a) => recvRefill c table now a v

end Refills

end Vectors

/-! ### The vectors are the rules -/

structure Represents (v : Vectors) (s : State) : Prop where
  original : v.originalRanges = s.rules.map Rule.original
  remapped : v.remappedRanges = s.rules.map Rule.remapped
  lastUsed : v.lastUsed = s.rules.map Rule.lastUsed
  pending : v.pendingRefills = s.pendingRefills

section Refinement

variable {c : Config} {table : ℕ → Slice} {v : Vectors} {s : State} {a now i : ℕ}
  {rules : List Rule} {x : Slice}

theorem lookup_eq_none {ranges : List Range} :
    Vectors.lookup a ranges = none ↔ ∀ r ∈ ranges, ¬ r.Contains a := by
  induction ranges with
  | nil => simp [Vectors.lookup]
  | cons r ranges ih =>
    rw [Vectors.lookup, forall_mem_cons]
    by_cases hr : r.Contains a
    · simp [hr]
    · simp [hr, ih]

/-- The rule at the position that the loop finds is the one that applies. -/
theorem lookup_eq_some (now : ℕ) (h : Vectors.lookup a (rules.map Rule.original) = some i) :
    ∃ r, rules[i]? = some r ∧ TranslationRules.translate rules a = some (r.translate a) ∧
      (touch now a rules).map Rule.lastUsed = (rules.map Rule.lastUsed).set i now := by
  induction rules generalizing i with
  | nil => cases h
  | cons r rules ih =>
    rw [map_cons, Vectors.lookup] at h
    split at h
    · next hr =>
      cases h
      exact ⟨r, rfl, by simp [TranslationRules.translate, ruleFor, hr], by simp [touch, hr]⟩
    · next hr =>
      obtain ⟨j, hj, rfl⟩ := map_eq_some_iff.mp h
      obtain ⟨r', hget, htranslate, htouch⟩ := ih hj
      refine ⟨r', hget, ?_, ?_⟩
      · rw [← htranslate]
        simp [TranslationRules.translate, ruleFor, hr]
      · rw [touch, if_neg hr, map_cons, htouch]
        rfl

theorem map_touch {β : Type} (f : Rule → β)
    (hf : ∀ r : Rule, f { r with lastUsed := now } = f r) :
    (touch now a rules).map f = rules.map f := by
  induction rules with
  | nil => rfl
  | cons r rules ih =>
    rw [touch]
    split
    · simp [hf]
    · simp [ih]

theorem map_recordUse {β : Type} (f : Rule → β)
    (hf : ∀ r : Rule, f { r with lastUsed := now } = f r) :
    (recordUse now a rules).map f = rules.map f := by
  cases rules with
  | nil => rfl
  | cons r rules =>
    rw [recordUse]
    split
    · rfl
    · rw [map_cons, map_touch f hf, map_cons]

theorem lastUsed_recordUse (h : Vectors.lookup a (rules.map Rule.original) = some i) :
    (recordUse now a rules).map Rule.lastUsed =
      if 0 < i then (rules.map Rule.lastUsed).set i now else rules.map Rule.lastUsed := by
  cases rules with
  | nil => cases h
  | cons r rules =>
    rw [map_cons, Vectors.lookup] at h
    rw [recordUse]
    split at h
    · next hr =>
      cases h
      rw [if_pos hr, if_neg (lt_irrefl 0)]
    · next hr =>
      obtain ⟨j, hj, rfl⟩ := map_eq_some_iff.mp h
      obtain ⟨-, -, -, htouch⟩ := lookup_eq_some now hj
      rw [if_neg hr, if_pos (Nat.succ_pos j), map_cons, htouch]
      rfl

theorem minIndex_map : Vectors.minIndex (rules.map Rule.lastUsed) = leastRecentlyUsed rules := by
  have hvalue : ∀ i, (rules.map Rule.lastUsed).getD i 0 = lastUsedAt rules i := by
    intro i
    simp [lastUsedAt, getD_eq_getElem?_getD]
  unfold Vectors.minIndex leastRecentlyUsed
  simp only [length_map, hvalue]

theorem Represents.access (h : Represents v s) :
    Option.Rel Represents ((v.remap c now a).map Prod.snd)
      ((Tlb.remap c now a s).map Prod.snd) := by
  unfold Vectors.remap Tlb.remap
  cases hlookup : Vectors.lookup a v.originalRanges with
  | none =>
    have hnone : TranslationRules.translate s.rules a = none := by
      rw [h.original, lookup_eq_none, List.forall_mem_map] at hlookup
      exact translate_eq_none.mpr hlookup
    rw [hnone]
    simp only
    split
    · exact .some h
    · exact .none
  | some i =>
    rw [h.original] at hlookup
    obtain ⟨r, hget, htranslate, -⟩ := lookup_eq_some now hlookup
    have horiginal : v.originalRanges[i]? = some r.original := by simp [h.original, hget]
    have hremapped : v.remappedRanges[i]? = some r.remapped := by simp [h.remapped, hget]
    have hlastUsed : v.lastUsed[i]? = some r.lastUsed := by simp [h.lastUsed, hget]
    rw [htranslate]
    simp only [horiginal, hremapped, hlastUsed, map_some]
    refine .some ⟨?_, ?_, ?_, ?_⟩
    · rw [map_recordUse Rule.original (fun _ => rfl), ← h.original]
      split <;> rfl
    · rw [map_recordUse Rule.remapped (fun _ => rfl), ← h.remapped]
      split <;> rfl
    · rw [lastUsed_recordUse hlookup, ← h.lastUsed]
      split <;> rfl
    · rw [← h.pending]
      split <;> rfl

theorem Represents.updateTLB (h : Represents v s) :
    Option.Rel Represents (v.updateTLB c now x) (some (Tlb.updateTLB c now x s)) := by
  have hlength : v.originalRanges.length = s.rules.length := by rw [h.original, length_map]
  have hpush : ∀ (w : Vectors) (t : State), Represents w t → Represents (w.push now x)
      { t with rules := t.rules ++ [ruleOf now x] } := by
    intro w t hw
    refine ⟨?_, ?_, ?_, hw.pending⟩
    · simp [Vectors.push, hw.original, ruleOf]
    · simp [Vectors.push, hw.remapped, ruleOf]
    · simp [Vectors.push, hw.lastUsed, ruleOf]
  unfold Vectors.updateTLB Tlb.updateTLB
  rw [hlength]
  split
  · next hfull =>
    have htwo : 1 < v.lastUsed.length := by
      rw [h.lastUsed, length_map]
      exact lt_of_lt_of_le c.two_le_tlbSize hfull
    rw [if_pos htwo, h.lastUsed, minIndex_map]
    refine .some (hpush _ { s with rules := s.rules.eraseIdx (leastRecentlyUsed s.rules) } ?_)
    refine ⟨?_, ?_, ?_, h.pending⟩
    · simp [Vectors.erase, h.original, eraseIdx_map]
    · simp [Vectors.erase, h.remapped, eraseIdx_map]
    · simp [Vectors.erase, h.lastUsed, eraseIdx_map]
  · exact .some (hpush v s h)

/-- The vectors do what the rules do. -/
theorem Represents.step (h : Represents v s) (e : ℕ × Event) :
    Option.Rel Represents (v.step c table e) (Tlb.step c table s e) := by
  obtain ⟨now, e⟩ := e
  cases e with
  | access a => exact h.access
  | refill a =>
    simp only [Vectors.step, Tlb.step, Vectors.refillTLBFunctional, Tlb.refillTLBFunctional,
      h.pending]
    split
    · split
      · exact .none
      · exact h.updateTLB
    · exact .none
  | requestRefill a accepted =>
    simp only [Vectors.step, Tlb.step, Vectors.refillTLBTiming, Tlb.refillTLBTiming, h.pending]
    split
    · split
      · exact .some h
      · split
        · exact .some ⟨h.original, h.remapped, h.lastUsed, rfl⟩
        · exact .some h
    · exact .none
  | refillResponse a =>
    simp only [Vectors.step, Tlb.step, Vectors.recvRefill, Tlb.recvRefill, h.pending]
    split
    · exact Represents.updateTLB ⟨h.original, h.remapped, h.lastUsed, rfl⟩
    · exact .none

theorem Represents.run (h : Represents v s) (es : List (ℕ × Event)) :
    Option.Rel Represents (runSchedule (Vectors.step c table) v es)
      (runSchedule (Tlb.step c table) s es) := by
  induction es generalizing v s with
  | nil => exact .some h
  | cons e es ih =>
    have hstep := @Represents.step c table v s h e
    simp only [runSchedule]
    generalize v.step c table e = v' at hstep ⊢
    generalize Tlb.step c table s e = s' at hstep ⊢
    cases hstep with
    | some h' => exact ih h'
    | none => exact .none

end Refinement

/-- After any events the vectors and the rules have panicked both, or are the same translation. -/
theorem vectors_represent_rules (c : Config) (table : ℕ → Slice) (original remapped : Range)
    (es : List (ℕ × Event)) :
    Option.Rel Represents (runSchedule (Vectors.step c table) (.initial original remapped) es)
      (runSchedule (step c table) (initial ⟨original, remapped, 2 ^ 64 - 1⟩) es) :=
  Represents.run ⟨rfl, rfl, rfl, rfl⟩ es

end SmcSim.Tlb
