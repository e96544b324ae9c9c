import SmcSim.Driver

/-!
# Calls of the driver

The files of all devices share `pages`. A call of the driver keeps the arrays and the pages in
order if it comes at the right time.
-/

namespace SmcSim.Driver
open Interleavings List Function

variable {w : ℕ}

/-- The minor numbers of the open files, and whether all pages have been released since the last
`PIM_IOCTL_ALLOCATE_DATA`. -/
structure System (w : ℕ) where
  pages : Pages w
  opened : List ℕ
  releasedAll : Bool

inductive Call (w : ℕ) where
  | openFile (minor : ℕ)
  | allocateData (minor : ℕ) (r : Request w)
  | releaseAllData (minor : ℕ)
  | close (minor : ℕ)

def step (s : System w) : Call w → Option (System w)
  | .openFile minor => some { s with opened := minor :: s.opened }
  | .allocateData minor r =>
      if minor ∈ s.opened then
        some { s with pages := (allocateData r s.pages).1, releasedAll := false }
      else none
  | .releaseAllData minor =>
      if minor ∈ s.opened then
        some { s with pages := (releaseAllData s.pages).1, releasedAll := true }
      else none
  | .close minor =>
      if minor ∈ s.opened then
        some { s with pages := release s.pages, opened := s.opened.erase minor }
      else none

def start : System w := ⟨noPages, [], false⟩

def Action.Uses : Action w → ℕ → Prop
  | .readPage list _, a => list = a
  | .releasePage list _, a => list = a
  | .usePhysicalAddr array _, a => array = a
  | .kfree array, a => array = a
  | _, _ => False

/-- No array is used or freed after it has been freed, no page is released twice, and after
`PIM_IOCTL_RELEASE_ALL_DATA` every page has been released. -/
structure Disciplined (s : System w) : Prop where
  live : s.pages.trace.Pairwise (fun x y => ∀ a, x = .kfree a → ¬ y.Uses a)
  once : ∀ list k, s.pages.trace.count (.releasePage list k) ≤ 1
  all : s.releasedAll = true → ∀ list k, k < s.pages.filled list →
    .releasePage list k ∈ s.pages.trace

def Pages.Live (d : Pages w) (pointer : Option ℕ) : Prop :=
  ∀ a, pointer = some a → .kfree a ∉ d.trace

/-- Pages are pinned in one range when no others are, released if there is one at most, and
arrays are freed once. -/
def Careful (s : System w) : Call w → Prop
  | .openFile _ => True
  | .allocateData _ r => r.Accepted → r.numRanges = 1 ∧ (r.arg 2).toNat < 2 ^ 32 ∧
      ∀ list k, k < s.pages.filled list → .releasePage list k ∈ s.pages.trace
  | .releaseAllData _ => s.pages.count = 0 ∨ s.pages.count = 1 ∧ s.pages.Live s.pages.list
  | .close _ => s.pages.Live s.pages.list ∧ s.pages.Live s.pages.physicalAddr

/-- The kernel's services do what they are asked for. -/
def Served : Call w → Prop
  | .allocateData _ r => ¬ r.Failed
  | .openFile _ | .releaseAllData _ | .close _ => True

/-- What is kept of the trace: arrays have numbers below `allocated`. -/
structure Ordered (trace : List (Action w)) (allocated : ℕ) : Prop where
  live : trace.Pairwise (fun x y => ∀ a, x = .kfree a → ¬ y.Uses a)
  once : ∀ list k, trace.count (.releasePage list k) ≤ 1
  used : ∀ x ∈ trace, ∀ a, x.Uses a → a < allocated
  freed : ∀ list k, .releasePage list k ∈ trace → .kfree list ∈ trace

structure Invariant (s : System w) : Prop where
  ordered : Ordered s.pages.trace s.pages.allocated
  pointers : ∀ a, s.pages.list = some a ∨ s.pages.physicalAddr = some a → a < s.pages.allocated
  apart : ∀ a, s.pages.list = some a → s.pages.physicalAddr ≠ some a
  counted : s.pages.count = (s.pages.list.map s.pages.filled).getD 0
  pinned : ∀ list k, k < s.pages.filled list → .releasePage list k ∈ s.pages.trace ∨
    s.pages.list = some list ∧ s.releasedAll = false

section Calls

variable {r : Request w} {d : Pages w} {s s' : System w}

theorem pinRange_eq (hkmalloc : r.kmallocList i = true)
    (hpinned : r.pinned i = (r.arg (2 * i + 2)).toNat) (d : Pages w) : pinRange r d i =
      { d.log [.readArg (2 * i + 1) r.words, .readArg (2 * i + 2) r.words,
          .getUserPages (r.arg (2 * i + 1)) (r.arg (2 * i + 2))] with
        list := if r.arg (2 * i + 2) = 0 then none else some d.allocated
        allocated := d.allocated + 1
        filled := update d.filled d.allocated (r.arg (2 * i + 2)).toNat
        count := (r.arg (2 * i + 2)).toNat % 2 ^ 32 } := by
  simp [pinRange, getUserPages, hkmalloc, hpinned, Pages.log]

/-- One range is pinned: what is used afterwards are the two new arrays. -/
theorem allocateData_eq (haccepted : r.Accepted) (hserved : ¬ r.Failed) (hone : r.numRanges = 1)
    (hlt : (r.arg 2).toNat < 2 ^ 32) (d : Pages w) : ∃ t, (allocateData r d).1 =
      { list := if r.arg 2 = 0 then none else some d.allocated
        physicalAddr := if r.arg 2 = 0 then none else some (d.allocated + 1)
        count := (r.arg 2).toNat
        allocated := d.allocated + 2
        filled := update d.filled d.allocated (r.arg 2).toNat
        trace := d.trace ++ t } ∧ ∀ x ∈ t, (∀ a, x.Uses a → d.allocated ≤ a ∧ a < d.allocated + 2) ∧
      (∀ a, x ≠ .kfree a) ∧ ∀ list k, x ≠ .releasePage list k := by
  simp only [Request.Failed, not_or, not_exists, not_and, not_not, Bool.not_eq_false] at hserved
  obtain ⟨hranges, hkmalloc, -⟩ := hserved
  obtain ⟨hlist, hpinned⟩ := hranges 0 (by omega)
  rw [allocateData_of_accepted haccepted, hone]
  dsimp only [range_one, foldl_cons, foldl_nil]
  rw [pinRange_eq hlist hpinned]
  obtain ⟨t, ht, hx⟩ := createSliceTable_fst r (Pages.log _ _)
  refine ⟨[.copyFromUser 1, .readArg 0 1, .copyFromUser r.words, .readArg 1 r.words,
    .readArg 2 r.words, .getUserPages (r.arg 1) (r.arg 2), .readArg 1 r.words] ++ t, ?_,
    fun x hmem => ?_⟩
  · rw [ht]
    have hcount : (r.arg 2).toNat % 4294967296 = (r.arg 2).toNat := Nat.mod_eq_of_lt hlt
    simp [allocPhysicalAddr, Pages.log, hkmalloc, hcount, ← BitVec.toNat_inj, add_assoc]
  · rcases mem_append.mp hmem with hmem | hmem
    · simp only [mem_cons, not_mem_nil, or_false] at hmem
      rcases hmem with rfl | rfl | rfl | rfl | rfl | rfl | rfl <;> simp [Action.Uses]
    · rcases hx x hmem with ⟨k, rfl⟩ | ⟨list, k, hlist, rfl⟩ | ⟨register, rfl⟩
      · simp [Action.Uses, Pages.log]
      · simp [Action.Uses, Pages.log] at hlist ⊢
        omega
      · simp [Action.Uses]

theorem Invariant.disciplined (h : Invariant s) : Disciplined s := by
  refine ⟨h.ordered.live, h.ordered.once, fun hall list k hk => ?_⟩
  refine (h.pinned list k hk).resolve_right (fun hnot => ?_)
  rw [hall] at hnot
  cases hnot.2

theorem invariant_start : Invariant (start (w := w)) := by
  refine ⟨⟨.nil, fun _ _ => Nat.zero_le 1, ?_, ?_⟩, ?_, ?_, rfl, ?_⟩ <;> simp [start, noPages]

/-- New arrays are used. -/
theorem Ordered.append {trace t : List (Action w)} {n n' : ℕ} (h : Ordered trace n) (hle : n ≤ n')
    (ht : ∀ x ∈ t, (∀ a, x.Uses a → n ≤ a ∧ a < n') ∧ (∀ a, x ≠ .kfree a) ∧
      ∀ list k, x ≠ .releasePage list k) : Ordered (trace ++ t) n' := by
  refine ⟨?_, fun list k => ?_, fun x hx a huses => ?_, fun list k hk => ?_⟩
  · refine pairwise_append.mpr ⟨h.live, pairwise_of_forall_mem_list ?_, ?_⟩
    · intro x hx y _ a hfree
      exact absurd hfree ((ht x hx).2.1 a)
    · rintro x hx y hy a rfl huses
      exact not_lt.mpr ((ht y hy).1 a huses).1 (h.used _ hx a rfl)
  · rw [count_append, count_eq_zero.mpr (fun hx => (ht _ hx).2.2 list k rfl)]
    exact h.once list k
  · rcases mem_append.mp hx with hx | hx
    · exact lt_of_lt_of_le (h.used x hx a huses) hle
    · exact ((ht x hx).1 a huses).2
  · rcases mem_append.mp hk with hk | hk
    · exact mem_append_left _ (h.freed list k hk)
    · exact absurd rfl ((ht _ hk).2.2 list k)

/-- An array is freed, after its page has been released. -/
theorem Ordered.free {trace t : List (Action w)} {n a : ℕ} (h : Ordered trace n) (ha : a < n)
    (hlive : .kfree a ∉ trace) (ht : t = [] ∨ t = [.readPage a 0, .releasePage a 0]) :
    Ordered (trace ++ (t ++ [.kfree a])) n := by
  have huses : ∀ x ∈ t ++ [.kfree a], ∀ b, x.Uses b → b = a := by
    rcases ht with rfl | rfl <;> simp [Action.Uses, eq_comm]
  refine ⟨pairwise_append.mpr ⟨h.live, ?_, ?_⟩, fun list k => ?_, fun x hx b hb => ?_,
    fun list k hk => ?_⟩
  · rcases ht with rfl | rfl <;> simp
  · rintro x hx y hy b rfl hb
    obtain rfl := huses y hy b hb
    exact hlive hx
  · by_cases hlist : list = a
    · have hnone : .releasePage list k ∉ trace := fun hk => hlive (hlist ▸ h.freed list k hk)
      rw [count_append, count_eq_zero.mpr hnone]
      rcases ht with rfl | rfl <;> simp [count_cons]
      split <;> decide
    · have hother : .releasePage list k ∉ t ++ [.kfree a] := fun hk => hlist (huses _ hk list rfl)
      rw [count_append, count_eq_zero.mpr hother]
      exact h.once list k
  · rcases mem_append.mp hx with hx | hx
    · exact h.used x hx b hb
    · exact huses x hx b hb ▸ ha
  · rcases mem_append.mp hk with hk | hk
    · exact mem_append_left _ (h.freed list k hk)
    · rw [huses _ hk list rfl]
      simp

theorem Invariant.allocateData (h : Invariant s) (hserved : ¬ r.Failed)
    (hcareful : r.Accepted → r.numRanges = 1 ∧ (r.arg 2).toNat < 2 ^ 32 ∧
      ∀ list k, k < s.pages.filled list → .releasePage list k ∈ s.pages.trace) :
    Invariant { s with pages := (allocateData r s.pages).1, releasedAll := false } := by
  by_cases haccepted : r.Accepted
  · obtain ⟨hone, hlt, hreleased⟩ := hcareful haccepted
    obtain ⟨t, ht, hx⟩ := allocateData_eq haccepted hserved hone hlt s.pages
    rw [ht]
    refine ⟨h.ordered.append (Nat.le_add_right _ 2) hx, fun a ha => ?_, fun a ha => ?_, ?_,
      fun list k hk => ?_⟩
    · grind
    · grind
    · by_cases hpages : r.arg 2 = 0
      · simp [hpages]
      · rw [if_neg hpages]
        simp
    · rcases eq_or_ne list s.pages.allocated with rfl | hne
      · refine .inr ⟨if_neg (fun hpages => ?_), rfl⟩
        simp [hpages] at hk
      · simp only [update_of_ne hne] at hk
        exact .inl (mem_append_left _ (hreleased list k hk))
  · obtain ⟨t, ht, hrun⟩ := allocateData_of_not_accepted haccepted s.pages
    rw [hrun]
    refine ⟨h.ordered.append (le_rfl) (fun x hx => ?_), h.pointers, h.apart, h.counted,
      fun list k hk => ?_⟩
    · have hx := ht hx
      simp only [mem_cons, not_mem_nil, or_false] at hx
      rcases hx with rfl | rfl | rfl <;> simp [Action.Uses]
    · exact (h.pinned list k hk).imp (mem_append_left _) (fun hlist => ⟨hlist.1, rfl⟩)

theorem Invariant.releaseAllData (h : Invariant s)
    (hcareful : s.pages.count = 0 ∨ s.pages.count = 1 ∧ s.pages.Live s.pages.list) :
    Invariant { s with pages := (releaseAllData s.pages).1, releasedAll := true } := by
  have hcounted := h.counted
  unfold Driver.releaseAllData
  split
  · next list hlist =>
    rw [hlist] at hcounted
    have hfilled : s.pages.filled list = s.pages.count := hcounted.symm
    refine ⟨?_, h.pointers, h.apart, h.counted, fun list' k hk => .inl ?_⟩
    · rcases hcareful with hzero | ⟨hone, hlive⟩
      · simpa [Pages.log, hzero] using h.ordered
      · simpa [Pages.log, hone] using
          h.ordered.free (h.pointers list (.inl hlist)) (hlive list hlist) (.inr rfl)
    · rcases h.pinned list' k hk with hreleased | ⟨hsame, -⟩
      · exact mem_append_left _ hreleased
      · cases hlist.symm.trans hsame
        refine mem_append_right _ (mem_flatMap.mpr ⟨k, ?_, by simp⟩)
        exact mem_range.mpr (hfilled ▸ hk)
  · next hlist =>
    refine ⟨h.ordered, h.pointers, h.apart, h.counted, fun list k hk => .inl ?_⟩
    refine (h.pinned list k hk).resolve_right (fun hsame => ?_)
    rw [hlist] at hsame
    cases hsame.1

theorem Invariant.release (h : Invariant s) (hlist : s.pages.Live s.pages.list)
    (hphysical : s.pages.Live s.pages.physicalAddr) (opened : List ℕ) :
    Invariant { s with pages := release s.pages, opened := opened } := by
  refine ⟨?_, h.pointers, h.apart, h.counted,
    fun list k hk => (h.pinned list k hk).imp_left (mem_append_left _)⟩
  have hphysical : Ordered (s.pages.trace ++ s.pages.physicalAddr.toList.map .kfree)
      s.pages.allocated := by
    cases ha : s.pages.physicalAddr with
    | none => simpa using h.ordered
    | some a => exact h.ordered.free (h.pointers a (.inr ha)) (hphysical a ha) (.inl rfl)
  cases ha : s.pages.list with
  | none => simpa [Driver.release, Pages.log, ha] using hphysical
  | some a =>
    have hlive : .kfree a ∉ s.pages.trace ++ s.pages.physicalAddr.toList.map .kfree := by
      have hapart := h.apart a ha
      simp [hlist a ha, hapart]
    simpa [Driver.release, Pages.log, ha] using
      hphysical.free (h.pointers a (.inl ha)) hlive (.inl rfl)

theorem Invariant.step {c : Call w} (h : Invariant s) (hserved : Served c) (hcareful : Careful s c)
    (hstep : step s c = some s') : Invariant s' := by
  cases c with
  | openFile minor =>
    cases hstep
    exact ⟨h.ordered, h.pointers, h.apart, h.counted, h.pinned⟩
  | allocateData minor r =>
    obtain ⟨-, rfl⟩ := of_guard hstep
    exact h.allocateData hserved hcareful
  | releaseAllData minor =>
    obtain ⟨-, rfl⟩ := of_guard hstep
    exact h.releaseAllData hcareful
  | close minor =>
    obtain ⟨-, rfl⟩ := of_guard hstep
    exact h.release hcareful.1 hcareful.2 _

theorem disciplined_of_reached
    (h : Reached step (fun s c => Served c ∧ Careful s c) (start (w := w)) s) : Disciplined s := by
  have hinvariant : Invariant s :=
    h.invariant invariant_start (fun _ _ _ hs hok hstep => hs.step hok.1 hok.2 hstep)
  exact hinvariant.disciplined

/-- A range of one page. -/
def onePage : Request 32 :=
  ⟨fun _ => 0, fun _ => 2, fun k => [2, 0x10000, 1].getD k 0, true, true, fun _ => true, fun _ => 1,
    true, true⟩

theorem onePage_served : ¬ onePage.Failed := by
  rintro (⟨i, hi, h⟩ | h | h)
  · obtain rfl : i = 0 := Nat.lt_one_iff.mp hi
    rcases h with h | h
    · cases h
    · exact h (by decide)
  · cases h
  · cases h

theorem disciplined_of_reached_onePage : ∃ s, runSchedule step start [.openFile 0,
    .allocateData 0 onePage, .releaseAllData 0] = some s ∧ Disciplined s := by
  refine ⟨_, rfl, disciplined_of_reached (.next (l := .releaseAllData 0) (.next
    (l := .allocateData 0 onePage) (.next (l := .openFile 0) .start ⟨trivial, trivial⟩ rfl)
      ⟨onePage_served,
        fun _ => ⟨by decide, by decide, fun _ _ hk => absurd hk (Nat.not_lt_zero _)⟩⟩ rfl)
      ⟨trivial, .inr ⟨rfl, fun a ha => ?_⟩⟩ rfl)⟩
  obtain rfl : 0 = a := Option.some.inj ha
  decide

/-- The list is freed with its page, and again with the file. -/
theorem not_disciplined_closed : ∃ s, runSchedule step start [.openFile 0,
    .allocateData 0 onePage, .releaseAllData 0, .close 0] = some s ∧ ¬ Disciplined s := by
  refine ⟨_, rfl, fun h => ?_⟩
  have htwice := h.live.sublist (show [.kfree 0, .kfree 0].Sublist _ by decide)
  exact (pairwise_cons.mp htwice).1 _ (mem_singleton.mpr rfl) 0 rfl rfl

end Calls

end SmcSim.Driver
