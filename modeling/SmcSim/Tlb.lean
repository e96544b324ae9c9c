import SmcSim.SliceTable
import SmcSim.TranslationRules
import SmcSim.Interleavings
import Mathlib.Algebra.Order.Group.Nat

/-!
# The TLB of the PIM

`ethz_TLB` of `ethz_tlb.cc`: one static rule, then the slices that refills have read from
the slice table, with the least recently used one replaced when the TLB is full. Along
every run each rule agrees with the pages of the region that the driver has registered.
-/

namespace SmcSim.Tlb
open SliceTable TranslationRules Interleavings Option List

/-! ### The TLB -/

/-- Parameters, and the registers that the driver writes. -/
structure Config where
  pimArch : ℕ
  osPageShift : ℕ
  tlbSize : ℕ
  two_le_tlbSize : 2 ≤ tlbSize
  sliceTablePtr : ℕ
  sliceVStart : ℕ

structure State where
  rules : List Rule
  pendingRefills : List ℕ

def initial (static : Rule) : State := ⟨[static], []⟩

def remapCheck (s : State) (a : ℕ) : Option ℕ := translate s.rules a

/-- The end of the slice that an address lies in; without one the simulator panics. -/
def sliceVend (s : State) (a : ℕ) : Option ℕ := (ruleFor s.rules a).map (fun r => r.original.stop)

def recordUse (now a : ℕ) : List Rule → List Rule
  | [] => []
  | r :: rs => if r.original.Contains a then r :: rs else r :: touch now a rs

/-- `remap` at time `now`: the translated address, or none on a miss. Without a slice table a
miss is a panic. -/
def remap (c : Config) (now a : ℕ) (s : State) : Option (Option ℕ × State) :=
  match translate s.rules a with
  | some x => some (some x, { s with rules := recordUse now a s.rules })
  | none => if c.sliceTablePtr ≠ 0 then some (none, s) else none

/-- `start + size-1`, an `unsigned long`. -/
def lastAddr (start size : ℕ) : ℕ := (start + size + 0xffffffffffffffff) % 0x10000000000000000

def ruleOf (now : ℕ) (x : Slice) : Rule where
  original := ⟨x.vaddr, lastAddr x.vaddr x.size⟩
  remapped := ⟨x.paddr, lastAddr x.paddr x.size⟩
  lastUsed := now

def updateTLB (c : Config) (now : ℕ) (x : Slice) (s : State) : State :=
  let rules :=
    if c.tlbSize ≤ s.rules.length then s.rules.eraseIdx (leastRecentlyUsed s.rules) else s.rules
  { s with rules := rules ++ [ruleOf now x] }

def index (c : Config) (a : ℕ) : ℕ := (a - c.sliceVStart) >>> c.osPageShift

/-- Its address in memory; an entry has three words. -/
def entryAddr (c : Config) (a : ℕ) : ℕ := c.sliceTablePtr + index c a * (3 * c.pimArch / 8)

section Refills

variable (c : Config) (table : ℕ → Slice)

/-- `refillTLB_functional`, and `refillTLB_atomic` likewise: the entry is read at once. -/
def refillTLBFunctional (now a : ℕ) (s : State) : Option State :=
  if c.sliceVStart ≤ a then
    if entryAddr c a ∈ s.pendingRefills then none else some (updateTLB c now (table (index c a)) s)
  else none

/-- `refillTLB_timing`: the entry is requested from memory, which may refuse the request. -/
def refillTLBTiming (accepted : Bool) (a : ℕ) (s : State) : Option State :=
  if c.sliceVStart ≤ a then
    if entryAddr c a ∈ s.pendingRefills then some s
    else if accepted then some { s with pendingRefills := s.pendingRefills ++ [entryAddr c a] }
    else some s
  else none

/-- `recvTimingResp` for the refill of an address. -/
def recvRefill (now a : ℕ) (s : State) : Option State :=
  if entryAddr c a ∈ s.pendingRefills then
    some (updateTLB c now (table (index c a))
      { s with pendingRefills := s.pendingRefills.erase (entryAddr c a) })
  else none

inductive Event where
  | access (a : ℕ)
  | refill (a : ℕ)
  | requestRefill (a : ℕ) (accepted : Bool)
  | refillResponse (a : ℕ)
  deriving DecidableEq, Repr

def step (s : State) : ℕ × Event → Option State
  | (now, .access a) => (remap c now a s).map Prod.snd
  | (now, .refill a) => refillTLBFunctional c table now a s
  | (_, .requestRefill a accepted) => refillTLBTiming c accepted a s
  | (now, .refillResponse a) => recvRefill c table now a s

end Refills

/-! ### The registered region -/

/-- A region of virtual addresses and the translation meant for it. -/
structure Region where
  vstart : ℕ
  pageShift : ℕ
  count : ℕ
  physical : ℕ → ℕ

def Region.Mem (R : Region) (a : ℕ) : Prop :=
  R.vstart ≤ a ∧ a < R.vstart + R.count * 2 ^ R.pageShift

instance (R : Region) (a : ℕ) : Decidable (R.Mem a) := inferInstanceAs (Decidable (_ ∧ _))

structure Describes (R : Region) (table : ℕ → Slice) : Prop where
  contains : ∀ a, R.Mem a →
    (ruleOf 0 (table ((a - R.vstart) >>> R.pageShift))).original.Contains a
  agrees : ∀ k < R.count, ∀ a, R.Mem a → (ruleOf 0 (table k)).original.Contains a →
    (ruleOf 0 (table k)).translate a = R.physical a

structure Registered (c : Config) (R : Region) : Prop where
  pageShift : c.osPageShift = R.pageShift
  vstart : c.sliceVStart = R.vstart
  table : c.sliceTablePtr ≠ 0

/-- A refill reads an entry of the region, or words that say nothing about it. -/
def RefillOk (c : Config) (R : Region) (table : ℕ → Slice) (a : ℕ) : Prop :=
  R.Mem a ∨ ∀ b, R.Mem b → ¬ (ruleOf 0 (table (index c a))).original.Contains b

section Runs

variable {c : Config} {R : Region} {table : ℕ → Slice} {s s' : State} {a now : ℕ}

theorem index_lt (ha : R.Mem a) : (a - R.vstart) >>> R.pageShift < R.count := by
  rw [Nat.shiftRight_eq_div_pow]
  refine Nat.div_lt_of_lt_mul ?_
  rw [mul_comm]
  have := ha.2
  have := ha.1
  omega

theorem sound_recordUse {region : ℕ → Prop} {f : ℕ → ℕ} {rules : List Rule}
    (h : Sound region f rules) : Sound region f (recordUse now a rules) := by
  cases rules with
  | nil => exact h
  | cons r rs =>
    rw [Tlb.recordUse]
    split
    · exact h
    · have htail : Sound region f rs := h.subset (fun r' hr' => mem_cons_of_mem r hr')
      intro r' hr'
      rcases mem_cons.mp hr' with rfl | hmem
      · exact h r' mem_cons_self
      · exact htail.touch r' hmem

theorem mem_eraseIdx_of_updateTLB (r : Rule)
    (hr : r ∈ if c.tlbSize ≤ s.rules.length then s.rules.eraseIdx (leastRecentlyUsed s.rules)
      else s.rules) : r ∈ s.rules := by
  split at hr
  · exact mem_of_mem_eraseIdx hr
  · exact hr

/-- A rule that agrees with the region may be added. -/
theorem sound_updateTLB {x : Slice} (s : State) (h : Sound R.Mem R.physical s.rules)
    (hx : ∀ a, R.Mem a → (ruleOf 0 x).original.Contains a →
      (ruleOf 0 x).translate a = R.physical a) :
    Sound R.Mem R.physical (updateTLB c now x s).rules :=
  (h.subset mem_eraseIdx_of_updateTLB).concat hx

theorem Describes.refill (hd : Describes R table) (hreg : Registered c R)
    (hok : RefillOk c R table a) (b : ℕ) (hb : R.Mem b)
    (hcontains : (ruleOf 0 (table (index c a))).original.Contains b) :
    (ruleOf 0 (table (index c a))).translate b = R.physical b := by
  rcases hok with ha | hout
  · refine hd.agrees _ ?_ b hb hcontains
    rw [index, hreg.vstart, hreg.pageShift]
    exact index_lt ha
  · exact absurd hcontains (hout b hb)

/-- What a step that is no panic does. -/
theorem step_cases {e : Event} (hstep : step c table s (now, e) = some s') :
    s' = s ∨ (∃ a, e = .access a ∧ s' = { s with rules := recordUse now a s.rules }) ∨
    (∃ a, e = .requestRefill a true ∧
      s' = { s with pendingRefills := s.pendingRefills ++ [entryAddr c a] }) ∨
    (∃ a, e = .refill a ∧ s' = updateTLB c now (table (index c a)) s) ∨
    ∃ a, e = .refillResponse a ∧ s' = updateTLB c now (table (index c a))
      { s with pendingRefills := s.pendingRefills.erase (entryAddr c a) } := by
  cases e with
  | access a =>
    obtain ⟨⟨x, s₁⟩, hremap, rfl⟩ := map_eq_some_iff.mp hstep
    unfold remap at hremap
    split at hremap
    · cases hremap
      exact .inr (.inl ⟨a, rfl, rfl⟩)
    · obtain ⟨-, heq⟩ := ite_none_right_eq_some.mp hremap
      cases heq
      exact .inl rfl
  | refill a =>
    obtain ⟨-, hstep⟩ := ite_none_right_eq_some.mp hstep
    obtain ⟨-, heq⟩ := ite_none_left_eq_some.mp hstep
    exact .inr (.inr (.inr (.inl ⟨a, rfl, (some.inj heq).symm⟩)))
  | requestRefill a accepted =>
    obtain ⟨-, hstep⟩ := ite_none_right_eq_some.mp hstep
    split at hstep
    · cases hstep
      exact .inl rfl
    · split at hstep
      · next haccepted =>
        cases hstep
        exact .inr (.inr (.inl ⟨a, haccepted ▸ rfl, rfl⟩))
      · cases hstep
        exact .inl rfl
  | refillResponse a =>
    obtain ⟨-, heq⟩ := ite_none_right_eq_some.mp hstep
    exact .inr (.inr (.inr (.inr ⟨a, rfl, (some.inj heq).symm⟩)))

theorem remap_of_translate {x : ℕ} (h : translate s.rules a = some x) :
    remap c now a s = some (some x, { s with rules := recordUse now a s.rules }) := by
  rw [remap, h]

end Runs

/-! ### The region of the driver -/

def pagesRegion (p : Pages) (vaddrStart : ℕ) : Region where
  vstart := vaddrStart
  pageShift := p.pageShift
  count := p.count
  physical a := p.physicalAddr ((a - vaddrStart) >>> p.pageShift) + a % p.pageSize

theorem contains_slice {p : Pages} {vaddrStart k : ℕ} {x : Slice} {i c a : ℕ}
    (hcover : Covers p vaddrStart k x i c)
    (hend : vaddrStart + p.pageSize * p.count ≤ 0x10000000000000000) (ha : vaddrStart ≤ a) :
    (ruleOf 0 x).original.Contains a ↔
      i ≤ (a - vaddrStart) >>> p.pageShift ∧ (a - vaddrStart) >>> p.pageShift < i + c := by
  have hpos : 0 < p.pageSize := Nat.two_pow_pos _
  have hc : 0 < c := by
    have := hcover.start_le
    have := hcover.lt_stop
    omega
  have hsize : 0 < p.pageSize * c := Nat.mul_pos hpos hc
  have hinside := Nat.mul_le_mul_left p.pageSize hcover.inside
  rw [Nat.mul_add] at hinside
  rw [hcover.slice, Nat.shiftRight_eq_div_pow, show 2 ^ p.pageShift = p.pageSize from rfl,
    Nat.le_div_iff_mul_le hpos, Nat.div_lt_iff_lt_mul hpos, Nat.add_mul, Nat.mul_comm i,
    Nat.mul_comm c]
  simp only [ruleOf, lastAddr, Range.Contains]
  omega

theorem describes_of_merged {p : Pages} {vaddrStart : ℕ} {table : ℕ → Slice}
    (haligned : p.pageSize ∣ vaddrStart)
    (hend : vaddrStart + p.pageSize * p.count ≤ 0x10000000000000000)
    (hmerged : ∀ k < p.count, Merged p vaddrStart p.count table k) :
    Describes (pagesRegion p vaddrStart) table := by
  constructor
  · intro a ha
    obtain ⟨i, c, hcover, -⟩ := hmerged ((a - vaddrStart) >>> p.pageShift) (index_lt ha)
    exact (contains_slice hcover hend ha.1).mpr ⟨hcover.start_le, hcover.lt_stop⟩
  · intro k hk a ha hin
    obtain ⟨i, c, hcover, -⟩ := hmerged k hk
    obtain ⟨hle, hlt⟩ := (contains_slice hcover hend ha.1).mp hin
    rw [Nat.shiftRight_eq_div_pow, show 2 ^ p.pageShift = p.pageSize from rfl] at hle hlt
    rw [hcover.slice]
    obtain ⟨j, hj⟩ := Nat.exists_eq_add_of_le hle
    have hrun : p.physicalAddr (i + j) = p.physicalAddr i + p.pageSize * j :=
      hcover.run.physicalAddr (by omega)
    have hdivmod := Nat.div_add_mod (a - vaddrStart) p.pageSize
    have hmod : (a - vaddrStart) % p.pageSize = a % p.pageSize := by
      obtain ⟨v, rfl⟩ := haligned
      exact Nat.sub_mul_mod ha.1
    rw [hj, hmod, Nat.mul_add] at hdivmod
    have hstart : vaddrStart ≤ a := ha.1
    simp only [pagesRegion, Rule.translate, ruleOf]
    rw [Nat.shiftRight_eq_div_pow, show 2 ^ p.pageShift = p.pageSize from rfl, hj, hrun]
    omega

def threePages : Pages where
  pageShift := 12
  count := 3
  physicalAddr k := [0x5000, 0x6000, 0x2000].getD k 0

def twoEntries (vstart : ℕ) : Config where
  pimArch := 32
  osPageShift := 12
  tlbSize := 2
  two_le_tlbSize := le_refl 2
  sliceTablePtr := 0x100
  sliceVStart := vstart

def scratchpad : Rule := ⟨⟨0, 0xfff⟩, ⟨0x40000, 0x40fff⟩, 0⟩

end SmcSim.Tlb
