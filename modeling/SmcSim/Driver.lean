import Mathlib.Data.List.Basic
import Mathlib.Algebra.Order.Ring.Nat
import SmcSim.Interleavings

/-!
# The device driver

`pim_ioctl`, `pim_get_user_pages`, `pim_create_slice_table` and `pim_mmap` of `pim.c`, without
assertions. What the kernel's services return is part of a request, arrays are numbered in the
order in which `kmalloc` returns them, and a call records what it does.
-/

namespace SmcSim.Driver
open List Option

/-- `PIM_IOCTL_MAX_ARGS` -/
def maxArgs : ℕ := 8

/-- `EFAULT` -/
def efault : ℤ := 14

/-- `ENOMEM` -/
def enomem : ℤ := 12

inductive Register where
  | sliceTable
  | sliceCount
  | sliceVStart
  deriving DecidableEq, Repr

/-- The user has filled `copied` entries of `ioctl_arg` when one is read. -/
inductive Action (w : ℕ) where
  | copyFromUser (words : ℕ)
  | readArg (k copied : ℕ)
  | getUserPages (addrStart nPages : BitVec w)
  | readPage (list k : ℕ)
  | usePhysicalAddr (array k : ℕ)
  | writeRegister (register : Register)
  | releasePage (list k : ℕ)
  | kfree (array : ℕ)
  deriving DecidableEq, Repr

/-- `pages`, how many pages `get_user_pages` has put into each array, and what has been done.
A pointer is `none` if it is NULL, or what `kmalloc` returns for no bytes. -/
structure Pages (w : ℕ) where
  list : Option ℕ
  physicalAddr : Option ℕ
  count : ℕ
  allocated : ℕ
  filled : ℕ → ℕ
  trace : List (Action w)

/-- The words on the stack and the words of the user at the first and the second copy, and what
the services return. -/
structure Request (w : ℕ) where
  stack : ℕ → BitVec w
  first : ℕ → BitVec w
  user : ℕ → BitVec w
  copiesFirst : Bool
  copiesAll : Bool
  kmallocList : ℕ → Bool
  pinned : ℕ → ℤ
  kmallocPhysicalAddr : Bool
  getFreePages : Bool

variable {w : ℕ}

def Pages.log (d : Pages w) (actions : List (Action w)) : Pages w :=
  { d with trace := d.trace ++ actions }

@[simp] theorem Pages.log_log (d : Pages w) (l l' : List (Action w)) :
    (d.log l).log l' = d.log (l ++ l') := by
  simp [Pages.log]

namespace Request

/-- `ioctl_arg_size` -/
def argSize (r : Request w) : BitVec w := r.first 0

/-- `ioctl_arg_size+1`, the words of the second copy -/
def words (r : Request w) : ℕ := (r.argSize + 1).toNat

/-- `ioctl_arg`, after the second copy. -/
def arg (r : Request w) (k : ℕ) : BitVec w := if k < r.words then r.user k else r.stack k

def numRanges (r : Request w) : ℕ := r.argSize.toNat / 2 % 2 ^ 32

/-- The copies succeed (one of no words does), and the size is not too large. -/
def Accepted (r : Request w) : Prop :=
  r.copiesFirst = true ∧ r.words ≤ maxArgs ∧ (r.copiesAll = true ∨ r.words = 0)

end Request

/-- The array of no pages is not one. -/
def getUserPages (kmalloc : Bool) (result : ℤ) (addrStart nPages : BitVec w) (d : Pages w) :
    Pages w × ℤ :=
  if kmalloc then
    let d := { d.log [.getUserPages addrStart nPages] with
      list := if nPages = 0 then none else some d.allocated
      allocated := d.allocated + 1
      filled := Function.update d.filled d.allocated result.toNat }
    if BitVec.ofInt w result = nPages then ({ d with count := nPages.toNat % 2 ^ 32 }, 0)
    else (d, -enomem)
  else ({ d with list := none }, -enomem)

/-- The table is dereferenced when it is filled and when the last register is written; `none` is
a read or a write through NULL. -/
def writeRegisters (getFreePages : Bool) (d : Pages w) : Pages w × Option ℤ :=
  if getFreePages then
    (d.log [.writeRegister .sliceTable, .writeRegister .sliceCount, .writeRegister .sliceVStart],
      some 0)
  else if d.count = 0 then (d.log [.writeRegister .sliceTable, .writeRegister .sliceCount], none)
  else (d, none)

/-- The array for the addresses of the pages. -/
def allocPhysicalAddr (kmalloc : Bool) (d : Pages w) : Pages w :=
  { d with
    physicalAddr := if kmalloc ∧ d.count ≠ 0 then some d.allocated else none
    allocated := d.allocated + 1 }

def createSliceTable (r : Request w) (d : Pages w) : Pages w × Option ℤ :=
  let d := allocPhysicalAddr r.kmallocPhysicalAddr d
  match d.count, d.list, d.physicalAddr with
  | 0, _, _ => writeRegisters r.getFreePages d
  | count + 1, some list, some a => writeRegisters r.getFreePages (d.log
      ((List.range (count + 1)).flatMap (fun k => [.readPage list k, .usePhysicalAddr a k])))
  | _ + 1, some list, none => (d.log [.readPage list 0], none)
  | _ + 1, none, _ => (d, none)

/-- What `pim_get_user_pages` returns is dropped. -/
def pinRange (r : Request w) (d : Pages w) (i : ℕ) : Pages w :=
  (getUserPages (r.kmallocList i) (r.pinned i) (r.arg (2 * i + 1)) (r.arg (2 * i + 2))
    (d.log [.readArg (2 * i + 1) r.words, .readArg (2 * i + 2) r.words])).1

/-- `PIM_IOCTL_ALLOCATE_DATA` -/
def allocateData (r : Request w) (d : Pages w) : Pages w × Option ℤ :=
  let d := d.log [.copyFromUser 1]
  if r.copiesFirst then
    let d := d.log [.readArg 0 1]
    if maxArgs < r.words then (d, some (-efault))
    else
      let d := d.log [.copyFromUser r.words]
      if r.copiesAll ∨ r.words = 0 then
        let d := ((List.range r.numRanges).foldl (pinRange r) d).log [.readArg 1 r.words]
        ((createSliceTable r d).1, (createSliceTable r d).2.map (fun _ => 1))
      else (d, some (-efault))
  else (d, some (-efault))

/-- `PIM_IOCTL_RELEASE_ALL_DATA` -/
def releaseAllData (d : Pages w) : Pages w × Option ℤ :=
  match d.list with
  | some list => (d.log ((List.range d.count).flatMap
      (fun k => [.readPage list k, .releasePage list k, .kfree list])), some 1)
  | none => (d, if d.count = 0 then some 1 else none)

/-- `pim_release` -/
def release (d : Pages w) : Pages w :=
  d.log (d.physicalAddr.toList.map .kfree ++ d.list.toList.map .kfree)

/-! ### The argument -/

/-- The user lists `ioctl_arg_size / 2` ranges. -/
def Action.Safe (r : Request w) : Action w → Prop
  | .copyFromUser words => words ≤ maxArgs
  | .readArg k copied => k < maxArgs ∧ k < copied
  | .getUserPages addrStart nPages => ∃ i, 2 * i + 2 ≤ r.argSize.toNat ∧
      addrStart = r.user (2 * i + 1) ∧ nPages = r.user (2 * i + 2)
  | _ => True

def Safe (r : Request w) (d : Pages w) : Prop := ∀ x ∈ d.trace, x.Safe r

def ArgumentSafe (r : Request w) (d : Pages w) : Prop :=
  Safe r (allocateData r { d with trace := [] }).1

variable {r : Request w} {d : Pages w} {i : ℕ}

@[simp] theorem safe_log (actions : List (Action w)) :
    Safe r (d.log actions) ↔ Safe r d ∧ ∀ x ∈ actions, x.Safe r := by
  simp [Safe, Pages.log, or_imp, forall_and]

theorem words_eq (h : r.argSize ≠ BitVec.allOnes w) : r.words = r.argSize.toNat + 1 := by
  have hlt := r.argSize.isLt
  have hne : r.argSize.toNat ≠ 2 ^ w - 1 := by
    intro heq
    exact h (BitVec.eq_of_toNat_eq (by rw [BitVec.toNat_allOnes, heq]))
  have hone : (1#w).toNat = 1 := by
    rw [BitVec.toNat_ofNat]
    exact Nat.mod_eq_of_lt (by omega)
  rw [Request.words, BitVec.toNat_add, BitVec.ofNat_eq_ofNat, hone, Nat.mod_eq_of_lt (by omega)]

theorem words_allOnes (h : r.argSize = BitVec.allOnes w) : r.words = 0 := by
  rw [Request.words, h, ← BitVec.neg_one_eq_allOnes, BitVec.add_comm]
  exact congrArg BitVec.toNat (BitVec.add_right_neg _)

theorem one_lt_words : 1 < r.words ↔ r.argSize ≠ BitVec.allOnes w ∧ r.argSize ≠ 0 := by
  by_cases h : r.argSize = BitVec.allOnes w
  · simp [words_allOnes h, h]
  · rw [words_eq h, Nat.lt_add_left_iff_pos, Nat.pos_iff_ne_zero]
    simp [h, ← BitVec.toNat_inj]

theorem trace_getUserPages (kmalloc : Bool) (result : ℤ) (addrStart nPages : BitVec w)
    (d : Pages w) : (getUserPages kmalloc result addrStart nPages d).1.trace =
      d.trace ++ if kmalloc then [.getUserPages addrStart nPages] else [] := by
  unfold getUserPages
  split
  · dsimp only
    split <;> rfl
  · exact (append_nil _).symm

theorem safe_pinRange (hsize : r.argSize ≠ BitVec.allOnes w) (hwords : r.words ≤ maxArgs)
    (hi : i < r.numRanges) (h : Safe r d) : Safe r (pinRange r d i) := by
  have hlisted : 2 * i + 2 ≤ r.argSize.toNat := by
    have hle := Nat.mod_le (r.argSize.toNat / 2) (2 ^ 32)
    unfold Request.numRanges at hi
    omega
  have hwords' := words_eq hsize
  unfold maxArgs at hwords
  have hargs : ∀ x ∈ [Action.readArg (2 * i + 1) r.words, .readArg (2 * i + 2) r.words],
      x.Safe r := by
    simp [Action.Safe, maxArgs]
    omega
  have hcopied : ∀ k ≤ 2 * i + 2, r.arg k = r.user k := fun k hk => if_pos (by omega)
  intro x hx
  rw [pinRange, trace_getUserPages, mem_append] at hx
  rcases hx with hx | hx
  · exact (safe_log _).mpr ⟨h, hargs⟩ x hx
  · split at hx
    · obtain rfl := mem_singleton.mp hx
      exact ⟨i, hlisted, hcopied _ (by omega), hcopied _ (le_rfl)⟩
    · cases hx

theorem writeRegisters_fst (getFreePages : Bool) (d : Pages w) :
    ∃ t, (writeRegisters getFreePages d).1 = d.log t ∧
      ∀ x ∈ t, ∃ register, x = .writeRegister register := by
  unfold writeRegisters
  split
  · exact ⟨_, rfl, by simp⟩
  · split
    · exact ⟨_, rfl, by simp⟩
    · exact ⟨[], by simp [Pages.log], by simp⟩

/-- `pim_create_slice_table` uses the arrays and writes registers. -/
theorem createSliceTable_fst (r : Request w) (d : Pages w) : ∃ t,
    (createSliceTable r d).1 = (allocPhysicalAddr r.kmallocPhysicalAddr d).log t ∧ ∀ x ∈ t,
      (∃ k, x = .usePhysicalAddr d.allocated k) ∨
      (∃ list k, d.list = some list ∧ x = .readPage list k) ∨
        ∃ register, x = .writeRegister register := by
  unfold createSliceTable
  dsimp only
  split
  · obtain ⟨t, ht, hx⟩ := writeRegisters_fst r.getFreePages
      (allocPhysicalAddr r.kmallocPhysicalAddr d)
    exact ⟨t, ht, fun x hmem => .inr (.inr (hx x hmem))⟩
  · next list a _ hlist ha =>
    obtain ⟨t, ht, hx⟩ := writeRegisters_fst r.getFreePages
      ((allocPhysicalAddr r.kmallocPhysicalAddr d).log _)
    refine ⟨_, ht.trans (Pages.log_log _ _ _), fun x hmem => ?_⟩
    obtain rfl : d.allocated = a := (ite_none_right_eq_some.mp ha).2 |> some.inj
    rcases mem_append.mp hmem with hmem | hmem
    · obtain ⟨k, -, hk⟩ := mem_flatMap.mp hmem
      rcases mem_pair.mp hk with rfl | rfl
      · exact .inr (.inl ⟨list, k, hlist, rfl⟩)
      · exact .inl ⟨k, rfl⟩
    · exact .inr (.inr (hx x hmem))
  · next list _ hlist _ =>
    refine ⟨_, rfl, fun x hmem => .inr (.inl ⟨list, 0, hlist, mem_singleton.mp hmem⟩)⟩
  · exact ⟨[], by simp [Pages.log], by simp⟩

theorem safe_createSliceTable : Safe r (createSliceTable r d).1 ↔ Safe r d := by
  obtain ⟨t, ht, hx⟩ := createSliceTable_fst r d
  rw [ht, safe_log]
  refine and_iff_left (fun x hmem => ?_)
  rcases hx x hmem with ⟨k, rfl⟩ | ⟨list, k, -, rfl⟩ | ⟨register, rfl⟩ <;> trivial

theorem allocateData_of_accepted (h : r.Accepted) (d : Pages w) : allocateData r d =
    let d := ((List.range r.numRanges).foldl (pinRange r)
      (d.log [.copyFromUser 1, .readArg 0 1, .copyFromUser r.words])).log [.readArg 1 r.words]
    ((createSliceTable r d).1, (createSliceTable r d).2.map (fun _ => 1)) := by
  obtain ⟨hfirst, hwords, hall⟩ := h
  simp [allocateData, if_pos hfirst, if_neg (not_lt.mpr hwords), if_pos hall]

theorem allocateData_of_not_accepted (h : ¬ r.Accepted) (d : Pages w) :
    ∃ actions ⊆ [.copyFromUser 1, .readArg 0 1, .copyFromUser (min r.words maxArgs)],
      allocateData r d = (d.log actions, some (-efault)) := by
  unfold allocateData
  dsimp only
  split
  · next hfirst =>
    split
    · exact ⟨[.copyFromUser 1, .readArg 0 1], by simp, by simp⟩
    · next hwords =>
      have hwords := Nat.le_of_not_lt hwords
      rw [if_neg (fun hall => h ⟨hfirst, hwords, hall⟩), min_eq_left hwords]
      exact ⟨_, List.Subset.refl _, by simp⟩
  · exact ⟨[.copyFromUser 1], by simp, rfl⟩

theorem safe_foldl_pinRange (hsize : r.argSize ≠ BitVec.allOnes w) (hwords : r.words ≤ maxArgs)
    (is : List ℕ) (his : ∀ i ∈ is, i < r.numRanges) (h : Safe r d) :
    Safe r (is.foldl (pinRange r) d) := by
  induction is generalizing d with
  | nil => exact h
  | cons i is ih =>
    rw [forall_mem_cons] at his
    exact ih his.2 (safe_pinRange hsize hwords his.1 h)

theorem safe_copies {t : List (Action w)}
    (ht : t ⊆ [.copyFromUser 1, .readArg 0 1, .copyFromUser (min r.words maxArgs)]) (d : Pages w) :
    Safe r (Pages.log { d with trace := [] } t) := by
  intro x hx
  have hx := ht hx
  simp only [mem_cons, not_mem_nil, or_false] at hx
  rcases hx with rfl | rfl | rfl
  · exact show 1 ≤ maxArgs by decide
  · exact ⟨by decide, by decide⟩
  · exact Nat.min_le_right _ _

/-- The address of the table is read after the ranges. -/
theorem argumentSafe_of_accepted (h : r.Accepted) : ArgumentSafe r d ↔ 1 < r.words := by
  have hread : (Action.readArg (w := w) 1 r.words).Safe r ↔ 1 < r.words := and_iff_right (by decide)
  rw [ArgumentSafe, allocateData_of_accepted h, safe_createSliceTable, safe_log,
    forall_mem_singleton, hread]
  refine and_iff_right_of_imp (fun hone => ?_)
  refine safe_foldl_pinRange (one_lt_words.mp hone).1 h.2.1 _ (fun i => mem_range.mp)
    (safe_copies ?_ d)
  rw [min_eq_left h.2.1]
  exact List.Subset.refl _

theorem argumentSafe_iff (r : Request w) (d : Pages w) : ArgumentSafe r d ↔
    r.copiesFirst = false ∨
      r.argSize ≠ BitVec.allOnes w ∧ (r.argSize ≠ 0 ∨ r.copiesAll = false) := by
  have hone := one_lt_words (r := r)
  by_cases haccepted : r.Accepted
  · rw [argumentSafe_of_accepted haccepted, hone]
    obtain ⟨hfirst, -, hall⟩ := haccepted
    constructor
    · exact fun h => .inr ⟨h.1, .inl h.2⟩
    · rintro (hnot | ⟨hsize, hzero | hnot⟩)
      · rw [hfirst] at hnot
        cases hnot
      · exact ⟨hsize, hzero⟩
      · have hwords := hall.resolve_left (by simp [hnot])
        rw [words_eq hsize] at hwords
        cases hwords
  · obtain ⟨t, ht, hrun⟩ := allocateData_of_not_accepted haccepted { d with trace := [] }
    have hsafe : ArgumentSafe r d := by
      rw [ArgumentSafe, hrun]
      exact safe_copies ht d
    refine iff_of_true hsafe (or_iff_not_imp_left.mpr (fun hfirst => ?_))
    have hfirst : r.copiesFirst = true := by simpa using hfirst
    have hsize : r.argSize ≠ BitVec.allOnes w := by
      intro hsize
      have hwords := words_allOnes hsize
      exact haccepted ⟨hfirst, by rw [hwords]; decide, .inr hwords⟩
    refine ⟨hsize, or_iff_not_imp_left.mpr (fun hzero => ?_)⟩
    by_contra hall
    have hwords : r.words = 1 := by rw [words_eq hsize, not_not.mp hzero]; rfl
    exact haccepted ⟨hfirst, by rw [hwords]; decide, .inl (by simpa using hall)⟩

/-- All services succeed, and every word of the user is `x`. -/
def wordRequest (x : BitVec w) : Request w :=
  ⟨fun _ => 0, fun _ => x, fun _ => x, true, true, fun _ => true, fun _ => x.toNat, true, true⟩

def noPages : Pages w := ⟨none, none, 0, 0, fun _ => 0, []⟩

/-- `ioctl_arg_size+1` is zero. -/
theorem not_argumentSafe_allOnes : ¬ ArgumentSafe (wordRequest (BitVec.allOnes 64)) noPages := by
  rw [argumentSafe_of_accepted ⟨rfl, by decide, .inr (by decide)⟩]
  decide

/-! ### Failures -/

/-- A range is not pinned as a whole, or an allocation of `pim_create_slice_table` fails. -/
def Request.Failed (r : Request w) : Prop :=
  (∃ i < r.numRanges, r.kmallocList i = false ∨ r.pinned i ≠ (r.arg (2 * i + 2)).toNat) ∨
    r.kmallocPhysicalAddr = false ∨ r.getFreePages = false

/-- An error is returned, no register is written and no page is read that is not there. -/
def Aborts (r : Request w) (d : Pages w) : Prop :=
  let x := allocateData r { d with trace := [] }
  (∃ e < 0, x.2 = some e) ∧ (∀ register, .writeRegister register ∉ x.1.trace) ∧
    ∀ list k, .readPage list k ∈ x.1.trace → k < x.1.filled list

def FailureAtomic (r : Request w) (d : Pages w) : Prop := r.Failed → Aborts r d

theorem not_failureAtomic_of_failed {r : Request w} (haccepted : r.Accepted) (hfailed : r.Failed)
    (d : Pages w) : ¬ FailureAtomic r d := by
  intro h
  obtain ⟨⟨e, hneg, he⟩, -⟩ := h hfailed
  rw [allocateData_of_accepted haccepted] at he
  -- what `pim_create_slice_table` returns is dropped too
  obtain ⟨-, -, rfl⟩ := map_eq_some_iff.mp he
  exact absurd hneg (by decide)

/-- A range of two pages, of which `pinned` are there. -/
def twoPages (pinned : ℤ) (getFreePages : Bool) : Request 32 :=
  ⟨fun _ => 0, fun _ => 2, fun k => [2, 0x10000, 2].getD k 0, true, true, fun _ => true,
    fun _ => pinned, true, getFreePages⟩

theorem not_failureAtomic_noTable : (twoPages 2 false).Accepted ∧ (twoPages 2 false).Failed ∧
    ¬ FailureAtomic (twoPages 2 false) noPages := by
  have haccepted : (twoPages 2 false).Accepted := ⟨rfl, by decide, .inl rfl⟩
  have hfailed : (twoPages 2 false).Failed := .inr (.inr rfl)
  exact ⟨haccepted, hfailed, not_failureAtomic_of_failed haccepted hfailed noPages⟩

/-- The registers are written for no pages at all. -/
theorem not_failureAtomic_onePinned : ¬ FailureAtomic (twoPages 1 true) noPages := by
  intro h
  have hfailed : (twoPages 1 true).Failed := .inl ⟨0, by decide, .inr (by decide)⟩
  exact (h hfailed).2.1 .sliceCount (by decide)

/-! ### Mappings -/

/-- `PAGE_SHIFT`, `PHY_BASE` and `PHY_SIZE`: the windows of the devices are behind one another. -/
structure Windows (w : ℕ) where
  pageShift : ℕ
  base : ℕ
  size : ℕ
  devices : ℕ
  base_aligned : 2 ^ pageShift ∣ base
  size_aligned : 2 ^ pageShift ∣ size
  size_pos : 0 < size
  size_lt : size < base
  fits : base + devices * size ≤ 2 ^ w

/-- `pim_mmap`: the pages that are mapped, or `none` for `-EINVAL`. -/
def mmap (c : Windows w) (vmPgoff vsize : BitVec w) : Option (List ℕ) :=
  let off := vmPgoff <<< c.pageShift
  let psize := BitVec.ofNat w c.size - off
  if psize < vsize then none
  else some ((List.range (vsize.toNat / 2 ^ c.pageShift)).map (vmPgoff.toNat + ·))

/-- `PIMAPI::mmap_device` -/
def mmapDevice (c : Windows w) (k : ℕ) : Option (List ℕ) :=
  mmap c (BitVec.ofNat w ((c.base + k * c.size) / 2 ^ c.pageShift)) (BitVec.ofNat w c.size)

def Confined (c : Windows w) (k : ℕ) (vmPgoff vsize : BitVec w) : Prop :=
  ∀ pages, mmap c vmPgoff vsize = some pages → ∀ p ∈ pages,
    c.base + k * c.size ≤ p * 2 ^ c.pageShift ∧
      (p + 1) * 2 ^ c.pageShift ≤ c.base + (k + 1) * c.size

variable {c : Windows w} {k : ℕ} {vmPgoff vsize : BitVec w}

/-- The mapping is refused if it goes beyond `PHY_SIZE`, or beyond it from the other side. -/
def Refused (c : Windows w) (vmPgoff vsize : BitVec w) : Prop :=
  let off := vmPgoff.toNat * 2 ^ c.pageShift % 2 ^ w
  off ≤ c.size ∧ c.size < off + vsize.toNat ∨ c.size < off ∧ 2 ^ w + c.size < off + vsize.toNat

theorem mmap_eq_none_iff : mmap c vmPgoff vsize = none ↔ Refused c vmPgoff vsize := by
  have hsize : c.size < 2 ^ w := by
    have hlt := c.size_lt
    have hfits := c.fits
    omega
  have hoff := Nat.mod_lt (vmPgoff.toNat * 2 ^ c.pageShift) (Nat.two_pow_pos w)
  rw [mmap, Refused]
  simp only [ite_eq_left_iff, reduceCtorEq, imp_false, not_not, BitVec.lt_def, BitVec.toNat_sub,
    BitVec.toNat_shiftLeft, BitVec.toNat_ofNat, Nat.shiftLeft_eq, Nat.mod_eq_of_lt hsize]
  rcases lt_or_ge c.size (vmPgoff.toNat * 2 ^ c.pageShift % 2 ^ w) with hgt | hle
  · rw [Nat.mod_eq_of_lt (by omega)]
    omega
  · rw [← Nat.sub_add_comm hoff.le, Nat.add_sub_assoc hle, Nat.add_mod_left,
      Nat.mod_eq_of_lt (by omega)]
    omega

theorem mmapDevice_isSome (hk : k < c.devices) : (mmapDevice c k).isSome = true := by
  rw [isSome_iff_ne_none, mmapDevice, Ne, mmap_eq_none_iff]
  have hle := Nat.mul_le_mul_right c.size hk
  rw [Nat.succ_mul] at hle
  have hsize := c.size_lt
  have hpos := c.size_pos
  have hfits := c.fits
  have hdvd := (Nat.dvd_add_right c.base_aligned).mpr (c.size_aligned.mul_left k)
  have hlt : c.base + k * c.size < 2 ^ w := by omega
  have hoff := lt_of_le_of_lt (Nat.div_le_self (c.base + k * c.size) (2 ^ c.pageShift)) hlt
  simp only [Refused, BitVec.toNat_ofNat, Nat.mod_eq_of_lt hoff, Nat.div_mul_cancel hdvd,
    Nat.mod_eq_of_lt hlt, Nat.mod_eq_of_lt (show c.size < 2 ^ w by omega)]
  omega

theorem confined_iff (hk : k < c.devices) (hpos : 0 < vsize.toNat)
    (hpages : 2 ^ c.pageShift ∣ vsize.toNat) :
    Confined c k vmPgoff vsize ∧ (mmapDevice c k).isSome = true ↔
      Refused c vmPgoff vsize ∨ c.base + k * c.size ≤ vmPgoff.toNat * 2 ^ c.pageShift ∧
        vmPgoff.toNat * 2 ^ c.pageShift + vsize.toNat ≤ c.base + (k + 1) * c.size := by
  rw [and_iff_left (mmapDevice_isSome hk), ← mmap_eq_none_iff]
  obtain ⟨n, hn⟩ := hpages
  have hdiv : vsize.toNat / 2 ^ c.pageShift = n := by
    rw [hn, Nat.mul_div_cancel_left _ (Nat.two_pow_pos _)]
  cases hmap : mmap c vmPgoff vsize with
  | none => simp [Confined, hmap]
  | some pages =>
    have hpages : pages = (List.range n).map (vmPgoff.toNat + ·) := by
      rw [mmap, hdiv] at hmap
      exact (some.inj (ite_none_left_eq_some.mp hmap).2).symm
    simp only [Confined, hmap, some.injEq, forall_eq', hpages, List.forall_mem_map,
      mem_range, reduceCtorEq, false_or, hn]
    constructor
    · intro h
      obtain ⟨m, rfl⟩ : ∃ m, n = m + 1 := Nat.exists_eq_succ_of_ne_zero (by rintro rfl; simp_all)
      refine ⟨(h 0 (Nat.succ_pos m)).1, ?_⟩
      have hlast := (h m (Nat.lt_succ_self m)).2
      rwa [mul_comm (2 ^ _), ← add_mul, ← add_assoc]
    · intro h i hi
      have hi' := Nat.mul_le_mul_right (2 ^ c.pageShift) hi
      rw [mul_comm (2 ^ _)] at h
      rw [add_mul, add_mul, add_mul, one_mul]
      rw [Nat.succ_mul] at hi'
      omega

/-- Eight windows of a megabyte at 0x70000000, with pages of four kilobytes. -/
def eightWindows : Windows 32 :=
  ⟨12, 0x70000000, 0x100000, 8, by decide, by decide, by decide, by decide, by decide⟩

theorem confined_second : Confined eightWindows 1 0x70100 0x1000 :=
  ((confined_iff (c := eightWindows) (by decide) (by decide) (by decide)).mpr
    (.inr (by decide))).1

/-- A page of main memory. -/
theorem not_confined_zero : ¬ Confined eightWindows 1 0 0x1000 := by
  intro h
  exact absurd (h [0] (by decide) 0 (by decide)).1 (by decide)

end SmcSim.Driver
