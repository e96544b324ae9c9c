import SmcSim.DmaTraffic
import SmcSim.SgraphBfs

/-!
# Matrix addition

`execute_kernel` of `matrix_add.c` built as `kernel_default` and as `kernel_best`. The second one
works in bursts of `XFER_SIZE` bytes: while it adds two chunks the next ones are read and the sums
of the chunk before are written back. Only whole bursts are made, so that the result is complete
exactly if `XFER_SIZE` divides the size of the matrices in bytes.
-/

namespace SmcSim.MatrixAdd
open EffectPrograms CommandSpec DmaPrograms Interleavings List Function
open SgraphBfs (word sizeofUlong)

inductive Loc where
  | a (i : ℕ)
  | b (i : ℕ)
  | c (i : ℕ)
  deriving DecidableEq, Repr

def sum (mem : Loc → ℕ) (i : ℕ) : ℕ := (mem (.a i) + mem (.b i)) % word

/-! ### The plain kernel -/

def addElement (mem : Loc → ℕ) (i : ℕ) : Loc → ℕ := update mem (.c i) (sum mem i)

def executeKernelDefault (size : ℕ) (mem : Loc → ℕ) : Loc → ℕ :=
  (List.range (size * size % word)).foldl addElement mem

/-- The memory with the sums of the first `n` elements in `C`. -/
def summed (mem : Loc → ℕ) (n : ℕ) : Loc → ℕ
  | .c i => if i < n then sum mem i else mem (.c i)
  | l => mem l

theorem summed_zero (mem : Loc → ℕ) : summed mem 0 = mem := by
  funext l
  cases l with
  | c i => rw [summed, if_neg (Nat.not_lt_zero i)]
  | _ => rfl

theorem summed_succ (mem : Loc → ℕ) (n : ℕ) : addElement (summed mem n) n = summed mem (n + 1) := by
  funext l
  cases l with
  | c i =>
    rcases lt_trichotomy i n with hlt | rfl | hgt
    · rw [addElement, update_of_ne (fun heq => ne_of_lt hlt (Loc.c.inj heq)), summed, summed,
        if_pos hlt, if_pos (Nat.lt_succ_of_lt hlt)]
    · rw [addElement, update_self, summed, if_pos (Nat.lt_succ_self i)]
      rfl
    · rw [addElement, update_of_ne (fun heq => Nat.ne_of_gt hgt (Loc.c.inj heq)), summed, summed,
        if_neg (Nat.not_lt_of_gt hgt), if_neg (by omega)]
  | _ => rfl

theorem executeKernelDefault_eq {size : ℕ} (mem : Loc → ℕ) (hsize : size * size < word) :
    executeKernelDefault size mem = summed mem (size * size) := by
  rw [executeKernelDefault, Nat.mod_eq_of_lt hsize]
  generalize size * size = n
  induction n with
  | zero => exact (summed_zero mem).symm
  | succ n ih =>
    rw [range_succ, foldl_append, ih]
    exact summed_succ mem n

/-! ### The kernel with two buffers -/

structure Config where
  maxXferSize : ℕ
  xferSize : ℕ
  xferSize_pos : 0 < xferSize
  xferSize_le : xferSize ≤ maxXferSize
  words : sizeofUlong ∣ xferSize

structure Locals where
  ping : ℕ
  pong : ℕ

section Kernel

variable (S : Config)

def Config.count : ℕ := S.xferSize / sizeofUlong

/-- The bytes `x*XFER_SIZE` to `(x+1)*XFER_SIZE` of a matrix. -/
def Config.chunk (matrix : ℕ → Loc) (x : ℕ) : List Loc :=
  (List.range' (x * S.count) S.count).map matrix

/-- `((ulong_t*)C_ping)[j] = ((ulong_t*)A_ping)[j] + ((ulong_t*)B_ping)[j]`. -/
def addWord (ping j : ℕ) (_ : Unit) : DmaProg Loc Unit := do
  let a ← loadSpm (ping + sizeofUlong * j)
  let b ← loadSpm (ping + S.xferSize + sizeofUlong * j)
  storeSpm (ping + 2 * S.xferSize + sizeofUlong * j) ((a + b) % word)

def fillPong (numBursts x : ℕ) (l : Locals) : DmaProg Loc Unit :=
  if x + 1 < numBursts then do
    dmaRead (S.chunk .a (x + 1)) l.pong 2
    dmaRead (S.chunk .b (x + 1)) (l.pong + S.xferSize) 3
  else pure ()

def burst (numBursts x : ℕ) (l : Locals) : DmaProg Loc Locals := do
  fillPong S numBursts x l
  Prog.forUp (addWord S l.ping) S.count 0 ()
  dmaWait [4]
  dmaWrite (S.chunk .c x) (l.ping + 2 * S.xferSize) 4
  dmaWait [2]
  dmaWait [3]
  pure ⟨l.pong, l.ping⟩

/-- `SS*sizeof(ulong_t)/XFER_SIZE`, where `SS` is `S*S`. -/
def Config.numBursts (size : ℕ) : ℕ := size * size % word * sizeofUlong % word / S.xferSize

def executeKernelBest (size : ℕ) : DmaProg Loc Unit := do
  dmaRead (S.chunk .a 0) 0 0
  dmaRead (S.chunk .b 0) S.xferSize 1
  dmaWait [0]
  dmaWait [1]
  let _ ← Prog.forUp (burst S (S.numBursts size)) (S.numBursts size) 0 ⟨0, 3 * S.maxXferSize⟩
  dmaWait [4]

end Kernel

/-! ### The invariant of the bursts -/

def Operands (mem m : Loc → ℕ) : Prop := ∀ i, m (.a i) = mem (.a i) ∧ m (.b i) = mem (.b i)

section Bursts

variable (S : Config) (mem : Loc → ℕ) (numBursts : ℕ)

/-- The sums of the burst before `x` on their way to `C`. -/
def writing (pong : ℕ) : ℕ → List (Request Loc)
  | 0 => []
  | x + 1 => [⟨4, false, words (S.chunk .c x) (pong + 2 * S.xferSize)⟩]

/-- Chunk `x` of both operands on its way to `ping`. -/
def reads (resA resB x ping : ℕ) : List (Request Loc) :=
  [⟨resB, true, words (S.chunk .b x) (ping + S.xferSize)⟩, ⟨resA, true, words (S.chunk .a x) ping⟩]

/-- The burst behind `x` on its way to the other buffer. -/
def reading (x pong : ℕ) : List (Request Loc) :=
  if x + 1 < numBursts then reads S 2 3 (x + 1) pong else []

/-- Chunk `x` of both operands is at `ping`. -/
def Filled (x ping : ℕ) (w : World Loc) : Prop :=
  ∀ j < S.count, ByteMemory.load w.spm (ping + sizeofUlong * j) =
    mem (.a (x * S.count + j)) % word ∧
    ByteMemory.load w.spm (ping + S.xferSize + sizeofUlong * j) = mem (.b (x * S.count + j)) % word

/-- The first `n` sums of burst `x` are at `ping`. -/
def Added (x ping n : ℕ) (w : World Loc) : Prop :=
  ∀ j < n, ByteMemory.load w.spm (ping + 2 * S.xferSize + sizeofUlong * j) =
    sum mem (x * S.count + j)

/-- Burst `x` is at hand; `extra` is in flight beside the sums of the burst before. -/
structure Bursting (extra : List (Request Loc)) (x : ℕ) (l : Locals) (w : World Loc) : Prop where
  stable : Stable (Operands mem) w
  traffic : w.traffic = extra ++ writing S l.pong x
  buffers : l.ping = 0 ∧ l.pong = 3 * S.maxXferSize ∨ l.ping = 3 * S.maxXferSize ∧ l.pong = 0
  filled : x < numBursts → Filled S mem x l.ping w
  added : ∀ y, x = y + 1 → Added S mem y l.pong S.count w
  current : w.mem = summed mem ((x - 1) * S.count)

end Bursts

section Rules

variable {S : Config} {mem : Loc → ℕ} {numBursts x n j : ℕ} {l : Locals} {w w' : World Loc}
  {extra : List (Request Loc)} {R : Rules Loc}

theorem four_mul_count (S : Config) : 4 * S.count = S.xferSize := Nat.mul_div_cancel' S.words

theorem count_pos (S : Config) : 0 < S.count := by
  have hcount := four_mul_count S
  have hpos := S.xferSize_pos
  omega

theorem length_chunk (S : Config) (matrix : ℕ → Loc) (x : ℕ) :
    (S.chunk matrix x).length = S.count := by
  rw [Config.chunk, length_map, length_range']

theorem chunk_ne_nil (S : Config) (matrix : ℕ → Loc) (x : ℕ) : S.chunk matrix x ≠ [] := by
  intro hnil
  have hlength := length_chunk S matrix x
  have hpos := count_pos S
  rw [hnil, length_nil] at hlength
  omega

variable {matrix : ℕ → Loc} {a : ℕ} {q : Request Loc} {others : List (Request Loc)}
  {w₁ w₂ : World Loc}

theorem chunk_nodup (S : Config) (hinj : Function.Injective matrix) (x : ℕ) :
    (S.chunk matrix x).Nodup := (nodup_range' ..).map hinj

theorem mem_words_chunk (hj : j < S.count) :
    (matrix (x * S.count + j), a + 4 * j) ∈ words (S.chunk matrix x) a := by
  refine mem_words ?_
  rw [Config.chunk, getElem?_map, getElem?_range' hj]
  simp

theorem bounds_words_chunk {y : Loc × ℕ} (hy : y ∈ words (S.chunk matrix x) a) :
    a ≤ y.2 ∧ y.2 + 4 ≤ a + S.xferSize := by
  have hbounds := bounds_of_mem_words hy
  rwa [length_chunk, four_mul_count] at hbounds

theorem mem_chunk {k : Loc} (h : k ∈ S.chunk matrix x) :
    ∃ j < S.count, k = matrix (x * S.count + j) := by
  obtain ⟨i, hi, rfl⟩ := List.mem_map.mp h
  obtain ⟨j, hj, rfl⟩ := mem_range'.mp hi
  exact ⟨j, hj, by rw [one_mul]⟩

/-- Two chunks in different places, of different matrices or both read. -/
theorem beside_chunk {matrix' : ℕ → Loc} {res res' a' y : ℕ} {toSpm toSpm' : Bool}
    (hres : res' ≠ res) (hplace : a' + S.xferSize ≤ a ∨ a + S.xferSize ≤ a')
    (hlocs : toSpm = true ∧ toSpm' = true ∨ ∀ i k, matrix' i ≠ matrix k) :
    Request.Beside ⟨res', toSpm', words (S.chunk matrix' y) a'⟩ toSpm (S.chunk matrix x) a res := by
  refine ⟨hres, fun z hz => ⟨?_, hlocs.imp_right (fun hne hin => ?_)⟩⟩
  · have hbounds := bounds_words_chunk hz
    rw [length_chunk, four_mul_count]
    omega
  · obtain ⟨i, -, hi⟩ := mem_chunk (mem_of_mem_words hz)
    obtain ⟨k, -, hk⟩ := mem_chunk hin
    exact hne _ _ (hi.symm.trans hk)

theorem mem_writing {pong : ℕ} (h : q ∈ writing S pong x) :
    ∃ y, x = y + 1 ∧ q = ⟨4, false, words (S.chunk .c y) (pong + 2 * S.xferSize)⟩ := by
  cases x with
  | zero => cases h
  | succ y => exact ⟨y, rfl, mem_singleton.mp h⟩

theorem mem_reads {resA resB ping : ℕ} (h : q ∈ reads S resA resB x ping) :
    q = ⟨resB, true, words (S.chunk .b x) (ping + S.xferSize)⟩ ∨
      q = ⟨resA, true, words (S.chunk .a x) ping⟩ :=
  (mem_cons.mp h).imp_right mem_singleton.mp

theorem mem_reading {pong : ℕ} (h : q ∈ reading S numBursts x pong) :
    q ∈ reads S 2 3 (x + 1) pong := by
  rw [reading] at h
  split at h
  · exact h
  · cases h

/-! ### Reads -/

structure Fetching (S : Config) (mem : Loc → ℕ) (others : List (Request Loc)) (w w' : World Loc)
    (d : ℕ) : Prop where
  stable : Stable (Operands mem) w'
  traffic : w'.traffic = others
  mem_eq : w'.mem = w.mem
  left : ∀ a, a + 4 ≤ d ∨ d + 2 * S.xferSize ≤ a →
    ByteMemory.load w'.spm a = ByteMemory.load w.spm a

theorem filter_others {res : ℕ} (h : ∀ q ∈ others, q.res ≠ res) :
    others.filter (fun q => q.res ∉ [res]) = others :=
  filter_eq_self.mpr (fun q hq => decide_eq_true (fun hin => h q hq (mem_singleton.mp hin)))

theorem fetched_reads {resA resB y d : ℕ}
    (hne : resA ≠ resB) (hothers : ∀ q ∈ others, q.res ≠ resA ∧ q.res ≠ resB)
    (htraffic : w.traffic = others ++ reads S resA resB y d)
    (h₁ : Settled (Operands mem) [resA] w w₁) (h₂ : Settled (Operands mem) [resB] w₁ w₂) :
    Fetching S mem others w w₂ d ∧ Filled S mem y d w₂ := by
  have htraffic₁ :
      w₁.traffic = others ++ [⟨resB, true, words (S.chunk .b y) (d + S.xferSize)⟩] := by
    rw [h₁.traffic, htraffic, filter_append, filter_others (fun q hq => (hothers q hq).1), reads]
    simp [hne.symm]
  have htraffic₂ : w₂.traffic = others := by
    rw [h₂.traffic, htraffic₁, filter_append, filter_others (fun q hq => (hothers q hq).2)]
    simp
  -- The only requests that are waited for are the two reads.
  have hA : ∀ q ∈ w.traffic, q.res ∈ [resA] → q = ⟨resA, true, words (S.chunk .a y) d⟩ := by
    intro q hq hres
    rw [htraffic] at hq
    rcases mem_append.mp hq with hq | hq
    · exact absurd (mem_singleton.mp hres) (hothers q hq).1
    · rcases mem_reads hq with rfl | rfl
      · exact absurd (mem_singleton.mp hres).symm hne
      · rfl
  have hB : ∀ q ∈ w₁.traffic, q.res ∈ [resB] →
      q = ⟨resB, true, words (S.chunk .b y) (d + S.xferSize)⟩ := by
    intro q hq hres
    rw [htraffic₁] at hq
    rcases mem_append.mp hq with hq | hq
    · exact absurd (mem_singleton.mp hres) (hothers q hq).2
    · exact mem_singleton.mp hq
  have hleftA : ∀ a, a + 4 ≤ d ∨ d + S.xferSize ≤ a →
      ByteMemory.load w₁.spm a = ByteMemory.load w.spm a := by
    intro a ha
    refine h₁.left a (fun q hq hres _ z hz => ?_)
    rw [hA q hq hres] at hz
    have hbounds := bounds_words_chunk hz
    rw [Apart]
    omega
  have hleftB : ∀ a, a + 4 ≤ d + S.xferSize ∨ d + 2 * S.xferSize ≤ a →
      ByteMemory.load w₂.spm a = ByteMemory.load w₁.spm a := by
    intro a ha
    refine h₂.left a (fun q hq hres _ z hz => ?_)
    rw [hB q hq hres] at hz
    have hbounds := bounds_words_chunk hz
    rw [Apart]
    omega
  have hcount := four_mul_count S
  refine ⟨⟨h₂.stable, htraffic₂, funext (fun k => ?_), fun a ha => ?_⟩, fun j hj => ⟨?_, ?_⟩⟩
  · rw [h₂.kept k (fun q hq hres hwrite => ?_), h₁.kept k (fun q hq hres hwrite => ?_)]
    · rw [hA q hq hres] at hwrite
      cases hwrite
    · rw [hB q hq hres] at hwrite
      cases hwrite
  · rw [hleftB a (by omega), hleftA a (by omega)]
  · obtain ⟨m, hm, hvalue⟩ := h₁.brought ⟨resA, true, words (S.chunk .a y) d⟩
      (by rw [htraffic]; simp [reads]) (mem_singleton.mpr rfl) rfl _ (mem_words_chunk hj)
    rw [hleftB _ (by rw [sizeofUlong]; omega), ← (hm _).1]
    exact hvalue
  · obtain ⟨m, hm, hvalue⟩ := h₂.brought ⟨resB, true, words (S.chunk .b y) (d + S.xferSize)⟩
      (by rw [htraffic₁]; simp) (mem_singleton.mpr rfl) rfl _ (mem_words_chunk hj)
    rw [← (hm _).2]
    exact hvalue

theorem fetched_nothing {resA resB d : ℕ}
    (hothers : ∀ q ∈ others, q.res ≠ resA ∧ q.res ≠ resB) (htraffic : w.traffic = others)
    (h₁ : Settled (Operands mem) [resA] w w₁) (h₂ : Settled (Operands mem) [resB] w₁ w₂) :
    Fetching S mem others w w₂ d := by
  have htraffic₁ : w₁.traffic = others := by
    rw [h₁.traffic, htraffic, filter_others (fun q hq => (hothers q hq).1)]
  have hA : ∀ q ∈ w.traffic, q.res ∉ [resA] := fun q hq hres =>
    (hothers q (htraffic ▸ hq)).1 (mem_singleton.mp hres)
  have hB : ∀ q ∈ w₁.traffic, q.res ∉ [resB] := fun q hq hres =>
    (hothers q (htraffic₁ ▸ hq)).2 (mem_singleton.mp hres)
  refine ⟨h₂.stable, ?_, funext (fun k => ?_), fun a _ => ?_⟩
  · rw [h₂.traffic, htraffic₁, filter_others (fun q hq => (hothers q hq).2)]
  · rw [h₂.kept k (fun q hq hres => absurd hres (hB q hq)),
      h₁.kept k (fun q hq hres => absurd hres (hA q hq))]
  · rw [h₂.left a (fun q hq hres => absurd hres (hB q hq)),
      h₁.left a (fun q hq hres => absurd hres (hA q hq))]

/-! ### One burst -/

/-- All writes in flight are for `C`. -/
def OnlyC (w : World Loc) : Prop :=
  ∀ q ∈ w.traffic, q.toSpm = false → ∀ z ∈ q.words, ∃ i, z.1 = .c i

private theorem wp_wait {res : ℕ} {Q : Unit → World Loc → Prop} (h : Stable (Operands mem) w)
    (honly : OnlyC w) (hq : ∀ w', Settled (Operands mem) [res] w w' → OnlyC w' → Q () w') :
    R.wp (dmaWait [res]) w Q := by
  refine wp_dmaWait_settled h (fun m hm i => ?_) (fun w' hw' => hq w' hw' (fun q hq => ?_))
  · have hother : ∀ k, (∀ i, k ≠ .c i) → m k = w.mem k := by
      refine fun k hk => hm k (fun q hq _ hwrite z hz heq => ?_)
      obtain ⟨i, hi⟩ := honly q hq hwrite z hz
      exact hk i (heq.symm.trans hi)
    rw [hother (.a i) (fun _ => Loc.noConfusion), hother (.b i) (fun _ => Loc.noConfusion)]
    exact h.now i
  · rw [hw'.traffic] at hq
    exact honly q (mem_of_mem_filter hq)

theorem onlyC_chunk {res : ℕ} :
    ∀ z ∈ (⟨res, false, words (S.chunk .c x) a⟩ : Request Loc).words, ∃ i, z.1 = .c i := by
  intro z hz
  obtain ⟨j, -, hloc⟩ := mem_chunk (mem_of_mem_words hz)
  exact ⟨_, hloc⟩

theorem Bursting.avoids (h : Bursting S mem numBursts (reading S numBursts x l.pong) x l w)
    (hlow : l.ping ≤ a) (hhigh : a + 4 ≤ l.ping + 3 * S.xferSize) : w.Avoids a := by
  refine avoids_of_traffic (fun q hq z hz => ?_)
  rw [h.traffic] at hq
  have hbuffers := h.buffers
  have hle := S.xferSize_le
  rw [Apart]
  rcases mem_append.mp hq with hq | hq
  · rcases mem_reads (mem_reading hq) with rfl | rfl
    · have hbounds := bounds_words_chunk hz
      omega
    · have hbounds := bounds_words_chunk hz
      omega
  · obtain ⟨y, rfl, rfl⟩ := mem_writing hq
    have hbounds := bounds_words_chunk hz
    omega

private theorem wp_fillPong (h : Bursting S mem numBursts [] x l w) :
    R.wp (fillPong S numBursts x l) w
      (fun _ w' => Bursting S mem numBursts (reading S numBursts x l.pong) x l w') := by
  rw [fillPong, reading]
  split
  · have hwriting :
        ∀ q ∈ w.traffic, ∃ y, q = ⟨4, false, words (S.chunk .c y) (l.pong + 2 * S.xferSize)⟩ := by
      intro q hq
      rw [h.traffic] at hq
      obtain ⟨y, -, hy⟩ := mem_writing hq
      exact ⟨y, hy⟩
    refine wp_seq (wp_dmaRead_beside (chunk_ne_nil S _ _) (chunk_nodup S (fun _ _ => Loc.a.inj) _)
      (fun q hq => ?_)
        (wp_dmaRead_beside (chunk_ne_nil S _ _) (chunk_nodup S (fun _ _ => Loc.b.inj) _)
      (fun q hq => ?_) ?_))
    · obtain ⟨y, rfl⟩ := hwriting q hq
      exact beside_chunk (by decide) (.inr (by omega)) (.inr (fun _ _ => Loc.noConfusion))
    · rw [traffic_launch] at hq
      rcases mem_cons.mp hq with rfl | hq
      · exact beside_chunk (by decide) (.inl (le_rfl)) (.inl ⟨rfl, rfl⟩)
      · obtain ⟨y, rfl⟩ := hwriting q hq
        exact beside_chunk (by decide) (.inr (by omega)) (.inr (fun _ _ => Loc.noConfusion))
    · refine ⟨h.stable.launch.launch, ?_, h.buffers, h.filled, h.added, h.current⟩
      rw [traffic_launch, traffic_launch, h.traffic]
      rfl
  · exact h

private theorem wp_addWord (h : Bursting S mem numBursts (reading S numBursts x l.pong) x l w)
    (hadded : Added S mem x l.ping j w) (hx : x < numBursts) (hj : j < S.count) :
    R.wp (addWord S l.ping j ()) w (fun _ w' =>
      Bursting S mem numBursts (reading S numBursts x l.pong) x l w' ∧
        Added S mem x l.ping (j + 1) w') := by
  have hcount := four_mul_count S
  have hbuffers := h.buffers
  have hle := S.xferSize_le
  obtain ⟨ha, hb⟩ := h.filled hx j hj
  refine wp_seq (wp_loadSpm (h.avoids (by omega) (by rw [sizeofUlong]; omega)) ?_)
  refine wp_seq (wp_loadSpm (h.avoids (by omega) (by rw [sizeofUlong]; omega)) ?_)
  refine wp_storeSpm (.inr ⟨h.avoids (by omega) (by rw [sizeofUlong]; omega), ?_⟩)
  rw [ha, hb]
  refine ⟨⟨⟨h.stable.now, h.stable.since⟩, h.traffic, h.buffers, fun _ i hi => ?_,
    fun y hy i hi => ?_,
    h.current⟩, fun i hi => ?_⟩
  · obtain ⟨ha', hb'⟩ := h.filled hx i hi
    rw [sizeofUlong] at ha' hb' ⊢
    exact ⟨(ByteMemory.load_store_of_disjoint (by omega)).trans ha',
      (ByteMemory.load_store_of_disjoint (by omega)).trans hb'⟩
  · have hold := h.added y hy i hi
    rw [sizeofUlong] at hold ⊢
    exact (ByteMemory.load_store_of_disjoint (by omega)).trans hold
  · rcases Nat.lt_succ_iff_lt_or_eq.mp hi with hlt | rfl
    · have hold := hadded i hlt
      rw [sizeofUlong] at hold ⊢
      exact (ByteMemory.load_store_of_disjoint (by omega)).trans hold
    · refine (ByteMemory.load_store _ _ _).trans ?_
      rw [← Nat.add_mod, sum]
      exact Nat.mod_mod _ _

theorem filter_writing (pong : ℕ) : (writing S pong x).filter (fun q => q.res ∉ [4]) = [] := by
  cases x with
  | zero => rfl
  | succ x => rfl

/-- The sums of the burst before are in `C`. -/
theorem Bursting.written (h : Bursting S mem numBursts extra x l w)
    (hextra : ∀ q ∈ extra, q.res ≠ 4) (hw' : Settled (Operands mem) [4] w w') :
    w'.traffic = extra ∧ w'.mem = summed mem (x * S.count) ∧
      ∀ a, ByteMemory.load w'.spm a = ByteMemory.load w.spm a := by
  have hfour : ∀ q ∈ w.traffic, q.res ∈ [4] → q ∈ writing S l.pong x := by
    intro q hq hres
    rw [h.traffic] at hq
    exact (mem_append.mp hq).resolve_left (fun hin => hextra q hin (mem_singleton.mp hres))
  refine ⟨?_, ?_, fun a => hw'.left a (fun q hq hres hread => ?_)⟩
  · rw [hw'.traffic, h.traffic, filter_append, filter_others hextra, filter_writing, append_nil]
  · cases x with
    | zero =>
      have hmem : w'.mem = w.mem :=
        funext (fun k => hw'.kept k (fun q hq hres => absurd (hfour q hq hres) not_mem_nil))
      rw [hmem, h.current]
    | succ y =>
      have hwrite : (⟨4, false, words (S.chunk .c y) (l.pong + 2 * S.xferSize)⟩ : Request Loc) ∈
          w.traffic := by
        rw [h.traffic]
        exact mem_append_right _ mem_cons_self
      have hkept : ∀ k, (∀ j < S.count, k ≠ .c (y * S.count + j)) →
          w'.mem k = summed mem (y * S.count) k := by
        intro k hk
        rw [hw'.kept k (fun q hq hres _ z hz => ?_), h.current]
        · rfl
        · rw [mem_singleton.mp (hfour q hq hres)] at hz
          obtain ⟨j, hj, hloc⟩ := mem_chunk (mem_of_mem_words hz)
          exact fun heq => hk j hj (heq.symm.trans hloc)
      funext k
      cases k with
      | c i =>
        by_cases hin : y * S.count ≤ i ∧ i < y * S.count + S.count
        · obtain ⟨j, rfl⟩ := Nat.exists_eq_add_of_le hin.1
          have hj : j < S.count := Nat.lt_of_add_lt_add_left hin.2
          rw [hw'.written _ hwrite (mem_singleton.mpr rfl) rfl _ (mem_words_chunk hj),
            summed, if_pos]
          · exact h.added y rfl j hj
          · rw [Nat.succ_mul]
            exact hin.2
        · rw [hkept (.c i) (fun j hj heq => hin (by rw [Loc.c.inj heq]; omega)), summed, summed,
            Nat.succ_mul]
          by_cases hlt : i < y * S.count
          · rw [if_pos hlt, if_pos (Nat.lt_add_right _ hlt)]
          · rw [if_neg hlt, if_neg (by omega)]
      | a i => exact hkept (.a i) (fun _ _ => Loc.noConfusion)
      | b i => exact hkept (.b i) (fun _ _ => Loc.noConfusion)
  · obtain ⟨y, -, rfl⟩ := mem_writing (hfour q hq hres)
    cases hread

theorem reading_res {pong : ℕ} : ∀ q ∈ reading S numBursts x pong, q.res ≠ 4 ∧ q.toSpm = true := by
  intro q hq
  rcases mem_reads (mem_reading hq) with rfl | rfl
  · exact ⟨(by decide : 3 ≠ 4), rfl⟩
  · exact ⟨(by decide : 2 ≠ 4), rfl⟩

theorem Bursting.onlyC (h : Bursting S mem numBursts extra x l w)
    (hextra : ∀ q ∈ extra, q.toSpm = true) : OnlyC w := by
  intro q hq hwrite
  rw [h.traffic] at hq
  rcases mem_append.mp hq with hq | hq
  · rw [hextra q hq] at hwrite
    cases hwrite
  · obtain ⟨y, -, rfl⟩ := mem_writing hq
    exact onlyC_chunk

theorem bursting_next (h₁ : Settled (Operands mem) [2] w w₁)
    (h₂ : Settled (Operands mem) [3] w₁ w₂)
    (hbuffers : l.ping = 0 ∧ l.pong = 3 * S.maxXferSize ∨ l.ping = 3 * S.maxXferSize ∧ l.pong = 0)
    (htraffic : w.traffic = writing S l.ping (x + 1) ++ reading S numBursts x l.pong)
    (hadded : Added S mem x l.ping S.count w) (hmem : w.mem = summed mem (x * S.count)) :
    Bursting S mem numBursts [] (x + 1) ⟨l.pong, l.ping⟩ w₂ := by
  have hothers : ∀ q ∈ writing S l.ping (x + 1), q.res ≠ 2 ∧ q.res ≠ 3 := by
    intro q hq
    rw [mem_singleton.mp hq]
    exact ⟨(by decide : 4 ≠ 2), (by decide : 4 ≠ 3)⟩
  have hfetched : Fetching S mem (writing S l.ping (x + 1)) w w₂ l.pong ∧
      (x + 1 < numBursts → Filled S mem (x + 1) l.pong w₂) := by
    rw [reading] at htraffic
    split at htraffic
    · obtain ⟨hfetching, hfilled⟩ := fetched_reads (by decide) hothers htraffic h₁ h₂
      exact ⟨hfetching, fun _ => hfilled⟩
    · next hlast =>
      rw [append_nil] at htraffic
      exact ⟨fetched_nothing hothers htraffic h₁ h₂, fun hlt => absurd hlt hlast⟩
  obtain ⟨⟨hstable, htraffic₂, hmem₂, hleft⟩, hfilled⟩ := hfetched
  refine ⟨hstable, htraffic₂, hbuffers.symm.imp And.symm And.symm, hfilled, fun y hy j hj => ?_, ?_⟩
  · obtain rfl : x = y := Nat.succ.inj hy
    have hcount := four_mul_count S
    have hle := S.xferSize_le
    have hsum := hadded j hj
    change ByteMemory.load w₂.spm (l.ping + 2 * S.xferSize + sizeofUlong * j) = _
    rw [sizeofUlong] at hsum ⊢
    exact (hleft _ (by omega)).trans hsum
  · rw [hmem₂, hmem]
    rfl

private theorem wp_burst (hx : x < numBursts) (h : Bursting S mem numBursts [] x l w) :
    R.wp (burst S numBursts x l) w
      (fun l' w' => Bursting S mem numBursts [] (x + 1) l' w') := by
  refine wp_then (wp_fillPong h) (fun _ w₁ h₁ => ?_)
  have hbody : ∀ j (u : Unit) w', j < S.count →
      (Bursting S mem numBursts (reading S numBursts x l.pong) x l w' ∧ Added S mem x l.ping j w') →
      R.wp (addWord S l.ping j u) w' (fun _ w'' =>
        Bursting S mem numBursts (reading S numBursts x l.pong) x l w'' ∧
          Added S mem x l.ping (j + 1) w'') :=
    fun j u w' hj h' => wp_addWord h'.1 h'.2 hx hj
  refine wp_then (wp_forUp _ _ hbody S.count 0 () w₁ (zero_add _)
    ⟨h₁, fun j hj => absurd hj (Nat.not_lt_zero j)⟩) ?_
  rintro - w₂ ⟨h₂, hadded⟩
  refine wp_seq
    (wp_wait h₂.stable (h₂.onlyC (fun q hq => (reading_res q hq).2)) (fun w₃ hw₃ _ => ?_))
  obtain ⟨htraffic, hmem, hspm⟩ := h₂.written (fun q hq => (reading_res q hq).1) hw₃
  have hbuffers := h.buffers
  have hle := S.xferSize_le
  refine wp_seq (wp_dmaWrite_beside (chunk_ne_nil S _ _) (chunk_nodup S (fun _ _ => Loc.c.inj) _)
    (fun q hq => ?_) ?_)
  · rw [htraffic] at hq
    rcases mem_reads (mem_reading hq) with rfl | rfl
    · exact beside_chunk (by decide) (by omega) (.inr (fun _ _ => Loc.noConfusion))
    · exact beside_chunk (by decide) (by omega) (.inr (fun _ _ => Loc.noConfusion))
  have hstable : Stable (Operands mem)
      (w₃.launch (w₃.flight false (S.chunk .c x) (l.ping + 2 * S.xferSize) 4)) := hw₃.stable.launch
  refine wp_seq (wp_wait hstable ?_ (fun w₅ hw₅ honly => wp_seq (wp_wait hw₅.stable honly
    (fun w₆ hw₆ _ => ?_))))
  · intro q hq hwrite
    rw [traffic_launch, htraffic] at hq
    rcases mem_cons.mp hq with rfl | hq
    · exact onlyC_chunk
    · rw [(reading_res q hq).2] at hwrite
      cases hwrite
  · refine bursting_next hw₅ hw₆ h.buffers ?_ (fun j hj => ?_) hmem
    · rw [traffic_launch, htraffic]
      rfl
    · exact (hspm _).trans (hadded j hj)

theorem bursting_start (h₁ : Settled (Operands mem) [0] w w₁)
    (h₂ : Settled (Operands mem) [1] w₁ w₂) (htraffic : w.traffic = reads S 0 1 0 0)
    (hmem : w.mem = mem) : Bursting S mem numBursts [] 0 ⟨0, 3 * S.maxXferSize⟩ w₂ := by
  have hothers : ∀ q ∈ ([] : List (Request Loc)), q.res ≠ 0 ∧ q.res ≠ 1 :=
    forall_mem_nil _
  obtain ⟨⟨hstable, htraffic₂, hmem₂, -⟩, hfilled⟩ :=
    fetched_reads (by decide) hothers htraffic h₁ h₂
  refine ⟨hstable, htraffic₂, .inl ⟨rfl, rfl⟩, fun _ => hfilled,
    fun y hy => absurd hy.symm (Nat.succ_ne_zero y), ?_⟩
  rw [hmem₂, hmem, Nat.zero_sub, zero_mul, summed_zero]

theorem wp_executeKernelBest (size : ℕ) (spm : ℕ → ℕ) :
    R.wp (executeKernelBest S size) ⟨mem, spm, []⟩ (fun _ w =>
      w.flights = [] ∧ w.mem = summed mem (S.numBursts size * S.count)) := by
  refine wp_seq (wp_dmaRead_beside (chunk_ne_nil S _ _) (chunk_nodup S (fun _ _ => Loc.a.inj) _)
    (forall_mem_nil _) (wp_seq (wp_dmaRead_beside (chunk_ne_nil S _ _)
    (chunk_nodup S (fun _ _ => Loc.b.inj) _) (fun q hq => ?_) ?_)))
  · rw [mem_singleton.mp hq]
    exact beside_chunk (by decide : 0 ≠ 1) (.inl (le_of_eq (zero_add _))) (.inl ⟨rfl, rfl⟩)
  have hstart : Stable (Operands mem) ⟨mem, spm, []⟩ := stable_start (fun _ => ⟨rfl, rfl⟩) spm
  generalize hw : World.launch _ (World.flight _ true (S.chunk .b 0) S.xferSize 1) = w
  have htraffic : w.traffic = reads S 0 1 0 0 := by
    rw [← hw, reads, zero_add]
    rfl
  have honly : OnlyC w := by
    intro q hq hwrite
    rw [htraffic] at hq
    rcases mem_reads hq with rfl | rfl
    · cases hwrite
    · cases hwrite
  have hstable : Stable (Operands mem) w := hw ▸ hstart.launch.launch
  have hmem : w.mem = mem := hw ▸ rfl
  refine wp_seq (wp_wait hstable honly (fun w₁ hw₁ honly₁ => wp_seq (wp_wait hw₁.stable honly₁
    (fun w₂ hw₂ _ => ?_))))
  have hbursting : Bursting S mem (S.numBursts size) [] 0 ⟨0, 3 * S.maxXferSize⟩ w₂ :=
    bursting_start hw₁ hw₂ htraffic hmem
  refine wp_then (wp_forUp _ (Bursting S mem (S.numBursts size) [])
    (fun x l w hx h => wp_burst hx h) (S.numBursts size) 0 _ _ (zero_add _) hbursting) ?_
  intro l w₃ h₃
  refine wp_wait h₃.stable (h₃.onlyC (forall_mem_nil _)) (fun w₄ hw₄ _ => ?_)
  obtain ⟨htraffic₄, hmem₄, -⟩ := h₃.written (forall_mem_nil _) hw₄
  exact ⟨map_eq_nil_iff.mp htraffic₄, hmem₄⟩

end Rules

/-! ### Runs -/

/-- The elements of the whole bursts. -/
theorem numBursts_mul_count (S : Config) (size : ℕ) :
    S.numBursts size * S.count * sizeofUlong =
      size * size * sizeofUlong % word / S.xferSize * S.xferSize := by
  have hcount := four_mul_count S
  rw [Config.numBursts, Nat.mod_mul_mod, mul_assoc, mul_comm S.count, ← hcount]
  rfl

theorem covered_iff (S : Config) (size : ℕ) : size * size ≤ S.numBursts size * S.count ↔
    S.xferSize ∣ size * size * sizeofUlong ∧ size * size * sizeofUlong < word := by
  have hbytes := numBursts_mul_count S size
  have hmod := Nat.mod_le (size * size * sizeofUlong) word
  have hdiv := Nat.div_mul_le_self (size * size * sizeofUlong % word) S.xferSize
  constructor
  · intro hle
    have hall : size * size * sizeofUlong ≤ S.numBursts size * S.count * sizeofUlong :=
      Nat.mul_le_mul_right _ hle
    have hlt : size * size * sizeofUlong < word := by
      by_contra hge
      have hsmall := Nat.mod_lt (size * size * sizeofUlong) (by decide : 0 < word)
      omega
    refine ⟨?_, hlt⟩
    rw [Nat.mod_eq_of_lt hlt] at hbytes hdiv
    exact ⟨_, (le_antisymm hdiv (hbytes ▸ hall)).symm.trans (mul_comm _ _)⟩
  · rintro ⟨hdvd, hlt⟩
    rw [Nat.mod_eq_of_lt hlt, Nat.div_mul_cancel hdvd] at hbytes
    exact Nat.le_of_mul_le_mul_right (le_of_eq hbytes.symm) (by decide)

theorem numBursts_mul_count_le (S : Config) (size : ℕ) :
    S.numBursts size * S.count ≤ size * size := by
  have hbytes := numBursts_mul_count S size
  have hmod := Nat.mod_le (size * size * sizeofUlong) word
  have hdiv := Nat.div_mul_le_self (size * size * sizeofUlong % word) S.xferSize
  refine Nat.le_of_mul_le_mul_right (c := sizeofUlong) ?_ (by decide)
  omega

section Runs

variable (S : Config) (size : ℕ) (mem : Loc → ℕ) (spm : ℕ → ℕ)

/-- A run that returns has the sums of the whole bursts in `C`, and has written nothing else. -/
theorem mem_of_returned {m : Machine Loc Unit}
    (hreached : Reached step (fun _ _ => True) (start (executeKernelBest S size) mem spm) m)
    (hret : m.prog = .ret ()) : m.state.mem = summed mem (S.numBursts size * S.count) := by
  have hwp : Rules.plain.wp (executeKernelBest S size)
      ⟨mem, spm, []⟩ _ := wp_executeKernelBest size spm
  obtain ⟨w, hrel, hpost⟩ := post_of_reached (rel_start mem spm []) hwp
    (fun m o _ _ _ => assumed_plain o m.state) hreached
  rw [hret] at hpost
  obtain ⟨hflights, hmem⟩ := hpost
  rw [← hmem]
  refine funext (fun k => hrel.mem k (fun f hf => ?_))
  rw [hflights] at hf
  cases hf

/-- Every run returns. -/
theorem inevitable_summed :
    Inevitable step
      (fun m => m.prog = .ret () ∧ m.state.mem = summed mem (S.numBursts size * S.count))
      (start (executeKernelBest S size) mem spm) := by
  have hwp : Rules.plain.wp (executeKernelBest S size)
      ⟨mem, spm, []⟩ _ := wp_executeKernelBest size spm
  refine (inevitable_of_wp (rel_start mem spm []) assumed_plain hwp).of_reached ?_
  rintro m hreached (⟨_, _, -, hfalse⟩ | ⟨_, _, hret, -⟩)
  · exact hfalse.elim
  · exact ⟨hret, mem_of_returned S size mem spm hreached hret⟩

end Runs

def unsummed : Loc → ℕ
  | .c _ => 1
  | _ => 0

/-- The memory has all sums after every run, whatever the matrices hold, exactly if the bursts are
whole and the size in bytes does not wrap. -/
theorem executeKernelBest_iff (S : Config) (size : ℕ) :
    (∀ mem spm, Inevitable step
        (fun m => m.prog = .ret () ∧ m.state.mem = summed mem (size * size))
        (start (executeKernelBest S size) mem spm)) ↔
      S.xferSize ∣ size * size * sizeofUlong ∧ size * size * sizeofUlong < word := by
  rw [← covered_iff]
  constructor
  · intro h
    by_contra huncovered
    obtain ⟨m, hreached, hret, hmem⟩ := (h unsummed (fun _ => 0)).exists_reached
    rw [mem_of_returned S size unsummed (fun _ => 0) hreached hret] at hmem
    -- The first element behind the bursts is not written.
    have hlast := congrFun hmem (.c (S.numBursts size * S.count))
    rw [summed, summed, if_neg (lt_irrefl _), if_pos (Nat.lt_of_not_le huncovered)] at hlast
    cases hlast
  · intro hcovered mem spm
    have heq := le_antisymm hcovered (numBursts_mul_count_le S size)
    rw [heq]
    exact inevitable_summed S size mem spm

/-- Matrices of nine elements in bursts of four: the ninth sum is missing. -/
theorem executeKernelBest_nine :
    ∃ m, Reached step (fun _ _ => True)
        (start (executeKernelBest ⟨16, 16, by decide, by decide, by decide⟩ 3) unsummed
          (fun _ => 0)) m ∧
      m.prog = .ret () ∧ m.state.mem (.c 8) = 1 ∧ sum unsummed 8 = 0 ∧
      executeKernelDefault 3 unsummed (.c 8) = 0 := by
  obtain ⟨m, hreached, hret, hmem⟩ := (inevitable_summed ⟨16, 16, by decide, by decide, by decide⟩ 3
    unsummed (fun _ => 0)).exists_reached
  exact ⟨m, hreached, hret, by rw [hmem]; decide, by decide, by decide⟩

end SmcSim.MatrixAdd
