import SmcSim.DmaRequests
import SmcSim.SgraphBfsBest

/-!
# Where the pipelined search writes its queue

The queue of `kernel_best` has the first `2 * MAX_XFER_SIZE` bytes of the scratchpad. The ring wraps
at `NODES` and the assertion counts elements, so that the pushes stay in the region for every graph
of a size exactly if `NODES` words fit into it: along a path the queue never has more than one
element, and every node is pushed into a cell of its own.
-/

namespace SmcSim.SgraphBfsBest
open EffectPrograms CommandSpec DmaPrograms SgraphBfs SgraphMemory BreadthFirst Interleavings List

variable {S : Config} {G : Graph} {nodes c x v fuel maxIterations : ℕ} {l : Locals}
  {w : Issued Loc}

def ConfinedOp (S : Config) : Op Loc → Prop
  | .storeSpm a _ => a + sizeofUlong ≤ 2 * S.maxXferSize
  | _ => True

def Escapes (S : Config) (o : Op Loc) : Prop := ¬ ConfinedOp S o

def Confined (S : Config) (l : Locals) : Prop :=
  sizeofUlong * l.ring.head + sizeofUlong ≤ 2 * S.maxXferSize

theorem confined_zero (S : Config) {i : ℕ} (hi : i = 0) :
    sizeofUlong * i + sizeofUlong ≤ 2 * S.maxXferSize := by
  have hholds := S.holds_word
  rw [hi]
  omega

section

variable (hsize : nodes * sizeofUlong ≤ 2 * S.maxXferSize)
include hsize

private theorem any_queuePush (h : Confined S l) :
    (anyAnswer (ConfinedOp S)).wp (queuePush nodes x l) w (fun l' _ => Confined S l') := by
  refine any_then h (fun _ => ?_)
  change sizeofUlong * advance nodes l.ring.head + sizeofUlong ≤ _
  rw [advance]
  split
  · exact confined_zero S rfl
  · rw [sizeofUlong] at hsize ⊢
    omega

private theorem any_visitPing (h : Confined S l) :
    (anyAnswer (ConfinedOp S)).wp (visitPing nodes c l) w (fun l' _ => Confined S l') := by
  refine any_then trivial (fun succ => any_then trivial (fun distance => ?_))
  split
  · refine any_then trivial (fun _ => any_then trivial (fun _ => ?_))
    exact any_queuePush hsize h
  · exact h

theorem any_scanPings (h : Confined S l) :
    (anyAnswer (ConfinedOp S)).wp (scanPings nodes l) w (fun l' _ => Confined S l') := by
  rw [scanPings]
  split
  · exact wp_seq
      (wp_forUp _ (fun _ l' _ => Confined S l') (fun _ _ _ _ h' => any_visitPing hsize h')
      l.numPongs 0 l w (zero_add _) h)
  · exact h

end

theorem any_requestSuccessors :
    (anyAnswer (ConfinedOp S)).wp (requestSuccessors v l) w (fun _ _ => True) := by
  refine any_then trivial (fun outDegree => ?_)
  split
  · exact any_then trivial (fun _ => any_command trivial (fun _ => trivial))
  · exact trivial

theorem any_takePongs (h : Confined S l) :
    (anyAnswer (ConfinedOp S)).wp (takePongs v l) w (fun l' _ => Confined S l') := by
  refine any_then trivial (fun outDegree => ?_)
  split
  · exact any_then trivial (fun _ => any_then trivial (fun _ => h))
  · exact h

section

variable (hsize : nodes * sizeofUlong ≤ 2 * S.maxXferSize)
include hsize

theorem any_round (h : Confined S l) :
    (anyAnswer (ConfinedOp S)).wp (round S nodes l) w
      (fun r _ => r.elim (Confined S) (Confined S)) := by
  rw [round]
  split
  · split
    · refine any_then trivial (fun v => wp_then any_requestSuccessors ?_)
      rintro - - -
      have hpopped : Confined S { l with ring := l.ring.pop nodes } := h
      refine wp_then (any_scanPings hsize hpopped) (fun l' _ h' => ?_)
      exact wp_seq (any_takePongs h')
    · exact trivial
  · split
    · exact wp_seq (any_scanPings hsize h)
    · exact h

theorem any_loop (h : Confined S l) :
    (anyAnswer (ConfinedOp S)).wp (Prog.loop (round S nodes) fuel l) w
      (fun l' _ => Confined S l') := by
  induction fuel generalizing l w with
  | zero => exact trivial
  | succ fuel ih =>
    refine wp_then (any_round hsize h) (fun r _ hr => ?_)
    cases r with
    | inl l' => exact ih hr
    | inr l' => exact hr

theorem any_executeKernel :
    (anyAnswer (ConfinedOp S)).wp (executeKernel S nodes maxIterations fuel) w
      (fun _ _ => True) := by
  refine wp_then (wp_forUp _ (fun _ l' _ => Confined S l') (fun x l _ _ _ => ?_) maxIterations 0
    _ _ (zero_add _) (confined_zero S rfl)) (fun _ _ _ => trivial)
  refine any_then trivial (fun _ => wp_then
    (any_queuePush hsize (confined_zero S rfl)) (fun l' _ h' => ?_))
  exact any_loop hsize h'

end

/-! ### A path -/

def path (n : ℕ) : Graph where
  nodes := n
  successors v := if v + 1 < n then [v + 1] else []
  successors_lt v w hw := by
    split at hw
    · next hlt => exact mem_singleton.mp hw ▸ hlt
    · cases hw

variable {n k : ℕ}

theorem openSuccessors_path (hk : k + 1 < n) :
    openSuccessors (path n) (Function.update (fun _ => nc) 0 0) k = [k + 1] := by
  have hsuccessors : (path n).successors k = [k + 1] := if_pos hk
  rw [openSuccessors, hsuccessors]
  simp

theorem order_searchFrom_path (hk : k < n) :
    (searchFrom (path n) (fun _ => nc) 0 k).order = range (k + 1) := by
  induction k with
  | zero => rfl
  | succ k ih =>
    have horder := ih (Nat.lt_of_succ_lt hk)
    have hat : (searchFrom (path n) (fun _ => nc) 0 k).order[k]? = some k := by
      rw [horder, getElem?_range (Nat.lt_succ_self k)]
    have hafter := after_succ_of_getElem? hat
    rw [openSuccessors_path hk, visitAll_cons, visitAll_nil, visit_of_not_mem] at hafter
    · rw [searchFrom, hafter]
      change (searchFrom (path n) (fun _ => nc) 0 k).order ++ [k + 1] = _
      rw [horder, range_succ (n := k + 1)]
    · change k + 1 ∉ (searchFrom (path n) (fun _ => nc) 0 k).order
      rw [horder, mem_range]
      exact lt_irrefl _

theorem le_of_fits_path (h : Fits S (path n) (fun _ => nc) 0) :
    n * sizeofUlong ≤ 2 * S.maxXferSize := by
  cases n with
  | zero => exact Nat.le_trans (Nat.le_of_eq (Nat.zero_mul _)) (Nat.zero_le _)
  | succ n =>
    have horder := order_searchFrom_path (Nat.lt_succ_self n)
    have hat : (searchFrom (path (n + 1)) (fun _ => nc) 0 n).order[n]? = some n := by
      rw [horder, getElem?_range (Nat.lt_succ_self n)]
    have hlength : n + 1 ≤ (searchFrom (path (n + 1)) (fun _ => nc) 0 (n + 1)).order.length := by
      have hprefix := order_le_visitAll ((searchFrom (path (n + 1)) (fun _ => nc) 0 n).depth n + 1)
        (searchFrom (path (n + 1)) (fun _ => nc) 0 n)
        (openSuccessors (path (n + 1)) (Function.update (fun _ => nc) 0 0) n)
      have hle := hprefix.length_le
      rw [horder, length_range] at hle
      rw [searchFrom, after_succ_of_getElem? hat]
      exact hle
    rw [Fits] at h
    rw [mul_comm]
    exact le_trans (Nat.mul_le_mul_left _ hlength) h

/-- Along a path that does not fit, some push is outside the queue's region. -/
theorem exists_unconfined (hpos : 0 < maxIterations) (hn : n < nc)
    (hlarge : 2 * S.maxXferSize < n * sizeofUlong) (spm : ℕ → ℕ) :
    ∃ m, Reached step (fun _ _ => True)
        (start (executeKernel S n maxIterations (2 * n + 1))
          (memoryOf (path n) (fun _ => nc)) spm) m ∧
      ∃ a v k, m.prog = .call (.storeSpm a v) k ∧ ¬ a + sizeofUlong ≤ 2 * S.maxXferSize := by
  have hpath : 0 < n := by
    by_contra hzero
    rw [Nat.eq_zero_of_not_pos hzero] at hlarge
    omega
  have hdegrees : ∀ v < n, (path n).outDegree v * sizeofUlong ≤ S.maxXferSize := by
    intro v _
    have hholds := S.holds_word
    change (if v + 1 < n then [v + 1] else []).length * sizeofUlong ≤ _
    split
    · simpa using hholds
    · simp
  have hescape : ∀ i < n, ∀ v, Escapes S (.storeSpm (sizeofUlong * i) v) ∨
      sizeofUlong * i + 4 ≤ 2 * S.maxXferSize := fun i _ _ => (Classical.em _).symm
  have hstart : Between S (path n) (outcome (path n) (fun _ => nc) 0)
      ⟨queueInit, 0, 2 * S.maxXferSize, 3 * S.maxXferSize, noPongs, 0⟩
      ⟨memoryOf (path n) (fun _ => nc), spm, []⟩ :=
    between_start (holds_memoryOf _ _) spm (fun _ => rfl)
  obtain ⟨j, rfl⟩ := Nat.exists_eq_add_one_of_ne_zero (Nat.ne_of_gt hpos)
  have hwp : (Rules.mk (Escapes S) (fun _ _ _ => True)).wp
      (executeKernel S n (j + 1) (2 * n + 1)) ⟨memoryOf (path n) (fun _ => nc), spm, []⟩
      (fun _ _ => False) := by
    -- The first search does not end.
    have hfirst :=
      wp_iteration (G := path n) (R := ⟨Escapes S, fun _ _ _ => True⟩) hn hescape hdegrees
      (Nat.lt_succ_self (2 * n)) hpath (totalDistance_outcome_lt (path n) _ 0) hstart
    refine wp_seq (wp_then hfirst ?_)
    rintro l w ⟨-, hfits⟩
    exact absurd (le_of_fits_path hfits) (Nat.not_le_of_lt hlarge)
  obtain ⟨m, hreached, hm⟩ :=
    (inevitable_of_wp (R := ⟨Escapes S, _⟩) (rel_start _ spm []) assumed_plain hwp).exists_reached
  rcases hm with ⟨o, k, hprog, hescaped⟩ | ⟨_, _, -, hfalse, -⟩
  · cases o with
    | storeSpm a v => exact ⟨m, hreached, a, v, k, hprog, hescaped⟩
    | _ => exact absurd trivial hescaped
  · exact hfalse.elim

/-- Every push of every run on every graph of a size is in the first `2 * MAX_XFER_SIZE` bytes
exactly if the region has a word for each node, or no search is made at all. -/
theorem queuePush_confined_iff (S : Config) (nodes maxIterations : ℕ) (hnodes : nodes < nc) :
    (∀ (G : Graph) (mem : Loc → ℕ) (spm : ℕ → ℕ) (fuel : ℕ) (m : Machine Loc ℕ),
      G.nodes = nodes → Holds G mem →
      Reached step (fun _ _ => True) (start (executeKernel S nodes maxIterations fuel) mem spm) m →
      ∀ a v k, m.prog = .call (.storeSpm a v) k → a + sizeofUlong ≤ 2 * S.maxXferSize) ↔
    maxIterations = 0 ∨ nodes * sizeofUlong ≤ 2 * S.maxXferSize := by
  constructor
  · intro h
    by_contra hnot
    obtain ⟨hpos, hlarge⟩ := not_or.mp hnot
    obtain ⟨m, hreached, a, v, k, hprog, hout⟩ := exists_unconfined (Nat.pos_of_ne_zero hpos) hnodes
      (Nat.lt_of_not_le hlarge) (fun _ => 0)
    exact hout (h (path nodes) _ _ _ m rfl (holds_memoryOf _ _) hreached a v k hprog)
  · rintro hsize G mem spm fuel m rfl - hreached a v k hprog
    rcases hsize with rfl | hsize
    · have hstart : (anyAnswer (ConfinedOp S)).wp (executeKernel S G.nodes 0 fuel) ⟨[], []⟩
          (fun _ _ => True) := trivial
      exact call_of_anyAnswer hstart hreached hprog
    · exact call_of_anyAnswer (any_executeKernel hsize) hreached hprog

/-- With `MAX_XFER_SIZE` 512 a path of 257 nodes does not fit. -/
theorem executeKernel_path_overflows :
    ∃ m, Reached step (fun _ _ => True)
        (start (executeKernel ⟨512, by decide, by decide⟩ 257 1 515)
          (memoryOf (path 257) (fun _ => nc)) (fun _ => 0)) m ∧
      ∃ a v k, m.prog = .call (.storeSpm a v) k ∧ ¬ a + sizeofUlong ≤ 2 * 512 :=
  exists_unconfined Nat.one_pos (by decide) (by decide) (fun _ => 0)

theorem queuePush_confined_iff_small :
    (5 : ℕ) < nc ∧ ((∀ (G : Graph) (mem : Loc → ℕ) (spm : ℕ → ℕ) (fuel : ℕ) (m : Machine Loc ℕ),
      G.nodes = 5 → Holds G mem →
      Reached step (fun _ _ => True)
        (start (executeKernel ⟨16, by decide, by decide⟩ 5 1 fuel) mem spm) m →
      ∀ a v k, m.prog = .call (.storeSpm a v) k → a + sizeofUlong ≤ 32) ↔
    1 = 0 ∨ 5 * sizeofUlong ≤ 32) :=
  ⟨by decide, queuePush_confined_iff ⟨16, by decide, by decide⟩ 5 1 (by decide)⟩

end SmcSim.SgraphBfsBest
