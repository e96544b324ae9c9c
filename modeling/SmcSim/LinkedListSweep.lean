import SmcSim.LinkedListShape
import SmcSim.LinkedListSort
import SmcSim.LinkedListOwnership

/-!
# One pass over the list serves a batch

The ops branch of the kernel gathers the valid requests, sorts them by key and
serves them in one sweep whose cursor only moves forward. The batch is answered as
a bounded set answers the requests one at a time in the sorted order.
-/

namespace SmcSim.LinkedListKernel
open EffectPrograms PimMemory SkipListPrograms SkipListShape SetSemantics List CommandSpec Function

variable {V : Type} {d : CommandSpec Port PortRes V} {w : Machine V}
variable {front back free : List ℕ} {p c k : ℕ}

/-- The cursor stops around the key. -/
private theorem wp_advance {fuel : ℕ} {Q : ℕ × ℕ → Machine V → Prop}
    (h : ListShape w.memory (front ++ p :: c :: back) free) (hp : key w.memory p < k)
    (hk : k < uint32Max) (hfuel : back.length < fuel)
    (hQ : ∀ front' p' c' back', front' ++ p' :: c' :: back' = front ++ p :: c :: back →
      key w.memory p' < k → k ≤ key w.memory c' → Q (p', c') w) :
    (spec d).wp (advance fuel k p c) w Q := by
  induction back generalizing front p c fuel with
  | nil =>
    obtain ⟨fuel, rfl⟩ : ∃ f, fuel = f + 1 := ⟨fuel - 1, by omega⟩
    have hlast : key w.memory c = uint32Max := by
      have h' : ListShape w.memory ((front ++ [p]) ++ [c]) free := by simpa using h
      exact h'.key_last
    have hstop : ¬ w.memory.vault c nodeKey < k := by
      have hkey : w.memory.vault c nodeKey = uint32Max := hlast
      omega
    have hc0 : c ≠ 0 := h.ne_zero (by simp)
    simp only [advance, Prog.loop, Prog.bind_eq, wp_bind, wp_load_of_ne hc0, hstop,
      if_false, wp_pure, wp_ret]
    exact hQ front p c [] rfl hp (by omega)
  | cons e back ih =>
    obtain ⟨fuel, rfl⟩ : ∃ f, fuel = f + 1 := ⟨fuel - 1, by simp at hfuel; omega⟩
    have hc0 : c ≠ 0 := h.ne_zero (by simp)
    simp only [advance, Prog.loop, Prog.bind_eq, wp_bind, wp_load_of_ne hc0]
    by_cases hlt : w.memory.vault c nodeKey < k
    · have h' : ListShape w.memory ((front ++ [p]) ++ c :: e :: back) free := by simpa using h
      have hnext : w.memory.vault c nodeNext = e := h'.next_eq
      simp only [hlt, if_true, wp_bind, wp_load_of_ne hc0, hnext, wp_pure]
      refine ih h' hlt (by simp at hfuel; omega) (fun front' p' c' back' he => ?_)
      exact hQ front' p' c' back' (he.trans (by simp))
    · simp only [hlt, if_false, wp_pure, wp_ret]
      exact hQ front p c (e :: back) rfl hp (by simpa [key] using hlt)

structure Served (m : Memory) (cells free : List ℕ) (op : Operation) (k p : ℕ)
    (m' : Memory) (c' : ℕ) (cells' free' : List ℕ) : Prop where
  shape : ListShape m' cells' free'
  cursor : ∃ front back, cells' = front ++ p :: c' :: back
  pred : key m' p = key m p
  sreg : ∀ i ≠ freeBlocksHead, m'.sreg i = m.sreg i
  effect : abstractSet m' cells' free' = ((abstractSet m cells free).apply op k).2
  blocks : (cells' ++ free').Perm (cells ++ free)

/-- `Q` holds of every outcome that answers the request as the set does. -/
def AcceptsService (w : Machine V) (cells free : List ℕ) (op : Operation) (k p : ℕ)
    (Q : ℕ × BitVec 16 → Machine V → Prop) : Prop :=
  ∀ m' c' cells' free', Served w.memory cells free op k p m' c' cells' free' →
    Q (c', retvalBit ((abstractSet w.memory cells free).apply op k).1) { w with memory := m' }

variable {Q : ℕ × BitVec 16 → Machine V → Prop}

theorem AcceptsService.refused {op : Operation}
    (hQ : AcceptsService w (front ++ p :: c :: back) free op k p Q)
    (h : ListShape w.memory (front ++ p :: c :: back) free)
    (he : (abstractSet w.memory (front ++ p :: c :: back) free).apply op k =
      (false, abstractSet w.memory (front ++ p :: c :: back) free)) : Q (c, 0) w := by
  have hans := hQ w.memory c _ free
    ⟨h, ⟨front, back, rfl⟩, rfl, fun _ _ => rfl, by rw [he], .refl _⟩
  simpa only [he, retvalBit, Bool.false_eq_true, if_false] using hans

section

variable (h : ListShape w.memory (front ++ p :: c :: back) free) (hp : key w.memory p < k)
  (hc : k ≤ key w.memory c) (hk : k < uint32Max)
include h hp hc hk

private theorem wp_serve_contains
    (hQ : AcceptsService w (front ++ p :: c :: back) free .contains k p Q) :
    (spec d).wp (serve (opCode .contains) k p c) w Q := by
  have hmem := h.mem_keySet_iff hp hc hk
  have hc0 : c ≠ 0 := h.ne_zero (by simp)
  have hkey : w.memory.vault c nodeKey = key w.memory c := rfl
  have hans := hQ w.memory c _ free ⟨h, ⟨front, back, rfl⟩, rfl, fun _ _ => rfl, rfl, .refl _⟩
  rw [serve, if_pos (show opCode .contains = containsOp from rfl)]
  simp only [wp_bind, wp_load_of_ne hc0, hkey]
  simp only [abstractSet, BoundedSet.apply, hmem] at hans
  by_cases hkc : key w.memory c = k
  · simpa [hkc, retvalBit] using hans
  · simpa [hkc, retvalBit] using hans

private theorem wp_serve_add (hQ : AcceptsService w (front ++ p :: c :: back) free .add k p Q) :
    (spec d).wp (serve (opCode .add) k p c) w Q := by
  have hmem := h.mem_keySet_iff hp hc hk
  have hp0 : p ≠ 0 := h.ne_zero (by simp)
  have hc0 : c ≠ 0 := h.ne_zero (by simp)
  have hkey : w.memory.vault c nodeKey = key w.memory c := rfl
  rw [serve, if_neg (show opCode .add ≠ containsOp by decide),
    if_pos (show opCode .add = addOp from rfl)]
  simp only [wp_bind, wp_load_of_ne hc0, hkey]
  by_cases hkc : key w.memory c = k
  · have hrefused := hQ.refused h (by simp [abstractSet, BoundedSet.apply, hmem, hkc])
    simpa [hkc] using hrefused
  · simp only [ne_eq, hkc, not_false_eq_true, if_true, wp_bind]
    cases free with
    | nil =>
      have hrefused := hQ.refused h (by simp [abstractSet, BoundedSet.apply])
      refine wp_allocMemoryBlock_nil h.blocks ?_
      simpa using hrefused
    | cons b free =>
      have hb0 : b ≠ 0 := h.free_ne_zero (by simp)
      have happ : (abstractSet w.memory (front ++ p :: c :: back) (b :: free)).apply .add k =
          (true, ⟨insert k (keySet w.memory (front ++ p :: c :: back)), free.length⟩) := by
        simp [abstractSet, BoundedSet.apply, hmem, hkc]
      have hans := hQ (insertAfter w.memory b k p c) b (front ++ p :: b :: c :: back) free
        ⟨h.insert hp (by omega), ⟨front, c :: back, rfl⟩,
          by rw [insertAfter_key, if_neg (h.ne_of_mem_free (by simp) mem_cons_self)],
          fun i hi => insertAfter_sreg hi,
          by rw [h.abstractSet_insert (by omega) hk, happ],
          by simpa using perm_move (front ++ [p]) (c :: back) free b⟩
      refine wp_allocMemoryBlock_cons h.blocks hb0 ?_
      simpa [hb0, hp0, happ, retvalBit, insertAfter] using hans

private theorem wp_serve_remove
    (hQ : AcceptsService w (front ++ p :: c :: back) free .remove k p Q) :
    (spec d).wp (serve (opCode .remove) k p c) w Q := by
  have hmem := h.mem_keySet_iff hp hc hk
  have hp0 : p ≠ 0 := h.ne_zero (by simp)
  have hc0 : c ≠ 0 := h.ne_zero (by simp)
  have hkey : w.memory.vault c nodeKey = key w.memory c := rfl
  rw [serve, if_neg (show opCode .remove ≠ containsOp by decide),
    if_neg (show opCode .remove ≠ addOp by decide),
    if_pos (show opCode .remove = removeOp from rfl)]
  simp only [wp_bind, wp_load_of_ne hc0, hkey]
  by_cases hkc : key w.memory c = k
  · have h' : ListShape w.memory ((front ++ [p]) ++ c :: back) free := by simpa using h
    cases back with
    | nil =>
      have hlast := h'.key_last
      omega
    | cons e back =>
      have hnext : w.memory.vault c nodeNext = e := h'.next_eq
      have hpc : p ≠ c := fun he => h.notMem_around.1 (by simp [he])
      have happ : (abstractSet w.memory (front ++ p :: c :: e :: back) free).apply .remove k =
          (true, ⟨(keySet w.memory (front ++ p :: c :: e :: back)).erase k, free.length + 1⟩) := by
        simp [abstractSet, BoundedSet.apply, hmem, hkc]
      have hans := hQ (unlinkAfter w.memory p c) e (front ++ p :: e :: back) (c :: free)
        ⟨h.remove (by simp), ⟨front, back, rfl⟩, unlinkAfter_key hpc,
          fun i hi => unlinkAfter_sreg hi,
          by rw [h.abstractSet_remove, happ, hkc],
          by simpa using (perm_move (front ++ [p]) (e :: back) free c).symm⟩
      simp only [hkc, if_true, wp_bind, wp_load_of_ne hc0, wp_store_of_ne hp0, hnext]
      refine wp_freeMemoryBlock hc0 ?_
      simp only [unlinkAfter, hnext, happ] at hans
      simpa [hp0, hpc, retvalBit, nodeNext] using hans
  · have hrefused := hQ.refused h (by simp [abstractSet, BoundedSet.apply, hmem, hkc])
    simpa [hkc] using hrefused

/-- Serving a request at its place answers as the set does. -/
private theorem wp_serve {op : Operation}
    (hQ : AcceptsService w (front ++ p :: c :: back) free op k p Q) :
    (spec d).wp (serve (opCode op) k p c) w Q := by
  cases op with
  | contains => exact wp_serve_contains h hp hc hk hQ
  | add => exact wp_serve_add h hp hc hk hQ
  | remove => exact wp_serve_remove h hp hc hk hQ

end

/-! ### The sweep -/

def requestOf (slot : RequestSlot) : Operation × ℕ :=
  (decodeOperation slot.infoBits, slot.parameter)

variable {rely : Rely} {onStuck : Prop} {req : ℕ → RequestSlot}

structure Waiting (g : Ghost) (req : ℕ → RequestSlot) (i : ℕ) : Prop where
  held : g.held i = some ⟨req i, none⟩
  valid : Valid (req i).infoBits
  request : IsRequest (req i)
  inRange : KeyInRange (req i).parameter

/-- The vault after a batch: well formed, over the same blocks, with the set's keys. -/
def BatchDone (m : Memory) (cells free : List ℕ) (reqs : List (Operation × ℕ))
    (m' : Memory) : Prop :=
  (∀ i ≠ freeBlocksHead, m'.sreg i = m.sreg i) ∧
  ∃ cells' free', ListShape m' cells' free' ∧ (cells' ++ free').Perm (cells ++ free) ∧
    abstractSet m' cells' free' = ((abstractSet m cells free).applyAll reqs).2

theorem wp_sweep {fuel : ℕ} (order : List ℕ) {w : Machine Ghost}
    {Q : Unit → Machine Ghost → Prop} (h : ListShape w.memory (front ++ p :: c :: back) free)
    (hwait : ∀ i ∈ order, Waiting w.ports req i) (hnd : order.Nodup)
    (hbelow : ∀ i ∈ order, key w.memory p < (req i).parameter)
    (hsorted : order.Pairwise (fun i j => (req i).parameter ≤ (req j).parameter))
    (hfuel : (front ++ p :: c :: back ++ free).length ≤ fuel)
    (hQ : ∀ m', BatchDone w.memory (front ++ p :: c :: back) free
        (order.map (fun i => requestOf (req i))) m' →
      Q () ⟨m', w.ports.answerAll req order ((abstractSet w.memory (front ++ p :: c :: back)
        free).applyAll (order.map (fun i => requestOf (req i)))).1⟩) :
    (spec (ownership rely onStuck)).wp (sweep fuel order p c) w Q := by
  induction order generalizing w front back free p c Q with
  | nil => exact hQ w.memory ⟨fun _ _ => rfl, _, _, h, .refl _, rfl⟩
  | cons i order ih =>
    have hi := hwait i mem_cons_self
    obtain ⟨hin, hnd⟩ := nodup_cons.mp hnd
    obtain ⟨hle, hsorted⟩ := pairwise_cons.mp hsorted
    simp only [sweep, wp_bind]
    refine wp_readInfoBits_held hi.held (wp_readParameter_held hi.held ?_)
    rw [hi.request.extract_eq]
    refine wp_advance h (hbelow i mem_cons_self) hi.inRange.2 ?_ ?_
    · simp only [length_append, length_cons] at hfuel
      omega
    intro front' p' c' back' hcells hp' hc'
    rw [← hcells] at h hfuel hQ
    refine wp_serve h hp' hc' hi.inRange.2 ?_
    intro m' c'' cells' free' hs
    obtain ⟨front'', back'', rfl⟩ := hs.cursor
    rw [← hi.request.extract_eq]
    refine wp_answer hi.held hi.valid hi.request.retval ?_
    refine ih hs.shape ?_ hnd ?_ hsorted ?_ ?_
    · intro j hj
      have hji : j ≠ i := fun he => hin (he ▸ hj)
      have hw := hwait j (mem_cons_of_mem i hj)
      exact ⟨by simpa [Ghost.answer, hji] using hw.held, hw.valid, hw.request, hw.inRange⟩
    · intro j hj
      rw [hs.pred]
      exact hp'.trans_le (hle j hj)
    · rw [hs.blocks.length_eq]
      exact hfuel
    · rintro m'' ⟨hsreg, cells'', free'', hshape, hperm, habs⟩
      rw [hs.effect] at habs ⊢
      exact hQ m'' ⟨fun i hi => (hsreg i hi).trans (hs.sreg i hi), cells'', free'', hshape,
        hperm.trans hs.blocks, habs⟩

/-! ### Gathering -/

/-- The first `n` slots have been looked at, and showed `seen`; the valid ones are
in `xs` and are held. -/
structure Gathered (rely : Rely) (g g' : Ghost) (seen : ℕ → RequestSlot) (n : ℕ)
    (xs : List ℕ) : Prop where
  gathered : xs = (List.range n).filter (fun i => Valid (seen i).infoBits)
  relied : ∀ i < n, rely g.left i (seen i)
  left : g'.left = g.left
  served : g'.served = g.served
  held : ∀ i, g'.held i = if i ∈ xs then some ⟨seen i, none⟩ else none

variable {g g' : Ghost} {n : ℕ} {seen : ℕ → RequestSlot} {xs cells : List ℕ}

section

variable (h : Gathered rely g g' seen n xs)
include h

theorem Gathered.lt {i : ℕ} (hi : i ∈ xs) : i < n := by
  rw [h.gathered] at hi
  simpa using (mem_filter.mp hi).1

theorem Gathered.valid {i : ℕ} (hi : i ∈ xs) : Valid (seen i).infoBits := by
  rw [h.gathered] at hi
  simpa using (mem_filter.mp hi).2

theorem Gathered.nodup : xs.Nodup := by
  rw [h.gathered]
  exact nodup_range.filter _

theorem Gathered.length_le : xs.length ≤ n := by
  have hle := length_filter_le (fun i => decide (Valid (seen i).infoBits)) (List.range n)
  rw [← h.gathered] at hle
  simpa using hle

/-- Looking at one more slot. -/
theorem Gathered.succ {slot : RequestSlot} (hs : rely g.left n slot) :
    Gathered rely g (if Valid slot.infoBits then g'.hold n ⟨slot, none⟩ else g')
      (update seen n slot) (n + 1) (if Valid slot.infoBits then xs ++ [n] else xs) := by
  have hfilter : (List.range n).filter (fun i => Valid (update seen n slot i).infoBits) =
      xs := by
    rw [h.gathered]
    refine filter_congr (fun i hi => ?_)
    have hin : i ≠ n := (mem_range.mp hi).ne
    simp [hin]
  have hrelied : ∀ i < n + 1, rely g.left i (update seen n slot i) := by
    intro i hi
    by_cases hin : i = n
    · subst hin
      simpa using hs
    · simpa [hin] using h.relied i (by omega)
  by_cases hv : Valid slot.infoBits
  · simp only [hv, if_true]
    refine ⟨?_, hrelied, h.left, h.served, fun i => ?_⟩
    · rw [range_succ, filter_append, hfilter]
      simp [hv]
    · by_cases hin : i = n
      · subst hin
        simp
      · simpa [hin] using h.held i
  · simp only [hv, if_false]
    refine ⟨?_, hrelied, h.left, h.served, fun i => ?_⟩
    · rw [range_succ, filter_append, hfilter]
      simp [hv]
    · by_cases hin : i ∈ xs
      · simpa [hin, (h.lt hin).ne] using h.held i
      · simpa [hin] using h.held i

end

theorem wp_gather {w : Machine Ghost} (hopen : ∀ i, w.ports.held i = none) :
    (spec (ownership rely onStuck)).wp (gather n) w (fun xs w' => w'.memory = w.memory ∧
      ∃ seen, Gathered rely w.ports w'.ports seen n xs) := by
  refine (spec (ownership rely onStuck)).wp_forUp (fun i xs w' => w'.memory = w.memory ∧
      ∃ seen, Gathered rely w.ports w'.ports seen i xs) ?_ n 0 [] w (by omega)
    ⟨rfl, w.ports.left, ⟨rfl, fun i hi => by omega, rfl, rfl, fun i => by simp [hopen i]⟩⟩
  rintro i xs w' - ⟨hm, seen, hg⟩
  have hi : w'.ports.held i = none := by
    have hin : i ∉ xs := fun h => absurd (hg.lt h) (lt_irrefl i)
    simp [hg.held i, hin]
  rw [wp_bind]
  refine wp_readInfoBits_open hi (fun slot hs => ?_)
  have hnext := hg.succ (hg.left ▸ hs)
  by_cases hv : Valid slot.infoBits
  · have hc : checkValidRequest slot.infoBits ≠ 0 := hv
    simp only [hc, hv, ne_eq, not_false_eq_true, if_true, wp_pure] at hnext ⊢
    exact ⟨hm, _, hnext⟩
  · have hc : checkValidRequest slot.infoBits = 0 := not_not.mp hv
    simp only [hc, hv, ne_eq, not_true_eq_false, if_false, wp_pure] at hnext ⊢
    exact ⟨hm, _, hnext⟩

/-! ### The ops branch -/

/-- What the ops branch leaves behind: the slots showed `seen`, and the requests among
them were served in `order`. -/
structure Batch (rely : Rely) (n : ℕ) (w : Machine Ghost) (cells free : List ℕ)
    (seen : ℕ → RequestSlot) (order : List ℕ) (w' : Machine Ghost) : Prop where
  relied : ∀ i < n, rely w.ports.left i (seen i)
  gathered : order.Perm ((List.range n).filter (fun i => Valid (seen i).infoBits))
  sorted : order.Pairwise (fun i j => (seen i).parameter ≤ (seen j).parameter)
  vault : BatchDone w.memory cells free (order.map (fun i => requestOf (seen i))) w'.memory
  ports : ∃ g, Gathered rely w.ports g seen n
      ((List.range n).filter (fun i => Valid (seen i).infoBits)) ∧
    w'.ports = g.answerAll seen order ((abstractSet w.memory cells free).applyAll
      (order.map (fun i => requestOf (seen i)))).1

theorem Batch.length {w w' : Machine Ghost} {order : List ℕ}
    (_ : Batch rely n w cells free seen order w') :
    ((abstractSet w.memory cells free).applyAll
      (order.map (fun i => requestOf (seen i)))).1.length = order.length := by simp

theorem Batch.held {w w' : Machine Ghost} {order : List ℕ}
    (h : Batch rely n w cells free seen order w') (i : ℕ) : w'.ports.held i = none := by
  obtain ⟨g, hg, hports⟩ := h.ports
  rw [hports]
  by_cases hi : i ∈ order
  · exact Ghost.answerAll_held hi g h.length
  · rw [(Ghost.answerAll_of_notMem hi g _).1, hg.held i,
      if_neg (fun hx => hi (h.gathered.mem_iff.mpr hx))]

theorem wp_linkedListOps {fuel : ℕ} {w : Machine Ghost}
    (h : ListShape w.memory cells free) (hopen : ∀ i, w.ports.held i = none)
    (hrely : ∀ i < n, ∀ slot, rely w.ports.left i slot → Valid slot.infoBits →
      IsRequest slot ∧ KeyInRange slot.parameter)
    (hfuel : cells.length + free.length + n + 2 ≤ fuel) :
    (spec (ownership rely onStuck)).wp (linkedListOps fuel n) w (fun _ w' =>
      ∃ seen order, Batch rely n w cells free seen order w') := by
  simp only [linkedListOps, wp_bind, wp_readSreg]
  refine wp_mono (wp_gather hopen) ?_
  rintro xs ⟨m, g⟩ ⟨hm, seen, hg⟩
  obtain rfl : m = w.memory := hm
  have hreq : ∀ i ∈ xs, IsRequest (seen i) ∧ KeyInRange (seen i).parameter :=
    fun i hi => hrely i (hg.lt hi) _ (hg.relied i (hg.lt hi)) (hg.valid hi)
  have hheld : ∀ i ∈ xs, g.held i = some ⟨seen i, none⟩ := fun i hi => (hg.held i).trans (if_pos hi)
  have hlen := hg.length_le
  have hread : ReadsRank (ownership rely onStuck) ⟨w.memory, g⟩ (fun i => (seen i).parameter) xs :=
    fun i hi Q hQ => wp_readParameter_held (hheld i hi) hQ
  refine wp_quicksort_all hread ?_ (by omega) ?_
  · intro i hi
    exact (hreq i hi).2.2.trans (by decide)
  intro order hperm hsorted
  obtain ⟨c, back, rfl, hkey⟩ := h.exists_cells
  have hmem : ∀ i ∈ order, i ∈ xs := fun i hi => hperm.mem_iff.mp hi
  have h' : ListShape w.memory ([] ++ w.memory.sreg linkedListHead :: c :: back) free := h
  have hnext : w.memory.vault (w.memory.sreg linkedListHead) nodeNext = c := h'.next_eq
  rw [wp_load_of_ne (h.ne_zero mem_cons_self), hnext]
  refine wp_sweep order h' ?_ (hperm.nodup_iff.mpr hg.nodup) ?_ hsorted ?_ ?_
  · intro i hi
    exact ⟨hheld i (hmem i hi), hg.valid (hmem i hi), (hreq i (hmem i hi)).1,
      (hreq i (hmem i hi)).2⟩
  · intro i hi
    rw [hkey]
    exact (hreq i (hmem i hi)).2.1
  · simp only [nil_append, length_append]
    omega
  · intro m' hdone
    exact ⟨seen, order, hg.relied, hg.gathered ▸ hperm, hsorted, hdone, g, hg.gathered ▸ hg, rfl⟩

theorem wp_kernelRound_ops {fuel : ℕ} {locals : Locals} {w : Machine Ghost}
    {Q : Option Locals → Machine Ghost → Prop} (hmode : w.memory.sreg 0 = 1)
    (hQ : (spec (ownership rely onStuck)).wp (linkedListOps fuel n) w (fun _ => Q (some locals))) :
    (spec (ownership rely onStuck)).wp (kernelRound fuel n locals) w Q := by
  simpa [kernelRound, hmode] using hQ

/-! ### A kernel that runs alone -/

section Alone

variable {fuel n : ℕ} (locals : Locals) {m : Memory} (s : Ports) {cells : List ℕ}

def Ports.released (s : Ports) : Ghost := ⟨fun _ => none, s.slots, s.served⟩

theorem run_kernelRound_ops (hmode : m.sreg 0 = 1) (h : ListShape m cells free)
    (hreq : ∀ i < n, Valid (s.slots i).infoBits →
      IsRequest (s.slots i) ∧ KeyInRange (s.slots i).parameter)
    (hfuel : cells.length + free.length + n + 2 ≤ fuel) :
    ∃ m' s' g' seen order, (kernelRound fuel n locals).run (handler portHandler) ⟨m, s⟩ =
        some (some locals, ⟨m', s'⟩) ∧ AloneRel s' g' ∧ (∀ i < n, seen i = s.slots i) ∧
      Batch alone n ⟨m, s.released⟩ cells free seen order ⟨m', g'⟩ := by
  have hwp : (spec (ownership alone False)).wp (kernelRound fuel n locals) ⟨m, s.released⟩
      (fun r w' => r = some locals ∧
        ∃ seen order, Batch alone n ⟨m, s.released⟩ cells free seen order w') := by
    refine wp_kernelRound_ops hmode ?_
    refine wp_mono (wp_linkedListOps h (fun _ => rfl) ?_ hfuel) ?_
    · rintro i hi slot rfl
      exact hreq i hi
    · intro _ w' hb
      exact ⟨rfl, hb⟩
  obtain ⟨_, ⟨m', s'⟩, ⟨_, g'⟩, hrun, ⟨rfl, seen, order, hb⟩, rfl, hrel⟩ :=
    (spec (ownership alone False)).run_of_wp (spec_sound (ownership_sound_alone False)) id
      (s := ⟨m, s⟩) ⟨rfl, fun _ => rfl, rfl⟩ hwp
  exact ⟨m', s', g', seen, order, hrun, hrel, hb.relied, hb⟩

theorem Batch.retvals {m' : Memory} {s' : Ports} {order : List ℕ}
    (hb : Batch alone n ⟨m, s.released⟩ cells free seen order ⟨m', g'⟩) (hrel : AloneRel s' g')
    (hseen : ∀ i < n, seen i = s.slots i)
    (hreq : ∀ i < n, Valid (s.slots i).infoBits → IsRequest (s.slots i)) :
    order.map (fun i => getRetval (s'.slots i).infoBits) =
      ((abstractSet m cells free).applyAll
        (order.map (fun i => requestOf (s.slots i)))).1.map retvalBit := by
  obtain ⟨g, hg, rfl⟩ : ∃ g, Gathered alone s.released g seen n
      ((List.range n).filter (fun i => Valid (seen i).infoBits)) ∧ g' = _ := hb.ports
  have hmem : ∀ i ∈ order, i < n ∧ seen i = s.slots i := fun i hi =>
    have hlt := hg.lt (hb.gathered.mem_iff.mp hi)
    ⟨hlt, hseen i hlt⟩
  have hnd : order.Nodup := hb.gathered.nodup_iff.mpr hg.nodup
  have hret : ∀ i ∈ order, getRetval (seen i).infoBits = 0 := by
    intro i hi
    have hv := hg.valid (hb.gathered.mem_iff.mp hi)
    rw [(hmem i hi).2] at hv ⊢
    exact (hreq i (hmem i hi).1 hv).retval
  have hreqs : order.map (fun i => requestOf (seen i)) =
      order.map (fun i => requestOf (s.slots i)) :=
    map_congr_left (fun i hi => by rw [(hmem i hi).2])
  rw [← hreqs, ← Ghost.answerAll_retvals hnd hret g hb.length]
  exact map_congr_left (fun i _ => by rw [hrel.of_open (hb.held i)])

/-- One round in ops mode answers every gathered request as a bounded set does when it
serves them one at a time in an order sorted by key, and leaves the set's chain. -/
theorem kernelRound_ops_answers_as_set (hmode : m.sreg 0 = 1) (h : ListShape m cells free)
    (hreq : ∀ i < n, Valid (s.slots i).infoBits →
      IsRequest (s.slots i) ∧ KeyInRange (s.slots i).parameter)
    (hfuel : cells.length + free.length + n + 2 ≤ fuel) :
    ∃ (order : List ℕ) (m' : Memory) (s' : Ports) (cells' free' : List ℕ),
      (kernelRound fuel n locals).run (handler portHandler) ⟨m, s⟩ =
        some (some locals, ⟨m', s'⟩) ∧
      order.Perm ((List.range n).filter (fun i => Valid (s.slots i).infoBits)) ∧
      order.Pairwise (fun i j => (s.slots i).parameter ≤ (s.slots j).parameter) ∧
      order.map (fun i => getRetval (s'.slots i).infoBits) =
        ((abstractSet m cells free).applyAll
          (order.map (fun i => requestOf (s.slots i)))).1.map retvalBit ∧
      (∀ i ∈ order, ¬ Valid (s'.slots i).infoBits ∧
        (s'.slots i).parameter = (s.slots i).parameter) ∧
      (∀ i, i ∉ order → s'.slots i = s.slots i) ∧
      ListShape m' cells' free' ∧
      abstractSet m' cells' free' =
        ((abstractSet m cells free).applyAll (order.map (fun i => requestOf (s.slots i)))).2 := by
  obtain ⟨m', s', g', seen, order, hrun, hrel, hseen, hb⟩ :=
    run_kernelRound_ops locals s hmode h hreq hfuel
  obtain ⟨g, hg, hports⟩ := hb.ports
  obtain ⟨_, cells', free', hshape, _, habs⟩ := hb.vault
  have hlt : ∀ i ∈ order, i < n := fun i hi => hg.lt (hb.gathered.mem_iff.mp hi)
  have hslots : ∀ i ∈ order, seen i = s.slots i := fun i hi => hseen i (hlt i hi)
  have hnd : order.Nodup := hb.gathered.nodup_iff.mpr hg.nodup
  have hreqs : order.map (fun i => requestOf (seen i)) =
      order.map (fun i => requestOf (s.slots i)) :=
    map_congr_left (fun i hi => by rw [hslots i hi])
  have hfilter : (List.range n).filter (fun i => Valid (seen i).infoBits) =
      (List.range n).filter (fun i => Valid (s.slots i).infoBits) :=
    filter_congr (fun i hi => by rw [hseen i (mem_range.mp hi)])
  have hretvals := hb.retvals s hrel hseen (fun i hi hv => (hreq i hi hv).1)
  have hopen := hb.held
  obtain rfl : g' = _ := hports
  generalize hbs : ((abstractSet m cells free).applyAll
    (order.map (fun i => requestOf (seen i)))).1 = bs at hrel hopen
  have hlen : bs.length = order.length := by rw [← hbs]; simp
  have hleft : ∀ i, s'.slots i = (g.answerAll seen order bs).left i :=
    fun i => hrel.of_open (hopen i)
  refine ⟨order, m', s', cells', free', hrun, hfilter ▸ hb.gathered, ?_, hretvals, ?_, ?_,
    hshape, ?_⟩
  · exact hb.sorted.imp_of_mem (fun hi hj hle => by rwa [hslots _ hi, hslots _ hj] at hle)
  · intro i hi
    obtain ⟨b, hb'⟩ := Ghost.answerAll_left hi hnd g hlen
    rw [hleft i, hb', ← hslots i hi]
    exact ⟨not_valid_clearRequest _, rfl⟩
  · intro i hi
    rw [hleft i, (Ghost.answerAll_of_notMem hi g bs).2, hg.left]
    rfl
  · rw [habs, hreqs]

end Alone

/-- The two sentinels, and one free block at `192`. -/
def sentinelsAndOneBlock : Memory where
  vault
    | 64, 4 => 128
    | 128, 0 => uint32Max
    | _, _ => 0
  sreg
    | 0 => 1
    | 3 => 192
    | 4 => 64
    | 5 => 128
    | _ => 0

theorem sentinelsAndOneBlock_shape : ListShape sentinelsAndOneBlock [64, 128] [192] :=
  ⟨⟨rfl, rfl, rfl⟩, ⟨rfl, rfl⟩, by decide, rfl, rfl, rfl, by decide, by decide⟩

/-- Thread 0 asks to add 7, thread 1 whether 7 is there, thread 2 to add 9. -/
def threeRequests : ℕ → RequestSlot
  | 0 => ⟨setRequest (setOperation 0 addOp), 7⟩
  | 1 => ⟨setRequest (setOperation 0 containsOp), 7⟩
  | 2 => ⟨setRequest (setOperation 0 addOp), 9⟩
  | _ => ⟨0, 0⟩

theorem threeRequests_isRequest (i : ℕ) (hi : i < 3) :
    IsRequest (threeRequests i) ∧ KeyInRange (threeRequests i).parameter := by
  have hcases : i = 0 ∨ i = 1 ∨ i = 2 := by omega
  rcases hcases with rfl | rfl | rfl
  · exact ⟨⟨⟨.add, by decide⟩, by decide⟩, by decide⟩
  · exact ⟨⟨⟨.contains, by decide⟩, by decide⟩, by decide⟩
  · exact ⟨⟨⟨.add, by decide⟩, by decide⟩, by decide⟩

theorem kernelRound_ops_answers_threeRequests :
    ∃ (order : List ℕ) (m' : Memory) (s' : Ports) (cells' free' : List ℕ),
      (kernelRound 20 3 ⟨fun _ => 0, fun _ => 0⟩).run (handler portHandler)
          ⟨sentinelsAndOneBlock, ⟨threeRequests, [], []⟩⟩ =
        some (some ⟨fun _ => 0, fun _ => 0⟩, ⟨m', s'⟩) ∧
      order.Perm ((List.range 3).filter (fun i => Valid (threeRequests i).infoBits)) ∧
      order.Pairwise (fun i j => (threeRequests i).parameter ≤ (threeRequests j).parameter) ∧
      order.map (fun i => getRetval (s'.slots i).infoBits) =
        ((abstractSet sentinelsAndOneBlock [64, 128] [192]).applyAll
          (order.map (fun i => requestOf (threeRequests i)))).1.map retvalBit ∧
      (∀ i ∈ order, ¬ Valid (s'.slots i).infoBits ∧
        (s'.slots i).parameter = (threeRequests i).parameter) ∧
      (∀ i, i ∉ order → s'.slots i = threeRequests i) ∧
      ListShape m' cells' free' ∧
      abstractSet m' cells' free' = ((abstractSet sentinelsAndOneBlock [64, 128] [192]).applyAll
        (order.map (fun i => requestOf (threeRequests i)))).2 := by
  exact kernelRound_ops_answers_as_set _ _ rfl sentinelsAndOneBlock_shape
    (fun i hi _ => threeRequests_isRequest i hi) (by decide)

end SmcSim.LinkedListKernel
