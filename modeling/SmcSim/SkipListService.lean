import SmcSim.SkipListKernel
import SmcSim.SkipListInit
import SmcSim.SkipListUpdate

/-!
# How a skip list kernel serves one request

The device holds a finite set of keys and has room for further nodes. A request of
`kernel_default` is answered as the set answers it; an added node takes a block, and
a removed node does not give its block back.
-/

namespace SmcSim.SkipListKernel
open EffectPrograms PimMemory SkipChains SkipListPrograms SkipListShape SkipListSearch
open SkipListUpdate SetSemantics
open List CommandSpec Function

/-! ### Info bits -/

def Valid (infobits : BitVec 8) : Prop := checkValidRequest infobits ≠ 0

instance (infobits : BitVec 8) : Decidable (Valid infobits) :=
  inferInstanceAs (Decidable (checkValidRequest infobits ≠ 0))

def retvalBit (b : Bool) : BitVec 8 := if b then 1 else 0

theorem getRetval_answer (v : BitVec 8) (b : Bool) :
    getRetval (clearRequest (setRetval v (retvalBit b))) = getRetval v ||| retvalBit b := by
  simp only [getRetval, clearRequest, setRetval, BitVec.and_assoc]
  cases b <;> simp [retvalBit, BitVec.and_or_distrib_right]

theorem valid_setRequest (v : BitVec 8) : Valid (setRequest v) := by
  simp only [Valid, checkValidRequest, setRequest, BitVec.and_or_distrib_right]
  intro h
  have hbit := congrArg (fun x : BitVec 8 => x.getLsbD 7) h
  simp at hbit

theorem extractOperation_request (v : BitVec 8) (op : Operation) :
    extractOperation (setRequest (setOperation v (opCode op))) = opCode op := by
  cases op <;>
    simp [extractOperation, setRequest, setOperation, opCode, containsOp, addOp, removeOp,
      BitVec.and_or_distrib_right, BitVec.and_assoc]

theorem getRetval_request (v : BitVec 8) (op : Operation) :
    getRetval (setRequest (setOperation v (opCode op))) = 0 := by
  cases op <;>
    simp [getRetval, setRequest, setOperation, opCode, containsOp, addOp, removeOp,
      BitVec.and_or_distrib_right, BitVec.and_assoc]

/-- The branches of both variants follow the operation of the request. -/
theorem ite_opCode {α : Type} (op : Operation) (onContains onAdd onRemove : α) :
    (if opCode op = containsOp then onContains else if opCode op = addOp then onAdd else onRemove) =
      match op with
      | .contains => onContains
      | .add => onAdd
      | .remove => onRemove := by
  cases op <;> rfl

theorem retvalBit_injective : Function.Injective retvalBit := by decide

/-! ### The ports -/

variable {P : Prop} {w : Device} {i : ℕ}

/-- The request slots answer exactly; `P` says whether stuck kernels are tolerated. -/
abbrev portSpec (P : Prop) : CommandSpec Port PortRes (ℕ → RequestSlot) :=
  (ofHandler portHandler).tolerating P

theorem wp_readInfoBits {Q : BitVec 8 → Device → Prop} (hQ : Q (w.ports i).infoBits w) :
    (spec (portSpec P)).wp (readInfoBits i) w Q := ⟨_, _, rfl, hQ⟩

theorem wp_writeInfoBits {v : BitVec 8} {Q : Unit → Device → Prop}
    (hQ : Q () ⟨w.memory, update w.ports i { w.ports i with infoBits := v }⟩) :
    (spec (portSpec P)).wp (writeInfoBits i v) w Q := ⟨_, _, rfl, hQ⟩

theorem returns_readParameter : Returns (portSpec P) (readParameter i) w (w.ports i).parameter :=
  fun _ hQ => ⟨_, _, rfl, hQ⟩

theorem returns_readRandomLevel :
    Returns (portSpec P) (readRandomLevel i) w (w.ports i).randomLevel :=
  fun _ hQ => ⟨_, _, rfl, hQ⟩

def answered (slot : RequestSlot) (b : Bool) : RequestSlot :=
  { slot with infoBits := clearRequest (setRetval slot.infoBits (retvalBit b)) }

variable {Q : BitVec 8 × Locals → Device → Prop} {R : Locals → Device → Prop}

theorem wp_serveSlot {execute : Variant} {locals : Locals} {b : Bool}
    (hvalid : Valid (w.ports i).infoBits)
    (hexecute : (spec (portSpec P)).wp (execute i (extractOperation (w.ports i).infoBits) locals) w
      (fun a w' => w'.ports = w.ports ∧ a.1 = retvalBit b ∧
      R a.2 ⟨w'.memory, update w.ports i (answered (w.ports i) b)⟩)) :
    (spec (portSpec P)).wp (serveSlot execute i locals) w R := by
  have hv : ¬ checkValidRequest (w.ports i).infoBits = 0 := hvalid
  simp only [serveSlot, wp_bind]
  refine wp_readInfoBits ?_
  rw [if_neg hv, wp_bind]
  refine wp_readInfoBits ?_
  rw [wp_bind]
  refine wp_mono hexecute ?_
  rintro ⟨retval, locals'⟩ ⟨m', slots⟩ ⟨hports, hret, hQ⟩
  obtain rfl : slots = w.ports := hports
  obtain rfl : retval = retvalBit b := hret
  simp only [wp_bind]
  refine wp_readInfoBits (wp_writeInfoBits (wp_readInfoBits (wp_writeInfoBits ?_)))
  simpa [answered] using hQ

theorem wp_serveSlot_of_not_valid {execute : Variant} {locals : Locals}
    (hvalid : ¬ Valid (w.ports i).infoBits) (hQ : R locals w) :
    (spec (portSpec P)).wp (serveSlot execute i locals) w R := by
  have hv : checkValidRequest (w.ports i).infoBits = 0 := by simpa [Valid] using hvalid
  simp only [serveSlot, wp_bind]
  refine wp_readInfoBits ?_
  rw [if_pos hv]
  exact hQ

theorem run_of_portSpec {α : Type} {p : SkipKernel α} {Q : α → Device → Prop}
    (h : (spec (portSpec False)).wp p w Q) :
    ∃ a w', p.run (handler portHandler) w = some (a, w') ∧ Q a w' := by
  obtain ⟨a, ⟨m, slots⟩, ⟨_, _⟩, hrun, hQ, rfl, rfl⟩ :=
    (spec (portSpec False)).run_of_wp
      (spec_sound (ofHandler_tolerating_sound portHandler False)) id
      (s := w) ⟨rfl, rfl⟩ h
  exact ⟨a, ⟨m, slots⟩, hrun, hQ⟩

/-- A program without a verified outcome has no outcome. -/
theorem run_eq_none_of_portSpec {α : Type} {p : SkipKernel α}
    (h : (spec (portSpec True)).wp p w (fun _ _ => False)) :
    p.run (handler portHandler) w = none := by
  cases hrun : p.run (handler portHandler) w with
  | none => rfl
  | some a =>
    obtain ⟨_, hf, _⟩ := (spec (portSpec True)).post_of_run
      (spec_sound (ofHandler_tolerating_sound portHandler True))
      (s := w) ⟨rfl, rfl⟩ h hrun
    exact hf.elim

/-! ### What the device holds -/

structure Holds (maxLevel : ℕ) (s : BoundedSet ℕ) (m : Memory) (cells free : List ℕ) : Prop where
  mode : m.sreg 0 = 1
  levels : m.sreg currMaxLevel = maxLevel
  shape : SkipShape node maxLevel m cells free
  keys : keysBetween (keyOf node m) cells = s.keys
  room : free.length = s.room
  blocks : cells.length + free.length ≤ node.numMemBlocks

variable {maxLevel k t : ℕ} {s : BoundedSet ℕ} {m : Memory} {cells free : List ℕ}
variable {locals : Locals}

theorem Holds.notMem (h : Holds maxLevel s m cells free) (hk : KeyInRange k) (hnew : k ∉ s.keys) :
    k ∉ cells.map (keyOf node m) := by
  rw [← mem_keysBetween hk, h.keys]
  exact hnew

theorem Holds.insert {b : ℕ} (h : Holds maxLevel s m cells (b :: free)) (hk : KeyInRange k)
    (hnew : k ∉ s.keys) (ht : 1 ≤ t ∧ t ≤ maxLevel) (hmax : maxLevel ≤ node.maxLevel)
    (har : ∀ l < t, Around node m cells l k (locals.preds l) (locals.succs l)) :
    Holds maxLevel ⟨insert k s.keys, s.room - 1⟩ (insertNode node m b k t locals)
      (below (keyOf node m) k cells ++ b :: above (keyOf node m) k cells) free := by
  have htmax : t ≤ node.maxLevel := ht.2.trans hmax
  have hlen := (insertNode_perm (k := k) h.shape).length_eq
  have hroom := h.room
  have hblocks := h.blocks
  simp only [length_append, length_cons] at hlen hroom hblocks ⊢
  refine ⟨?_, ?_, insertNode_shape h.shape hk (h.notMem hk hnew) ht.1 ht.2 htmax har, ?_, ?_, ?_⟩
  · rw [insertNode_sreg (by decide)]
    exact h.mode
  · rw [insertNode_sreg (by decide)]
    exact h.levels
  · rw [keysBetween_insertNode h.shape hk htmax, h.keys]
  · dsimp only
    omega
  · simp only [length_append, length_cons]
    omega

theorem Holds.unlink {p : ℕ} (h : Holds maxLevel s m cells free) (hk : KeyInRange k)
    (hp : p ∈ cells) (hkp : keyOf node m p = k) (hmax : maxLevel ≤ node.maxLevel)
    (har : ∀ l < maxLevel, Around node m cells l k (locals.preds l) (locals.succs l)) :
    Holds maxLevel ⟨s.keys.erase k, s.room⟩ (unlinkLevels node p locals (topOf node m p) m)
      (below (keyOf node m) k cells ++ above (keyOf node m) (k + 1) cells) free := by
  have htop : topOf node m p ≤ maxLevel := h.shape.bounded p hp (hkp ▸ hk)
  have hlen := congrArg List.length (h.shape.chain.split_at_key hp hkp)
  have hblocks := h.blocks
  simp only [length_append, length_cons] at hlen
  refine ⟨?_, ?_, unlinkLevels_shape h.shape hk hp hkp (htop.trans hmax)
    (fun l hl => har l (hl.trans_le htop)), ?_, h.room, ?_⟩
  · rw [unlinkLevels_sreg]
    exact h.mode
  · rw [unlinkLevels_sreg]
    exact h.levels
  · rw [keysBetween_unlinkLevels (htop.trans hmax), h.keys]
  · simp only [length_append]
    omega

/-! ### The default variant -/

/-- The outcome of a request: its return value, and what the device holds then. A request
that fails changes nothing. -/
structure Outcome (maxLevel : ℕ) (w : Device) (r : Bool × BoundedSet ℕ) (a : BitVec 8 × Locals)
    (w' : Device) : Prop where
  ports : w'.ports = w.ports
  retval : a.1 = retvalBit r.1
  unchanged : r.1 = false → w'.memory = w.memory
  holds : ∃ cells free, Holds maxLevel r.2 w'.memory cells free

variable {fuel : ℕ} {op : Operation}

section

variable (hfuel : node.numMemBlocks ≤ fuel) (hmax : 1 ≤ maxLevel ∧ maxLevel ≤ node.maxLevel)
variable (hk : KeyInRange (w.ports i).parameter)
include hfuel hmax hk

/-- The search that every operation starts with. -/
theorem wp_executeDefault_of_search (h : Holds maxLevel s w.memory cells free)
    (hQ : ∀ found locals', (found ≠ 0 ↔ (w.ports i).parameter ∈ s.keys) →
      Found node w.memory cells (w.ports i).parameter (opCode op = removeOp) maxLevel locals found
        locals' →
      (spec (portSpec P)).wp (match op with
        | .contains => if found ≠ 0 then pure (1, locals') else pure (0, locals')
        | .add =>
            if found = 0 then do
              addNode node (readParameter i) (readRandomLevel i) fuel locals'
              pure (1, locals')
            else pure (0, locals')
        | .remove =>
            if found ≠ 0 then do
              unlinkNode node found locals'
              pure (1, locals')
            else pure (0, locals') : SkipKernel (BitVec 8 × Locals)) w Q) :
    (spec (portSpec P)).wp (executeDefault fuel i (opCode op) locals) w Q := by
  have hblocks := h.blocks
  simp only [executeDefault, wp_bind, wp_readSreg, h.levels]
  refine wp_findNode_head returns_readParameter h.shape hk (by omega) hmax.1 hmax.2 ?_
  intro found locals' hfound hfd
  rw [h.keys] at hfound
  rw [ite_opCode]
  exact hQ found locals' hfound hfd

theorem wp_executeDefault_add {b : ℕ} (h : Holds maxLevel s w.memory cells (b :: free))
    (ht : (w.ports i).randomLevel ≤ maxLevel) (hnew : (w.ports i).parameter ∉ s.keys)
    (hQ : ∀ locals', (∀ l < (w.ports i).randomLevel, Around node w.memory cells l
        (w.ports i).parameter (locals'.preds l) (locals'.succs l)) →
      Q (1, locals') ⟨insertNode node w.memory b (w.ports i).parameter (w.ports i).randomLevel
        locals', w.ports⟩) :
    (spec (portSpec P)).wp (executeDefault fuel i (opCode .add) locals) w Q := by
  refine wp_executeDefault_of_search hfuel hmax hk h ?_
  intro found locals' hfound hfd
  have hf : found = 0 := not_ne_iff.mp (fun hf => hnew (hfound.mp hf))
  have hb : b ≠ 0 := h.shape.free_ne_zero mem_cons_self
  have har : ∀ l < (w.ports i).randomLevel, Around node w.memory cells l
      (w.ports i).parameter (locals'.preds l) (locals'.succs l) :=
    fun l hl => hfd.around (.inl hf) l (hl.trans_le ht)
  have htmax : (w.ports i).randomLevel ≤ node.maxLevel := ht.trans hmax.2
  have htfuel : (w.ports i).randomLevel < fuel := by
    rw [node_numMemBlocks] at hfuel
    exact (htmax.trans_lt (by decide)).trans_le hfuel
  dsimp only
  rw [if_pos hf, wp_bind]
  exact wp_addNode h.shape.blocks hb returns_readRandomLevel returns_readParameter htmax
    (fun l hl => h.shape.ne_zero (har l hl).left_mem.1) htfuel (hQ locals' har)

theorem wp_executeDefault (h : Holds maxLevel s w.memory cells free)
    (ht : op = .add → 1 ≤ (w.ports i).randomLevel ∧ (w.ports i).randomLevel ≤ maxLevel)
    (hroom : s.HasRoom op (w.ports i).parameter) :
    (spec (portSpec P)).wp (executeDefault fuel i (opCode op) locals) w
      (Outcome maxLevel w (s.spend applySet op (w.ports i).parameter)) := by
  by_cases hadd : op = .add ∧ (w.ports i).parameter ∉ s.keys
  · obtain ⟨rfl, hnew⟩ := hadd
    obtain ⟨b, free, rfl⟩ := exists_cons_of_length_pos (h.room ▸ hroom rfl hnew)
    refine wp_executeDefault_add hfuel hmax hk h (ht rfl).2 hnew ?_
    intro locals' har
    rw [BoundedSet.spend_add_of_notMem hnew]
    exact ⟨rfl, rfl, nofun, _, free, h.insert hk hnew (ht rfl) hmax.2 har⟩
  refine wp_executeDefault_of_search hfuel hmax hk h ?_
  intro found locals' hfound hfd
  cases op with
  | contains =>
    rw [BoundedSet.spend_contains]
    by_cases hmem : (w.ports i).parameter ∈ s.keys
    · simp only [hfound.mpr hmem, hmem, ne_eq, not_false_eq_true, if_true, decide_true]
      exact ⟨rfl, rfl, fun _ => rfl, cells, free, h⟩
    · have hf : found = 0 := not_ne_iff.mp (fun hf => hmem (hfound.mp hf))
      simp only [hf, hmem, ne_eq, not_true_eq_false, if_false, decide_false]
      exact ⟨rfl, rfl, fun _ => rfl, cells, free, h⟩
  | add =>
    have hmem : (w.ports i).parameter ∈ s.keys := not_not.mp (fun hnew => hadd ⟨rfl, hnew⟩)
    rw [BoundedSet.spend_add_of_mem hmem]
    dsimp only
    rw [if_neg (hfound.mpr hmem)]
    exact ⟨rfl, rfl, fun _ => rfl, cells, free, h⟩
  | remove =>
    by_cases hmem : (w.ports i).parameter ∈ s.keys
    · have hf := hfound.mpr hmem
      obtain ⟨hcell, hkey⟩ := hfd.hit hf
      have htop := h.shape.bounded found hcell (hkey ▸ hk)
      have har := hfd.around (.inr rfl)
      rw [BoundedSet.spend_remove_of_mem hmem]
      dsimp only
      rw [if_pos hf, wp_bind]
      refine wp_unlinkNode hf rfl
        (fun l hl => h.shape.ne_zero (har l (hl.trans_le htop)).left_mem.1) ?_
      exact ⟨rfl, rfl, nofun, _, free, h.unlink hk hcell hkey hmax.2 har⟩
    · have hf : found = 0 := not_ne_iff.mp (fun hf => hmem (hfound.mp hf))
      rw [BoundedSet.spend_remove_of_notMem hmem]
      dsimp only
      rw [if_neg (not_not.mpr hf)]
      exact ⟨rfl, rfl, fun _ => rfl, cells, free, h⟩

/-- An addition of a new key that finds no free block dereferences `NULL`. -/
theorem wp_executeDefault_of_full (h : Holds maxLevel s w.memory cells []) (hP : P)
    (hnew : (w.ports i).parameter ∉ s.keys) :
    (spec (portSpec P)).wp (executeDefault fuel i (opCode .add) locals) w Q := by
  refine wp_executeDefault_of_search hfuel hmax hk h ?_
  intro found locals' hfound hfd
  have hf : found = 0 := not_ne_iff.mp (fun hf => hnew (hfound.mp hf))
  dsimp only
  rw [if_pos hf]
  simp only [addNode, wp_bind]
  refine wp_allocMemoryBlock_nil h.shape.blocks (returns_readRandomLevel _ ?_)
  exact wp_store.mpr (by rw [if_pos rfl]; exact hP)

end

/-! ### One request -/

variable {execute : Variant} {n : ℕ} {x : Locals × Device} {r : Request}

def Represents (maxLevel : ℕ) (s : BoundedSet ℕ) (x : Locals × Device) : Prop :=
  ∃ cells free, Holds maxLevel s x.2.memory cells free

@[simp] theorem submit_ports (r : Request) (w : Device) : (submit r w).ports r.thread = r.slot := by
  simp [submit]

theorem wp_serveRequest {b : Bool}
    (h : (spec (portSpec P)).wp (execute r.thread (opCode r.op) x.1) (submit r x.2)
      (fun a w' => w'.ports = (submit r x.2).ports ∧ a.1 = retvalBit b ∧
        R a.2 ⟨w'.memory, update (submit r x.2).ports r.thread (answered r.slot b)⟩)) :
    (spec (portSpec P)).wp (serveSlot execute r.thread x.1) (submit r x.2) R := by
  have hvalid : Valid ((submit r x.2).ports r.thread).infoBits := by
    rw [submit_ports]
    exact valid_setRequest _
  refine wp_serveSlot (b := b) hvalid ?_
  rw [submit_ports, Request.slot, extractOperation_request]
  exact h

/-- A request is answered as its execution decides; its return bit is clear on submission. -/
theorem serveRequest_of_wp {b : Bool}
    (h : (spec (portSpec False)).wp (execute r.thread (opCode r.op) x.1) (submit r x.2)
      (fun a w' => w'.ports = (submit r x.2).ports ∧ a.1 = retvalBit b ∧
        R a.2 ⟨w'.memory, update (submit r x.2).ports r.thread (answered r.slot b)⟩)) :
    ∃ x', serveRequest execute r x = some (retvalBit b, x') ∧ R x'.1 x'.2 := by
  have hserve : (spec (portSpec False)).wp (serveSlot execute r.thread x.1) (submit r x.2)
      (fun locals' w' => getRetval (w'.ports r.thread).infoBits = retvalBit b ∧ R locals' w') := by
    refine wp_serveRequest (b := b) (wp_mono h ?_)
    rintro a w' ⟨hports, hret, hQ⟩
    refine ⟨hports, hret, ?_, hQ⟩
    simp [answered, Request.slot, getRetval_answer, getRetval_request]
  obtain ⟨locals', w', hrun, hbit, hQ⟩ := run_of_portSpec hserve
  exact ⟨(locals', w'), by simp [serveRequest, hrun, hbit], hQ⟩

theorem serveRequest_of_outcome {a : Bool × BoundedSet ℕ}
    (h : (spec (portSpec False)).wp (execute r.thread (opCode r.op) x.1) (submit r x.2)
      (Outcome maxLevel (submit r x.2) a)) :
    ∃ x', serveRequest execute r x = some (retvalBit a.1, x') ∧ Represents maxLevel a.2 x' ∧
      (a.1 = false → x'.2.memory = x.2.memory) := by
  refine serveRequest_of_wp (R := fun locals' w' => Represents maxLevel a.2 (locals', w') ∧
    (a.1 = false → w'.memory = x.2.memory)) (wp_mono h ?_)
  rintro _ w' ⟨hports, hret, hsame, hholds⟩
  exact ⟨hports, hret, hholds, hsame⟩

theorem serveRequest_eq_none (h : (spec (portSpec True)).wp
    (execute r.thread (opCode r.op) x.1) (submit r x.2) (fun _ _ => False)) :
    serveRequest execute r x = none := by
  have hserve : (spec (portSpec True)).wp (serveSlot execute r.thread x.1) (submit r x.2)
      (fun _ _ => False) :=
    wp_serveRequest (b := false) (wp_mono h (fun _ _ hf => hf.elim))
  rw [serveRequest, run_eq_none_of_portSpec hserve]
  rfl

end SmcSim.SkipListKernel
