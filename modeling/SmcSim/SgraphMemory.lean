import SmcSim.ChunkStreams
import SmcSim.SgraphBfs

/-!
# Sparse graphs in main memory

The node records of `defs.hh` and the lists that they point to. A pointer to a node is its index in
`nodes`, and a pointer to a list is the index of the node whose list it is. Each build of `node` has
the fields of its own kernel, one word each, in the order of the declaration.
-/

namespace SmcSim.SgraphMemory
open SgraphBfs DmaPrograms List Function

inductive Field where
  | teenager
  | followers
  | distance
  | weights
  | id
  | outDegree
  | successors
  deriving DecidableEq, Repr

inductive Loc where
  | node (i : ℕ) (f : Field)
  | successor (p c : ℕ)
  | weight (p c : ℕ)
  deriving DecidableEq, Repr

abbrev Loc.followers (i : ℕ) : Loc := .node i .followers

abbrev Loc.distance (i : ℕ) : Loc := .node i .distance

theorem Loc.node_injective (f : Field) : Function.Injective (Loc.node · f) :=
  fun _ _ heq => (Loc.node.inj heq).1

def dmaRes0 : ℕ := 0
def dmaRes1 : ℕ := 1
def dmaRes2 : ℕ := 2

/-- `-1` in `num_pongs`. -/
def noPongs : ℕ := 0xffffffff

/-- The number of words of a list with `n` entries, from its size in bytes as a `ulong_t`. -/
def listWords (n : ℕ) : ℕ := n * sizeofUlong % word / sizeofUlong

def successorList (p n : ℕ) : List Loc := (List.range (listWords n)).map (.successor p)

def weightList (p n : ℕ) : List Loc := (List.range (listWords n)).map (.weight p)

structure Holds (G : Graph) (m : Loc → ℕ) : Prop where
  outDegree : ∀ i < G.nodes, m (.node i .outDegree) = G.outDegree i
  successors : ∀ i < G.nodes, m (.node i .successors) = i
  successor : ∀ i < G.nodes, ∀ c s, (G.successors i)[c]? = some s → m (.successor i c) = s

def memoryOf (G : Graph) (value : Field → ℕ) : Loc → ℕ
  | .node i .outDegree => G.outDegree i
  | .node i .successors => i
  | .node _ f => value f
  | .successor p c => (G.successors p).getD c 0
  | .weight _ _ => 0

theorem holds_memoryOf (G : Graph) (value : Field → ℕ) : Holds G (memoryOf G value) := by
  refine ⟨fun _ _ => rfl, fun _ _ => rfl, fun i _ c s hs => ?_⟩
  change (G.successors i).getD c 0 = s
  rw [getD_eq_getElem?_getD, hs, Option.getD_some]

section Lists

variable {G : Graph} {m : Loc → ℕ} {i n v p : ℕ} {f : Field}

theorem Holds.update (h : Holds G m) (hdegree : f ≠ .outDegree) (hlist : f ≠ .successors) :
    Holds G (update m (.node i f) v) := by
  refine ⟨fun j hj => ?_, fun j hj => ?_, fun j hj c s hs => ?_⟩
  · rw [update_of_ne (fun heq => hdegree (Loc.node.inj heq).2.symm)]
    exact h.outDegree j hj
  · rw [update_of_ne (fun heq => hlist (Loc.node.inj heq).2.symm)]
    exact h.successors j hj
  · rw [update_of_ne (by simp)]
    exact h.successor j hj c s hs

theorem listWords_of_lt (h : n * sizeofUlong < word) : listWords n = n := by
  rw [listWords, Nat.mod_eq_of_lt h, Nat.mul_div_cancel _ (by decide)]

theorem length_weightList (h : n * sizeofUlong < word) : (weightList p n).length = n := by
  rw [weightList, length_map, length_range, listWords_of_lt h]

theorem length_successorList (h : n * sizeofUlong < word) : (successorList p n).length = n := by
  rw [successorList, length_map, length_range, listWords_of_lt h]

theorem fetched_list {Φ : (Loc → ℕ) → Prop} {w w' : World Loc} {rs xs : List ℕ} {loc : ℕ → Loc}
    {a res : ℕ} (hw' : Fetched Φ rs w w')
    (hflight : (res, words ((List.range (listWords xs.length)).map loc) a) ∈ w.inFlight)
    (hres : res ∈ rs) (hlist : xs.length * sizeofUlong < word)
    (hvalues : ∀ m, Φ m → ∀ c v, xs[c]? = some v → m (loc c) = v ∧ v < word) :
    ∀ c v, xs[c]? = some v → ByteMemory.load w'.spm (a + sizeofUlong * c) = v := by
  intro c v hv
  have hc : c < xs.length := (List.getElem?_eq_some_iff.mp hv).1
  have hat : ((List.range (listWords xs.length)).map loc)[c]? = some (loc c) := by
    rw [getElem?_map, getElem?_range (by rwa [listWords_of_lt hlist]), Option.map_some]
  obtain ⟨m, hm, hvalue⟩ := hw'.word _ hflight hres _ (mem_words hat)
  obtain ⟨hmv, hlt⟩ := hvalues m hm c v hv
  refine hvalue.trans ?_
  rw [hmv]
  exact Nat.mod_eq_of_lt hlt

theorem fetched_successor {Φ : (Loc → ℕ) → Prop} {w w' : World Loc} {rs : List ℕ}
    {a res : ℕ} (hw' : Fetched Φ rs w w') (hΦ : ∀ m, Φ m → Holds G m)
    (hflight : (res, words (successorList v (G.outDegree v)) a) ∈ w.inFlight) (hres : res ∈ rs)
    (hv : v < G.nodes) (hnodes : G.nodes ≤ word) (hlist : G.outDegree v * sizeofUlong < word) :
    ∀ c s, (G.successors v)[c]? = some s → ByteMemory.load w'.spm (a + sizeofUlong * c) = s := by
  refine fetched_list hw' hflight hres hlist
    (fun m hm c s hs => ⟨(hΦ m hm).successor v hv c s hs, ?_⟩)
  exact lt_of_lt_of_le (G.successors_lt v s (mem_of_getElem? hs)) hnodes

end Lists

/-! ### Node records -/

def sizeofNode (fields : List Field) : ℕ := sizeofUlong * fields.length

/-- The addresses of the words, from those of `nodes` and of the lists. -/
def layout (fields : List Field) (nodes : ℕ) (successors weights : ℕ → ℕ) : Loc → ℕ
  | .node i f => nodes + sizeofNode fields * i + sizeofUlong * fields.idxOf f
  | .successor p c => successors p + sizeofUlong * c
  | .weight p c => weights p + sizeofUlong * c

/-- `XFER_SIZE` and `MAX_XFER_SIZE`; no kernel has more than six buffers in the scratchpad. -/
structure Config (fields : List Field) where
  maxXferSize : ℕ
  xferSize : ℕ
  fields_pos : 0 < fields.length
  holds_node : sizeofNode fields ≤ xferSize
  xferSize_le : xferSize ≤ maxXferSize
  addressable : 6 * maxXferSize ≤ word

namespace Config

variable {fields : List Field} (S : Config fields)

/-- `nodes_count`. -/
def nodesCount : ℕ := S.xferSize / sizeofNode fields

theorem nodesCount_pos : 0 < S.nodesCount :=
  Nat.div_pos S.holds_node (mul_pos (by decide) S.fields_pos)

theorem nodesChunk_le : 4 * (S.nodesCount * fields.length) ≤ S.maxXferSize := by
  have hle := Nat.div_mul_le_self S.xferSize (sizeofNode fields)
  have heq : S.xferSize / sizeofNode fields * sizeofNode fields =
      4 * (S.nodesCount * fields.length) := by
    rw [nodesCount, sizeofNode, sizeofUlong]
    exact Nat.mul_left_comm _ _ _
  rw [heq] at hle
  exact le_trans hle S.xferSize_le

/-- The records of `nodes` in two buffers; there is no test for the end of the array. -/
def nodeStream : ChunkStream Loc Field where
  loc := .node
  fields := fields
  count := S.nodesCount
  res := dmaRes0
  wanted _ := true
  left := 0
  right := S.maxXferSize
  fields_pos := S.fields_pos
  count_pos := S.nodesCount_pos

theorem nodeStream_apart :
    S.nodeStream.left + 4 * (S.nodeStream.count * S.nodeStream.fields.length) ≤
    S.nodeStream.right :=
  le_trans (le_of_eq (zero_add _)) S.nodesChunk_le

/-- `nodes_ping[rr]`, which is taken for a copy of `nodes[r]`. -/
def copyField (k : Cursor) (r : ℕ) (f : Field) : DmaProg Loc ℕ :=
  loadCopy (S.nodeStream.fieldAddr k (fields.idxOf f)) (.node r f)

theorem outside_nodeStream {a : ℕ} (ha : 2 * S.maxXferSize ≤ a) : S.nodeStream.Outside a := by
  have hchunk := S.nodesChunk_le
  refine ⟨.inr ?_, .inr ?_⟩
  · change 0 + 4 * (S.nodesCount * fields.length) ≤ a
    omega
  · change S.maxXferSize + 4 * (S.nodesCount * fields.length) ≤ a
    omega

variable {S}

/-- The requests of the stream are in the first two buffers. -/
theorem pending_below {Φ : (Loc → ℕ) → Prop} {rest : List (ℕ × List (Loc × ℕ))} {r : ℕ} {k : Cursor}
    {w : World Loc} (h : S.nodeStream.Streaming Φ rest r k w) :
    ∀ p ∈ S.nodeStream.pending r k, p.1 = dmaRes0 ∧ ∀ x ∈ p.2, x.2 + 4 ≤ 2 * S.maxXferSize := by
  intro p hp
  rw [ChunkStream.mem_pending hp]
  refine ⟨rfl, fun x hx => ?_⟩
  have hbounds := bounds_of_mem_words hx
  have hchunk := S.nodesChunk_le
  have hbuffers := h.buffers
  rw [ChunkStream.length_chunk] at hbounds
  change _ ∧ x.2 + 4 ≤ k.pong + 4 * (S.nodesCount * fields.length) at hbounds
  change _ = 0 ∧ _ = S.maxXferSize ∨ _ = S.maxXferSize ∧ _ = 0 at hbuffers
  omega

theorem wp_copyField {Φ : (Loc → ℕ) → Prop} {R : Rules Loc}
    {rest : List (ℕ × List (Loc × ℕ))} {r : ℕ} {k : Cursor} {w : World Loc} {f : Field}
    {Q : ℕ → World Loc → Prop} (h : S.nodeStream.Streaming Φ rest r k w)
    (hrr : k.rr < S.nodesCount) (hf : f ∈ fields)
    (hq : ∀ m, Φ m → R.copies (.node r f) (m (.node r f) % word) (w.mem (.node r f)) →
      Q (m (.node r f) % word) w) :
    R.wp (S.copyField k r f) w Q := by
  have hat : fields[fields.idxOf f]? = some f := by
    rw [getElem?_eq_getElem (idxOf_lt_length_of_mem hf), getElem_idxOf]
  exact ChunkStream.wp_field h hrr hat hq

end Config

end SmcSim.SgraphMemory
