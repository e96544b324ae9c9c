import SmcSim.DmaClashes
import SmcSim.Followers
import SmcSim.SgraphMemory

/-!
# Counting teenage followers in a sparse graph

`execute_kernel` of `sgraph_teenage_follower.c` built as `kernel_default` and as `kernel_best`, both
without the atomic commands of the memory. `kernel_best` reads the node records in chunks and the
successor list of a teenager one round ahead of the round in which it counts. The counters that it
increments lie in the records that are being copied; it never reads them from a copy, so that they
race with nothing.
-/

namespace SmcSim.SgraphTeenage
open EffectPrograms CommandSpec DmaPrograms Followers SgraphBfs SgraphMemory Interleavings List

/-! ### The plain kernel -/

def visitNode (G : Graph) (teenager : ℕ → Bool) (followers : ℕ → ℕ) (r : ℕ) : ℕ → ℕ :=
  if teenager r then (G.successors r).foldl follow followers else followers

/-- The counters when the nodes before `r` have been visited. -/
def followersBefore (G : Graph) (teenager : ℕ → Bool) (followers : ℕ → ℕ) : ℕ → ℕ → ℕ
  | 0 => followers
  | r + 1 => visitNode G teenager (followersBefore G teenager followers r) r

def executeKernelDefault (G : Graph) (teenager : ℕ → Bool) (followers : ℕ → ℕ) : Result :=
  let followers := followersBefore G teenager followers G.nodes
  ⟨followers, totalFollowers followers G.nodes⟩

/-! ### The pipelined kernel -/

/-- The members of `node` in this build. -/
def nodeFields : List Field := [.teenager, .followers, .id, .outDegree, .successors]

structure Locals where
  nodes : Cursor
  succPing : ℕ
  succPong : ℕ
  numPongs : ℕ

/-- `succ_ping[c]->followers++`. -/
def visitPing (l : Locals) (c : ℕ) (_ : Unit) : DmaProg Loc Unit := do
  let succ ← loadSpm (l.succPing + sizeofUlong * c)
  let followers ← load (.node succ .followers)
  store (.node succ .followers) ((followers + 1) % word)

def scanPings (l : Locals) : DmaProg Loc Locals :=
  if l.numPongs ≠ noPongs then do
    Prog.forUp (visitPing l) l.numPongs 0 ()
    pure { l with numPongs := noPongs }
  else pure l

section Kernel

variable (S : Config nodeFields)

/-- `nodes_ping[rr].teenager && nodes_ping[rr].out_degree`. -/
def hasFollowees (r : ℕ) (l : Locals) : DmaProg Loc Bool := do
  let teenager ← S.copyField l.nodes r .teenager
  if teenager ≠ 0 then
    let outDegree ← S.copyField l.nodes r .outDegree
    pure (outDegree ≠ 0)
  else pure false

def requestSuccessors (r : ℕ) (l : Locals) : DmaProg Loc Unit := do
  if ← hasFollowees S r l then
    let successors ← S.copyField l.nodes r .successors
    let outDegree ← S.copyField l.nodes r .outDegree
    dmaRead (successorList successors outDegree) l.succPong dmaRes1

def takePongs (r : ℕ) (l : Locals) : DmaProg Loc Locals := do
  if ← hasFollowees S r l then
    let numPongs ← S.copyField l.nodes r .outDegree
    dmaWait [dmaRes1]
    pure { l with numPongs := numPongs, succPing := l.succPong, succPong := l.succPing }
  else pure l

def round (r : ℕ) (l : Locals) : DmaProg Loc Locals := do
  let nodes ← S.nodeStream.refill r l.nodes
  let l := { l with nodes := nodes }
  requestSuccessors S r l
  let l ← scanPings l
  let l ← takePongs S r l
  pure { l with nodes := { l.nodes with rr := l.nodes.rr + 1 } }

/-- The value is the one left in `SREG[3]`. -/
def executeKernelBest (nodes : ℕ) : DmaProg Loc ℕ := do
  let cursor ← S.nodeStream.start 0 S.maxXferSize
  let l ← Prog.forUp (round S) nodes 0 ⟨cursor, 2 * S.maxXferSize, 3 * S.maxXferSize, noPongs⟩
  let _ ← scanPings l
  Prog.forUp (addFollowers .followers) nodes 0 0

end Kernel

/-! ### The invariant of the rounds -/

structure Teenagers (G : Graph) (teenager : ℕ → Bool) (m : Loc → ℕ) : Prop extends Holds G m where
  teenager : ∀ i < G.nodes, m (.node i .teenager) = (teenager i).toNat

abbrev Streaming (S : Config nodeFields) (G : Graph) (teenager : ℕ → Bool) :=
  S.nodeStream.Streaming (Teenagers G teenager)

/-- What is left to count when the first `r` nodes have been read. `fits` says that the successor
lists fit into their buffers; without it nothing is known of the lists in the scratchpad. -/
inductive Hand (G : Graph) (fits : Prop) (target : ℕ → ℕ) (l : Locals) (w : World Loc) : Prop where
  | none (hpongs : l.numPongs = noPongs) (hcount : fits → w.field .followers = target)
  | one {u : ℕ} (hu : u < G.nodes) (hpongs : l.numPongs = G.outDegree u)
      (hlist : fits → ∀ c s, (G.successors u)[c]? = some s →
        ByteMemory.load w.spm (l.succPing + sizeofUlong * c) = s)
      (hcount : fits → (G.successors u).foldl follow (w.field .followers) = target)

def Buffers (S : Config nodeFields) (l : Locals) : Prop :=
  l.succPing = 2 * S.maxXferSize ∧ l.succPong = 3 * S.maxXferSize ∨
    l.succPing = 3 * S.maxXferSize ∧ l.succPong = 2 * S.maxXferSize

/-- The list of a teenager that is requested in round `r`. -/
def requested (G : Graph) (teenager : ℕ → Bool) (r : ℕ) (l : Locals) : List (ℕ × List (Loc × ℕ)) :=
  if teenager r ∧ G.outDegree r ≠ 0 then
    [(dmaRes1, words (successorList r (G.outDegree r)) l.succPong)]
  else []

section Rules

variable {S : Config nodeFields} {G : Graph} {teenager : ℕ → Bool} {fits : Prop}
  {followers target : ℕ → ℕ}
  {rest : List (ℕ × List (Loc × ℕ))} {r : ℕ} {l : Locals} {w : World Loc} {R : Rules Loc}

theorem Teenagers.update {m : Loc → ℕ} (h : Teenagers G teenager m) (i v : ℕ) :
    Teenagers G teenager (Function.update m (.node i .followers) v) := by
  refine ⟨h.toHolds.update (by decide) (by decide), fun j hj => ?_⟩
  rw [Function.update_of_ne (by simp)]
  exact h.teenager j hj

theorem Teenagers.outDegree_mod {m : Loc → ℕ} (h : Teenagers G teenager m) (hr : r < G.nodes)
    (hlist : G.outDegree r * sizeofUlong < word) :
    m (.node r .outDegree) % word = G.outDegree r := by
  rw [h.outDegree r hr, Nat.mod_eq_of_lt]
  rw [sizeofUlong] at hlist
  omega

theorem wp_hasFollowees (h : Streaming S G teenager rest r l.nodes w)
    (hrr : l.nodes.rr < S.nodesCount) (hr : r < G.nodes)
    (hlist : G.outDegree r * sizeofUlong < word) {Q : Bool → World Loc → Prop}
    (hq : Q (teenager r && G.outDegree r ≠ 0) w) : R.wp (hasFollowees S r l) w Q := by
  refine wp_seq (Config.wp_copyField h hrr (by decide) (fun m hm _ => ?_))
  rw [hm.teenager r hr]
  cases hteen : teenager r with
  | false =>
    rw [hteen] at hq
    exact hq
  | true =>
    rw [hteen] at hq
    refine wp_seq (Config.wp_copyField h hrr (by decide) (fun m hm _ => ?_))
    rw [hm.outDegree_mod hr hlist]
    exact hq

def Beside (S : Config nodeFields) (fits : Prop) (rest : List (ℕ × List (Loc × ℕ))) (l : Locals) :
    Prop :=
  fits → ∀ p ∈ rest, ∀ x ∈ p.2, l.succPong ≤ x.2 ∧ x.2 + 4 ≤ l.succPong + S.maxXferSize

section

variable (h : Streaming S G teenager rest r l.nodes w)
include h

theorem avoids_ping (hbuffers : Buffers S l) (hrest : Beside S fits rest l) (hfits : fits) {c : ℕ}
    (hc : sizeofUlong * c + 4 ≤ S.maxXferSize) : w.Avoids (l.succPing + sizeofUlong * c) := by
  intro p hp x hx
  rw [Buffers] at hbuffers
  rw [Apart]
  rcases mem_append.mp ((h.flying p).mp hp) with hpending | hother
  · have hbelow := (Config.pending_below h p hpending).2 x hx
    omega
  · have hplace := hrest hfits p hother x hx
    omega

theorem wp_visitPing (hbuffers : Buffers S l) (hrest : Beside S fits rest l) {c s : ℕ}
    (hlist : fits → ByteMemory.load w.spm (l.succPing + sizeofUlong * c) = s ∧
      sizeofUlong * c + 4 ≤ S.maxXferSize) :
    R.wp (visitPing l c ()) w (fun _ w' =>
      Streaming S G teenager rest r l.nodes w' ∧ w'.spm = w.spm ∧
        (fits → w'.field .followers = follow (w.field .followers) s)) := by
  have hcount : ∀ i, R.wp
      (do
        let followers ← load (.node i .followers)
        store (.node i .followers) ((followers + 1) % word)) w (fun _ w' =>
      Streaming S G teenager rest r l.nodes w' ∧ w'.spm = w.spm ∧
        w'.field .followers = follow (w.field .followers) i) := by
    intro i
    refine wp_seq
      (wp_load h.reading (wp_store h.reading ⟨h.set (h.reading.now.update _ _), rfl, ?_⟩))
    exact World.field_set (Loc.node_injective _) _ _ _
  by_cases hfits : fits
  · obtain ⟨hvalue, hc⟩ := hlist hfits
    refine wp_seq (wp_loadSpm (avoids_ping h hbuffers hrest hfits hc) ?_)
    rw [hvalue]
    refine wp_mono (hcount s) ?_
    rintro - w' ⟨hstreaming, hspm, hfollowers⟩
    exact ⟨hstreaming, hspm, fun _ => hfollowers⟩
  · refine wp_seq (wp_loadSpm_any (fun i => wp_mono (hcount i) ?_))
    rintro - w' ⟨hstreaming, hspm, -⟩
    exact ⟨hstreaming, hspm, fun hfits' => absurd hfits' hfits⟩

theorem wp_scanPings (hbuffers : Buffers S l) (hrest : Beside S fits rest l)
    (hfits : fits → ∀ v < G.nodes, G.outDegree v * sizeofUlong ≤ S.maxXferSize)
    (hlists : ∀ v < G.nodes, G.outDegree v * sizeofUlong < word) (hhand : Hand G fits target l w) :
    R.wp (scanPings l) w (fun l' w' =>
      Streaming S G teenager rest r l.nodes w' ∧
        l' = { l with numPongs := noPongs } ∧ w'.spm = w.spm ∧
          (fits → w'.field .followers = target)) := by
  cases hhand with
  | none hpongs hcount =>
    rw [scanPings, if_neg (not_not_intro hpongs)]
    exact ⟨h, by rw [← hpongs], rfl, hcount⟩
  | @one u hu hpongs hlist hcount =>
    have hne : l.numPongs ≠ noPongs := by
      have hlt := hlists u hu
      rw [hpongs, noPongs]
      rw [sizeofUlong, word] at hlt
      omega
    have hbody : ∀ c a w', c < G.outDegree u →
        (Streaming S G teenager rest r l.nodes w' ∧ w'.spm = w.spm ∧
          (fits → w'.field .followers =
            ((G.successors u).take c).foldl follow (w.field .followers))) →
        R.wp (visitPing l c a) w' (fun _ w'' =>
          Streaming S G teenager rest r l.nodes w'' ∧ w''.spm = w.spm ∧
            (fits → w''.field .followers =
              ((G.successors u).take (c + 1)).foldl follow (w.field .followers))) := by
      rintro c - w' hc ⟨hstreaming, hspm, hfollowers⟩
      obtain ⟨s, hs⟩ : ∃ s, (G.successors u)[c]? = some s := ⟨_, getElem?_eq_getElem hc⟩
      refine wp_mono (wp_visitPing (s := s) hstreaming hbuffers hrest (fun hf => ⟨?_, ?_⟩)) ?_
      · rw [hspm]
        exact hlist hf c s hs
      · have hle := hfits hf u hu
        rw [sizeofUlong] at hle ⊢
        omega
      · rintro - w'' ⟨hstreaming', hspm', hfollowers'⟩
        refine ⟨hstreaming', hspm'.trans hspm, fun hf => ?_⟩
        rw [hfollowers' hf, hfollowers hf, take_add_one, hs, foldl_append]
        rfl
    rw [scanPings, if_pos hne, hpongs]
    refine wp_then (wp_forUp _ _ hbody _ 0 () w (zero_add _) ⟨h, rfl, fun _ => rfl⟩) ?_
    rintro - w' ⟨hstreaming, hspm, hfollowers⟩
    refine ⟨hstreaming, rfl, hspm, fun hf => ?_⟩
    rw [hfollowers hf, Graph.outDegree, take_length]
    exact hcount hf

end

theorem outside_succPong (hbuffers : Buffers S l) {ls : List Loc} :
    ∀ x ∈ words ls l.succPong, S.nodeStream.Outside x.2 := by
  intro x hx
  have hbounds := bounds_of_mem_words hx
  rw [Buffers] at hbuffers
  exact S.outside_nodeStream (by omega)

theorem beside_requested (hfits : fits → G.outDegree r * sizeofUlong ≤ S.maxXferSize)
    (hlist : G.outDegree r * sizeofUlong < word) : Beside S fits (requested G teenager r l) l := by
  intro hf p hp x hx
  rw [requested] at hp
  split at hp
  · rw [mem_singleton.mp hp] at hx
    have hbounds := bounds_of_mem_words hx
    rw [length_successorList hlist, mul_comm] at hbounds
    have hle := hfits hf
    rw [sizeofUlong] at hle
    omega
  · cases hp

theorem wp_requestSuccessors (h : Streaming S G teenager [] r l.nodes w)
    (hrr : l.nodes.rr < S.nodesCount) (hbuffers : Buffers S l) (hr : r < G.nodes)
    (hnodes : G.nodes ≤ word) (hlist : G.outDegree r * sizeofUlong < word) :
    R.wp (requestSuccessors S r l) w (fun _ w' =>
      Streaming S G teenager (requested G teenager r l) r l.nodes w' ∧
        w'.spm = w.spm ∧ w'.mem = w.mem) := by
  refine wp_seq (wp_hasFollowees h hrr hr hlist ?_)
  by_cases hfollows : teenager r = true ∧ G.outDegree r ≠ 0
  · have hcond : (teenager r && decide (G.outDegree r ≠ 0)) = true := by simpa using hfollows
    rw [if_pos hcond]
    refine wp_seq (Config.wp_copyField h hrr (by decide) (fun m hm _ => ?_))
    rw [hm.successors r hr, Nat.mod_eq_of_lt (lt_of_lt_of_le hr hnodes)]
    refine wp_seq (Config.wp_copyField h hrr (by decide) (fun m hm _ => ?_))
    rw [hm.outDegree_mod hr hlist]
    have hlength := length_successorList (p := r) hlist
    refine wp_dmaRead h.reading ?_ (fun p hp => ?_) ?_
    · intro hnil
      rw [hnil] at hlength
      exact hfollows.2 hlength.symm
    · rcases mem_append.mp ((h.flying p).mp hp) with hpending | hnil
      · obtain ⟨hres, hbelow⟩ := Config.pending_below h p hpending
        refine ⟨by rw [hres]; decide, fun x hx => .inl ?_⟩
        have hlow := hbelow x hx
        rw [Buffers] at hbuffers
        omega
      · cases hnil
    · rw [requested, if_pos hfollows]
      exact ⟨h.launch (by decide : dmaRes1 ≠ dmaRes0) (outside_succPong hbuffers), rfl, rfl⟩
  · have hcond : ¬ (teenager r && decide (G.outDegree r ≠ 0)) = true := by simpa using hfollows
    rw [if_neg hcond, requested, if_neg hfollows]
    exact ⟨h, rfl, rfl⟩

theorem wp_takePongs
    (h : Streaming S G teenager (requested G teenager r l) r l.nodes w)
    (hrr : l.nodes.rr < S.nodesCount) (hbuffers : Buffers S l) (hr : r < G.nodes)
    (hnodes : G.nodes ≤ word) (hlist : G.outDegree r * sizeofUlong < word)
    (hpongs : l.numPongs = noPongs)
    (hcount : fits → w.field .followers = followersBefore G teenager followers r) :
    R.wp (takePongs S r l) w (fun l' w' =>
      Streaming S G teenager [] r l'.nodes w' ∧ l'.nodes = l.nodes ∧ Buffers S l' ∧
        Hand G fits (followersBefore G teenager followers (r + 1)) l' w') := by
  refine wp_seq (wp_hasFollowees h hrr hr hlist ?_)
  by_cases hfollows : teenager r = true ∧ G.outDegree r ≠ 0
  · have hcond : (teenager r && decide (G.outDegree r ≠ 0)) = true := by simpa using hfollows
    have hrequested : requested G teenager r l =
        [(dmaRes1, words (successorList r (G.outDegree r)) l.succPong)] := if_pos hfollows
    rw [if_pos hcond]
    refine wp_seq (Config.wp_copyField h hrr (by decide) (fun m hm _ => ?_))
    rw [hm.outDegree_mod hr hlist]
    refine wp_seq (wp_dmaWait h.reading (fun w' hw' => ?_))
    have hlanded := h.landed hw' (by decide : dmaRes0 ∉ [dmaRes1])
    rw [hrequested] at hlanded
    refine ⟨hlanded, rfl, hbuffers.symm.imp And.symm And.symm,
      .one hr rfl (fun _ => ?_) (fun hf => ?_)⟩
    · refine fetched_successor hw' (fun _ hm => hm.toHolds) ?_
        (mem_singleton.mpr rfl) hr hnodes hlist
      exact (h.flying _).mpr (mem_append_right _ (hrequested ▸ mem_singleton.mpr rfl))
    · rw [followersBefore, visitNode, if_pos hfollows.1, ← hcount hf, World.field_congr hw'.mem]
  · have hcond : ¬ (teenager r && decide (G.outDegree r ≠ 0)) = true := by simpa using hfollows
    rw [if_neg hcond]
    have hvisit :
        followersBefore G teenager followers (r + 1) = followersBefore G teenager followers r := by
      rw [followersBefore, visitNode]
      split
      · next hteen =>
        have hzero : G.outDegree r = 0 := by
          by_contra hne
          exact hfollows ⟨hteen, hne⟩
        rw [length_eq_zero_iff.mp hzero]
        rfl
      · rfl
    rw [requested, if_neg hfollows] at h
    rw [hvisit]
    exact ⟨h, rfl, hbuffers, .none hpongs hcount⟩

/-- The kernel before round `r`. -/
structure Running (S : Config nodeFields) (G : Graph) (teenager : ℕ → Bool) (fits : Prop)
    (followers : ℕ → ℕ) (r : ℕ) (l : Locals) (w : World Loc) : Prop where
  streaming : Streaming S G teenager [] r l.nodes w
  buffers : Buffers S l
  hand : Hand G fits (followersBefore G teenager followers r) l w

theorem Hand.congr {l' : Locals} {w' : World Loc} (h : Hand G fits target l w)
    (hpongs : l'.numPongs = l.numPongs) (hping : l'.succPing = l.succPing) (hmem : w'.mem = w.mem)
    (hspm : ∀ c, ByteMemory.load w'.spm (l.succPing + sizeofUlong * c) =
      ByteMemory.load w.spm (l.succPing + sizeofUlong * c)) : Hand G fits target l' w' := by
  cases h with
  | none hnone hcount =>
    exact .none (hpongs.trans hnone) (fun hf => (World.field_congr hmem _).trans (hcount hf))
  | one hu hone hlist hcount =>
    refine .one hu (hpongs.trans hone) (fun hf c s hs => ?_) (fun hf => ?_)
    · rw [hping, hspm c]
      exact hlist hf c s hs
    · rw [World.field_congr hmem]
      exact hcount hf

theorem wp_round (h : Running S G teenager fits followers r l w) (hr : r < G.nodes)
    (hnodes : G.nodes ≤ word)
    (hfits : fits → ∀ v < G.nodes, G.outDegree v * sizeofUlong ≤ S.maxXferSize)
    (hlists : ∀ v < G.nodes, G.outDegree v * sizeofUlong < word) :
    R.wp (round S r l) w (Running S G teenager fits followers (r + 1)) := by
  refine wp_then (ChunkStream.wp_refill h.streaming rfl) ?_
  rintro k w₁ ⟨hstreaming, hrr, hmem, hspm⟩
  have hbuffers : Buffers S { l with nodes := k } := h.buffers
  have hhand : Hand G fits (followersBefore G teenager followers r) { l with nodes := k } w₁ := by
    refine h.hand.congr rfl rfl hmem (fun c => hspm _ (S.outside_nodeStream ?_))
    have hplace := h.buffers
    rw [Buffers] at hplace
    omega
  refine wp_then (wp_requestSuccessors (l := { l with nodes := k }) hstreaming hrr hbuffers hr
    hnodes (hlists r hr)) ?_
  rintro - w₂ ⟨hstreaming₂, hspm₂, hmem₂⟩
  have hhand₂ : Hand G fits (followersBefore G teenager followers r) { l with nodes := k } w₂ :=
    hhand.congr rfl rfl hmem₂ (fun c => by rw [hspm₂])
  refine wp_then (wp_scanPings hstreaming₂ hbuffers
    (beside_requested (fun hf => hfits hf r hr) (hlists r hr)) hfits hlists hhand₂) ?_
  rintro l₃ w₃ ⟨hstreaming₃, rfl, -, hcount⟩
  refine wp_then (wp_takePongs (l := { l with nodes := k, numPongs := noPongs }) hstreaming₃ hrr
    hbuffers hr hnodes (hlists r hr) rfl hcount) ?_
  rintro l₄ w₄ ⟨hstreaming₄, hnodes₄, hbuffers₄, hhand₄⟩
  have hrr₄ : l₄.nodes.rr < S.nodesCount := hnodes₄ ▸ hrr
  exact ⟨hstreaming₄.next hrr₄, hbuffers₄, hhand₄.congr rfl rfl rfl (fun _ => rfl)⟩

/-- The kernel returns with the last chunk that it has requested in flight, and with the result of
the plain kernel if the lists fit. -/
theorem wp_executeKernelBest (hnodes : G.nodes ≤ word)
    (hfits : fits → ∀ v < G.nodes, G.outDegree v * sizeofUlong ≤ S.maxXferSize)
    (hlists : ∀ v < G.nodes, G.outDegree v * sizeofUlong < word) {mem : Loc → ℕ}
    (hmem : Teenagers G teenager mem) (hfollowers : ∀ i, mem (.node i .followers) = followers i)
    (spm : ℕ → ℕ) :
    R.wp (executeKernelBest S G.nodes) ⟨mem, spm, []⟩ (fun sreg3 w =>
      Reading (Teenagers G teenager) w ∧
        (∃ k : Cursor, k.rr ≤ S.nodesCount ∧ w.Flying (S.nodeStream.pending G.nodes k)) ∧
        (fits → sreg3 = (executeKernelDefault G teenager followers).sreg3 ∧
          w.field .followers = (executeKernelDefault G teenager followers).followers)) := by
  refine wp_then (ChunkStream.wp_start S.nodeStream_apart (reading_start hmem spm)
    (fun p => .rfl) (forall_mem_nil _) (.inl ⟨rfl, rfl⟩) rfl) ?_
  rintro _ w₁ ⟨hstreaming, rfl, hmem₁, -⟩
  have hstart : Running S G teenager fits followers 0
      ⟨⟨S.nodesCount, 0, S.maxXferSize⟩, 2 * S.maxXferSize, 3 * S.maxXferSize, noPongs⟩ w₁ := by
    refine ⟨hstreaming, .inl ⟨rfl, rfl⟩, .none rfl (fun _ => ?_)⟩
    rw [World.field_congr hmem₁]
    exact funext hfollowers
  refine wp_then (wp_forUp _ (Running S G teenager fits followers)
    (fun r l w hr h => wp_round h hr hnodes hfits hlists) G.nodes 0 _ _ (zero_add _) hstart) ?_
  rintro l w₂ ⟨hstreaming₂, hbuffers, hhand⟩
  refine wp_then (wp_scanPings hstreaming₂ hbuffers (fun _ p hp => absurd hp not_mem_nil)
    hfits hlists hhand) ?_
  rintro _ w₃ ⟨hstreaming₃, -, -, hcount⟩
  refine wp_mono (wp_addFollowers .followers hstreaming₃.reading G.nodes) ?_
  rintro _ _ ⟨rfl, rfl⟩
  refine ⟨hstreaming₃.reading, ⟨l.nodes, hstreaming₃.rr_le, ?_⟩, fun hf => ⟨?_, hcount hf⟩⟩
  · have hflying := hstreaming₃.flying
    rwa [append_nil] at hflying
  · exact congrArg (totalFollowers · G.nodes) (hcount hf)

end Rules

/-- With successor lists that fit into a buffer every run of the pipelined kernel ends, with the
counters and the value that the plain kernel leaves, whatever the number of nodes in a chunk is,
unless a response is in the ranges of two requests. -/
theorem executeKernelBest_eq_default (S : Config nodeFields) (G : Graph) (teenager : ℕ → Bool)
    (hnodes : G.nodes ≤ word)
    (hdegrees : ∀ v < G.nodes, G.outDegree v * sizeofUlong ≤ S.maxXferSize) (mem : Loc → ℕ)
    (hmem : Teenagers G teenager mem) (spm : ℕ → ℕ) (address : Loc → ℕ) :
    RunsTo address
      (fun m =>
        m.prog = .ret (executeKernelDefault G teenager (fun i => mem (.node i .followers))).sreg3 ∧
        (fun i => m.state.mem (.node i .followers)) =
          (executeKernelDefault G teenager (fun i => mem (.node i .followers))).followers)
      (start (executeKernelBest S G.nodes) mem spm) := by
  have hlists : ∀ v < G.nodes, G.outDegree v * sizeofUlong < word := by
    intro v hv
    have hdegree := hdegrees v hv
    have haddressable := S.addressable
    have hword : 0 < word := by decide
    omega
  have hwp : Rules.plain.wp (executeKernelBest S G.nodes)
      ⟨mem, spm, []⟩ _ :=
    wp_executeKernelBest hnodes (fun _ : True => hdegrees) hlists hmem (fun _ => rfl) spm
  refine (runsTo_of_wp (rel_start mem spm []) assumed_plain hwp).mono (fun m hm => ?_)
  obtain ⟨sreg3, w, hret, ⟨hreading, -, hresult⟩, hrel⟩ := hm
  obtain ⟨rfl, hfollowers⟩ := hresult trivial
  refine ⟨hret, ?_⟩
  rw [← hfollowers]
  exact funext (fun i => hrel.mem _ (hreading.free _))

/-- Two edges from node 0 to node 1 and a node without successors. -/
def threeNodes : Graph where
  nodes := 3
  successors
    | 0 => [1, 2, 1]
    | 1 => [2]
    | _ => []
  successors_lt v w hw := by
    match v with
    | 0 | 1 =>
      simp only [mem_cons, not_mem_nil, or_false] at hw
      omega
    | _ + 2 => cases hw

def threeTeenagers : Loc → ℕ := memoryOf threeNodes (fun f => if f = .teenager then 1 else 0)

theorem teenagers_threeTeenagers : Teenagers threeNodes (fun _ => true) threeTeenagers :=
  ⟨holds_memoryOf _ _, fun _ _ => rfl⟩

/-- Chunks of two nodes. -/
def twoPerChunk : Config nodeFields := ⟨48, 40, by decide, by decide, by decide, by decide⟩

/-- The successors of node 0 are right behind the three nodes, in the range of the second chunk. -/
theorem executeKernelBest_panics : ∃ m,
    Reached (checkedStep (layout nodeFields 0 (60 + 12 * ·) (fun _ => 0))) (fun _ _ => True)
      (start (executeKernelBest twoPerChunk 3) threeTeenagers (fun _ => 0)) m ∧ m.panicked = true :=
  exists_of_runSchedule
    (turns [(1, .kernel), (10, .copy 0 0), (7, .kernel), (1, .copy 0 0)])
    (by decide +kernel)

/-- The lists are far from the nodes. The run has no response in two ranges. -/
theorem executeKernelBest_eq_default_threeTeenagers :
    let address := layout nodeFields 0 (1000 + 12 * ·) (fun _ => 0)
    let m := start (executeKernelBest twoPerChunk 3) threeTeenagers (fun _ => 0)
    RunsTo address (fun m => m.prog = .ret 4 ∧ m.state.mem (.node 1 .followers) = 2) m ∧
      ∃ m', Reached (checkedStep address) (fun m e => ¬ Clashes address m.state e) m m' ∧
        m'.answer = some 4 := by
  intro address m
  constructor
  · have hbest := executeKernelBest_eq_default twoPerChunk threeNodes (fun _ => true) (by decide)
      (by decide) threeTeenagers teenagers_threeTeenagers (fun _ => 0) address
    refine hbest.mono (fun m hm => ⟨hm.1.trans ?_, (congrFun hm.2 1).trans ?_⟩)
    · exact congrArg Prog.ret (by decide +kernel)
    · decide +kernel
  · exact exists_of_runSchedule (turns [(1, .kernel), (10, .copy 0 0), (10, .kernel),
      (3, .copy 0 0), (18, .kernel), (1, .copy 0 0), (1, .kernel), (10, .copy 0 0), (12, .kernel)])
      (by decide +kernel)

end SmcSim.SgraphTeenage
