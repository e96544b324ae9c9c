import SmcSim.LockFreeQueue
import SmcSim.ListSegments

/-!
# The nodes of the lock-free queue

The nodes that have been linked form one chain, in the order in which they were linked.
`head` and `tail` only move forward along it, and `head` does not pass `tail`. What a thread has
read stays true: links once set are not changed, and the nodes it has seen are not in
front of the ones it sees later.
-/

namespace SmcSim.LockFreeQueue
open ListSegments Function List Option

variable {τ : Type}

def Pc.node : Pc → Option ℕ
  | .enq (.setNext _ n) | .enq (.setValue _ n) | .enq (.readTail _ n) | .enq (.rereadTail _ n _)
  | .enq (.readNext _ n _ _) | .enq (.checkTail _ n _ _) | .enq (.swapNext _ n _)
  | .enq (.helpTail _ n _ _) => some n
  | _ => none

section Places

variable (s : State τ)

structure Fresh (n : ℕ) : Prop where
  unlinked : n ∉ s.linked
  allocated : n < s.allocated

structure Ready (val n : ℕ) : Prop where
  fresh : Fresh s n
  filled : s.nodes n = ⟨val, none⟩

/-- The link from `a` to `x` has been set. -/
def Link (a x : ℕ) : Prop := a ∈ s.linked ∧ (s.nodes a).next = some x

/-- What a thread in `enq` knows. -/
def EnqPc.At : EnqPc → Prop
  | .new _ => True
  | .setNext _ n => Fresh s n
  | .setValue _ n => Fresh s n ∧ (s.nodes n).next = none
  | .readTail val n => Ready s val n
  | .rereadTail val n last => Ready s val n ∧ UpTo s.linked last s.tail
  | .readNext val n last source =>
      Ready s val n ∧ UpTo s.linked last source ∧ UpTo s.linked source s.tail
  | .checkTail val n last next => Ready s val n ∧ ∃ source, UpTo s.linked last source ∧
      UpTo s.linked source s.tail ∧ ∀ x, next = some x → Link s source x
  | .swapNext val n last => Ready s val n ∧ last ∈ s.linked
  | .swapTail _ n last => Link s last n
  | .helpTail val n last next => Ready s val n ∧ Link s last next

/-- What a thread in `deq` knows. -/
def DeqPc.At : DeqPc → Prop
  | .readHead => True
  | .readTail first => UpTo s.linked first s.head
  | .readNext first last =>
      UpTo s.linked first s.head ∧ UpTo s.linked first last ∧ UpTo s.linked last s.tail
  | .checkHead first last next => UpTo s.linked first last ∧ UpTo s.linked last s.tail ∧
      (∀ x, next = some x → Link s first x) ∧ (first ≠ last → next ≠ none)
  | .helpTail last next => Link s last next
  | .readValue first next => ∃ x, next = some x ∧ Link s first x ∧ UpTo s.linked x s.tail
  | .swapHead first next value =>
      Link s first next ∧ UpTo s.linked next s.tail ∧ value = (s.nodes next).value

def Pc.At : Pc → Prop
  | .enq pc => pc.At s
  | .deq pc => pc.At s
  | .idle | .ret _ => True

end Places

structure Shape (s : State τ) : Prop where
  nodup : s.linked.Nodup
  next : ∀ a ∈ s.linked, (s.nodes a).next = s.linked[s.linked.idxOf a + 1]?
  order : UpTo s.linked s.head s.tail
  bound : ∀ a ∈ s.linked, a < s.allocated
  place : ∀ t, (s.pcs t).At s
  own : ∀ t u n, (s.pcs t).node = some n → (s.pcs u).node = some n → t = u

theorem shape_initial (memory : ℕ → Node) : Shape (initial memory : State τ) where
  nodup := nodup_singleton 0
  next a ha := by
    obtain rfl := mem_singleton.mp ha
    rfl
  order := UpTo.refl mem_cons_self
  bound a ha := by
    obtain rfl := mem_singleton.mp ha
    exact Nat.zero_lt_one
  place _ := trivial
  own t u n h := by cases h

/-! ### The chain only grows -/

structure Grows (s s' : State τ) : Prop where
  order : ∀ a b, UpTo s.linked a b → UpTo s'.linked a b
  head : UpTo s'.linked s.head s'.head
  tail : UpTo s'.linked s.tail s'.tail
  link : ∀ a x, Link s a x → Link s' a x
  value : ∀ a ∈ s.linked, (s'.nodes a).value = (s.nodes a).value

section Growth

variable {s s' : State τ} {t : τ} {pc : Pc} {a b n val : ℕ}

theorem Grows.mem (h : Grows s s') (ha : a ∈ s.linked) : a ∈ s'.linked :=
  (h.order a a (UpTo.refl ha)).1

theorem Grows.upTo_tail (h : Grows s s') (ha : UpTo s.linked a s.tail) : UpTo s'.linked a s'.tail :=
  (h.order _ _ ha).trans h.tail

/-- A thread that does not lose its own node knows what it knew. -/
theorem Pc.At.grows (h : pc.At s) (hg : Grows s s')
    (hfresh : ∀ n, pc.node = some n → Fresh s n → Fresh s' n ∧ s'.nodes n = s.nodes n) :
    pc.At s' := by
  have hready : ∀ val n, pc.node = some n → Ready s val n → Ready s' val n := by
    intro val n hn hr
    obtain ⟨hf, hsame⟩ := hfresh n hn hr.fresh
    exact ⟨hf, hsame.trans hr.filled⟩
  cases pc with
  | idle => trivial
  | ret answer => trivial
  | enq pc =>
    cases pc with
    | new val => trivial
    | setNext val n => exact (hfresh n rfl h).1
    | setValue val n =>
      obtain ⟨hf, hsame⟩ := hfresh n rfl h.1
      exact ⟨hf, (congrArg Node.next hsame).trans h.2⟩
    | readTail val n => exact hready val n rfl h
    | rereadTail val n last => exact ⟨hready val n rfl h.1, hg.upTo_tail h.2⟩
    | readNext val n last source =>
      exact ⟨hready val n rfl h.1, hg.order _ _ h.2.1, hg.upTo_tail h.2.2⟩
    | checkTail val n last next =>
      obtain ⟨hr, source, hlast, hsource, hnext⟩ := h
      exact ⟨hready val n rfl hr, source, hg.order _ _ hlast, hg.upTo_tail hsource,
        fun x hx => hg.link source x (hnext x hx)⟩
    | swapNext val n last => exact ⟨hready val n rfl h.1, hg.mem h.2⟩
    | swapTail val n last => exact hg.link last n h
    | helpTail val n last next => exact ⟨hready val n rfl h.1, hg.link last next h.2⟩
  | deq pc =>
    cases pc with
    | readHead => trivial
    | readTail first => exact (hg.order _ _ h).trans hg.head
    | readNext first last =>
      exact ⟨(hg.order _ _ h.1).trans hg.head, hg.order _ _ h.2.1, hg.upTo_tail h.2.2⟩
    | checkHead first last next =>
      exact ⟨hg.order _ _ h.1, hg.upTo_tail h.2.1, fun x hx => hg.link first x (h.2.2.1 x hx),
        h.2.2.2⟩
    | helpTail last next => exact hg.link last next h
    | readValue first next =>
      obtain ⟨x, hx, hlink, htail⟩ := h
      exact ⟨x, hx, hg.link first x hlink, hg.upTo_tail htail⟩
    | swapHead first next value =>
      exact ⟨hg.link first next h.1, hg.upTo_tail h.2.1, h.2.2.trans (hg.value next h.2.1.1).symm⟩

variable [DecidableEq τ]

omit [DecidableEq τ] in
theorem Fresh.same (h : Fresh s n) (hlinked : s'.linked = s.linked)
    (hallocated : s'.allocated = s.allocated) : Fresh s' n := by
  refine ⟨?_, ?_⟩
  · rw [hlinked]
    exact h.unlinked
  · rw [hallocated]
    exact h.allocated

/-- A step that leaves the nodes of other threads alone. -/
theorem Shape.grow (h : Shape s) (hg : Grows s s') (hpcs : s'.pcs = update s.pcs t pc)
    (hnodup : s'.linked.Nodup)
    (hnext : ∀ a ∈ s'.linked, (s'.nodes a).next = s'.linked[s'.linked.idxOf a + 1]?)
    (horder : UpTo s'.linked s'.head s'.tail) (hbound : ∀ a ∈ s'.linked, a < s'.allocated)
    (hfresh : ∀ u n, u ≠ t → (s.pcs u).node = some n → Fresh s n →
      Fresh s' n ∧ s'.nodes n = s.nodes n)
    (hat : pc.At s')
    (hown : ∀ n, pc.node = some n → ∀ u, u ≠ t → (s.pcs u).node ≠ some n) : Shape s' := by
  refine ⟨hnodup, hnext, horder, hbound, ?_, ?_⟩ <;> rw [hpcs]
  · exact (forall_update_iff s.pcs (fun _ pc => pc.At s')).mpr
      ⟨hat, fun u hu => (h.place u).grows hg (fun n => hfresh u n hu)⟩
  · exact Interleavings.own_update h.own hown

/-- A step that changes no node and not the chain. -/
theorem Shape.move (h : Shape s) (hlinked : s'.linked = s.linked) (hnodes : s'.nodes = s.nodes)
    (hallocated : s'.allocated = s.allocated) (hhead : UpTo s.linked s.head s'.head)
    (htail : UpTo s.linked s.tail s'.tail) (horder : UpTo s.linked s'.head s'.tail)
    (hpcs : s'.pcs = update s.pcs t pc) (hnode : ∀ n, pc.node = some n → (s.pcs t).node = some n)
    (hat : pc.At s) : Shape s' := by
  have hg : Grows s s' := by
    refine ⟨?_, ?_, ?_, ?_, ?_⟩
    · rw [hlinked]
      exact fun a b => id
    · rw [hlinked]
      exact hhead
    · rw [hlinked]
      exact htail
    · unfold Link
      rw [hlinked, hnodes]
      exact fun a x => id
    · rw [hnodes]
      exact fun a _ => rfl
  have hsame : ∀ n, Fresh s n → Fresh s' n ∧ s'.nodes n = s.nodes n := by
    intro n hf
    exact ⟨hf.same hlinked hallocated, congrFun hnodes n⟩
  refine h.grow hg hpcs (hlinked ▸ h.nodup) ?_ (hlinked ▸ horder) ?_ (fun u n _ _ => hsame n)
    (hat.grows hg (fun n _ => hsame n)) (fun n hn u hu hn' => ?_)
  · rw [hlinked, hnodes]
    exact h.next
  · rw [hlinked, hallocated]
    exact h.bound
  · exact hu (h.own u t n hn' (hnode n hn))

theorem Shape.goto (h : Shape s) (hnode : ∀ n, pc.node = some n → (s.pcs t).node = some n)
    (hat : pc.At s) : Shape (s.goto t pc) :=
  h.move rfl rfl rfl (UpTo.refl h.order.1) (UpTo.refl h.order.2.1) h.order rfl hnode hat

end Growth

/-! ### Steps -/

section Steps

variable {s s' : State τ} {t : τ} {pc : Pc} {a x n val last first : ℕ}

theorem Pc.At.fresh (h : pc.At s) (hn : pc.node = some n) : Fresh s n := by
  cases pc with
  | enq pc =>
    cases pc with
    | setNext =>
      cases hn
      exact h
    | setValue =>
      cases hn
      exact h.1
    | readTail =>
      cases hn
      exact Ready.fresh h
    | rereadTail | readNext | checkTail | swapNext | helpTail =>
      cases hn
      exact h.1.fresh
    | new | swapTail => cases hn
  | _ => cases hn

section

variable (h : Shape s)
include h

theorem Shape.behind (hlink : Link s a x) : s.linked[s.linked.idxOf a + 1]? = some x :=
  (h.next a hlink.1).symm.trans hlink.2

variable [DecidableEq τ]

theorem Shape.new : Shape (enq t s (.new val)) := by
  have hg : Grows s (enq t s (.new val)) :=
    ⟨fun _ _ => id, UpTo.refl h.order.1, UpTo.refl h.order.2.1, fun _ _ => id, fun _ _ => rfl⟩
  refine h.grow hg rfl h.nodup h.next h.order (fun a ha => Nat.lt_succ_of_lt (h.bound a ha))
    (fun u n _ _ hf => ⟨⟨hf.unlinked, Nat.lt_succ_of_lt hf.allocated⟩, rfl⟩) ⟨?_, ?_⟩
    (fun n hn u _ hu => ?_)
  · exact fun hmem => Nat.lt_irrefl _ (h.bound _ hmem)
  · exact Nat.lt_succ_self _
  · cases hn
    exact Nat.lt_irrefl _ ((h.place u).fresh hu).allocated

/-- The thread writes to its own node. -/
theorem Shape.setNode {node : Node} (hnode : (s.pcs t).node = some n) (hsame : pc.node = some n)
    (hat : pc.At ((s.setNode n node).goto t pc)) : Shape ((s.setNode n node).goto t pc) := by
  have hfresh := (h.place t).fresh hnode
  have hother : ∀ a, a ≠ n → update s.nodes n node a = s.nodes a :=
    fun a ha => update_of_ne ha _ _
  have hlinked : ∀ a ∈ s.linked, update s.nodes n node a = s.nodes a := by
    intro a ha
    apply hother
    rintro rfl
    exact hfresh.unlinked ha
  have hg : Grows s ((s.setNode n node).goto t pc) := by
    refine ⟨fun _ _ => id, UpTo.refl h.order.1, UpTo.refl h.order.2.1, fun a x hl => ⟨hl.1, ?_⟩,
      fun a ha => ?_⟩
    · exact (congrArg Node.next (hlinked a hl.1)).trans hl.2
    · exact congrArg Node.value (hlinked a ha)
  refine h.grow hg rfl h.nodup (fun a ha => ?_) h.order h.bound
    (fun u m hu hm hf => ⟨hf.same rfl rfl, hother m ?_⟩)
    hat (fun m hm u hu hm' => ?_)
  · exact (congrArg Node.next (hlinked a ha)).trans (h.next a ha)
  · rintro rfl
    exact hu (h.own u t m hm hnode)
  · rw [hsame] at hm
    cases hm
    exact hu (h.own u t n hm' hnode)

theorem Shape.swapTail (hlink : Link s last x)
    (hnode : ∀ n, pc.node = some n → (s.pcs t).node = some n) (hat : pc.At s) :
    Shape ((s.swapTail last x).goto t pc) := by
  unfold State.swapTail
  split
  · next htail =>
    have hnext : UpTo s.linked s.tail x := htail ▸ upTo_next h.nodup hlink.1 (h.behind hlink)
    exact h.move rfl rfl rfl (UpTo.refl h.order.1) hnext (h.order.trans hnext) rfl hnode hat
  · exact h.goto hnode hat

theorem Shape.link (hpc : s.pcs t = .enq (.swapNext val n last))
    (hnext : (s.nodes last).next = none) :
    Shape { (s.setNode last { s.nodes last with next := some n }).goto t
      (.enq (.swapTail val n last)) with linked := s.linked ++ [n] } := by
  obtain ⟨hready, hlast⟩ : Ready s val n ∧ last ∈ s.linked := by
    have hplace := h.place t
    rwa [hpc] at hplace
  have hnode : (s.pcs t).node = some n := by rw [hpc]; rfl
  have hnew : n ∉ s.linked := hready.fresh.unlinked
  have hend : s.linked[s.linked.idxOf last + 1]? = none := (h.next last hlast).symm.trans hnext
  have hlength : s.linked.length = s.linked.idxOf last + 1 := by
    have hle := List.getElem?_eq_none_iff.mp hend
    have hlt := idxOf_lt_length_of_mem hlast
    omega
  have hself : update s.nodes last { s.nodes last with next := some n } last =
      { s.nodes last with next := some n } := update_self _ _ _
  have hother : ∀ a, a ≠ last → update s.nodes last { s.nodes last with next := some n } a =
      s.nodes a := fun a ha => update_of_ne ha _ _
  have hnl : n ≠ last := by
    rintro rfl
    exact hnew hlast
  have hg : Grows s { (s.setNode last { s.nodes last with next := some n }).goto t
      (.enq (.swapTail val n last)) with linked := s.linked ++ [n] } := by
    refine ⟨fun a b hab => hab.append [n], (UpTo.refl h.order.1).append [n],
      (UpTo.refl h.order.2.1).append [n], fun a x hl => ⟨mem_append_left _ hl.1, ?_⟩,
      fun a ha => ?_⟩
    · have hal : a ≠ last := by
        rintro rfl
        rw [hl.2] at hnext
        cases hnext
      exact (congrArg Node.next (hother a hal)).trans hl.2
    · by_cases hal : a = last
      · rw [hal]
        exact (congrArg Node.value hself).trans rfl
      · exact congrArg Node.value (hother a hal)
  refine h.grow hg rfl ?_ (fun a ha => ?_) (h.order.append [n]) (fun a ha => ?_)
    (fun u m hu hm hf => ⟨⟨?_, hf.allocated⟩, hother m ?_⟩) ⟨?_, ?_⟩ (fun m hm => by cases hm)
  · exact h.nodup.append (nodup_singleton n) (by simpa using hnew)
  · change (update s.nodes last _ a).next = (s.linked ++ [n])[(s.linked ++ [n]).idxOf a + 1]?
    rcases mem_append.mp ha with ha | ha
    · rw [idxOf_append_of_mem ha]
      by_cases hal : a = last
      · rw [hal, hself, ← hlength, getElem?_concat_length]
      · rw [hother a hal, h.next a ha]
        have hlt : s.linked.idxOf a + 1 < s.linked.length := by
          have hlt := idxOf_lt_length_of_mem ha
          have hne : s.linked.idxOf a ≠ s.linked.idxOf last :=
            fun heq => hal ((idxOf_inj ha).mp heq)
          omega
        rw [getElem?_append_left hlt]
    · obtain rfl := mem_singleton.mp ha
      rw [hother a hnl, hready.filled, idxOf_append_of_notMem hnew, idxOf_cons_self]
      simp
  · rcases mem_append.mp ha with ha | ha
    · exact h.bound a ha
    · obtain rfl := mem_singleton.mp ha
      exact hready.fresh.allocated
  · intro hmem
    rcases mem_append.mp hmem with hmem | hmem
    · exact hf.unlinked hmem
    · obtain rfl := mem_singleton.mp hmem
      exact hu (h.own u t m hm hnode)
  · rintro rfl
    exact hf.unlinked hlast
  · exact mem_append_left _ hlast
  · exact congrArg Node.next hself

theorem Shape.enq {pc : EnqPc} (hpc : s.pcs t = .enq pc) : Shape (enq t s pc) := by
  have hplace := h.place t
  rw [hpc] at hplace
  cases pc with
  | new val => exact h.new
  | setNext val n =>
    have hfresh : Fresh s n := hplace
    refine h.setNode (by rw [hpc]; rfl) rfl ⟨hfresh.same rfl rfl, ?_⟩
    change (update s.nodes n _ n).next = none
    rw [update_self]
  | setValue val n =>
    refine h.setNode (by rw [hpc]; rfl) rfl ⟨hplace.1.same rfl rfl, ?_⟩
    change update s.nodes n _ n = _
    rw [update_self, hplace.2]
  | readTail val n => exact h.goto (by rw [hpc]; exact fun _ => id) ⟨hplace, UpTo.refl h.order.2.1⟩
  | rereadTail val n last =>
    exact h.goto (by rw [hpc]; exact fun _ => id) ⟨hplace.1, hplace.2, UpTo.refl h.order.2.1⟩
  | readNext val n last source =>
    refine h.goto (by rw [hpc]; exact fun _ => id)
      ⟨hplace.1, source, hplace.2.1, hplace.2.2, fun x hx => ⟨hplace.2.2.1, hx⟩⟩
  | checkTail val n last next =>
    obtain ⟨hready, source, hlast, hsource, hnext⟩ := hplace
    simp only [LockFreeQueue.enq]
    split
    · next htail =>
      cases next with
      | none => exact h.goto (by rw [hpc]; exact fun _ => id) ⟨hready, hlast.1⟩
      | some x =>
        -- nobody has moved `tail` in between, so it is the successor of `last` that was read
        have hsame : source = last := by
          rw [← htail] at hsource
          exact hsource.antisymm hlast
        exact h.goto (by rw [hpc]; exact fun _ => id) ⟨hready, hsame ▸ hnext x rfl⟩
    · exact h.goto (by rw [hpc]; exact fun _ => id) hready
  | swapNext val n last =>
    simp only [LockFreeQueue.enq]
    split
    · next hnext => exact h.link hpc hnext
    · exact h.goto (by rw [hpc]; exact fun _ => id) hplace.1
  | swapTail val n last => exact h.swapTail hplace (fun m hm => by cases hm) trivial
  | helpTail val n last next =>
    exact h.swapTail hplace.2 (by rw [hpc]; exact fun _ => id) hplace.1

theorem Shape.deq {pc : DeqPc} (hpc : s.pcs t = .deq pc) (hrun : deq t s pc = some s') :
    Shape s' := by
  have hplace := h.place t
  rw [hpc] at hplace
  have hgoto : ∀ pc : DeqPc, pc.At s → Shape (s.goto t (.deq pc)) :=
    fun pc hat => h.goto (fun m hm => by cases hm) hat
  cases pc with
  | readHead =>
    cases hrun
    exact hgoto _ (UpTo.refl h.order.1)
  | readTail first =>
    cases hrun
    exact hgoto _ ⟨hplace, UpTo.trans hplace h.order, UpTo.refl h.order.2.1⟩
  | readNext first last =>
    cases hrun
    obtain ⟨-, hfirst, hlast⟩ := hplace
    refine hgoto _ ⟨hfirst, hlast, fun x hx => ⟨hfirst.1, hx⟩, fun hne hnone => hne ?_⟩
    exact hfirst.last ((h.next first hfirst.1).symm.trans hnone)
  | checkHead first last next =>
    obtain ⟨hfirst, hlast, hlink, hne⟩ := hplace
    cases hrun
    split
    · split
      · next heq =>
        cases next with
        | none => exact h.goto (fun m hm => by cases hm) trivial
        | some x => exact hgoto _ (heq ▸ hlink x rfl)
      · next hdiff =>
        obtain ⟨x, hx⟩ := ne_none_iff_exists'.mp (hne hdiff)
        have hl := hlink x hx
        exact hgoto _ ⟨x, hx, hl, (hfirst.behind h.nodup hdiff (h.behind hl)).trans hlast⟩
    · exact hgoto _ trivial
  | helpTail last next =>
    cases hrun
    exact h.swapTail hplace (fun m hm => by cases hm) trivial
  | readValue first next =>
    obtain ⟨x, rfl, hlink, htail⟩ := hplace
    cases hrun
    exact hgoto _ ⟨hlink, htail, rfl⟩
  | swapHead first next value =>
    obtain ⟨hlink, htail, -⟩ := hplace
    cases hrun
    split
    · next hhead =>
      have hnext : UpTo s.linked s.head next := hhead ▸ upTo_next h.nodup hlink.1 (h.behind hlink)
      exact h.move rfl rfl rfl hnext (UpTo.refl h.order.2.1) htail rfl (fun m hm => by cases hm)
        trivial
    · exact hgoto _ trivial

theorem Shape.step {l : Label τ} (hstep : step s l = some s') : Shape s' := by
  have hrefl := UpTo.refl h.order.1
  have hrefl' := UpTo.refl h.order.2.1
  cases l with
  | call t operation =>
    simp only [LockFreeQueue.step] at hstep
    split at hstep
    · cases hstep
      cases operation with
      | enq | deq =>
        exact h.move rfl rfl rfl hrefl hrefl' h.order rfl (fun m hm => by cases hm) trivial
    · cases hstep
  | run t =>
    simp only [LockFreeQueue.step] at hstep
    split at hstep
    · cases hstep
    · next pc hpc =>
      cases hstep
      exact h.enq hpc
    · next pc hpc => exact h.deq hpc hstep
    · cases hstep
      exact h.move rfl rfl rfl hrefl hrefl' h.order rfl (fun m hm => by cases hm) trivial

end

end Steps

end SmcSim.LockFreeQueue
