import SmcSim.LazyList
import SmcSim.SuccessorPaths

/-!
# The nodes of the lazy list

Keys grow along the links of all nodes that have ever been in the list, the marked ones included,
and the nodes that are not marked can be reached from the head. A thread that holds the locks of
two nodes keeps what it has read of them: marks are set under the lock of the node, links are
changed under the lock of the node they start from.
-/

namespace SmcSim.LazyList
open SuccessorPaths

namespace Memory

def key (m : Memory) (a : ℕ) : ℕ := (m.nodes a).key

def next (m : Memory) (a : ℕ) : Option ℕ := (m.nodes a).next

def marked (m : Memory) (a : ℕ) : Bool := (m.nodes a).marked

end Memory

def ValidKey (x : ℕ) : Prop := 0 < x ∧ x < maxKey

instance (x : ℕ) : Decidable (ValidKey x) := inferInstanceAs (Decidable (_ ∧ _))

structure Shape (m : Memory) : Prop where
  head : m.head ∈ m.linked
  tail : m.tail ∈ m.linked
  headKey : m.key m.head = 0
  tailKey : m.key m.tail = maxKey
  ascending : Ascending m.next m.key (· ∈ m.linked)
  last : ∀ a ∈ m.linked, m.next a = none → a = m.tail
  bound : ∀ a ∈ m.linked, m.key a ≤ maxKey
  reachable : ∀ a ∈ m.linked, m.marked a = false → Leads m.next m.head a
  marked : ∀ a, m.marked a = true → a ∈ m.linked ∧ ValidKey (m.key a)
  allocated : ∀ a ∈ m.linked, a < m.allocated
  zero : ∀ n, m.allocated ≤ n → m.nodes n = zeroNode

/-! ### What a thread knows -/

section Places

variable (m : Memory)

structure Fresh (n : ℕ) : Prop where
  unlinked : n ∉ m.linked
  allocated : n < m.allocated

structure Window (x prev curr : ℕ) : Prop where
  prevLinked : prev ∈ m.linked
  currLinked : curr ∈ m.linked
  lt : m.key prev < x

structure Neighbours (prev curr : ℕ) : Prop where
  prevUnmarked : m.marked prev = false
  currUnmarked : m.marked curr = false
  link : m.next prev = some curr

structure Removed (x prev curr : ℕ) : Prop where
  key : m.key curr = x
  prevUnmarked : m.marked prev = false
  currMarked : m.marked curr = true
  link : m.next prev = some curr

def LookupStage.At (x curr : ℕ) : LookupStage → Prop
  | .test => True
  | .advance => m.key curr < x
  | .checkKey => x ≤ m.key curr
  | .checkMarked => m.key curr = x

def Stage.At (op : Update) (x prev curr : ℕ) : Stage → Prop
  | .test => True
  | .advance => m.key curr < x
  | .lockPrev | .lockCurr | .checkPrev | .unlockCurr _ | .unlockPrev _ => x ≤ m.key curr
  | .checkCurr => x ≤ m.key curr ∧ m.marked prev = false
  | .checkNext => x ≤ m.key curr ∧ m.marked prev = false ∧ m.marked curr = false
  | .checkKey => x ≤ m.key curr ∧ Neighbours m prev curr
  | .allocate => op = .add ∧ x < m.key curr ∧ Neighbours m prev curr
  | .setKey n => op = .add ∧ x < m.key curr ∧ Neighbours m prev curr ∧ Fresh m n ∧
      m.nodes n = zeroNode
  | .setNext n => op = .add ∧ x < m.key curr ∧ Neighbours m prev curr ∧ Fresh m n ∧
      m.nodes n = ⟨x, false, none⟩
  | .initLock n | .link n => op = .add ∧ x < m.key curr ∧ Neighbours m prev curr ∧ Fresh m n ∧
      m.nodes n = ⟨x, false, some curr⟩
  | .mark => op = .remove ∧ m.key curr = x ∧ Neighbours m prev curr
  | .readNext => op = .remove ∧ Removed m x prev curr
  | .unlink next => op = .remove ∧ Removed m x prev curr ∧ next = m.next curr

def Pc.At : Pc → Prop
  | .idle | .ret _ => True
  | .contains x curr stage => ValidKey x ∧ curr ∈ m.linked ∧ stage.At m x curr
  | .search _ x => ValidKey x
  | .update op x prev curr stage =>
      ValidKey x ∧ Window m x prev curr ∧ stage.At m op x prev curr

end Places

def Stage.holdsPrev : Stage → Bool
  | .test | .advance | .lockPrev => false
  | _ => true

def Stage.holdsCurr : Stage → Bool
  | .test | .advance | .lockPrev | .lockCurr | .unlockPrev _ => false
  | _ => true

def Pc.Holds : Pc → ℕ → Prop
  | .update _ _ prev curr stage, a =>
      a = prev ∧ stage.holdsPrev = true ∨ a = curr ∧ stage.holdsCurr = true
  | _, _ => False

def Stage.node : Stage → Option ℕ
  | .setKey n | .setNext n | .initLock n | .link n => some n
  | _ => none

def Pc.node : Pc → Option ℕ
  | .update _ _ _ _ stage => stage.node
  | _ => none

variable {m m' : Memory} {pc : Pc} {op : Update} {x prev curr n : ℕ} {stage : Stage}

theorem Window.congr (h : Window m x prev curr) (hkey : m'.key = m.key)
    (hlinked : ∀ b ∈ m.linked, b ∈ m'.linked) : Window m' x prev curr :=
  ⟨hlinked _ h.prevLinked, hlinked _ h.currLinked, by rw [hkey]; exact h.lt⟩

/-- From the search on, the two nodes are different. -/
theorem Window.ne (h : Window m x prev curr) (hle : x ≤ m.key curr) : prev ≠ curr := by
  rintro rfl
  exact absurd h.lt (Nat.not_lt_of_le hle)

theorem Pc.At.linked {a : ℕ} (h : pc.At m) (ha : pc.Holds a) : a ∈ m.linked := by
  cases pc with
  | update op x prev curr stage =>
    rcases ha with ⟨rfl, -⟩ | ⟨rfl, -⟩
    · exact h.2.1.prevLinked
    · exact h.2.1.currLinked
  | idle | contains | search | ret => cases ha

theorem Pc.At.fresh (h : pc.At m) (hn : pc.node = some n) : Fresh m n := by
  cases pc with
  | update op x prev curr stage =>
    obtain ⟨-, -, hstage⟩ := h
    cases stage with
    | setKey | setNext | initLock | link =>
      cases hn
      exact hstage.2.2.2.1
    | _ => cases hn
  | idle | contains | search | ret => cases hn

/-! ### What other threads leave alone -/

/-- What stays of the nodes for a thread that holds some and has allocated another. -/
structure Keeps (m m' : Memory) (held : ℕ → Prop) (node : Option ℕ) : Prop where
  linked : ∀ a ∈ m.linked, a ∈ m'.linked
  key : ∀ a ∈ m.linked, m'.key a = m.key a
  held : ∀ a, held a → m'.nodes a = m.nodes a
  fresh : ∀ n, node = some n → Fresh m n → Fresh m' n ∧ m'.nodes n = m.nodes n

section Frame

variable {held : ℕ → Prop} {node : Option ℕ}

theorem Keeps.refl (m : Memory) : Keeps m m held node :=
  ⟨fun _ => id, fun _ _ => rfl, fun _ _ => rfl, fun _ _ hf => ⟨hf, rfl⟩⟩

section

variable (hk : Keeps m m' held node)
include hk

theorem Keeps.window (h : Window m x prev curr) : Window m' x prev curr :=
  ⟨hk.linked _ h.prevLinked, hk.linked _ h.currLinked, by rw [hk.key _ h.prevLinked]; exact h.lt⟩

theorem Keeps.marked {a : ℕ} (ha : held a) :
    m'.marked a = m.marked a := congrArg Node.marked (hk.held a ha)

theorem Keeps.next {a : ℕ} (ha : held a) : m'.next a = m.next a :=
  congrArg Node.next (hk.held a ha)

theorem Keeps.neighbours (hprev : held prev) (hcurr : held curr) (h : Neighbours m prev curr) :
    Neighbours m' prev curr :=
  ⟨(hk.marked hprev).trans h.prevUnmarked, (hk.marked hcurr).trans h.currUnmarked,
    (hk.next hprev).trans h.link⟩

theorem Keeps.removed (hprev : held prev) (hcurr : held curr) (hlinked : curr ∈ m.linked)
    (h : Removed m x prev curr) : Removed m' x prev curr :=
  ⟨(hk.key _ hlinked).trans h.key, (hk.marked hprev).trans h.prevUnmarked,
    (hk.marked hcurr).trans h.currMarked, (hk.next hprev).trans h.link⟩

theorem Keeps.made {content : Node} (hn : node = some n) (h : Fresh m n ∧ m.nodes n = content) :
    Fresh m' n ∧ m'.nodes n = content := by
  obtain ⟨hfresh, hsame⟩ := hk.fresh n hn h.1
  exact ⟨hfresh, hsame.trans h.2⟩

end

/-- A thread whose nodes are left alone knows what it knew. -/
theorem Pc.At.keeps (h : pc.At m) (hk : Keeps m m' pc.Holds pc.node) : pc.At m' := by
  cases pc with
  | idle | ret | search => exact h
  | contains x curr stage =>
    obtain ⟨hx, hcurr, hstage⟩ := h
    refine ⟨hx, hk.linked curr hcurr, ?_⟩
    have hkey := hk.key curr hcurr
    cases stage with
    | test => trivial
    | advance | checkKey | checkMarked =>
      unfold LookupStage.At at hstage ⊢
      rw [hkey]
      exact hstage
  | update op x prev curr stage =>
    obtain ⟨hx, hwindow, hstage⟩ := h
    refine ⟨hx, hk.window hwindow, ?_⟩
    have hkey := hk.key curr hwindow.currLinked
    cases stage with
    | test => trivial
    | advance | lockPrev | lockCurr | checkPrev | unlockCurr | unlockPrev =>
      unfold Stage.At at hstage ⊢
      rw [hkey]
      exact hstage
    | checkCurr =>
      unfold Stage.At at hstage ⊢
      rw [hkey, hk.marked (.inl ⟨rfl, rfl⟩)]
      exact hstage
    | checkNext =>
      unfold Stage.At at hstage ⊢
      rw [hkey, hk.marked (.inl ⟨rfl, rfl⟩), hk.marked (.inr ⟨rfl, rfl⟩)]
      exact hstage
    | checkKey =>
      obtain ⟨hle, hnb⟩ := hstage
      exact ⟨hkey ▸ hle, hk.neighbours (.inl ⟨rfl, rfl⟩) (.inr ⟨rfl, rfl⟩) hnb⟩
    | allocate | mark =>
      obtain ⟨hop, hle, hnb⟩ := hstage
      exact ⟨hop, hkey ▸ hle, hk.neighbours (.inl ⟨rfl, rfl⟩) (.inr ⟨rfl, rfl⟩) hnb⟩
    | setKey | setNext | initLock | link =>
      obtain ⟨hop, hle, hnb, hmade⟩ := hstage
      exact ⟨hop, hkey ▸ hle, hk.neighbours (.inl ⟨rfl, rfl⟩) (.inr ⟨rfl, rfl⟩) hnb,
        hk.made rfl hmade⟩
    | readNext =>
      obtain ⟨hop, hremoved⟩ := hstage
      exact ⟨hop, hk.removed (.inl ⟨rfl, rfl⟩) (.inr ⟨rfl, rfl⟩) hwindow.currLinked hremoved⟩
    | unlink next =>
      obtain ⟨hop, hremoved, hnext⟩ := hstage
      exact ⟨hop, hk.removed (.inl ⟨rfl, rfl⟩) (.inr ⟨rfl, rfl⟩) hwindow.currLinked hremoved,
        hnext.trans (hk.next (.inr ⟨rfl, rfl⟩)).symm⟩

end Frame

/-! ### Threads and locks -/

variable {τ : Type}

structure Threads (s : State τ) : Prop where
  place : ∀ t, (s.pcs t).At s.memory
  locks : ∀ a t, s.locks a = some t ↔ (s.pcs t).Holds a
  own : ∀ t u n, (s.pcs t).node = some n → (s.pcs u).node = some n → t = u

section Locks

variable [DecidableEq τ] {s s' : State τ} {t u : τ} {a : ℕ}

omit [DecidableEq τ] in
theorem Threads.exclusive (h : Threads s) (ht : (s.pcs t).Holds a) (hu : (s.pcs u).Holds a) :
    t = u :=
  Option.some.inj (((h.locks a t).mpr ht).symm.trans ((h.locks a u).mpr hu))

/-- A step of `t` that leaves alone what the others know. -/
theorem Threads.change (h : Threads s) (hpcs : s'.pcs = Function.update s.pcs t pc)
    (hkeeps : ∀ u, u ≠ t → Keeps s.memory s'.memory (s.pcs u).Holds (s.pcs u).node)
    (hat : pc.At s'.memory) (hself : ∀ a, s'.locks a = some t ↔ pc.Holds a)
    (hother : ∀ a u, u ≠ t → (s'.locks a = some u ↔ s.locks a = some u))
    (hown : ∀ n, pc.node = some n → ∀ u, u ≠ t → (s.pcs u).node ≠ some n) : Threads s' := by
  refine ⟨?_, fun a => ?_, ?_⟩ <;> rw [hpcs]
  · exact (Function.forall_update_iff s.pcs (fun _ pc => pc.At s'.memory)).mpr
      ⟨hat, fun u hu => (h.place u).keeps (hkeeps u hu)⟩
  · exact (Function.forall_update_iff s.pcs (fun u pc => s'.locks a = some u ↔ pc.Holds a)).mpr
      ⟨hself a, fun u hu => (hother a u hu).trans (h.locks a u)⟩
  · exact Interleavings.own_update h.own hown

/-- A step that changes neither nodes nor locks. -/
theorem Threads.goto (h : Threads s) (hat : pc.At s.memory)
    (hholds : ∀ a, pc.Holds a ↔ (s.pcs t).Holds a)
    (hnode : ∀ n, pc.node = some n → (s.pcs t).node = some n) : Threads (s.goto t pc) :=
  h.change rfl (fun _ _ => Keeps.refl _) hat (fun a => (h.locks a t).trans (hholds a).symm)
    (fun _ _ _ => .rfl) (fun n hn u hu hn' => hu (h.own u t n hn' (hnode n hn)))

/-- A step at which the thread takes a free lock. -/
theorem Threads.acquire (h : Threads s) (hat : pc.At s.memory) (hnode : pc.node = none)
    (hholds : ∀ b, pc.Holds b ↔ b = a ∨ (s.pcs t).Holds b) (hrun : s.acquire t a pc = some s') :
    Threads s' := by
  unfold State.acquire at hrun
  split at hrun
  · next hfree =>
    cases hrun
    refine h.change rfl (fun _ _ => Keeps.refl _) hat (fun b => ?_) (fun b u hu => ?_)
      (fun n hn => by rw [hnode] at hn; cases hn)
    · rw [hholds]
      change Function.update s.locks a (some t) b = some t ↔ _
      by_cases hb : b = a
      · rw [hb, Function.update_self]
        exact ⟨fun _ => .inl rfl, fun _ => rfl⟩
      · rw [Function.update_of_ne hb, h.locks b t]
        exact ⟨.inr, fun hor => hor.resolve_left hb⟩
    · change Function.update s.locks a (some t) b = some u ↔ _
      by_cases hb : b = a
      · rw [hb, Function.update_self, hfree]
        exact ⟨fun heq => absurd (Option.some.inj heq).symm hu, fun heq => by cases heq⟩
      · rw [Function.update_of_ne hb]
  · cases hrun

/-- A step at which the thread gives back a lock, or resets the one of its new node. -/
theorem Threads.release (h : Threads s) (hat : pc.At s.memory)
    (hholds : ∀ b, pc.Holds b ↔ b ≠ a ∧ (s.pcs t).Holds b)
    (hothers : ∀ u, u ≠ t → ¬ (s.pcs u).Holds a)
    (hnode : ∀ n, pc.node = some n → (s.pcs t).node = some n) :
    Threads ((s.setLock a none).goto t pc) := by
  refine h.change rfl (fun _ _ => Keeps.refl _) hat (fun b => ?_) (fun b u hu => ?_)
    (fun n hn u hu hn' => hu (h.own u t n hn' (hnode n hn)))
  · rw [hholds]
    change Function.update s.locks a none b = some t ↔ _
    by_cases hb : b = a
    · rw [hb, Function.update_self]
      exact ⟨fun heq => (by cases heq), fun hand => absurd rfl hand.1⟩
    · rw [Function.update_of_ne hb, h.locks b t]
      exact ⟨fun hh => ⟨hb, hh⟩, And.right⟩
  · change Function.update s.locks a none b = some u ↔ _
    by_cases hb : b = a
    · rw [hb, Function.update_self]
      exact ⟨fun heq => (by cases heq), fun heq => absurd ((h.locks a u).mp heq) (hothers u hu)⟩
    · rw [Function.update_of_ne hb]

theorem Threads.write {node : Node} (linked : List ℕ) (h : Threads s)
    (hat : pc.At { s.memory.setNode a node with linked := linked })
    (hholds : ∀ a, pc.Holds a ↔ (s.pcs t).Holds a)
    (hnode : ∀ n, pc.node = some n → (s.pcs t).node = some n)
    (hkey : a ∈ s.memory.linked → node.key = s.memory.key a)
    (hlinked : ∀ b ∈ s.memory.linked, b ∈ linked)
    (hnew : ∀ b ∈ linked, b ∈ s.memory.linked ∨ (s.pcs t).node = some b)
    (hmine : (s.pcs t).Holds a ∨ (s.pcs t).node = some a) :
    Threads ((s.setMemory { s.memory.setNode a node with linked := linked }).goto t pc) := by
  have hother : ∀ b, b ≠ a → Function.update s.memory.nodes a node b = s.memory.nodes b :=
    fun b hb => Function.update_of_ne hb _ _
  refine h.change rfl (fun u hu => ⟨hlinked, fun b hb => ?_, fun b hb => hother b ?_,
    fun n hn hf => ⟨⟨fun hmem => ?_, hf.allocated⟩, hother n ?_⟩⟩) hat
    (fun a => (h.locks a t).trans (hholds a).symm) (fun _ _ _ => .rfl)
    (fun n hn u hu hn' => hu (h.own u t n hn' (hnode n hn)))
  · change (Function.update s.memory.nodes a node b).key = _
    by_cases hba : b = a
    · rw [hba, Function.update_self]
      exact hkey (hba ▸ hb)
    · rw [hother b hba]
      rfl
  · rintro rfl
    rcases hmine with hmine | hmine
    · exact hu (h.exclusive hb hmine)
    · exact ((h.place t).fresh hmine).unlinked ((h.place u).linked hb)
  · rcases hnew n hmem with hold | hmine
    · exact hf.unlinked hold
    · exact hu (h.own u t n hn hmine)
  · rintro rfl
    rcases hmine with hmine | hmine
    · exact hf.unlinked ((h.place t).linked hmine)
    · exact hu (h.own u t n hn hmine)

end Locks

/-! ### Changes of the list -/

/-- Paths between nodes of the list to nodes that are not marked stay. -/
def Carries (m m' : Memory) : Prop :=
  ∀ a ∈ m.linked, ∀ b, m'.marked b = false → Leads m.next a b → Leads m'.next a b

section Changes

variable {a b : ℕ} {node : Node}

theorem setNode_nodes_self : (m.setNode a node).nodes a = node := Function.update_self _ _ _

theorem setNode_nodes_of_ne (h : b ≠ a) : (m.setNode a node).nodes b = m.nodes b :=
  Function.update_of_ne h _ _

theorem setNode_key (h : node.key = m.key a) : (m.setNode a node).key = m.key := by
  funext b
  by_cases hb : b = a
  · rw [hb, Memory.key, setNode_nodes_self, h]
  · rw [Memory.key, setNode_nodes_of_ne hb, Memory.key]

theorem setNode_marked (h : node.marked = m.marked a) : (m.setNode a node).marked = m.marked := by
  funext b
  by_cases hb : b = a
  · rw [hb, Memory.marked, setNode_nodes_self, h]
  · rw [Memory.marked, setNode_nodes_of_ne hb, Memory.marked]

theorem setNode_next (h : node.next = m.next a) : (m.setNode a node).next = m.next := by
  funext b
  by_cases hb : b = a
  · rw [hb, Memory.next, setNode_nodes_self, h]
  · rw [Memory.next, setNode_nodes_of_ne hb, Memory.next]

theorem setNode_next_of_ne (h : b ≠ a) : (m.setNode a node).next b = m.next b :=
  congrArg Node.next (setNode_nodes_of_ne h)

section

variable (h : Shape m)
include h

theorem Shape.closed (ha : a ∈ m.linked) (hnext : m.next a = some b) :
    b ∈ m.linked := (h.ascending a ha b hnext).1

theorem Shape.next_tail : m.next m.tail = none := by
  cases hnext : m.next m.tail with
  | none => rfl
  | some b =>
    obtain ⟨hb, hlt⟩ := h.ascending m.tail h.tail b hnext
    have hle := h.bound b hb
    rw [h.tailKey] at hlt
    exact absurd hlt (Nat.not_lt_of_le hle)

theorem Shape.unique (ha : a ∈ m.linked) (hb : b ∈ m.linked) (hamark : m.marked a = false)
    (hbmark : m.marked b = false) (hkey : m.key a = m.key b) : a = b :=
  h.ascending.unique h.head (h.reachable a ha hamark) (h.reachable b hb hbmark) hkey

theorem Shape.gap (hwindow : Window m x prev curr) (hnb : Neighbours m prev curr)
    (hb : b ∈ m.linked) (hbmark : m.marked b = false) (hkey : m.key b = x) : m.key curr ≤ x := by
  rw [← hkey]
  exact h.ascending.le_of_lt h.head (h.reachable prev hwindow.prevLinked hnb.prevUnmarked)
    (h.reachable b hb hbmark) hnb.link (hkey ▸ hwindow.lt)

/-! #### A new node -/

theorem Shape.allocate : Shape m.allocate :=
  { head := h.head
    tail := h.tail
    headKey := h.headKey
    tailKey := h.tailKey
    ascending := h.ascending
    last := h.last
    bound := h.bound
    reachable := h.reachable
    marked := h.marked
    allocated := fun a ha => Nat.lt_succ_of_lt (h.allocated a ha)
    zero := fun n hn => h.zero n (Nat.le_of_succ_le hn) }

theorem carries_setNode_of_fresh (hf : Fresh m n) : Carries m (m.setNode n node) := by
  intro a ha b _ hl
  refine hl.congr (S := (· ∈ m.linked)) ha (fun _ _ => h.closed) (fun c hc => setNode_next_of_ne ?_)
  rintro rfl
  exact hf.unlinked hc

end

/-- A write to a new node leaves the list alone. -/
theorem keeps_setNode_of_fresh (hf : Fresh m n) :
    Keeps m (m.setNode n node) (· ∈ m.linked) none := by
  have hsame : ∀ a ∈ m.linked, (m.setNode n node).nodes a = m.nodes a := by
    intro a ha
    apply setNode_nodes_of_ne
    rintro rfl
    exact hf.unlinked ha
  exact ⟨fun _ => id, fun a ha => congrArg Node.key (hsame a ha), hsame, fun k hk => by cases hk⟩

theorem Shape.setNode_of_fresh (h : Shape m) (hf : Fresh m n) (hmark : node.marked = false) :
    Shape (m.setNode n node) := by
  have hkeeps : Keeps m (m.setNode n node) (· ∈ m.linked) none := keeps_setNode_of_fresh hf
  have hkey := hkeeps.key
  have hnext : ∀ a ∈ m.linked, (m.setNode n node).next a = m.next a := fun a => hkeeps.next
  refine ⟨h.head, h.tail, (hkey _ h.head).trans h.headKey, (hkey _ h.tail).trans h.tailKey,
    fun a ha b hb => ?_, fun a ha hnone => h.last a ha ((hnext a ha).symm.trans hnone),
    fun a ha => ?_, fun a ha hmarked => ?_, fun a hmarked => ?_, h.allocated, fun k hk => ?_⟩
  · obtain ⟨hmem, hlt⟩ := h.ascending a ha b ((hnext a ha).symm.trans hb)
    refine ⟨hmem, ?_⟩
    rw [hkey a ha, hkey b hmem]
    exact hlt
  · rw [hkey a ha]
    exact h.bound a ha
  · have hold : m.marked a = false := (hkeeps.marked ha).symm.trans hmarked
    exact carries_setNode_of_fresh h hf _ h.head a hmarked (h.reachable a ha hold)
  · have hne : a ≠ n := by
      rintro rfl
      rw [Memory.marked, setNode_nodes_self, hmark] at hmarked
      cases hmarked
    rw [Memory.marked, setNode_nodes_of_ne hne] at hmarked
    obtain ⟨ha, hvalid⟩ := h.marked a hmarked
    refine ⟨ha, ?_⟩
    rw [hkey a ha]
    exact hvalid
  · have hne : k ≠ n := by
      rintro rfl
      exact absurd hf.allocated (Nat.not_lt_of_le hk)
    exact (setNode_nodes_of_ne hne).trans (h.zero k hk)

/-! #### Linking -/

theorem link_key : (m.link prev n).key = m.key := setNode_key rfl

theorem link_marked : (m.link prev n).marked = m.marked := setNode_marked rfl

theorem link_next_prev : (m.link prev n).next prev = some n := congrArg Node.next setNode_nodes_self

theorem link_next_of_ne (h : a ≠ prev) : (m.link prev n).next a = m.next a := setNode_next_of_ne h

theorem carries_link (hnb : Neighbours m prev curr) (hne : n ≠ prev)
    (hn : m.nodes n = ⟨x, false, some curr⟩) : Carries m (m.link prev n) := by
  intro a _ b _ hl
  refine hl.splice (fun c hc => link_next_of_ne hc) link_next_prev ?_ hne
  rw [hnb.link, Memory.next, hn]

theorem Shape.link (h : Shape m) (hx : ValidKey x) (hwindow : Window m x prev curr)
    (hnb : Neighbours m prev curr) (hlt : x < m.key curr) (hf : Fresh m n)
    (hn : m.nodes n = ⟨x, false, some curr⟩) : Shape (m.link prev n) := by
  have hne : n ≠ prev := by
    rintro rfl
    exact hf.unlinked hwindow.prevLinked
  have hkeyn : m.key n = x := congrArg Node.key hn
  have hnextn : m.next n = some curr := congrArg Node.next hn
  have hold : ∀ a ∈ m.linked, a ∈ (m.link prev n).linked := fun a ha => List.mem_append_left _ ha
  have hnew : ∀ a ∈ (m.link prev n).linked, a ∈ m.linked ∨ a = n := by
    intro a ha
    simpa [Memory.link] using ha
  have hmem : n ∈ (m.link prev n).linked := List.mem_append_right _ (List.mem_singleton_self n)
  refine ⟨hold _ h.head, hold _ h.tail, ?_, ?_, fun a ha b hb => ?_, fun a ha hnone => ?_,
    fun a ha => ?_, fun a ha hmarked => ?_, fun a hmarked => ?_, fun a ha => ?_, fun k hk => ?_⟩
  · rw [link_key]
    exact h.headKey
  · rw [link_key]
    exact h.tailKey
  · rw [link_key]
    by_cases hap : a = prev
    · rw [hap, link_next_prev] at hb
      cases hb
      rw [hap, hkeyn]
      exact ⟨hmem, hwindow.lt⟩
    · rw [link_next_of_ne hap] at hb
      rcases hnew a ha with ha | rfl
      · obtain ⟨hbmem, hab⟩ := h.ascending a ha b hb
        exact ⟨hold b hbmem, hab⟩
      · cases hnextn.symm.trans hb
        rw [hkeyn]
        exact ⟨hold _ hwindow.currLinked, hlt⟩
  · have hap : a ≠ prev := by
      rintro rfl
      rw [link_next_prev] at hnone
      cases hnone
    rw [link_next_of_ne hap] at hnone
    rcases hnew a ha with ha | rfl
    · exact h.last a ha hnone
    · rw [hnextn] at hnone
      cases hnone
  · rw [link_key]
    rcases hnew a ha with ha | rfl
    · exact h.bound a ha
    · rw [hkeyn]
      exact hx.2.le
  · have hcarries := carries_link hnb hne hn
    rw [link_marked] at hmarked
    rcases hnew a ha with ha | rfl
    · exact hcarries _ h.head a (by rwa [link_marked]) (h.reachable a ha hmarked)
    · have hprev := hcarries _ h.head prev (by rw [link_marked]; exact hnb.prevUnmarked)
        (h.reachable prev hwindow.prevLinked hnb.prevUnmarked)
      exact hprev.trans (.cons link_next_prev (Leads.refl a))
  · rw [link_marked] at hmarked
    obtain ⟨ha, hvalid⟩ := h.marked a hmarked
    rw [link_key]
    exact ⟨hold a ha, hvalid⟩
  · rcases hnew a ha with ha | rfl
    · exact h.allocated a ha
    · exact hf.allocated
  · have hkp : k ≠ prev := by
      rintro rfl
      exact absurd (h.allocated k hwindow.prevLinked) (Nat.not_lt_of_le hk)
    exact (setNode_nodes_of_ne hkp).trans (h.zero k hk)

/-! #### Marking -/

theorem mark_key : (m.mark curr).key = m.key := setNode_key rfl

theorem mark_next : (m.mark curr).next = m.next := setNode_next rfl

theorem mark_marked_self : (m.mark curr).marked curr = true :=
  congrArg Node.marked setNode_nodes_self

theorem mark_marked_of_ne (h : a ≠ curr) : (m.mark curr).marked a = m.marked a :=
  congrArg Node.marked (setNode_nodes_of_ne h)

theorem ne_of_mark_marked (h : (m.mark curr).marked a = false) : a ≠ curr := by
  rintro rfl
  rw [mark_marked_self] at h
  cases h

theorem carries_mark : Carries m (m.mark curr) := by
  intro a _ b _ hl
  rw [mark_next]
  exact hl

theorem Shape.mark (h : Shape m) (hcurr : curr ∈ m.linked) (hkey : ValidKey (m.key curr)) :
    Shape (m.mark curr) := by
  refine ⟨h.head, h.tail, ?_, ?_, ?_, ?_, ?_, fun a ha hmarked => ?_, fun a hmarked => ?_,
    h.allocated, fun k hk => ?_⟩
  · rw [mark_key]
    exact h.headKey
  · rw [mark_key]
    exact h.tailKey
  · rw [mark_key, mark_next]
    exact h.ascending
  · rw [mark_next]
    exact h.last
  · rw [mark_key]
    exact h.bound
  · have hne := ne_of_mark_marked hmarked
    rw [mark_marked_of_ne hne] at hmarked
    rw [mark_next]
    exact h.reachable a ha hmarked
  · rw [mark_key]
    by_cases ha : a = curr
    · rw [ha]
      exact ⟨hcurr, hkey⟩
    · rw [mark_marked_of_ne ha] at hmarked
      exact h.marked a hmarked
  · have hne : k ≠ curr := by
      rintro rfl
      exact absurd (h.allocated k hcurr) (Nat.not_lt_of_le hk)
    exact (setNode_nodes_of_ne hne).trans (h.zero k hk)

/-! #### Unlinking -/

variable {next : Option ℕ}

theorem unlink_key : (m.unlink prev next).key = m.key := setNode_key rfl

theorem unlink_marked : (m.unlink prev next).marked = m.marked :=
  setNode_marked rfl

theorem unlink_next_prev : (m.unlink prev next).next prev = next :=
  congrArg Node.next setNode_nodes_self

theorem unlink_next_of_ne (h : a ≠ prev) :
    (m.unlink prev next).next a = m.next a := setNode_next_of_ne h

theorem carries_unlink (hwindow : Window m x prev curr) (hr : Removed m x prev curr) :
    Carries m (m.unlink prev (m.next curr)) := by
  intro a _ b hb hl
  rw [unlink_marked] at hb
  refine hl.bypass (fun c hc => unlink_next_of_ne hc) hr.link unlink_next_prev
    (hwindow.ne hr.key.ge).symm ?_
  rintro rfl
  rw [hr.currMarked] at hb
  cases hb

theorem Shape.unlink (h : Shape m) (hwindow : Window m x prev curr) (hr : Removed m x prev curr) :
    Shape (m.unlink prev (m.next curr)) := by
  refine ⟨h.head, h.tail, ?_, ?_, fun a ha b hb => ?_, fun a ha hnone => ?_, ?_,
    fun a ha hmarked => ?_, ?_, h.allocated, fun k hk => ?_⟩
  · rw [unlink_key]
    exact h.headKey
  · rw [unlink_key]
    exact h.tailKey
  · rw [unlink_key]
    by_cases hap : a = prev
    · rw [hap, unlink_next_prev] at hb
      obtain ⟨hmem, hlt⟩ := h.ascending curr hwindow.currLinked b hb
      rw [hap]
      rw [hr.key] at hlt
      exact ⟨hmem, hwindow.lt.trans hlt⟩
    · rw [unlink_next_of_ne hap] at hb
      exact h.ascending a ha b hb
  · by_cases hap : a = prev
    · -- the marked node is not the sentinel at the end, so it has a successor
      rw [hap, unlink_next_prev] at hnone
      have htail := h.last curr hwindow.currLinked hnone
      have hlt := (h.marked curr hr.currMarked).2.2
      rw [htail, h.tailKey] at hlt
      exact absurd hlt (lt_irrefl _)
    · rw [unlink_next_of_ne hap] at hnone
      exact h.last a ha hnone
  · rw [unlink_key]
    exact h.bound
  · have hold : m.marked a = false := by rwa [unlink_marked] at hmarked
    exact carries_unlink hwindow hr _ h.head a hmarked (h.reachable a ha hold)
  · rw [unlink_key, unlink_marked]
    exact h.marked
  · have hne : k ≠ prev := by
      rintro rfl
      exact absurd (h.allocated k hwindow.prevLinked) (Nat.not_lt_of_le hk)
    exact (setNode_nodes_of_ne hne).trans (h.zero k hk)

end Changes

end SmcSim.LazyList
