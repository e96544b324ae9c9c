import Mathlib.Order.Nat
import Mathlib.Data.List.Chain

/-!
# Paths along a successor that may be missing

`Leads next a b` says that following `next` from `a` arrives at `b`. When a cell is spliced in
or bypassed, paths stay. Where keys grow along `next`, a path ends at the only cell of its
key, nothing lies between a cell and its successor, and every cell has a chain to the last one.
-/

namespace SmcSim.SuccessorPaths
open List Option

variable {α : Type} {next next' : α → Option α} {a b c n p : α}

def Leads (next : α → Option α) (a b : α) : Prop :=
  Relation.ReflTransGen (fun x y => next x = some y) a b

theorem Leads.refl (a : α) : Leads next a a := Relation.ReflTransGen.refl

theorem Leads.trans (h : Leads next a b) (h' : Leads next b c) : Leads next a c :=
  Relation.ReflTransGen.trans h h'

theorem Leads.cons (h : next a = some b) (h' : Leads next b c) : Leads next a c :=
  Relation.ReflTransGen.head h h'

section

variable (h : Leads next a b)
include h

/-- A path to another cell goes through the successor. -/
theorem Leads.behind (hne : a ≠ b) (hnext : next a = some c) : Leads next c b := by
  rcases Relation.ReflTransGen.cases_head h with heq | ⟨d, hd, hpath⟩
  · exact absurd heq hne
  · cases hnext.symm.trans hd
    exact hpath

theorem Leads.total (h' : Leads next a c) : Leads next b c ∨ Leads next c b :=
  Relation.ReflTransGen.total_of_right_unique
    (fun _ _ _ hb hc => some.inj (hb.symm.trans hc)) h h'

/-- A path inside a closed set depends on the successors in the set only. -/
theorem Leads.congr {S : α → Prop} (ha : S a) (hclosed : ∀ x y, S x → next x = some y → S y)
    (hsame : ∀ x, S x → next' x = next x) : Leads next' a b := by
  induction h using Relation.ReflTransGen.head_induction_on with
  | refl => exact Leads.refl b
  | head hstep _ ih => exact .cons ((hsame _ ha).trans hstep) (ih (hclosed _ _ ha hstep))

theorem Leads.splice (hsame : ∀ x, x ≠ p → next' x = next x) (hp : next' p = some n)
    (hn : next n = next p) (hne : n ≠ p) : Leads next' a b := by
  induction h using Relation.ReflTransGen.head_induction_on with
  | refl => exact Leads.refl b
  | @head x y hstep _ ih =>
    by_cases hx : x = p
    · subst hx
      exact .cons hp (.cons ((hsame n hne).trans (hn.trans hstep)) ih)
    · exact .cons ((hsame x hx).trans hstep) ih

/-- Paths to other cells stay when the cell `c` behind `p` is bypassed. -/
theorem Leads.bypass (hsame : ∀ x, x ≠ p → next' x = next x) (hc : next p = some c)
    (hp : next' p = next c) (hcp : c ≠ p) (hb : b ≠ c) : Leads next' a b := by
  induction h using Relation.ReflTransGen.head_induction_on with
  | refl => exact Leads.refl b
  | @head x y hstep _ ih =>
    by_cases hx : x = p
    · subst hx
      cases hc.symm.trans hstep
      rcases Relation.ReflTransGen.cases_head ih with heq | ⟨d, hd, hpath⟩
      · exact absurd heq.symm hb
      · exact .cons (hp.trans ((hsame c hcp).symm.trans hd)) hpath
    · exact .cons ((hsame x hx).trans hstep) ih

end

/-! ### Growing keys -/

def Ascending (next : α → Option α) (key : α → ℕ) (S : α → Prop) : Prop :=
  ∀ a, S a → ∀ b, next a = some b → S b ∧ key a < key b

section Keys

variable {key : α → ℕ} {S : α → Prop} {head last : α}

section

variable (h : Ascending next key S)
include h

/-- A path goes to the same cell or to a greater key. -/
theorem Ascending.leads (hl : Leads next a b) (ha : S a) : S b ∧ (a = b ∨ key a < key b) := by
  induction hl with
  | refl => exact ⟨ha, .inl rfl⟩
  | tail _ hstep ih =>
    obtain ⟨hb, hle⟩ := ih
    obtain ⟨hc, hlt⟩ := h _ hb _ hstep
    refine ⟨hc, .inr ?_⟩
    rcases hle with rfl | hle
    · exact hlt
    · exact hle.trans hlt

theorem Ascending.eq_of_key (hl : Leads next a b) (ha : S a) (hkey : key b ≤ key a) : a = b := by
  rcases (h.leads hl ha).2 with heq | hlt
  · exact heq
  · exact absurd hkey (Nat.not_le_of_lt hlt)

/-- Two cells on one path that have the same key are the same. -/
theorem Ascending.unique (hhead : S head) (ha : Leads next head a) (hb : Leads next head b)
    (hkey : key a = key b) : a = b := by
  rcases ha.total hb with hl | hl
  · exact h.eq_of_key hl (h.leads ha hhead).1 hkey.ge
  · exact (h.eq_of_key hl (h.leads hb hhead).1 hkey.le).symm

/-- No key on the path lies between those of `p` and of its successor. -/
theorem Ascending.le_of_lt (hhead : S head) (hp : Leads next head p) (hb : Leads next head b)
    (hc : next p = some c) (hlt : key p < key b) : key c ≤ key b := by
  have hpS := (h.leads hp hhead).1
  rcases hp.total hb with hl | hl
  · have hne : p ≠ b := by
      rintro rfl
      exact lt_irrefl _ hlt
    rcases (h.leads (hl.behind hne hc) (h p hpS c hc).1).2 with rfl | hlt'
    · exact le_rfl
    · exact hlt'.le
  · obtain rfl := h.eq_of_key hl (h.leads hb hhead).1 hlt.le
    exact absurd hlt (lt_irrefl _)

end

/-- The cells of `l` lead from `a` to `last`, with growing keys. -/
structure SortedChain (next : α → Option α) (key : α → ℕ) (a last : α) (l : List α) : Prop where
  first : l.head? = some a
  final : l.getLast? = some last
  chain : l.IsChain (fun x y => next x = some y ∧ key x < key y)

variable {l : List α}

section

variable (h : SortedChain next key a last l)
include h

theorem SortedChain.leads (hb : b ∈ l) : Leads next a b := by
  obtain ⟨hfirst, -, hchain⟩ := h
  induction l generalizing a with
  | nil => cases hfirst
  | cons x l ih =>
    cases hfirst
    rcases mem_cons.mp hb with rfl | hb
    · exact Leads.refl _
    · cases l with
      | nil => cases hb
      | cons y l =>
        obtain ⟨hxy, hrest⟩ := isChain_cons_cons.mp hchain
        exact .cons hxy.1 (ih hb rfl hrest)

/-- Every cell on the way is in the chain. -/
theorem SortedChain.mem (hlast : next last = none) (hb : Leads next a b) : b ∈ l := by
  obtain ⟨hfirst, hfinal, hchain⟩ := h
  induction l generalizing a with
  | nil => cases hfirst
  | cons x l ih =>
    cases hfirst
    rcases Relation.ReflTransGen.cases_head hb with rfl | ⟨c, hc, hpath⟩
    · exact mem_cons_self
    · cases l with
      | nil =>
        have hx : x = last := some.inj hfinal
        rw [hx, hlast] at hc
        cases hc
      | cons y l =>
        obtain ⟨hxy, hrest⟩ := isChain_cons_cons.mp hchain
        cases hxy.1.symm.trans hc
        exact mem_cons_of_mem _ (ih hpath rfl hfinal hrest)

theorem SortedChain.first_mem : a ∈ l :=
  mem_of_mem_head? h.first

theorem SortedChain.final_mem : last ∈ l :=
  mem_of_mem_getLast? h.final

theorem SortedChain.next_mem (hb : b ∈ l) :
    b = last ∨ ∃ c ∈ l, next b = some c ∧ key b < key c := by
  obtain ⟨-, hfinal, hchain⟩ := h
  induction l with
  | nil => cases hb
  | cons x l ih =>
    cases l with
    | nil =>
      left
      rw [mem_singleton.mp hb]
      exact some.inj hfinal
    | cons y l =>
      obtain ⟨hxy, hrest⟩ := isChain_cons_cons.mp hchain
      rcases mem_cons.mp hb with rfl | hb
      · exact .inr ⟨y, mem_cons_of_mem _ mem_cons_self, hxy⟩
      · exact (ih hb hfinal hrest).imp_right
          (fun ⟨c, hc, hnext⟩ => ⟨c, mem_cons_of_mem _ hc, hnext⟩)

theorem SortedChain.pairwise : l.Pairwise (fun x y => key x < key y) := by
  have hchain : (l.map key).IsChain (· < ·) :=
    (isChain_map key).mpr (h.chain.imp (fun _ _ => And.right))
  exact pairwise_map.mp (isChain_iff_pairwise.mp hchain)

theorem SortedChain.key_le (hb : b ∈ l) : key b ≤ key last := by
  obtain ⟨front, rfl⟩ := getLast?_eq_some_iff.mp h.final
  rcases mem_append.mp hb with hb | hb
  · exact ((pairwise_append.mp h.pairwise).2.2 b hb last (mem_singleton_self _)).le
  · rw [mem_singleton.mp hb]

theorem SortedChain.ascending (hlast : next last = none) : Ascending next key (· ∈ l) := by
  intro b hb c hc
  rcases h.next_mem hb with rfl | ⟨d, hd, hnext, hlt⟩
  · rw [hlast] at hc
    cases hc
  · cases hnext.symm.trans hc
    exact ⟨hd, hlt⟩

end

theorem Ascending.exists_chain (h : Ascending next key S)
    (hlast : ∀ a, S a → next a = none → a = last) (hbound : ∀ a, S a → key a ≤ key last)
    (ha : S a) :
    ∃ l, SortedChain next key a last l := by
  induction hk : key last - key a using Nat.strongRecOn generalizing a with
  | ind k ih =>
    cases hnext : next a with
    | none => exact ⟨[a], rfl, congrArg some (hlast a ha hnext), List.IsChain.singleton a⟩
    | some b =>
      obtain ⟨hb, hlt⟩ := h a ha b hnext
      have hle := hbound b hb
      obtain ⟨l, hfirst, hfinal, hchain⟩ := ih (key last - key b) (by omega) hb rfl
      cases l with
      | nil => cases hfirst
      | cons x l =>
        obtain rfl := some.inj hfirst
        exact ⟨a :: x :: l, rfl, hfinal, isChain_cons_cons.mpr ⟨⟨hnext, hlt⟩, hchain⟩⟩

end Keys

end SmcSim.SuccessorPaths
