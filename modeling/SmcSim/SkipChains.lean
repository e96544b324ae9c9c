import SmcSim.ListSegments
import Mathlib.Data.List.Sort

/-!
# Sorted chains with express levels

A skip list is one list of cells in strictly increasing key order, threaded by one
successor function per level: level `l` visits exactly the cells of height above
`l`. All levels are determined by the cells and their heights, so every level is a
sub-chain of the level below by construction. `SkipChain.insert` and `SkipChain.remove` are
the multi-level splices.
-/

namespace SmcSim.SkipChains
open ListSegments List

universe u

variable {α : Type u}

/-- The cells that level `l` visits. -/
def level (top : α → ℕ) (l : ℕ) (cells : List α) : List α := cells.filter (fun x => l < top x)

/-- The cells with a key below `k`, and those with a key from `k` on. -/
def below (key : α → ℕ) (k : ℕ) (cells : List α) : List α := cells.filter (fun x => key x < k)
def above (key : α → ℕ) (k : ℕ) (cells : List α) : List α := cells.filter (fun x => k ≤ key x)

structure SkipChain (next : ℕ → α → α) (key : α → ℕ) (top : α → ℕ) (levels : ℕ)
    (head stop : α) (cells : List α) : Prop where
  chain : ∀ l < levels, Seg (next l) head (level top l cells) stop
  sorted : (cells.map key).Pairwise (· < ·)

variable {key : α → ℕ} {top : α → ℕ} {cells lo hi front back : List α} {k l : ℕ} {p c n : α}

variable {x : α}

@[simp] theorem mem_level : x ∈ level top l cells ↔ x ∈ cells ∧ l < top x := by
  simp [level]

theorem mem_below : x ∈ below key k cells ↔ x ∈ cells ∧ key x < k := by
  simp [below]

theorem mem_above : x ∈ above key k cells ↔ x ∈ cells ∧ k ≤ key x := by
  simp [above]

theorem mem_below_cons_above :
    x ∈ below key k cells ++ n :: above key k cells ↔ x = n ∨ x ∈ cells := by
  rw [mem_append, mem_cons, mem_below, mem_above]
  constructor
  · rintro (⟨hx, -⟩ | rfl | ⟨hx, -⟩)
    · exact .inr hx
    · exact .inl rfl
    · exact .inr hx
  · rintro (rfl | hx)
    · exact .inr (.inl rfl)
    · rcases lt_or_ge (key x) k with hlt | hge
      · exact .inl ⟨hx, hlt⟩
      · exact .inr (.inr ⟨hx, hge⟩)

theorem mem_below_append_above :
    x ∈ below key k cells ++ above key (k + 1) cells ↔ x ∈ cells ∧ key x ≠ k := by
  rw [mem_append, mem_below, mem_above]
  constructor
  · rintro (⟨hx, hlt⟩ | ⟨hx, hlt⟩)
    · exact ⟨hx, by omega⟩
    · exact ⟨hx, by omega⟩
  · rintro ⟨hx, hne⟩
    rcases Nat.lt_or_gt_of_ne hne with hlt | hgt
    · exact .inl ⟨hx, hlt⟩
    · exact .inr ⟨hx, hgt⟩

theorem level_append : level top l (lo ++ hi) = level top l lo ++ level top l hi := by
  simp [level]

theorem level_cons_of_lt (h : l < top n) : level top l (n :: hi) = n :: level top l hi := by
  simp [level, h]

theorem level_cons_of_le (h : top n ≤ l) : level top l (n :: hi) = level top l hi := by
  simp [level, not_lt.mpr h]

theorem level_congr {top' : α → ℕ} (h : ∀ x ∈ cells, top' x = top x) :
    level top' l cells = level top l cells := by
  apply filter_congr
  intro x hx
  rw [h x hx]

/-- Higher levels visit fewer cells, in the same order. -/
theorem level_sublist {l' : ℕ} (h : l ≤ l') :
    (level top l' cells).Sublist (level top l cells) := by
  have he : level top l' cells = level top l' (level top l cells) := by
    simp only [level, List.filter_filter]
    apply filter_congr
    intro x _
    by_cases hx : l' < top x
    · simp [hx, lt_of_le_of_lt h hx]
    · simp [hx]
  rw [he]
  exact filter_sublist

theorem sorted_append (hs : ((lo ++ hi).map key).Pairwise (· < ·))
    (hlo : ∀ x ∈ lo, key x < k) (hhi : ∀ x ∈ hi, k < key x) {key' : α → ℕ}
    (hkey : ∀ x ∈ lo ++ hi, key' x = key x) (hn : key' n = k) :
    ((lo ++ n :: hi).map key').Pairwise (· < ·) := by
  have hl : lo.map key' = lo.map key := map_congr_left (fun x hx => hkey x (by simp [hx]))
  have hh : hi.map key' = hi.map key := map_congr_left (fun x hx => hkey x (by simp [hx]))
  rw [map_append, pairwise_append] at hs
  rw [map_append, map_cons, hl, hh, hn, pairwise_append]
  refine ⟨hs.1, pairwise_cons.mpr ⟨?_, hs.2.1⟩, ?_⟩
  · intro a ha
    obtain ⟨x, hx, rfl⟩ := List.mem_map.mp ha
    exact hhi x hx
  · intro a ha b hb
    obtain ⟨x, hx, rfl⟩ := List.mem_map.mp ha
    rcases mem_cons.mp hb with rfl | hb
    · exact hlo x hx
    · exact hs.2.2 _ ha _ hb

theorem sorted_filter (hs : (cells.map key).Pairwise (· < ·)) (q : α → Bool) :
    ((cells.filter q).map key).Pairwise (· < ·) :=
  hs.sublist (filter_sublist.map key)

/-- A sorted list falls apart at any key. -/
theorem below_append_above (hs : (cells.map key).Pairwise (· < ·)) (k : ℕ) :
    below key k cells ++ above key k cells = cells := by
  induction cells with
  | nil => rfl
  | cons x xs ih =>
    rw [map_cons, pairwise_cons] at hs
    by_cases hx : key x < k
    · have hb : below key k (x :: xs) = x :: below key k xs := by simp [below, hx]
      have ha : above key k (x :: xs) = above key k xs := by simp [above, not_le.mpr hx]
      rw [hb, ha, cons_append, ih hs.2]
    · have hall : ∀ y ∈ x :: xs, k ≤ key y := by
        intro y hy
        rcases mem_cons.mp hy with rfl | hy
        · omega
        · have := hs.1 _ (List.mem_map_of_mem hy)
          omega
      have hb : below key k (x :: xs) = [] :=
        filter_eq_nil_iff.mpr (fun y hy => by simpa using hall y hy)
      have ha : above key k (x :: xs) = x :: xs :=
        filter_eq_self.mpr (fun y hy => by simpa using hall y hy)
      rw [hb, ha, nil_append]

theorem below_eq (hlo : ∀ x ∈ lo, key x < k) (hhi : ∀ x ∈ hi, k ≤ key x) :
    below key k (lo ++ hi) = lo := by
  have hl : lo.filter (fun x => key x < k) = lo :=
    filter_eq_self.mpr (fun x hx => by simpa using hlo x hx)
  have hh : hi.filter (fun x => key x < k) = [] :=
    filter_eq_nil_iff.mpr (fun x hx => by simpa using hhi x hx)
  simp only [below, filter_append, hl, hh, append_nil]

theorem above_eq (hlo : ∀ x ∈ lo, key x < k) (hhi : ∀ x ∈ hi, k ≤ key x) :
    above key k (lo ++ hi) = hi := by
  have hl : lo.filter (fun x => k ≤ key x) = [] :=
    filter_eq_nil_iff.mpr (fun x hx => by simpa using hlo x hx)
  have hh : hi.filter (fun x => k ≤ key x) = hi :=
    filter_eq_self.mpr (fun x hx => by simpa using hhi x hx)
  simp only [above, filter_append, hl, hh, nil_append]

theorem level_below : level top l (below key k cells) = below key k (level top l cells) := by
  simp only [level, below, List.filter_filter]
  apply filter_congr
  intro x _
  rw [Bool.and_comm]

theorem level_above : level top l (above key k cells) = above key k (level top l cells) := by
  simp only [level, above, List.filter_filter]
  apply filter_congr
  intro x _
  rw [Bool.and_comm]

theorem sorted_around (hs : ((front ++ p :: c :: back).map key).Pairwise (· < ·))
    (hp : key p < k) (hc : k ≤ key c) :
    (∀ x ∈ front ++ [p], key x < k) ∧ ∀ x ∈ c :: back, k ≤ key x := by
  rw [map_append, map_cons, map_cons, pairwise_append] at hs
  obtain ⟨_, hpc, hfront⟩ := hs
  have hcb := (pairwise_cons.mp hpc).2
  constructor
  · intro x hx
    rcases mem_append.mp hx with hx | hx
    · exact (hfront _ (List.mem_map_of_mem hx) _ mem_cons_self).trans hp
    · rw [mem_singleton.mp hx]
      exact hp
  · intro x hx
    rcases mem_cons.mp hx with rfl | hx
    · exact hc
    · exact hc.trans ((pairwise_cons.mp hcb).1 _ (List.mem_map_of_mem hx)).le

namespace SkipChain

variable {next next' : ℕ → α → α} {key' : α → ℕ} {top' : α → ℕ} {levels : ℕ} {head stop : α}

section

variable (h : SkipChain next key top levels head stop cells)
include h

/-- Strictly increasing keys make the cells distinct. -/
theorem nodup : cells.Nodup := by
  have hn : (cells.map key).Nodup := h.sorted.imp (fun hab => ne_of_lt hab)
  exact hn.of_map key

theorem level_sorted (l : ℕ) :
    ((level top l cells).map key).Pairwise (· < ·) := sorted_filter h.sorted _

theorem next_eq (hl : l < levels) (he : level top l cells = front ++ p :: back) :
    next l p = back.head?.getD stop := by
  have hc := h.chain l hl
  rw [he] at hc
  obtain ⟨_, _, _, hb⟩ := seg_append.mp hc
  cases back with
  | nil => exact hb
  | cons c back => exact hb.1

/-- A cell of a level that is not its last one has a next one there. -/
theorem level_next {init : List α} {tail : α} (hl : l < levels)
    (htail : level top l cells = init ++ [tail]) (hp : p ∈ cells) (htop : l < top p)
    (hne : p ≠ tail) :
    ∃ front c back, level top l cells = front ++ p :: c :: back ∧ next l p = c := by
  obtain ⟨front, back, hsplit⟩ := append_of_mem (mem_level.mpr ⟨hp, htop⟩)
  cases back with
  | nil => exact absurd (singleton_inj.mp (append_inj' (hsplit.symm.trans htail) rfl).2) hne
  | cons c back => exact ⟨front, c, back, hsplit, h.next_eq hl hsplit⟩

theorem level_split (he : level top l cells = front ++ p :: c :: back) (hp : key p < k)
    (hc : k ≤ key c) :
    level top l (below key k cells) = front ++ [p] ∧
      level top l (above key k cells) = c :: back := by
  have hs := h.level_sorted l
  rw [he] at hs
  obtain ⟨hlo, hhi⟩ := sorted_around hs hp hc
  have happ : level top l cells = (front ++ [p]) ++ c :: back := by rw [he]; simp
  rw [level_below, level_above, happ]
  exact ⟨below_eq hlo hhi, above_eq hlo hhi⟩

end

/-- What changes at the last cell of `lo` on a level at most. -/
theorem eq_off_last {f f' : α → α} (hnd : (lo ++ hi).Nodup) (hf : level top l lo = front ++ [p])
    (h : ∀ x ∈ lo ++ hi, (∀ front, level top l lo ≠ front ++ [x]) → f' x = f x) :
    (∀ x ∈ front, f' x = f x) ∧ ∀ x ∈ level top l hi, f' x = f x := by
  have hlast : ∀ {x front'}, level top l lo = front' ++ [x] → p = x := fun hf' =>
    singleton_inj.mp (append_inj' (hf.symm.trans hf') rfl).2
  obtain ⟨hlo, -, hdisjoint⟩ := nodup_append.mp hnd
  have hndl : (front ++ [p]).Nodup := hf ▸ hlo.filter _
  constructor
  · intro x hx
    have hxlo : x ∈ lo := (mem_level.mp (hf ▸ by simp [hx] : x ∈ level top l lo)).1
    refine h x (by simp [hxlo]) (fun front' hf' => ?_)
    exact (nodup_append.mp hndl).2.2 x hx p (by simp) (hlast hf').symm
  · intro x hx
    have hxhi : x ∈ hi := (mem_level.mp hx).1
    have hplo : p ∈ lo := (mem_level.mp (hf ▸ by simp : p ∈ level top l lo)).1
    refine h x (by simp [hxhi]) (fun front' hf' => ?_)
    exact hdisjoint p hplo x hxhi (hlast hf')

/-- Splice a new cell into all levels below its height. -/
theorem insert (h : SkipChain next key top levels head stop (lo ++ hi))
    (hlo : ∀ x ∈ lo, key x < key' n) (hhi : ∀ x ∈ hi, key' n < key x)
    (hkey : ∀ x ∈ lo ++ hi, key' x = key x) (htop : ∀ x ∈ lo ++ hi, top' x = top x)
    (hpred : ∀ l < levels, l < top' n → ∃ front p, level top l lo = front ++ [p] ∧
      next' l p = n ∧ next' l n = next l p)
    (hnext : ∀ l < levels, ∀ x ∈ lo ++ hi,
      (l < top' n → ∀ front, level top l lo ≠ front ++ [x]) → next' l x = next l x) :
    SkipChain next' key' top' levels head stop (lo ++ n :: hi) := by
  refine ⟨fun l hl => ?_, sorted_append h.sorted hlo hhi hkey rfl⟩
  have hc := h.chain l hl
  rw [level_append] at hc
  have htlo : level top' l lo = level top l lo := level_congr (fun x hx => htop x (by simp [hx]))
  have hthi : level top' l hi = level top l hi := level_congr (fun x hx => htop x (by simp [hx]))
  by_cases hln : l < top' n
  · obtain ⟨front, p, hf, hp, hn⟩ := hpred l hl hln
    rw [level_append, level_cons_of_lt hln, htlo, hthi, hf]
    rw [hf] at hc
    rw [append_assoc] at hc ⊢
    obtain ⟨hfront, hhigh⟩ := eq_off_last h.nodup hf (fun x hx he => hnext l hl x hx (fun _ => he))
    exact hc.splice hfront hp hn hhigh
  · rw [level_append, level_cons_of_le (by omega), htlo, hthi]
    refine hc.congr (fun x hx => ?_)
    have hx' : x ∈ lo ++ hi := by
      rw [← level_append] at hx
      exact (mem_level.mp hx).1
    exact hnext l hl x hx' (fun hlt => absurd hlt hln)

/-- Unlink a cell from all levels below its height. -/
theorem remove (h : SkipChain next key top levels head stop (lo ++ n :: hi))
    (hkey : ∀ x ∈ lo ++ hi, key' x = key x) (htop : ∀ x ∈ lo ++ hi, top' x = top x)
    (hpred : ∀ l < levels, l < top n → ∃ front p, level top l lo = front ++ [p] ∧
      next' l p = next l n)
    (hnext : ∀ l < levels, ∀ x ∈ lo ++ hi,
      (l < top n → ∀ front, level top l lo ≠ front ++ [x]) → next' l x = next l x) :
    SkipChain next' key' top' levels head stop (lo ++ hi) := by
  have hsub : (lo ++ hi).Sublist (lo ++ n :: hi) := by simp
  have hmap : (lo ++ hi).map key' = (lo ++ hi).map key := map_congr_left hkey
  refine ⟨fun l hl => ?_, hmap ▸ h.sorted.sublist (hsub.map key)⟩
  have hc := h.chain l hl
  rw [level_append] at hc
  rw [level_congr htop, level_append]
  by_cases hln : l < top n
  · obtain ⟨front, p, hf, hp⟩ := hpred l hl hln
    rw [level_cons_of_lt hln, hf, append_assoc] at hc
    rw [hf, append_assoc]
    obtain ⟨hfront, hhigh⟩ := eq_off_last (h.nodup.sublist hsub) hf
      (fun x hx he => hnext l hl x hx (fun _ => he))
    exact hc.unlink hfront hp hhigh
  · rw [level_cons_of_le (by omega)] at hc
    refine hc.congr (fun x hx => ?_)
    have hx' : x ∈ lo ++ hi := by
      rw [← level_append] at hx
      exact (mem_level.mp hx).1
    exact hnext l hl x hx' (fun hlt => absurd hlt hln)

/-! ### Positions -/

/-- `p` and `c` are neighbours on level `l`, around the key `k`. -/
def Neighbours (key : α → ℕ) (top : α → ℕ) (cells : List α) (l k : ℕ) (p c : α) : Prop :=
  ∃ front back, level top l cells = front ++ p :: c :: back ∧ key p < k ∧ k ≤ key c

section

variable (h : Neighbours key top cells l k p c)
include h

theorem Neighbours.left_mem : p ∈ cells ∧ l < top p := by
  obtain ⟨front, back, he, -, -⟩ := h
  exact mem_level.mp (he ▸ by simp : p ∈ level top l cells)

theorem Neighbours.right_mem : c ∈ cells ∧ l < top c := by
  obtain ⟨front, back, he, -, -⟩ := h
  exact mem_level.mp (he ▸ by simp : c ∈ level top l cells)

section

variable (hs : SkipChain next key top levels head stop cells)
include hs

theorem Neighbours.next_eq (hl : l < levels) : next l p = c := by
  obtain ⟨front, back, he, -, -⟩ := h
  exact hs.next_eq hl he

theorem Neighbours.level_below : ∃ front, level top l (below key k cells) = front ++ [p] := by
  obtain ⟨front, back, he, hp, hc⟩ := h
  exact ⟨front, (hs.level_split he hp hc).1⟩

theorem Neighbours.mem_iff (hall : level top l cells = cells) : k ∈ cells.map key ↔ key c = k := by
  obtain ⟨front, back, he, hp, hc⟩ := h
  have hsorted := hs.sorted
  rw [hall] at he
  rw [he] at hsorted ⊢
  obtain ⟨hlo, -⟩ := sorted_around hsorted hp hc
  constructor
  · intro hk
    obtain ⟨x, hx, hxk⟩ := List.mem_map.mp hk
    have hx' : x ∈ front ++ [p] ∨ x = c ∨ x ∈ back := by
      simp only [mem_append, mem_cons, not_mem_nil, or_false] at hx ⊢
      tauto
    rcases hx' with hx' | rfl | hx'
    · exact absurd (hlo x hx') (by omega)
    · exact hxk
    · rw [map_append, map_cons, map_cons] at hsorted
      have hlt := (pairwise_cons.mp (pairwise_cons.mp
        (pairwise_append.mp hsorted).2.1).2).1 (key x) (List.mem_map_of_mem hx')
      omega
  · intro hk
    exact List.mem_map.mpr ⟨c, by simp, hk⟩

end

end

section

variable (h : SkipChain next key top levels head stop cells)
include h

theorem split_at_key (hn : n ∈ cells) (hk : key n = k) :
    cells = below key k cells ++ n :: above key (k + 1) cells := by
  obtain ⟨front, back, hsplit⟩ := append_of_mem hn
  have hsorted := h.sorted
  rw [hsplit, map_append, map_cons, pairwise_append, pairwise_cons] at hsorted
  obtain ⟨_, ⟨hback, _⟩, hfront⟩ := hsorted
  have hlo : ∀ x ∈ front, key x < k := fun x hx =>
    hk ▸ hfront _ (List.mem_map_of_mem hx) _ mem_cons_self
  have hhi : ∀ x ∈ back, k < key x := fun x hx => hk ▸ hback _ (List.mem_map_of_mem hx)
  have hb : below key k cells = front := by
    rw [hsplit]
    refine below_eq hlo (fun x hx => ?_)
    rcases mem_cons.mp hx with rfl | hx
    · exact hk.ge
    · exact (hhi x hx).le
  have ha : above key (k + 1) cells = back := by
    rw [hsplit, show front ++ n :: back = (front ++ [n]) ++ back by simp]
    refine above_eq (fun x hx => ?_) (fun x hx => hhi x hx)
    rcases mem_append.mp hx with hx | hx
    · exact (hlo x hx).trans (Nat.lt_succ_self k)
    · rw [mem_singleton.mp hx, hk]
      exact Nat.lt_succ_self k
  rw [hb, ha]
  exact hsplit

theorem link {preds succs : ℕ → α} (hk : key' n = k) (hnew : k ∉ cells.map key)
    (hkey : ∀ x ∈ cells, key' x = key x) (htop : ∀ x ∈ cells, top' x = top x)
    (hpos : ∀ l < levels, l < top' n → Neighbours key top cells l k (preds l) (succs l))
    (hlink : ∀ l < levels, l < top' n → next' l (preds l) = n ∧ next' l n = succs l)
    (hnext : ∀ l < levels, ∀ x ∈ cells, (l < top' n → x ≠ preds l) → next' l x = next l x) :
    SkipChain next' key' top' levels head stop (below key k cells ++ n :: above key k cells) := by
  have hsplit := below_append_above h.sorted k
  have hchain := h
  rw [← hsplit] at hchain
  refine hchain.insert ?_ ?_ ?_ ?_ ?_ ?_
  · intro x hx
    rw [hk]
    exact (mem_below.mp hx).2
  · intro x hx
    obtain ⟨hxc, hxk⟩ := mem_above.mp hx
    rw [hk]
    exact lt_of_le_of_ne hxk (fun he => hnew (he ▸ List.mem_map_of_mem hxc))
  · rw [hsplit]
    exact hkey
  · rw [hsplit]
    exact htop
  · intro l hl hlt
    obtain ⟨front, hfront⟩ := (hpos l hl hlt).level_below h
    obtain ⟨hp, hn⟩ := hlink l hl hlt
    exact ⟨front, preds l, hfront, hp, hn.trans ((hpos l hl hlt).next_eq h hl).symm⟩
  · intro l hl x hx hlast
    rw [hsplit] at hx
    refine hnext l hl x hx (fun hlt he => ?_)
    obtain ⟨front, hfront⟩ := (hpos l hl hlt).level_below h
    exact hlast hlt front (he ▸ hfront)

theorem unlink {preds succs : ℕ → α} (hn : n ∈ cells) (hk : key n = k)
    (hkey : ∀ x ∈ cells, key' x = key x) (htop : ∀ x ∈ cells, top' x = top x)
    (hpos : ∀ l < levels, l < top n → Neighbours key top cells l k (preds l) (succs l))
    (hlink : ∀ l < levels, l < top n → next' l (preds l) = next l n)
    (hnext : ∀ l < levels, ∀ x ∈ cells, (l < top n → x ≠ preds l) → next' l x = next l x) :
    SkipChain next' key' top' levels head stop (below key k cells ++ above key (k + 1) cells) := by
  have hsplit := h.split_at_key hn hk
  have hmem : ∀ x ∈ below key k cells ++ above key (k + 1) cells, x ∈ cells := by
    intro x hx
    rcases mem_append.mp hx with hx | hx
    · exact (mem_below.mp hx).1
    · exact (mem_above.mp hx).1
  have hchain := h
  rw [hsplit] at hchain
  refine hchain.remove (fun x hx => hkey x (hmem x hx)) (fun x hx => htop x (hmem x hx)) ?_ ?_
  · intro l hl hlt
    obtain ⟨front, hfront⟩ := (hpos l hl hlt).level_below h
    exact ⟨front, preds l, hfront, hlink l hl hlt⟩
  · intro l hl x hx hlast
    refine hnext l hl x (hmem x hx) (fun hlt he => ?_)
    obtain ⟨front, hfront⟩ := (hpos l hl hlt).level_below h
    exact hlast hlt front (he ▸ hfront)

end

end SkipChain

end SmcSim.SkipChains
