import SmcSim.LinkedListKernel
import SmcSim.ArrayRearrangement

/-!
# The quicksort of the valid requests

The kernel sorts an array of slots by the parameters the slots hold. The pivot is
kept in an `int` and compared with `unsigned long` parameters; the two conversions
cancel. Sorting reads parameters only, so it is verified against any specification
under which those reads return a fixed value and leave the world as it is.
-/

namespace SmcSim.LinkedListKernel
open EffectPrograms PimMemory ArrayRearrangement CommandSpec

/-- The round trip through `int` keeps every 32-bit value. -/
theorem toUlong_toInt {x : ℕ} (hx : x < 2 ^ 32) : toUlong (toInt x) = x := by
  unfold toUlong toInt
  generalize 2 ^ 32 = m at hx ⊢
  rw [Int.bmod_emod, Int.emod_eq_of_lt (by omega) (by exact_mod_cast hx), Int.toNat_natCast]

section Sorting

variable {V : Type} {d : CommandSpec Port PortRes V} {w : Machine V} {rank : ℕ → ℕ}

/-- In the world `w`, reading the parameter of a slot of `xs` returns its rank. -/
def ReadsRank (d : CommandSpec Port PortRes V) (w : Machine V) (rank : ℕ → ℕ)
    (xs : List ℕ) : Prop :=
  ∀ s ∈ xs, ∀ Q : ℕ → Machine V → Prop, Q (rank s) w → (spec d).wp (readParameter s) w Q

/-- The same for the slots at the positions from `lo` to `hi` only. -/
def ReadsRange (d : CommandSpec Port PortRes V) (w : Machine V) (rank : ℕ → ℕ) (xs : List ℕ)
    (lo hi : ℤ) : Prop :=
  ∀ t, lo ≤ t → t ≤ hi → ∀ Q : ℕ → Machine V → Prop, Q (rank (entry xs t)) w →
    (spec d).wp (readParameter (entry xs t)) w Q

variable {xs ys : List ℕ} {fuel : ℕ} {lo hi : ℤ}

theorem ReadsRange.rearranged (h : ReadsRange d w rank xs lo hi) (hr : Rearranged xs ys lo hi) :
    ReadsRange d w rank ys lo hi :=
  hr.forall_inside (P := fun s => ∀ Q : ℕ → Machine V → Prop, Q (rank s) w →
    (spec d).wp (readParameter s) w Q) h

theorem ReadsRange.mono {lo' hi' : ℤ} (h : ReadsRange d w rank xs lo hi) (hlo : lo ≤ lo')
    (hhi : hi' ≤ hi) : ReadsRange d w rank xs lo' hi' :=
  fun t ht ht' => h t (hlo.trans ht) (ht'.trans hhi)

private theorem wp_requestAt {i : ℤ} {Q : ℕ → Machine V → Prop} (h0 : 0 ≤ i)
    (h1 : i < xs.length) (hQ : Q (entry xs i) w) : (spec d).wp (requestAt xs i) w Q := by
  have hn : ¬ i < 0 := by omega
  simpa only [requestAt, hn, if_false, getElem?_toNat h0 h1, wp_pure] using hQ

private theorem wp_swapRequests {i j : ℤ} {Q : List ℕ → Machine V → Prop}
    (hi0 : 0 ≤ i) (hi : i < xs.length) (hj0 : 0 ≤ j) (hj : j < xs.length)
    (hQ : Q (swap xs i j) w) : (spec d).wp (swapRequests xs i j) w Q := by
  simp only [swapRequests, wp_bind]
  exact wp_requestAt hi0 hi (wp_requestAt hj0 hj hQ)

private theorem wp_scanUp {pivot i t : ℤ} {Q : ℤ → Machine V → Prop}
    (hread : ReadsRange d w rank xs (i + 1) t) (hi : -1 ≤ i) (hit : i < t) (ht : t < xs.length)
    (hstop : toUlong pivot ≤ rank (entry xs t)) (hfuel : t - i < fuel)
    (hQ : ∀ i', i < i' → i' ≤ t → (∀ u, i < u → u < i' → rank (entry xs u) < toUlong pivot) →
      toUlong pivot ≤ rank (entry xs i') → Q i' w) :
    (spec d).wp (scanUp fuel xs pivot i) w Q := by
  unfold scanUp
  apply (spec d).wp_loop
    (fun k w' => w' = w ∧ i ≤ k ∧ k < t ∧
      ∀ u, i < u → u ≤ k → rank (entry xs u) < toUlong pivot)
    (fun k _ => (t - k).toNat)
  · rintro k w' ⟨rfl, hk, hkt, hbelow⟩
    simp only [wp_bind]
    apply wp_requestAt (by omega) (by omega)
    apply hread _ (by omega) (by omega)
    by_cases hlt : rank (entry xs (k + 1)) < toUlong pivot
    · have hne : k + 1 ≠ t := fun he => by rw [he] at hlt; omega
      simp only [hlt, if_true]
      refine ⟨⟨rfl, by omega, by omega, fun u hu hu' => ?_⟩, by omega⟩
      rcases eq_or_lt_of_le hu' with rfl | hlt'
      · exact hlt
      · exact hbelow u hu (by omega)
    · simp only [hlt, if_false]
      exact hQ (k + 1) (by omega) (by omega) (fun u hu hu' => hbelow u hu (by omega)) (by omega)
  · exact ⟨rfl, le_refl i, hit, fun u hu hu' => by omega⟩
  · omega

private theorem wp_scanDown {pivot j t : ℤ} {Q : ℤ → Machine V → Prop}
    (hread : ReadsRange d w rank xs t (j - 1)) (hj : j ≤ xs.length) (htj : t < j) (ht : 0 ≤ t)
    (hstop : rank (entry xs t) ≤ toUlong pivot) (hfuel : j - t < fuel)
    (hQ : ∀ j', t ≤ j' → j' < j → (∀ u, j' < u → u < j → toUlong pivot < rank (entry xs u)) →
      rank (entry xs j') ≤ toUlong pivot → Q j' w) :
    (spec d).wp (scanDown fuel xs pivot j) w Q := by
  unfold scanDown
  apply (spec d).wp_loop
    (fun k w' => w' = w ∧ k ≤ j ∧ t < k ∧
      ∀ u, k ≤ u → u < j → toUlong pivot < rank (entry xs u))
    (fun k _ => (k - t).toNat)
  · rintro k w' ⟨rfl, hk, hkt, habove⟩
    simp only [wp_bind]
    apply wp_requestAt (by omega) (by omega)
    apply hread _ (by omega) (by omega)
    by_cases hgt : rank (entry xs (k - 1)) > toUlong pivot
    · have hne : k - 1 ≠ t := fun he => by rw [he] at hgt; omega
      simp only [hgt, if_true]
      refine ⟨⟨rfl, by omega, by omega, fun u hu hu' => ?_⟩, by omega⟩
      rcases eq_or_lt_of_le hu with rfl | hlt'
      · exact hgt
      · exact habove u (by omega) hu'
    · simp only [hgt, if_false]
      exact hQ (k - 1) (by omega) (by omega) (fun u hu hu' => habove u (by omega) hu') (by omega)
  · exact ⟨rfl, le_refl j, htj, fun u hu hu' => by omega⟩
  · omega

/-- The state of the partition loop between two rounds. `low` and `high` witness
that both scans will stop. -/
structure PartitionInv (rank : ℕ → ℕ) (xs : List ℕ) (lo hi : ℤ) (p : ℕ)
    (ys : List ℕ) (i j : ℤ) : Prop where
  rearranged : Rearranged xs ys lo hi
  below : ∀ t, lo ≤ t → t ≤ i → rank (entry ys t) ≤ p
  above : ∀ t, j ≤ t → t ≤ hi → p ≤ rank (entry ys t)
  start : i = lo - 1 ∧ j = hi + 1 ∧ rank (entry ys lo) = p ∨
    lo ≤ i ∧ i < j ∧ j ≤ hi

/-- What `partition` returns: a rearrangement of the range around a split point. -/
structure Partitioned (rank : ℕ → ℕ) (xs : List ℕ) (lo hi : ℤ) (ys : List ℕ) (j : ℤ) : Prop where
  rearranged : Rearranged xs ys lo hi
  lo_le : lo ≤ j
  lt_hi : j < hi
  split : ∃ p, (∀ t, lo ≤ t → t ≤ j → rank (entry ys t) ≤ p) ∧
    ∀ t, j + 1 ≤ t → t ≤ hi → p ≤ rank (entry ys t)

/-- Both scans of a round stop, and what they skipped is on the right side. -/
private theorem wp_scans {i j pivot : ℤ} {Q : ℤ → ℤ → Machine V → Prop}
    (hread : ReadsRange d w rank xs lo hi) (hlo : 0 ≤ lo) (hlt : lo < hi)
    (hhi : hi < xs.length) (hfuel : xs.length + 2 ≤ fuel)
    (hinv : PartitionInv rank xs lo hi (toUlong pivot) ys i j)
    (hQ : ∀ i' j', lo ≤ i' → i' ≤ hi → lo ≤ j' → j' ≤ hi → i < i' → j' < j → i ≤ j' → i' ≤ j →
      (i = lo - 1 → i' = lo) →
      (∀ t, lo ≤ t → t < i' → rank (entry ys t) ≤ toUlong pivot) →
      (∀ t, j' < t → t ≤ hi → toUlong pivot ≤ rank (entry ys t)) →
      toUlong pivot ≤ rank (entry ys i') → rank (entry ys j') ≤ toUlong pivot → Q i' j' w) :
    (spec d).wp (scanUp fuel ys pivot i) w
      (fun i' w' => (spec d).wp (scanDown fuel ys pivot j) w' (Q i')) := by
  have hlen : ys.length = xs.length := hinv.rearranged.length_eq
  have hread' := hread.rearranged hinv.rearranged
  obtain ⟨up, hup, hup', hupj, hupr, hups⟩ : ∃ up, i < up ∧ up ≤ hi ∧ up ≤ j ∧
      toUlong pivot ≤ rank (entry ys up) ∧ (i = lo - 1 → up = lo) := by
    rcases hinv.start with ⟨hi', hj', hp⟩ | ⟨h1, h2, h3⟩
    · exact ⟨lo, by omega, by omega, by omega, hp.ge, fun _ => rfl⟩
    · exact ⟨j, h2, h3, le_refl j, hinv.above j (le_refl j) h3, by omega⟩
  obtain ⟨dn, hdn, hdn', hdni, hdnr⟩ : ∃ dn, dn < j ∧ lo ≤ dn ∧ i ≤ dn ∧
      rank (entry ys dn) ≤ toUlong pivot := by
    rcases hinv.start with ⟨hi', hj', hp⟩ | ⟨h1, h2, h3⟩
    · exact ⟨lo, by omega, by omega, by omega, hp.le⟩
    · exact ⟨i, h2, h1, le_refl i, hinv.below i h1 (le_refl i)⟩
  have hij : lo - 1 ≤ i ∧ j ≤ hi + 1 := by
    rcases hinv.start with ⟨hi', hj', _⟩ | ⟨h1, h2, h3⟩ <;> omega
  refine wp_scanUp (hread'.mono (by omega) hup') (by omega) hup (by omega) hupr (by omega)
    (fun i' hi1 hi2 hskip hge => ?_)
  refine wp_scanDown (hread'.mono hdn' (by omega)) (by omega) hdn (by omega) hdnr (by omega)
    (fun j' hj1 hj2 hskip' hle => ?_)
  refine hQ i' j' (by omega) (by omega) (by omega) (by omega) hi1 hj2 (by omega) (by omega)
    (fun he => ?_) ?_ ?_ hge hle
  · have hlo' := hups he
    omega
  · intro t ht ht'
    by_cases hti : t ≤ i
    · exact hinv.below t ht hti
    · exact (hskip t (by omega) ht').le
  · intro t ht ht'
    by_cases htj : j ≤ t
    · exact hinv.above t htj ht'
    · exact (hskip' t ht (by omega)).le

theorem wp_partition {Q : List ℕ × ℤ → Machine V → Prop}
    (hread : ReadsRange d w rank xs lo hi) (hrank : ∀ s ∈ xs, rank s < 2 ^ 32)
    (hlo : 0 ≤ lo) (hlt : lo < hi) (hhi : hi < xs.length) (hfuel : xs.length + 2 ≤ fuel)
    (hQ : ∀ ys j, Partitioned rank xs lo hi ys j → Q (ys, j) w) :
    (spec d).wp (partition fuel xs lo hi) w Q := by
  have hmem : entry xs lo ∈ xs := entry_mem hlo (by omega)
  have hp : toUlong (toInt (rank (entry xs lo))) = rank (entry xs lo) :=
    toUlong_toInt (hrank _ hmem)
  unfold partition
  rw [wp_bind]
  apply wp_requestAt hlo (by omega)
  rw [wp_bind]
  apply hread lo le_rfl hlt.le
  generalize toInt (rank (entry xs lo)) = pivot at hp ⊢
  apply (spec d).wp_loop
    (fun s w' => w' = w ∧ PartitionInv rank xs lo hi (toUlong pivot) s.1 s.2.1 s.2.2)
    (fun s _ => (s.2.2 - s.2.1).toNat)
  · rintro ⟨ys, i, j⟩ w' ⟨rfl, hinv⟩
    have hlen : ys.length = xs.length := hinv.rearranged.length_eq
    simp only [wp_bind]
    apply wp_scans hread hlo hlt hhi hfuel hinv
    intro i' j' hi1 hi2 hj1 hj2 hii hjj hij' hij'' hfirst hle hge hpi hpj
    obtain ⟨hrear, hbelow, habove, hstart⟩ := hinv
    dsimp only at hii hjj hij' hij'' hstart hfirst hle hge hpi hpj hrear
    by_cases hcross : i' ≥ j'
    · simp only [hcross, if_true]
      refine hQ ys j' ⟨hrear, hj1, ?_, toUlong pivot, ?_, ?_⟩
      · rcases hstart with ⟨hs, _, _⟩ | ⟨_, _, h3⟩
        · have := hfirst hs
          omega
        · omega
      · intro t ht ht'
        rcases eq_or_lt_of_le ht' with rfl | htj
        · exact hpj
        · exact hle t ht (by omega)
      · exact fun t ht ht' => hge t (by omega) ht'
    · simp only [hcross, if_false, wp_bind]
      apply wp_swapRequests (by omega) (by omega) (by omega) (by omega)
      have hswap : Rearranged ys (swap ys i' j') lo hi :=
        Rearranged.swap hlo (by omega) hi1 hi2 hj1 hj2 (by omega)
      have hleft : entry (swap ys i' j') i' = entry ys j' :=
        entry_swap_left (by omega) (by omega) (by omega) (by omega)
      have hright : entry (swap ys i' j') j' = entry ys i' :=
        entry_swap_right (by omega) (by omega)
      refine ⟨⟨rfl, hrear.trans hlo hswap (le_refl _) (le_refl _), ?_, ?_,
        .inr ⟨hi1, ?_, hj2⟩⟩, ?_⟩
      · intro t ht ht'
        dsimp only at ht' ⊢
        rcases eq_or_lt_of_le ht' with rfl | hti
        · rw [hleft]
          exact hpj
        · rw [entry_swap_other (by omega) (by omega) (by omega) (by omega) (by omega)]
          exact hle t ht hti
      · intro t ht ht'
        dsimp only at ht ⊢
        rcases eq_or_lt_of_le ht with rfl | htj
        · rw [hright]
          exact hpi
        · rw [entry_swap_other (by omega) (by omega) (by omega) (by omega) (by omega)]
          exact hge t htj ht'
      · dsimp only
        omega
      · dsimp only
        omega
  · refine ⟨rfl, Rearranged.refl _ _ _, fun t ht ht' => ?_, fun t ht ht' => ?_, .inl ⟨rfl, rfl, ?_⟩⟩
    · simp only at ht'
      omega
    · simp only at ht
      omega
    · exact hp.symm
  · simp only
    omega

/-- The sort returns the slots in the order of their parameters. -/
theorem wp_quicksort (depth : ℕ) (xs : List ℕ) (lo hi : ℤ)
    (Q : List ℕ → Machine V → Prop) (hread : ReadsRange d w rank xs lo hi)
    (hrank : ∀ s ∈ xs, rank s < 2 ^ 32) (hlo : 0 ≤ lo) (hhi : hi < xs.length)
    (hfuel : xs.length + 2 ≤ fuel) (hdepth : hi - lo < depth) (hdepth0 : 0 < depth)
    (hQ : ∀ ys, Rearranged xs ys lo hi → SortedRange rank ys lo hi → Q ys w) :
    (spec d).wp (quicksort fuel depth xs lo hi) w Q := by
  induction depth generalizing xs lo hi Q with
  | zero => omega
  | succ depth ih =>
    unfold quicksort
    by_cases hlt : lo < hi
    · simp only [hlt, if_true, wp_bind]
      apply wp_partition hread hrank hlo hlt hhi hfuel
      intro ys j hpart
      obtain ⟨p, hle, hge⟩ := hpart.split
      have hleny := hpart.rearranged.length_eq
      have hjlo := hpart.lo_le
      have hjhi := hpart.lt_hi
      have hready := hread.rearranged hpart.rearranged
      have hranky : ∀ s ∈ ys, rank s < 2 ^ 32 :=
        fun s hs => hrank s (hpart.rearranged.perm.mem_iff.mp hs)
      refine ih ys lo j _ (hready.mono le_rfl hjhi.le) hranky hlo (by omega) (by omega) (by omega)
        (by omega) ?_
      intro zs hz hzs
      have hlenz := hz.length_eq
      have hrankz : ∀ s ∈ zs, rank s < 2 ^ 32 := fun s hs => hranky s (hz.perm.mem_iff.mp hs)
      have hreadz := hready.rearranged ((Rearranged.refl ys lo hi).trans hlo hz le_rfl hjhi.le)
      refine ih zs (j + 1) hi _ (hreadz.mono (by omega) le_rfl) hrankz (by omega) (by omega)
        (by omega)
        (by omega) (by omega) ?_
      intro us hu hus
      refine hQ us ?_ ?_
      · exact (hpart.rearranged.trans hlo hz (le_refl _) (by omega)).trans hlo hu (by omega)
          (le_refl _)
      · have hlez := hz.forall_inside (P := fun s => rank s ≤ p) hle
        refine SortedRange.append (p := p) (hzs.of_outside hlo hu (by omega)) hus ?_ ?_
        · intro t ht ht'
          rw [hu.outside t (by omega) (by omega)]
          exact hlez t ht ht'
        · apply hu.forall_inside (P := fun s => p ≤ rank s)
          intro t ht ht'
          rw [hz.outside t (by omega) (by omega)]
          exact hge t ht ht'
    · simp only [hlt, if_false]
      refine hQ xs (Rearranged.refl _ _ _) ?_
      intro a b ha hab hb
      have he : a = b := by omega
      rw [he]

/-- Sorting the whole array. -/
theorem wp_quicksort_all {Q : List ℕ → Machine V → Prop}
    (hread : ReadsRank d w rank xs) (hrank : ∀ s ∈ xs, rank s < 2 ^ 32)
    (hfuel : xs.length + 2 ≤ fuel)
    (hQ : ∀ ys, ys.Perm xs → ys.Pairwise (fun a b => rank a ≤ rank b) → Q ys w) :
    (spec d).wp (quicksort fuel fuel xs 0 ((xs.length : ℤ) - 1)) w Q := by
  refine wp_quicksort fuel xs 0 _ Q (fun t ht ht' => hread _ (entry_mem ht (by omega))) hrank
    (le_refl 0) (by omega) hfuel (by omega) (by omega) ?_
  intro ys hr hs
  refine hQ ys hr.perm ?_
  rw [← hr.length_eq] at hs
  exact hs.pairwise

end Sorting

/-! ### Sorting a range of any array -/

/-- The parameters of the slots of a range; reading any other slot is refused. -/
def parameterReader (parameter : ℕ → BitVec 32) (slots : List ℕ) : Handler Port PortRes Unit
  | .readParameter i, s => if i ∈ slots then some ((parameter i).toNat, s) else none
  | _, _ => none

section Range

variable (parameter : ℕ → BitVec 32) (before slots after : List ℕ)

theorem entry_mem_slots {t : ℤ} (hlo : before.length ≤ t)
    (hhi : t ≤ before.length + slots.length - 1) : entry (before ++ slots ++ after) t ∈ slots := by
  obtain ⟨n, rfl⟩ : ∃ n : ℕ, t = before.length + n := ⟨(t - before.length).toNat, by omega⟩
  have hn : n < slots.length := by omega
  have hget : entry (before ++ slots ++ after) (before.length + n) = slots[n] := by
    have hnat : ((before.length : ℤ) + n).toNat = before.length + n := by omega
    have hnot : ¬ before.length + n < before.length := by omega
    simp [entry, hnat, hnot, List.getElem?_append, hn]
  rw [hget]
  exact List.getElem_mem hn

theorem readsRange_parameterReader (w : Machine Unit) :
    ReadsRange (ofHandler (parameterReader parameter slots)) w
      (fun i => (parameter i).toNat) (before ++ slots ++ after) before.length
      (before.length + slots.length - 1) := by
  intro t hlo hhi Q hQ
  exact ⟨_, (), if_pos (entry_mem_slots before slots after hlo hhi), hQ⟩

/-- The sort of a range ends, reads no slot outside the range, and returns the slots of the range in
the order of their parameters. Its calls are on smaller ranges: the partition splits inside. -/
theorem run_quicksort (m : Machine Unit) :
    (∃ ys, (quicksort ((before ++ slots ++ after).length + 2)
      ((before ++ slots ++ after).length + 2)
        (before ++ slots ++ after) before.length (before.length + slots.length - 1)).run
        (handler (parameterReader parameter slots)) m = some (ys, m) ∧
      Rearranged (before ++ slots ++ after) ys before.length (before.length + slots.length - 1) ∧
      SortedRange (fun i => (parameter i).toNat) ys before.length
        (before.length + slots.length - 1)) ∧
    (1 < slots.length → ∃ ys j, (partition ((before ++ slots ++ after).length + 2)
        (before ++ slots ++ after) before.length (before.length + slots.length - 1)).run
        (handler (parameterReader parameter slots)) m = some ((ys, j), m) ∧
      Partitioned (fun i => (parameter i).toNat) (before ++ slots ++ after) before.length
        (before.length + slots.length - 1) ys j) := by
  have hread := readsRange_parameterReader parameter before slots after m
  have hrank : ∀ s ∈ before ++ slots ++ after, (parameter s).toNat < 2 ^ 32 :=
    fun s _ => (parameter s).isLt
  have hlength :
      (before ++ slots ++ after).length = before.length + slots.length + after.length := by
    simp [add_assoc]
  have hsound := spec_sound (ofHandler_sound (parameterReader parameter slots))
  constructor
  · obtain ⟨ys, m', w, hrun, ⟨hrear, hsorted, rfl⟩, hmemory, -⟩ :=
      run_of_wp _ hsound id ⟨rfl, rfl⟩
        (wp_quicksort ((before ++ slots ++ after).length + 2) _ _ _
          (fun ys w => Rearranged _ ys _ _ ∧ SortedRange _ ys _ _ ∧ w = m) hread
          hrank (by omega) (by omega) le_rfl (by omega) (by omega) (fun ys hr hs => ⟨hr, hs, rfl⟩))
    obtain rfl : m' = w := congrArg₂ Machine.mk hmemory rfl
    exact ⟨ys, hrun, hrear, hsorted⟩
  · intro hslots
    obtain ⟨⟨ys, j⟩, m', w, hrun, ⟨hpart, rfl⟩, hmemory, -⟩ :=
      run_of_wp _ hsound id ⟨rfl, rfl⟩
        (wp_partition (Q := fun r w => Partitioned _ _ _ _ r.1 r.2 ∧ w = m) hread hrank (by omega)
          (by omega) (by omega) le_rfl (fun ys j hpart => ⟨hpart, rfl⟩))
    obtain rfl : m' = w := congrArg₂ Machine.mk hmemory rfl
    exact ⟨ys, j, hrun, hpart⟩

end Range

theorem run_partition_three : ∃ ys j, (partition 5 [2, 0, 1] 0 2).run
    (handler (parameterReader (fun i => i) [2, 0, 1])) ⟨⟨fun _ _ => 0, fun _ => 0⟩, ()⟩ =
      some ((ys, j), ⟨⟨fun _ _ => 0, fun _ => 0⟩, ()⟩) ∧ 0 ≤ j ∧ j < 2 := by
  obtain ⟨ys, j, hrun, hpart⟩ := (run_quicksort (fun i => i) [] [2, 0, 1] []
    ⟨⟨fun _ _ => 0, fun _ => 0⟩, ()⟩).2 (by decide)
  exact ⟨ys, j, hrun, hpart.lo_le, hpart.lt_hi⟩

end SmcSim.LinkedListKernel
