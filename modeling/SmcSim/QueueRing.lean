import SmcSim.QueueProtocol
import Mathlib.Data.List.Nodup
import Mathlib.Data.Nat.ModEq

/-!
# The ring of partitions

The partitions from `deq_part` to `enq_part` are those that hold elements: a partition at
rest in between has been filled, one outside has been emptied. So the one that a variable
moves to is ready for its role, and the elements stored, from the head of the first to the
tail of the last, follow the services one by one.
-/

namespace SmcSim.PimQueue
open CommandHandshake Function List

/-! ### Partitions between two others -/

variable {c : Config} {d e : ℕ}

theorem nextPartition_eq (he : e < c.numPartitions) :
    nextPartition c e = if e + 1 = c.numPartitions then 0 else e + 1 := by
  unfold nextPartition
  split
  · next h => rw [h, Nat.mod_self]
  · exact Nat.mod_eq_of_lt (by omega)

theorem nextPartition_lt (he : e < c.numPartitions) : nextPartition c e < c.numPartitions :=
  Nat.mod_lt _ (by omega)

section

variable (hd : d < c.numPartitions)
include hd

theorem distance_eq (he : e < c.numPartitions) :
    (e + c.numPartitions - d) % c.numPartitions =
      if d ≤ e then e - d else e + c.numPartitions - d := by
  split
  · rw [show e + c.numPartitions - d = e - d + c.numPartitions by omega, Nat.add_mod_right]
    exact Nat.mod_eq_of_lt (by omega)
  · exact Nat.mod_eq_of_lt (by omega)

theorem nodup_partitionsFrom : (partitionsFrom c d e).Nodup := by
  have hdist : (e + c.numPartitions - d) % c.numPartitions < c.numPartitions :=
    Nat.mod_lt _ (by omega)
  refine List.Nodup.map_on (fun i hi j hj hij => ?_) nodup_range
  rw [mem_range] at hi hj
  have hmod : (d + i) % c.numPartitions = (d + j) % c.numPartitions := hij
  have hcancel : i % c.numPartitions = j % c.numPartitions := Nat.ModEq.add_left_cancel' d hmod
  rwa [Nat.mod_eq_of_lt (by omega), Nat.mod_eq_of_lt (by omega)] at hcancel

section

variable (he : e < c.numPartitions)
include he

theorem partitionsFrom_eq_append : ∃ l, partitionsFrom c d e = l ++ [e] := by
  refine ⟨(List.range ((e + c.numPartitions - d) % c.numPartitions)).map
    (fun j => (d + j) % c.numPartitions), ?_⟩
  unfold partitionsFrom
  rw [range_succ, map_append, map_singleton, distance_eq hd he]
  congr 2
  split
  · rw [show d + (e - d) = e by omega, Nat.mod_eq_of_lt he]
  · rw [show d + (e + c.numPartitions - d) = e + c.numPartitions by omega, Nat.add_mod_right,
      Nat.mod_eq_of_lt he]

theorem partitionsFrom_next_right (hne : nextPartition c e ≠ d) :
    partitionsFrom c d (nextPartition c e) = partitionsFrom c d e ++ [nextPartition c e] := by
  have hdist : (nextPartition c e + c.numPartitions - d) % c.numPartitions =
      (e + c.numPartitions - d) % c.numPartitions + 1 := by
    rw [distance_eq hd (nextPartition_lt he), distance_eq hd he]
    rw [nextPartition_eq he] at hne ⊢
    split_ifs at hne ⊢ <;> omega
  unfold partitionsFrom
  rw [hdist, range_succ, map_append, map_singleton]
  congr 2
  rw [distance_eq hd he]
  unfold nextPartition
  split
  · rw [show d + (e - d + 1) = e + 1 by omega]
  · rw [show d + (e + c.numPartitions - d + 1) = e + 1 + c.numPartitions by omega,
      Nat.add_mod_right]

theorem partitionsFrom_next_left (hne : d ≠ e) :
    partitionsFrom c d e = d :: partitionsFrom c (nextPartition c d) e := by
  have hdist : (e + c.numPartitions - d) % c.numPartitions =
      (e + c.numPartitions - nextPartition c d) % c.numPartitions + 1 := by
    rw [distance_eq (nextPartition_lt hd) he, distance_eq hd he, nextPartition_eq hd]
    split_ifs <;> omega
  unfold partitionsFrom
  rw [hdist, range_succ_eq_map, map_cons, List.map_map]
  congr 1
  · exact Nat.mod_eq_of_lt hd
  · refine map_congr_left (fun j _ => ?_)
    simp only [comp_apply, nextPartition, Nat.mod_add_mod]
    rw [Nat.succ_eq_add_one, add_assoc, add_comm 1 j]

end

theorem mem_partitionsFrom_left : d ∈ partitionsFrom c d e := by
  unfold partitionsFrom
  rw [range_succ_eq_map, map_cons, add_zero, Nat.mod_eq_of_lt hd]
  exact mem_cons_self

end

/-! ### Partitions at rest -/

theorem Session.after_role {σ : Session} {p : Pim Position Partition} :
    (σ.after p).role = σ.role := by
  unfold Session.after
  split <;> rfl

/-- A partition at rest has been filled if it lies between the two variables, and emptied
otherwise. -/
structure Ring (c : Config) (s : State) (σ : ℕ → Session) : Prop where
  parts : ∀ r, s.part r < c.numPartitions
  rests : ∀ q < c.numPartitions, (σ q).current = none →
    ((σ q).role = .enq ↔ q ∈ partitionsFrom c (s.part .deq) (s.part .enq))

variable {s : State} {σ : ℕ → Session} {t : ℕ}

theorem Coherent.apart (h : Coherent c s σ) : s.part .deq ≠ s.part .enq := by
  intro he
  have hdeq := (h.current _ .deq).mpr he
  have henq := (h.current _ .enq).mpr rfl
  rw [hdeq] at henq
  cases henq

theorem ThreadPosition.Closing.busy {th : Thread} (h : th.position.Closing) : th.Busy := by
  constructor <;> intro hpos <;> simp [hpos] at h

theorem Ring.resting_next (hring : Ring c s σ) (h : Coherent c s σ)
    (hpos : (s.threads t).position = .changePart)
    (hfree : ∀ u, ¬ Engaged s u (nextPartition c (s.threads t).currPart))
    (hapart : nextPartition c (s.threads t).currPart ≠ s.part (s.threads t).role.other) :
    σ (nextPartition c (s.threads t).currPart) = .resting (s.threads t).role.other := by
  have hok := h.threads t
  simp only [ThreadOk, hpos] at hok
  have hpart : s.part (s.threads t).role = (s.threads t).currPart :=
    (h.current _ _).mp (by rw [hok]; rfl)
  generalize hcurr : (s.threads t).currPart = q at *
  generalize hrole : (s.threads t).role = r at *
  have hq : q < c.numPartitions := hpart ▸ hring.parts r
  have hne : nextPartition c q ≠ q := by
    intro he
    exact hfree t ⟨hcurr.trans he.symm, by simp [Thread.Busy, hpos]⟩
  have hnone : (σ (nextPartition c q)).current = none := by
    refine h.current_eq_none (r := r) ?_ (hpart ▸ hne)
    intro hcurrent
    exact hapart ((h.current _ _).mp hcurrent).symm
  have hrest := hring.rests _ (nextPartition_lt hq) hnone
  cases hσ : σ (nextPartition c q) with
  | resting r' =>
    rw [hσ] at hrest
    cases r with
    | enq =>
      have hnot : nextPartition c q ∉ partitionsFrom c (s.part .deq) (s.part .enq) := by
        have hnodup := nodup_partitionsFrom (c := c) (e := nextPartition c q) (hring.parts .deq)
        rw [partitionsFrom_next_right (hring.parts .deq) hq hapart,
          nodup_append] at hnodup
        rw [hpart]
        exact fun hmem => hnodup.2.2 _ hmem _ mem_cons_self rfl
      cases r' with
      | enq => exact absurd (hrest.mp rfl) hnot
      | deq => rfl
    | deq =>
      have hmem : nextPartition c q ∈ partitionsFrom c (s.part .deq) (s.part .enq) := by
        rw [partitionsFrom_next_left (hring.parts .deq) (hring.parts .enq) h.apart, hpart]
        exact mem_cons_of_mem _ (mem_partitionsFrom_left (nextPartition_lt hq))
      rw [show r' = .enq from hrest.mpr hmem]
      rfl
  | closing r' u =>
    obtain ⟨hcurr', hclosing⟩ := h.closers _ _ _ hσ
    exact absurd ⟨hcurr', hclosing.busy⟩ (hfree u)
  | chosen | activated | commanded | serving | exhausted =>
    rw [hσ] at hnone
    cases hnone

/-- How the partitions between the variables change with one of them. -/
theorem mem_partitionsFrom_update {part : Role → ℕ} {r : Role}
    (hparts : ∀ r, part r < c.numPartitions) (hne : part .deq ≠ part .enq)
    (hnext : nextPartition c (part r) ≠ part r.other) (q : ℕ) :
    let part' := update part r (nextPartition c (part r))
    q ≠ nextPartition c (part r) →
      (q ∈ partitionsFrom c (part' .deq) (part' .enq) ↔
        if q = part r then r = .enq else q ∈ partitionsFrom c (part .deq) (part .enq)) := by
  intro part' hq
  cases r with
  | enq =>
    have hring : partitionsFrom c (part' .deq) (part' .enq) =
        partitionsFrom c (part .deq) (part .enq) ++ [nextPartition c (part .enq)] := by
      simpa [part'] using partitionsFrom_next_right (hparts .deq) (hparts .enq) hnext
    obtain ⟨l, hl⟩ := partitionsFrom_eq_append (hparts .deq) (hparts .enq)
    rw [hring]
    by_cases hpart : q = part .enq
    · simp [hpart, hl]
    · simp [hpart, hq]
  | deq =>
    have hring : partitionsFrom c (part .deq) (part .enq) =
        part .deq :: partitionsFrom c (part' .deq) (part' .enq) := by
      simpa [part'] using partitionsFrom_next_left (hparts .deq) (hparts .enq) hne
    by_cases hpart : q = part .deq
    · have hnodup := nodup_partitionsFrom (c := c) (e := part .enq) (hparts .deq)
      rw [hring, nodup_cons] at hnodup
      simp [hpart, hnodup.1]
    · simp [hring, hpart]

theorem Ring.changePart (hring : Ring c s σ) (h : Coherent c s σ) {r : Role}
    (hnext : nextPartition c (s.part r) ≠ s.part r.other)
    {s' : State} (hs' : s'.part = update s.part r (nextPartition c (s.part r))) :
    Ring c s' (update (update σ (s.part r) (.closing r t))
      (nextPartition c (s.part r)) (.chosen r t)) := by
  refine ⟨fun r' => ?_, fun q hq hnone => ?_⟩
  · rw [hs']
    by_cases hr : r' = r
    · subst hr
      rw [update_self]
      exact nextPartition_lt (hring.parts r')
    · rw [update_of_ne hr]
      exact hring.parts r'
  · by_cases hq₁ : q = nextPartition c (s.part r)
    · rw [hq₁, update_self] at hnone
      cases hnone
    · rw [hs', mem_partitionsFrom_update hring.parts h.apart hnext q hq₁]
      rw [update_of_ne hq₁] at hnone ⊢
      by_cases hq₀ : q = s.part r
      · rw [if_pos hq₀, hq₀, update_self]
        rfl
      · rw [if_neg hq₀]
        rw [update_of_ne hq₀] at hnone ⊢
        exact hring.rests q hq hnone

/-! ### Elements -/

variable {s' : State} {x : Session} {m : Partition}
variable {p p' : Pim Position Partition}

theorem content_eq_nil (h : m.headIndex = m.tailIndex) : m.content = [] := by
  simp [Partition.content, h]

private theorem content_serve_enq (hroom : Room c .enq m) (i : ℕ) :
    (m.serve i .enq).content = m.content ++ [(m.requestSlots i).parameter] := by
  simp only [Partition.content, Partition.serve, hroom.1, Nat.sub_zero]
  rw [range'_concat, map_append]
  congr 1
  · refine map_congr_left (fun j hj => ?_)
    have hj : j < m.tailIndex := by simpa using hj
    exact update_of_ne (by omega) _ _
  · simp

private theorem content_serve_deq (hroom : Room c .deq m) (i : ℕ) :
    m.content = m.currSegment m.headIndex :: (m.serve i .deq).content := by
  obtain ⟨hhead, _⟩ := hroom
  simp only [Partition.content, Partition.serve, Partition.setParameter]
  rw [show m.tailIndex - m.headIndex = m.tailIndex - (m.headIndex + 1) + 1 by omega,
    range'_succ, map_cons]

/-- The segment of a partition that a dequeue has exhausted is empty. -/
theorem Ended.empty (h : Ended c p .deq) : p.memory.content = [] := by
  obtain ⟨command, status, position, m⟩ := p
  have hclosed : ∀ {m : Partition}, Closed c .deq m → m.headIndex = m.tailIndex :=
    fun hc => hc.1.trans hc.2.symm
  refine content_eq_nil ?_
  cases position with
  | running k =>
    obtain ⟨_, hends⟩ := h
    cases k with
    | off r => exact hends.2
    | reset => exact hends.2.2
    | checkInit | checkEnq | checkDeq | checkPrint | checkOff => exact hclosed hends.2
    | _ => exact hends.elim
  | assertingBusy | assertingCommand | settingDone | awaitingNop => exact hclosed h.2.2
  | _ => exact h.elim

/-- The kernel only resets the indices of an empty segment. -/
theorem SessionOk.resets {k : Position} (h : SessionOk c x p) (hpos : p.position = .running k) :
    k ≠ .init ∧ (k = .reset → p.memory.headIndex = p.memory.tailIndex) := by
  obtain ⟨r, _, hserves⟩ | ⟨r, hends⟩ := h.running hpos
  · exact ⟨fun hk => (hk ▸ hserves).elim, fun hk => (hk ▸ hserves).elim⟩
  · refine ⟨fun hk => (hk ▸ hends).elim, fun hk => ?_⟩
    subst hk
    obtain ⟨rfl, _, hspent⟩ := hends
    exact hspent

theorem kernelStep_content {k : Position} (hserve : ∀ r i, k ≠ .serve r i) (hinit : k ≠ .init)
    (hreset : k = .reset → m.headIndex = m.tailIndex) :
    (kernelStep c k m).2.content = m.content := by
  cases k with
  | serve r i => exact absurd rfl (hserve r i)
  | init => exact absurd rfl hinit
  | reset => exact (content_eq_nil rfl).trans (content_eq_nil (hreset rfl)).symm
  | check r i =>
    simp only [kernelStep]
    split
    · split <;> rfl
    · rfl
  | writeBits r i last v =>
    simp only [kernelStep]
    split
    all_goals exact content_congr rfl rfl rfl
  | off r => cases r <;> exact content_congr rfl rfl rfl
  | _ => exact content_congr rfl rfl rfl

theorem served_eq_nil (hserve : ∀ r i, p.position ≠ .running (.serve r i)) : served p = [] := by
  unfold served
  split
  · exact absurd ‹_› (hserve _ _)
  · exact absurd ‹_› (hserve _ _)
  · rfl

/-- What a step of a PIM does to its segment, and what it logs. -/
private theorem SessionOk.step_content (h : SessionOk c x p)
    (hstep : p.step c.debugResident (executeKernel c) = some p') :
    (∃ i v, served p = [⟨.enq, i, v⟩] ∧ x = .serving .enq ∧
        p'.memory.content = p.memory.content ++ [v]) ∨
      (∃ i v, served p = [⟨.deq, i, v⟩] ∧ x = .serving .deq ∧
        p.memory.content = v :: p'.memory.content) ∨
      served p = [] ∧ p'.memory.content = p.memory.content := by
  by_cases hserves : ∃ r i, p.position = .running (.serve r i)
  · obtain ⟨r, i, hpos⟩ := hserves
    obtain ⟨hx, hroom, _⟩ := h.serving_of_serve hpos
    obtain rfl := step_serve hstep hpos
    cases r with
    | enq => exact .inl ⟨i, _, by simp [served, hpos], hx, content_serve_enq hroom i⟩
    | deq => exact .inr (.inl ⟨i, _, by simp [served, hpos], hx, content_serve_deq hroom i⟩)
  · have hserve : ∀ r i, p.position ≠ .running (.serve r i) :=
      fun r i hpos => hserves ⟨r, i, hpos⟩
    refine .inr (.inr ⟨served_eq_nil hserve, ?_⟩)
    by_cases hruns : ∃ k, p.position = .running k
    · obtain ⟨k, hpos⟩ := hruns
      obtain ⟨hinit, hreset⟩ := h.resets hpos
      rw [hpos] at hserve
      have hcontent := kernelStep_content (c := c)
        (fun r i hk => hserve r i (congrArg Resident.running hk)) hinit hreset
      cases hk : (kernelStep c k p.memory).1 with
      | none => exact step_returning hstep hpos hk ▸ hcontent
      | some k' => exact step_running hstep hpos hk ▸ hcontent
    · rw [(step_idle hstep (fun k hk => hruns ⟨k, hk⟩)).1]

def Stored (c : Config) (initial : List ℕ) (s : State) : Prop :=
  initial ++ moved s.log .enq = moved s.log .deq ++ contents c s

theorem Stored.congr {initial : List ℕ} (h : Stored c initial s) (hlog : s'.log = s.log)
    (hcontents : contents c s' = contents c s) : Stored c initial s' := by
  unfold Stored
  rw [hlog, hcontents]
  exact h

private theorem contents_of_part (hpart : s'.part = s.part) :
    contents c s' = (partitionsFrom c (s.part .deq) (s.part .enq)).flatMap
      (fun q => (s'.pims q).memory.content) := by
  unfold contents
  rw [hpart]

theorem contents_congr (hpart : s'.part = s.part)
    (hcontent : ∀ q, (s'.pims q).memory.content = (s.pims q).memory.content) :
    contents c s' = contents c s := by
  rw [contents_of_part hpart]
  exact flatMap_congr (fun q _ => hcontent q)

/-- Moving a variable leaves the elements as they are: the partition that `enq_part` moves to
and the one that `deq_part` leaves are empty. -/
theorem contents_changePart (h : Coherent c s σ) (hring : Ring c s σ) {r : Role}
    (hσ : σ (s.part r) = .exhausted r t)
    (hnext : nextPartition c (s.part r) ≠ s.part r.other)
    (hrest : σ (nextPartition c (s.part r)) = .resting r.other)
    (hs' : s'.part = update s.part r (nextPartition c (s.part r)))
    (hpims : s'.pims = s.pims) : contents c s' = contents c s := by
  unfold contents
  rw [hs', hpims]
  cases r with
  | enq =>
    have hpim := h.pims (nextPartition c (s.part .enq))
    rw [hrest] at hpim
    have hempty : (s.pims (nextPartition c (s.part .enq))).memory.content = [] :=
      content_eq_nil (hpim.2.2.1.trans hpim.2.2.2.symm)
    simp [partitionsFrom_next_right (hring.parts .deq) (hring.parts .enq) hnext, hempty]
  | deq =>
    have hpim := h.pims (s.part .deq)
    rw [hσ] at hpim
    have hempty := Ended.empty hpim.2
    simp [partitionsFrom_next_left (hring.parts .deq) (hring.parts .enq) h.apart, hempty]

theorem moved_append (log : List Service) (x : Service) (r : Role) :
    moved (log ++ [x]) r = moved log r ++ if x.role = r then [x.value] else [] := by
  by_cases hx : x.role = r <;> simp [moved, hx]

/-- A new element at the end of the last partition. -/
private theorem contents_enq {v : ℕ} (hring : Ring c s σ) (hpart : s'.part = s.part)
    (hothers : ∀ q, q ≠ s.part .enq → s'.pims q = s.pims q)
    (hcontent : (s'.pims (s.part .enq)).memory.content =
      (s.pims (s.part .enq)).memory.content ++ [v]) : contents c s' = contents c s ++ [v] := by
  obtain ⟨l, hl⟩ := partitionsFrom_eq_append (hring.parts .deq) (hring.parts .enq)
  have hnodup := nodup_partitionsFrom (c := c) (e := s.part .enq) (hring.parts .deq)
  have hsame : l.flatMap (fun q => (s'.pims q).memory.content) =
      l.flatMap (fun q => (s.pims q).memory.content) := by
    refine flatMap_congr (fun q hq => ?_)
    rw [hothers q]
    rintro rfl
    rw [hl, nodup_append] at hnodup
    exact hnodup.2.2 _ hq _ mem_cons_self rfl
  rw [contents_of_part hpart, contents, hl, flatMap_append, flatMap_append, hsame,
    flatMap_singleton, flatMap_singleton, hcontent, append_assoc]

/-- The element at the head of the first partition leaves. -/
private theorem contents_deq {v : ℕ} (h : Coherent c s σ) (hring : Ring c s σ)
    (hpart : s'.part = s.part) (hothers : ∀ q, q ≠ s.part .deq → s'.pims q = s.pims q)
    (hcontent : (s.pims (s.part .deq)).memory.content =
      v :: (s'.pims (s.part .deq)).memory.content) :
    contents c s = v :: contents c s' := by
  have hl := partitionsFrom_next_left (hring.parts .deq) (hring.parts .enq) h.apart
  have hnodup := nodup_partitionsFrom (c := c) (e := s.part .enq) (hring.parts .deq)
  have hsame : (partitionsFrom c (nextPartition c (s.part .deq)) (s.part .enq)).flatMap
      (fun q => (s'.pims q).memory.content) =
        (partitionsFrom c (nextPartition c (s.part .deq)) (s.part .enq)).flatMap
          (fun q => (s.pims q).memory.content) := by
    refine flatMap_congr (fun q hq => ?_)
    rw [hothers q]
    rintro rfl
    rw [hl, nodup_cons] at hnodup
    exact hnodup.1 hq
  rw [contents_of_part hpart, contents, hl, flatMap_cons, flatMap_cons, hsame,
    hcontent, cons_append]

theorem Stored.pim_step {initial : List ℕ} {q : ℕ} (hstored : Stored c initial s)
    (h : Coherent c s σ) (hring : Ring c s σ)
    (hstep : (s.pims q).step c.debugResident (executeKernel c) = some p) :
    Stored c initial { s.setPim q p with log := s.log ++ served (s.pims q) } := by
  generalize hs' : ({ s.setPim q p with log := s.log ++ served (s.pims q) } : State) = s'
  have hpart : s'.part = s.part := hs' ▸ rfl
  have hlog : s'.log = s.log ++ served (s.pims q) := hs' ▸ rfl
  have hsame : s'.pims q = p := hs' ▸ setPim_same
  have hothers : ∀ q', q' ≠ q → s'.pims q' = s.pims q' := fun q' hq => hs' ▸ setPim_ne hq
  rcases (h.pims q).step_content hstep with
    ⟨i, v, hserved, hσ, hcontent⟩ | ⟨i, v, hserved, hσ, hcontent⟩ | ⟨hserved, hcontent⟩
  · obtain rfl : s.part .enq = q := (h.current q .enq).mp (by rw [hσ]; rfl)
    unfold Stored at hstored ⊢
    rw [contents_enq hring hpart hothers (hsame.symm ▸ hcontent), hlog, hserved, moved_append,
      moved_append]
    simp only [reduceCtorEq, if_true, if_false, append_nil]
    rw [← append_assoc, hstored, append_assoc]
  · obtain rfl : s.part .deq = q := (h.current q .deq).mp (by rw [hσ]; rfl)
    unfold Stored at hstored ⊢
    rw [contents_deq h hring hpart hothers (hsame.symm ▸ hcontent)] at hstored
    rw [hlog, hserved, moved_append, moved_append]
    simp only [reduceCtorEq, if_true, if_false, append_nil]
    rw [hstored, append_assoc, singleton_append]
  · refine hstored.congr (by simp [hlog, hserved]) (contents_congr hpart (fun q' => ?_))
    by_cases hq : q' = q
    · rw [hq, hsame, hcontent]
    · rw [hothers q' hq]

end SmcSim.PimQueue
