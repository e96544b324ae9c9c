import SmcSim.DramAnswers

/-!
# The contents of the extra row buffer

A write invalidates the buffer when it arrives, and a read fills it when it is done. Along
every run in which no write extends into the row of the buffer from another row, and none
touches the row of a read that has been issued and is to fill the buffer, the buffer holds
what was read after the last write to its row.
-/

namespace SmcSim.Dram
open Interleavings List Option

/-- Each burst of the read that the buffer serves gets what was read after the last write to
its row. -/
def Coherent (c : Config) (s : State) (addr size : ℕ) : Prop :=
  ∀ a ∈ bursts c addr size, ServedByExtraBuf c s (addr + size) a → ∃ f ∈ s.fill,
    f.row = row c a ∧ s.lastWrite (row c a) < f.issued

instance (c : Config) (s : State) (addr size : ℕ) : Decidable (Coherent c s addr size) :=
  inferInstanceAs (Decidable (∀ a ∈ bursts c addr size, _))

def DramPacket.Fills (p : DramPacket) : Prop := p.isDummy = false ∧ p.burstHelper = none

instance (p : DramPacket) : Decidable p.Fills := inferInstanceAs (Decidable (_ ∧ _))

def Ordered (c : Config) (s : State) : Event → Prop
  | .read addr size => ∀ a ∈ bursts c addr size, row c a < 0x100000000
  | .write addr size =>
      (∀ f ∈ s.fill, s.extraAddrValid = true → Touches c addr size f.row → f.row = row c addr) ∧
      ∀ p ∈ s.respQueue, p.Fills → ¬ Touches c addr size (row c p.addr)
  | .nextRead _ | .nextWrite _ | .respond => True

instance (c : Config) (s : State) : (e : Event) → Decidable (Ordered c s e)
  | .read addr size => inferInstanceAs (Decidable (∀ a ∈ bursts c addr size, _))
  | .write _ _ => inferInstanceAs (Decidable ((∀ f ∈ s.fill, _) ∧ ∀ p ∈ s.respQueue, _))
  | .nextRead _ | .nextWrite _ | .respond => inferInstanceAs (Decidable True)

structure Timely (c : Config) (s : State) : Prop where
  buffer : c.haveExtraRowBuffer = true → s.extraAddrValid = true → ∃ f, s.fill = some f ∧
    f.row < 0x100000000 ∧ s.extraRowBufferAddr = f.row ∧ s.lastWrite f.row < f.issued
  inFlight : ∀ p ∈ s.respQueue, p.Fills → row c p.addr < 0x100000000 ∧
    s.lastWrite (row c p.addr) < p.issued
  waiting : ∀ p ∈ s.readQueue, p.Fills → row c p.addr < 0x100000000
  past : ∀ r, s.lastWrite r ≤ s.clock

section Lemmas

variable {c : Config} {s s' : State} {p : DramPacket} {addr size : ℕ}

theorem timely_initial (c : Config) : Timely c initial where
  buffer _ hvalid := by cases hvalid
  inFlight p hp := by cases hp
  waiting p hp := by cases hp
  past _ := le_refl 0

theorem alignedAddr_eq_row (h : row c addr < 0x100000000) : alignedAddr c addr = row c addr :=
  Nat.mod_eq_of_lt h

theorem Timely.coherent (h : Timely c s) (hok : Ordered c s (.read addr size)) :
    Coherent c s addr size := by
  rintro a ha ⟨-, hhave, hvalid, haligned⟩
  obtain ⟨f, hf, -, haddr, hlast⟩ := h.buffer hhave hvalid
  have hsame : f.row = row c a := by
    rw [← haddr, ← haligned, alignedAddr_eq_row (hok a ha)]
  exact ⟨f, hf, hsame, hsame ▸ hlast⟩

/-! ### Reads -/

theorem mem_readBurst {id stop count : ℕ} {l : ReadLoop}
    (hp : p ∈ (readBurst c s id stop count l).readQueue) (hnone : p.burstHelper = none) :
    p ∈ l.readQueue ∨ count ≤ 1 ∧ p.addr = l.addr := by
  unfold readBurst at hp
  dsimp only at hp
  split at hp
  · exact .inl hp
  split at hp
  · exact .inl hp
  split at hp
  · rcases mem_append.mp hp with hp | hp
    · exact .inl hp
    · obtain rfl := mem_singleton.mp hp
      cases hnone
  · next hold =>
    rcases mem_append.mp hp with hp | hp
    · exact .inl hp
    · obtain rfl := mem_singleton.mp hp
      exact .inr ⟨Nat.le_of_not_lt (fun hcount => hold ⟨hcount, hnone⟩), rfl⟩

theorem mem_readLoop {id stop count n : ℕ} {l : ReadLoop} (hcount : 1 < count)
    (hp : p ∈ (readLoop c s id stop count n l).readQueue) (hnone : p.burstHelper = none) :
    p ∈ l.readQueue := by
  induction n generalizing l with
  | zero => exact hp
  | succ n ih =>
    rcases mem_readBurst (ih hp) hnone with hold | ⟨hle, -⟩
    · exact hold
    · omega

theorem finishRead_eq {id count : ℕ} {l : ReadLoop} (h : finishRead c id addr count l s = some s') :
    ∃ queue helpers reads responses, s' =
        { s with readQueue := queue, helpers := helpers, reads := reads, responses := responses } ∧
      ∀ p ∈ queue, p ∈ l.readQueue ∨ p.isDummy = true := by
  rcases finishRead_cases h with ⟨-, rfl⟩ | ⟨-, -, ds, hs, rfl, hds, -⟩
  · exact ⟨_, _, _, _, rfl, fun p hp => .inl hp⟩
  refine ⟨_, _, _, _, rfl, fun p hp => ?_⟩
  exact (mem_append.mp hp).imp_right (fun hp => (hds p hp).1)

theorem addr_mem_bursts (hsize : 0 < size) : addr ∈ bursts c addr size := by
  have hpos : 0 < dramPktCount c addr size := dramPktCount_pos hsize
  unfold bursts
  cases hcount : dramPktCount c addr size with
  | zero => omega
  | succ n => exact mem_cons_self

section

variable (h : Timely c s)
include h

theorem Timely.read (hok : Ordered c s (.read addr size)) (hsize : 0 < size)
    (hread : addToReadQueue c addr size s = some s') : Timely c s' := by
  have hpos : 0 < dramPktCount c addr size := dramPktCount_pos hsize
  have hmem : ∀ p ∈ (readLoop c s s.reads.length (addr + size) (dramPktCount c addr size)
      (dramPktCount c addr size) ⟨addr, 0, 0, none, s.readQueue, s.helpers⟩).readQueue,
      p.burstHelper = none → p ∈ s.readQueue ∨ p.addr = addr := by
    intro p hp hnone
    rcases lt_or_ge 1 (dramPktCount c addr size) with hcount | hcount
    · exact .inl (mem_readLoop hcount hp hnone)
    · have hone : dramPktCount c addr size = 1 := by omega
      rw [hone] at hp
      rcases mem_readBurst hp hnone with hold | ⟨-, haddr⟩
      · exact .inl hold
      · exact .inr haddr
  obtain ⟨queue, helpers, reads, responses, rfl, hqueue⟩ := finishRead_eq hread
  refine ⟨h.buffer, h.inFlight, fun p hp hfills => ?_, h.past⟩
  rcases hqueue p hp with hp | hdummy
  · rcases hmem p hp hfills.2 with hold | haddr
    · exact h.waiting p hold hfills
    · rw [haddr]
      exact hok addr (addr_mem_bursts hsize)
  · rw [hfills.1] at hdummy
    cases hdummy

/-! ### Writes -/

/-- A write to the row of the buffer that starts there invalidates it. -/
theorem Timely.write (hok : Ordered c s (.write addr size)) :
    Timely c (addToWriteQueue c addr size s) := by
  obtain ⟨hrow, hflight⟩ := hok
  refine ⟨fun hhave hvalid => ?_, fun p hp hfills => ?_, h.waiting, fun r => ?_⟩
  · obtain ⟨hother, hvalid⟩ : ¬ (c.haveExtraRowBuffer = true ∧
        s.extraRowBufferAddr = alignedAddr c addr) ∧ s.extraAddrValid = true := by
      simp only [addToWriteQueue] at hvalid
      split at hvalid
      · cases hvalid
      · next hother => exact ⟨hother, hvalid⟩
    obtain ⟨f, hf, hlt, haddr, hlast⟩ := h.buffer hhave hvalid
    have hnot : ¬ Touches c addr size f.row := by
      intro htouches
      have hsame := hrow f hf hvalid htouches
      rw [hsame] at hlt haddr
      exact hother ⟨hhave, by rw [haddr, alignedAddr_eq_row hlt]⟩
    refine ⟨f, hf, hlt, haddr, ?_⟩
    change (if Touches c addr size f.row then _ else _) < _
    rwa [if_neg hnot]
  · obtain ⟨hlt, hlast⟩ := h.inFlight p hp hfills
    refine ⟨hlt, ?_⟩
    change (if Touches c addr size (row c p.addr) then _ else _) < _
    rwa [if_neg (hflight p hp hfills)]
  · change (if Touches c addr size r then s.clock + 1 else s.lastWrite r) ≤ s.clock + 1
    split
    · exact le_rfl
    · exact Nat.le_succ_of_le (h.past r)

/-! ### Completions -/

/-- A burst is issued after every write so far. -/
theorem Timely.nextRead {i : ℕ} (hstep : step c s (.nextRead i) = some s') : Timely c s' := by
  obtain ⟨p, hp, rfl⟩ := map_eq_some_iff.mp hstep
  refine ⟨h.buffer, fun q hq hfills => ?_, fun q hq hfills => ?_, fun r => ?_⟩
  · rcases mem_append.mp hq with hq | hq
    · exact h.inFlight q hq hfills
    · obtain rfl := mem_singleton.mp hq
      exact ⟨h.waiting p (mem_of_getElem? hp) hfills, Nat.lt_succ_of_le (h.past _)⟩
  · exact h.waiting q (mem_of_mem_eraseIdx hq) hfills
  · exact Nat.le_succ_of_le (h.past r)

theorem Timely.respond (hstep : processRespondEvent c s = some s') : Timely c s' := by
  obtain ⟨p, rest, hqueue, hread, hresp, -, hlast, hclock, hbuffer, -⟩ :=
    processRespondEvent_cases hstep
  refine ⟨fun hhave hvalid => ?_, fun q hq hfills => ?_, fun q hq hfills => ?_, fun r => ?_⟩
  · rw [hlast]
    rcases hbuffer with ⟨hsame, haddr, hfill⟩ | ⟨hreal, hhelper, haddr, hfill⟩
    · rw [haddr, hfill]
      exact h.buffer hhave (hsame ▸ hvalid)
    · have hp : p ∈ s.respQueue := hqueue ▸ mem_cons_self
      obtain ⟨hlt, hbefore⟩ := h.inFlight p hp ⟨hreal, hhelper⟩
      exact ⟨⟨row c p.addr, p.issued⟩, hfill, hlt, haddr.trans (alignedAddr_eq_row hlt), hbefore⟩
  · rw [hlast]
    rw [hresp] at hq
    exact h.inFlight q (hqueue ▸ mem_cons_of_mem p hq) hfills
  · rw [hread] at hq
    exact h.waiting q hq hfills
  · rw [hlast, hclock]
    exact h.past r

theorem Timely.step {e : Event} (hok : Ordered c s e) (hstep : step c s e = some s') :
    Timely c s' := by
  cases e with
  | read addr size =>
    obtain ⟨⟨hsize, -⟩, hread⟩ := ite_none_right_eq_some.mp hstep
    exact h.read hok hsize hread
  | write addr size =>
    obtain ⟨-, rfl⟩ := of_guard hstep
    exact h.write hok
  | nextRead i => exact h.nextRead hstep
  | nextWrite i =>
    obtain ⟨-, rfl⟩ := of_guard hstep
    exact ⟨h.buffer, h.inFlight, h.waiting, h.past⟩
  | respond => exact h.respond hstep

end

end Lemmas

/-- In every run whose steps are ordered, what the buffer serves to a read is up to date. -/
theorem coherent_of_ordered (c : Config) (s : State) (addr size : ℕ)
    (h : Reached (step c) (Ordered c) initial s) (hok : Ordered c s (.read addr size)) :
    Coherent c s addr size := by
  have htimely : Timely c s :=
    h.invariant (timely_initial c) (fun _ _ _ hinv hok hstep => hinv.step hok hstep)
  exact htimely.coherent hok

/-- The buffer serves a read of the first row after a write to the second. -/
theorem coherent_afterWrite :
    ∃ s, Reached (step smallController) (Ordered smallController) initial s ∧
    (∀ a ∈ bursts smallController 16 32, ServedByExtraBuf smallController s 48 a) ∧
    Coherent smallController s 16 32 := by
  have hrun : (runSchedule (guarded (step smallController) (Ordered smallController)) initial
      (fillFirstRow ++ [.write 64 16])).map (fun s => (
        decide (∀ a ∈ bursts smallController 16 32, ServedByExtraBuf smallController s 48 a),
        decide (Ordered smallController s (.read 16 32)))) = some (true, true) := by
    decide +kernel
  obtain ⟨s, hreached, hvalues⟩ := exists_of_runSchedule _ hrun
  simp only [Prod.mk.injEq, decide_eq_true_eq] at hvalues
  obtain ⟨hserved, hok⟩ := hvalues
  exact ⟨s, hreached, hserved, coherent_of_ordered smallController s 16 32 hreached hok⟩

def writeAcrossRows : List Event := [.read 64 8, .nextRead 0, .respond, .write 48 32]

/-- A write to the row that a read in flight is to fill the buffer with. -/
def writeInFlight : List Event := [.read 64 8, .nextRead 0, .write 64 16, .respond]

/-- After the run, the buffer serves the read with data that is older than the last write, or
with those of another row. -/
def ServesStale (ls : List Event) (addr size : ℕ) : Prop :=
  ∃ s, Reached (step smallController) (fun _ _ => True) initial s ∧
    runSchedule (guarded (step smallController) (fun _ _ => True)) initial ls = some s ∧
    (step smallController s (.read addr size)).isSome = true ∧
    ¬ Coherent smallController s addr size

theorem servesStale_of_run {ls : List Event} {addr size : ℕ}
    (hrun : (runSchedule (guarded (step smallController) (fun _ _ => True)) initial ls).map
      (fun s => ((step smallController s (.read addr size)).isSome,
        decide (Coherent smallController s addr size))) = some (true, false)) :
    ServesStale ls addr size := by
  obtain ⟨s, hs, hvalues⟩ := map_eq_some_iff.mp hrun
  simp only [Prod.mk.injEq, decide_eq_false_iff_not] at hvalues
  exact ⟨s, reached_of_runSchedule ls hs, hs, hvalues⟩

/-- The row numbers `0` and `2 ^ 32` agree in their lower 32 bits. -/
theorem read_not_coherent : ServesStale writeAcrossRows 80 8 ∧ ServesStale writeInFlight 80 8 ∧
    ServesStale fillFirstRow 0x4000000000 8 := by
  refine ⟨?_, ?_, ?_⟩
  · apply servesStale_of_run
    decide +kernel
  · apply servesStale_of_run
    decide +kernel
  · apply servesStale_of_run
    decide +kernel

end SmcSim.Dram
