import Mathlib.Algebra.Order.Ring.Nat
import Mathlib.Data.List.Chain
import Mathlib.Tactic.Ring

/-!
# The bridge of a serial link

`Bridge` of gem5 with `serialization_enable`: a packet is delayed by the cycles in which
its bits pass the lanes of the link, and departs behind the packet before it.
-/

namespace SmcSim.SerialBridge
open List

/-- The parameters of the bridge and of its clock domain, with `delay` in cycles. -/
structure Config where
  clockPeriod : ℕ
  clockPeriod_pos : 0 < clockPeriod
  delay : ℕ
  serializationUnit : ℕ
  serializationUnit_pos : 0 < serializationUnit

variable (c : Config)

/-- The tick `cycles` after the first clock edge that is not before `now`. -/
def clockEdge (now cycles : ℕ) : ℕ :=
  (now + c.clockPeriod - 1) / c.clockPeriod * c.clockPeriod + c.clockPeriod * cycles

/-- The tick that a packet of `size` bytes gets when it arrives. -/
def serialTick (prevSerialTick now size : ℕ) : ℕ :=
  let t := clockEdge c now (size * 8 / c.serializationUnit + c.delay)
  if prevSerialTick ≥ t then prevSerialTick + 1 else t

/-! ### The bandwidth of one direction -/

/-- A packet on the link: the tick of its departure and its bits. -/
structure Departure where
  tick : ℕ
  bits : ℕ

/-- The departures of the packets that arrive, each given by its tick and its size. -/
def departures (prevSerialTick : ℕ) : List (ℕ × ℕ) → List Departure
  | [] => []
  | (now, size) :: arrivals =>
      ⟨serialTick c prevSerialTick now size, size * 8⟩ ::
        departures (serialTick c prevSerialTick now size) arrivals

/-- The cycles in which the bits of `y` pass the lanes lie between the departures. -/
def Apart (x y : Departure) : Prop :=
  c.serializationUnit * x.tick + y.bits * c.clockPeriod ≤ c.serializationUnit * y.tick

/-- The departures from tick `start` on, for `length` ticks. -/
def window (ds : List Departure) (start length : ℕ) : List Departure :=
  ds.filter (fun d => start ≤ d.tick ∧ d.tick ≤ start + length)

/-- One packet at a time, and in no window more bits than the lanes carry in it and those
of the packet that departs first. -/
def OneAtATime (ds : List Departure) : Prop :=
  ds.IsChain (Apart c) ∧ ∀ start length,
    ((window ds start length).map Departure.bits).sum * c.clockPeriod ≤
      c.serializationUnit * length + ((window ds start length).head?.elim 0 Departure.bits) *
        c.clockPeriod

/-- The packet is shorter than a tick, or what is left of its bits behind the last full
cycle has passed the lanes in the time from the previous departure to the clock edge and
the delay of the bridge. -/
def Clear (prevSerialTick now size : ℕ) : Prop :=
  size * 8 * c.clockPeriod ≤ c.serializationUnit ∨
    c.serializationUnit * prevSerialTick + size * 8 % c.serializationUnit * c.clockPeriod ≤
      c.serializationUnit * clockEdge c now c.delay

/-- Every packet finds the link clear. -/
def AllClear (prevSerialTick : ℕ) : List (ℕ × ℕ) → Prop
  | [] => True
  | (now, size) :: arrivals => Clear c prevSerialTick now size ∧
      AllClear (serialTick c prevSerialTick now size) arrivals

theorem apart_serialTick_iff (prev now size b : ℕ) :
    Apart c ⟨prev, b⟩ ⟨serialTick c prev now size, size * 8⟩ ↔ Clear c prev now size := by
  have hpos := c.clockPeriod_pos
  have hunit := c.serializationUnit_pos
  -- the clock edge of the packet is that of the delay, and the full cycles of its bits
  have hedge : c.serializationUnit * clockEdge c now (size * 8 / c.serializationUnit + c.delay) +
      size * 8 % c.serializationUnit * c.clockPeriod =
      c.serializationUnit * clockEdge c now c.delay + size * 8 * c.clockPeriod := by
    conv_rhs => rw [← Nat.div_add_mod (size * 8) c.serializationUnit]
    unfold clockEdge
    ring
  simp only [Apart, Clear, serialTick]
  split
  · next hprev =>
    have hle := Nat.mul_le_mul_left c.serializationUnit hprev
    rw [mul_add, mul_one]
    omega
  · next hprev =>
    have hle := Nat.mul_le_mul_left c.serializationUnit (Nat.succ_le_of_lt (Nat.lt_of_not_le hprev))
    rw [Nat.mul_succ] at hle
    omega

theorem isChain_departures_iff (arrivals : List (ℕ × ℕ)) (prev b : ℕ) :
    (⟨prev, b⟩ :: departures c prev arrivals).IsChain (Apart c) ↔ AllClear c prev arrivals := by
  induction arrivals generalizing prev b with
  | nil => simp [departures, AllClear]
  | cons a arrivals ih =>
    rw [departures, isChain_cons_cons, apart_serialTick_iff, ih]
    rfl

instance : Trans (Apart c) (Apart c) (Apart c) where
  trans := by
    intro x y z hxy hyz
    unfold Apart at *
    omega

theorem sum_bits_le (first : Departure) (ds : List Departure) (last : ℕ)
    (hds : (first :: ds).Pairwise (Apart c)) (hlast : ∀ d ∈ first :: ds, d.tick ≤ last) :
    c.serializationUnit * first.tick + (ds.map Departure.bits).sum * c.clockPeriod ≤
      c.serializationUnit * last := by
  induction ds generalizing first with
  | nil => simpa using Nat.mul_le_mul_left c.serializationUnit (hlast first mem_cons_self)
  | cons d ds ih =>
    obtain ⟨hfirst, hrest⟩ := pairwise_cons.mp hds
    have hapart : Apart c first d := hfirst d mem_cons_self
    have hsum := ih d hrest (fun x hx => hlast x (mem_cons_of_mem _ hx))
    unfold Apart at hapart
    rw [map_cons, sum_cons, add_mul]
    omega

theorem oneAtATime_of_isChain {ds : List Departure} (hds : ds.IsChain (Apart c)) :
    OneAtATime c ds := by
  refine ⟨hds, fun start length => ?_⟩
  have hpair : (window ds start length).Pairwise (Apart c) := hds.pairwise.filter _
  have hmem : ∀ d ∈ window ds start length, start ≤ d.tick ∧ d.tick ≤ start + length := by
    simp [window]
  cases hw : window ds start length with
  | nil => simp
  | cons first rest =>
    rw [hw] at hpair hmem
    have hsum := sum_bits_le c first rest (start + length) hpair (fun d hd => (hmem d hd).2)
    have hstart := Nat.mul_le_mul_left c.serializationUnit (hmem first mem_cons_self).1
    rw [mul_add] at hsum
    simp only [map_cons, sum_cons, head?_cons, Option.elim_some, add_mul]
    omega

/-- Every packet behind the first one finds the link clear. -/
def LinkClear : List (ℕ × ℕ) → Prop
  | [] => True
  | (now, size) :: arrivals => AllClear c (serialTick c 0 now size) arrivals

/-- The order of the ticks alone leaves no time for the bits of a packet that finds the
link busy. -/
theorem oneAtATime_departures_iff (arrivals : List (ℕ × ℕ)) :
    OneAtATime c (departures c 0 arrivals) ↔ LinkClear c arrivals := by
  cases arrivals with
  | nil => exact ⟨fun _ => trivial, fun _ => oneAtATime_of_isChain c .nil⟩
  | cons a arrivals =>
    change _ ↔ AllClear c (serialTick c 0 a.1 a.2) arrivals
    rw [← isChain_departures_iff c arrivals _ (a.2 * 8)]
    exact ⟨fun h => h.1, oneAtATime_of_isChain c⟩

/-- A link of 16 lanes with a clock period of 100 ticks. -/
def sixteenLanes : Config where
  clockPeriod := 100
  clockPeriod_pos := Nat.succ_pos _
  delay := 8
  serializationUnit := 16
  serializationUnit_pos := Nat.succ_pos _

/-- Two packets of 64 bytes at one tick need 32 cycles each, and depart a tick apart. -/
theorem not_oneAtATime_burst :
    ¬ OneAtATime sixteenLanes (departures sixteenLanes 0 [(0, 64), (0, 64)]) := by
  intro h
  have hchain := h.1
  simp [departures, serialTick, clockEdge, Apart, sixteenLanes] at hchain

end SmcSim.SerialBridge
