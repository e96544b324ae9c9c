import SmcSim.DmaStreams

/-!
# Reads and writes in flight

Rules for programs that have requests in both directions in flight. What is in flight is a list of
requests, the newest first. A write takes its words from a part of the scratchpad that nothing
changes until the program has waited for it.
-/

namespace SmcSim.DmaPrograms
open EffectPrograms List

variable {Loc : Type}

structure Request (Loc : Type) where
  res : ℕ
  toSpm : Bool
  words : List (Loc × ℕ)

def World.traffic (w : World Loc) : List (Request Loc) :=
  w.flights.map (fun f => ⟨f.res, f.toSpm, f.words⟩)

/-- All memories since the requests in flight were made meet `Φ`. -/
structure Stable (Φ : (Loc → ℕ) → Prop) (w : World Loc) : Prop where
  now : Φ w.mem
  since : ∀ f ∈ w.flights, ∀ m ∈ f.since, Φ m

structure Settled (Φ : (Loc → ℕ) → Prop) (rs : List ℕ) (w w' : World Loc) : Prop where
  stable : Stable Φ w'
  traffic : w'.traffic = w.traffic.filter (fun q => q.res ∉ rs)
  kept : ∀ l, (∀ q ∈ w.traffic, q.res ∈ rs → q.toSpm = false → ∀ x ∈ q.words, x.1 ≠ l) →
    w'.mem l = w.mem l
  written : ∀ q ∈ w.traffic, q.res ∈ rs → q.toSpm = false → ∀ x ∈ q.words,
    w'.mem x.1 = ByteMemory.load w.spm x.2
  left : ∀ a, (∀ q ∈ w.traffic, q.res ∈ rs → q.toSpm = true → ∀ x ∈ q.words, Apart x.2 a) →
    ByteMemory.load w'.spm a = ByteMemory.load w.spm a
  brought : ∀ q ∈ w.traffic, q.res ∈ rs → q.toSpm = true → ∀ x ∈ q.words,
    ∃ m, Φ m ∧ ByteMemory.load w'.spm x.2 = m x.1 % 0x100000000

def Request.Beside (q : Request Loc) (toSpm : Bool) (ls : List Loc) (a res : ℕ) : Prop :=
  q.res ≠ res ∧ ∀ x ∈ q.words, (x.2 + 4 ≤ a ∨ a + 4 * ls.length ≤ x.2) ∧
    (toSpm = true ∧ q.toSpm = true ∨ x.1 ∉ ls)

variable {Φ : (Loc → ℕ) → Prop} {w : World Loc} {a res : ℕ} {toSpm : Bool} {ls : List Loc}
  {rs : List ℕ}

theorem stable_start {mem : Loc → ℕ} (h : Φ mem) (spm : ℕ → ℕ) : Stable Φ ⟨mem, spm, []⟩ :=
  ⟨h, forall_mem_nil _⟩

theorem traffic_launch :
    (w.launch (w.flight toSpm ls a res)).traffic = ⟨res, toSpm, words ls a⟩ :: w.traffic := rfl

theorem Stable.launch (h : Stable Φ w) : Stable Φ (w.launch (w.flight toSpm ls a res)) :=
  ⟨h.now, forall_mem_cons.mpr ⟨fun _ hm => mem_singleton.mp hm ▸ h.now, h.since⟩⟩

theorem avoids_of_traffic (h : ∀ q ∈ w.traffic, ∀ x ∈ q.words, Apart x.2 a) : w.Avoids a :=
  forall_mem_map.mpr (fun f hf => h ⟨f.res, f.toSpm, f.words⟩ (mem_map_of_mem hf))

theorem words_distinct (hls : ls.Nodup) : (words ls a).Pairwise (fun x y => x.1 ≠ y.1) := by
  refine pairwise_map.mp ?_
  rwa [map_fst_words]

theorem admits_of_beside (hls : ls ≠ []) (hnodup : ls.Nodup)
    (hothers : ∀ q ∈ w.traffic, q.Beside toSpm ls a res) :
    w.Admits (w.flight toSpm ls a res) := by
  refine ⟨words_ne_nil hls,
    words_pairwise.and (words_distinct hnodup) |>.imp (fun h => ⟨h.1, .inr h.2⟩),
    fun g hg => ?_⟩
  obtain ⟨hres, hplace⟩ := hothers ⟨g.res, g.toSpm, g.words⟩ (mem_map_of_mem hg)
  refine ⟨hres, fun x hx y hy => ?_⟩
  have hbounds := bounds_of_mem_words hx
  obtain ⟨happart, hlocs⟩ := hplace y hy
  refine ⟨?_, hlocs.imp_right (fun hnot heq => hnot (heq ▸ mem_of_mem_words hx))⟩
  rw [Apart]
  omega

theorem Stable.settled (h : Stable Φ w) {mem : Loc → ℕ} {spm : ℕ → ℕ} (hmem : Φ mem)
    (hlanded : Landed w rs mem spm) : Settled Φ rs w (w.land rs mem spm) := by
  refine ⟨⟨hmem, ?_⟩, ?_, fun l hl => hlanded.kept l (fun f hf => ?_), ?_, fun a ha => ?_, ?_⟩
  · exact forall_mem_map.mpr (fun f hf => forall_mem_cons.mpr
      ⟨hmem, h.since f (mem_of_mem_filter hf)⟩)
  · rw [World.traffic, World.land, map_map, World.traffic, filter_map]
    rfl
  · exact hl ⟨f.res, f.toSpm, f.words⟩ (mem_map_of_mem hf)
  · exact forall_mem_map.mpr (fun f hf => hlanded.written f hf)
  · refine ByteMemory.load_congr
      (fun i hi => hlanded.outside (a + i) (fun f hf hres hread x hx hin => ?_))
    have hapart := ha ⟨f.res, f.toSpm, f.words⟩ (mem_map_of_mem hf) hres hread x hx
    rw [Apart] at hapart
    omega
  · refine forall_mem_map.mpr (fun f hf hres hread x hx => ?_)
    obtain ⟨m, hm, hvalue⟩ := hlanded.read f hf hres hread x hx
    exact ⟨m, h.since f hf m hm, hvalue⟩

section Rules

variable [DecidableEq Loc] {R : Rules Loc}

variable {Q : Unit → World Loc → Prop}

theorem wp_dmaRead_beside (hls : ls ≠ []) (hnodup : ls.Nodup)
    (hothers : ∀ q ∈ w.traffic, q.Beside true ls a res)
    (hq : Q () (w.launch (w.flight true ls a res))) :
    R.wp (dmaRead ls a res) w Q := .inr ⟨admits_of_beside hls hnodup hothers, hq⟩

theorem wp_dmaWrite_beside (hls : ls ≠ []) (hnodup : ls.Nodup)
    (hothers : ∀ q ∈ w.traffic, q.Beside false ls a res)
    (hq : Q () (w.launch (w.flight false ls a res))) :
    R.wp (dmaWrite ls a res) w Q := .inr ⟨admits_of_beside hls hnodup hothers, hq⟩

/-- `Φ` is kept by the writes that are waited for. -/
theorem wp_dmaWait_settled (h : Stable Φ w)
    (hΦ : ∀ mem, (∀ l, (∀ q ∈ w.traffic, q.res ∈ rs → q.toSpm = false → ∀ x ∈ q.words, x.1 ≠ l) →
      mem l = w.mem l) → Φ mem)
    (hq : ∀ w', Settled Φ rs w w' → Q () w') : R.wp (dmaWait rs) w Q := by
  refine .inr (fun mem spm hlanded => hq _ (h.settled (hΦ mem (fun l hl => ?_)) hlanded))
  exact hlanded.kept l (fun f hf => hl ⟨f.res, f.toSpm, f.words⟩ (mem_map_of_mem hf))

end Rules

end SmcSim.DmaPrograms
