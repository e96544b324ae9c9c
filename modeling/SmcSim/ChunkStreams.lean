import SmcSim.DmaStreams

/-!
# Arrays read in chunks

A program goes through an array of records chunk by chunk: while it works on one chunk in the
scratchpad the next one is brought into a second buffer, and at the end of a chunk the buffers
change places. The rules say that the record at hand is a copy of the one in memory, made at some
moment since its chunk was requested.
-/

namespace SmcSim.DmaPrograms
open EffectPrograms CommandSpec List

variable {Loc F : Type}

def World.Flying (w : World Loc) (ps : List (ℕ × List (Loc × ℕ))) : Prop :=
  ∀ p, p ∈ w.inFlight ↔ p ∈ ps

/-- An array of records and the two buffers of a chunk. `wanted` says which chunks are requested, by
their first record. -/
structure ChunkStream (Loc F : Type) where
  loc : ℕ → F → Loc
  fields : List F
  count : ℕ
  res : ℕ
  wanted : ℕ → Bool
  left : ℕ
  right : ℕ
  fields_pos : 0 < fields.length
  count_pos : 0 < count

/-- The record at hand has the place `rr` in the chunk at `ping`. -/
structure Cursor where
  rr : ℕ
  ping : ℕ
  pong : ℕ

namespace ChunkStream

variable (T : ChunkStream Loc F)

def chunk (i : ℕ) : List Loc := records T.loc T.fields i T.count

def start (ping pong : ℕ) : DmaProg Loc Cursor := do
  dmaRead (T.chunk 0) pong T.res
  pure ⟨T.count, ping, pong⟩

/-- At the end of a chunk the next one is taken, and the one behind it is requested if it is
wanted. -/
def refill (r : ℕ) (k : Cursor) : DmaProg Loc Cursor :=
  if k.rr = T.count then do
    dmaWait [T.res]
    if T.wanted (r + T.count) then dmaRead (T.chunk (r + T.count)) k.ping T.res
    pure ⟨0, k.pong, k.ping⟩
  else pure k

def fieldAddr (k : Cursor) (i : ℕ) : ℕ := k.ping + 4 * (T.fields.length * k.rr + i)

/-! ### The invariant -/

def pending (r : ℕ) (k : Cursor) : List (ℕ × List (Loc × ℕ)) :=
  if T.wanted (r + (T.count - k.rr)) then
    [(T.res, words (T.chunk (r + (T.count - k.rr))) k.pong)]
  else []

/-- The word at `a` is in neither buffer. -/
def Outside (a : ℕ) : Prop :=
  (a + 4 ≤ T.left ∨ T.left + 4 * (T.count * T.fields.length) ≤ a) ∧
    (a + 4 ≤ T.right ∨ T.right + 4 * (T.count * T.fields.length) ≤ a)

/-- Record `r` is at hand; `rest` are the other requests in flight. -/
structure Streaming (Φ : (Loc → ℕ) → Prop) (rest : List (ℕ × List (Loc × ℕ))) (r : ℕ) (k : Cursor)
    (w : World Loc) : Prop where
  reading : Reading Φ w
  flying : w.Flying (T.pending r k ++ rest)
  others : ∀ p ∈ rest, p.1 ≠ T.res ∧ ∀ x ∈ p.2, T.Outside x.2
  rr_le : k.rr ≤ T.count
  apart : T.left + 4 * (T.count * T.fields.length) ≤ T.right
  buffers : k.ping = T.left ∧ k.pong = T.right ∨ k.ping = T.right ∧ k.pong = T.left
  copies : ∀ j, k.rr ≤ j → j < T.count → ∀ i f, T.fields[i]? = some f →
    ∃ m, Φ m ∧ ByteMemory.load w.spm (k.ping + 4 * (T.fields.length * j + i)) =
      m (T.loc (r + (j - k.rr)) f) % 0x100000000

end ChunkStream

variable {Φ : (Loc → ℕ) → Prop} {w w' : World Loc} {ps : List (ℕ × List (Loc × ℕ))} {f : Flight Loc}
  {rs : List ℕ}

theorem World.Flying.launch (h : w.Flying ps) : (w.launch f).Flying ((f.res, f.words) :: ps) := by
  intro p
  rw [inFlight_launch, mem_cons, mem_cons, h p]

theorem Fetched.flying (h : Fetched Φ rs w w') (hflying : w.Flying ps) :
    w'.Flying (ps.filter (fun p => p.1 ∉ rs)) := by
  intro p
  rw [h.inFlight, mem_filter, mem_filter, hflying p]

theorem World.Flying.set [DecidableEq Loc] {l : Loc} {v : ℕ} (h : w.Flying ps) :
    (w.set l v).Flying ps := by
  intro p
  rw [inFlight_set, h p]

namespace ChunkStream

section Rules

variable {T : ChunkStream Loc F} {rest rest' : List (ℕ × List (Loc × ℕ))} {r i : ℕ} {k : Cursor}
  {f : F}

theorem length_chunk (n : ℕ) : (T.chunk n).length = T.count * T.fields.length :=
  length_records T.loc T.fields n T.count

theorem chunk_ne_nil (n : ℕ) : T.chunk n ≠ [] := by
  intro hnil
  have hlength := length_chunk (T := T) n
  rw [hnil, length_nil] at hlength
  have hpos := mul_pos T.count_pos T.fields_pos
  omega

theorem mem_pending {p : ℕ × List (Loc × ℕ)} (hp : p ∈ T.pending r k) :
    p = (T.res, words (T.chunk (r + (T.count - k.rr))) k.pong) := by
  rw [pending] at hp
  split at hp
  · exact mem_singleton.mp hp
  · cases hp

/-- The place of a record that is at hand or comes later in the chunk. -/
theorem place_lt {j : ℕ} (hj : j < T.count) (hi : i < T.fields.length) :
    T.fields.length * j + i < T.count * T.fields.length := by
  have hrow : T.fields.length * (j + 1) ≤ T.fields.length * T.count := Nat.mul_le_mul_left _ hj
  rw [Nat.mul_succ] at hrow
  rw [mul_comm T.count]
  omega

section

variable (h : T.Streaming Φ rest r k w)
include h

/-- A word of the chunk at hand is not in flight. -/
theorem Streaming.avoids {a : ℕ} (hlow : k.ping ≤ a)
    (hhigh : a + 4 ≤ k.ping + 4 * (T.count * T.fields.length)) : w.Avoids a := by
  intro p hp x hx
  have hbuffers := h.buffers
  have hapart := h.apart
  rcases mem_append.mp ((h.flying p).mp hp) with hpending | hrest
  · rw [mem_pending hpending] at hx
    have hbounds := bounds_of_mem_words hx
    rw [length_chunk] at hbounds
    rw [Apart]
    omega
  · have hout := (h.others p hrest).2 x hx
    rw [Outside] at hout
    rw [Apart]
    omega

/-- Other requests and changes of the memory leave the chunk at hand. -/
theorem Streaming.congr (hreading : Reading Φ w') (hflying : w'.Flying (T.pending r k ++ rest'))
    (hothers : ∀ p ∈ rest', p.1 ≠ T.res ∧ ∀ x ∈ p.2, T.Outside x.2)
    (hspm : ∀ a, k.ping ≤ a → a + 4 ≤ k.ping + 4 * (T.count * T.fields.length) →
      ByteMemory.load w'.spm a = ByteMemory.load w.spm a) : T.Streaming Φ rest' r k w' := by
  refine ⟨hreading, hflying, hothers, h.rr_le, h.apart, h.buffers, fun j hle hj i f hf => ?_⟩
  have hplace := place_lt hj (List.getElem?_eq_some_iff.mp hf).1
  rw [hspm _ (Nat.le_add_right _ _) (by omega)]
  exact h.copies j hle hj i f hf

theorem Streaming.set [DecidableEq Loc] {l : Loc} {v : ℕ} (hΦ : Φ (Function.update w.mem l v)) :
    T.Streaming Φ rest r k (w.set l v) :=
  h.congr (h.reading.set hΦ) h.flying.set h.others (fun _ _ _ => rfl)

end

theorem pending_next (hrr : k.rr < T.count) :
    T.pending (r + 1) { k with rr := k.rr + 1 } = T.pending r k := by
  have hindex : r + 1 + (T.count - (k.rr + 1)) = r + (T.count - k.rr) := by omega
  rw [pending, pending, hindex]

section

variable (h : T.Streaming Φ rest r k w)
include h

/-- The next record of the chunk. -/
theorem Streaming.next (hrr : k.rr < T.count) :
    T.Streaming Φ rest (r + 1) { k with rr := k.rr + 1 } w := by
  refine ⟨h.reading, (pending_next hrr).symm ▸ h.flying, h.others, hrr, h.apart, h.buffers,
    fun j hle hj i f hf => ?_⟩
  have hrecord : r + 1 + (j - (k.rr + 1)) = r + (j - k.rr) := by
    change k.rr + 1 ≤ j at hle
    omega
  rw [hrecord]
  exact h.copies j (Nat.le_of_succ_le hle) hj i f hf

/-- Another request, beside the buffers. -/
theorem Streaming.launch {ls : List Loc} {a res : ℕ} (hres : res ≠ T.res)
    (hout : ∀ x ∈ words ls a, T.Outside x.2) :
    T.Streaming Φ ((res, words ls a) :: rest) r k (w.launch (w.flight true ls a res)) := by
  refine h.congr h.reading.launch (fun p => ?_)
    (forall_mem_cons.mpr ⟨⟨hres, hout⟩, h.others⟩) (fun _ _ _ => rfl)
  rw [h.flying.launch p, mem_append, mem_cons, mem_append, mem_cons]
  exact or_left_comm

/-- Other requests are complete. -/
theorem Streaming.landed (hw' : Fetched Φ rs w w') (hres : T.res ∉ rs) :
    T.Streaming Φ (rest.filter (fun p => p.1 ∉ rs)) r k w' := by
  have hpending : (T.pending r k).filter (fun p => p.1 ∉ rs) = T.pending r k := by
    refine filter_eq_self.mpr (fun p hp => decide_eq_true ?_)
    rw [mem_pending hp]
    exact hres
  refine h.congr hw'.reading ?_ (fun p hp => h.others p (mem_of_mem_filter hp))
    (fun a hlow hhigh => ?_)
  · have hflying := hw'.flying h.flying
    rwa [filter_append, hpending] at hflying
  · refine hw'.kept a (fun p hp hmem x hx => ?_)
    rcases mem_append.mp ((h.flying p).mp hp) with hp' | hrest
    · rw [mem_pending hp'] at hmem
      exact absurd hmem hres
    · have hout := (h.others p hrest).2 x hx
      have hbuffers := h.buffers
      rw [Outside] at hout
      rw [Apart]
      omega

end

theorem outside_of_buffers {ping pong a : ℕ}
    (hbuffers : ping = T.left ∧ pong = T.right ∨ ping = T.right ∧ pong = T.left)
    (hout : T.Outside a) {n : ℕ} : a + 4 ≤ pong ∨ pong + 4 * (T.chunk n).length ≤ a := by
  rw [length_chunk]
  rcases hbuffers with ⟨-, rfl⟩ | ⟨-, rfl⟩
  · exact hout.2
  · exact hout.1

/-- When the next chunk is complete it is in the other buffer and nothing else has changed. -/
theorem Streaming.fetched (h : T.Streaming Φ rest r k w) (hend : k.rr = T.count)
    (hwanted : T.wanted r = true) (hw' : Fetched Φ [T.res] w w') :
    w'.Flying rest ∧
      (∀ j < T.count, ∀ i f, T.fields[i]? = some f →
        ∃ m, Φ m ∧ ByteMemory.load w'.spm (k.pong + 4 * (T.fields.length * j + i)) =
          m (T.loc (r + j) f) % 0x100000000) ∧
      ∀ a, T.Outside a → ByteMemory.load w'.spm a = ByteMemory.load w.spm a := by
  have hpending : T.pending r k = [(T.res, words (T.chunk r) k.pong)] := by
    rw [pending, hend, Nat.sub_self, add_zero, if_pos hwanted]
  have hflying := h.flying
  rw [hpending] at hflying
  refine ⟨fun p => ?_, fun j hj i f hf => ?_, fun a ha => hw'.kept a (fun p hp hres x hx => ?_)⟩
  · rw [hw'.flying hflying p, mem_filter, singleton_append, mem_cons, decide_eq_true_eq,
      mem_singleton]
    constructor
    · rintro ⟨rfl | hrest, hres⟩
      · exact absurd rfl hres
      · exact hrest
    · exact fun hrest => ⟨.inr hrest, (h.others p hrest).1⟩
  · exact hw'.word _ ((hflying _).mpr mem_cons_self) (mem_singleton.mpr rfl) _
      (mem_words_records hj hf)
  · rcases mem_cons.mp ((hflying p).mp hp) with rfl | hrest
    · have hbounds := bounds_of_mem_words hx
      rcases outside_of_buffers h.buffers ha (n := r) with hle | hle
      · exact .inr (le_trans hle hbounds.1)
      · exact .inl (le_trans hbounds.2 hle)
    · exact absurd (mem_singleton.mp hres) (h.others p hrest).1

end Rules

/-! ### Two streams -/

variable {G : Type} {T : ChunkStream Loc F} {U : ChunkStream Loc G}
  {rest : List (ℕ × List (Loc × ℕ))} {r c a : ℕ} {k k' : Cursor}

/-- The buffers of `T` are below those of `U`, and the resources differ. -/
structure Below (T : ChunkStream Loc F) (U : ChunkStream Loc G) : Prop where
  res : T.res ≠ U.res
  lower : T.left + 4 * (T.count * T.fields.length) ≤ T.right
  upper : U.left + 4 * (U.count * U.fields.length) ≤ U.right
  between : T.right + 4 * (T.count * T.fields.length) ≤ U.left

theorem Below.pending_outside (h : Below T U)
    (hbuffers : k.ping = T.left ∧ k.pong = T.right ∨ k.ping = T.right ∧ k.pong = T.left) :
    ∀ p ∈ T.pending r k, p.1 ≠ U.res ∧ ∀ x ∈ p.2, U.Outside x.2 := by
  intro p hp
  rw [mem_pending hp]
  refine ⟨h.res, fun x hx => ?_⟩
  have hbounds := bounds_of_mem_words hx
  have hlower := h.lower
  have hupper := h.upper
  have hbetween := h.between
  rw [length_chunk] at hbounds
  rw [Outside]
  omega

theorem Below.outside_pending (h : Below T U)
    (hbuffers : k.ping = U.left ∧ k.pong = U.right ∨ k.ping = U.right ∧ k.pong = U.left) :
    ∀ p ∈ U.pending r k, p.1 ≠ T.res ∧ ∀ x ∈ p.2, T.Outside x.2 := by
  intro p hp
  rw [mem_pending hp]
  refine ⟨h.res.symm, fun x hx => ?_⟩
  have hbounds := bounds_of_mem_words hx
  have hlower := h.lower
  have hupper := h.upper
  have hbetween := h.between
  rw [Outside]
  omega

/-- A step of the upper stream leaves the lower one. -/
theorem Streaming.beside (h : T.Streaming Φ rest r k w) (hbelow : Below T U)
    (hU : U.Streaming Φ (T.pending r k) c k' w')
    (hkept : ∀ a, U.Outside a → ByteMemory.load w'.spm a = ByteMemory.load w.spm a) :
    T.Streaming Φ (U.pending c k') r k w' := by
  refine h.congr hU.reading (fun p => ?_) (hbelow.outside_pending hU.buffers)
    (fun a hlow hhigh => ?_)
  · rw [hU.flying p, mem_append, mem_append, or_comm]
  · refine hkept a ?_
    have hbuffers := h.buffers
    have hlower := hbelow.lower
    have hupper := hbelow.upper
    have hbetween := hbelow.between
    rw [Outside]
    omega

section Wp

variable [DecidableEq Loc] {R : Rules Loc} {i : ℕ} {f : F}

theorem wp_start {ping pong : ℕ} (hapart : T.left + 4 * (T.count * T.fields.length) ≤ T.right)
    (hreading : Reading Φ w) (hflying : w.Flying rest)
    (hothers : ∀ p ∈ rest, p.1 ≠ T.res ∧ ∀ x ∈ p.2, T.Outside x.2)
    (hbuffers : ping = T.left ∧ pong = T.right ∨ ping = T.right ∧ pong = T.left)
    (hwanted : T.wanted 0 = true) :
    R.wp (T.start ping pong) w (fun k w' =>
      T.Streaming Φ rest 0 k w' ∧ k = ⟨T.count, ping, pong⟩ ∧ w'.mem = w.mem ∧ w'.spm = w.spm) := by
  refine wp_seq (wp_dmaRead hreading (chunk_ne_nil 0) (fun p hp => ?_) ?_)
  · obtain ⟨hres, hout⟩ := hothers p ((hflying p).mp hp)
    exact ⟨hres, fun x hx => outside_of_buffers hbuffers (hout x hx)⟩
  · refine ⟨⟨hreading.launch, ?_, hothers, le_rfl, hapart, hbuffers, fun j hle hj => ?_⟩,
      rfl, rfl, rfl⟩
    · rw [pending, Nat.sub_self, add_zero, if_pos hwanted]
      exact hflying.launch
    · exact absurd hj (Nat.not_lt_of_le hle)

theorem wp_refill (h : T.Streaming Φ rest r k w) (hwanted : T.wanted r = true) :
    R.wp (T.refill r k) w (fun k' w' =>
      T.Streaming Φ rest r k' w' ∧ k'.rr < T.count ∧ w'.mem = w.mem ∧
        ∀ a, T.Outside a → ByteMemory.load w'.spm a = ByteMemory.load w.spm a) := by
  rw [refill]
  by_cases hend : k.rr = T.count
  · rw [if_pos hend]
    refine wp_seq (wp_dmaWait h.reading (fun w' hw' => ?_))
    obtain ⟨hflying, hcopies, hkept⟩ := h.fetched hend hwanted hw'
    have hstreaming : ∀ w'', Reading Φ w'' → w''.spm = w'.spm →
        w''.Flying (T.pending r ⟨0, k.pong, k.ping⟩ ++ rest) →
        T.Streaming Φ rest r ⟨0, k.pong, k.ping⟩ w'' := by
      intro w'' hreading hspm hflying''
      refine ⟨hreading, hflying'', h.others, Nat.zero_le _, h.apart,
        h.buffers.symm.imp And.symm And.symm, fun j _ hj i f hf => ?_⟩
      rw [hspm]
      exact hcopies j hj i f hf
    by_cases hnext : T.wanted (r + T.count) = true
    · rw [if_pos hnext]
      refine wp_seq (wp_dmaRead hw'.reading (chunk_ne_nil _) (fun p hp => ?_) ?_)
      · obtain ⟨hres, hout⟩ := h.others p ((hflying p).mp hp)
        exact ⟨hres, fun x hx => outside_of_buffers (h.buffers.symm.imp And.symm And.symm)
          (hout x hx)⟩
      · refine ⟨hstreaming _ hw'.reading.launch rfl ?_, T.count_pos, hw'.mem, hkept⟩
        rw [pending, Nat.sub_zero, if_pos hnext]
        exact hflying.launch
    · rw [if_neg hnext]
      refine ⟨hstreaming _ hw'.reading rfl ?_, T.count_pos, hw'.mem, hkept⟩
      rw [pending, Nat.sub_zero, if_neg hnext]
      exact hflying
  · rw [if_neg hend]
    exact ⟨h, lt_of_le_of_ne h.rr_le hend, rfl, fun _ _ => rfl⟩

theorem wp_field {Q : ℕ → World Loc → Prop} (h : T.Streaming Φ rest r k w) (hrr : k.rr < T.count)
    (hf : T.fields[i]? = some f)
    (hq : ∀ m, Φ m → R.copies (T.loc r f) (m (T.loc r f) % 0x100000000) (w.mem (T.loc r f)) →
      Q (m (T.loc r f) % 0x100000000) w) :
    R.wp (loadCopy (T.fieldAddr k i) (T.loc r f)) w Q := by
  have hplace := place_lt hrr (List.getElem?_eq_some_iff.mp hf).1
  obtain ⟨m, hm, hvalue⟩ := h.copies k.rr (le_rfl) hrr i f hf
  rw [Nat.sub_self, add_zero] at hvalue
  refine wp_loadCopy h.reading (h.avoids (Nat.le_add_right _ _) (by rw [fieldAddr]; omega)) ?_
  rw [fieldAddr, hvalue]
  exact hq m hm

end Wp

end ChunkStream

end SmcSim.DmaPrograms
