import SmcSim.DmaLogic

/-!
# Programs that read ahead

Rules for programs whose requests only read. What they need of a world is the memory, the words of
the scratchpad and the requests in flight with their places; of the memories since a request was
made they need that all meet one property `Φ`, for instance that the data that is not written is in
its place.
-/

namespace SmcSim.DmaPrograms
open EffectPrograms List Function

variable {Loc α : Type}

/-! ### Words of a request -/

variable {ls ls' : List Loc} {a i : ℕ} {l : Loc} {x : Loc × ℕ}

theorem words_append : words (ls ++ ls') a = words ls a ++ words ls' (a + 4 * ls.length) := by
  induction ls generalizing a with
  | nil => rfl
  | cons l ls ih =>
    have haddr : a + 4 + 4 * ls.length = a + 4 * (l :: ls).length := by
      rw [length_cons]
      omega
    rw [cons_append, words, ih, haddr]
    rfl

theorem mem_words (h : ls[i]? = some l) : (l, a + 4 * i) ∈ words ls a := by
  induction ls generalizing a i with
  | nil => cases h
  | cons l' ls ih =>
    cases i with
    | zero =>
      obtain rfl : l' = l := Option.some.inj h
      exact mem_cons_self
    | succ i =>
      have haddr : a + 4 * (i + 1) = a + 4 + 4 * i := by omega
      rw [haddr]
      exact mem_cons_of_mem _ (ih h)

theorem bounds_of_mem_words (h : x ∈ words ls a) : a ≤ x.2 ∧ x.2 + 4 ≤ a + 4 * ls.length := by
  induction ls generalizing a with
  | nil => cases h
  | cons l ls ih =>
    rw [length_cons]
    rcases mem_cons.mp h with rfl | hrest
    · exact ⟨le_refl a, by change a + 4 ≤ _; omega⟩
    · have hbounds := ih hrest
      omega

theorem mem_of_mem_words (h : x ∈ words ls a) : x.1 ∈ ls := by
  have hfst := List.mem_map_of_mem (f := Prod.fst) h
  rwa [map_fst_words] at hfst

theorem words_pairwise : (words ls a).Pairwise (fun x y => Apart x.2 y.2) := by
  induction ls generalizing a with
  | nil => exact .nil
  | cons l ls ih =>
    exact pairwise_cons.mpr ⟨fun y hy => .inl (bounds_of_mem_words hy).1, ih⟩

theorem words_ne_nil (h : ls ≠ []) : words ls a ≠ [] := by
  cases ls with
  | nil => exact absurd rfl h
  | cons l ls => exact cons_ne_nil _ _

/-! ### Arrays of records -/

section Records

variable {F : Type} (loc : ℕ → F → Loc) (fields : List F)

/-- The words of `count` records from record `i` on. -/
def records (i count : ℕ) : List Loc := (List.range' i count).flatMap (fun i => fields.map (loc i))

theorem length_records (i count : ℕ) :
    (records loc fields i count).length = count * fields.length := by
  simp [records, length_flatMap]

theorem records_succ (i count : ℕ) :
    records loc fields i (count + 1) = fields.map (loc i) ++ records loc fields (i + 1) count := by
  rw [records, range'_succ, flatMap_cons]
  rfl

variable {loc fields}

theorem mem_words_records {j k count : ℕ} {f : F} (hj : j < count) (hk : fields[k]? = some f) :
    (loc (i + j) f, a + 4 * (fields.length * j + k)) ∈ words (records loc fields i count) a := by
  induction count generalizing i j a with
  | zero => cases hj
  | succ count ih =>
    rw [records_succ, words_append, length_map]
    cases j with
    | zero =>
      refine mem_append_left _ ?_
      rw [mul_zero, zero_add]
      exact mem_words (by rw [getElem?_map, hk]; rfl)
    | succ j =>
      refine mem_append_right _ ?_
      have haddr : a + 4 * (fields.length * (j + 1) + k) =
          a + 4 * fields.length + 4 * (fields.length * j + k) := by
        rw [Nat.mul_succ]
        omega
      have hrecord : i + (j + 1) = i + 1 + j := by omega
      rw [haddr, hrecord]
      exact ih (Nat.lt_of_succ_lt_succ hj)

end Records

/-- One field of every record, which is at `loc`. -/
def World.field (w : World Loc) (loc : ℕ → Loc) (i : ℕ) : ℕ := w.mem (loc i)

theorem World.field_set [DecidableEq Loc] {loc : ℕ → Loc} (hloc : loc.Injective) (w : World Loc)
    (i v : ℕ) : (w.set (loc i) v).field loc = update (w.field loc) i v :=
  update_comp_eq_of_injective w.mem hloc i v

theorem World.field_congr {w w' : World Loc} (h : w'.mem = w.mem) (loc : ℕ → Loc) :
    w'.field loc = w.field loc := by
  unfold World.field
  rw [h]

/-! ### Reading worlds -/

/-- Only reads are in flight, and all memories since they were requested meet `Φ`. -/
structure Reading (Φ : (Loc → ℕ) → Prop) (w : World Loc) : Prop where
  now : Φ w.mem
  reads : ∀ f ∈ w.flights, f.toSpm = true
  since : ∀ f ∈ w.flights, ∀ m ∈ f.since, Φ m

def World.inFlight (w : World Loc) : List (ℕ × List (Loc × ℕ)) :=
  w.flights.map (fun f => (f.res, f.words))

/-- No request in flight uses the word at `a`. -/
def World.Avoids (w : World Loc) (a : ℕ) : Prop := ∀ p ∈ w.inFlight, ∀ x ∈ p.2, Apart x.2 a

structure Fetched (Φ : (Loc → ℕ) → Prop) (rs : List ℕ) (w w' : World Loc) : Prop where
  mem : w'.mem = w.mem
  reading : Reading Φ w'
  inFlight : w'.inFlight = w.inFlight.filter (fun p => p.1 ∉ rs)
  kept : ∀ a, (∀ p ∈ w.inFlight, p.1 ∈ rs → ∀ x ∈ p.2, Apart x.2 a) →
    ByteMemory.load w'.spm a = ByteMemory.load w.spm a
  word : ∀ p ∈ w.inFlight, p.1 ∈ rs → ∀ x ∈ p.2,
    ∃ m, Φ m ∧ ByteMemory.load w'.spm x.2 = m x.1 % 0x100000000

section Reading

variable {Φ : (Loc → ℕ) → Prop} {w : World Loc} {v res : ℕ} {rs : List ℕ}

theorem reading_start {mem : Loc → ℕ} (h : Φ mem) (spm : ℕ → ℕ) : Reading Φ ⟨mem, spm, []⟩ :=
  ⟨h, forall_mem_nil _, forall_mem_nil _⟩

theorem Reading.free (h : Reading Φ w) (l : Loc) : w.Free l := by
  intro f hf hwrite
  rw [h.reads f hf] at hwrite
  cases hwrite

theorem World.Avoids.idle (h : w.Avoids a) : w.Idle a := fun f hf x hx =>
  h (f.res, f.words) (List.mem_map_of_mem hf) x hx

theorem World.Avoids.clear (h : w.Avoids a) : w.Clear a := fun f hf _ x hx => h.idle f hf x hx

@[simp] theorem inFlight_launch (f : Flight Loc) :
    (w.launch f).inFlight = (f.res, f.words) :: w.inFlight := rfl

section Set

variable [DecidableEq Loc]

@[simp] theorem inFlight_set : (w.set l v).inFlight = w.inFlight := by
  rw [World.inFlight, World.set, List.map_map]
  rfl

@[simp] theorem mem_set : (w.set l v).mem = update w.mem l v := rfl

theorem Reading.set (h : Reading Φ w) (hΦ : Φ (update w.mem l v)) : Reading Φ (w.set l v) :=
  ⟨hΦ, List.forall_mem_map.mpr h.reads,
    List.forall_mem_map.mpr (fun f hf => forall_mem_cons.mpr ⟨hΦ, h.since f hf⟩)⟩

end Set

theorem Reading.launch (h : Reading Φ w) :
    Reading Φ (w.launch (w.flight true ls a res)) :=
  ⟨h.now, forall_mem_cons.mpr ⟨rfl, h.reads⟩,
    forall_mem_cons.mpr ⟨fun _ hm => mem_singleton.mp hm ▸ h.now, h.since⟩⟩

theorem admits_read (h : Reading Φ w) (hls : ls ≠ [])
    (hothers : ∀ p ∈ w.inFlight, p.1 ≠ res ∧ ∀ x ∈ p.2, x.2 + 4 ≤ a ∨ a + 4 * ls.length ≤ x.2) :
    w.Admits (w.flight true ls a res) := by
  refine ⟨words_ne_nil hls, words_pairwise.imp (fun hapart => ⟨hapart, .inl rfl⟩), fun g hg => ?_⟩
  obtain ⟨hres, hplace⟩ := hothers (g.res, g.words) (List.mem_map_of_mem hg)
  refine ⟨hres, fun x hx y hy => ⟨?_, .inl ⟨rfl, h.reads g hg⟩⟩⟩
  have hbounds := bounds_of_mem_words hx
  rcases hplace y hy with hle | hle
  · exact .inr (le_trans hle hbounds.1)
  · exact .inl (le_trans hbounds.2 hle)

theorem Reading.fetched (h : Reading Φ w) {mem : Loc → ℕ} {spm : ℕ → ℕ}
    (hlanded : Landed w rs mem spm) : Fetched Φ rs w (w.land rs mem spm) := by
  have hmem : mem = w.mem := funext (fun l => hlanded.kept l (fun f hf _ => h.free l f hf))
  have hflights : ∀ f ∈ w.flights.filter (fun f => f.res ∉ rs), f ∈ w.flights :=
    fun f hf => mem_of_mem_filter hf
  refine ⟨hmem, ⟨hmem ▸ h.now, ?_, ?_⟩, ?_, fun a ha => ?_, ?_⟩
  · exact List.forall_mem_map.mpr (fun f hf => h.reads f (hflights f hf))
  · exact List.forall_mem_map.mpr (fun f hf =>
      forall_mem_cons.mpr ⟨hmem ▸ h.now, h.since f (hflights f hf)⟩)
  · rw [World.inFlight, World.land, List.map_map, World.inFlight, List.filter_map]
    rfl
  · refine ByteMemory.load_congr
      (fun i hi => hlanded.outside (a + i) (fun f hf hres _ x hx hin => ?_))
    rcases ha (f.res, f.words) (List.mem_map_of_mem hf) hres x hx with hle | hle
    · omega
    · omega
  · refine List.forall_mem_map.mpr (fun f hf hres x hx => ?_)
    obtain ⟨m, hm, hvalue⟩ := hlanded.read f hf hres (h.reads f hf) x hx
    exact ⟨m, h.since f hf m hm, hvalue⟩

end Reading

/-! ### Rules -/

section Rules

variable [DecidableEq Loc] {Φ : (Loc → ℕ) → Prop} {R : Rules Loc}
  {w : World Loc} {v res : ℕ} {rs : List ℕ}

variable {Q : ℕ → World Loc → Prop} {Q : Unit → World Loc → Prop}

theorem wp_load {Q : ℕ → World Loc → Prop} (h : Reading Φ w) (hq : Q (w.mem l) w) :
    R.wp (load l) w Q := .inr ⟨h.free l, hq⟩

theorem wp_store (h : Reading Φ w) (hq : Q () (w.set l v)) :
    R.wp (store l v) w Q := .inr ⟨h.free l, hq⟩

theorem wp_modify {f : ℕ → ℕ} (h : Reading Φ w)
    (hq : Q () (w.set l (f (w.mem l)))) : R.wp (modify l f) w Q :=
  .inr ⟨h.free l, hq⟩

theorem wp_loadSpm {Q : ℕ → World Loc → Prop} (h : w.Avoids a)
    (hq : Q (ByteMemory.load w.spm a) w) : R.wp (loadSpm a) w Q :=
  .inr (.inl ⟨h.clear, hq⟩)

/-- A word of which nothing is known. -/
theorem wp_loadSpm_any {Q : ℕ → World Loc → Prop} (hq : ∀ v, Q v w) :
    R.wp (loadSpm a) w Q := .inr (.inr hq)

theorem wp_loadCopy {Q : ℕ → World Loc → Prop} (hreading : Reading Φ w) (h : w.Avoids a)
    (hq : R.copies l (ByteMemory.load w.spm a) (w.mem l) → Q (ByteMemory.load w.spm a) w) :
    R.wp (loadCopy a l) w Q :=
  .inr ⟨hreading.free l, .inl ⟨h.clear, hq⟩⟩

theorem wp_storeSpm
    (h : R.escape (.storeSpm a v) ∨ w.Avoids a ∧
      Q () { w with spm := ByteMemory.store w.spm a v }) :
    R.wp (storeSpm a v) w Q :=
  h.imp_right (fun ⟨havoids, hq⟩ => ⟨havoids.idle, hq⟩)

theorem wp_dmaRead (h : Reading Φ w) (hls : ls ≠ [])
    (hothers : ∀ p ∈ w.inFlight, p.1 ≠ res ∧ ∀ x ∈ p.2, x.2 + 4 ≤ a ∨ a + 4 * ls.length ≤ x.2)
    (hq : Q () (w.launch (w.flight true ls a res))) :
    R.wp (dmaRead ls a res) w Q := .inr ⟨admits_read h hls hothers, hq⟩

theorem wp_dmaWait (h : Reading Φ w)
    (hq : ∀ w', Fetched Φ rs w w' → Q () w') : R.wp (dmaWait rs) w Q :=
  .inr (fun _ _ hlanded => hq _ (h.fetched hlanded))

end Rules

end SmcSim.DmaPrograms
