import SmcSim.DmaPrograms
import Mathlib.Algebra.Order.Ring.Nat
import Mathlib.Data.List.Forall2

/-!
# A logic for programs beside a DMA engine

What a program may rely on is a world: the memory and the scratchpad as far as no request is moving
them, and the requests in flight, each with the memories since it was made. The commands have
weakest preconditions over worlds, and a program that meets them runs to its end, or to a command
that the specification lets escape, in every interleaving with the engine.
-/

namespace SmcSim.DmaPrograms
open EffectPrograms Interleavings Function List Option

variable {Loc α : Type}

/-! ### Worlds -/

structure Flight (Loc : Type) where
  res : ℕ
  toSpm : Bool
  words : List (Loc × ℕ)
  since : List (Loc → ℕ)

structure World (Loc : Type) where
  mem : Loc → ℕ
  spm : ℕ → ℕ
  flights : List (Flight Loc)

def Apart (a b : ℕ) : Prop := a + 4 ≤ b ∨ b + 4 ≤ a

/-- Two requests use different words, except that both may read one location. -/
def Separate (f g : Flight Loc) : Prop :=
  ∀ x ∈ f.words, ∀ y ∈ g.words, Apart x.2 y.2 ∧ (f.toSpm = true ∧ g.toSpm = true ∨ x.1 ≠ y.1)

def Flight.Plain (f : Flight Loc) : Prop :=
  f.words.Pairwise (fun x y => Apart x.2 y.2 ∧ (f.toSpm = true ∨ x.1 ≠ y.1))

def World.Clear (w : World Loc) (a : ℕ) : Prop :=
  ∀ f ∈ w.flights, f.toSpm = true → ∀ x ∈ f.words, Apart x.2 a

def World.Idle (w : World Loc) (a : ℕ) : Prop := ∀ f ∈ w.flights, ∀ x ∈ f.words, Apart x.2 a

def World.Free (w : World Loc) (l : Loc) : Prop :=
  ∀ f ∈ w.flights, f.toSpm = false → ∀ x ∈ f.words, x.1 ≠ l

def Flight.observe (mem : Loc → ℕ) (f : Flight Loc) : Flight Loc :=
  { f with since := mem :: f.since }

def World.set [DecidableEq Loc] (w : World Loc) (l : Loc) (v : ℕ) : World Loc :=
  { w with
    mem := update w.mem l v
    flights := w.flights.map (Flight.observe (update w.mem l v)) }

def World.Admits (w : World Loc) (f : Flight Loc) : Prop :=
  f.words ≠ [] ∧ f.Plain ∧ ∀ g ∈ w.flights, g.res ≠ f.res ∧ Separate f g

def World.launch (w : World Loc) (f : Flight Loc) : World Loc :=
  { w with flights := f :: w.flights }

/-- The memory and the scratchpad when the requests for some resources are complete. -/
structure Landed (w : World Loc) (rs : List ℕ) (mem : Loc → ℕ) (spm : ℕ → ℕ) : Prop where
  outside : ∀ b, (∀ f ∈ w.flights, f.res ∈ rs → f.toSpm = true → ∀ x ∈ f.words,
    ¬ (x.2 ≤ b ∧ b < x.2 + 4)) → spm b = w.spm b
  read : ∀ f ∈ w.flights, f.res ∈ rs → f.toSpm = true → ∀ x ∈ f.words,
    ∃ m ∈ f.since, ByteMemory.load spm x.2 = m x.1 % 0x100000000
  kept : ∀ l, (∀ f ∈ w.flights, f.res ∈ rs → f.toSpm = false → ∀ x ∈ f.words, x.1 ≠ l) →
    mem l = w.mem l
  written : ∀ f ∈ w.flights, f.res ∈ rs → f.toSpm = false → ∀ x ∈ f.words,
    mem x.1 = ByteMemory.load w.spm x.2

def World.land (w : World Loc) (rs : List ℕ) (mem : Loc → ℕ) (spm : ℕ → ℕ) : World Loc :=
  ⟨mem, spm, (w.flights.filter (fun f => f.res ∉ rs)).map (Flight.observe mem)⟩

/-! ### Preconditions -/

def World.flight (w : World Loc) (toSpm : Bool) (ls : List Loc) (a res : ℕ) : Flight Loc :=
  ⟨res, toSpm, words ls a, [w.mem]⟩

/-- What is read from bytes that a request is still bringing is not known. `C` is assumed of a
copy. -/
def Pre [DecidableEq Loc] (C : Loc → ℕ → ℕ → Prop) :
    (o : Op Loc) → World Loc → (Res o → World Loc → Prop) → Prop
  | .load l, w, Q => w.Free l ∧ Q (w.mem l) w
  | .store l v, w, Q => w.Free l ∧ Q () (w.set l v)
  | .modify l f, w, Q => w.Free l ∧ Q () (w.set l (f (w.mem l)))
  | .loadSpm a, w, Q => (w.Clear a ∧ Q (ByteMemory.load w.spm a) w) ∨ ∀ r, Q r w
  | .loadCopy a l, w, Q => w.Free l ∧
      (w.Clear a ∧ (C l (ByteMemory.load w.spm a) (w.mem l) → Q (ByteMemory.load w.spm a) w) ∨
        ∀ r, C l r (w.mem l) → Q r w)
  | .storeSpm a v, w, Q => w.Idle a ∧ Q () { w with spm := ByteMemory.store w.spm a v }
  | .dmaRead ls a res, w, Q =>
      w.Admits (w.flight true ls a res) ∧ Q () (w.launch (w.flight true ls a res))
  | .dmaWrite ls a res, w, Q =>
      w.Admits (w.flight false ls a res) ∧ Q () (w.launch (w.flight false ls a res))
  | .dmaWait rs, w, Q => ∀ mem spm, Landed w rs mem spm → Q () (w.land rs mem spm)

theorem Pre.mono [DecidableEq Loc] {C : Loc → ℕ → ℕ → Prop} (o : Op Loc) (w : World Loc)
    (Q Q' : Res o → World Loc → Prop) (hQ : ∀ r w', Q r w' → Q' r w') (h : Pre C o w Q) :
    Pre C o w Q' := by
  cases o with
  | load | store | modify | storeSpm | dmaRead | dmaWrite => exact ⟨h.1, hQ _ _ h.2⟩
  | loadSpm a =>
    rcases h with ⟨hclear, hq⟩ | hall
    · exact .inl ⟨hclear, hQ _ _ hq⟩
    · exact .inr (fun r => hQ _ _ (hall r))
  | loadCopy a l =>
    obtain ⟨hfree, ⟨hclear, hq⟩ | hall⟩ := h
    · exact ⟨hfree, .inl ⟨hclear, fun hc => hQ _ _ (hq hc)⟩⟩
    · exact ⟨hfree, .inr (fun r hc => hQ _ _ (hall r hc))⟩
  | dmaWait rs => exact fun mem spm hlanded => hQ _ _ (h mem spm hlanded)

/-- The commands in `escape` end what is specified of a run, and `copies` is what the runs assume of
a copy and the word that it was made of. -/
structure Rules (Loc : Type) where
  escape : Op Loc → Prop
  copies : Loc → ℕ → ℕ → Prop

def Rules.plain : Rules Loc := ⟨fun _ => False, fun _ _ _ => True⟩

def dmaSpec [DecidableEq Loc] (R : Rules Loc) : CommandSpec (Op Loc) Res (World Loc) where
  pre o w Q := R.escape o ∨ Pre R.copies o w Q
  mono o w Q Q' hQ h := h.imp_right (Pre.mono o w Q Q' hQ)
  onStuck := False

abbrev Rules.wp [DecidableEq Loc] (R : Rules Loc) (p : DmaProg Loc α) (w : World Loc)
    (Q : α → World Loc → Prop) : Prop := (dmaSpec R).wp p w Q

/-! ### States and worlds -/

structure Carries (s : State Loc) (w : World Loc) (t : Transfer Loc) (f : Flight Loc) : Prop where
  res : t.res = f.res
  toSpm : t.toSpm = f.toSpm
  left : t.left.Sublist f.words
  brought : f.toSpm = true → ∀ x ∈ f.words, x ∉ t.left →
    ∃ m ∈ f.since, ByteMemory.load s.spm x.2 = m x.1 % 0x100000000
  taken : f.toSpm = false → ∀ x ∈ f.words, x ∉ t.left → s.mem x.1 = ByteMemory.load w.spm x.2

structure Rel (s : State Loc) (w : World Loc) : Prop where
  mem : ∀ l, w.Free l → s.mem l = w.mem l
  spm : ∀ b, (∀ f ∈ w.flights, f.toSpm = true → ∀ x ∈ f.words, ¬ (x.2 ≤ b ∧ b < x.2 + 4)) →
    s.spm b = w.spm b
  carried : List.Forall₂ (Carries s w) s.transfers w.flights
  separate : w.flights.Pairwise Separate
  plain : ∀ f ∈ w.flights, f.Plain
  current : ∀ f ∈ w.flights, w.mem ∈ f.since
  logged : ∀ f ∈ w.flights, f.words.map Prod.fst ∈ s.requested

variable {s : State Loc} {w : World Loc} {f g : Flight Loc} {x y : Loc × ℕ} {a b : ℕ}

theorem Apart.symm (h : Apart a b) : Apart b a := Or.symm h

theorem Separate.symm (h : Separate f g) : Separate g f := fun x hx y hy =>
  ⟨(h y hy x hx).1.symm, (h y hy x hx).2.imp And.symm Ne.symm⟩

theorem rel_start (mem : Loc → ℕ) (spm : ℕ → ℕ) (requested : List (List Loc)) :
    Rel ⟨mem, spm, [], requested⟩ ⟨mem, spm, []⟩ :=
  ⟨fun _ _ => rfl, fun _ _ => rfl, .nil, .nil, forall_mem_nil _,
    forall_mem_nil _, forall_mem_nil _⟩

theorem Rel.separate_of_ne (h : Rel s w) {i k : ℕ} (hf : w.flights[i]? = some f)
    (hg : w.flights[k]? = some g) (hik : i ≠ k) : Separate f g := by
  obtain ⟨hi, rfl⟩ := List.getElem?_eq_some_iff.mp hf
  obtain ⟨hk, rfl⟩ := List.getElem?_eq_some_iff.mp hg
  rcases Nat.lt_or_gt_of_ne hik with hlt | hlt
  · exact pairwise_iff_getElem.mp h.separate i k hi hk hlt
  · exact (pairwise_iff_getElem.mp h.separate k i hk hi hlt).symm

/-- Requests of different directions are different requests. -/
theorem Rel.separate_of_toSpm (h : Rel s w) (hf : f ∈ w.flights) (hg : g ∈ w.flights)
    (hne : f.toSpm ≠ g.toSpm) : Separate f g := by
  obtain ⟨i, hi⟩ := mem_iff_getElem?.mp hf
  obtain ⟨k, hk⟩ := mem_iff_getElem?.mp hg
  refine h.separate_of_ne hi hk ?_
  rintro rfl
  exact hne (congrArg Flight.toSpm (some.inj (hi.symm.trans hk)))

/-- What a request reads no request writes. -/
theorem Rel.free_of_read (h : Rel s w) (hf : f ∈ w.flights) (hread : f.toSpm = true)
    (hx : x ∈ f.words) : w.Free x.1 := by
  intro g hg hwrite y hy
  have hsep := h.separate_of_toSpm hg hf (by rw [hread, hwrite]; decide)
  rcases (hsep y hy x hx).2 with ⟨hread', -⟩ | hne
  · rw [hwrite] at hread'
    cases hread'
  · exact hne

/-- Bytes that no request brings have their values. -/
theorem Rel.load_of_clear (h : Rel s w) (hclear : w.Clear a) :
    ByteMemory.load s.spm a = ByteMemory.load w.spm a := by
  refine ByteMemory.load_congr (fun i hi => h.spm (a + i) (fun f hf hread x hx hin => ?_))
  rcases hclear f hf hread x hx with hle | hle
  · omega
  · omega

theorem Rel.clear_of_write (h : Rel s w) (hf : f ∈ w.flights) (hwrite : f.toSpm = false)
    (hx : x ∈ f.words) : w.Clear x.2 := by
  intro g hg hread y hy
  have hsep := h.separate_of_toSpm hg hf (by rw [hread, hwrite]; decide)
  exact (hsep y hy x hx).1

theorem Flight.Plain.apart (h : f.Plain) (hx : x ∈ f.words) (hy : y ∈ f.words) (hne : x ≠ y) :
    Apart x.2 y.2 ∧ (f.toSpm = true ∨ x.1 ≠ y.1) := by
  obtain ⟨i, hi, rfl⟩ := mem_iff_getElem.mp hx
  obtain ⟨k, hk, rfl⟩ := mem_iff_getElem.mp hy
  rcases lt_trichotomy i k with hlt | rfl | hlt
  · exact pairwise_iff_getElem.mp h i k hi hk hlt
  · exact absurd rfl hne
  · obtain ⟨hapart, hor⟩ := pairwise_iff_getElem.mp h k i hk hi hlt
    exact ⟨hapart.symm, hor.imp_right Ne.symm⟩

/-! ### The engine keeps the world -/

section Copy

variable [DecidableEq Loc] {s' : State Loc} {t : Transfer Loc} {i j : ℕ}

theorem copy_cases (h : s.copy i j = some s') :
    ∃ t x, s.transfers[i]? = some t ∧ t.left[j]? = some x ∧
      s'.transfers = s.transfers.set i { t with left := t.left.eraseIdx j } ∧
      s'.requested = s.requested ∧
      (t.toSpm = true ∧ s'.mem = s.mem ∧ s'.spm = ByteMemory.store s.spm x.2 (s.mem x.1) ∨
        t.toSpm = false ∧ s'.spm = s.spm ∧
          s'.mem = update s.mem x.1 (ByteMemory.load s.spm x.2)) := by
  obtain ⟨t, ht, h⟩ := bind_eq_some_iff.mp h
  obtain ⟨x, hx, rfl⟩ := map_eq_some_iff.mp h
  refine ⟨t, x, ht, hx, rfl, ?_⟩
  cases hdir : t.toSpm with
  | true => exact ⟨rfl, .inl ⟨rfl, rfl, rfl⟩⟩
  | false => exact ⟨rfl, .inr ⟨rfl, rfl, rfl⟩⟩

omit [DecidableEq Loc] in
/-- The other requests are not concerned with a word that is moved. -/
theorem Carries.of_separate (h : Carries s w t g) (hsep : Separate f g) (hx : x ∈ f.words)
    (hspm : ∀ a, Apart x.2 a → ByteMemory.load s'.spm a = ByteMemory.load s.spm a)
    (hmem : ∀ l, (f.toSpm = true ∨ x.1 ≠ l) → s'.mem l = s.mem l) : Carries s' w t g := by
  refine ⟨h.res, h.toSpm, h.left, fun hread y hy hmoved => ?_, fun hwrite y hy hmoved => ?_⟩
  · rw [hspm y.2 (hsep x hx y hy).1]
    exact h.brought hread y hy hmoved
  · rw [hmem y.1 ((hsep x hx y hy).2.imp_left And.left)]
    exact h.taken hwrite y hy hmoved

/-- The request to which a word belongs has one word less to move. -/
theorem Carries.erase (h : Carries s w t f) (hplain : f.Plain) (hx : t.left[j]? = some x)
    (hspm : ∀ a, Apart x.2 a → ByteMemory.load s'.spm a = ByteMemory.load s.spm a)
    (hmem : ∀ l, (f.toSpm = true ∨ x.1 ≠ l) → s'.mem l = s.mem l)
    (hread : f.toSpm = true → ∃ m ∈ f.since, ByteMemory.load s'.spm x.2 = m x.1 % 0x100000000)
    (hwrite : f.toSpm = false → s'.mem x.1 = ByteMemory.load w.spm x.2) :
    Carries s' w { t with left := t.left.eraseIdx j } f := by
  have hmem_x : x ∈ f.words := h.left.subset (mem_of_getElem? hx)
  -- A word that is moved now is the one at `j`, or had been moved.
  have hmoved : ∀ y, y ∉ t.left.eraseIdx j → y ≠ x → y ∉ t.left := by
    intro y hy hne hmem_y
    refine hy (mem_eraseIdx_iff_getElem?.mpr ?_)
    obtain ⟨k, hk⟩ := mem_iff_getElem?.mp hmem_y
    refine ⟨k, ?_, hk⟩
    rintro rfl
    exact hne (some.inj (hk.symm.trans hx))
  refine ⟨h.res, h.toSpm, (eraseIdx_sublist _ _).trans h.left, fun hdir y hy hnot => ?_,
    fun hdir y hy hnot => ?_⟩
  · by_cases hyx : y = x
    · rw [hyx]
      exact hread hdir
    · rw [hspm y.2 (hplain.apart hmem_x hy (Ne.symm hyx)).1]
      exact h.brought hdir y hy (hmoved y hnot hyx)
  · by_cases hyx : y = x
    · rw [hyx]
      exact hwrite hdir
    · rw [hmem y.1 (hplain.apart hmem_x hy (Ne.symm hyx)).2]
      exact h.taken hdir y hy (hmoved y hnot hyx)

omit [DecidableEq Loc] in
theorem Rel.carried_set (h : Rel s w) (hf : w.flights[i]? = some f) (hx : x ∈ f.words)
    (hspm : ∀ a, Apart x.2 a → ByteMemory.load s'.spm a = ByteMemory.load s.spm a)
    (hmem : ∀ l, (f.toSpm = true ∨ x.1 ≠ l) → s'.mem l = s.mem l) {t' : Transfer Loc}
    (ht' : Carries s' w t' f) : List.Forall₂ (Carries s' w) (s.transfers.set i t') w.flights := by
  obtain ⟨hlength, hget⟩ := forall₂_iff_get.mp h.carried
  refine forall₂_iff_get.mpr ⟨by rw [length_set, hlength], fun k hk₁ hk₂ => ?_⟩
  rw [length_set] at hk₁
  simp only [get_eq_getElem, getElem_set]
  by_cases hik : i = k
  · subst hik
    rw [if_pos rfl]
    obtain ⟨_, hf'⟩ := List.getElem?_eq_some_iff.mp hf
    rw [hf']
    exact ht'
  · rw [if_neg hik]
    have hsep := h.separate_of_ne hf (getElem?_eq_getElem hk₂) hik
    exact (hget k hk₁ hk₂).of_separate hsep hx hspm hmem

omit [DecidableEq Loc] in
theorem Rel.flight_of_transfer (h : Rel s w) (ht : s.transfers[i]? = some t) :
    ∃ f, w.flights[i]? = some f ∧ Carries s w t f := by
  obtain ⟨hlength, hget⟩ := forall₂_iff_get.mp h.carried
  obtain ⟨hi, rfl⟩ := List.getElem?_eq_some_iff.mp ht
  have hi' : i < w.flights.length := hlength ▸ hi
  exact ⟨w.flights[i], getElem?_eq_getElem hi', hget i hi hi'⟩

/-- A word that the engine moves leaves the world as it is. -/
theorem Rel.copy (h : Rel s w) (hcopy : s.copy i j = some s') : Rel s' w := by
  obtain ⟨t, x, ht, hx, htransfers, hrequested, hcases⟩ := copy_cases hcopy
  obtain ⟨f, hf, hcarries⟩ := h.flight_of_transfer ht
  have hfmem : f ∈ w.flights := mem_of_getElem? hf
  have hxmem : x ∈ f.words := hcarries.left.subset (mem_of_getElem? hx)
  have hplain := h.plain f hfmem
  have hlogged : ∀ f ∈ w.flights, f.words.map Prod.fst ∈ s'.requested := hrequested ▸ h.logged
  rcases hcases with ⟨hdir, hmem', hspm'⟩ | ⟨hdir, hspm', hmem'⟩
  · have hread : f.toSpm = true := hcarries.toSpm ▸ hdir
    have hspm : ∀ a, Apart x.2 a → ByteMemory.load s'.spm a = ByteMemory.load s.spm a := by
      intro a ha
      rw [hspm']
      exact ByteMemory.load_store_of_disjoint ha.symm
    have hmem : ∀ l, (f.toSpm = true ∨ x.1 ≠ l) → s'.mem l = s.mem l := fun l _ => by rw [hmem']
    refine ⟨fun l hl => by rw [hmem']; exact h.mem l hl, fun b hb => ?_, ?_, h.separate, h.plain,
      h.current, hlogged⟩
    · rw [hspm', ByteMemory.store_of_outside, h.spm b hb]
      have hout := hb f hfmem hread x hxmem
      omega
    · rw [htransfers]
      refine h.carried_set hf hxmem hspm hmem (hcarries.erase hplain hx hspm hmem (fun _ => ?_)
        (fun hwrite => ?_))
      · refine ⟨w.mem, h.current f hfmem, ?_⟩
        rw [hspm', ByteMemory.load_store, h.mem x.1 (h.free_of_read hfmem hread hxmem)]
      · rw [hread] at hwrite
        cases hwrite
  · have hwrite : f.toSpm = false := hcarries.toSpm ▸ hdir
    have hspm : ∀ a, Apart x.2 a → ByteMemory.load s'.spm a = ByteMemory.load s.spm a :=
      fun a _ => by
      rw [hspm']
    have hmem : ∀ l, (f.toSpm = true ∨ x.1 ≠ l) → s'.mem l = s.mem l := by
      rintro l (hread | hne)
      · rw [hwrite] at hread
        cases hread
      · rw [hmem']
        exact update_of_ne (Ne.symm hne) _ _
    refine ⟨fun l hl => ?_, fun b hb => by rw [hspm']; exact h.spm b hb, ?_, h.separate, h.plain,
      h.current, hlogged⟩
    · rw [hmem l (.inr (hl f hfmem hwrite x hxmem))]
      exact h.mem l hl
    · rw [htransfers]
      refine h.carried_set hf hxmem hspm hmem (hcarries.erase hplain hx hspm hmem (fun hread => ?_)
        (fun _ => ?_))
      · rw [hwrite] at hread
        cases hread
      · rw [hmem', update_self]
        exact h.load_of_clear (h.clear_of_write hfmem hwrite hxmem)

end Copy

/-! ### Commands keep the relation -/

variable {l : Loc} {v : ℕ}

theorem forall₂_imp_of_mem {β γ : Type} {R S : β → γ → Prop} {xs : List β} {ys : List γ}
    (h : List.Forall₂ R xs ys) (hRS : ∀ x, ∀ y ∈ ys, R x y → S x y) : List.Forall₂ S xs ys := by
  induction h with
  | nil => exact .nil
  | cons hxy _ ih =>
    exact .cons (hRS _ _ mem_cons_self hxy) (ih (fun x y hy => hRS x y (mem_cons_of_mem _ hy)))

theorem free_map_observe {mem : Loc → ℕ} {spm : ℕ → ℕ} {fs : List (Flight Loc)} {m : Loc → ℕ} :
    (World.mk mem spm (fs.map (Flight.observe m))).Free l ↔ (World.mk mem spm fs).Free l := by
  simp only [World.Free, List.forall_mem_map]
  rfl

theorem Rel.observe (h : Rel s w) {mem mem' : Loc → ℕ}
    (hmem : ∀ l, w.Free l → mem l = mem' l)
    (hkept : ∀ f ∈ w.flights, f.toSpm = false → ∀ x ∈ f.words, mem x.1 = s.mem x.1) :
    Rel { s with mem := mem }
      { w with mem := mem', flights := w.flights.map (Flight.observe mem') } := by
  refine ⟨fun l hl => hmem l (free_map_observe.mp hl), fun b hb => ?_, ?_, ?_, ?_, ?_, ?_⟩
  · exact h.spm b (fun f hf => hb (f.observe mem') (List.mem_map_of_mem hf))
  · refine forall₂_map_right_iff.mpr (forall₂_imp_of_mem h.carried (fun t f hf hc => ?_))
    refine ⟨hc.res, hc.toSpm, hc.left, fun hread x hx hmoved => ?_, fun hwrite x hx hmoved => ?_⟩
    · obtain ⟨m, hm, hvalue⟩ := hc.brought hread x hx hmoved
      exact ⟨m, mem_cons_of_mem _ hm, hvalue⟩
    · exact (hkept f hf hwrite x hx).trans (hc.taken hwrite x hx hmoved)
  · exact pairwise_map.mpr h.separate
  · exact List.forall_mem_map.mpr h.plain
  · exact List.forall_mem_map.mpr (fun f _ => mem_cons_self)
  · exact List.forall_mem_map.mpr h.logged

theorem Rel.set [DecidableEq Loc] (h : Rel s w) (hfree : w.Free l) (v : ℕ) :
    Rel { s with mem := update s.mem l v } (w.set l v) := by
  refine h.observe (fun l' hl' => ?_) (fun f hf hwrite x hx => ?_)
  · by_cases hll : l' = l
    · rw [hll, update_self, update_self]
    · rw [update_of_ne hll, update_of_ne hll, h.mem l' hl']
  · exact update_of_ne (hfree f hf hwrite x hx) _ _

theorem Rel.storeSpm (h : Rel s w) (hidle : w.Idle a) (v : ℕ) :
    Rel { s with spm := ByteMemory.store s.spm a v }
      { w with spm := ByteMemory.store w.spm a v } := by
  refine ⟨h.mem, fun b hb => ?_, forall₂_imp_of_mem h.carried (fun t f hf hc => ?_), h.separate,
    h.plain, h.current, h.logged⟩
  · have hold := h.spm b hb
    change ByteMemory.store s.spm a v b = ByteMemory.store w.spm a v b
    by_cases hin : a ≤ b ∧ b < a + 4
    · rw [ByteMemory.store, ByteMemory.store, if_pos hin, if_pos hin]
    · rw [ByteMemory.store, ByteMemory.store, if_neg hin, if_neg hin, hold]
  · refine ⟨hc.res, hc.toSpm, hc.left, fun hread x hx hmoved => ?_, fun hwrite x hx hmoved => ?_⟩
    · rw [ByteMemory.load_store_of_disjoint (hidle f hf x hx)]
      exact hc.brought hread x hx hmoved
    · rw [ByteMemory.load_store_of_disjoint (hidle f hf x hx)]
      exact hc.taken hwrite x hx hmoved

theorem Rel.transfer_mem (h : Rel s w) {t : Transfer Loc} (ht : t ∈ s.transfers) :
    ∃ f ∈ w.flights, Carries s w t f := by
  obtain ⟨i, hi⟩ := mem_iff_getElem?.mp ht
  obtain ⟨f, hf, hc⟩ := h.flight_of_transfer hi
  exact ⟨f, mem_of_getElem? hf, hc⟩

theorem map_fst_words (ls : List Loc) (a : ℕ) : (words ls a).map Prod.fst = ls := by
  induction ls generalizing a with
  | nil => rfl
  | cons l ls ih => rw [words, map_cons, ih]

theorem Rel.request (h : Rel s w) {toSpm : Bool} {ls : List Loc} {res : ℕ}
    (hadmits : w.Admits (w.flight toSpm ls a res)) :
    ∃ s', s.request toSpm ls a res = .answer () s' ∧
      Rel s' (w.launch (w.flight toSpm ls a res)) := by
  obtain ⟨hwords, hplain, hothers⟩ := hadmits
  have hres : ∀ t ∈ s.transfers, t.res ≠ res := by
    intro t ht
    obtain ⟨f, hf, hc⟩ := h.transfer_mem ht
    rw [hc.res]
    exact (hothers f hf).1
  have hne : ls.isEmpty = false := by
    cases ls with
    | nil => exact absurd rfl hwords
    | cons l ls => rfl
  have hidle : ¬ s.Busy res := fun ⟨t, ht, hteq, _⟩ => hres t ht hteq
  have hfilter : s.transfers.filter (fun t => t.res ≠ res) = s.transfers :=
    filter_eq_self.mpr (fun t ht => decide_eq_true (hres t ht))
  refine ⟨_, if_neg (by simp [hne, hidle]), ?_⟩
  rw [hfilter]
  refine ⟨fun l hl => h.mem l (fun f hf => hl f (mem_cons_of_mem _ hf)), fun b hb => ?_, ?_, ?_,
    ?_, ?_, ?_⟩
  · exact h.spm b (fun f hf => hb f (mem_cons_of_mem _ hf))
  · refine .cons ⟨rfl, rfl, List.Sublist.refl _, fun _ x hx hnot => absurd hx hnot,
      fun _ x hx hnot => absurd hx hnot⟩ (h.carried.imp (fun t f hc => ?_))
    exact ⟨hc.res, hc.toSpm, hc.left, hc.brought, hc.taken⟩
  · exact pairwise_cons.mpr ⟨fun g hg => (hothers g hg).2, h.separate⟩
  · exact forall_mem_cons.mpr ⟨hplain, h.plain⟩
  · exact forall_mem_cons.mpr ⟨mem_singleton.mpr rfl, h.current⟩
  · refine forall_mem_cons.mpr ⟨?_, fun f hf => mem_append_left _ (h.logged f hf)⟩
    exact mem_append_right _ (mem_singleton.mpr (map_fst_words ls a))

theorem sum_set_lt {xs : List ℕ} {i : ℕ} (hi : i < xs.length) (hv : v < xs[i]) :
    (xs.set i v).sum < xs.sum := by
  induction xs generalizing i with
  | nil => cases hi
  | cons x xs ih =>
    cases i with
    | zero => simpa using hv
    | succ i => simpa using ih (Nat.lt_of_succ_lt_succ hi) hv

section Wait

variable {rs : List ℕ}

def World.Brings (w : World Loc) (rs : List ℕ) (b : ℕ) : Prop :=
  ∃ f ∈ w.flights, f.res ∈ rs ∧ f.toSpm = true ∧ ∃ x ∈ f.words, x.2 ≤ b ∧ b < x.2 + 4

def World.Writes (w : World Loc) (rs : List ℕ) (l : Loc) : Prop :=
  ∃ f ∈ w.flights, f.res ∈ rs ∧ f.toSpm = false ∧ ∃ x ∈ f.words, x.1 = l

open Classical in
noncomputable def landedSpm (s : State Loc) (w : World Loc) (rs : List ℕ) (b : ℕ) : ℕ :=
  if w.Brings rs b then s.spm b else w.spm b

open Classical in
noncomputable def landedMem (s : State Loc) (w : World Loc) (rs : List ℕ) (l : Loc) : ℕ :=
  if w.Writes rs l then s.mem l else w.mem l

theorem landed_of_complete (h : Rel s w) (hcomplete : ∀ r ∈ rs, ¬ s.Busy r) :
    Landed w rs (landedMem s w rs) (landedSpm s w rs) := by
  -- The requests of the flights have nothing left to move.
  have hdone : ∀ f ∈ w.flights, f.res ∈ rs → ∃ t, Carries s w t f ∧ t.left = [] := by
    intro f hf hres
    obtain ⟨hlength, hget⟩ := forall₂_iff_get.mp h.carried
    obtain ⟨i, hi, rfl⟩ := mem_iff_getElem.mp hf
    have hi' : i < s.transfers.length := hlength ▸ hi
    have hc := hget i hi' hi
    refine ⟨s.transfers[i], hc, ?_⟩
    by_contra hleft
    refine hcomplete _ hres ⟨s.transfers[i], getElem_mem hi', hc.res, hleft⟩
  refine ⟨fun b hb => ?_, fun f hf hres hread x hx => ?_, fun l hl => ?_,
    fun f hf hres hwrite x hx => ?_⟩
  · refine if_neg ?_
    rintro ⟨f, hf, hres, hread, x, hx, hin⟩
    exact hb f hf hres hread x hx hin
  · obtain ⟨t, hc, hleft⟩ := hdone f hf hres
    obtain ⟨m, hm, hvalue⟩ := hc.brought hread x hx (by rw [hleft]; exact not_mem_nil)
    refine ⟨m, hm, ?_⟩
    rw [← hvalue]
    refine ByteMemory.load_congr (fun i hi => if_pos ⟨f, hf, hres, hread, x, hx, ?_, ?_⟩)
    · omega
    · omega
  · refine if_neg ?_
    rintro ⟨f, hf, hres, hwrite, x, hx, hxl⟩
    exact hl f hf hres hwrite x hx hxl
  · obtain ⟨t, hc, hleft⟩ := hdone f hf hres
    rw [landedMem, if_pos ⟨f, hf, hres, hwrite, x, hx, rfl⟩]
    exact hc.taken hwrite x hx (by rw [hleft]; exact not_mem_nil)

theorem Rel.land (h : Rel s w) :
    Rel { s with transfers := s.transfers.filter (fun t => t.res ∉ rs) }
      (w.land rs (landedMem s w rs) (landedSpm s w rs)) := by
  have hmem : ∀ {f}, f ∈ w.flights.filter (fun f => f.res ∉ rs) ↔ f ∈ w.flights ∧ f.res ∉ rs := by
    intro f
    rw [mem_filter, decide_eq_true_eq]
  refine ⟨fun l hl => ?_, fun b hb => ?_, ?_, ?_, ?_, ?_, ?_⟩
  · have hfree := free_map_observe.mp hl
    change s.mem l = landedMem s w rs l
    by_cases hwrites : w.Writes rs l
    · rw [landedMem, if_pos hwrites]
    · rw [landedMem, if_neg hwrites]
      refine h.mem l (fun f hf hwrite x hx hxl => ?_)
      by_cases hres : f.res ∈ rs
      · exact hwrites ⟨f, hf, hres, hwrite, x, hx, hxl⟩
      · exact hfree f (hmem.mpr ⟨hf, hres⟩) hwrite x hx hxl
  · change s.spm b = landedSpm s w rs b
    by_cases hbrings : w.Brings rs b
    · rw [landedSpm, if_pos hbrings]
    · rw [landedSpm, if_neg hbrings]
      refine h.spm b (fun f hf hread x hx hin => ?_)
      by_cases hres : f.res ∈ rs
      · exact hbrings ⟨f, hf, hres, hread, x, hx, hin⟩
      · exact hb _ (List.mem_map_of_mem (hmem.mpr ⟨hf, hres⟩)) hread x hx hin
  · have hfiltered : List.Forall₂ (Carries s w) (s.transfers.filter (fun t => t.res ∉ rs))
        (w.flights.filter (fun f => f.res ∉ rs)) :=
      rel_filter (fun t f (hc : Carries s w t f) => by simp [hc.res]) h.carried
    refine forall₂_map_right_iff.mpr (forall₂_imp_of_mem hfiltered (fun t f hf hc => ?_))
    refine ⟨hc.res, hc.toSpm, hc.left, fun hread x hx hmoved => ?_, fun hwrite x hx hmoved => ?_⟩
    · obtain ⟨m, hm, hvalue⟩ := hc.brought hread x hx hmoved
      exact ⟨m, mem_cons_of_mem _ hm, hvalue⟩
    · refine (hc.taken hwrite x hx hmoved).trans ?_
      -- Nothing is brought to the source of a request that writes.
      have hclear := h.clear_of_write (hmem.mp hf).1 hwrite hx
      refine ByteMemory.load_congr (fun i hi => (if_neg ?_).symm)
      rintro ⟨g, hg, -, hread, y, hy, hin⟩
      rcases hclear g hg hread y hy with hle | hle
      · omega
      · omega
  · exact pairwise_map.mpr (h.separate.filter _)
  · exact List.forall_mem_map.mpr (fun f hf => h.plain f (hmem.mp hf).1)
  · exact List.forall_mem_map.mpr (fun f _ => mem_cons_self)
  · exact List.forall_mem_map.mpr (fun f hf => h.logged f (hmem.mp hf).1)

end Wait

/-! ### Runs -/

def Assumed (C : Loc → ℕ → ℕ → Prop) : Op Loc → State Loc → Prop
  | .loadCopy a l, s => C l (ByteMemory.load s.spm a) (s.mem l)
  | _, _ => True

theorem assumed_plain (o : Op Loc) (s : State Loc) : Assumed Rules.plain.copies o s := by
  cases o <;> exact trivial

section Runs

variable [DecidableEq Loc] {C : Loc → ℕ → ℕ → Prop} {s' : State Loc} {o : Op Loc}
  {Q : Res o → World Loc → Prop}

/-- A command is answered, or it waits for the engine. -/
theorem handle_of_pre (h : Rel s w) (hpre : Pre C o w Q) :
    (∃ r s', handle o s = .answer r s' ∧ (Assumed C o s → ∃ w', Q r w' ∧ Rel s' w')) ∨
      (handle o s = .blocked ∧ ∃ i j s', s.copy i j = some s') := by
  cases o with
  | load l => exact .inl ⟨_, _, rfl, fun _ => ⟨w, h.mem l hpre.1 ▸ hpre.2, h⟩⟩
  | store l v => exact .inl ⟨_, _, rfl, fun _ => ⟨_, hpre.2, h.set hpre.1 v⟩⟩
  | modify l f =>
    refine .inl ⟨_, _, rfl, fun _ => ⟨_, hpre.2, ?_⟩⟩
    rw [h.mem l hpre.1]
    exact h.set hpre.1 (f (w.mem l))
  | loadSpm a =>
    refine .inl ⟨_, _, rfl, fun _ => ⟨w, ?_, h⟩⟩
    rcases hpre with ⟨hclear, hq⟩ | hall
    · rw [h.load_of_clear hclear]
      exact hq
    · exact hall _
  | loadCopy a l =>
    refine .inl ⟨_, _, rfl, fun hassumed => ⟨w, ?_, h⟩⟩
    have hc : C l (ByteMemory.load s.spm a) (w.mem l) := h.mem l hpre.1 ▸ hassumed
    rcases hpre.2 with ⟨hclear, hq⟩ | hall
    · rw [h.load_of_clear hclear] at hc ⊢
      exact hq hc
    · exact hall _ hc
  | storeSpm a v => exact .inl ⟨_, _, rfl, fun _ => ⟨_, hpre.2, h.storeSpm hpre.1 v⟩⟩
  | dmaRead | dmaWrite =>
    obtain ⟨s', hs', hrel⟩ := h.request hpre.1
    exact .inl ⟨(), s', hs', fun _ => ⟨_, hpre.2, hrel⟩⟩
  | dmaWait rs =>
    by_cases hbusy : ∃ r ∈ rs, s.Busy r
    · refine .inr ⟨if_pos hbusy, ?_⟩
      obtain ⟨r, -, t, ht, -, hleft⟩ := hbusy
      obtain ⟨i, hi⟩ := mem_iff_getElem?.mp ht
      obtain ⟨x, xs, hx⟩ := exists_cons_of_ne_nil hleft
      have hsome : (s.copy i 0).isSome := by
        rw [State.copy, hi, bind_some, hx]
        rfl
      exact ⟨i, 0, isSome_iff_exists.mp hsome⟩
    · refine .inl ⟨(), _, if_neg hbusy, fun _ => ⟨_, hpre _ _ (landed_of_complete h ?_), h.land⟩⟩
      exact fun r hr hb => hbusy ⟨r, hr, hb⟩

def State.workLeft (s : State Loc) : ℕ := (s.transfers.map (fun t => t.left.length)).sum

theorem workLeft_copy {i j : ℕ} (h : s.copy i j = some s') : s'.workLeft < s.workLeft := by
  obtain ⟨t, x, ht, hx, htransfers, -⟩ := copy_cases h
  obtain ⟨hi, rfl⟩ := List.getElem?_eq_some_iff.mp ht
  have hj : j < (s.transfers[i]).left.length := (List.getElem?_eq_some_iff.mp hx).1
  have hless : ((s.transfers[i]).left.eraseIdx j).length < (s.transfers[i]).left.length := by
    rw [length_eraseIdx_of_lt hj]
    omega
  rw [State.workLeft, State.workLeft, htransfers, map_set]
  exact sum_set_lt (by rwa [length_map]) (by rwa [getElem_map])

variable {p : DmaProg Loc α}

/-- A program that meets its preconditions ends in every run, with its postcondition, unless it
comes to a command that escapes. -/
theorem inevitable_of_wp {R : Rules Loc} {Q : α → World Loc → Prop}
    (h : Rel s w) (hC : ∀ o s, Assumed R.copies o s) (hp : R.wp p w Q) :
    Inevitable step (fun m => (∃ o k, m.prog = .call o k ∧ R.escape o) ∨
      ∃ a w', m.prog = .ret a ∧ Q a w' ∧ Rel m.state w') (⟨p, s⟩ : Machine Loc α) := by
  induction p generalizing s w with
  | ret a => exact .now (.inr ⟨a, w, rfl, hp, h⟩)
  | stuck => exact hp.elim
  | call o k ih =>
    rcases hp with hescape | hpre
    · exact .now (.inl ⟨o, k, rfl, hescape⟩)
    -- Until the command is answered the engine has fewer and fewer words to move.
    induction hn : s.workLeft using Nat.strongRecOn generalizing s with
    | ind n ihn =>
      have hcopy : ∀ i j s', s.copy i j = some s' →
          Inevitable step _ (⟨.call o k, s'⟩ : Machine Loc α) :=
        fun i j s' hs' => ihn _ (hn ▸ workLeft_copy hs') (h.copy hs') rfl
      rcases handle_of_pre h hpre with ⟨r, s', hs', hnext⟩ | ⟨hblocked, i, j, s', hs'⟩
      · obtain ⟨w', hw', hrel⟩ := hnext (hC o s)
        refine .later ⟨.kernel, ⟨k r, s'⟩, by simp only [step, hs']⟩ (fun e m' hm' => ?_)
        cases e with
        | kernel =>
          simp only [step, hs', some.injEq] at hm'
          exact hm' ▸ ih r hrel hw'
        | copy i j =>
          obtain ⟨s₁, hs₁, rfl⟩ := map_eq_some_iff.mp hm'
          exact hcopy i j s₁ hs₁
      · refine .later ⟨.copy i j, ⟨.call o k, s'⟩, by simp only [step, hs', map_some]⟩
          (fun e m' hm' => ?_)
        cases e with
        | kernel => simp only [step, hblocked, reduceCtorEq] at hm'
        | copy i j =>
          obtain ⟨s₁, hs₁, rfl⟩ := map_eq_some_iff.mp hm'
          exact hcopy i j s₁ hs₁

/-- What a program returns is verified, in a run in which every copy that is read is as assumed. -/
theorem post_of_reached {ok : Machine Loc α → Event → Prop} {m : Machine Loc α}
    {Q : α → World Loc → Prop} (h : Rel s w) (hp : (Rules.mk (fun _ => False) C).wp p w Q)
    (hok : ∀ m o k, ok m .kernel → m.prog = .call o k → Assumed C o m.state)
    (hreached : Reached step ok ⟨p, s⟩ m) :
    ∃ w', Rel m.state w' ∧ (Rules.mk (fun _ => False) C).wp m.prog w' Q := by
  induction hreached with
  | start => exact ⟨w, h, hp⟩
  | @next m m' e _ hm hstep ih =>
    obtain ⟨w', hrel, hwp⟩ := ih
    cases e with
    | copy i j =>
      obtain ⟨s', hs', rfl⟩ := map_eq_some_iff.mp hstep
      exact ⟨w', hrel.copy hs', hwp⟩
    | kernel =>
      obtain ⟨prog, s'⟩ := m
      cases prog with
      | ret | stuck => cases hstep
      | call o k =>
        rcases hwp with hfalse | hpre
        · exact hfalse.elim
        rcases handle_of_pre hrel hpre with ⟨r, t, ht, hnext⟩ | ⟨hblocked, -⟩
        · simp only [step, ht, some.injEq] at hstep
          obtain ⟨w'', hw'', hrel'⟩ := hnext (hok _ o k hm rfl)
          exact hstep ▸ ⟨w'', hrel', hw''⟩
        · simp only [step, hblocked, reduceCtorEq] at hstep

/-- No command of a verified program fails. -/
theorem not_failed_of_reached {m : Machine Loc α} {Q : α → World Loc → Prop}
    (h : Rel s w) (hp : Rules.plain.wp p w Q)
    (hreached : Reached step (fun _ _ => True) ⟨p, s⟩ m) {k : Res o → DmaProg Loc α}
    (hm : m.prog = .call o k) : handle o m.state ≠ .failed := by
  intro hfailed
  obtain ⟨w', hrel, hwp⟩ := post_of_reached h hp (fun m o _ _ _ => assumed_plain o m.state) hreached
  rw [hm] at hwp
  rcases handle_of_pre hrel (hwp.resolve_left id) with ⟨r, s', hs', -⟩ | ⟨hs', -⟩
  · rw [hfailed] at hs'
    cases hs'
  · rw [hfailed] at hs'
    cases hs'

omit [DecidableEq Loc] in
theorem request_of_busy {toSpm : Bool} {ls : List Loc} {res : ℕ} (h : s.Busy res) :
    s.request toSpm ls a res = .failed := if_pos (.inr h)

end Runs

end SmcSim.DmaPrograms
