import SmcSim.DramController
import Mathlib.Data.List.Perm.Basic

/-!
# Every read is answered

For each read that was accepted, the bursts that are outstanding, the count in its burst
helper and the responses made. When the queues are drained, a read has been answered exactly
once if and only if the extra row buffer has served all of its bursts or none. A read that is
accepted aborts if the read queue has no room for its dummies.
-/

namespace SmcSim.Dram
open Interleavings List Option

def DramPacket.ofRead (k : ℕ) (p : DramPacket) : Bool := !p.isDummy && p.pkt == k

def outstanding (s : State) (k : ℕ) : ℕ := (s.readQueue ++ s.respQueue).countP (DramPacket.ofRead k)

def answers (s : State) (k : ℕ) : ℕ := s.responses.countP (fun x => x.pkt == k)

/-- Each read has exactly one response, and none of them comes from a dummy. -/
structure Answered (s : State) : Prop where
  once : ∀ k < s.reads.length, answers s k = 1
  notDummy : ∀ x ∈ s.responses, x.isDummy = false

/-- The extra row buffer has served the whole read or nothing of it. -/
def Read.Whole (r : Read) : Prop := r.inExtraBuf = 0 ∨ r.inExtraBuf = r.count

instance (r : Read) : Decidable r.Whole := inferInstanceAs (Decidable (_ ∨ _))

/-- A read that arrives finds all of its bursts in the extra row buffer, or none. -/
def Whole (c : Config) (s : State) : Event → Prop
  | .read addr size => (∀ a ∈ bursts c addr size, ServedByExtraBuf c s (addr + size) a) ∨
      ∀ a ∈ bursts c addr size, ¬ ServedByExtraBuf c s (addr + size) a
  | .write _ _ | .nextRead _ | .nextWrite _ | .respond => True

instance (c : Config) (s : State) : (e : Event) → Decidable (Whole c s e)
  | .read addr size => inferInstanceAs (Decidable ((∀ a ∈ bursts c addr size, _) ∨ ∀ a ∈ _, ¬ _))
  | .write _ _ | .nextRead _ | .nextWrite _ | .respond => inferInstanceAs (Decidable True)

def ServedByDram (c : Config) (s : State) (stop addr : ℕ) : Prop :=
  ¬ ServedByWrQ c s stop addr ∧ ¬ ServedByExtraBuf c s stop addr

instance (c : Config) (s : State) (stop addr : ℕ) : Decidable (ServedByDram c s stop addr) :=
  inferInstanceAs (Decidable (_ ∧ _))

/-- The read is served at once, or the read queue has room for the bursts that go to the DRAM and
for the dummies that fill the extra row buffer. -/
def HasRoom (c : Config) (s : State) (addr size : ℕ) : Prop :=
  (∀ a ∈ bursts c addr size, ServedByWrQ c s (addr + size) a) ∨
    (∀ a ∈ bursts c addr size, ServedByExtraBuf c s (addr + size) a) ∨
    (c.haveExtraRowBuffer = true → s.readQueue.length + s.respQueue.length +
      (bursts c addr size).countP (ServedByDram c s (addr + size)) +
      (c.extraRowBufferSize / c.burstSize - 1) ≤ c.readBufferSize)

instance (c : Config) (s : State) (addr size : ℕ) : Decidable (HasRoom c s addr size) :=
  inferInstanceAs
    (Decidable ((∀ a ∈ bursts c addr size, _) ∨ (∀ a ∈ bursts c addr size, _) ∨ (_ → _)))

/-! ### Accounts -/

/-- What has become of read `k`: it was answered at once, waits for one burst or is forgotten, or
its helper counts its bursts. -/
inductive Account (s : State) (k : ℕ) (r : Read) : Prop
  | plain (hhelper : r.helper = none)
      (hanswers : outstanding s k + answers s k = if r.Whole then 1 else 0)
  | split (h : ℕ) (x : BurstHelper) (hhelper : r.helper = some h) (hx : s.helpers[h]? = some x)
      (howner : x.owner = some k) (hcount : x.burstCount = r.count)
      (hpart : r.inExtraBuf < r.count)
      (hserviced : x.burstsServiced + outstanding s k + r.inExtraBuf = r.count)
      (hanswers : answers s k = if outstanding s k = 0 ∧ r.inExtraBuf = 0 then 1 else 0)

structure Accounts (s : State) : Prop where
  account : ∀ k r, s.reads[k]? = some r → Account s k r
  packets : ∀ p ∈ s.readQueue ++ s.respQueue, p.isDummy = false →
    ∃ r, s.reads[p.pkt]? = some r ∧ r.helper = p.burstHelper
  dummies : ∀ p ∈ s.readQueue ++ s.respQueue, p.isDummy = true → ∀ h, p.burstHelper = some h →
    ∃ x, s.helpers[h]? = some x ∧ x.owner = none
  known : ∀ x ∈ s.responses, x.pkt < s.reads.length
  notDummy : ∀ x ∈ s.responses, x.isDummy = false

section Lemmas

variable {c : Config} {s s' : State} {k : ℕ} {r : Read} {p : DramPacket}

theorem Account.answers_eq_one_iff (h : Account s k r) (hdrained : outstanding s k = 0) :
    answers s k = 1 ↔ r.Whole := by
  cases h with
  | plain hhelper hanswers =>
    rw [hdrained, zero_add] at hanswers
    rw [hanswers]
    split
    · next hwhole => exact iff_of_true rfl hwhole
    · next hpart => exact iff_of_false Nat.zero_ne_one hpart
  | split h x hhelper hx howner hcount hpart hserviced hanswers =>
    by_cases hbuf : r.inExtraBuf = 0
    · rw [if_pos ⟨hdrained, hbuf⟩] at hanswers
      exact ⟨fun _ => .inl hbuf, fun _ => hanswers⟩
    · rw [if_neg (fun hboth => hbuf hboth.2)] at hanswers
      constructor
      · intro hone
        rw [hanswers] at hone
        cases hone
      · rintro (hzero | hall)
        · exact absurd hzero hbuf
        · exact absurd hall (ne_of_lt hpart)

/-- An account says something about the bursts, the responses and the helper of its read only. -/
theorem Account.frame (h : Account s k r) (hout : outstanding s' k = outstanding s k)
    (hanswers : answers s' k = answers s k)
    (hhelpers : ∀ (h : ℕ) (x : BurstHelper), s.helpers[h]? = some x → x.owner = some k →
      s'.helpers[h]? = some x) : Account s' k r := by
  cases h with
  | plain hhelper ha => exact .plain hhelper (by rw [hout, hanswers, ha])
  | split h x hhelper hx howner hcount hpart hserviced ha =>
    exact .split h x hhelper (hhelpers h x hx howner) howner hcount hpart (by rw [hout, hserviced])
      (by rw [hanswers, hout, ha])

theorem accounts_initial : Accounts initial where
  account k r hr := by cases hr
  packets p hp := by cases hp
  dummies p hp := by cases hp
  known x hx := by cases hx
  notDummy x hx := by cases hx

/-! ### Responses -/

/-- What the buffer holds after `fillBuffer`, and after the response to `p`. -/
def Filled (c : Config) (p : DramPacket) (s s' : State) : Prop :=
  (s'.extraAddrValid = s.extraAddrValid ∧ s'.extraRowBufferAddr = s.extraRowBufferAddr ∧
      s'.fill = s.fill) ∨
    p.isDummy = false ∧ p.burstHelper = none ∧ s'.extraRowBufferAddr = alignedAddr c p.addr ∧
      s'.fill = some ⟨row c p.addr, p.issued⟩

theorem fillBuffer_eq (c : Config) (p : DramPacket) (s : State) (hhelper : p.burstHelper = none) :
    ∃ addr valid fill, fillBuffer c p s =
        { s with extraRowBufferAddr := addr, extraAddrValid := valid, fill := fill } ∧
      Filled c p s (fillBuffer c p s) := by
  unfold fillBuffer
  split
  · next hfills => exact ⟨_, _, _, rfl, .inr ⟨hfills.2, hhelper, rfl, rfl⟩⟩
  · exact ⟨_, _, _, rfl, .inl ⟨rfl, rfl, rfl⟩⟩

theorem processRespondEvent_cases (h : processRespondEvent c s = some s') :
    ∃ p rest, s.respQueue = p :: rest ∧ s'.readQueue = s.readQueue ∧ s'.respQueue = rest ∧
      s'.reads = s.reads ∧ s'.lastWrite = s.lastWrite ∧ s'.clock = s.clock ∧ Filled c p s s' ∧
      ((p.burstHelper = none ∧ s'.helpers = s.helpers ∧
          s'.responses = s.responses ++ if p.isDummy then [] else [⟨p.pkt, false⟩]) ∨
        ∃ i x, p.burstHelper = some i ∧ s.helpers[i]? = some x ∧
          s'.helpers = s.helpers.set i { x with burstsServiced := x.burstsServiced + 1 } ∧
          s'.responses = s.responses ++
            if x.burstsServiced + 1 = x.burstCount ∧ p.isDummy = false then [⟨p.pkt, false⟩]
            else []) := by
  simp only [processRespondEvent] at h
  split at h
  · cases h
  · next p rest hqueue =>
    refine ⟨p, rest, hqueue, ?_⟩
    split at h
    · next i hhelper =>
      obtain ⟨x, hx, rfl⟩ := map_eq_some_iff.mp h
      by_cases hdone : x.burstsServiced + 1 = x.burstCount <;> cases hdummy : p.isDummy <;>
        simp [hdone, hx, hhelper, accessAndRespond, Filled]
    · next hhelper =>
      cases h
      obtain ⟨addr, valid, fill, hfill, hfilled⟩ :=
        fillBuffer_eq c p { s with respQueue := rest } hhelper
      rw [hfill] at hfilled ⊢
      cases p.isDummy with
      | true => exact ⟨rfl, rfl, rfl, rfl, rfl, hfilled, .inl ⟨hhelper, rfl, (append_nil _).symm⟩⟩
      | false => exact ⟨rfl, rfl, rfl, rfl, rfl, hfilled, .inl ⟨hhelper, rfl, rfl⟩⟩

theorem ofRead_of_dummy (hdummy : p.isDummy = true) : p.ofRead k = false := by
  simp [DramPacket.ofRead, hdummy]

theorem ofRead_iff (hreal : p.isDummy = false) : p.ofRead k = true ↔ p.pkt = k := by
  simp [DramPacket.ofRead, hreal]

/-- The bursts that are outstanding before and after the first response. -/
theorem outstanding_respond {rest : List DramPacket} (hqueue : s.respQueue = p :: rest)
    (hread : s'.readQueue = s.readQueue) (hresp : s'.respQueue = rest) :
    outstanding s k = outstanding s' k + if p.ofRead k then 1 else 0 := by
  unfold outstanding
  rw [hqueue, hread, hresp, countP_append, countP_append, countP_cons]
  omega

theorem answers_append {xs : List Response} (h : s'.responses = s.responses ++ xs) :
    answers s' k = answers s k + xs.countP (fun x => x.pkt == k) := by
  rw [answers, h, countP_append]
  rfl

/-- The account of a read while the helper of another read, or of dummies, is changed. -/
theorem Account.other {i : ℕ} {x y : BurstHelper} (h : Account s k r)
    (hout : outstanding s' k = outstanding s k) (hanswers : answers s' k = answers s k)
    (hx : s.helpers[i]? = some x) (hother : x.owner ≠ some k)
    (hset : s'.helpers = s.helpers.set i y) : Account s' k r := by
  refine h.frame hout hanswers (fun j x' hx' howner => ?_)
  have hne : i ≠ j := by
    rintro rfl
    cases hx.symm.trans hx'
    exact hother howner
  rw [hset, getElem?_set_ne hne]
  exact hx'

theorem Account.burst {rest : List DramPacket} (h : Account s p.pkt r)
    (hhelper : r.helper = p.burstHelper) (hreal : p.isDummy = false)
    (hqueue : s.respQueue = p :: rest) (hstep : processRespondEvent c s = some s') :
    Account s' p.pkt r := by
  obtain ⟨p', rest', hqueue', hread, hresp, -, -, -, -, hcases⟩ := processRespondEvent_cases hstep
  obtain ⟨rfl, rfl⟩ := List.cons.inj (hqueue.symm.trans hqueue')
  have hout := outstanding_respond (k := p.pkt) hqueue hread hresp
  rw [if_pos ((ofRead_iff hreal).mpr rfl)] at hout
  rcases hcases with ⟨hnone, -, hresponses⟩ | ⟨i, x, hsome, hx, hset, hresponses⟩
  · have hanswers := answers_append (k := p.pkt) hresponses
    rw [hreal] at hanswers
    have hone : answers s' p.pkt = answers s p.pkt + 1 := by simpa using hanswers
    cases h with
    | plain hhelper ha => exact .plain hhelper (Eq.trans (by omega) ha)
    | split j y hhelper' hy howner hcount hpart hserviced ha =>
      rw [hhelper, hnone] at hhelper'
      cases hhelper'
  · have hanswers := answers_append (k := p.pkt) hresponses
    cases h with
    | plain hhelper' ha =>
      rw [hhelper, hsome] at hhelper'
      cases hhelper'
    | split j y hhelper' hy howner hcount hpart hserviced ha =>
      obtain rfl : i = j := by
        rw [hhelper, hsome] at hhelper'
        exact some.inj hhelper'
      cases hx.symm.trans hy
      have hlt : i < s.helpers.length := (List.getElem?_eq_some_iff.mp hx).1
      have hnew : s'.helpers[i]? = some { x with burstsServiced := x.burstsServiced + 1 } := by
        rw [hset, getElem?_set_self hlt]
      refine .split i _ hhelper' hnew howner hcount hpart ?_ ?_
      · change x.burstsServiced + 1 + outstanding s' p.pkt + r.inExtraBuf = r.count
        omega
      · -- The last burst is done when no burst is outstanding and the buffer has served none.
        rw [if_neg (fun hboth => by omega)] at ha
        by_cases hlast : outstanding s' p.pkt = 0 ∧ r.inExtraBuf = 0
        · have hdone : x.burstsServiced + 1 = x.burstCount ∧ p.isDummy = false :=
            ⟨by omega, hreal⟩
          rw [if_pos hdone] at hanswers
          rw [if_pos hlast, hanswers, ha]
          simp
        · have hmore : ¬ (x.burstsServiced + 1 = x.burstCount ∧ p.isDummy = false) := by
            rintro ⟨hdone, -⟩
            exact hlast ⟨by omega, by omega⟩
          rw [if_neg hmore] at hanswers
          rw [if_neg hlast, hanswers, ha]
          rfl

theorem Accounts.owner {i : ℕ} {x : BurstHelper} (h : Accounts s)
    (hp : p ∈ s.readQueue ++ s.respQueue) (hhelper : p.burstHelper = some i)
    (hx : s.helpers[i]? = some x) : x.owner = if p.isDummy then none else some p.pkt := by
  cases hdummy : p.isDummy with
  | true =>
    obtain ⟨x', hx', hnone⟩ := h.dummies p hp hdummy i hhelper
    cases hx.symm.trans hx'
    exact hnone
  | false =>
    obtain ⟨r, hr, hsame⟩ := h.packets p hp hdummy
    cases h.account p.pkt r hr with
    | plain hnone ha =>
      rw [hsame, hhelper] at hnone
      cases hnone
    | split j x' hsome hx' howner hcount hpart hserviced ha =>
      rw [hsame, hhelper] at hsome
      cases hsome
      cases hx.symm.trans hx'
      exact howner

theorem Accounts.respond (h : Accounts s) (hstep : processRespondEvent c s = some s') :
    Accounts s' := by
  obtain ⟨p, rest, hqueue, hread, hresp, hreads, -, -, -, hcases⟩ := processRespondEvent_cases hstep
  have hp : p ∈ s.readQueue ++ s.respQueue := by
    rw [hqueue]
    exact mem_append_right _ mem_cons_self
  have hsub : ∀ q ∈ s'.readQueue ++ s'.respQueue, q ∈ s.readQueue ++ s.respQueue := by
    intro q hq
    rw [hread, hresp] at hq
    rw [hqueue]
    rcases mem_append.mp hq with hq | hq
    · exact mem_append_left _ hq
    · exact mem_append_right _ (mem_cons_of_mem _ hq)
  -- Whatever the helper, the response is for the packet of a real burst.
  have hresponses : ∃ xs, s'.responses = s.responses ++ xs ∧
      ∀ x ∈ xs, x = ⟨p.pkt, false⟩ ∧ p.isDummy = false := by
    rcases hcases with ⟨-, -, hresponses⟩ | ⟨i, x, -, -, -, hresponses⟩
    · refine ⟨_, hresponses, fun x hx => ?_⟩
      split at hx
      · cases hx
      · next hreal => exact ⟨mem_singleton.mp hx, by simpa using hreal⟩
    · refine ⟨_, hresponses, fun x hx => ?_⟩
      split at hx
      · next hdone => exact ⟨mem_singleton.mp hx, hdone.2⟩
      · cases hx
  obtain ⟨xs, hxs, hsource⟩ := hresponses
  refine ⟨fun k r hr => ?_, fun q hq hreal => ?_, fun q hq hdummy i hi => ?_, fun x hx => ?_,
    fun x hx => ?_⟩
  · rw [hreads] at hr
    have haccount := h.account k r hr
    by_cases hk : p.isDummy = false ∧ p.pkt = k
    · obtain ⟨hreal, rfl⟩ := hk
      obtain ⟨r', hr', hhelper⟩ := h.packets p hp hreal
      cases hr.symm.trans hr'
      exact haccount.burst hhelper hreal hqueue hstep
    · have hnot : p.ofRead k = false := by
        simp only [DramPacket.ofRead, Bool.and_eq_false_iff, Bool.not_eq_false',
          beq_eq_false_iff_ne]
        by_cases hdummy : p.isDummy = true
        · exact .inl hdummy
        · exact .inr (fun hpkt => hk ⟨by simpa using hdummy, hpkt⟩)
      have hout := outstanding_respond (k := k) hqueue hread hresp
      rw [hnot, if_neg Bool.false_ne_true, add_zero] at hout
      have hanswers : answers s' k = answers s k := by
        rw [answers_append hxs, countP_eq_zero.mpr, add_zero]
        intro x hx
        obtain ⟨rfl, hreal⟩ := hsource x hx
        simpa using fun hpkt => hk ⟨hreal, hpkt⟩
      rcases hcases with ⟨-, hsame, -⟩ | ⟨i, x, hhelper, hx, hset, -⟩
      · exact haccount.frame hout.symm hanswers (fun j x hx _ => by rw [hsame]; exact hx)
      · refine haccount.other hout.symm hanswers hx (fun howner => ?_) hset
        rw [h.owner hp hhelper hx] at howner
        split at howner
        · cases howner
        · next hreal => exact hk ⟨by simpa using hreal, some.inj howner⟩
  · rw [hreads]
    exact h.packets q (hsub q hq) hreal
  · obtain ⟨x, hx, hnone⟩ := h.dummies q (hsub q hq) hdummy i hi
    rcases hcases with ⟨-, hsame, -⟩ | ⟨j, y, -, hy, hset, -⟩
    · exact ⟨x, by rw [hsame]; exact hx, hnone⟩
    · by_cases hij : j = i
      · subst hij
        cases hx.symm.trans hy
        have hlt := (List.getElem?_eq_some_iff.mp hx).1
        refine ⟨{ x with burstsServiced := x.burstsServiced + 1 }, ?_, hnone⟩
        rw [hset, getElem?_set_self hlt]
      · exact ⟨x, by rw [hset, getElem?_set_ne hij]; exact hx, hnone⟩
  · rw [hxs] at hx
    rw [hreads]
    rcases mem_append.mp hx with hx | hx
    · exact h.known x hx
    · obtain ⟨rfl, hreal⟩ := hsource x hx
      obtain ⟨r, hr, -⟩ := h.packets p hp hreal
      exact (List.getElem?_eq_some_iff.mp hr).1
  · rw [hxs] at hx
    rcases mem_append.mp hx with hx | hx
    · exact h.notDummy x hx
    · rw [(hsource x hx).1]

/-! ### Issued bursts -/

theorem Accounts.nextRead {i t : ℕ} (h : Accounts s) (hp : s.readQueue[i]? = some p) :
    Accounts { s with
      readQueue := s.readQueue.eraseIdx i
      respQueue := s.respQueue ++ [{ p with issued := t }]
      clock := t } := by
  obtain ⟨hi, rfl⟩ := List.getElem?_eq_some_iff.mp hp
  have hmem : ∀ q ∈ s.readQueue.eraseIdx i ++
      (s.respQueue ++ [{ s.readQueue[i] with issued := t }]),
      ∃ q' ∈ s.readQueue ++ s.respQueue, q.pkt = q'.pkt ∧ q.isDummy = q'.isDummy ∧
        q.burstHelper = q'.burstHelper := by
    intro q hq
    rcases mem_append.mp hq with hq | hq
    · exact ⟨q, mem_append_left _ (mem_of_mem_eraseIdx hq), rfl, rfl, rfl⟩
    · rcases mem_append.mp hq with hq | hq
      · exact ⟨q, mem_append_right _ hq, rfl, rfl, rfl⟩
      · obtain rfl := mem_singleton.mp hq
        exact ⟨_, mem_append_left _ (getElem_mem hi), rfl, rfl, rfl⟩
  refine ⟨fun k r hr => ?_, fun q hq hreal => ?_, fun q hq hdummy j hj => ?_, h.known, h.notDummy⟩
  · refine (h.account k r hr).frame ?_ rfl (fun _ _ hx _ => hx)
    have hperm := (getElem_cons_eraseIdx_perm hi).countP_eq (DramPacket.ofRead k)
    have hsame : DramPacket.ofRead k { s.readQueue[i] with issued := t } =
        DramPacket.ofRead k s.readQueue[i] := rfl
    unfold outstanding
    dsimp only
    rw [countP_append, countP_append, countP_append, countP_singleton, hsame]
    rw [countP_cons] at hperm
    omega
  · obtain ⟨q', hq', hpkt, hdummy, hhelper⟩ := hmem q hq
    obtain ⟨r, hr, hsame⟩ := h.packets q' hq' (hdummy.symm.trans hreal)
    exact ⟨r, by rw [hpkt]; exact hr, hsame.trans hhelper.symm⟩
  · obtain ⟨q', hq', hpkt, hsame, hhelper⟩ := hmem q hq
    exact h.dummies q' hq' (hsame.symm.trans hdummy) j (hhelper.symm.trans hj)

/-! ### New reads -/

/-- The loop over the bursts of a read after `n` of them, with the bursts that it has put into the
read queue. -/
structure LoopInv (s : State) (id count n : ℕ) (l : ReadLoop) (pushed : List DramPacket) :
    Prop where
  queue : l.readQueue = s.readQueue ++ pushed
  total : pushed.length + l.pktsServicedByWrQ + l.pktsServicedByExtraBuf = n
  bursts : ∀ p ∈ pushed, p.pkt = id ∧ p.isDummy = false ∧ p.burstHelper = l.burstHelper
  helper : (l.burstHelper = none ∧ l.helpers = s.helpers ∧ (1 < count → pushed = [])) ∨
    (l.burstHelper = some s.helpers.length ∧
      l.helpers = s.helpers ++ [⟨count, 0, some id⟩] ∧ 1 < count ∧ pushed ≠ [])

theorem LoopInv.readBurst {id count n : ℕ} {l : ReadLoop} {pushed : List DramPacket} (stop : ℕ)
    (h : LoopInv s id count n l pushed) :
    ∃ pushed', LoopInv s id count (n + 1) (readBurst c s id stop count l) pushed' := by
  have htotal := h.total
  unfold Dram.readBurst
  dsimp only
  split
  · exact ⟨pushed, h.queue, by dsimp only; omega, h.bursts, h.helper⟩
  · split
    · exact ⟨pushed, h.queue, by dsimp only; omega, h.bursts, h.helper⟩
    · split
      · next hnew =>
        obtain ⟨hcount, hnone⟩ := hnew
        rcases h.helper with ⟨-, hhelpers, hpushed⟩ | ⟨hsome, -⟩
        · rw [hpushed hcount] at htotal
          refine ⟨[_], by rw [h.queue, hpushed hcount, append_nil], ?_, fun p hp => ?_,
            .inr ⟨by rw [hhelpers], by rw [hhelpers], hcount, cons_ne_nil _ _⟩⟩
          · simp only [length_singleton, length_nil] at htotal ⊢
            omega
          · obtain rfl := mem_singleton.mp hp
            exact ⟨rfl, rfl, rfl⟩
        · rw [hnone] at hsome
          cases hsome
      · next hold =>
        refine ⟨pushed ++ [_], by rw [h.queue, append_assoc], ?_, fun p hp => ?_, ?_⟩
        · rw [length_append, length_singleton]
          dsimp only
          omega
        · rcases mem_append.mp hp with hp | hp
          · exact h.bursts p hp
          · obtain rfl := mem_singleton.mp hp
            exact ⟨rfl, rfl, rfl⟩
        · rcases h.helper with ⟨hnone, hhelpers, -⟩ | ⟨hsome, hhelpers, hcount, -⟩
          · exact .inl ⟨hnone, hhelpers, fun hcount => absurd ⟨hcount, hnone⟩ hold⟩
          · exact .inr ⟨hsome, hhelpers, hcount, append_ne_nil_of_right_ne_nil _
              (cons_ne_nil _ _)⟩

theorem LoopInv.readLoop {id count n : ℕ} {l : ReadLoop} {pushed : List DramPacket} (stop m : ℕ)
    (h : LoopInv s id count n l pushed) :
    ∃ pushed', LoopInv s id count (n + m) (readLoop c s id stop count m l) pushed' := by
  induction m generalizing n l pushed with
  | zero => exact ⟨pushed, h⟩
  | succ m ih =>
    obtain ⟨pushed', hnext⟩ := h.readBurst (c := c) stop
    rw [Nat.add_succ, ← Nat.succ_add]
    exact ih hnext

theorem pushDummies_eq_some_iff (ds : List DramPacket) (s s' : State) :
    pushDummies c ds s = some s' ↔ s' = { s with readQueue := s.readQueue ++ ds } ∧
      (ds = [] ∨ s.readQueue.length + s.respQueue.length + ds.length ≤ c.readBufferSize) := by
  induction ds generalizing s with
  | nil => simp [pushDummies, eq_comm]
  | cons p ds ih =>
    rw [pushDummies, ite_none_right_eq_some, ih]
    simp only [length_append, length_cons, length_nil, append_assoc,
      cons_append, nil_append, reduceCtorEq, false_or]
    constructor
    · rintro ⟨hlt, rfl, rfl | hle⟩
      · exact ⟨rfl, hlt⟩
      · exact ⟨rfl, by omega⟩
    · rintro ⟨rfl, hle⟩
      exact ⟨by omega, rfl, .inr (by omega)⟩

theorem addDummiesToReadQueue_cases {id addr : ℕ}
    (h : addDummiesToReadQueue c id addr s = some s') :
    ∃ ds hs, s' = { s with readQueue := s.readQueue ++ ds, helpers := s.helpers ++ hs } ∧
      (∀ p ∈ ds, p.isDummy = true ∧ ∀ h, p.burstHelper = some h → h = s.helpers.length ∧ hs ≠ []) ∧
      ∀ x ∈ hs, x.owner = none := by
  have hdummies : ∀ helper, ∀ p ∈ Dram.dummies c id addr helper,
      p.isDummy = true ∧ p.burstHelper = helper := by
    intro helper p hp
    obtain ⟨cnt, -, rfl⟩ := List.mem_map.mp hp
    exact ⟨rfl, rfl⟩
  unfold addDummiesToReadQueue at h
  dsimp only at h
  split at h
  · split at h
    · obtain ⟨rfl, -⟩ := (pushDummies_eq_some_iff _ _ _).mp h
      refine ⟨Dram.dummies c id addr (some s.helpers.length), [_], rfl, fun p hp => ?_,
        fun x hx => ?_⟩
      · obtain ⟨hdummy, hhelper⟩ := hdummies _ p hp
        refine ⟨hdummy, fun h hh => ⟨?_, cons_ne_nil _ _⟩⟩
        rw [hhelper] at hh
        exact (some.inj hh).symm
      · obtain rfl := mem_singleton.mp hx
        rfl
    · obtain ⟨rfl, -⟩ := (pushDummies_eq_some_iff _ _ _).mp h
      refine ⟨Dram.dummies c id addr none, [], by rw [append_nil], fun p hp => ?_,
        (fun x hx => by cases hx)⟩
      obtain ⟨hdummy, hhelper⟩ := hdummies _ p hp
      refine ⟨hdummy, fun h hh => ?_⟩
      rw [hhelper] at hh
      cases hh
  · cases h
    exact ⟨[], [], by rw [append_nil, append_nil], (fun p hp => by cases hp),
      (fun x hx => by cases hx)⟩

/-- A read that does not abort is answered at once, or has put dummies into the read queue. -/
theorem finishRead_cases {id addr count : ℕ} {l : ReadLoop}
    (h : finishRead c id addr count l s = some s') :
    ((l.pktsServicedByWrQ = count ∨ l.pktsServicedByExtraBuf = count) ∧
        s' = accessAndRespond id false (afterLoop count l s)) ∨
      l.pktsServicedByWrQ ≠ count ∧ l.pktsServicedByExtraBuf ≠ count ∧ ∃ ds hs,
        s' = { afterLoop count l s with
          readQueue := l.readQueue ++ ds
          helpers := setServiced l.burstHelper l.pktsServicedByWrQ (l.helpers ++ hs) } ∧
        (∀ p ∈ ds, p.isDummy = true ∧
          ∀ i, p.burstHelper = some i → i = l.helpers.length ∧ hs ≠ []) ∧
        ∀ x ∈ hs, x.owner = none := by
  unfold finishRead at h
  split at h
  · next hwrq => exact .inl ⟨.inl hwrq, (some.inj h).symm⟩
  split at h
  · next hbuf => exact .inl ⟨.inr hbuf, (some.inj h).symm⟩
  next hwrq hbuf =>
  refine .inr ⟨hwrq, hbuf, ?_⟩
  obtain ⟨s₁, hs₁, rfl⟩ := map_eq_some_iff.mp h
  split at hs₁
  · obtain ⟨ds, hs, rfl, hds⟩ := addDummiesToReadQueue_cases hs₁
    exact ⟨ds, hs, rfl, hds⟩
  · cases hs₁
    refine ⟨[], [], ?_, (fun p hp => by cases hp), (fun x hx => by cases hx)⟩
    rw [append_nil, append_nil]
    rfl

/-- The state after a read was accepted that has put `pushed` and the dummies `ds` into the read
queue, and was given the responses `xs`. -/
structure Accepts (s s' : State) (r : Read) (pushed ds : List DramPacket) (xs : List Response) :
    Prop where
  readQueue : s'.readQueue = s.readQueue ++ pushed ++ ds
  respQueue : s'.respQueue = s.respQueue
  reads : s'.reads = s.reads ++ [r]
  responses : s'.responses = s.responses ++ xs
  helpers : ∀ h < s.helpers.length, s'.helpers[h]? = s.helpers[h]?
  bursts : ∀ p ∈ pushed, p.pkt = s.reads.length ∧ p.isDummy = false ∧ p.burstHelper = r.helper
  dummies : ∀ p ∈ ds, p.isDummy = true ∧ ∀ h, p.burstHelper = some h →
    ∃ x, s'.helpers[h]? = some x ∧ x.owner = none
  answer : ∀ x ∈ xs, x = ⟨s.reads.length, false⟩

section Accept

variable {pushed ds : List DramPacket} {xs : List Response}

section

variable (hs : Accepts s s' r pushed ds xs)
include hs

theorem Accepts.outstanding (k : ℕ) :
    outstanding s' k = outstanding s k + pushed.countP (DramPacket.ofRead k) := by
  have hds : ds.countP (DramPacket.ofRead k) = 0 :=
    countP_eq_zero.mpr (fun p hp => by rw [ofRead_of_dummy (hs.dummies p hp).1]; decide)
  unfold Dram.outstanding
  rw [hs.readQueue, hs.respQueue]
  simp only [countP_append]
  omega

private theorem Accepts.pushed_new :
    pushed.countP (DramPacket.ofRead s.reads.length) = pushed.length :=
  countP_eq_length.mpr (fun p hp =>
    (ofRead_iff (hs.bursts p hp).2.1).mpr (hs.bursts p hp).1)

private theorem Accepts.pushed_old (hk : k < s.reads.length) :
    pushed.countP (DramPacket.ofRead k) = 0 := by
  refine countP_eq_zero.mpr (fun p hp hof => ?_)
  have hpkt := (ofRead_iff (hs.bursts p hp).2.1).mp hof
  have hid := (hs.bursts p hp).1
  omega

end

section

variable (h : Accounts s)
include h

private theorem Accounts.outstanding_new : outstanding s s.reads.length = 0 := by
  refine countP_eq_zero.mpr (fun p hp hof => ?_)
  have hreal : p.isDummy = false := by
    by_contra hdummy
    rw [ofRead_of_dummy (by simpa using hdummy)] at hof
    cases hof
  obtain ⟨r, hr, -⟩ := h.packets p hp hreal
  have hlt := (List.getElem?_eq_some_iff.mp hr).1
  have hpkt := (ofRead_iff hreal).mp hof
  omega

private theorem Accounts.answers_new : answers s s.reads.length = 0 := by
  refine countP_eq_zero.mpr (fun x hx hpkt => ?_)
  have hlt := h.known x hx
  have heq : x.pkt = s.reads.length := by simpa using hpkt
  omega

section

variable (hs : Accepts s s' r pushed ds xs)
include hs

private theorem Accounts.outstanding_accepted : outstanding s' s.reads.length = pushed.length := by
  rw [hs.outstanding, h.outstanding_new, hs.pushed_new, zero_add]

private theorem Accounts.answers_accepted : answers s' s.reads.length = xs.length := by
  rw [answers_append hs.responses, h.answers_new, zero_add]
  refine countP_eq_length.mpr (fun x hx => ?_)
  rw [hs.answer x hx]
  exact beq_self_eq_true _

private theorem Accounts.accept (hnew : Account s' s.reads.length r) : Accounts s' := by
  have hget : ∀ (k : ℕ) r', s.reads[k]? = some r' → s'.reads[k]? = some r' := by
    intro k r' hr'
    rw [hs.reads, getElem?_append_left (List.getElem?_eq_some_iff.mp hr').1]
    exact hr'
  have hlast : s'.reads[s.reads.length]? = some r := by
    rw [hs.reads, getElem?_concat_length]
  have hold : ∀ p ∈ s.readQueue ++ s.respQueue, p.isDummy = false →
      ∃ r', s'.reads[p.pkt]? = some r' ∧ r'.helper = p.burstHelper := by
    intro p hp hreal
    obtain ⟨r', hr', hhelper⟩ := h.packets p hp hreal
    exact ⟨r', hget _ _ hr', hhelper⟩
  have holdDummies : ∀ p ∈ s.readQueue ++ s.respQueue, p.isDummy = true →
      ∀ i, p.burstHelper = some i →
      ∃ x, s'.helpers[i]? = some x ∧ x.owner = none := by
    intro p hp hdummy i hi
    obtain ⟨x, hx, hnone⟩ := h.dummies p hp hdummy i hi
    exact ⟨x, by rw [hs.helpers i (List.getElem?_eq_some_iff.mp hx).1]; exact hx, hnone⟩
  rw [forall_mem_append] at hold holdDummies
  refine ⟨fun k r' hr' => ?_, ?_, ?_, ?_, ?_⟩
  · rcases lt_trichotomy k s.reads.length with hk | rfl | hk
    · rw [hs.reads, getElem?_append_left hk] at hr'
      refine (h.account k r' hr').frame ?_ ?_ (fun i x hx _ => ?_)
      · rw [hs.outstanding, hs.pushed_old hk, add_zero]
      · rw [answers_append hs.responses, countP_eq_zero.mpr, add_zero]
        intro x hx
        rw [hs.answer x hx]
        simpa using (ne_of_lt hk).symm
      · rw [hs.helpers i (List.getElem?_eq_some_iff.mp hx).1]
        exact hx
    · cases hr'.symm.trans hlast
      exact hnew
    · rw [hs.reads, getElem?_eq_none (by rw [length_append, length_singleton]; omega)]
        at hr'
      cases hr'
  · rw [hs.readQueue, hs.respQueue, forall_mem_append, forall_mem_append, forall_mem_append]
    refine ⟨⟨⟨hold.1, fun p hp _ => ?_⟩, fun p hp hreal => ?_⟩, hold.2⟩
    · obtain ⟨hpkt, -, hhelper⟩ := hs.bursts p hp
      exact ⟨r, by rw [hpkt]; exact hlast, hhelper.symm⟩
    · simp [(hs.dummies p hp).1] at hreal
  · rw [hs.readQueue, hs.respQueue, forall_mem_append, forall_mem_append, forall_mem_append]
    refine ⟨⟨⟨holdDummies.1, fun p hp hdummy => ?_⟩, fun p hp _ => (hs.dummies p hp).2⟩,
      holdDummies.2⟩
    simp [(hs.bursts p hp).2.1] at hdummy
  · rw [hs.responses, hs.reads, length_append, length_singleton, forall_mem_append]
    refine ⟨fun x hx => Nat.lt_succ_of_lt (h.known x hx), fun x hx => ?_⟩
    rw [hs.answer x hx]
    exact Nat.lt_succ_self _
  · rw [hs.responses, forall_mem_append]
    refine ⟨h.notDummy, fun x hx => ?_⟩
    rw [hs.answer x hx]

end

end

theorem dramPktCount_pos {addr size : ℕ} (hsize : 0 < size) : 0 < dramPktCount c addr size := by
  have hburst := c.burst_pos
  exact Nat.div_pos (by omega) hburst

theorem getElem?_setServiced_of_ne {helper : Option ℕ} {n i : ℕ} (helpers : List BurstHelper)
    (hne : helper ≠ some i) : (setServiced helper n helpers)[i]? = helpers[i]? := by
  cases helper with
  | none => rfl
  | some h =>
    have hne' : h ≠ i := fun he => hne (congrArg some he)
    rw [setServiced, getElem?_modify_ne _ _ hne']

section Finish

variable {count : ℕ} {l : ReadLoop}

theorem LoopInv.helpers_old {id n i : ℕ} (hloop : LoopInv s id count n l pushed)
    (hi : i < s.helpers.length) : l.helpers[i]? = s.helpers[i]? := by
  rcases hloop.helper with ⟨-, hsame, -⟩ | ⟨-, hnew, -⟩
  · rw [hsame]
  · rw [hnew, getElem?_append_left hi]

/-- The write queue or the buffer has served everything. -/
private theorem Accounts.servedAtOnce (h : Accounts s)
    (hloop : LoopInv s s.reads.length count count l pushed)
    (hserved : l.pktsServicedByWrQ = count ∨ l.pktsServicedByExtraBuf = count) :
    Accounts (accessAndRespond s.reads.length false (afterLoop count l s)) := by
  have htotal := hloop.total
  obtain rfl : pushed = [] := eq_nil_of_length_eq_zero (by omega)
  rw [length_nil, zero_add] at htotal
  have hs : Accepts s (accessAndRespond s.reads.length false (afterLoop count l s))
      ⟨count, l.pktsServicedByWrQ, l.pktsServicedByExtraBuf, l.burstHelper⟩ [] []
      [⟨s.reads.length, false⟩] := by
    refine ⟨?_, rfl, rfl, rfl, fun i hi => hloop.helpers_old hi, hloop.bursts,
      (fun p hp => by cases hp), fun x hx => mem_singleton.mp hx⟩
    rw [append_nil]
    exact hloop.queue
  have hnone := hloop.helper.resolve_right (fun hsome => hsome.2.2.2 rfl)
  refine h.accept hs (.plain hnone.1 ?_)
  rw [h.outstanding_accepted hs, h.answers_accepted hs, if_pos]
  · rfl
  · rcases hserved with hall | hall
    · exact .inl (show l.pktsServicedByExtraBuf = 0 by omega)
    · exact .inr hall

/-- Some bursts are outstanding, or nobody answers the read. -/
theorem Accounts.finishRead {addr : ℕ} (h : Accounts s) (hpos : 0 < count)
    (hloop : LoopInv s s.reads.length count count l pushed)
    (hstep : finishRead c s.reads.length addr count l s = some s') : Accounts s' := by
  rcases finishRead_cases hstep with ⟨hserved, rfl⟩ | ⟨hwrq, hbuf, ds, hs, rfl, hds, hhs⟩
  · exact h.servedAtOnce hloop hserved
  have htotal := hloop.total
  have hne : ∀ i < s.helpers.length, l.burstHelper ≠ some i := by
    intro i hi hsome
    rcases hloop.helper with ⟨hnone, -⟩ | ⟨hnew, -⟩
    · rw [hnone] at hsome
      cases hsome
    · rw [hnew] at hsome
      have hlast := some.inj hsome
      omega
  have hle : s.helpers.length ≤ l.helpers.length := by
    rcases hloop.helper with ⟨-, hsame, -⟩ | ⟨-, hnew, -⟩
    · rw [hsame]
    · rw [hnew, length_append]
      omega
  have hlast : l.burstHelper ≠ some l.helpers.length := by
    rcases hloop.helper with ⟨hnone, -⟩ | ⟨hsome, hnew, -⟩
    · rw [hnone]
      exact (some_ne_none _).symm
    · rw [hsome, hnew, length_append, length_singleton]
      intro heq
      have hlt := some.inj heq
      omega
  have haccepts : Accepts s { afterLoop count l s with
      readQueue := l.readQueue ++ ds
      helpers := setServiced l.burstHelper l.pktsServicedByWrQ (l.helpers ++ hs) }
      ⟨count, l.pktsServicedByWrQ, l.pktsServicedByExtraBuf, l.burstHelper⟩ pushed ds [] := by
    refine ⟨?_, rfl, rfl, (append_nil _).symm, fun i hi => ?_, hloop.bursts, fun p hp => ?_,
      (fun x hx => by cases hx)⟩
    · rw [← hloop.queue]
    · rw [getElem?_setServiced_of_ne _ (hne i hi), getElem?_append_left (by omega),
        hloop.helpers_old hi]
    · refine ⟨(hds p hp).1, fun i hi => ?_⟩
      obtain ⟨rfl, hnil⟩ := (hds p hp).2 i hi
      obtain ⟨x, xs, rfl⟩ := exists_cons_of_ne_nil hnil
      refine ⟨x, ?_, hhs x mem_cons_self⟩
      rw [getElem?_setServiced_of_ne _ hlast, getElem?_append_right (le_rfl),
        Nat.sub_self]
      rfl
  have hout := h.outstanding_accepted haccepts
  have hanswers := h.answers_accepted haccepts
  rw [length_nil] at hanswers
  refine h.accept haccepts ?_
  generalize hs' : ({ afterLoop count l s with
    readQueue := l.readQueue ++ ds
    helpers := setServiced l.burstHelper l.pktsServicedByWrQ (l.helpers ++ hs) } : State) = s'
    at hout hanswers ⊢
  rcases hloop.helper with ⟨hnone, hsame, hpushed⟩ | ⟨hsome, hnew, hcount, hpushed⟩
  · refine .plain hnone ?_
    rw [hout, hanswers, add_zero]
    by_cases hcount : 1 < count
    · -- The write queue and the buffer have served all bursts between them.
      rw [hpushed hcount, length_nil] at htotal ⊢
      refine (if_neg ?_).symm
      rintro (hzero | hall)
      · change l.pktsServicedByExtraBuf = 0 at hzero
        omega
      · exact hbuf hall
    · refine Eq.trans ?_ (if_pos (.inl (show l.pktsServicedByExtraBuf = 0 by omega))).symm
      omega
  · have hlength : 0 < pushed.length := length_pos_iff.mpr hpushed
    refine .split s.helpers.length ⟨count, l.pktsServicedByWrQ, some s.reads.length⟩ hsome
      ?_ rfl rfl
      (show l.pktsServicedByExtraBuf < count by omega) ?_ ?_
    · rw [← hs']
      change (setServiced l.burstHelper l.pktsServicedByWrQ
        (l.helpers ++ hs))[s.helpers.length]? = _
      rw [hsome, hnew, setServiced, getElem?_modify]
      simp
    · rw [hout]
      change l.pktsServicedByWrQ + pushed.length + l.pktsServicedByExtraBuf = count
      omega
    · rw [hanswers, if_neg (fun hboth => by omega)]

end Finish

theorem Accounts.read {addr size : ℕ} (h : Accounts s) (hsize : 0 < size)
    (hstep : addToReadQueue c addr size s = some s') : Accounts s' := by
  have hstart : LoopInv s s.reads.length (dramPktCount c addr size) 0
      ⟨addr, 0, 0, none, s.readQueue, s.helpers⟩ [] :=
    ⟨by rw [append_nil], rfl, (fun p hp => by cases hp), .inl ⟨rfl, rfl, fun _ => rfl⟩⟩
  obtain ⟨pushed, hloop⟩ := hstart.readLoop (c := c) (addr + size) (dramPktCount c addr size)
  rw [zero_add] at hloop
  exact h.finishRead (dramPktCount_pos hsize) hloop hstep

end Accept

/-! ### Runs -/

theorem Accounts.step {e : Event} (h : Accounts s) (hstep : step c s e = some s') :
    Accounts s' := by
  cases e with
  | read addr size =>
    obtain ⟨haccepted, hread⟩ := ite_none_right_eq_some.mp hstep
    exact h.read haccepted.1 hread
  | nextRead i =>
    obtain ⟨p, hp, rfl⟩ := map_eq_some_iff.mp hstep
    exact h.nextRead hp
  | write | nextWrite =>
    obtain ⟨-, rfl⟩ := of_guard hstep
    exact ⟨fun k r hr => (h.account k r hr).frame rfl rfl (fun _ _ hx _ => hx), h.packets,
      h.dummies, h.known, h.notDummy⟩
  | respond => exact h.respond hstep

/-! ### What each burst finds -/

theorem readLoop_counts (id stop count n : ℕ) (l : ReadLoop) :
    (readLoop c s id stop count n l).pktsServicedByWrQ =
        l.pktsServicedByWrQ + (List.iterate (nextBurst c) l.addr n).countP (ServedByWrQ c s stop) ∧
      (readLoop c s id stop count n l).pktsServicedByExtraBuf = l.pktsServicedByExtraBuf +
        (List.iterate (nextBurst c) l.addr n).countP (ServedByExtraBuf c s stop) ∧
      (readLoop c s id stop count n l).readQueue.length = l.readQueue.length +
        (List.iterate (nextBurst c) l.addr n).countP (ServedByDram c s stop) := by
  induction n generalizing l with
  | zero => exact ⟨rfl, rfl, rfl⟩
  | succ n ih =>
    obtain ⟨hwrq, hbuf, hqueue⟩ := ih (readBurst c s id stop count l)
    rw [readLoop, hwrq, hbuf, hqueue, List.iterate, countP_cons, countP_cons,
      countP_cons]
    unfold readBurst ServedByDram ServedByExtraBuf ServedByWrQ
    dsimp only
    split
    · next hfound => simp [hfound, add_assoc, add_comm 1]
    · next hfound =>
      split
      · next hextra => simp [hfound, hextra, add_assoc, add_comm 1]
      · next hextra => split <;> simp [hfound, hextra, add_assoc, add_comm 1]

variable {addr size : ℕ}

theorem length_bursts : (bursts c addr size).length = dramPktCount c addr size :=
  length_iterate _ _ _

theorem addToReadQueue_eq (c : Config) (s : State) (addr size : ℕ) : ∃ l : ReadLoop,
    addToReadQueue c addr size s = finishRead c s.reads.length addr (dramPktCount c addr size) l s ∧
      l.pktsServicedByWrQ = (bursts c addr size).countP (ServedByWrQ c s (addr + size)) ∧
      l.pktsServicedByExtraBuf = (bursts c addr size).countP (ServedByExtraBuf c s (addr + size)) ∧
      l.readQueue.length =
        s.readQueue.length + (bursts c addr size).countP (ServedByDram c s (addr + size)) := by
  obtain ⟨hwrq, hbuf, hqueue⟩ := readLoop_counts (c := c) (s := s) s.reads.length (addr + size)
    (dramPktCount c addr size) (dramPktCount c addr size) ⟨addr, 0, 0, none, s.readQueue, s.helpers⟩
  exact ⟨_, rfl, hwrq.trans (zero_add _), hbuf.trans (zero_add _), hqueue⟩

/-- The read that a step records, if it does. -/
theorem reads_of_step {e : Event} (hstep : step c s e = some s') :
    (∃ r, s'.reads = s.reads ++ [r] ∧ (r.Whole ↔ Whole c s e)) ∨
      s'.reads = s.reads ∧ Whole c s e := by
  cases e with
  | read addr size =>
    obtain ⟨-, hread⟩ := ite_none_right_eq_some.mp hstep
    obtain ⟨l, heq, -, hbuf, -⟩ := addToReadQueue_eq c s addr size
    rw [heq] at hread
    refine .inl ⟨⟨dramPktCount c addr size, l.pktsServicedByWrQ, l.pktsServicedByExtraBuf,
      l.burstHelper⟩, ?_, ?_⟩
    · rcases finishRead_cases hread with ⟨-, rfl⟩ | ⟨-, -, ds, hs, rfl, -⟩
      · rfl
      · rfl
    · rw [Read.Whole, hbuf, countP_eq_zero, ← length_bursts, countP_eq_length, or_comm]
      simp only [decide_eq_true_eq, Whole]
  | nextRead i =>
    obtain ⟨p, -, rfl⟩ := map_eq_some_iff.mp hstep
    exact .inr ⟨rfl, trivial⟩
  | write | nextWrite =>
    obtain ⟨-, rfl⟩ := of_guard hstep
    exact .inr ⟨rfl, trivial⟩
  | respond =>
    obtain ⟨p, rest, -, -, -, hreads, -⟩ := processRespondEvent_cases hstep
    exact .inr ⟨hreads, trivial⟩

theorem forall_whole_iff (h : Reached (step c) (fun _ _ => True) initial s) :
    (∀ r ∈ s.reads, r.Whole) ↔ Reached (step c) (Whole c) initial s := by
  constructor
  · intro hwhole
    induction h with
    | start => exact .start
    | next _ _ hstep ih =>
      rcases reads_of_step hstep with ⟨r, hreads, hr⟩ | ⟨hreads, hok⟩
      · rw [hreads, forall_mem_append, forall_mem_singleton, hr] at hwhole
        exact .next (ih hwhole.1) hwhole.2 hstep
      · exact .next (ih (hreads ▸ hwhole)) hok hstep
  · intro h
    refine h.invariant (I := fun s => ∀ r ∈ s.reads, r.Whole) (fun r hr => by cases hr)
      (fun s e s' hs hok hstep => ?_)
    rcases reads_of_step hstep with ⟨r, hreads, hr⟩ | ⟨hreads, -⟩
    · rw [hreads, forall_mem_append, forall_mem_singleton]
      exact ⟨hs, hr.mpr hok⟩
    · exact hreads ▸ hs

/-! ### Room for the dummies -/

/-- All bursts of the row but that of the read itself. -/
theorem length_dummies (hhave : c.haveExtraRowBuffer = true) (id addr : ℕ) (helper : Option ℕ) :
    (Dram.dummies c id addr helper).length = c.extraRowBufferSize / c.burstSize - 1 := by
  have hindex : (addr - row c addr * c.extraRowBufferSize) / c.burstSize <
      c.extraRowBufferSize / c.burstSize := by
    have hdiv := Nat.div_add_mod' addr c.extraRowBufferSize
    have hmod := Nat.mod_lt addr (c.row_pos hhave)
    refine Nat.div_lt_div_of_lt_of_dvd (c.burst_dvd_row hhave) ?_
    unfold row
    omega
  rw [Dram.dummies, length_map]
  generalize (addr - row c addr * c.extraRowBufferSize) / c.burstSize = i at hindex ⊢
  have hsplit := length_eq_countP_add_countP (· == i)
    (l := List.range (c.extraRowBufferSize / c.burstSize))
  rw [← count_eq_countP', count_range, if_pos hindex, length_range] at hsplit
  simp only [beq_iff_eq, countP_eq_length_filter] at hsplit
  simp only [ne_eq]
  omega

theorem isSome_addDummies (hhave : c.haveExtraRowBuffer = true) (id addr : ℕ)
    (hfits : s.readQueue.length + s.respQueue.length ≤ c.readBufferSize) :
    (addDummiesToReadQueue c id addr s).isSome = true ↔ s.readQueue.length + s.respQueue.length +
      (c.extraRowBufferSize / c.burstSize - 1) ≤ c.readBufferSize := by
  have hpush : ∀ helper (t : State), t.readQueue = s.readQueue → t.respQueue = s.respQueue →
      ((pushDummies c (Dram.dummies c id addr helper) t).isSome = true ↔
        s.readQueue.length + s.respQueue.length + (c.extraRowBufferSize / c.burstSize - 1) ≤
          c.readBufferSize) := by
    intro helper t hread hresp
    simp only [isSome_iff_exists, pushDummies_eq_some_iff, exists_eq_left,
      ← length_dummies hhave id addr helper,
      hread, hresp]
    refine ⟨fun h => ?_, .inr⟩
    rcases h with hnil | hle
    · simpa [hnil] using hfits
    · exact hle
  unfold addDummiesToReadQueue
  dsimp only
  split
  · split
    · exact hpush _ _ rfl rfl
    · exact hpush _ _ rfl rfl
  · next hnone => simp only [isSome_some, true_iff]; omega

theorem isSome_read_iff (haccepted : Accepted c s addr size) :
    (step c s (.read addr size)).isSome = true ↔ HasRoom c s addr size := by
  obtain ⟨l, heq, hwrq, hbuf, hqueue⟩ := addToReadQueue_eq c s addr size
  have hle : (bursts c addr size).countP (ServedByDram c s (addr + size)) ≤
      dramPktCount c addr size :=
    length_bursts (c := c) ▸ countP_le_length
  have hfits := haccepted.2
  have hallWrq : l.pktsServicedByWrQ = dramPktCount c addr size ↔
      ∀ a ∈ bursts c addr size, ServedByWrQ c s (addr + size) a := by
    rw [hwrq, ← length_bursts, countP_eq_length]
    simp only [decide_eq_true_eq]
  have hallBuf : l.pktsServicedByExtraBuf = dramPktCount c addr size ↔
      ∀ a ∈ bursts c addr size, ServedByExtraBuf c s (addr + size) a := by
    rw [hbuf, ← length_bursts, countP_eq_length]
    simp only [decide_eq_true_eq]
  rw [step, if_pos haccepted, heq, finishRead, HasRoom, ← hallWrq, ← hallBuf,
    Nat.add_right_comm _ s.respQueue.length, ← hqueue]
  split
  · next hall => simp [hall]
  split
  · next hall => simp [hall]
  next hwrq' hbuf' =>
  rw [isSome_map, or_iff_right hwrq', or_iff_right hbuf']
  split
  · next hhave =>
    rw [isSome_addDummies hhave, forall_prop_of_true hhave]
    · rfl
    · change l.readQueue.length + s.respQueue.length ≤ c.readBufferSize
      omega
  · next hhave => simp [hhave]

end Lemmas

/-- An accepted read aborts exactly if it has no room for its dummies. When the queues are drained,
every read has exactly one response if and only if the extra row buffer has served each read as a
whole or not at all. -/
theorem answered_iff (c : Config) (s : State)
    (h : Reached (step c) (fun _ _ => True) initial s) :
    (∀ addr size, Accepted c s addr size →
      ((step c s (.read addr size)).isSome = true ↔ HasRoom c s addr size)) ∧
    (s.readQueue = [] → s.respQueue = [] →
      (Answered s ↔ Reached (step c) (Whole c) initial s)) := by
  refine ⟨fun addr size haccepted => isSome_read_iff haccepted, fun hread hresp => ?_⟩
  have haccounts : Accounts s := h.invariant (I := Accounts) accounts_initial
    (fun s e s' hs _ hstep => hs.step hstep)
  have hdrained : ∀ k, outstanding s k = 0 := by
    intro k
    rw [outstanding, hread, hresp]
    rfl
  rw [← forall_whole_iff h]
  constructor
  · intro hanswered r hr
    obtain ⟨k, hk, hget⟩ := mem_iff_getElem.mp hr
    have haccount := haccounts.account k r (List.getElem?_eq_some_iff.mpr ⟨hk, hget⟩)
    exact (haccount.answers_eq_one_iff (hdrained k)).mp (hanswered.once k hk)
  · intro hwhole
    refine ⟨fun k hk => ?_, haccounts.notDummy⟩
    have haccount := haccounts.account k s.reads[k] (getElem?_eq_getElem hk)
    exact (haccount.answers_eq_one_iff (hdrained k)).mpr (hwhole _ (getElem_mem hk))

def smallController : Config where
  burstSize := 16
  haveExtraRowBuffer := true
  extraRowBufferSize := 64
  readBufferSize := 32
  writeBufferSize := 32
  burst_pos := by decide
  row_pos := by decide
  burst_dvd_row := by decide

def fillFirstRow : List Event :=
  [.read 0 8, .nextRead 0, .respond, .nextRead 0, .respond, .nextRead 0, .respond, .nextRead 0,
    .respond]

/-- Two bursts of the first row are in the buffer, and the queue has room for another row. -/
theorem answered_wholeRead : ∃ s, Reached (step smallController) (fun _ _ => True) initial s ∧
    s.reads.map Read.inExtraBuf = [0, 2] ∧ Answered s ∧
    (step smallController s (.read 64 8)).isSome = true := by
  have hrun : (runSchedule (guarded (step smallController) (Whole smallController)) initial
      (fillFirstRow ++ [.read 16 32])).map (fun s => (s.readQueue, s.respQueue,
        s.reads.map Read.inExtraBuf, decide (Accepted smallController s 64 8 ∧
          HasRoom smallController s 64 8))) = some ([], [], [0, 2], true) := by
    decide +kernel
  obtain ⟨s, hwhole, hvalues⟩ := exists_of_runSchedule _ hrun
  simp only [Prod.mk.injEq, decide_eq_true_eq] at hvalues
  obtain ⟨hread, hresp, hbuf, haccepted, hroom⟩ := hvalues
  have hreached : Reached (step smallController) (fun _ _ => True) initial s :=
    hwhole.mono (fun _ _ _ => trivial)
  obtain ⟨haborts, hanswered⟩ := answered_iff smallController s hreached
  exact ⟨s, hreached, hbuf, (hanswered hread hresp).mpr hwhole, (haborts 64 8 haccepted).mpr hroom⟩

/-- The first burst of the second read is in the buffer and the other one in the DRAM. -/
def bufferAndDram : List Event :=
  fillFirstRow ++ [.read 48 32, .nextRead 0, .respond, .nextRead 0, .respond, .nextRead 0, .respond,
    .nextRead 0, .respond]

/-- The first burst of the second read is in the buffer and the other one in the write queue. -/
def bufferAndWriteQueue : List Event :=
  fillFirstRow ++ [.write 64 16, .read 48 32, .nextRead 0, .respond, .nextRead 0, .respond,
    .nextRead 0, .respond]

/-- The run ends with empty queues, and nothing has answered the second read. -/
def Forgets (ls : List Event) : Prop :=
  ∃ s, Reached (step smallController) (fun _ _ => True) initial s ∧
    runSchedule (guarded (step smallController) (fun _ _ => True)) initial ls = some s ∧
    s.readQueue = [] ∧ s.respQueue = [] ∧ s.reads.length = 2 ∧ answers s 1 = 0 ∧ ¬ Answered s

theorem forgets_of_run {ls : List Event}
    (hrun : (runSchedule (guarded (step smallController) (fun _ _ => True)) initial ls).map
      (fun s => (s.readQueue, s.respQueue, s.reads.length, answers s 1)) = some ([], [], 2, 0)) :
    Forgets ls := by
  obtain ⟨s, hs, hvalues⟩ := map_eq_some_iff.mp hrun
  simp only [Prod.mk.injEq] at hvalues
  obtain ⟨hread, hresp, hreads, hanswers⟩ := hvalues
  refine ⟨s, reached_of_runSchedule ls hs, hs, hread, hresp, hreads, hanswers, fun hanswered => ?_⟩
  have hone := hanswered.once 1 (by omega)
  omega

/-- A queue as long as a row. -/
def shortQueue : Config := { smallController with readBufferSize := 4 }

/-- The second read of `Forgets` is not answered; and a read of another row is accepted when three
dummies are in the queue, and aborts. -/
theorem partRead_not_answered : Forgets bufferAndDram ∧ Forgets bufferAndWriteQueue ∧
    ∃ s, Reached (step shortQueue) (fun _ _ => True) initial s ∧ Accepted shortQueue s 64 8 ∧
      step shortQueue s (.read 64 8) = none := by
  refine ⟨?_, ?_, ?_⟩
  · apply forgets_of_run
    decide +kernel
  · apply forgets_of_run
    decide +kernel
  · have hrun : (runSchedule (guarded (step shortQueue) (fun _ _ => True)) initial
        [.read 0 8, .nextRead 0, .respond]).map (fun s => (decide (Accepted shortQueue s 64 8),
          (step shortQueue s (.read 64 8)).isNone)) = some (true, true) := by
      decide +kernel
    obtain ⟨s, hreached, hvalues⟩ := exists_of_runSchedule _ hrun
    simp only [Prod.mk.injEq, decide_eq_true_eq, isNone_iff_eq_none] at hvalues
    exact ⟨s, hreached, hvalues.1, hvalues.2⟩

end SmcSim.Dram
