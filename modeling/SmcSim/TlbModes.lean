import SmcSim.TlbPorts

/-!
# Atomic and timing mode

The packet that `recvAtomic` sends and the one that `recvTimingReq` sends, after a refill if it
has to. They are the same unless an HMC command misses: atomic mode then refills and
translates the address of the register instead of the one that the command is for.
-/

namespace SmcSim.Tlb
open SliceTable TranslationRules Option List

def Packet.command (p : Packet) : ℕ × Option HmcCommand × ℕ :=
  (p.addr, p.atomicHmcCommand, p.atomicHmcOperand)

def Outcome.command : Outcome → Option (ℕ × Option HmcCommand × ℕ)
  | .sent p => some p.command
  | .retry _ | .answered _ => none

section Modes

variable (c : Params) (table : ℕ → Slice)

def atomicSends (now : ℕ) (p : Packet) (s : PortState) : Option (ℕ × Option HmcCommand × ℕ) :=
  (recvAtomic c table now p s).bind (fun x => x.1.map Packet.command)

/-- After a miss the refill is answered and the requester retries. The three times are those of
the two attempts and of the answer between them. -/
def timingSends (now answered retried : ℕ) (p : Packet) (s : PortState) :
    Option (ℕ × Option HmcCommand × ℕ) :=
  (recvTimingReq c table now true true p s).bind (fun x =>
    match x.1 with
    | .retry q =>
        (recvRefill c.toConfig table answered (target c p) x.2.tlb).bind (fun t =>
          (recvTimingReq c table retried true true q { x.2 with tlb := t }).bind
            (fun y => y.1.command))
    | .sent q => (Outcome.sent q).command
    | .answered q => (Outcome.answered q).command)

structure CommandMisses (p : Packet) (s : PortState) : Prop where
  notRefill : ¬ AtRefillReg c p
  decoded : checkHmcCommand c p s.hmcOperand ≠ none
  table : c.sliceTablePtr ≠ 0
  command : target c p ≠ p.addr
  misses : translate s.tlb.rules (target c p) = none

end Modes

/-- The entry of the page of `a` contains `a` and puts it at `b`. -/
def EntryMaps (c : Config) (table : ℕ → Slice) (a b : ℕ) : Prop :=
  let x := table (index c a)
  c.sliceVStart ≤ a ∧ x.vaddr ≤ a ∧ a ≤ lastAddr x.vaddr x.size ∧ a - x.vaddr + x.paddr = b

/-- The rules that stay when a refill needs room. -/
def keptRules (c : Config) (t : State) : List Rule :=
  if c.tlbSize ≤ t.rules.length then t.rules.eraseIdx (leastRecentlyUsed t.rules) else t.rules

/-- A rule that stays puts `a` at `b`, or no such rule contains `a` and the entry of its page
does. -/
def RefillMaps (c : Config) (table : ℕ → Slice) (t : State) (a b : ℕ) : Prop :=
  c.sliceVStart ≤ a ∧ (translate (keptRules c t) a = some b ∨
    translate (keptRules c t) a = none ∧ EntryMaps c table a b)

section Lemmas

variable {c : Params} {table : ℕ → Slice} {p q : Packet} {s : PortState} {t t' : State}
  {now answered retried a b operand operand' : ℕ}

/-! ### Decoding -/

theorem writeOperand_again :
    writeOperand c p (writeOperand c p operand) = writeOperand c p operand := by
  unfold writeOperand
  split
  · rfl
  · rfl

theorem writeOperand_of_command {command : HmcCommand} (h : hmcWrite c p = some command) :
    writeOperand c p operand = operand := by
  unfold writeOperand
  split
  · next hreg =>
    unfold hmcWrite at h
    split at h
    · next hwrite =>
      obtain ⟨hincr, hfadd, himin⟩ := c.operand_separate (hreg.1 ▸ hwrite.1)
      rw [hreg.1, hmcRegister, if_neg hincr, if_neg hfadd, if_neg himin] at h
      cases h
    · cases h
  · rfl

/-- A retried packet is decoded as before. -/
theorem checkHmcCommand_again (h : checkHmcCommand c p operand = some (a, q, operand')) :
    checkHmcCommand c q operand' = some (a, q, operand') := by
  simp only [checkHmcCommand] at h
  split at h
  · next hzero =>
    obtain ⟨rfl, rfl, rfl⟩ := by simpa using h
    simp [checkHmcCommand, hzero]
  · next hzero =>
    split at h
    · next command hcommand =>
      split at h
      · next hsize =>
        split at h
        · cases h
        · next hlast =>
          split at h
          · next hword =>
            obtain ⟨rfl, rfl, rfl⟩ := by simpa using h
            simp [checkHmcCommand, hzero, hcommand, hsize, hword]
          · next hword =>
            rw [writeOperand_of_command hcommand] at h
            obtain ⟨rfl, rfl, rfl⟩ := by simpa using h
            generalize hq : ({ p with
              atomicHmcCommand := some command
              atomicHmcOperand := if command = .inc then p.atomicHmcOperand else operand } :
                Packet) = q
            have hcommand' : hmcWrite c q = some command := by rw [← hq]; exact hcommand
            have hzero' : ¬ q.addr = 0 := by rw [← hq]; exact hzero
            have hsize' : q.size = c.pimArch / 8 := by rw [← hq]; exact hsize
            have hword' : q.word c.toConfig = p.word c.toConfig := by rw [← hq]; rfl
            rw [checkHmcCommand, if_neg hzero', hcommand']
            dsimp only
            rw [if_pos hsize', hword', if_neg hlast, if_neg hword,
              writeOperand_of_command hcommand']
            rw [← hq]
            by_cases hinc : command = .inc
            · simp [hinc]
            · simp [hinc]
      · cases h
    · next hno =>
      obtain ⟨rfl, rfl, rfl⟩ := by simpa using h
      rw [checkHmcCommand, if_neg hzero, hno]
      dsimp only
      rw [writeOperand_again]

/-! ### Hits and misses -/

/-- The sender state is nothing that the memory sees. -/
theorem command_forward (a b : ℕ) (p : Packet) :
    (forward true a (remapped b p)).command = some (b, p.atomicHmcCommand, p.atomicHmcOperand) := by
  change some (Packet.command (if _ then _ else _)) = _
  split
  · rfl
  · rfl

theorem remap_of_miss (now : ℕ) (htable : c.sliceTablePtr ≠ 0) (h : translate t.rules a = none) :
    remap c.toConfig now a t = some (none, t) := by
  rw [remap, h]
  exact if_pos htable

theorem remap_of_noTable (now : ℕ) (htable : c.sliceTablePtr = 0) (h : translate t.rules a = none) :
    remap c.toConfig now a t = none := by
  rw [remap, h]
  exact if_neg (not_not_intro htable)

theorem refilled_of_panic (h : refillTLBFunctional c.toConfig table now a t = none) :
    refilled c.toConfig table a t = none := by
  simp only [refilled, refillTLBFunctional] at h ⊢
  split at h
  · next hle =>
    split at h
    · next hpending => rw [if_pos hle, if_pos hpending, bind_none]
    · cases h
  · next hle => rw [if_neg hle, bind_none]

/-- The request for an entry and its answer do what a refill does. -/
theorem recvRefill_of_timing (table : ℕ → Slice) (now : ℕ) (hpending : t.pendingRefills = [])
    (hle : c.sliceVStart ≤ a) :
    ∃ t₁ t₂, refillTLBTiming c.toConfig true a t = some t₁ ∧
      recvRefill c.toConfig table now a t₁ = some t₂ ∧
      translate t₂.rules a = refilled c.toConfig table a t := by
  have hnot : entryAddr c.toConfig a ∉ t.pendingRefills := by
    rw [hpending]
    exact not_mem_nil
  have hmem : entryAddr c.toConfig a ∈ t.pendingRefills ++ [entryAddr c.toConfig a] :=
    mem_append_right _ (mem_singleton.mpr rfl)
  refine ⟨{ t with pendingRefills := t.pendingRefills ++ [entryAddr c.toConfig a] }, _, ?_,
    if_pos hmem, ?_⟩
  · rw [refillTLBTiming, if_pos hle, if_neg hnot, if_pos rfl]
  · rw [refilled, refillTLBFunctional, if_pos hle, if_neg hnot, bind_some,
      translate_updateTLB]
    rfl

theorem refilled_eq_some_iff (hpending : t.pendingRefills = []) :
    refilled c.toConfig table a t = some b ↔ RefillMaps c.toConfig table t a b := by
  have hnot : entryAddr c.toConfig a ∉ t.pendingRefills := by
    rw [hpending]
    exact not_mem_nil
  by_cases hle : c.sliceVStart ≤ a
  · rw [refilled, refillTLBFunctional, if_pos hle, if_neg hnot, bind_some, rules_updateTLB]
    change translate (keptRules c.toConfig t ++ [_]) a = some b ↔ _
    simp only [TranslationRules.translate, ruleFor, find?_append, map_or, or_eq_some_iff,
      RefillMaps, EntryMaps, hle, true_and, find?_singleton]
    refine or_congr_right (and_congr_right fun _ => ?_)
    split
    · next hcontains =>
      obtain ⟨hstart, hstop⟩ := of_decide_eq_true hcontains
      exact ⟨fun h => ⟨hstart, hstop, some.inj h⟩, fun h => congrArg some h.2.2⟩
    · next hcontains =>
      refine ⟨(fun h => by cases h), fun h => ?_⟩
      exact absurd (decide_eq_true ⟨h.1, h.2.1⟩) hcontains
  · rw [refilled, refillTLBFunctional, if_neg hle]
    exact ⟨(fun h => by cases h), fun h => absurd h.1 hle⟩

/-- An address that no rule contains is given its place by its entry only. -/
theorem refillMaps_of_miss (hmiss : translate t.rules a = none) :
    RefillMaps c.toConfig table t a b ↔ EntryMaps c.toConfig table a b := by
  have hkept : translate (keptRules c.toConfig t) a = none :=
    translate_subset hmiss mem_eraseIdx_of_updateTLB
  rw [RefillMaps, hkept]
  exact ⟨fun h => (h.2.resolve_left (fun h => by cases h)).2, fun h => ⟨h.1, .inr ⟨rfl, h⟩⟩⟩

/-! ### What is sent -/

section Decoded

variable (hreg : ¬ AtRefillReg c p)
  (hcheck : checkHmcCommand c p s.hmcOperand = some (a, q, operand))

include hreg hcheck

private theorem atomicSends_of_decoded (now : ℕ) (htable : c.sliceTablePtr ≠ 0) :
    atomicSends c table now p s = ((translate s.tlb.rules (target c p)).or
      (refilled c.toConfig table p.addr s.tlb)).map
        (fun b => (b, q.atomicHmcCommand, q.atomicHmcOperand)) := by
  obtain ⟨htarget, -⟩ := checkHmcCommand_cases hcheck
  rw [atomicSends, recvAtomic, if_neg hreg, hcheck, bind_some]
  dsimp only
  rw [htarget]
  cases htranslate : translate s.tlb.rules (target c p) with
  | some b =>
    rw [remap_of_translate htranslate]
    rfl
  | none =>
    rw [remap_of_miss now htable htranslate, bind_some, none_or]
    dsimp only
    cases hrefill : refillTLBFunctional c.toConfig table now p.addr s.tlb with
    | none =>
      rw [refilled_of_panic hrefill]
      rfl
    | some t =>
      rw [← refillTLBFunctional_eq hrefill, bind_some]
      cases hagain : translate t.rules p.addr with
      | some b =>
        rw [remap_of_translate hagain]
        rfl
      | none =>
        rw [remap_of_miss now htable hagain]
        rfl

private theorem timingSends_of_decoded (now answered retried : ℕ) (hfresh : p.isRemapped = false)
    (hpending : s.tlb.pendingRefills = []) (htable : c.sliceTablePtr ≠ 0) :
    timingSends c table now answered retried p s =
      (translation c.toConfig table (target c p) s.tlb).map
        (fun b => (b, q.atomicHmcCommand, q.atomicHmcOperand)) := by
  obtain ⟨htarget, hsame, haddr, hremapped⟩ := checkHmcCommand_cases hcheck
  have hnotRemapped : ¬ p.isRemapped = true := by simp [hfresh]
  rw [timingSends, recvTimingReq, if_neg hreg, if_neg hnotRemapped, hcheck, bind_some]
  dsimp only
  rw [htarget]
  cases htranslate : translate s.tlb.rules (target c p) with
  | some b =>
    rw [remap_of_translate htranslate, bind_some, translation, htranslate, some_or,
      map_some]
    exact command_forward _ b q
  | none =>
    rw [remap_of_miss now htable htranslate, bind_some, translation, htranslate,
      none_or]
    dsimp only
    split
    · next hideal =>
      cases hrefill : refillTLBFunctional c.toConfig table now (target c p) s.tlb with
      | none =>
        rw [refilled_of_panic hrefill]
        rfl
      | some t =>
        rw [← refillTLBFunctional_eq hrefill, bind_some]
        cases hagain : translate t.rules (target c p) with
        | some b =>
          rw [remap_of_translate hagain, bind_some]
          exact command_forward _ b q
        | none =>
          rw [remap_of_miss now htable hagain]
          rfl
    · next hideal =>
      by_cases hle : c.sliceVStart ≤ target c p
      · obtain ⟨t₁, t₂, ht₁, ht₂, htranslate₂⟩ :=
          recvRefill_of_timing table answered hpending hle
        -- The retried packet is decoded and translated again.
        have hreg' : ¬ AtRefillReg c q := by
          rwa [AtRefillReg, haddr]
        have hnotRemapped' : ¬ q.isRemapped = true := by simp [hremapped, hfresh]
        rw [ht₁, map_some, bind_some]
        dsimp only
        rw [ht₂, bind_some, recvTimingReq, if_neg hreg', if_neg hnotRemapped']
        dsimp only
        rw [checkHmcCommand_again hcheck, bind_some]
        dsimp only
        rw [haddr, htarget, ← htranslate₂]
        cases hagain : translate t₂.rules (target c p) with
        | some b =>
          rw [remap_of_translate hagain, bind_some]
          exact command_forward _ b q
        | none =>
          rw [remap_of_miss retried htable hagain, bind_some]
          dsimp only
          rw [if_neg hideal]
          cases refillTLBTiming c.toConfig true (target c p) t₂ with
          | none => rfl
          | some t₃ => rfl
      · rw [refillTLBTiming, if_neg hle, refilled, refillTLBFunctional, if_neg hle]
        rfl

/-- Without a slice table a miss is a panic in both modes. -/
private theorem sends_of_noTable (table : ℕ → Slice) (now answered retried : ℕ)
    (hfresh : p.isRemapped = false) (htable : c.sliceTablePtr = 0) :
    timingSends c table now answered retried p s = atomicSends c table now p s := by
  obtain ⟨htarget, -⟩ := checkHmcCommand_cases hcheck
  have hnotRemapped : ¬ p.isRemapped = true := by simp [hfresh]
  rw [timingSends, recvTimingReq, if_neg hreg, if_neg hnotRemapped, atomicSends, recvAtomic,
    if_neg hreg, hcheck, bind_some, bind_some]
  dsimp only
  rw [htarget]
  cases htranslate : translate s.tlb.rules (target c p) with
  | some b =>
    rw [remap_of_translate htranslate, bind_some, bind_some]
    exact command_forward _ b q
  | none => rw [remap_of_noTable now htable htranslate, bind_none, bind_none,
      bind_none, bind_none]

end Decoded

private theorem sends_of_refillReg (table : ℕ → Slice) (s : PortState) (now answered retried : ℕ)
    (hreg : AtRefillReg c p) :
    timingSends c table now answered retried p s = none ∧ atomicSends c table now p s = none := by
  rw [timingSends, recvTimingReq, if_pos hreg, atomicSends, recvAtomic, if_pos hreg]
  constructor
  · split
    · cases refillRequest c table now (p.word c.toConfig) s.tlb with
      | none => rfl
      | some t => rfl
    · rfl
  · split
    · cases refillRequest c table now (p.word c.toConfig) s.tlb with
      | none => rfl
      | some t => rfl
    · rfl

private theorem sends_of_malformed (table : ℕ → Slice) (now answered retried : ℕ)
    (hfresh : p.isRemapped = false) (hreg : ¬ AtRefillReg c p)
    (hcheck : checkHmcCommand c p s.hmcOperand = none) :
    timingSends c table now answered retried p s = none ∧ atomicSends c table now p s = none := by
  have hnotRemapped : ¬ p.isRemapped = true := by simp [hfresh]
  rw [timingSends, recvTimingReq, if_neg hreg, if_neg hnotRemapped, atomicSends, recvAtomic,
    if_neg hreg, hcheck]
  exact ⟨rfl, rfl⟩

end Lemmas

/-- Both modes send the same packet unless an HMC command misses. Then they do if the entry for the
target puts it where the register's address is put, or neither of the two has a place. -/
theorem timingSends_eq_iff (c : Params) (table : ℕ → Slice) (now answered retried : ℕ) (p : Packet)
    (s : PortState) (hfresh : p.isRemapped = false) (hpending : s.tlb.pendingRefills = []) :
    timingSends c table now answered retried p s = atomicSends c table now p s ↔
      (CommandMisses c p s → ∀ b, EntryMaps c.toConfig table (target c p) b ↔
        RefillMaps c.toConfig table s.tlb p.addr b) := by
  by_cases hreg : AtRefillReg c p
  · obtain ⟨htiming, hatomic⟩ := sends_of_refillReg table s now answered retried hreg
    rw [htiming, hatomic]
    exact ⟨fun _ hmiss => absurd hreg hmiss.notRefill, fun _ => rfl⟩
  cases hcheck : checkHmcCommand c p s.hmcOperand with
  | none =>
    obtain ⟨htiming, hatomic⟩ := sends_of_malformed table now answered retried hfresh hreg hcheck
    rw [htiming, hatomic]
    exact ⟨fun _ hmiss => absurd hcheck hmiss.decoded, fun _ => rfl⟩
  | some x =>
    by_cases htable : c.sliceTablePtr = 0
    · have hsame := sends_of_noTable hreg hcheck table now answered retried hfresh htable
      exact ⟨fun _ hmiss => absurd htable hmiss.table, fun _ => hsame⟩
    rw [timingSends_of_decoded hreg hcheck now answered retried hfresh hpending htable,
      atomicSends_of_decoded hreg hcheck now htable, translation]
    have hinj : Function.Injective
        (fun b : ℕ => (b, x.2.1.atomicHmcCommand, x.2.1.atomicHmcOperand)) :=
      fun b b' hb => (Prod.mk.inj hb).1
    rw [(map_injective hinj).eq_iff]
    cases htranslate : translate s.tlb.rules (target c p) with
    | some b =>
      refine ⟨fun _ hmiss => ?_, fun _ => rfl⟩
      rw [hmiss.misses] at htranslate
      cases htranslate
    | none =>
      rw [none_or, none_or, Option.ext_iff]
      simp only [refilled_eq_some_iff hpending, refillMaps_of_miss htranslate]
      constructor
      · exact fun hsame _ => hsame
      · intro hsame
        by_cases hcommand : target c p = p.addr
        · rw [hcommand] at htranslate ⊢
          exact fun b => (refillMaps_of_miss htranslate).symm
        · exact hsame ⟨hreg, by rw [hcheck]; exact some_ne_none _, htable, hcommand, htranslate⟩

/-- An HMC command for an address that hits. -/
theorem timingSends_eq_atHit :
    timingSends (smallPorts false 0x40) (pageSlices fourPages 0x8000) 1 2 3
      (writePacket 0x44 0x9004)
        ⟨⟨[scratchpad, secondPage], []⟩, 0⟩ =
      atomicSends (smallPorts false 0x40) (pageSlices fourPages 0x8000) 1 (writePacket 0x44 0x9004)
        ⟨⟨[scratchpad, secondPage], []⟩, 0⟩ := by
  refine (timingSends_eq_iff (smallPorts false 0x40) (pageSlices fourPages 0x8000) 1 2 3
    (writePacket 0x44 0x9004) ⟨⟨[scratchpad, secondPage], []⟩, 0⟩ rfl rfl).mpr (fun hmiss => ?_)
  exact absurd hmiss.misses (by decide)

/-- The command misses. In atomic mode the assertion of `refillTLB_atomic` fails, or, if the
registers lie above the region, the increment goes to the register. -/
theorem command_differs :
    (∀ idealRefill : Bool,
      timingSends (smallPorts idealRefill 0x40) (pageSlices fourPages 0x8000) 1 2 3
          (writePacket 0x44 0x9004) ⟨⟨[scratchpad], []⟩, 0⟩ = some (0x12004, some .inc, 0) ∧
      atomicSends (smallPorts idealRefill 0x40) (pageSlices fourPages 0x8000) 1
          (writePacket 0x44 0x9004) ⟨⟨[scratchpad], []⟩, 0⟩ = none) ∧
    ∀ idealRefill : Bool,
      timingSends (smallPorts idealRefill 0xf040) (pageSlices fourPages 0x8000) 1 2 3
          (writePacket 0xf044 0x9004) ⟨⟨[⟨⟨0xf000, 0xffff⟩, ⟨0x40000, 0x40fff⟩, 0⟩], []⟩, 0⟩ =
        some (0x12004, some .inc, 0) ∧
      atomicSends (smallPorts idealRefill 0xf040) (pageSlices fourPages 0x8000) 1
          (writePacket 0xf044 0x9004) ⟨⟨[⟨⟨0xf000, 0xffff⟩, ⟨0x40000, 0x40fff⟩, 0⟩], []⟩, 0⟩ =
        some (0x40044, some .inc, 0) := by
  decide

end SmcSim.Tlb
