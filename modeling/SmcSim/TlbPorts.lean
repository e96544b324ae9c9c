import SmcSim.TlbLayouts

/-!
# The ports of the TLB

`recvAtomic`, `recvTimingReq` and `recvTimingResp` of `ethz_tlb.cc`. A packet is translated in
place: its address, the HMC command that a write to an HMC register stands for and the stack
of sender states are fields of the packet, and a packet that is refused goes back with what
the TLB has written into it.
-/

namespace SmcSim.Tlb
open SliceTable TranslationRules Option

/-! ### Packets -/

inductive HmcCommand where
  | inc
  | fadd
  | min
  deriving DecidableEq, Repr

inductive SenderState where
  | addrMapper (origAddr : ℕ)
  | other (id : ℕ)
  deriving DecidableEq, Repr

/-- `data` is the number that the bytes of the packet stand for. -/
structure Packet where
  addr : ℕ
  isWrite : Bool
  needsResponse : Bool
  memInhibitAsserted : Bool
  size : ℕ
  data : ℕ
  isRemapped : Bool
  atomicHmcCommand : Option HmcCommand
  atomicHmcOperand : ℕ
  senderState : List SenderState
  deriving DecidableEq, Repr

/-- The parameters of the ports. A register that is not used has address zero; the others are
different variables of `registers.h`. -/
structure Params extends Config where
  idealRefill : Bool
  pimDtlbIdealRefillReg : ℕ
  hmcAtomicIncr : ℕ
  hmcAtomicFadd : ℕ
  hmcAtomicImin : ℕ
  hmcOperandReg : ℕ
  operand_separate : hmcOperandReg ≠ 0 → hmcOperandReg ≠ hmcAtomicIncr ∧
    hmcOperandReg ≠ hmcAtomicFadd ∧ hmcOperandReg ≠ hmcAtomicImin

structure PortState where
  tlb : State
  hmcOperand : ℕ

namespace Packet

/-- `*c` for a pointer to a word of the PIM. -/
def word (c : Config) (p : Packet) : ℕ :=
  if c.pimArch = 32 then p.data % 0x100000000 else p.data % 0x10000000000000000

end Packet

/-! ### Registers -/

section Ports

variable (c : Params) (table : ℕ → Slice)

def hmcRegister (a : ℕ) : Option HmcCommand :=
  if a = c.hmcAtomicIncr then some .inc
  else if a = c.hmcAtomicFadd then some .fadd
  else if a = c.hmcAtomicImin then some .min
  else none

def hmcWrite (p : Packet) : Option HmcCommand :=
  if p.addr ≠ 0 ∧ p.isWrite then hmcRegister c p.addr else none

def writeOperand (p : Packet) (operand : ℕ) : ℕ :=
  if p.addr = c.hmcOperandReg ∧ p.isWrite then p.data % 0x100000000 else operand

/-- `check_hmc_command`: the address that the command is for, or zero, the packet and the
operand register. -/
def checkHmcCommand (p : Packet) (operand : ℕ) : Option (ℕ × Packet × ℕ) :=
  if p.addr = 0 then some (0, p, operand)
  else
    match hmcWrite c p with
    | some command =>
        if p.size = c.pimArch / 8 then
          if p.word c.toConfig = 0xffffffffffffffff then none
          else if p.word c.toConfig = 0 then some (0, p, operand)
          else some (p.word c.toConfig, { p with
            atomicHmcCommand := some command
            atomicHmcOperand := if command = .inc then p.atomicHmcOperand else operand },
            writeOperand c p operand)
        else none
    | none => some (0, p, writeOperand c p operand)

def AtRefillReg (p : Packet) : Prop :=
  c.pimDtlbIdealRefillReg ≠ 0 ∧ p.addr = c.pimDtlbIdealRefillReg

instance (p : Packet) : Decidable (AtRefillReg c p) := inferInstanceAs (Decidable (_ ∧ _))

def refillRequest (now a : ℕ) (t : State) : Option State :=
  if a ≠ 0 ∧ remapCheck t a = none then refillTLBFunctional c.toConfig table now a t else some t

/-! ### Atomic mode -/

def recvAtomic (now : ℕ) (p : Packet) (s : PortState) : Option (Option Packet × PortState) :=
  if AtRefillReg c p then
    if p.size = c.pimArch / 8 ∧ p.isWrite then
      (refillRequest c table now (p.word c.toConfig) s.tlb).map
        (fun t => (none, { s with tlb := t }))
    else none
  else
    (checkHmcCommand c p s.hmcOperand).bind (fun x =>
      let a := if x.1 = 0 then p.addr else x.1
      (remap c.toConfig now a s.tlb).bind (fun y =>
        match y.1 with
        | some b => some (some { x.2.1 with addr := b }, ⟨y.2, x.2.2⟩)
        | none =>
            (refillTLBFunctional c.toConfig table now p.addr y.2).bind (fun t =>
              (remap c.toConfig now p.addr t).bind (fun y =>
                match y.1 with
                | some b => some (some { x.2.1 with addr := b }, ⟨y.2, x.2.2⟩)
                | none => none))))

/-! ### Timing mode -/

/-- What becomes of a request: the requester has to retry it, it is on its way, or the TLB has
answered it. -/
inductive Outcome where
  | retry (p : Packet)
  | sent (p : Packet)
  | answered (p : Packet)
  deriving DecidableEq, Repr

/-- The sender state is pushed, and popped if the port downstream does not take the packet. -/
def forward (accepted : Bool) (origAddr : ℕ) (p : Packet) : Outcome :=
  let q :=
    if p.needsResponse ∧ ¬ p.memInhibitAsserted then
      { p with senderState := .addrMapper origAddr :: p.senderState }
    else p
  if accepted then .sent q
  else if p.needsResponse then .retry { q with senderState := q.senderState.tail }
  else .retry q

def remapped (a : ℕ) (p : Packet) : Packet := { p with addr := a, isRemapped := true }

/-- `recvTimingReq`, where `refillAccepted` and `accepted` tell whether the port downstream takes a
request for an entry of the slice table and the packet itself. -/
def recvTimingReq (now : ℕ) (refillAccepted accepted : Bool) (p : Packet) (s : PortState) :
    Option (Outcome × PortState) :=
  if AtRefillReg c p then
    if p.isWrite ∧ p.size = c.pimArch / 8 ∧ p.needsResponse then
      (refillRequest c table now (p.word c.toConfig) s.tlb).map
        (fun t => (.answered p, { s with tlb := t }))
    else none
  else if p.isRemapped then some (forward accepted p.addr p, s)
  else
    (checkHmcCommand c p s.hmcOperand).bind (fun x =>
      let a := if x.1 = 0 then p.addr else x.1
      (remap c.toConfig now a s.tlb).bind (fun y =>
        match y.1 with
        | some b => some (forward accepted a (remapped b x.2.1), ⟨y.2, x.2.2⟩)
        | none =>
            if c.idealRefill then
              (refillTLBFunctional c.toConfig table now a y.2).bind (fun t =>
                (remap c.toConfig now a t).bind (fun y =>
                  match y.1 with
                  | some b => some (forward accepted a (remapped b x.2.1), ⟨y.2, x.2.2⟩)
                  | none => none))
            else
              (refillTLBTiming c.toConfig refillAccepted a y.2).map
                (fun t => (.retry x.2.1, ⟨t, x.2.2⟩))))

/-- `recvTimingResp` for a packet that is not a refill: whether the requester takes it, and the
packet. -/
def recvTimingResp (accepted : Bool) (p : Packet) : Option (Bool × Packet) :=
  match p.senderState with
  | .addrMapper origAddr :: predecessor =>
      let q := { p with senderState := predecessor, addr := origAddr }
      if accepted then some (true, q)
      else some (false, { q with senderState := p.senderState, addr := p.addr })
  | _ => none

end Ports

/-! ### Translation -/

/-- The address that is translated for a packet: the one an HMC command is for, or its own. -/
def target (c : Params) (p : Packet) : ℕ :=
  if hmcWrite c p ≠ none ∧ p.word c.toConfig ≠ 0 then p.word c.toConfig else p.addr

structure Packet.Same (p q : Packet) : Prop where
  isWrite : q.isWrite = p.isWrite
  needsResponse : q.needsResponse = p.needsResponse
  memInhibitAsserted : q.memInhibitAsserted = p.memInhibitAsserted
  size : q.size = p.size
  data : q.data = p.data
  senderState : q.senderState = p.senderState

theorem Packet.Same.refl (p : Packet) : p.Same p := ⟨rfl, rfl, rfl, rfl, rfl, rfl⟩

theorem Packet.Same.trans {p q r : Packet} (h : p.Same q) (h' : q.Same r) : p.Same r :=
  ⟨h'.isWrite.trans h.isWrite, h'.needsResponse.trans h.needsResponse,
    h'.memInhibitAsserted.trans h.memInhibitAsserted, h'.size.trans h.size, h'.data.trans h.data,
    h'.senderState.trans h.senderState⟩

theorem Packet.Same.remapped {p q : Packet} (h : p.Same q) (b : ℕ) : p.Same (remapped b q) :=
  ⟨h.isWrite, h.needsResponse, h.memInhibitAsserted, h.size, h.data, h.senderState⟩

def refilled (c : Config) (table : ℕ → Slice) (a : ℕ) (t : State) : Option ℕ :=
  (refillTLBFunctional c table 0 a t).bind (fun t' => translate t'.rules a)

def translation (c : Config) (table : ℕ → Slice) (a : ℕ) (t : State) : Option ℕ :=
  (translate t.rules a).or (refilled c table a t)

/-- The requester has to wait for a refill. -/
def Misses (c : Params) (a : ℕ) (t : State) : Prop :=
  translate t.rules a = none ∧ c.idealRefill = false

instance (c : Params) (a : ℕ) (t : State) : Decidable (Misses c a t) :=
  inferInstanceAs (Decidable (_ ∧ _))

section Lemmas

variable {c : Params} {table : ℕ → Slice} {p q : Packet} {s s' : PortState} {t t' : State}
  {now a b operand operand' : ℕ} {refillAccepted accepted : Bool} {x : Outcome}

/-- The time of a refill says when the rule was used and nothing about its addresses. -/
theorem translate_updateTLB (c : Config) (now : ℕ) (y : Slice) (t : State) (a : ℕ) :
    translate (updateTLB c now y t).rules a = translate (updateTLB c 0 y t).rules a := by
  simp only [rules_updateTLB, TranslationRules.translate, ruleFor, List.find?_append, map_or]
  rw [List.find?_singleton, List.find?_singleton]
  congr 1
  change Option.map _ (if decide ((ruleOf 0 y).original.Contains a) = true then _ else _) = _
  split
  · rfl
  · rfl

theorem remap_cases {y : Option ℕ × State} (h : remap c.toConfig now a t = some y) :
    (y.1 = translate t.rules a) ∧ (y.1 = none → y.2 = t) := by
  simp only [remap] at h
  split at h
  · next b hb =>
    cases h
    exact ⟨hb.symm, fun hnone => absurd hnone (some_ne_none b)⟩
  · next hnone =>
    split at h
    · cases h
      exact ⟨hnone.symm, fun _ => rfl⟩
    · cases h

theorem refillTLBFunctional_eq (h : refillTLBFunctional c.toConfig table now a t = some t') :
    translate t'.rules a = refilled c.toConfig table a t := by
  simp only [refilled, refillTLBFunctional] at h ⊢
  split at h
  · next hle =>
    split at h
    · cases h
    · next hpending =>
      cases h
      rw [if_pos hle, if_neg hpending, bind_some, translate_updateTLB]
  · cases h

theorem checkHmcCommand_cases (h : checkHmcCommand c p operand = some (a, q, operand')) :
    (if a = 0 then p.addr else a) = target c p ∧ p.Same q ∧ q.addr = p.addr ∧
      q.isRemapped = p.isRemapped := by
  simp only [checkHmcCommand] at h
  split at h
  · next hzero =>
    obtain ⟨rfl, rfl, rfl⟩ := by simpa using h
    have hno : hmcWrite c p = none := by simp [hmcWrite, hzero]
    exact ⟨by simp [target, hno], .refl p, rfl, rfl⟩
  · split at h
    · next command hcommand =>
      split at h
      · split at h
        · cases h
        · split at h
          · next hword =>
            obtain ⟨rfl, rfl, rfl⟩ := by simpa using h
            exact ⟨by simp [target, hword], .refl p, rfl, rfl⟩
          · next hword =>
            obtain ⟨rfl, rfl, rfl⟩ := by simpa using h
            exact ⟨by simp [target, hword, hcommand], ⟨rfl, rfl, rfl, rfl, rfl, rfl⟩, rfl, rfl⟩
      · cases h
    · next hno =>
      obtain ⟨rfl, rfl, rfl⟩ := by simpa using h
      exact ⟨by simp [target, hno], .refl p, rfl, rfl⟩

/-- A packet that has not been translated waits for a refill, or is translated and forwarded. -/
theorem recvTimingReq_cases (hreg : ¬ AtRefillReg c p) (hfresh : p.isRemapped = false)
    (h : recvTimingReq c table now refillAccepted accepted p s = some (x, s')) :
    ∃ q, p.Same q ∧ q.addr = p.addr ∧ q.isRemapped = false ∧
      ((Misses c (target c p) s.tlb ∧ x = .retry q) ∨
        (¬ Misses c (target c p) s.tlb ∧ ∃ b, translation c.toConfig table (target c p) s.tlb =
          some b ∧
          x = forward accepted (target c p) (remapped b q))) := by
  rw [recvTimingReq, if_neg hreg, hfresh, if_neg Bool.false_ne_true] at h
  obtain ⟨⟨a, q, operand⟩, hcheck, h⟩ := bind_eq_some_iff.mp h
  obtain ⟨htarget, hsame, haddr, hremapped⟩ := checkHmcCommand_cases hcheck
  dsimp only at h
  rw [htarget] at h
  obtain ⟨y, hy, h⟩ := bind_eq_some_iff.mp h
  obtain ⟨htranslate, hstate⟩ := remap_cases hy
  refine ⟨q, hsame, haddr, hremapped.trans hfresh, ?_⟩
  split at h
  · next b hb =>
    obtain ⟨rfl, -⟩ := Prod.mk.inj (some.inj h)
    rw [hb] at htranslate
    refine .inr ⟨fun hmiss => ?_, b, ?_, rfl⟩
    · rw [hmiss.1] at htranslate
      cases htranslate
    · rw [translation, ← htranslate, some_or]
  · next hnone =>
    rw [hnone] at htranslate
    split at h
    · next hideal =>
      obtain ⟨t, ht, h⟩ := bind_eq_some_iff.mp h
      obtain ⟨z, hz, h⟩ := bind_eq_some_iff.mp h
      split at h
      · next b hb =>
        obtain ⟨rfl, -⟩ := Prod.mk.inj (some.inj h)
        rw [hstate hnone] at ht
        refine .inr ⟨fun hmiss => ?_, b, ?_, rfl⟩
        · rw [hmiss.2] at hideal
          cases hideal
        · rw [translation, ← htranslate, none_or, ← refillTLBFunctional_eq ht,
            ← (remap_cases hz).1, hb]
      · cases h
    · next hideal =>
      obtain ⟨t, -, h⟩ := map_eq_some_iff.mp h
      obtain ⟨rfl, -⟩ := Prod.mk.inj h
      exact .inl ⟨⟨htranslate.symm, by simpa using hideal⟩, rfl⟩

end Lemmas

/-! ### A small system -/

def smallPorts (idealRefill : Bool) (registers : ℕ) : Params where
  toConfig := twoEntries 0x8000
  idealRefill := idealRefill
  pimDtlbIdealRefillReg := registers
  hmcAtomicIncr := registers + 4
  hmcAtomicFadd := registers + 8
  hmcAtomicImin := registers + 12
  hmcOperandReg := registers + 16
  operand_separate := by omega

def secondPage : Rule := ruleOf 0 (pageSlices fourPages 0x8000 1)

def readPacket (addr : ℕ) : Packet where
  addr := addr
  isWrite := false
  needsResponse := true
  memInhibitAsserted := false
  size := 4
  data := 0
  isRemapped := false
  atomicHmcCommand := none
  atomicHmcOperand := 0
  senderState := [.other 7]

def writePacket (addr data : ℕ) : Packet := { readPacket addr with isWrite := true, data := data }

end SmcSim.Tlb
