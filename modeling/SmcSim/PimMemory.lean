import SmcSim.EffectPrograms
import SmcSim.ListSegments

/-!
# Vault memory, scalar registers and the block allocator

A PIM kernel owns a vault of equal-sized memory blocks and the scalar registers
`PIM_SREG`. A vault word is addressed by the address of its block and its byte
offset in it, so that two struct types laid over one block share its words. What a
kernel exchanges with the host goes through commands of its own, the ports; the
allocator is written once for every kernel.

A pointer of value `0` is `NULL`; dereferencing it is undefined behaviour, and ends a run.
-/

namespace SmcSim.PimMemory
open EffectPrograms ListSegments Function

/-- The vault, by block address and byte offset, and the scalar registers. -/
structure Memory where
  vault : ℕ → ℕ → ℕ
  sreg : ℕ → ℕ

namespace Memory

def store (m : Memory) (p off v : ℕ) : Memory :=
  { m with vault := update m.vault p (update (m.vault p) off v) }

def setSreg (m : Memory) (i v : ℕ) : Memory := { m with sreg := update m.sreg i v }

@[simp] theorem store_sreg (m : Memory) (p off v : ℕ) : (m.store p off v).sreg = m.sreg := rfl

@[simp] theorem setSreg_vault (m : Memory) (i v : ℕ) : (m.setSreg i v).vault = m.vault := rfl

@[simp] theorem store_vault_same (m : Memory) (p off v : ℕ) :
    (m.store p off v).vault p off = v := by simp [store]

theorem store_vault (m : Memory) (p off v q o : ℕ) :
    (m.store p off v).vault q o = if q = p ∧ o = off then v else m.vault q o := by
  by_cases hq : q = p
  · subst hq
    by_cases ho : o = off <;> simp [store, update, ho]
  · simp [store, update, hq]

variable {m : Memory}

@[simp] theorem store_vault_ne {p off v q o : ℕ} (h : q ≠ p) :
    (m.store p off v).vault q o = m.vault q o := by simp [store_vault, h]

@[simp] theorem store_vault_off {p off v q o : ℕ} (h : o ≠ off) :
    (m.store p off v).vault q o = m.vault q o := by simp [store_vault, h]

@[simp] theorem setSreg_same (m : Memory) (i v : ℕ) : (m.setSreg i v).sreg i = v := by
  simp [setSreg]

@[simp] theorem setSreg_ne {i v j : ℕ} (h : j ≠ i) :
    (m.setSreg i v).sreg j = m.sreg j := by simp [setSreg, update, h]

end Memory

/-- The commands of a kernel. -/
inductive PimOp (Port : Type) where
  | load (p off : ℕ)
  | store (p off v : ℕ)
  | readSreg (i : ℕ)
  | writeSreg (i v : ℕ)
  | port (c : Port)

def PimOp.Res {Port : Type} (PortRes : Port → Type) : PimOp Port → Type
  | .load _ _ => ℕ
  | .store _ _ _ => Unit
  | .readSreg _ => ℕ
  | .writeSreg _ _ => Unit
  | .port c => PortRes c

variable {Port : Type} {PortRes : Port → Type} {α : Type}

abbrev Kernel (Port : Type) (PortRes : Port → Type) := Prog (PimOp Port) (PimOp.Res PortRes)

def load (p off : ℕ) : Kernel Port PortRes ℕ := .call (.load p off) .ret
def store (p off v : ℕ) : Kernel Port PortRes Unit := .call (.store p off v) .ret
def readSreg (i : ℕ) : Kernel Port PortRes ℕ := .call (.readSreg i) .ret
def writeSreg (i v : ℕ) : Kernel Port PortRes Unit := .call (.writeSreg i v) .ret
def port (c : Port) : Kernel Port PortRes (PortRes c) := .call (.port c) .ret

structure Machine (T : Type) where
  memory : Memory
  ports : T

def handler {T : Type} (h : Handler Port PortRes T) :
    Handler (PimOp Port) (PimOp.Res PortRes) (Machine T)
  | .load p off, s => if p = 0 then none else some (s.memory.vault p off, s)
  | .store p off v, s =>
      if p = 0 then none else some ((), { s with memory := s.memory.store p off v })
  | .readSreg i, s => some (s.memory.sreg i, s)
  | .writeSreg i v, s => some ((), { s with memory := s.memory.setSreg i v })
  | .port c, s => (h c s.ports).map (fun r => (r.1, { s with ports := r.2 }))

/-- The memory is private to the kernel, so its commands are specified exactly;
the ports keep the specification they are given. Dereferencing `NULL` is stuck. -/
def spec {V : Type} (d : CommandSpec Port PortRes V) :
    CommandSpec (PimOp Port) (PimOp.Res PortRes) (Machine V) where
  pre
    | .load p off, w, Q => if p = 0 then d.onStuck else Q (w.memory.vault p off) w
    | .store p off v, w, Q =>
        if p = 0 then d.onStuck else Q () { w with memory := w.memory.store p off v }
    | .readSreg i, w, Q => Q (w.memory.sreg i) w
    | .writeSreg i v, w, Q => Q () { w with memory := w.memory.setSreg i v }
    | .port c, w, Q => d.pre c w.ports (fun r v => Q r { w with ports := v })
  mono o w Q Q' hQ h := by
    cases o with
    | load p | store p =>
      by_cases hp : p = 0
      · simpa only [hp, if_true] using h
      · simp only [hp, if_false] at h ⊢
        exact hQ _ _ h
    | readSreg i => exact hQ _ _ h
    | writeSreg i v => exact hQ _ _ h
    | port c => exact d.mono c _ _ _ (fun r v => hQ r _) h
  onStuck := d.onStuck

variable {V : Type} {d : CommandSpec Port PortRes V} {w : Machine V} {m : Memory} {b i off p v : ℕ}
variable {Q : ℕ → Machine V → Prop} {R : Unit → Machine V → Prop}

theorem wp_load :
    (spec d).wp (load p off) w Q ↔
      if p = 0 then d.onStuck else Q (w.memory.vault p off) w := .rfl

theorem wp_store :
    (spec d).wp (store p off v) w R ↔
      if p = 0 then d.onStuck else R () { w with memory := w.memory.store p off v } := .rfl

@[simp] theorem wp_load_of_ne (hp : p ≠ 0) :
    (spec d).wp (load p off) w Q ↔ Q (w.memory.vault p off) w := by
  simp only [wp_load, hp, if_false]

@[simp] theorem wp_store_of_ne (hp : p ≠ 0) :
    (spec d).wp (store p off v) w R ↔ R () { w with memory := w.memory.store p off v } := by
  simp only [wp_store, hp, if_false]

/-- Where stuck programs are tolerated, an access needs no proof that it is defined. -/
theorem wp_load_of_tolerant (hs : d.onStuck)
    (hQ : Q (w.memory.vault p off) w) : (spec d).wp (load p off) w Q := by
  by_cases hp : p = 0
  · exact wp_load.mpr (by simpa only [hp, if_true] using hs)
  · exact (wp_load_of_ne hp).mpr hQ

theorem wp_store_of_tolerant (hs : d.onStuck)
    (hQ : R () { w with memory := w.memory.store p off v }) : (spec d).wp (store p off v) w R := by
  by_cases hp : p = 0
  · exact wp_store.mpr (by simpa only [hp, if_true] using hs)
  · exact (wp_store_of_ne hp).mpr hQ

@[simp] theorem wp_readSreg :
    (spec d).wp (readSreg i) w Q ↔ Q (w.memory.sreg i) w := .rfl

@[simp] theorem wp_writeSreg :
    (spec d).wp (writeSreg i v) w R ↔ R () { w with memory := w.memory.setSreg i v } := .rfl

/-- Soundness of the ports carries over to whole kernels. -/
theorem spec_sound {T : Type} {h : Handler Port PortRes T}
    {rel : T → V → Prop} (hs : d.Sound h rel) :
    (spec d).Sound (handler h) (fun s w => s.memory = w.memory ∧ rel s.ports w.ports) := by
  rintro o ⟨m, t⟩ ⟨m', v⟩ Q ⟨rfl, hr⟩ hp
  cases o with
  | load p off =>
    by_cases h0 : p = 0
    · exact .inr ⟨by simp [handler, h0], by simpa [spec, h0] using hp⟩
    · have hq : Q (m.vault p off) ⟨m, v⟩ := by simpa [spec, h0] using hp
      exact .inl ⟨_, _, _, by simp only [handler, h0, if_false], hq, rfl, hr⟩
  | store p off x =>
    by_cases h0 : p = 0
    · exact .inr ⟨by simp [handler, h0], by simpa [spec, h0] using hp⟩
    · exact .inl ⟨(), ⟨m.store p off x, t⟩, ⟨m.store p off x, v⟩, by simp [handler, h0],
        by simpa [spec, h0] using hp, rfl, hr⟩
  | readSreg | writeSreg => exact .inl ⟨_, _, _, rfl, hp, rfl, hr⟩
  | port c =>
    rcases hs c t v _ hr hp with ⟨r, t', v', ht, hq, hr'⟩ | ⟨hn, hst⟩
    · exact .inl ⟨r, ⟨m, t'⟩, ⟨m, v'⟩, by simp [handler, ht], hq, rfl, hr'⟩
    · exact .inr ⟨by simp [handler, hn], hst⟩

/-! ### The free list -/

/-- `FREE_BLOCKS_HEAD` -/
def freeBlocksHead : ℕ := 3

/-- The link of a `free_block_node_t` is the first word of the block. -/
def freeNext (m : Memory) (p : ℕ) : ℕ := m.vault p 0

/-- The address of a free block, or `0` if no memory is available. -/
def allocMemoryBlock : Kernel Port PortRes ℕ := do
  let memBlock ← readSreg freeBlocksHead
  if memBlock ≠ 0 then
    let next ← load memBlock 0
    writeSreg freeBlocksHead next
    pure memBlock
  else
    pure memBlock

def freeMemoryBlock (nodeptr : ℕ) : Kernel Port PortRes Unit := do
  let head ← readSreg freeBlocksHead
  store nodeptr 0 head
  writeSreg freeBlocksHead nodeptr

def FreeList (m : Memory) (free : List ℕ) : Prop :=
  Seg (freeNext m) (m.sreg freeBlocksHead) free 0

variable {free : List ℕ}

theorem wp_allocMemoryBlock_nil (hf : FreeList w.memory [])
    (hQ : Q 0 w) : (spec d).wp allocMemoryBlock w Q := by
  have h0 : w.memory.sreg freeBlocksHead = 0 := hf
  simpa [allocMemoryBlock, h0] using hQ

theorem wp_allocMemoryBlock_cons
    (hf : FreeList w.memory (b :: free)) (hb : b ≠ 0)
    (hQ : Q b { w with memory := w.memory.setSreg freeBlocksHead (w.memory.vault b 0) }) :
    (spec d).wp allocMemoryBlock w Q := by
  have h0 : w.memory.sreg freeBlocksHead = b := hf.1
  simpa [allocMemoryBlock, h0, hb] using hQ

/-- Apart from the head of the free list, the allocator writes no register. -/
theorem wp_allocMemoryBlock_of_tolerant (hs : d.onStuck)
    (hQ : ∀ b m', (∀ i ≠ freeBlocksHead, m'.sreg i = w.memory.sreg i) →
      Q b { w with memory := m' }) : (spec d).wp allocMemoryBlock w Q := by
  simp only [allocMemoryBlock, CommandSpec.wp_bind, wp_readSreg]
  by_cases h0 : w.memory.sreg freeBlocksHead = 0
  · simp only [h0, ne_eq, not_true_eq_false, if_false, CommandSpec.wp_pure]
    exact hQ 0 w.memory (fun _ _ => rfl)
  · simp only [ne_eq, h0, not_false_eq_true, if_true, CommandSpec.wp_bind]
    refine wp_load_of_tolerant hs ?_
    simp only [wp_writeSreg, CommandSpec.wp_pure]
    exact hQ _ _ (fun i hi => Memory.setSreg_ne hi)

theorem FreeList.alloc (hf : FreeList m (b :: free)) :
    FreeList (m.setSreg freeBlocksHead (m.vault b 0)) free := by
  have hs : Seg (freeNext m) (m.vault b 0) free 0 := hf.2
  unfold FreeList
  rw [Memory.setSreg_same]
  exact hs.congr (fun _ _ => rfl)

theorem wp_freeMemoryBlock (hp : p ≠ 0)
    (hQ : R () { w with
      memory := (w.memory.store p 0 (w.memory.sreg freeBlocksHead)).setSreg freeBlocksHead p }) :
    (spec d).wp (freeMemoryBlock p) w R := by
  simpa [freeMemoryBlock, hp] using hQ

/-- Freeing a block that is not free yet puts it in front. -/
theorem FreeList.push (hf : FreeList m free) (hp : p ∉ free) :
    FreeList ((m.store p 0 (m.sreg freeBlocksHead)).setSreg freeBlocksHead p) (p :: free) := by
  refine ⟨by simp, ?_⟩
  have hs : Seg (freeNext m) (m.sreg freeBlocksHead) free 0 := hf
  have hn : freeNext ((m.store p 0 (m.sreg freeBlocksHead)).setSreg freeBlocksHead p) p =
      m.sreg freeBlocksHead := by simp [freeNext]
  rw [hn]
  refine hs.congr (fun x hx => ?_)
  have hne : x ≠ p := fun he => hp (he ▸ hx)
  simp [freeNext, hne]

theorem FreeList.congr {m' : Memory} (hf : FreeList m free)
    (hs : m'.sreg freeBlocksHead = m.sreg freeBlocksHead)
    (hv : ∀ b ∈ free, m'.vault b 0 = m.vault b 0) : FreeList m' free := by
  unfold FreeList
  rw [hs]
  exact Seg.congr hf hv

end SmcSim.PimMemory
