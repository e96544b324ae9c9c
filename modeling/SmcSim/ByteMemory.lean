import Mathlib.Tactic.Common

/-!
# Words in a memory of bytes

A word is four bytes, the lowest first, at any address. A store is read back, up to what does not
fit into a word, and changes nothing outside its four bytes.
-/

namespace SmcSim.ByteMemory

def byte (v : ℕ) : ℕ → ℕ
  | 0 => v % 256
  | 1 => v / 0x100 % 256
  | 2 => v / 0x10000 % 256
  | _ => v / 0x1000000 % 256

def load (m : ℕ → ℕ) (a : ℕ) : ℕ :=
  m a + 0x100 * m (a + 1) + 0x10000 * m (a + 2) + 0x1000000 * m (a + 3)

def store (m : ℕ → ℕ) (a v : ℕ) : ℕ → ℕ :=
  fun b => if a ≤ b ∧ b < a + 4 then byte v (b - a) else m b

variable {m m' : ℕ → ℕ} {a b v : ℕ}

theorem load_congr (h : ∀ i < 4, m' (a + i) = m (a + i)) : load m' a = load m a := by
  have hzero := h 0 (by decide)
  rw [Nat.add_zero] at hzero
  rw [load, load, hzero, h 1 (by decide), h 2 (by decide), h 3 (by decide)]

theorem load_eq_of_bytes (h : ∀ i < 4, m (a + i) = byte v i) : load m a = v % 0x100000000 := by
  have hzero := h 0 (by decide)
  rw [Nat.add_zero] at hzero
  rw [load, hzero, h 1 (by decide), h 2 (by decide), h 3 (by decide)]
  simp only [byte]
  omega

theorem store_of_outside (h : b < a ∨ a + 4 ≤ b) : store m a v b = m b := by
  rw [store, if_neg (by omega)]

theorem load_store (m : ℕ → ℕ) (a v : ℕ) : load (store m a v) a = v % 0x100000000 := by
  refine load_eq_of_bytes (fun i hi => ?_)
  rw [store, if_pos (by omega), Nat.add_sub_cancel_left]

theorem load_store_of_disjoint (h : b + 4 ≤ a ∨ a + 4 ≤ b) :
    load (store m a v) b = load m b :=
  load_congr (fun _ _ => store_of_outside (by omega))

end SmcSim.ByteMemory
