import Mathlib.Data.Nat.Digits.Defs
import Mathlib.Tactic.IntervalCases

/-!
# Lines, words and numbers in text

A text is a list of characters. `lines` and `words` cut it as the stream readers of C++ do,
`strtol` reads a number as the C library does, and `numeral` writes one. Each reader is given
by what it does with text that was written piece by piece.
-/

namespace SmcSim.TextTokens
open List

def isSpace (c : Char) : Bool := c = ' ' ∨ 9 ≤ c.toNat ∧ c.toNat ≤ 13

/-- The lines of a text behind the part `line` of the first one. -/
def linesFrom (line : List Char) : List Char → List (List Char)
  | [] => if line = [] then [] else [line]
  | c :: cs => if c = '\n' then line :: linesFrom [] cs else linesFrom (line ++ [c]) cs

def lines (text : List Char) : List (List Char) := linesFrom [] text

/-- The words of a line behind the part `word` of the first one. -/
def wordsFrom (word : List Char) : List Char → List (List Char)
  | [] => if word = [] then [] else [word]
  | c :: cs =>
      if isSpace c then
        if word = [] then wordsFrom [] cs else word :: wordsFrom [] cs
      else wordsFrom (word ++ [c]) cs

def words (line : List Char) : List (List Char) := wordsFrom [] line

variable {line word text : List Char}

theorem linesFrom_append (part : List Char) (h : '\n' ∉ line) :
    linesFrom part (line ++ '\n' :: text) = (part ++ line) :: lines text := by
  induction line generalizing part with
  | nil => simp [linesFrom, lines]
  | cons c line ih =>
    obtain ⟨hc, hline⟩ : c ≠ '\n' ∧ '\n' ∉ line := by
      rw [mem_cons, not_or] at h
      exact ⟨Ne.symm h.1, h.2⟩
    rw [cons_append, linesFrom, if_neg hc, ih _ hline, append_assoc]
    rfl

/-- A line that was written is the first one that is read. -/
theorem lines_append (h : '\n' ∉ line) : lines (line ++ '\n' :: text) = line :: lines text :=
  linesFrom_append [] h

theorem wordsFrom_append (part : List Char) (hpart : part ++ word ≠ [])
    (h : ∀ c ∈ word, isSpace c = false) :
    wordsFrom part (word ++ ' ' :: text) = (part ++ word) :: words text := by
  induction word generalizing part with
  | nil =>
    have hne : part ≠ [] := by simpa using hpart
    have hspace : isSpace ' ' = true := rfl
    simp [wordsFrom, hspace, hne, words]
  | cons c word ih =>
    have hc := h c mem_cons_self
    rw [cons_append, wordsFrom, if_neg (by simp [hc]),
      ih _ (by simp) (fun x hx => h x (mem_cons_of_mem _ hx)), append_assoc]
    rfl

theorem words_append (hne : word ≠ []) (h : ∀ c ∈ word, isSpace c = false) :
    words (word ++ ' ' :: text) = word :: words text :=
  wordsFrom_append [] hne h

theorem wordsFrom_last (part : List Char) (hpart : part ++ word ≠ [])
    (h : ∀ c ∈ word, isSpace c = false) : wordsFrom part word = [part ++ word] := by
  induction word generalizing part with
  | nil =>
    have hne : part ≠ [] := by simpa using hpart
    simp [wordsFrom, hne]
  | cons c word ih =>
    have hc := h c mem_cons_self
    rw [wordsFrom, if_neg (by simp [hc]),
      ih _ (by simp) (fun x hx => h x (mem_cons_of_mem _ hx)), append_assoc]
    rfl

theorem words_last (hne : word ≠ []) (h : ∀ c ∈ word, isSpace c = false) : words word = [word] :=
  wordsFrom_last [] hne h

/-! ### Numbers -/

def digitValue (c : Char) : Option ℕ :=
  if '0' ≤ c ∧ c ≤ '9' then some (c.toNat - 48)
  else if 'a' ≤ c ∧ c ≤ 'f' then some (c.toNat - 87)
  else if 'A' ≤ c ∧ c ≤ 'F' then some (c.toNat - 55)
  else none

def scanDigits (base : ℕ) (value : ℕ) : List Char → ℕ
  | [] => value
  | c :: cs =>
      match digitValue c with
      | some d => if d < base then scanDigits base (value * base + d) cs else value
      | none => value

/-- `0x` may precede the digits of a number in base 16. -/
def dropPrefix (base : ℕ) (text : List Char) : List Char :=
  match base, text with
  | 16, '0' :: 'x' :: c :: cs | 16, '0' :: 'X' :: c :: cs =>
      if (digitValue c).isSome then c :: cs else text
  | _, _ => text

/-- `strtol`, without its bounds. -/
def strtol (base : ℕ) (text : List Char) : ℤ :=
  match text.dropWhile isSpace with
  | '-' :: cs => -(scanDigits base 0 (dropPrefix base cs) : ℤ)
  | '+' :: cs => scanDigits base 0 (dropPrefix base cs)
  | cs => scanDigits base 0 (dropPrefix base cs)

def numeral (base n : ℕ) : List Char :=
  if n = 0 then ['0'] else ((Nat.digits base n).map Nat.digitChar).reverse

variable {base n d : ℕ} {c : Char} {cs : List Char}

/-- A character that `numeral` writes. -/
def IsDigit (c : Char) : Prop := ∃ d < 16, c = Nat.digitChar d

theorem digitValue_digitChar (h : d < 16) : digitValue (Nat.digitChar d) = some d := by
  interval_cases d <;> rfl

theorem IsDigit.not_space (h : IsDigit c) : isSpace c = false := by
  obtain ⟨d, hd, rfl⟩ := h
  interval_cases d <;> rfl

theorem IsDigit.ne_of_not_isSome {c' : Char} (h : IsDigit c) (hc' : digitValue c' = none) :
    c ≠ c' := by
  rintro rfl
  obtain ⟨d, hd, rfl⟩ := h
  rw [digitValue_digitChar hd] at hc'
  cases hc'

theorem scanDigits_map (hbase : base ≤ 16) (ds : List ℕ) (hds : ∀ d ∈ ds, d < base) (value : ℕ) :
    scanDigits base value (ds.map Nat.digitChar) = ds.foldl (fun v d => v * base + d) value := by
  induction ds generalizing value with
  | nil => rfl
  | cons d ds ih =>
    have hd := hds d mem_cons_self
    simp only [map_cons, scanDigits, digitValue_digitChar (lt_of_lt_of_le hd hbase), if_pos hd,
      foldl_cons]
    exact ih (fun x hx => hds x (mem_cons_of_mem _ hx)) _

theorem numeral_isDigit (hbase : 1 < base) (hle : base ≤ 16) (hc : c ∈ numeral base n) :
    IsDigit c := by
  unfold numeral at hc
  split at hc
  · obtain rfl := mem_singleton.mp hc
    exact ⟨0, by decide, rfl⟩
  · obtain ⟨d, hd, rfl⟩ := List.mem_map.mp (mem_reverse.mp hc)
    exact ⟨d, lt_of_lt_of_le (Nat.digits_lt_base hbase hd) hle, rfl⟩

theorem numeral_ne_nil : numeral base n ≠ [] := by
  unfold numeral
  split
  · exact cons_ne_nil _ _
  · next h =>
    intro hnil
    have hdigits : Nat.digits base n = [] := by simpa using hnil
    exact h (Nat.digits_eq_nil_iff_eq_zero.mp hdigits)

/-- A number that was written is read. -/
theorem scanDigits_numeral (hbase : 1 < base) (hle : base ≤ 16) :
    scanDigits base 0 (numeral base n) = n := by
  unfold numeral
  split
  · next h =>
    have hzero : ∀ d ∈ [0], d < base := by simpa using Nat.zero_lt_of_lt hbase
    exact (scanDigits_map hle [0] hzero 0).trans (by simp [h])
  · rw [← map_reverse, scanDigits_map hle _
      (fun d hd => Nat.digits_lt_base hbase (mem_reverse.mp hd)), foldl_reverse]
    have hvalue := Nat.ofDigits_digits base n
    rw [Nat.ofDigits_eq_foldr] at hvalue
    simpa [mul_comm, add_comm] using hvalue

theorem dropPrefix_of_digits (hcs : ∀ c ∈ cs, IsDigit c) : dropPrefix base cs = cs := by
  unfold dropPrefix
  split
  · exact absurd rfl ((hcs 'x' (by simp)).ne_of_not_isSome rfl)
  · exact absurd rfl ((hcs 'X' (by simp)).ne_of_not_isSome rfl)
  · rfl

/-- Digits are read without white space, sign or prefix. -/
theorem strtol_of_digits (hcs : ∀ c ∈ cs, IsDigit c) : strtol base cs = scanDigits base 0 cs := by
  have hdrop : cs.dropWhile isSpace = cs := by
    cases cs with
    | nil => rfl
    | cons c cs =>
      have hc := (hcs c mem_cons_self).not_space
      rw [dropWhile_cons_of_neg (by simp [hc])]
  unfold strtol
  rw [hdrop]
  split
  · exact absurd rfl ((hcs '-' mem_cons_self).ne_of_not_isSome rfl)
  · exact absurd rfl ((hcs '+' mem_cons_self).ne_of_not_isSome rfl)
  · rw [dropPrefix_of_digits hcs]

theorem strtol_numeral (hbase : 1 < base) (hle : base ≤ 16) : strtol base (numeral base n) = n := by
  rw [strtol_of_digits (fun c hc => numeral_isDigit hbase hle hc), scanDigits_numeral hbase hle]

end SmcSim.TextTokens
