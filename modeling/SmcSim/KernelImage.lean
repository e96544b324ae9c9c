import SmcSim.TextTokens

/-!
# Kernel images

`dump_hex.py` appends a section of a binary file to a text file, with its address and size in
decimal and its bytes in hexadecimal; `offload_kernel` reads the text and writes the bytes to the
device. What is written to the device is what the sections hold.
-/

namespace SmcSim.KernelImage
open TextTokens List

def addrMark : List Char := ['@', 'A', 'D', 'D', 'R']

def sizeMark : List Char := ['@', 'S', 'I', 'Z', 'E']

def endMark : List Char := ['@', 'E', 'N', 'D']

/-! ### The writer -/

/-- `b.encode("hex")` -/
def encodeHex (b : UInt8) : List Char :=
  [Nat.digitChar (b.toNat / 16), Nat.digitChar (b.toNat % 16)]

/-- The loop over the file: `CODE` and `count` for the bytes from position `index` on. -/
def readCode (off size : ℕ) : ℕ → List UInt8 → List Char × ℕ
  | _, [] => ([], 0)
  | index, b :: rest =>
      let code := if off ≤ index then encodeHex b ++ [' '] else []
      let count := if off ≤ index then 1 else 0
      if off + size ≤ index + 1 then (code, count)
      else (code ++ (readCode off size (index + 1) rest).1,
        count + (readCode off size (index + 1) rest).2)

/-- The script exits with an error if the file does not hold the section. -/
def dumpHex (src : List UInt8) (off addr size : ℕ) (dst : List Char) : Option (List Char) :=
  match readCode off size 0 src with
  | (code, count) =>
      if count = size then
        some (dst ++ (addrMark ++ ' ' :: numeral 10 addr ++ '\n' ::
          (sizeMark ++ ' ' :: numeral 10 size ++ '\n' :: (code ++ endMark ++ ['\n']))))
      else none

structure Section where
  file : List UInt8
  off : ℕ
  addr : ℕ
  size : ℕ
  size_pos : 0 < size
  inside : off + size ≤ file.length
  addr_lt : addr < 2 ^ 31

def Section.bytes (s : Section) : List UInt8 := (s.file.drop s.off).take s.size

def dumpAll (sections : List Section) : Option (List Char) :=
  sections.foldlM (fun dst s => dumpHex s.file s.off s.addr s.size dst) []

/-! ### The reader -/

/-- The loader's offset, the writes to the device, and the statistics; `ulong_t` has `w` bits. -/
structure Loader (w : ℕ) where
  loadOffset : BitVec w
  writes : List (BitVec w × UInt8)
  statOffloadSize : BitVec w

/-- The number that a word starts with, as an `int`. -/
def atoi (term : List Char) : ℤ := (strtol 10 term).bmod (2 ^ 32)

variable {w : ℕ}

def Loader.setOffset (s : Loader w) (value : ℤ) : Loader w :=
  { s with loadOffset := BitVec.ofInt w value }

def Loader.writeByte (s : Loader w) (value : UInt8) : Loader w where
  loadOffset := s.loadOffset + 1
  writes := s.writes ++ [(s.loadOffset, value)]
  statOffloadSize := s.statOffloadSize + 1

/-- The loop over the words of a line. A word that is missing at the end of the line leaves
`term` as it was. -/
def readTerms : Loader w → List (List Char) → Loader w
  | s, [] => s
  | s, term :: rest =>
      if term = addrMark then
        match rest with
        | [] => s.setOffset (atoi term)
        | arg :: rest => readTerms (s.setOffset (atoi arg)) rest
      else if term = sizeMark then
        match rest with
        | [] => s
        | _ :: rest => readTerms s rest
      else if term = endMark then readTerms s rest
      else readTerms (s.writeByte (UInt8.ofNat (strtol 16 term % 256).toNat)) rest

def offloadKernel (text : List Char) (statOffloadSize : BitVec w) : Loader w :=
  (lines text).foldl (fun s line => readTerms s (words line))
    ⟨BitVec.ofInt w (-1), [], statOffloadSize⟩

/-! ### What the writer writes -/

def Section.code (bytes : List UInt8) : List Char := bytes.flatMap (fun b => encodeHex b ++ [' '])

def Section.text (s : Section) : List Char :=
  addrMark ++ ' ' :: numeral 10 s.addr ++ '\n' ::
    (sizeMark ++ ' ' :: numeral 10 s.size ++ '\n' :: (Section.code s.bytes ++ endMark ++ ['\n']))

variable {off size : ℕ} {src : List UInt8}

/-- Behind the start of the section every byte is taken, up to its end. -/
private theorem readCode_inside (index : ℕ) (hoff : off ≤ index) (hend : index < off + size)
    (hlen : off + size ≤ index + src.length) :
    readCode off size index src =
      (Section.code (src.take (off + size - index)), off + size - index) := by
  induction src generalizing index with
  | nil =>
    simp only [length_nil] at hlen
    omega
  | cons b src ih =>
    simp only [length_cons] at hlen
    rw [readCode]
    simp only [if_pos hoff]
    split
    · next hlast =>
      have hone : off + size - index = 1 := by omega
      rw [hone]
      simp [Section.code]
    · next hmore =>
      rw [ih (index + 1) (by omega) (by omega) (by omega)]
      have hsucc : off + size - index = (off + size - (index + 1)) + 1 := by omega
      rw [hsucc, take_succ_cons]
      simp [Section.code, add_comm]

/-- Bytes before the section are skipped. -/
private theorem readCode_before (index : ℕ) (hoff : index ≤ off) (hsize : 0 < size)
    (hlen : off + size ≤ index + src.length) :
    readCode off size index src =
      (Section.code ((src.drop (off - index)).take size), size) := by
  induction src generalizing index with
  | nil =>
    simp only [length_nil] at hlen
    omega
  | cons b src ih =>
    rcases Nat.lt_or_eq_of_le hoff with hlt | rfl
    · simp only [length_cons] at hlen
      rw [readCode]
      simp only [if_neg (Nat.not_le_of_lt hlt), nil_append, zero_add]
      rw [if_neg (by omega), ih (index + 1) hlt (by omega)]
      have hsucc : off - index = (off - (index + 1)) + 1 := by omega
      rw [hsucc, drop_succ_cons]
    · rw [readCode_inside index (le_rfl) (by omega) hlen]
      simp

private theorem dumpHex_section (s : Section) (dst : List Char) :
    dumpHex s.file s.off s.addr s.size dst = some (dst ++ s.text) := by
  have hinside : s.off + s.size ≤ 0 + s.file.length := by
    rw [zero_add]
    exact s.inside
  have hread := readCode_before 0 (Nat.zero_le _) s.size_pos hinside
  rw [Nat.sub_zero] at hread
  unfold dumpHex
  rw [hread]
  exact if_pos rfl

theorem dumpAll_eq (sections : List Section) :
    dumpAll sections = some (sections.flatMap Section.text) := by
  have hfold : ∀ dst, sections.foldlM
      (fun dst s => dumpHex s.file s.off s.addr s.size dst) dst =
        some (dst ++ sections.flatMap Section.text) := by
    induction sections with
    | nil => simp
    | cons s sections ih =>
      intro dst
      rw [foldlM_cons, dumpHex_section]
      simpa using ih (dst ++ s.text)
  exact hfold []

/-! ### What the reader does with it -/

def placed (w addr : ℕ) (bytes : List UInt8) : List (BitVec w × UInt8) :=
  (bytes.zipIdx addr).map (fun p => (BitVec.ofNat w p.2, p.1))

variable {b : UInt8}

theorem encodeHex_isDigit (b : UInt8) : ∀ c ∈ encodeHex b, IsDigit c := by
  have hlt := b.toNat_lt
  intro c hc
  simp only [encodeHex, mem_cons, not_mem_nil, or_false] at hc
  rcases hc with rfl | rfl
  · exact ⟨b.toNat / 16, by omega, rfl⟩
  · exact ⟨b.toNat % 16, by omega, rfl⟩

theorem strtol_encodeHex (b : UInt8) : strtol 16 (encodeHex b) = b.toNat := by
  have hlt := b.toNat_lt
  have hdigits : ∀ d ∈ [b.toNat / 16, b.toNat % 16], d < 16 := by
    intro d hd
    simp only [mem_cons, not_mem_nil, or_false] at hd
    omega
  rw [strtol_of_digits (encodeHex_isDigit b)]
  have hscan := scanDigits_map (le_refl 16) [b.toNat / 16, b.toNat % 16] hdigits 0
  refine congrArg Nat.cast (hscan.trans ?_)
  simp only [foldl_cons, foldl_nil]
  omega

/-- A byte is not taken for one of the marks. -/
theorem encodeHex_ne (b : UInt8) (rest : List Char) : encodeHex b ≠ '@' :: rest := by
  intro h
  have hmem : '@' ∈ encodeHex b := by
    rw [h]
    exact mem_cons_self
  exact absurd rfl ((encodeHex_isDigit b '@' hmem).ne_of_not_isSome rfl)

private theorem readTerms_byte (s : Loader w) (b : UInt8) (rest : List (List Char)) :
    readTerms s (encodeHex b :: rest) = readTerms (s.writeByte b) rest := by
  have hvalue : UInt8.ofNat (strtol 16 (encodeHex b) % 256).toNat = b := by
    have hlt := b.toNat_lt
    have hmod : ((b.toNat : ℤ) % 256).toNat = b.toNat := by omega
    rw [strtol_encodeHex, hmod, UInt8.ofNat_toNat]
  have haddr : encodeHex b ≠ addrMark := encodeHex_ne b _
  have hsize : encodeHex b ≠ sizeMark := encodeHex_ne b _
  have hend : encodeHex b ≠ endMark := encodeHex_ne b _
  rw [readTerms.eq_def]
  simp only [if_neg haddr, if_neg hsize, if_neg hend, hvalue]

theorem readTerms_bytes (s : Loader w) (addr : ℕ) (bytes : List UInt8)
    (rest : List (List Char)) (hoffset : s.loadOffset = BitVec.ofNat w addr) :
    readTerms s (bytes.map encodeHex ++ rest) =
      readTerms ⟨BitVec.ofNat w (addr + bytes.length), s.writes ++ placed w addr bytes,
        s.statOffloadSize + BitVec.ofNat w bytes.length⟩ rest := by
  induction bytes generalizing s addr with
  | nil => simp [placed, ← hoffset]
  | cons b bytes ih =>
    have hnext : (s.writeByte b).loadOffset = BitVec.ofNat w (addr + 1) := by
      rw [BitVec.ofNat_add, ← hoffset]
      rfl
    rw [map_cons, cons_append, readTerms_byte, ih _ (addr + 1) hnext]
    have hwrites : (s.writeByte b).writes ++ placed w (addr + 1) bytes =
        s.writes ++ placed w addr (b :: bytes) := by
      simp [Loader.writeByte, placed, hoffset]
    have hstat : (s.writeByte b).statOffloadSize + BitVec.ofNat w bytes.length =
        s.statOffloadSize + BitVec.ofNat w (bytes.length + 1) := by
      rw [BitVec.ofNat_add, BitVec.add_comm (BitVec.ofNat w bytes.length), ← BitVec.add_assoc]
      rfl
    rw [hwrites, hstat, length_cons, add_assoc, add_comm 1]

/-! #### Lines -/

theorem atoi_numeral {n : ℕ} (h : n < 2 ^ 31) : atoi (numeral 10 n) = n := by
  have hread : strtol 10 (numeral 10 n) = n := strtol_numeral (by decide) (by decide)
  rw [atoi, hread]
  exact Int.bmod_eq_of_le (by omega) (by omega)

theorem numeral_not_space (n : ℕ) : ∀ c ∈ numeral 10 n, isSpace c = false :=
  fun _ hc => (numeral_isDigit (by decide) (by decide) hc).not_space

theorem newline_notMem_of_not_space {line : List Char}
    (h : ∀ c ∈ line, isSpace c = false ∨ c = ' ') :
    '\n' ∉ line := by
  intro hmem
  rcases h _ hmem with h | h
  · cases h
  · cases h

variable {mark : List Char}

theorem mark_not_space (hmark : mark = addrMark ∨ mark = sizeMark ∨ mark = endMark) :
    ∀ c ∈ mark, isSpace c = false := by
  simp only [← Bool.not_eq_true', ← List.all_eq_true]
  rcases hmark with rfl | rfl | rfl <;> rfl

/-- A line of a mark and a number. -/
private theorem words_header (n : ℕ) (hne : mark ≠ [])
    (hmark : ∀ c ∈ mark, isSpace c = false) :
    words (mark ++ ' ' :: numeral 10 n) = [mark, numeral 10 n] := by
  rw [words_append hne hmark, words_last numeral_ne_nil (numeral_not_space n)]

theorem newline_notMem_header (n : ℕ) (hmark : ∀ c ∈ mark, isSpace c = false) :
    '\n' ∉ mark ++ ' ' :: numeral 10 n := by
  apply newline_notMem_of_not_space
  intro c hc
  rcases mem_append.mp hc with hc | hc
  · exact .inl (hmark c hc)
  · rcases mem_cons.mp hc with rfl | hc
    · exact .inr rfl
    · exact .inl (numeral_not_space n c hc)

private theorem words_code (bytes : List UInt8) :
    words (Section.code bytes ++ endMark) = bytes.map encodeHex ++ [endMark] := by
  induction bytes with
  | nil => rfl
  | cons b bytes ih =>
    have hspace : ∀ c ∈ encodeHex b, isSpace c = false :=
      fun c hc => (encodeHex_isDigit b c hc).not_space
    have hsplit : Section.code (b :: bytes) ++ endMark =
        encodeHex b ++ ' ' :: (Section.code bytes ++ endMark) := by
      simp [Section.code]
    have hne : encodeHex b ≠ [] := cons_ne_nil _ _
    rw [hsplit, words_append hne hspace, ih]
    rfl

theorem newline_notMem_code (bytes : List UInt8) : '\n' ∉ Section.code bytes ++ endMark := by
  apply newline_notMem_of_not_space
  intro c hc
  rcases mem_append.mp hc with hc | hc
  · obtain ⟨b, -, hc⟩ := mem_flatMap.mp hc
    rcases mem_append.mp hc with hc | hc
    · exact .inl (encodeHex_isDigit b c hc).not_space
    · exact .inr (mem_singleton.mp hc)
  · exact .inl (mark_not_space (.inr (.inr rfl)) c hc)

private theorem lines_section (s : Section) (rest : List Char) :
    lines (s.text ++ rest) = (addrMark ++ ' ' :: numeral 10 s.addr) ::
      (sizeMark ++ ' ' :: numeral 10 s.size) :: (Section.code s.bytes ++ endMark) ::
        lines rest := by
  have hsplit : s.text ++ rest = (addrMark ++ ' ' :: numeral 10 s.addr) ++ '\n' ::
      ((sizeMark ++ ' ' :: numeral 10 s.size) ++ '\n' ::
        ((Section.code s.bytes ++ endMark) ++ '\n' :: rest)) := by
    simp [Section.text]
  rw [hsplit, lines_append (newline_notMem_header s.addr (mark_not_space (.inl rfl))),
    lines_append (newline_notMem_header s.size (mark_not_space (.inr (.inl rfl)))),
    lines_append (newline_notMem_code s.bytes)]

def Section.load (s : Section) (before : Loader w) : Loader w where
  loadOffset := BitVec.ofNat w (s.addr + s.bytes.length)
  writes := before.writes ++ placed w s.addr s.bytes
  statOffloadSize := before.statOffloadSize + BitVec.ofNat w s.bytes.length

private theorem foldl_section (s : Section) (rest : List Char) (before : Loader w) :
    (lines (s.text ++ rest)).foldl (fun s line => readTerms s (words line)) before =
      (lines rest).foldl (fun s line => readTerms s (words line)) (s.load before) := by
  have haddr : readTerms before (words (addrMark ++ ' ' :: numeral 10 s.addr)) =
      before.setOffset s.addr := by
    rw [words_header s.addr (by decide) (mark_not_space (.inl rfl)), readTerms.eq_def]
    simp only [if_true, readTerms, atoi_numeral s.addr_lt]
  have hsize : ∀ t : Loader w, readTerms t (words (sizeMark ++ ' ' :: numeral 10 s.size)) = t := by
    intro t
    have hne : sizeMark ≠ addrMark := by decide
    rw [words_header s.size (by decide) (mark_not_space (.inr (.inl rfl))),
      readTerms.eq_def]
    simp only [if_neg hne, if_true, readTerms]
  have hcode : readTerms (before.setOffset s.addr) (words (Section.code s.bytes ++ endMark)) =
      s.load before := by
    have hne : endMark ≠ addrMark := by decide
    have hne' : endMark ≠ sizeMark := by decide
    have hoffset : (before.setOffset s.addr).loadOffset = BitVec.ofNat w s.addr :=
      BitVec.ofInt_natCast w s.addr
    rw [words_code, readTerms_bytes _ s.addr _ _ hoffset, readTerms.eq_def]
    simp only [if_neg hne, if_neg hne', if_true, readTerms]
    rfl
  rw [lines_section, foldl_cons, foldl_cons, foldl_cons, haddr, hsize, hcode]

theorem foldl_sections (sections : List Section) (before : Loader w) :
    (lines (sections.flatMap Section.text)).foldl (fun s line => readTerms s (words line)) before =
      sections.foldl (fun t s => s.load t) before := by
  induction sections generalizing before with
  | nil => rfl
  | cons s sections ih =>
    rw [flatMap_cons, foldl_section, ih]
    rfl

theorem load_sections (sections : List Section) (before : Loader w) :
    (sections.foldl (fun t s => s.load t) before).writes =
        before.writes ++ sections.flatMap (fun s => placed w s.addr s.bytes) ∧
      (sections.foldl (fun t s => s.load t) before).statOffloadSize =
        before.statOffloadSize + BitVec.ofNat w (sections.map (fun s => s.bytes.length)).sum := by
  induction sections generalizing before with
  | nil => simp
  | cons s sections ih =>
    obtain ⟨hwrites, hstat⟩ := ih (s.load before)
    rw [foldl_cons, hwrites, hstat]
    constructor
    · simp [Section.load]
    · simp [Section.load, BitVec.ofNat_add, BitVec.add_assoc]

/-- Inside the range of `ulong_t` the offsets are those of the section. -/
theorem placed_toNat {addr : ℕ} {bytes : List UInt8} (h : addr + bytes.length ≤ 2 ^ w) :
    (placed w addr bytes).map (fun p => (p.1.toNat, p.2)) =
      (bytes.zipIdx addr).map (fun p => (p.2, p.1)) := by
  rw [placed, List.map_map]
  apply map_congr_left
  rintro ⟨b, i⟩ hmem
  have hlt : i < addr + bytes.length := by
    obtain ⟨-, hlt, -⟩ := mem_zipIdx hmem
    omega
  simp [Nat.mod_eq_of_lt (lt_of_lt_of_le hlt h)]

/-- `offload_kernel` writes the bytes of the sections that were dumped to their addresses, in
order, and nothing else, and adds their number to the statistics. -/
theorem offloadKernel_dumpAll (sections : List Section) (stat : BitVec w) :
    ∃ text, dumpAll sections = some text ∧
      (offloadKernel text stat).writes =
        sections.flatMap (fun s => placed w s.addr s.bytes) ∧
      (offloadKernel text stat).statOffloadSize =
        stat + BitVec.ofNat w (sections.map (fun s => s.bytes.length)).sum ∧
      ∀ s ∈ sections, s.addr + s.bytes.length ≤ 2 ^ w →
        (placed w s.addr s.bytes).map (fun p => (p.1.toNat, p.2)) =
          (s.bytes.zipIdx s.addr).map (fun p => (p.2, p.1)) := by
  refine ⟨_, dumpAll_eq sections, ?_⟩
  obtain ⟨hwrites, hstat⟩ := load_sections sections ⟨BitVec.ofInt w (-1), [], stat⟩
  rw [offloadKernel, foldl_sections]
  exact ⟨hwrites, hstat, fun s _ hfits => placed_toNat hfits⟩

/-- Two bytes from the middle of a file, and a whole file. -/
def textAndData : List Section :=
  [⟨[0x7f, 0x10, 0xa0, 0x30], 1, 4, 2, Nat.two_pos, by decide, by decide⟩,
    ⟨[0xff], 0, 16, 1, Nat.one_pos, by decide, by decide⟩]

theorem offloadKernel_textAndData : ∃ text, dumpAll textAndData = some text ∧
    (offloadKernel text (5 : BitVec 32)).writes = [(4, 0x10), (5, 0xa0), (16, 0xff)] ∧
    (offloadKernel text (5 : BitVec 32)).statOffloadSize = 8 := by
  obtain ⟨text, htext, hwrites, hstat, -⟩ := offloadKernel_dumpAll textAndData (5 : BitVec 32)
  exact ⟨text, htext, hwrites.trans (by decide), hstat.trans (by decide)⟩

end SmcSim.KernelImage
