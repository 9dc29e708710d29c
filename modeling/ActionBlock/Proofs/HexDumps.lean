import ActionBlock.CommandLine.HexDump
import Mathlib.Algebra.Order.Floor.Div
import Mathlib.Data.List.TakeWhile

/-!
# Hex dumps can be read back

The lines of a hex dump are those of the pieces of a width that the data is cut into. Each line has
an address, a field of hexadecimal digits whose length is the same on all lines, and the bytes as
characters. The digits are all that is needed to have the data again: the fields of all lines, read
one after the other, give it back.
-/

namespace ActionBlock

/-- The digits of a numeral in a base are those of the numbers below the base. -/
theorem Numeral.exists_of_mem_toDigits {base n : Nat} {ch : Char} (hbase : 1 < base)
    (h : ch ∈ Nat.toDigits base n) :
  ∃ d < base, ch = d.digitChar
  := by
  induction n using Nat.strong_induction_on with
  | h n ih =>
    by_cases hn : n < base
    · rw [Nat.toDigits_of_lt_base hn, List.mem_singleton] at h
      exact ⟨n, hn, h⟩
    · rw [Nat.toDigits_of_base_le hbase (not_lt.mp hn), List.mem_append, List.mem_singleton] at h
      obtain h | h := h
      · exact ih _ (Nat.div_lt_self (by omega) hbase) h
      · exact ⟨n % base, Nat.mod_lt _ (by omega), h⟩

namespace HexDump

/-! ### Pieces -/

variable {width : Nat} {data : Bytes}

theorem chunksFrom_cons (more : Nat) (b : UInt8) (data : Bytes) (done : List Bytes) :
  chunksFrom width (more + 1) (b :: data) done
    = chunksFrom width more ((b :: data).drop width) ((b :: data).take width :: done)
  := rfl

/-- Pieces that were already cut stand before the others. -/
theorem chunksFrom_append (more : Nat) (data : Bytes) (done : List Bytes) :
  chunksFrom width more data done = done.reverse ++ chunksFrom width more data []
  := by
  induction more generalizing data done with
  | zero => simp [chunksFrom]
  | succ more ih =>
    cases data with
    | nil => simp [chunksFrom]
    | cons b data =>
      rw [chunksFrom_cons, ih, List.reverse_cons, List.append_assoc, chunksFrom_cons, ih _ [_]]
      rfl

/-- The bound on the number of pieces does not matter, as long as it is one. -/
theorem chunksFrom_eq_of_le (hwidth : 1 ≤ width) {more more' : Nat} {data : Bytes}
    (h : data.length ≤ more) (h' : data.length ≤ more') (done : List Bytes) :
  chunksFrom width more data done = chunksFrom width more' data done
  := by
  induction more generalizing more' data done with
  | zero =>
    obtain rfl := List.length_eq_zero_iff.mp (Nat.le_zero.mp h)
    cases more' <;> rfl
  | succ more ih =>
    cases data with
    | nil => cases more' <;> rfl
    | cons b data =>
      rw [List.length_cons] at h h'
      obtain ⟨more', rfl⟩ := Nat.exists_eq_add_one_of_ne_zero (Nat.ne_zero_of_lt h')
      have hdrop : ((b :: data).drop width).length ≤ data.length := by
        rw [List.length_drop, List.length_cons]
        omega
      rw [chunksFrom_cons, chunksFrom_cons]
      apply ih <;> omega

theorem chunks_nil :
  chunks width [] = []
  := rfl

/-- The first piece of data is its start, and the others are those of the rest. -/
theorem chunks_of_ne_nil (hwidth : 1 ≤ width) (h : data ≠ []) :
  chunks width data = data.take width :: chunks width (data.drop width)
  := by
  obtain ⟨b, rest, rfl⟩ := List.exists_cons_of_ne_nil h
  have hdrop : ((b :: rest).drop width).length ≤ rest.length := by
    rw [List.length_drop, List.length_cons]
    omega
  rw [chunks, List.length_cons, chunksFrom_cons, chunksFrom_append, chunks,
    chunksFrom_eq_of_le hwidth hdrop le_rfl]
  rfl

/-- The chunk at a position holds the bytes that begin at that multiple of the width. -/
theorem getElem?_chunks (hwidth : 1 ≤ width) (data : Bytes) (k : Nat) :
  (chunks width data)[k]?
    = if width * k < data.length then some ((data.drop (width * k)).take width) else none
  := by
  induction k generalizing data with
  | zero =>
    cases data with
    | nil => rfl
    | cons b data =>
      rw [chunks_of_ne_nil hwidth (by simp)]
      simp
  | succ k ih =>
    cases data with
    | nil => simp [chunks_nil]
    | cons b data =>
      have hnext : width * (k + 1) = width + width * k := by rw [mul_add, mul_one, add_comm]
      have hstep : width * k < ((b :: data).drop width).length
          ↔ width * (k + 1) < (b :: data).length := by
        rw [List.length_drop, hnext]
        omega
      rw [chunks_of_ne_nil hwidth (by simp), List.getElem?_cons_succ, ih, List.drop_drop, ← hnext]
      simp only [hstep]

/-- There are as many chunks as the length divided by the width, rounded up. -/
theorem length_chunks (hwidth : 1 ≤ width) (data : Bytes) :
  (chunks width data).length = data.length ⌈/⌉ width
  := by
  refine eq_of_forall_ge_iff fun k => ?_
  rw [ceilDiv_le_iff_le_mul hwidth, ← List.getElem?_eq_none_iff, getElem?_chunks hwidth]
  simp

/-- Nothing is lost by cutting. -/
theorem flatten_chunks (hwidth : 1 ≤ width) (data : Bytes) :
  (chunks width data).flatten = data
  := by
  induction hn : data.length using Nat.strong_induction_on generalizing data with
  | h n ih =>
    by_cases hdata : data = []
    · rw [hdata, chunks_nil, List.flatten_nil]
    · have hlt : (data.drop width).length < n := by
        have := List.length_pos_iff.mpr hdata
        rw [List.length_drop]
        omega
      rw [chunks_of_ne_nil hwidth hdata, List.flatten_cons, ih _ hlt _ rfl, List.take_append_drop]

/-- No chunk is longer than the width. -/
theorem length_le_of_mem_chunks (hwidth : 1 ≤ width) {chunk : Bytes}
    (h : chunk ∈ chunks width data) :
  chunk.length ≤ width
  := by
  obtain ⟨k, hk⟩ := List.getElem?_of_mem h
  rw [getElem?_chunks hwidth] at hk
  split at hk
  · obtain rfl := Option.some.inj hk
    exact List.length_take_le _ _
  · cases hk

/-! ### Fields -/

/-- The code point of a blank. -/
def blank : CodePoint := CodePoint.ofChar ' '

/-- Reads pairs of hexadecimal digits. Blanks before a pair and after the last do not count. -/
def readField : Text → Option Bytes
  | [] => some []
  | [c] => if c = blank then some [] else none
  | c :: d :: rest =>
    if c = blank then readField (d :: rest)
    else do
      let n ← Numeral.readDigits 16 [c, d] 0 false
      let bytes ← readField rest
      some (UInt8.ofNat n :: bytes)

theorem readField_blank (t : Text) :
  readField (blank :: t) = readField t
  := by
  cases t with
  | nil => rfl
  | cons d t => rw [readField, if_pos rfl]

/-- A byte is a pair of digits, which is read as the byte. -/
theorem exists_pair (b : UInt8) :
  ∃ c d, Numeral.hexUpper 2 b.toNat = [c, d] ∧ c ≠ blank
    ∧ Numeral.readDigits 16 [c, d] 0 false = some b.toNat
  := by
  have h : ∀ n < 256, (Numeral.hexUpper 2 (n : Nat)).length = 2
      ∧ (Numeral.hexUpper 2 (n : Nat)).head? ≠ some blank
      ∧ Numeral.readDigits 16 (Numeral.hexUpper 2 (n : Nat)) 0 false = some n := by
    decide +kernel
  obtain ⟨hlength, hhead, hread⟩ := h b.toNat b.toNat_lt
  obtain ⟨c, d, hpair⟩ := List.length_eq_two.mp hlength
  rw [hpair] at hhead hread
  exact ⟨c, d, hpair, by simpa using hhead, hread⟩

/-- A pair of digits is read as its byte. -/
theorem readField_pair (b : UInt8) (t : Text) :
  readField (Numeral.hexUpper 2 b.toNat ++ t) = (readField t).map (b :: ·)
  := by
  obtain ⟨c, d, hpair, hblank, hread⟩ := exists_pair b
  rw [hpair, List.cons_append, List.singleton_append, readField, if_neg hblank, hread]
  cases readField t <;> simp

theorem readField_blanks (n : Nat) :
  readField (List.replicate n blank) = some []
  := by
  induction n with
  | zero => rfl
  | succ n ih => rw [List.replicate_succ, readField_blank, ih]

/-- Pairs of digits behind blanks are read as their bytes, whatever the padding. -/
theorem readField_pairs (bytes : Bytes) (n : Nat) :
  readField (bytes.flatMap (fun b => Text.ofString " " ++ Numeral.hexUpper 2 b.toNat)
      ++ List.replicate n blank)
    = some bytes
  := by
  induction bytes with
  | nil => exact readField_blanks n
  | cons b bytes ih =>
    have hblank : ∀ t, Text.ofString " " ++ t = blank :: t := fun _ => rfl
    rw [List.flatMap_cons, List.append_assoc, hblank, List.cons_append, readField_blank,
      readField_pair, ih]
    rfl

/-- Bytes in hexadecimal are read as the bytes, whatever they are padded to. -/
theorem readField_padRight (bytes : Bytes) (n : Nat) :
  readField ((Bytes.hex bytes).padRight n) = some bytes
  := by
  rw [Text.padRight]
  generalize n - (Bytes.hex bytes).length = m
  cases bytes with
  | nil => exact readField_blanks m
  | cons b bytes =>
    rw [Bytes.hex, List.map_cons, Text.join, List.flatMap_map, List.append_assoc, readField_pair]
    exact congrArg (Option.map (b :: ·)) (readField_pairs bytes m)

/-- The text of some bytes has two digits for each and a blank between them. -/
theorem length_hex (bytes : Bytes) :
  (Bytes.hex bytes).length = 3 * bytes.length - 1
  := by
  have hpair : ∀ b : UInt8, (Numeral.hexUpper 2 b.toNat).length = 2 := by
    intro b
    obtain ⟨c, d, hpair, -⟩ := exists_pair b
    rw [hpair]
    rfl
  cases bytes with
  | nil => rfl
  | cons b bytes =>
    have hrest : (bytes.flatMap fun b => Text.ofString " " ++ Numeral.hexUpper 2 b.toNat).length
        = 3 * bytes.length := by
      rw [List.length_flatMap]
      simp [hpair, Text.ofString, mul_comm]
    rw [Bytes.hex, List.map_cons, Text.join, List.flatMap_map, List.length_append, hpair, hrest,
      List.length_cons]
    omega

/-- The hexadecimal field of a line has the same width in every line. -/
theorem length_padRight_hex {bytes : Bytes} (h : bytes.length ≤ width) :
  ((Bytes.hex bytes).padRight (width * 3 - 1)).length = 3 * width - 1
  := by
  rw [Text.padRight, List.length_append, List.length_replicate, length_hex]
  omega

/-! ### Lines -/

/-- The address at the start of a line: a hexadecimal numeral of eight digits at least. -/
def addressText (n : Nat) : Text := ((Nat.toDigits 16 n).leftpad 8 '0').map CodePoint.ofChar

theorem hexLower_eq_addressText (n : Nat) :
  Numeral.hexLower 8 n = addressText n
  := by
  have hsign : decide ((n : Int) < 0) = false := by simp
  rw [Numeral.hexLower, hsign, Int.natAbs_natCast]
  simp [Numeral.zeroPad, Numeral.digits, addressText, List.leftpad]

/-- An address has no blank in it. -/
theorem blank_notMem_addressText (n : Nat) :
  blank ∉ addressText n
  := by
  have hdigits : ∀ d < 16, CodePoint.ofChar d.digitChar ≠ blank := by decide
  intro h
  obtain ⟨ch, hch, hblank⟩ := List.mem_map.mp h
  obtain hch | hch := List.mem_append.mp hch
  · obtain rfl := List.eq_of_mem_replicate hch
    exact absurd hblank (by decide)
  · obtain ⟨d, hd, rfl⟩ := Numeral.exists_of_mem_toDigits (by decide) hch
    exact hdigits d hd hblank

/-- The field of hexadecimal digits of a line, in a dump of the given width. -/
def fieldOf (width : Nat) (t : Text) : Text :=
  ((t.dropWhile (· ≠ blank)).drop 2).take (3 * width - 1)

/-- The field stands between the blanks after the address and those before the characters. -/
theorem fieldOf_append {field : Text} (n : Nat) (hfield : field.length = 3 * width - 1)
    (characters : Text) :
  fieldOf width (addressText n ++ "  " ++ field ++ "  " ++ characters) = field
  := by
  have hskip : (addressText n).dropWhile (· ≠ blank) = [] := by
    apply List.dropWhile_eq_nil_iff.mpr
    intro c hc
    exact decide_eq_true (ne_of_mem_of_not_mem hc (blank_notMem_addressText n))
  have hgap : Text.ofString "  " = [blank, blank] := rfl
  rw [fieldOf, hgap]
  simp only [List.append_assoc]
  rw [List.dropWhile_append, hskip]
  simp [← hfield]

/-- A line is its address, its bytes in a padded field and its characters. -/
theorem line_eq (address : Nat) (chunk : Bytes) :
  line width address chunk
    = addressText address ++ "  " ++ (Bytes.hex chunk).padRight (width * 3 - 1) ++ "  "
      ++ chunk.map character
  := by
  rw [line, hexLower_eq_addressText]

/-- Reads the data that the lines of a dump of the given width show. -/
def read (width : Nat) (ts : List Text) : Option Bytes :=
  (ts.mapM fun t => readField (fieldOf width t)).map List.flatten

/-- The field of a line is read as the bytes that the line is for. -/
theorem readField_line {chunk : Bytes} (h : chunk.length ≤ width) (address : Nat) :
  readField (fieldOf width (line width address chunk)) = some chunk
  := by
  rw [line_eq, fieldOf_append _ (length_padRight_hex h), readField_padRight]

/-- The fields of the lines of a dump are read back as its chunks. -/
theorem mapM_readField_lines {pieces : List Bytes} (h : ∀ chunk ∈ pieces, chunk.length ≤ width)
    (address : Nat → Nat) (first : Nat) :
  ((pieces.zipIdx first).map fun p => line width (address p.2) p.1).mapM
      (fun t => readField (fieldOf width t))
    = some pieces
  := by
  induction pieces generalizing first with
  | nil => rfl
  | cons chunk pieces ih =>
    obtain ⟨hchunk, hrest⟩ := List.forall_mem_cons.mp h
    rw [List.zipIdx_cons, List.map_cons, List.mapM_cons, readField_line hchunk, ih hrest]
    rfl

/-- The lines of a dump are those of the pieces of the data, each with its address. -/
theorem lines_eq (hwidth : 1 ≤ width) (data : Bytes) (offset : Nat) :
  lines data offset width
    = .ok ((chunks width data).zipIdx.map fun p => line width (offset + width * p.2 : Nat) p.1)
  := by
  rw [lines, if_neg (by omega), if_neg (by omega), Int.toNat_natCast]
  simp

/-! ### The theorem -/

/-- The dump of data has a line for each piece of the width. A line is its address, two blanks, a
field with the hexadecimal digits of its bytes, two blanks, and a character for each of them. The
fields have the same length on all lines, and those of all lines give the data back. -/
theorem dump_loses_nothing (data : Bytes) (offset : Nat) {width : Nat} (hwidth : 1 ≤ width) :
  ∃ ts : List Text, lines data offset width = .ok ts ∧ ts.length = data.length ⌈/⌉ width
    ∧ (∀ (k : Nat) (t : Text), ts[k]? = some t → ∃ (chunk : Bytes) (field : Text),
      chunk = (data.drop (width * k)).take width
        ∧ t = addressText (offset + k * width) ++ "  " ++ field ++ "  " ++ chunk.map character
        ∧ field.length = 3 * width - 1 ∧ readField field = some chunk)
    ∧ read width ts = some data
  := by
  refine ⟨_, lines_eq hwidth data offset, ?_, ?_, ?_⟩
  · rw [List.length_map, List.length_zipIdx, length_chunks hwidth]
  · intro k t ht
    rw [List.getElem?_map, List.getElem?_zipIdx, getElem?_chunks hwidth, Nat.zero_add] at ht
    split at ht
    · obtain rfl := Option.some.inj ht
      have hlength : ((data.drop (width * k)).take width).length ≤ width := List.length_take_le _ _
      refine ⟨_, (Bytes.hex _).padRight (width * 3 - 1), rfl, ?_, length_padRight_hex hlength,
        readField_padRight _ _⟩
      rw [mul_comm k, ← line_eq]
    · cases ht
  · rw [read, mapM_readField_lines (fun _ => length_le_of_mem_chunks hwidth)
      (fun i => offset + width * i), Option.map_some, flatten_chunks hwidth]

/-- The lines of a dump with an address that needs more than eight digits, and a shorter last line.
-/
theorem dump_loses_nothing_shortLine :
  ∃ ts : List Text, lines [0x06, 0x99, 0x7E] 0xFFFFFFFF 2 = .ok ts ∧ ts.length = 2
    ∧ ts[1]? = some (Text.ofString "100000001  7E     ~") ∧ read 2 ts = some [0x06, 0x99, 0x7E]
  := by
  obtain ⟨ts, hts, hlength, -, hread⟩ :=
    dump_loses_nothing [0x06, 0x99, 0x7E] 0xFFFFFFFF (show 1 ≤ 2 by decide)
  refine ⟨ts, hts, hlength.trans (by decide), ?_, hread⟩
  obtain rfl := Except.ok.inj hts
  decide +kernel

end HexDump

end ActionBlock
