import ActionBlock.Bits.Stream
import ActionBlock.Proofs.Bytes
import Mathlib.Data.List.Induction

/-!
# Strings of bits

Bits stand for numbers and for byte strings, the most significant one first. `bitsOfNumber` and
`numberOfBits` undo each other for the numbers that fit the width, and so do `bitsOfBytes` and
`bytesOfBits` for the strings of bits that are made of whole bytes.
-/

namespace ActionBlock.BitStream

/-! ### Numbers -/

@[simp]
theorem length_bitsOfNumber (width n : Nat) :
  (bitsOfNumber width n).length = width
  := by
  simp [bitsOfNumber]

/-- The first bit of a number is the most significant one that its width has room for. -/
@[simp]
theorem getElem_bitsOfNumber {width n i : Nat} (h : i < (bitsOfNumber width n).length) :
  (bitsOfNumber width n)[i] = n.testBit (width - 1 - i)
  := by
  simp [bitsOfNumber]

/-- One more bit of width: the half of the number comes first, and its lowest bit last. -/
theorem bitsOfNumber_succ (width n : Nat) :
  bitsOfNumber (width + 1) n = bitsOfNumber width (n / 2) ++ [n.testBit 0]
  := by
  simp [bitsOfNumber, List.range_succ_eq_map, Function.comp_def, Nat.testBit_succ]

/-- One more bit at the end doubles the number and adds the bit. -/
theorem numberOfBits_concat (bits : List Bool) (b : Bool) :
  numberOfBits (bits ++ [b]) = 2 * numberOfBits bits + b.toNat
  := by
  simp [numberOfBits]

/-- The bits in front count for as much as those behind them have room for. -/
theorem numberOfBits_append (front back : List Bool) :
  numberOfBits (front ++ back) = numberOfBits front * 2 ^ back.length + numberOfBits back
  := by
  induction back using List.reverseRecOn with
  | nil => simp [numberOfBits]
  | append_singleton back b ih =>
    rw [← List.append_assoc, numberOfBits_concat, numberOfBits_concat, ih, List.length_append,
      List.length_singleton, pow_succ]
    ring

/-- A number of so many bits is below the power of two with that exponent. -/
theorem numberOfBits_lt (bits : List Bool) :
  numberOfBits bits < 2 ^ bits.length
  := by
  induction bits using List.reverseRecOn with
  | nil => simp [numberOfBits]
  | append_singleton bits b ih =>
    have hb := b.toNat_lt
    rw [numberOfBits_concat, List.length_append, List.length_singleton, pow_succ]
    omega

/-- The bits of a number stand for what of it fits the width. -/
theorem numberOfBits_bitsOfNumber (width n : Nat) :
  numberOfBits (bitsOfNumber width n) = n % 2 ^ width
  := by
  induction width generalizing n with
  | zero => simp [bitsOfNumber, numberOfBits, Nat.mod_one]
  | succ width ih =>
    rw [bitsOfNumber_succ, numberOfBits_concat, ih, pow_succ, mul_comm (2 ^ width), Nat.mod_mul,
      Nat.testBit_zero]
    obtain h | h := Nat.mod_two_eq_zero_or_one n
    · simp [h]
    · simp [h, add_comm]

/-- Bits are those of the number that they stand for, in their own width. -/
theorem bitsOfNumber_numberOfBits (bits : List Bool) :
  bitsOfNumber bits.length (numberOfBits bits) = bits
  := by
  induction bits using List.reverseRecOn with
  | nil => rfl
  | append_singleton bits b ih =>
    have hb := b.toNat_lt
    have hhalf : (2 * numberOfBits bits + b.toNat) / 2 = numberOfBits bits := by omega
    rw [List.length_append, List.length_singleton, bitsOfNumber_succ, numberOfBits_concat, hhalf,
      ih,
      Nat.testBit_zero]
    cases b <;> simp

/-- Without its first bits a number is the same number in a smaller width. -/
theorem drop_bitsOfNumber (k width n : Nat) :
  (bitsOfNumber width n).drop k = bitsOfNumber (width - k) n
  := by
  apply List.ext_getElem
  · simp
  · intro i hi _
    simp only [List.length_drop, length_bitsOfNumber] at hi
    rw [List.getElem_drop, getElem_bitsOfNumber, getElem_bitsOfNumber]
    congr 1
    omega

/-- The first bits of a number are those of the number without its last ones. -/
theorem take_bitsOfNumber {k width : Nat} (h : k ≤ width) (n : Nat) :
  (bitsOfNumber width n).take k = bitsOfNumber k (n / 2 ^ (width - k))
  := by
  apply List.ext_getElem
  · simpa using h
  · intro i _ hi
    simp only [length_bitsOfNumber] at hi
    rw [List.getElem_take, getElem_bitsOfNumber, getElem_bitsOfNumber, Nat.testBit_div_two_pow]
    congr 1
    omega

/-! ### Bytes -/

theorem bitsOfBytes_cons (b : UInt8) (bytes : Bytes) :
  bitsOfBytes (b :: bytes) = bitsOfNumber 8 b.toNat ++ bitsOfBytes bytes
  := rfl

theorem bitsOfBytes_singleton (b : UInt8) :
  bitsOfBytes [b] = bitsOfNumber 8 b.toNat
  := List.append_nil _

/-- The bits of two byte strings, one after the other, are the bits of both. -/
theorem bitsOfBytes_append (front back : Bytes) :
  bitsOfBytes (front ++ back) = bitsOfBytes front ++ bitsOfBytes back
  := List.flatMap_append

/-- A byte has eight bits. -/
@[simp]
theorem length_bitsOfBytes (bytes : Bytes) :
  (bitsOfBytes bytes).length = 8 * bytes.length
  := by
  induction bytes with
  | nil => rfl
  | cons b bytes ih =>
    rw [bitsOfBytes_cons, List.length_append, length_bitsOfNumber, ih, List.length_cons]
    omega

/-- The bit at a position is in the byte at an eighth of it. -/
theorem getElem?_bitsOfBytes (bytes : Bytes) (i : Nat) :
  (bitsOfBytes bytes)[i]? = bytes[i / 8]?.map (bitOfByte · (i % 8))
  := by
  induction bytes generalizing i with
  | nil => simp [bitsOfBytes]
  | cons b bytes ih =>
    rw [bitsOfBytes_cons]
    by_cases hi : i < 8
    · have hi' : i < (bitsOfNumber 8 b.toNat).length := by simpa using hi
      rw [List.getElem?_append_left hi', List.getElem?_eq_getElem hi', getElem_bitsOfNumber,
        Nat.div_eq_of_lt hi, Nat.mod_eq_of_lt hi]
      rfl
    · obtain ⟨j, rfl⟩ : ∃ j, i = j + 8 := ⟨i - 8, by omega⟩
      rw [List.getElem?_append_right (by simp), length_bitsOfNumber, Nat.add_sub_cancel, ih,
        Nat.add_div_right _ (by decide), List.getElem?_cons_succ, Nat.add_mod_right]

/-- Leaving out whole bytes from the front leaves out eight bits for each. -/
theorem drop_bitsOfBytes (bytes : Bytes) (k : Nat) :
  (bitsOfBytes bytes).drop (8 * k) = bitsOfBytes (bytes.drop k)
  := by
  apply List.ext_getElem?
  intro i
  have hdiv : (8 * k + i) / 8 = k + i / 8 := by omega
  have hmod : (8 * k + i) % 8 = i % 8 := by omega
  rw [List.getElem?_drop, getElem?_bitsOfBytes, getElem?_bitsOfBytes, List.getElem?_drop, hdiv,
    hmod]

/-- The first whole bytes have the first bits, eight for each. -/
theorem take_bitsOfBytes (bytes : Bytes) (k : Nat) :
  (bitsOfBytes bytes).take (8 * k) = bitsOfBytes (bytes.take k)
  := by
  apply List.ext_getElem?
  intro i
  rw [List.getElem?_take, getElem?_bitsOfBytes, getElem?_bitsOfBytes, List.getElem?_take]
  by_cases hi : i < 8 * k
  · rw [if_pos hi, if_pos (by omega)]
  · rw [if_neg hi, if_neg (by omega)]
    rfl

/-- Setting a bit of a byte changes that bit and none of the others. -/
theorem bitOfByte_setBitOfByte {p q : Nat} (hp : p < 8) (hq : q < 8) (b : UInt8) (v : Bool) :
  bitOfByte (setBitOfByte b p v) q = if q = p then v else bitOfByte b q
  := by
  have hmask : (UInt8.ofNat (2 ^ (7 - p))).toBitVec.getLsbD (7 - q) = decide (q = p) := by
    have hlt : 2 ^ (7 - p) < 2 ^ 8 := Nat.pow_lt_pow_right (by decide) (by omega)
    rw [UInt8.toBitVec_ofNat', BitVec.getLsbD, BitVec.toNat_ofNat, Nat.mod_eq_of_lt hlt,
      Nat.testBit_two_pow]
    apply decide_eq_decide.mpr
    omega
  have hbit : ∀ x : UInt8, bitOfByte x q = x.toBitVec.getLsbD (7 - q) := fun _ => rfl
  rw [hbit, hbit, setBitOfByte]
  cases v with
  | false =>
    simp only [Bool.false_eq_true, if_false, UInt8.toBitVec_and, UInt8.toBitVec_not,
      BitVec.getLsbD_and, BitVec.getLsbD_not, hmask]
    by_cases hqp : q = p
    · simp [hqp]
    · simp [hqp, Nat.lt_of_le_of_lt (Nat.sub_le 7 q)]
  | true =>
    simp only [if_true, UInt8.toBitVec_or, BitVec.getLsbD_or, hmask]
    by_cases hqp : q = p
    · simp [hqp]
    · simp [hqp]

/-- Setting a bit of one byte of a string sets one bit of its bits. -/
theorem bitsOfBytes_modify {p : Nat} (hp : p < 8) (bytes : Bytes) (k : Nat) (v : Bool) :
  bitsOfBytes (bytes.modify k (setBitOfByte · p v)) = (bitsOfBytes bytes).set (8 * k + p) v
  := by
  apply List.ext_getElem?
  intro i
  have hi : i % 8 < 8 := Nat.mod_lt _ (by decide)
  rw [getElem?_bitsOfBytes, List.getElem?_modify, List.getElem?_set', getElem?_bitsOfBytes]
  cases bytes[i / 8]? with
  | none => simp
  | some b =>
    by_cases hk : k = i / 8
    · have hiff : i % 8 = p ↔ 8 * k + p = i := by omega
      simp only [Option.map_eq_map, Option.map_some, if_pos hk, bitOfByte_setBitOfByte hp hi, hiff]
      split <;> rfl
    · have hne : ¬ 8 * k + p = i := by omega
      simp only [Option.map_eq_map, Option.map_some, if_neg hk, if_neg hne]

/-! ### Whole bytes -/

/-- The byte whose bits are given. -/
def byteOfBits (bits : List Bool) : UInt8 := UInt8.ofNat (numberOfBits bits)

/-- The whole bytes that bits make, from the first bit on. Fewer than eight bits are left over. -/
def bytesOfBits (bits : List Bool) : Bytes :=
  (List.range (bits.length / 8)).map fun k => byteOfBits ((bits.drop (8 * k)).take 8)

/-- The bits of a byte stand for it. -/
theorem byteOfBits_bitsOfNumber (b : UInt8) :
  byteOfBits (bitsOfNumber 8 b.toNat) = b
  := by
  apply Bytes.ofNat_eq
  rw [numberOfBits_bitsOfNumber, Nat.mod_eq_of_lt b.toNat_lt]

/-- Eight bits are those of the byte that they stand for. -/
theorem bitsOfNumber_byteOfBits {bits : List Bool} (h : bits.length = 8) :
  bitsOfNumber 8 (byteOfBits bits).toNat = bits
  := by
  have hlt := numberOfBits_lt bits
  rw [h] at hlt
  rw [byteOfBits, Bytes.toNat_ofNat hlt, ← h, bitsOfNumber_numberOfBits]

/-- There is a byte for every eight bits, and none for the bits left over. -/
@[simp]
theorem length_bytesOfBits (bits : List Bool) :
  (bytesOfBits bits).length = bits.length / 8
  := by
  simp [bytesOfBits]

/-- Fewer than eight bits make no byte. -/
theorem bytesOfBits_of_short {bits : List Bool} (h : bits.length < 8) :
  bytesOfBits bits = []
  := by
  rw [bytesOfBits, Nat.div_eq_of_lt h]
  rfl

/-- Eight bits in front are a byte in front. -/
theorem bytesOfBits_append {byte : List Bool} (h : byte.length = 8) (rest : List Bool) :
  bytesOfBits (byte ++ rest) = byteOfBits byte :: bytesOfBits rest
  := by
  have hlength : (byte ++ rest).length / 8 = rest.length / 8 + 1 := by
    rw [List.length_append, h]
    omega
  have hdrop : ∀ k, (byte ++ rest).drop (8 * (k + 1)) = rest.drop (8 * k) := by
    intro k
    rw [List.drop_append, List.drop_eq_nil_of_le (by omega), List.nil_append, h]
    rfl
  rw [bytesOfBits, hlength, List.range_succ_eq_map, List.map_cons, List.map_map]
  simp only [Function.comp_def, Nat.succ_eq_add_one, hdrop]
  simp [bytesOfBits, h]

/-- The bits of a byte string stand for it, whatever bits come after. -/
@[simp]
theorem bytesOfBits_bitsOfBytes_append (bytes : Bytes) (rest : List Bool) :
  bytesOfBits (bitsOfBytes bytes ++ rest) = bytes ++ bytesOfBits rest
  := by
  induction bytes with
  | nil => rfl
  | cons b bytes ih =>
    rw [bitsOfBytes_cons, List.append_assoc, bytesOfBits_append (length_bitsOfNumber _ _), ih,
      byteOfBits_bitsOfNumber, List.cons_append]

/-- The bits of a byte string stand for it. -/
@[simp]
theorem bytesOfBits_bitsOfBytes (bytes : Bytes) :
  bytesOfBits (bitsOfBytes bytes) = bytes
  := by
  have h := bytesOfBits_bitsOfBytes_append bytes []
  rwa [List.append_nil, bytesOfBits_of_short (List.length_nil.trans_lt (by decide)),
    List.append_nil] at h

/-- Bits are whole bytes, and fewer than eight bits after them. -/
theorem exists_bitsOfBytes_append (bits : List Bool) :
  ∃ bytes rest, bits = bitsOfBytes bytes ++ rest ∧ rest.length < 8
  := by
  induction h : bits.length / 8 generalizing bits with
  | zero => exact ⟨[], bits, rfl, by omega⟩
  | succ n ih =>
    have hbyte : (bits.take 8).length = 8 := by
      rw [List.length_take]
      omega
    obtain ⟨bytes, rest, hrest, hlt⟩ := ih (bits.drop 8) (by rw [List.length_drop]; omega)
    refine ⟨byteOfBits (bits.take 8) :: bytes, rest, ?_, hlt⟩
    rw [bitsOfBytes_cons, bitsOfNumber_byteOfBits hbyte, List.append_assoc, ← hrest,
      List.take_append_drop]

theorem bytesOfBits_eq_cons {bits : List Bool} (h : 8 ≤ bits.length) :
  bytesOfBits bits = byteOfBits (bits.take 8) :: bytesOfBits (bits.drop 8)
  := by
  have hbyte : (bits.take 8).length = 8 := by rwa [List.length_take, Nat.min_eq_left]
  conv_lhs => rw [← List.take_append_drop 8 bits, bytesOfBits_append hbyte]

/-- The bytes of the first bits, eight for each, are the first bytes. -/
theorem bytesOfBits_take (bits : List Bool) (k : Nat) :
  bytesOfBits (bits.take (8 * k)) = (bytesOfBits bits).take k
  := by
  obtain ⟨bytes, rest, rfl, hlt⟩ := exists_bitsOfBytes_append bits
  have hrest : (rest.take (8 * k - (bitsOfBytes bytes).length)).length < 8 := by
    rw [List.length_take]
    omega
  rw [List.take_append, take_bitsOfBytes, bytesOfBits_bitsOfBytes_append,
    bytesOfBits_bitsOfBytes_append, bytesOfBits_of_short hrest, bytesOfBits_of_short hlt,
    List.append_nil, List.append_nil]

/-- The bytes of the bits after the first, eight for each, are the bytes after the first. -/
theorem bytesOfBits_drop (bits : List Bool) (k : Nat) :
  bytesOfBits (bits.drop (8 * k)) = (bytesOfBits bits).drop k
  := by
  obtain ⟨bytes, rest, rfl, hlt⟩ := exists_bitsOfBytes_append bits
  have hrest : (rest.drop (8 * k - (bitsOfBytes bytes).length)).length < 8 := by
    rw [List.length_drop]
    omega
  rw [List.drop_append, drop_bitsOfBytes, bytesOfBits_bitsOfBytes_append,
    bytesOfBits_bitsOfBytes_append, bytesOfBits_of_short hrest, bytesOfBits_of_short hlt,
    List.append_nil, List.append_nil]

end ActionBlock.BitStream
