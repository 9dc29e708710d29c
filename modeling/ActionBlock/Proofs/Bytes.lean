import ActionBlock.Scalar
import Mathlib.Tactic.Linarith
import Mathlib.Tactic.Ring

/-!
# Numbers in byte strings

`Bytes.littleEndian` and `Bytes.ofLittleEndian` are inverse to each other, on the numbers that fit
the width. The two's complement reading `Bytes.toSigned` undoes what `Scalar.fitInt` does to the
numbers in the range of a signed field.
-/

namespace ActionBlock

namespace Bytes

/-! ### Single bytes -/

theorem toNat_ofNat {n : Nat} (h : n < 256) :
  (UInt8.ofNat n).toNat = n
  := by
  rw [UInt8.toNat_ofNat', Nat.mod_eq_of_lt h]

theorem ofNat_eq {n : Nat} {b : UInt8} (h : n = b.toNat) :
  UInt8.ofNat n = b
  := by
  rw [h, UInt8.ofNat_toNat]

/-! ### Least significant byte first -/

/-- A number of so many bytes is below the power of 256 with that exponent. -/
theorem ofLittleEndian_lt (bytes : Bytes) :
  ofLittleEndian bytes < 256 ^ bytes.length
  := by
  induction bytes with
  | nil => simp [ofLittleEndian]
  | cons b rest ih =>
    have hb := b.toNat_lt
    simp only [ofLittleEndian, List.length_cons, pow_succ]
    omega

/-- The bytes of a number that has room in them stand for it. -/
theorem ofLittleEndian_littleEndian {width n : Nat} (h : n < 256 ^ width) :
  ofLittleEndian (littleEndian width n) = n
  := by
  induction width generalizing n with
  | zero =>
    simp only [pow_zero] at h
    simp only [littleEndian, ofLittleEndian]
    omega
  | succ width ih =>
    have hq : n / 256 < 256 ^ width := by
      apply (Nat.div_lt_iff_lt_mul (by decide)).mpr
      rw [← pow_succ]
      exact h
    simp only [littleEndian, ofLittleEndian, ih hq, UInt8.toNat_ofNat']
    omega

/-- Bytes are those of the number that they stand for. -/
theorem littleEndian_ofLittleEndian (bytes : Bytes) :
  littleEndian bytes.length (ofLittleEndian bytes) = bytes
  := by
  induction bytes with
  | nil => rfl
  | cons b rest ih =>
    have hb := b.toNat_lt
    have hdiv : (b.toNat + 256 * ofLittleEndian rest) / 256 = ofLittleEndian rest := by omega
    simp only [ofLittleEndian, List.length_cons, littleEndian, hdiv, ih, List.cons.injEq, and_true]
    apply UInt8.toNat_inj.mp
    rw [UInt8.toNat_ofNat']
    omega

/-! ### Splitting -/

theorem add_length_append_append (offset : Nat) (a b c : Bytes) :
  offset + (a ++ b ++ c).length = offset + a.length + b.length + c.length
  := by
  simp only [List.length_append]
  omega

/-- What comes after a front begins where the front ends. -/
theorem drop_add_length {data front rest : Bytes} {offset : Nat}
    (h : data.drop offset = front ++ rest) :
  data.drop (offset + front.length) = rest
  := by
  rw [← List.drop_drop, h, List.drop_left]

/-- A byte string is split into a front of the given length and the rest. -/
theorem splitExact_eq_some_iff {n : Nat} {bytes front rest : Bytes} :
  splitExact n bytes = some (front, rest) ↔ front.length = n ∧ bytes = front ++ rest
  := by
  simp only [splitExact, List.splitAt_eq]
  constructor
  · intro h
    split at h
    · rename_i hn
      obtain ⟨rfl, rfl⟩ := Prod.mk.inj (Option.some.inj h)
      exact ⟨hn, (List.take_append_drop n bytes).symm⟩
    · cases h
  · rintro ⟨rfl, rfl⟩
    simp

/-- A byte string is not split if it is too short. -/
theorem splitExact_eq_none_iff {n : Nat} {bytes : Bytes} :
  splitExact n bytes = none ↔ bytes.length < n
  := by
  simp only [splitExact, List.splitAt_eq, ite_eq_right_iff, reduceCtorEq, imp_false,
    List.length_take]
  omega

/-- Where bytes are cut that have a front: in the front, or after it. -/
theorem cut_append {pre post front rest : Bytes} (h : pre ++ post = front ++ rest) :
  (∃ cut, cut ≠ [] ∧ front = pre ++ cut) ∨ ∃ tail, pre = front ++ tail ∧ tail ++ post = rest
  := by
  obtain ⟨cut, hfront, hpost⟩ | ⟨tail, hpre, hrest⟩ := List.append_eq_append_iff.mp h
  · cases cut with
    | nil => exact .inr ⟨[], by simpa using hfront.symm, by simpa using hpost⟩
    | cons b cut => exact .inl ⟨b :: cut, by simp, hfront⟩
  · exact .inr ⟨tail, hpre, hrest.symm⟩

@[simp]
theorem splitExact_append (front rest : Bytes) :
  splitExact front.length (front ++ rest) = some (front, rest)
  := splitExact_eq_some_iff.mpr ⟨rfl, rfl⟩

/-- Whether there are so many bytes is found out by counting up to there. -/
@[simp]
theorem hasAtLeast_iff {n : Nat} {bytes : Bytes} :
  hasAtLeast n bytes = true ↔ n ≤ bytes.length
  := by
  simp only [hasAtLeast, Bool.or_eq_true, decide_eq_true_eq, Bool.not_eq_true',
    List.isEmpty_eq_false_iff, ne_eq, List.drop_eq_nil_iff]
  omega

/-! ### Two's complement -/

/-- A signed number is within the range of its bits. -/
theorem toSigned_range {bits n : Nat} (hbits : 0 < bits) (h : n < 2 ^ bits) :
  -2 ^ (bits - 1) ≤ toSigned bits n ∧ toSigned bits n ≤ 2 ^ (bits - 1) - 1
  := by
  obtain ⟨k, rfl⟩ : ∃ k, bits = k + 1 := ⟨bits - 1, by omega⟩
  have hn : (n : Int) < 2 ^ k * 2 := by
    rw [← pow_succ]
    exact_mod_cast h
  simp only [toSigned, Nat.add_sub_cancel, pow_succ (2 : Int)]
  split
  · rename_i hk
    have hk' : (2 : Int) ^ k ≤ n := by exact_mod_cast hk.2
    constructor <;> omega
  · rename_i hk
    have hk' : (n : Int) < 2 ^ k := by
      push Not at hk
      exact_mod_cast hk (by omega)
    constructor <;> omega

/-- A signed number has the bits that it was made from. -/
theorem toSigned_emod {bits n : Nat} (h : n < 2 ^ bits) :
  (toSigned bits n % 2 ^ bits).toNat = n
  := by
  have hn : (n : Int) < 2 ^ bits := by exact_mod_cast h
  have hmod : (n : Int) % 2 ^ bits = n := Int.emod_eq_of_lt (by omega) hn
  simp only [toSigned]
  split
  · rw [Int.sub_emod_right, hmod, Int.toNat_natCast]
  · rw [hmod, Int.toNat_natCast]

/-- A number within the range comes back from its bits. -/
theorem toSigned_of_range {bits : Nat} {m : Int} (hbits : 0 < bits)
    (hlow : -2 ^ (bits - 1) ≤ m) (hhigh : m ≤ 2 ^ (bits - 1) - 1) :
  toSigned bits (m % 2 ^ bits).toNat = m
  := by
  obtain ⟨k, rfl⟩ : ∃ k, bits = k + 1 := ⟨bits - 1, by omega⟩
  simp only [Nat.add_sub_cancel] at hlow hhigh
  have hk : (0 : Int) < 2 ^ k := by positivity
  by_cases hm : 0 ≤ m
  · have hmod : m % 2 ^ (k + 1) = m := Int.emod_eq_of_lt hm (by rw [pow_succ]; omega)
    have hnot : ¬ 2 ^ k ≤ m.toNat := by
      intro hle
      have hle' : (2 : Int) ^ k ≤ m.toNat := by exact_mod_cast hle
      omega
    simp only [toSigned, hmod, Nat.add_sub_cancel, hnot, and_false, if_false]
    omega
  · have hmod : m % 2 ^ (k + 1) = m + 2 ^ (k + 1) := by
      rw [← Int.add_emod_right]
      apply Int.emod_eq_of_lt <;> rw [pow_succ] <;> omega
    have hle : 2 ^ k ≤ (m + 2 ^ (k + 1)).toNat := by
      zify
      rw [Int.toNat_of_nonneg (by rw [pow_succ]; omega), pow_succ]
      omega
    simp only [toSigned, hmod, Nat.add_sub_cancel, hle, and_true]
    rw [if_pos (by omega), Int.toNat_of_nonneg (by rw [pow_succ]; omega)]
    omega

end Bytes

/-! ### Fields for integers -/

namespace Scalar

/-- An integer fits a field if it is within the range, and is held modulo its size. -/
theorem fitInt_eq_ok_iff {width : Nat} {signed : Bool} {n : Int} {bits : Nat} :
  fitInt width signed n = .ok bits
    ↔ (fieldRange width signed).1 ≤ n ∧ n ≤ (fieldRange width signed).2
      ∧ bits = (n % 2 ^ width).toNat
  := by
  simp only [fitInt]
  split
  · rename_i h
    simp only [Except.ok.injEq, h, true_and]
    exact eq_comm
  · rename_i h
    simp only [reduceCtorEq, false_iff]
    rintro ⟨hlow, hhigh, -⟩
    exact h ⟨hlow, hhigh⟩

/-- A natural number is written into an unsigned field as it is, if it is in range. -/
theorem fitInt_natCast {width n : Nat} (h : n < 2 ^ width) :
  fitInt width false n = .ok n
  := by
  have hn : (n : Int) < 2 ^ width := by exact_mod_cast h
  apply fitInt_eq_ok_iff.mpr
  simp only [fieldRange, Bool.false_eq_true, if_false]
  refine ⟨by omega, by omega, ?_⟩
  rw [Int.emod_eq_of_lt (by omega) hn, Int.toNat_natCast]

/-- An integer without a sign is held as it is. -/
theorem fitInt_unsigned_eq_ok_iff {width : Nat} {n : Int} {bits : Nat} :
  fitInt width false n = .ok bits ↔ n = bits ∧ bits < 2 ^ width
  := by
  constructor
  · intro h
    obtain ⟨hlow, hhigh, rfl⟩ := fitInt_eq_ok_iff.mp h
    simp only [fieldRange, Bool.false_eq_true, if_false] at hlow hhigh
    have hmod : n % 2 ^ width = n := Int.emod_eq_of_lt hlow (by omega)
    rw [hmod]
    refine ⟨by omega, ?_⟩
    zify
    rw [Int.toNat_of_nonneg hlow]
    omega
  · rintro ⟨rfl, h⟩
    exact fitInt_natCast h

end Scalar

end ActionBlock
