import ActionBlock.Proofs.Push
import ActionBlock.Proofs.Rounding
import ActionBlock.Proofs.TypedFields

/-!
# Pushed numbers are held as they are written

A pushed number of 32 bits is rounded when it is made. What is then held is a number of 32 bits, so
that it can always be written, is read back as it was, and making it once more changes nothing. A
number that is beyond the range is refused when it is made, and never when it is written.

A pushed number of 64 bits is its eight bytes, the high word first.
-/

namespace ActionBlock

open BitStream

/-! ### Numbers of 32 bits in a stream -/

namespace BitStream

/-- The bytes of a number of 32 bits, as the byte order has them. -/
def singleBytes (order : ByteOrder) (y : Single) : Bytes :=
  match order with
  | .little => Bytes.littleEndian 4 y.bits.toNat
  | .big => (Bytes.littleEndian 4 y.bits.toNat).reverse

theorem length_singleBytes (order : ByteOrder) (y : Single) :
  (singleBytes order y).length = 4
  := by
  cases order <;> simp [singleBytes]

/-- A single is written as its own four bytes, up to the quiet bit of a NaN. -/
theorem floatBytes_ofSingle (y : Single) (order : ByteOrder) :
  floatBytes (.double (.ofSingle y)) (.int 32) (.text order.mark)
    = .ok (singleBytes order y.quieted)
  := by
  have hwritten : bytesOfFloat true (.double (.ofSingle y))
      = .ok (Bytes.littleEndian 4 y.quieted.bits.toNat) := PushType.write_float y
  cases order with
  | little =>
    change bytesOfFloat true _ >>= _ = _
    rw [hwritten]
    rfl
  | big =>
    change bytesOfFloat true _ >>= _ = _
    rw [hwritten]
    rfl

/-- The four bytes of a single read back as that single. -/
theorem floatOfBits_singleBytes (y : Single) (order : ByteOrder) :
  floatOfBits true order (bitsOfBytes (singleBytes order y)) = .ofSingle y
  := by
  have hlt : y.bits.toNat < 256 ^ 4 := y.bits.toNat_lt
  have hback : floatOfBytes true (Bytes.littleEndian 4 y.bits.toNat) = .ofSingle y := by
    rw [floatOfBytes, Bytes.ofLittleEndian_littleEndian hlt]
    simp
  cases order with
  | little => rwa [floatOfBits, singleBytes, bytesOfBits_bitsOfBytes]
  | big => rwa [floatOfBits, singleBytes, bytesOfBits_bitsOfBytes, List.reverse_reverse]

/-- A number of 32 bits is written at the cursor, wherever that is, and read back from there. -/
theorem exists_writeFloat_readFloat {s : BitStream} (hs : s.Sound) (y : Single)
    (order : ByteOrder) :
  ∃ t, (writeFloat (.double (.ofSingle y)) (.int 32) (.text order.mark)).run s = (.ok (), t)
    ∧ (do seek s.cursor .start; readFloat (.int 32) (.text order.mark)).run t
      = (.ok (.ofSingle y), t)
  := by
  have hlength : (bitsOfBytes (singleBytes order y.quieted)).length = 32 := by
    rw [length_bitsOfBytes, length_singleBytes]
  have hwrites : Writes (writeFloat (.double (.ofSingle y)) (.int 32) (.text order.mark))
      (bitsOfBytes (singleBytes order y.quieted)) := by
    rw [writeFloat_eq, floatBytes_ofSingle]
    apply writes_writeBytes
  obtain ⟨t, hwrite, ht⟩ := hwrites s s.view hs.holds
    (.inl (List.ne_nil_of_length_pos (by rw [hlength]; decide)))
  refine ⟨t, hwrite, ?_⟩
  have hseek : (seek s.cursor .start).run t = (.ok (), { t with cursor := s.cursor }) := rfl
  have hback : ({ t with cursor := s.cursor } : BitStream).Holds
      ⟨(s.view.write (bitsOfBytes (singleBytes order y.quieted))).bits, s.view.cursor⟩ :=
    ⟨ht.length_eq, hs.holds.cursor_eq, ht.bytes_eq⟩
  have hroom : s.view.cursor
      ≤ (s.view.write (bitsOfBytes (singleBytes order y.quieted))).bits.length := by
    rw [BitList.length_write]
    omega
  have hwidth : isSingleWidth (.int 32) = .ok true := rfl
  have horder : byteOrder? (.text order.mark) = .ok (some order) := by cases order <;> rfl
  have hread := (reads_readFloat hwidth rfl horder).run_of_ahead hback hroom hlength
    (drop_write s.view _)
  have hend : s.cursor + 32 = t.cursor := by
    rw [ht.cursor_eq, hs.holds.cursor_eq, BitList.write, hlength]
    rfl
  rw [run_bind_of_ok hseek, hread, floatOfBits_singleBytes, Double.ofSingle_quieted, moved]
  simp only [if_true, Nat.cast_ofNat, hend]

end BitStream

/-! ### Making a pushed number -/

namespace PushValue

/-- A float can be made exactly from what converts to a single, and it holds that single. -/
theorem make_float_eq_ok_iff {v : Value} {p : PushValue} :
  make v .float = .ok p ↔ ∃ y, v.toSingle = .ok y ∧ p = ⟨.double (.ofSingle y), .float⟩
  := by
  simp only [make, map_eq_ok_iff, @eq_comm _ p]

theorem make_double_of_toSingle? {x : Double} {y : Single} (h : x.toSingle? = some y) :
  make (.double x) .float = .ok ⟨.double (.ofSingle y), .float⟩
  := by
  apply make_float_eq_ok_iff.mpr
  refine ⟨y, ?_, rfl⟩
  simp only [Value.toSingle, Scalar.toSingle, Scalar.toDouble, bind, Except.bind, h]

/-- A double that rounds beyond the largest single is refused. -/
theorem make_double_of_beyond {x : Double} (h : x.toSingle? = none) :
  make (.double x) .float = .error .singleTooLarge
  := by
  apply map_eq_error_iff.mpr
  simp only [Value.toSingle, Scalar.toSingle, Scalar.toDouble, bind, Except.bind, h, Scalar.whole?,
    Option.isSome_none, Bool.false_eq_true, if_false]

theorem make_int_of_beyond {n : Int} (h : Double.ofInt? n = none) :
  make (.int n) .float = .error .notANumber
  := by
  apply map_eq_error_iff.mpr
  simp only [Value.toSingle, Scalar.toSingle, Scalar.toDouble, h, Option.elim, bind, Except.bind]

/-- An integer is taken to the format of 64 bits first. -/
theorem make_int_of_ofInt? {n : Int} {x : Double} (h : Double.ofInt? n = some x) :
  make (.int n) .float
    = if x.toSingle?.isSome then make (.double x) .float else .error .integerTooLarge
  := by
  cases hsingle : x.toSingle? with
  | some y =>
    rw [make_double_of_toSingle? hsingle, Option.isSome_some, if_pos rfl]
    apply make_float_eq_ok_iff.mpr
    refine ⟨y, ?_, rfl⟩
    simp only [Value.toSingle, Scalar.toSingle, Scalar.toDouble, h, Option.elim, bind, Except.bind,
      hsingle]
  | none =>
    apply map_eq_error_iff.mpr
    simp only [Value.toSingle, Scalar.toSingle, Scalar.toDouble, h, Option.elim, bind, Except.bind,
      hsingle, Scalar.whole?, Option.isSome_some, if_true]

/-- A pushed number of 32 bits that is held as it is written: it is written and read back as it was,
by itself and in a stream at any cursor, and making it once more gives the same. -/
structure Settles (p : PushValue) (w : Double) : Prop where
  eq : p = ⟨.double w, .float⟩
  again : make (.double w) .float = .ok p
  written : ∃ bytes, p.write = .ok (UInt8.ofNat PushType.float.number :: bytes)
    ∧ ∀ rest, PushType.read .float (bytes ++ rest) = some (.double w, rest)
  streamed : ∀ (s : BitStream) (order : ByteOrder), s.Sound →
    ∃ t, (writeFloat (.double w) (.int 32) (.text order.mark)).run s = (.ok (), t)
      ∧ (do seek s.cursor .start; readFloat (.int 32) (.text order.mark)).run t = (.ok w, t)

/-- A float that holds a single is written and read back to the same single. -/
theorem settles_ofSingle (y : Single) :
  Settles ⟨.double (.ofSingle y), .float⟩ (.ofSingle y)
  := by
  refine ⟨rfl, ?_, ⟨_, write_eq_ok_iff.mpr ⟨_, PushType.write_float y, rfl⟩, ?_⟩, ?_⟩
  · rw [make_double_of_toSingle? (Double.toSingle?_ofSingle y), Double.ofSingle_quieted]
  · intro rest
    apply PushType.read_float_eq_some_iff.mpr
    refine ⟨y.quieted.bits.toNat, y.quieted.bits.toNat_lt, rfl, ?_⟩
    rw [UInt32.ofNat_toNat, Double.ofSingle_quieted]
  · intro s order hs
    exact exists_writeFloat_readFloat hs y order

end PushValue

/-! ### Numbers of 64 bits -/

/-- Eight bytes make a number, whose bytes they are with the words swapped, and are written for it.
-/
theorem PushType.exists_read_double {piece : Bytes} (h : piece.length = 8) (rest : Bytes) :
  ∃ x : Double, read .double (piece ++ rest) = some (.double x, rest)
    ∧ Bytes.littleEndian 8 x.bits.toNat = piece.drop 4 ++ piece.take 4
    ∧ write .double (.double x) = .ok piece
  := by
  refine ⟨⟨UInt64.ofNat (Bytes.ofLittleEndian (swapWords piece))⟩, ?_, ?_, ?_⟩
  · apply Reader.map_eq_some_iff.mpr
    exact ⟨piece, Reader.take_eq_some_iff.mpr ⟨h, rfl⟩, rfl⟩
  · have hlen : (swapWords piece).length = 8 := by rw [length_swapWords, h]
    have hlt : Bytes.ofLittleEndian (swapWords piece) < 2 ^ 64 := by
      have hlt := Bytes.ofLittleEndian_lt (swapWords piece)
      rwa [hlen] at hlt
    rw [UInt64.toNat_ofNat', Nat.mod_eq_of_lt hlt]
    conv_lhs => rw [← hlen]
    apply Bytes.littleEndian_ofLittleEndian
  · apply write_double_of_bytes h

/-- A pushed number of 32 bits is held as it is written, whatever it was made of. It is made of a
number of 64 bits, by rounding to the nearest, unless that is finite and beyond the largest by half
a unit or more; and of an integer by way of the nearest number of 64 bits. What is held is the
number of 32 bits itself. Eight bytes of a number of 64 bits are written as they were read. -/
theorem floats_settle :
  (∀ (v : Value) (p : PushValue), PushValue.make v .float = .ok p → ∃ w, p.Settles w)
    ∧ (∀ x : Double,
      (x.pattern < Format.double.infinity ∧ Format.single.limit ≤ |x.value| →
        PushValue.make (.double x) .float = .error .singleTooLarge)
      ∧ (¬ (x.pattern < Format.double.infinity ∧ Format.single.limit ≤ |x.value|) →
        ∃ y : Single, PushValue.make (.double x) .float = .ok ⟨.double (.ofSingle y), .float⟩
          ∧ y.negative = x.negative ∧ x.Narrows y))
    ∧ (∀ n : Int,
      (Format.double.limit ≤ |(n : ℚ)| → PushValue.make (.int n) .float = .error .notANumber)
      ∧ (|(n : ℚ)| < Format.double.limit →
        ∃ x : Double, x.negative = decide (n < 0)
          ∧ Format.double.Nearest n x.negative x.pattern
          ∧ (Format.single.limit ≤ |x.value| →
            PushValue.make (.int n) .float = .error .integerTooLarge)
          ∧ (|x.value| < Format.single.limit →
            PushValue.make (.int n) .float = PushValue.make (.double x) .float)))
    ∧ (∀ y : Single, (Double.ofSingle y).negative = y.negative ∧ Double.Widens y (.ofSingle y))
    ∧ ∀ piece rest : Bytes, piece.length = 8 →
      ∃ x : Double, PushType.read .double (piece ++ rest) = some (.double x, rest)
        ∧ Bytes.littleEndian 8 x.bits.toNat = piece.drop 4 ++ piece.take 4
        ∧ PushType.write .double (.double x) = .ok piece
  := by
  refine ⟨?_, ?_, ?_, Double.widens_ofSingle, fun piece rest h =>
    PushType.exists_read_double h rest⟩
  · intro v p h
    obtain ⟨y, -, rfl⟩ := PushValue.make_float_eq_ok_iff.mp h
    exact ⟨_, PushValue.settles_ofSingle y⟩
  · intro x
    rw [← Double.toSingle?_eq_none_iff]
    refine ⟨PushValue.make_double_of_beyond, fun h => ?_⟩
    obtain ⟨y, hy⟩ := Option.ne_none_iff_exists'.mp h
    exact ⟨y, PushValue.make_double_of_toSingle? hy, Double.narrows_of_toSingle? hy⟩
  · intro n
    rw [← not_le, ← Double.ofInt?_eq_none_iff]
    refine ⟨PushValue.make_int_of_beyond, fun h => ?_⟩
    obtain ⟨x, hx⟩ := Option.ne_none_iff_exists'.mp h
    obtain ⟨hnegative, hnear⟩ := Double.nearest_of_ofInt? hx
    refine ⟨x, hnegative, hnear, fun hbeyond => ?_, fun hwithin => ?_⟩
    · have hnone := Double.toSingle?_eq_none_iff.mpr ⟨hnear.finite, hbeyond⟩
      rw [PushValue.make_int_of_ofInt? hx, hnone, Option.isSome_none, if_neg Bool.false_ne_true]
    · have hsome : x.toSingle? ≠ none :=
        fun hnone => (Double.toSingle?_eq_none_iff.mp hnone).2.not_gt hwithin
      rw [PushValue.make_int_of_ofInt? hx, if_pos (Option.isSome_iff_ne_none.mpr hsome)]

/-- A tenth is rounded and then stays; half a unit beyond the largest number of 32 bits is refused;
the payload of a signalling NaN of 64 bits is kept. -/
theorem floats_settle_examples :
  (PushValue.make (.double ⟨0x3FB999999999999A⟩) .float
        = .ok ⟨.double (.ofSingle ⟨0x3DCCCCCD⟩), .float⟩
      ∧ ∃ w, PushValue.Settles ⟨.double (.ofSingle ⟨0x3DCCCCCD⟩), .float⟩ w)
    ∧ PushValue.make (.double ⟨0x47EFFFFFF0000000⟩) .float = .error .singleTooLarge
    ∧ ∃ x : Double,
      PushType.read .double [0x00, 0x00, 0xF4, 0xFF, 1, 2, 3, 4] = some (.double x, [])
      ∧ Bytes.littleEndian 8 x.bits.toNat = [1, 2, 3, 4, 0x00, 0x00, 0xF4, 0xFF]
      ∧ PushType.write .double (.double x) = .ok [0x00, 0x00, 0xF4, 0xFF, 1, 2, 3, 4]
  := by
  have htenth : PushValue.make (.double ⟨0x3FB999999999999A⟩) .float
      = .ok ⟨.double (.ofSingle ⟨0x3DCCCCCD⟩), .float⟩ :=
    PushValue.make_double_of_toSingle? (by decide)
  refine ⟨⟨htenth, floats_settle.1 _ _ htenth⟩, ?_, ?_⟩
  · exact (floats_settle.2.1 ⟨0x47EFFFFFF0000000⟩).1 (Double.toSingle?_eq_none_iff.mp (by decide))
  · exact floats_settle.2.2.2.2 [0x00, 0x00, 0xF4, 0xFF, 1, 2, 3, 4] [] rfl

end ActionBlock
