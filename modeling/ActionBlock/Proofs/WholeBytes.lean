import ActionBlock.Proofs.BitReading

/-!
# The whole bytes ahead of a cursor

From a cursor on, the bits of a stream make whole bytes, wherever the cursor is: at the start of a
byte they are bytes of the stream, and elsewhere each of them is the end of one byte and the
beginning of the next. An operation that reads bytes takes them off.
-/

namespace ActionBlock.BitStream

variable {s : BitStream}

/-! ### Bytes across two bytes -/

/-- Eight bits that begin in one byte and end in the next. -/
theorem byteOfBits_straddle {shift : Nat} (h : shift ≤ 8) (a b : UInt8) :
  byteOfBits ((bitsOfNumber 8 a.toNat).drop shift ++ (bitsOfNumber 8 b.toNat).take shift)
    = UInt8.ofNat (a.toNat * 2 ^ shift + b.toNat / 2 ^ (8 - shift))
  := by
  have hpow : 2 ^ (8 - shift) * 2 ^ shift = 256 := by
    rw [← pow_add, Nat.sub_add_cancel h]
    rfl
  have hlow : b.toNat / 2 ^ (8 - shift) < 2 ^ shift := by
    apply Nat.div_lt_of_lt_mul
    rw [hpow]
    exact b.toNat_lt
  have hhigh : a.toNat % 2 ^ (8 - shift) * 2 ^ shift = a.toNat * 2 ^ shift % 256 := by
    rw [← Nat.mul_mod_mul_right, hpow]
  rw [byteOfBits, numberOfBits_append, drop_bitsOfNumber, take_bitsOfNumber h,
    numberOfBits_bitsOfNumber, numberOfBits_bitsOfNumber, length_bitsOfNumber,
    Nat.mod_eq_of_lt hlow, hhigh]
  apply UInt8.toNat_inj.mp
  rw [UInt8.toNat_ofNat', UInt8.toNat_ofNat', Nat.mod_add_mod]

/-- A whole byte ahead of a cursor that is between the start of a byte and the next one. -/
theorem take_ahead_straddle {k shift : Nat} (hk : s.cursor = 8 * k + shift) (hshift : shift ≤ 8)
    {i : Nat} (hi : s.cursor + 8 * i + 8 ≤ s.length) {a b : UInt8} (ha : s.bytes[k + i]? = some a)
    (hb : s.bytes[k + i + 1]? = some b) :
  (s.ahead.drop (8 * i)).take 8
    = (bitsOfNumber 8 a.toNat).drop shift ++ (bitsOfNumber 8 b.toNat).take shift
  := by
  have hto : s.cursor.toNat + 8 * i = 8 * (k + i) + shift := by omega
  have hbytes : s.bytes.drop (k + i) = a :: b :: s.bytes.drop (k + i + 2) := by
    obtain ⟨hlta, rfl⟩ := List.getElem?_eq_some_iff.mp ha
    obtain ⟨hltb, rfl⟩ := List.getElem?_eq_some_iff.mp hb
    rw [List.drop_eq_getElem_cons hlta, List.drop_eq_getElem_cons hltb]
  rw [ahead, toBits, List.drop_drop, hto, List.drop_take, List.take_take,
    Nat.min_eq_left (by omega), ← List.drop_drop, drop_bitsOfBytes, hbytes, bitsOfBytes_cons,
    bitsOfBytes_cons, List.drop_append_of_le_length (by simpa using hshift), List.take_append,
    List.take_of_length_le (by simp), List.take_append_of_le_length]
  · congr 2
    rw [List.length_drop, length_bitsOfNumber]
    omega
  · simp

/-- The whole bytes from the cursor on are those that the bits ahead of it make. -/
theorem Backed.wholeBytes_eq (h : s.Backed) :
  s.wholeBytes = bytesOfBits s.ahead
  := by
  have hcursor := h.cursor_nonneg
  have hlength := h.length_le
  have hahead := h.length_ahead
  have havailable : s.available = s.length - s.cursor := rfl
  obtain ⟨k, shift, hk, hshift⟩ : ∃ k shift : Nat, s.cursor = 8 * k + shift ∧ shift < 8 :=
    ⟨s.cursor.toNat / 8, s.cursor.toNat % 8, by omega, by omega⟩
  have hstart : s.cursor / 8 = k := by omega
  have hmod : (s.cursor % 8).toNat = shift := by omega
  have hcount : (s.available / 8).toNat = s.ahead.length / 8 := by omega
  have hnonneg : ¬ (k : Int) < 0 := by omega
  simp only [wholeBytes, hstart, hmod, hcount, if_neg hnonneg, Int.toNat_natCast]
  by_cases haligned : shift = 0
  · have hk' : s.cursor = 8 * k := by omega
    rw [if_pos haligned, h.bytesOfBits_ahead hk']
    congr 1
    omega
  · rw [if_neg haligned]
    -- Each whole byte is the end of a byte of the stream and the beginning of the next one.
    apply List.ext_getElem
    · simp only [List.length_map, List.length_take, List.length_zip, List.length_append,
        List.length_drop, List.length_singleton, length_bytesOfBits]
      omega
    · intro i _ hi
      rw [length_bytesOfBits] at hi
      have hlt : k + i + 1 < s.bytes.length := by omega
      have hbyte := take_ahead_straddle hk (Nat.le_of_lt hshift) (i := i) (by omega)
        (List.getElem?_eq_getElem (by omega)) (List.getElem?_eq_getElem hlt)
      simp only [bytesOfBits, List.getElem_map, List.getElem_range]
      rw [hbyte, byteOfBits_straddle (Nat.le_of_lt hshift)]
      simp only [List.getElem_take, List.getElem_zip, List.drop_drop]
      rw [List.getElem_append_left (by rw [List.length_drop]; omega)]
      simp only [List.getElem_drop, Nat.add_right_comm k 1 i]

/-! ### Moving by whole bytes -/

/-- The whole bytes that the bits ahead make. -/
def pending (s : BitStream) : Bytes := bytesOfBits s.ahead

/-- The offset of the byte that the cursor is in. -/
def position (s : BitStream) : Nat := s.cursor.toNat / 8

/-- The stream with its cursor a number of bytes further on. -/
def skip (s : BitStream) (k : Nat) : BitStream := s.moved (8 * k : Nat)

/-- A stream whose cursor is at one of its bits, or at its end. -/
structure Ready (s : BitStream) : Prop extends Backed s where
  cursor_le : s.cursor ≤ s.length

theorem skip_zero (s : BitStream) :
  s.skip 0 = s
  := by
  simp [skip, moved]

theorem skip_skip (s : BitStream) (j k : Nat) :
  (s.skip j).skip k = s.skip (j + k)
  := by
  rw [skip, skip, moved_moved, ← Nat.cast_add, ← mul_add]
  rfl

theorem Backed.position_eq (h : s.Backed) :
  (s.position : Int) = s.cursor / 8
  := by
  have hcursor := h.cursor_nonneg
  rw [position]
  omega

/-- As many bytes are pending as the bits that are left make up. -/
theorem Backed.length_pending (h : s.Backed) :
  s.pending.length = (s.length - s.cursor.toNat) / 8
  := by
  rw [pending, length_bytesOfBits, h.length_ahead]

theorem Backed.pending_skip (h : s.Backed) (k : Nat) :
  (s.skip k).pending = s.pending.drop k
  := by
  rw [pending, skip, h.ahead_moved, bytesOfBits_drop]
  rfl

theorem Backed.position_skip (h : s.Backed) (k : Nat) :
  (s.skip k).position = s.position + k
  := by
  have hcursor := h.cursor_nonneg
  simp only [position, skip, BitStream.moved]
  omega

theorem Backed.available_div (h : s.Backed) :
  (s.available / 8).toNat = s.pending.length
  := by
  have hcursor := h.cursor_nonneg
  rw [h.length_pending, available]
  omega

/-- Too few bits are left exactly when too few bytes are pending. -/
theorem Ready.available_lt_iff (h : s.Ready) (n : Nat) :
  s.available < n * 8 ↔ s.pending.length < n
  := by
  have hcursor := h.cursor_nonneg
  have hle := h.cursor_le
  rw [h.length_pending, available]
  omega

/-- A ready stream stays ready within its pending bytes. -/
theorem Ready.skip (h : s.Ready) {k : Nat} (hk : k ≤ s.pending.length) :
  (s.skip k).Ready
  := by
  have hcursor := h.cursor_nonneg
  have hle := h.cursor_le
  rw [h.length_pending] at hk
  refine ⟨h.toBacked.moved _, ?_⟩
  simp only [BitStream.skip, BitStream.moved]
  omega

/-- A stream with a pending byte is ready. -/
theorem Backed.ready (h : s.Backed) (hpending : 0 < s.pending.length) :
  s.Ready
  := by
  have hcursor := h.cursor_nonneg
  rw [h.length_pending] at hpending
  exact ⟨h, by omega⟩

theorem ready_ofBytes (bytes : Bytes) :
  (ofBytes bytes).Ready
  := ⟨⟨le_rfl, le_rfl⟩, Int.natCast_nonneg _⟩

@[simp]
theorem position_ofBytes (bytes : Bytes) :
  (ofBytes bytes).position = 0
  := Nat.zero_div 8

/-- All bytes of a fresh stream are pending. -/
@[simp]
theorem pending_ofBytes (bytes : Bytes) :
  (ofBytes bytes).pending = bytes
  := by
  have hahead : (ofBytes bytes).ahead = bitsOfBytes bytes := by
    apply List.take_of_length_le
    simp [ofBytes]
  rw [pending, hahead, bytesOfBits_bitsOfBytes]

/-! ### Reading whole bytes -/

section Reads

variable {α : Type} {op : BitOp α} {k : Nat} {f : List Bool → α}

/-- An operation that reads whole bytes skips them. -/
theorem Reads.run_skip (h : Reads op (8 * k) f) (hs : s.Ready) (hk : k ≤ s.pending.length) :
  op.run s = (.ok (f (s.ahead.take (8 * k))), s.skip k)
  := by
  have hcursor := hs.cursor_nonneg
  have hle := hs.cursor_le
  rw [hs.length_pending] at hk
  apply h.run_of_le hs.toBacked
  omega

/-- An operation that reads more bytes than are pending fails and moves nothing. -/
theorem Reads.run_short (h : Reads op (8 * k) f) (hs : s.Ready) (hk : s.pending.length < k) :
  op.run s = (.error .pastEnd, s)
  := by
  have hcursor := hs.cursor_nonneg
  have hle := hs.cursor_le
  rw [hs.length_pending] at hk
  apply h.run_of_lt hs.toBacked
  omega

end Reads

/-- A byte is read off the pending ones. -/
theorem run_readCode (hs : s.Ready) {b : UInt8} {rest : Bytes} (h : s.pending = b :: rest) :
  readByte.run s = (.ok b, s.skip 1)
  := by
  have hpos : 1 ≤ s.pending.length := by
    rw [h]
    exact Nat.le_add_left _ _
  have hbits : 8 ≤ s.ahead.length := by
    rw [pending, length_bytesOfBits] at hpos
    omega
  have hcode : byteOfBits (s.ahead.take 8) = b := by
    rw [pending, bytesOfBits_eq_cons hbits] at h
    exact List.head_eq_of_cons_eq h
  rw [reads_readByte.run_skip (k := 1) hs hpos, hcode]

/-- A length is read off the two pending bytes in front. -/
theorem run_readLength (hs : s.Ready) (h : 2 ≤ s.pending.length) :
  (readInt 16 false .little).run s
    = (.ok (Bytes.ofLittleEndian (s.pending.take 2) : Int), s.skip 2)
  := by
  have hreads := reads_readInt (fun _ : ByteOrder.little = .little => Nat.dvd_mul_right 8 2) false
  apply (hreads.run_skip hs h).trans
  rw [intOfBits, pending, ← bytesOfBits_take]
  rfl

/-- A stream of pending bytes is cut off as a stream of its own. -/
theorem run_readStream (hs : s.Ready) {n : Nat} (h : n ≤ s.pending.length) :
  (readStream n).run s = (.ok (ofBytes (s.pending.take n)), s.skip n)
  := by
  rw [(reads_readStream n).run_skip hs h, Function.comp_apply, bytesOfBits_take]
  rfl

theorem serialize_ofBytes (bytes : Bytes) :
  (ofBytes bytes).serialize = bytes
  := by
  simp only [serialize, ofBytes]
  apply List.take_of_length_le
  omega

end ActionBlock.BitStream
