import ActionBlock.Proofs.BitStrings
import ActionBlock.Proofs.Running

/-!
# Reading from bit streams

Each operation that reads takes the next bits of the stream, makes a value of them and moves the
cursor behind them, whether the cursor is at the start of a byte or not. If there are not enough
bits left it fails, and leaves the stream as it is.
-/

namespace ActionBlock

namespace BitStream

/-! ### The bits ahead -/

/-- A stream whose bytes hold all of its bits, and whose cursor is not before the start. -/
structure Backed (s : BitStream) : Prop where
  cursor_nonneg : 0 ≤ s.cursor
  length_le : s.length ≤ 8 * s.bytes.length

/-- The bits from the cursor on. -/
def ahead (s : BitStream) : List Bool := s.toBits.drop s.cursor.toNat

/-- The stream with its cursor a number of bits further on. -/
def moved (s : BitStream) (n : Int) : BitStream := { s with cursor := s.cursor + n }

variable {s : BitStream}

theorem moved_moved (s : BitStream) (m n : Int) :
  (s.moved m).moved n = s.moved (m + n)
  := by
  simp [moved, add_assoc]

/-- A stream stays backed by its bytes when the cursor moves on. -/
theorem Backed.moved (h : s.Backed) (n : Nat) :
  (s.moved n).Backed
  := by
  have hcursor := h.cursor_nonneg
  exact ⟨by simp only [BitStream.moved]; omega, h.length_le⟩

/-- A backed stream has as many bits as its length says. -/
theorem Backed.length_toBits (h : s.Backed) :
  s.toBits.length = s.length
  := by
  have := h.length_le
  simp only [toBits, List.length_take, length_bitsOfBytes]
  omega

/-- Ahead are the bits from the cursor to the end. -/
theorem Backed.length_ahead (h : s.Backed) :
  s.ahead.length = s.length - s.cursor.toNat
  := by
  rw [ahead, List.length_drop, h.length_toBits]

/-- The cursor leaves bits behind as it moves. -/
theorem Backed.ahead_moved (h : s.Backed) (n : Nat) :
  (s.moved n).ahead = s.ahead.drop n
  := by
  have hcursor := h.cursor_nonneg
  have hto : (s.moved n).cursor.toNat = s.cursor.toNat + n := by
    simp only [BitStream.moved]
    omega
  rw [ahead, ahead, hto, List.drop_drop]
  rfl

/-- An operation that reads the next `n` bits, and gives what `f` makes of them. If there are not
that many, it fails and does not move the cursor. -/
def Reads {α : Type} (op : BitOp α) (n : Nat) (f : List Bool → α) : Prop :=
  ∀ s : BitStream, s.Backed →
  op.run s
    = if s.length < s.cursor + n then (.error .pastEnd, s)
      else (.ok (f (s.ahead.take n)), s.moved n)

section Reads

variable {α β : Type} {op : BitOp α} {n : Nat} {f : List Bool → α}

/-- A read that has enough bits takes them and moves on. -/
theorem Reads.run_of_le (h : Reads op n f) (hs : s.Backed) (hn : s.cursor + n ≤ s.length) :
  op.run s = (.ok (f (s.ahead.take n)), s.moved n)
  := by
  rw [h s hs, if_neg (not_lt.mpr hn)]

/-- A read that has too few bits fails and moves nothing. -/
theorem Reads.run_of_lt (h : Reads op n f) (hs : s.Backed) (hn : s.length < s.cursor + n) :
  op.run s = (.error .pastEnd, s)
  := by
  rw [h s hs, if_pos hn]

/-- What was read may be turned into something else. -/
theorem Reads.bind (h : Reads op n f) {next : α → BitOp β} {g : List Bool → β}
    (hnext : ∀ bits : List Bool, bits.length = n → next (f bits) = pure (g bits)) :
  Reads (op >>= next) n g
  := by
  intro s hs
  have hcursor := hs.cursor_nonneg
  split
  · rename_i hn
    apply run_bind_of_error (h.run_of_lt hs hn)
  · rename_i hn
    have hlength : (s.ahead.take n).length = n := by
      rw [List.length_take, hs.length_ahead]
      omega
    rw [run_bind_of_ok (h.run_of_le hs (not_lt.mp hn)), hnext _ hlength]
    rfl

/-- What is made of what is read depends on the same bits. -/
theorem Reads.map (h : Reads op n f) (g : α → β) :
  Reads (g <$> op) n (g ∘ f)
  := by
  rw [map_eq_pure_bind]
  apply h.bind
  intro bits _
  rfl

end Reads

/-! ### Bits -/

/-- A demand for bits fails if there are too few, and changes nothing. -/
theorem run_need (s : BitStream) (n : Int) :
  (need n).run s = if s.available < n then (.error .pastEnd, s) else (.ok (), s)
  := by
  rw [need, run_bind_of_ok run_get]
  split <;> rfl

theorem run_need_of_le {n : Int} (h : s.cursor + n ≤ s.length) :
  (need n).run s = (.ok (), s)
  := by
  rw [run_need, if_neg]
  simp only [available]
  omega

theorem run_need_of_lt {n : Int} (h : s.length < s.cursor + n) :
  (need n).run s = (.error .pastEnd, s)
  := by
  rw [run_need, if_pos]
  simp only [available]
  omega

theorem run_advance (s : BitStream) (n : Int) :
  (advance n).run s = (.ok (), s.moved n)
  := rfl

/-- The position of a byte that is there is its index. -/
theorem bytePosition?_natCast {size k : Nat} (h : k < size) :
  bytePosition? size k = some k
  := by
  have hinside : 0 ≤ (k : Int) ∧ (k : Int) < size := by omega
  simp only [bytePosition?, if_neg (not_lt.mpr hinside.1), if_pos hinside, Int.toNat_natCast]

/-- The byte at an index is that of the stream. -/
theorem run_byteAt {b : UInt8} {k : Nat} (h : s.bytes[k]? = some b) :
  (byteAt k).run s = (.ok b, s)
  := by
  have hbyte : s.byteAt? k = some b := by
    rw [byteAt?, bytePosition?_natCast (List.getElem?_eq_some_iff.mp h).1]
    exact h
  rw [byteAt, run_bind_of_ok run_get, hbyte]
  rfl

/-- A bit ahead of the cursor is a bit of a byte. -/
theorem Backed.exists_byte (h : s.Backed) {i : Nat} (hi : s.cursor + i < s.length) :
  ∃ b, s.bytes[(s.cursor.toNat + i) / 8]? = some b
    ∧ s.ahead[i]? = some (bitOfByte b ((s.cursor.toNat + i) % 8))
  := by
  have hlength := h.length_le
  have hcursor := h.cursor_nonneg
  have hlt : (s.cursor.toNat + i) / 8 < s.bytes.length := by omega
  refine ⟨_, List.getElem?_eq_getElem hlt, ?_⟩
  rw [ahead, toBits, List.getElem?_drop, List.getElem?_take, if_pos (by omega),
    getElem?_bitsOfBytes, List.getElem?_eq_getElem hlt]
  rfl

/-- A bit is read as it is. -/
theorem reads_readBit :
  Reads readBit 1 fun bits => decide (bits = [true])
  := by
  intro s hs
  have hcursor := hs.cursor_nonneg
  rw [Nat.cast_one]
  split
  · rename_i hn
    rw [readBit, run_bind_of_error (run_need_of_lt hn)]
  · rename_i hn
    obtain ⟨b, hbyte, hbit⟩ := hs.exists_byte (i := 0) (by omega)
    have hindex : s.cursor / 8 = ((s.cursor.toNat + 0) / 8 : Nat) := by omega
    have hposition : (s.cursor % 8).toNat = (s.cursor.toNat + 0) % 8 := by omega
    have htake : s.ahead.take 1 = [bitOfByte b ((s.cursor.toNat + 0) % 8)] := by
      rw [List.take_one, List.head?_eq_getElem?, hbit]
      rfl
    rw [readBit, run_bind_of_ok (run_need_of_le (by omega)), run_bind_of_ok run_get]
    dsimp only
    rw [run_bind_of_ok (run_advance s 1), hindex,
      run_bind_of_ok (run_byteAt (s := s.moved 1) hbyte), hposition, htake]
    cases bitOfByte b ((s.cursor.toNat + 0) % 8) <;> rfl

/-! ### Several values -/

/-- What is made of the bits of several values of `n` bits each. -/
def readings {α : Type} (n : Nat) (f : List Bool → α) : Nat → List Bool → List α
  | 0, _ => []
  | k + 1, bits => f (bits.take n) :: readings n f k (bits.drop n)

/-- A read that is repeated takes its bits again each time, after what is done already. -/
theorem Reads.run_repeatOp {α : Type} {op : BitOp α} {n : Nat} {f : List Bool → α}
    (h : Reads op n f) (hs : s.Backed) {k : Nat} (hk : s.cursor + (n * k : Nat) ≤ s.length)
    (done : List α) :
  (repeatOp op k done).run s = (.ok (done.reverse ++ readings n f k s.ahead),
    s.moved (n * k : Nat))
  := by
  induction k generalizing s done with
  | zero =>
    rw [repeatOp, readings, List.append_nil]
    simp only [mul_zero, moved, Nat.cast_zero, add_zero]
    rfl
  | succ k ih =>
    rw [mul_add, mul_one, Nat.cast_add] at hk
    have hrest : (s.moved n).cursor + (n * k : Nat) ≤ (s.moved n).length := by
      simp only [BitStream.moved]
      omega
    rw [repeatOp, run_bind_of_ok (h.run_of_le hs (by omega)), ih (hs.moved n) hrest,
      hs.ahead_moved, moved_moved, List.reverse_cons, List.append_assoc, ← Nat.cast_add, mul_add,
      mul_one, add_comm n]
    rfl

/-- Bits read one by one are the bits. -/
theorem readings_bit (k : Nat) (bits : List Bool) (h : k ≤ bits.length) :
  readings 1 (fun bits => decide (bits = [true])) k bits = bits.take k
  := by
  induction k generalizing bits with
  | zero => rfl
  | succ k ih =>
    cases bits with
    | nil => cases h
    | cons b bits =>
      rw [readings, List.drop_one, List.tail_cons, ih _ (by simpa using h)]
      simp

/-- Bytes read one by one are the bytes of the bits. -/
theorem readings_byte (k : Nat) (bits : List Bool) (h : 8 * k ≤ bits.length) :
  readings 8 byteOfBits k bits = bytesOfBits (bits.take (8 * k))
  := by
  induction k generalizing bits with
  | zero => simp [readings, bytesOfBits]
  | succ k ih =>
    have hbyte : (bits.take 8).length = 8 := by
      rw [List.length_take]
      omega
    have hrest : 8 * k ≤ (bits.drop 8).length := by
      rw [List.length_drop]
      omega
    rw [readings, ih _ hrest, ← bytesOfBits_append hbyte, mul_add, mul_one, add_comm, List.take_add]

/-- Bits are read as they are. -/
theorem reads_readBits (n : Nat) :
  Reads (readBits n) n id
  := by
  intro s hs
  have hcursor := hs.cursor_nonneg
  by_cases hn : s.length < s.cursor + n
  · rw [if_pos hn, readBits, run_bind_of_error (run_need_of_lt hn)]
  · rw [if_neg hn, readBits, run_bind_of_ok (run_need_of_le (by omega)), Int.toNat_natCast,
      reads_readBit.run_repeatOp hs (by rw [one_mul]; omega), one_mul, readings_bit]
    · rfl
    · rw [hs.length_ahead]
      omega

/-! ### Bytes -/

/-- Ahead of a cursor at the start of a byte are the bits of the bytes from that one on. -/
theorem take_ahead {k n : Nat} (hk : s.cursor = 8 * k)
    (hn : s.cursor + (8 * n : Nat) ≤ s.length) :
  s.ahead.take (8 * n) = bitsOfBytes ((s.bytes.drop k).take n)
  := by
  have hto : s.cursor.toNat = 8 * k := by omega
  rw [ahead, toBits, hto, List.drop_take, List.take_take, drop_bitsOfBytes,
    Nat.min_eq_left (by omega),
    take_bitsOfBytes]

/-- Ahead of a cursor at the start of a byte, the whole bytes are those of the stream. -/
theorem Backed.bytesOfBits_ahead (h : s.Backed) {k : Nat} (hk : s.cursor = 8 * k) :
  bytesOfBits s.ahead = (s.bytes.drop k).take (s.length / 8 - k)
  := by
  have hlength := h.length_ahead
  have hto : s.cursor.toNat = 8 * k := by omega
  by_cases hend : 8 * k ≤ s.length
  · have hcount : s.ahead.length / 8 = s.length / 8 - k := by
      rw [hlength, hto]
      omega
    rw [← List.take_length (l := bytesOfBits s.ahead), length_bytesOfBits, hcount,
      ← bytesOfBits_take,
      take_ahead hk (by omega), bytesOfBits_bitsOfBytes]
  · have hshort : s.ahead.length < 8 := by
      rw [hlength]
      omega
    rw [bytesOfBits_of_short hshort, Nat.sub_eq_zero_of_le (by omega), List.take_zero]

/-- An aligned cursor is at the start of a byte. -/
theorem exists_of_isAligned (hs : s.Backed) (h : s.isAligned = true) :
  ∃ k : Nat, s.cursor = 8 * k
  := by
  have hcursor := hs.cursor_nonneg
  have hmod : s.cursor % 8 = 0 := by simpa [isAligned] using h
  exact ⟨s.cursor.toNat / 8, by omega⟩

/-- A byte is read from eight bits, wherever the cursor is. -/
theorem reads_readByte :
  Reads readByte 8 byteOfBits
  := by
  intro s hs
  rw [readByte, run_bind_of_ok run_get]
  by_cases haligned : s.isAligned
  · obtain ⟨k, hk⟩ := exists_of_isAligned hs haligned
    rw [if_pos haligned, Nat.cast_ofNat]
    split
    · rename_i hn
      rw [run_bind_of_error (run_need_of_lt hn)]
    · rename_i hn
      have hlength := hs.length_le
      have hlt : k < s.bytes.length := by omega
      have hindex : (s.moved 8).cursor / 8 - 1 = k := by
        simp only [moved]
        omega
      have htake : s.ahead.take 8 = bitsOfNumber 8 s.bytes[k].toNat := by
        rw [← mul_one 8, take_ahead hk (by omega), List.take_one, List.head?_drop,
          List.getElem?_eq_getElem hlt]
        rfl
      rw [run_bind_of_ok (run_need_of_le (by omega)), run_bind_of_ok (run_advance s 8),
        run_bind_of_ok run_get, hindex,
        run_byteAt (s := s.moved 8) (List.getElem?_eq_getElem hlt), htake, byteOfBits_bitsOfNumber]
  · rw [if_neg haligned]
    apply (reads_readBits 8).bind _ s hs
    intro bits _
    rfl

theorem sliceEnd_natCast {size k : Nat} (h : k ≤ size) :
  sliceEnd size k = k
  := by
  rw [sliceEnd, if_neg (by omega)]
  omega

/-- A slice within a byte string has all of its bytes. -/
theorem slice_of_le {bytes : Bytes} {k n : Nat} (h : k + n ≤ bytes.length) :
  slice bytes k (k + n) = (bytes.drop k).take n
  := by
  have hstart : k ≤ bytes.length := by omega
  simp only [slice, ← Nat.cast_add, sliceEnd_natCast h, sliceEnd_natCast hstart]
  rw [List.drop_take, Nat.add_sub_cancel_left]

/-- Bytes are read from eight bits each, wherever the cursor is. -/
theorem reads_readBytes (n : Nat) :
  Reads (readBytes n) (8 * n) bytesOfBits
  := by
  intro s hs
  have hcursor := hs.cursor_nonneg
  have hbits : (n : Int) * 8 = (8 * n : Nat) := by omega
  rw [readBytes, hbits]
  split
  · rename_i hn
    rw [run_bind_of_error (run_need_of_lt hn)]
  · rename_i hn
    rw [run_bind_of_ok (run_need_of_le (by omega)), run_bind_of_ok run_get]
    by_cases haligned : s.isAligned
    · obtain ⟨k, hk⟩ := exists_of_isAligned hs haligned
      have hlength := hs.length_le
      have hstart : s.cursor / 8 = k := by omega
      rw [if_pos haligned]
      dsimp only
      rw [run_bind_of_ok (run_advance s _), hstart, slice_of_le (by omega),
        take_ahead hk (by omega), bytesOfBits_bitsOfBytes]
      rfl
    · rw [if_neg haligned, Int.toNat_natCast, reads_readByte.run_repeatOp hs (by omega),
        readings_byte]
      · rfl
      · rw [hs.length_ahead]
        omega

/-! ### Integers -/

/-- The number that the bits of a field stand for, without a sign. -/
def magnitude (order : ByteOrder) (bits : List Bool) : Nat :=
  match order with
  | .little => Bytes.ofLittleEndian (bytesOfBits bits)
  | .big => numberOfBits bits

/-- The integer that the bits of a field stand for. -/
def intOfBits (signed : Bool) (order : ByteOrder) (bits : List Bool) : Int :=
  if signed then Bytes.toSigned bits.length (magnitude order bits) else magnitude order bits

/-- A number of so many bits is below the power of two with that exponent, in either order of its
bytes. -/
theorem magnitude_lt {order : ByteOrder} {bits : List Bool}
    (h : order = .little → 8 ∣ bits.length) :
  magnitude order bits < 2 ^ bits.length
  := by
  cases order with
  | little =>
    have hlt := Bytes.ofLittleEndian_lt (bytesOfBits bits)
    have hpow : 256 ^ (bits.length / 8) = 2 ^ bits.length := by
      rw [show 256 = 2 ^ 8 from rfl, ← pow_mul, Nat.mul_div_cancel' (h rfl)]
    rw [length_bytesOfBits, hpow] at hlt
    exact hlt
  | big => exact numberOfBits_lt bits

/-- The highest bit of a number says whether it is in the upper half. -/
theorem testBit_eq_of_lt {n k : Nat} (h : n < 2 ^ (k + 1)) :
  n.testBit k = decide (2 ^ k ≤ n)
  := by
  rw [Nat.testBit_eq_decide_div_mod_eq, decide_eq_decide]
  have hdiv : n / 2 ^ k < 2 := by
    apply Nat.div_lt_of_lt_mul
    rwa [← pow_succ]
  rw [Nat.mod_eq_of_lt hdiv, ← Nat.one_le_div_iff (by positivity)]
  omega

/-- The last step of reading an integer gives the number its sign. -/
theorem sign_eq_pure {width n : Nat} (signed : Bool) (h : n < 2 ^ width) :
  (if signed ∧ (width : Int) ≠ 0 then
      if (width : Int) < 0 then throw .negativeWidth
      else if n.testBit ((width : Int).toNat - 1) then pure ((n : Int) - 2 ^ (width : Int).toNat)
      else pure n
    else pure n : BitOp Int)
    = pure (if signed then Bytes.toSigned width n else n)
  := by
  cases signed with
  | false => simp
  | true =>
    cases width with
    | zero => simp [Bytes.toSigned]
    | succ k =>
      rw [if_pos ⟨rfl, by omega⟩, if_neg (by omega), Int.toNat_natCast, Nat.add_sub_cancel,
        testBit_eq_of_lt h, Bytes.toSigned, Nat.add_sub_cancel]
      by_cases hk : 2 ^ k ≤ n
      · simp [hk]
      · simp [hk]

/-- An integer is read from as many bits as it is wide. -/
theorem reads_readInt {width : Nat} {order : ByteOrder} (h : order = .little → 8 ∣ width)
    (signed : Bool) :
  Reads (readInt width signed order) width (intOfBits signed order)
  := by
  unfold readInt
  cases order with
  | little =>
    obtain ⟨k, rfl⟩ := h rfl
    have hdiv : ((8 * k : Nat) : Int) / 8 = k := by omega
    dsimp only
    rw [if_neg (by omega), hdiv]
    apply ((reads_readBytes k).map Bytes.ofLittleEndian).bind
    intro bits hbits
    rw [Function.comp_apply, sign_eq_pure signed, intOfBits, hbits]
    · rfl
    · have hlt : magnitude .little bits < 2 ^ bits.length := magnitude_lt (by simp [hbits])
      rwa [hbits] at hlt
  | big =>
    apply ((reads_readBits width).map numberOfBits).bind
    intro bits hbits
    subst hbits
    apply sign_eq_pure signed (numberOfBits_lt bits)

/-- A stream is read from the bytes that it is made of. -/
theorem reads_readStream (n : Nat) :
  Reads (readStream n) (8 * n) (ofBytes ∘ bytesOfBits)
  := (reads_readBytes n).map ofBytes

end BitStream

end ActionBlock
