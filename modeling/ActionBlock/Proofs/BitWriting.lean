import ActionBlock.Proofs.BitReading
import ActionBlock.Proofs.Fields

/-!
# Writing to bit streams

A bit stream holds a list of bits with a cursor if its bytes are these bits, filled up with zeros to
whole bytes. Each operation that writes puts bits at the cursor, over those that stand there,
whether the cursor is at the start of a byte or not, and afterwards the stream holds the list of
bits with the new ones in it.
-/

namespace ActionBlock

/-! ### Lists of bits -/

/-- A list of bits, and a cursor. -/
structure BitList where
  bits : List Bool
  cursor : Nat
  deriving DecidableEq, Repr

namespace BitList

/-- Writes bits at the cursor, over those that stand there. Between the end and a cursor after it,
the bits are zeros. -/
def write (l : BitList) (new : List Bool) : BitList where
  bits := l.bits.take l.cursor ++ List.replicate (l.cursor - l.bits.length) false ++ new
    ++ l.bits.drop (l.cursor + new.length)
  cursor := l.cursor + new.length

variable (l : BitList)

/-- The bits before the cursor, and the zeros up to it. -/
theorem length_front :
  (l.bits.take l.cursor ++ List.replicate (l.cursor - l.bits.length) false).length = l.cursor
  := by
  rw [List.length_append, List.length_take, List.length_replicate]
  omega

/-- Writing past the end makes a list of bits longer, and writing within it does not. -/
theorem length_write (new : List Bool) :
  (l.write new).bits.length = max l.bits.length (l.cursor + new.length)
  := by
  rw [write, List.length_append, List.length_append, length_front, List.length_drop]
  omega

/-- Nothing changes if nothing is written. -/
theorem write_nil (h : l.cursor ≤ l.bits.length) :
  l.write [] = l
  := by
  simp [write, Nat.sub_eq_zero_of_le h]

/-- What is written in two parts is written at once. -/
theorem write_write (first second : List Bool) :
  (l.write first).write second = l.write (first ++ second)
  := by
  have hfront : (l.bits.take l.cursor ++ List.replicate (l.cursor - l.bits.length) false
      ++ first).length = l.cursor + first.length := by
    rw [List.length_append, length_front]
  have hgap : (l.write first).cursor - (l.write first).bits.length = 0 := by
    rw [length_write]
    simp only [write]
    omega
  rw [write, hgap]
  simp only [write, List.replicate_zero, List.append_nil, mk.injEq, List.length_append, add_assoc,
    and_true]
  rw [List.take_left' hfront, ← add_assoc, ← List.drop_drop, List.drop_left' hfront, List.drop_drop,
    ← List.append_assoc]

end BitList

namespace BitStream

/-- A stream that holds a list of bits. The bits of its last byte that are left over are zeros. -/
structure Holds (s : BitStream) (l : BitList) : Prop where
  length_eq : s.length = l.bits.length
  cursor_eq : s.cursor = l.cursor
  bytes_eq : ∃ spare < 8, bitsOfBytes s.bytes = l.bits ++ List.replicate spare false

variable {s : BitStream} {l : BitList}

theorem Holds.toBits_eq (h : s.Holds l) :
  s.toBits = l.bits
  := by
  obtain ⟨spare, -, hbytes⟩ := h.bytes_eq
  rw [toBits, hbytes, h.length_eq, List.take_left]

/-- A stream that holds a list is backed by its bytes. -/
theorem Holds.backed (h : s.Holds l) :
  s.Backed
  := by
  obtain ⟨spare, -, hbytes⟩ := h.bytes_eq
  have hlength := congrArg List.length hbytes
  rw [length_bitsOfBytes, List.length_append] at hlength
  have hcursor := h.cursor_eq
  have := h.length_eq
  exact ⟨by omega, by omega⟩

/-! ### Making room -/

/-- The stream with room for bits up to a position. -/
def grown (s : BitStream) (stop : Nat) : BitStream :=
  { s with
    bytes := s.bytes ++ List.replicate ((stop + 7) / 8 - s.bytes.length) 0
    length := max s.length stop }

/-- A stream grows by zero bytes. -/
theorem run_grow (s : BitStream) (stop : Nat) :
  (grow stop).run s = (.ok (), s.grown stop)
  := by
  have hneeded : (((stop : Int) + 7) / 8).toNat = (stop + 7) / 8 := by omega
  rw [grow, run_modify, grown, hneeded]
  rfl

theorem cursor_grown (s : BitStream) (stop : Nat) :
  (s.grown stop).cursor = s.cursor
  := rfl

/-- A stream that was grown has room for what it was grown for. -/
theorem le_length_grown (s : BitStream) (stop : Nat) :
  stop ≤ 8 * (s.grown stop).bytes.length
  := by
  rw [grown, List.length_append, List.length_replicate]
  omega

theorem bitsOfBytes_replicate_zero (n : Nat) :
  bitsOfBytes (List.replicate n 0) = List.replicate (8 * n) false
  := by
  induction n with
  | zero => rfl
  | succ n ih =>
    rw [List.replicate_succ, bitsOfBytes_cons, ih, mul_add, mul_one, add_comm (8 * n),
      ← List.replicate_append_replicate]
    rfl

/-- A stream that was grown has its bits and zeros after them, up to a whole byte. -/
theorem Holds.bytes_grown (h : s.Holds l) (stop : Nat) :
  ∃ spare < 8, bitsOfBytes (s.grown stop).bytes
    = l.bits ++ List.replicate (stop - l.bits.length) false ++ List.replicate spare false
  := by
  obtain ⟨spare, hspare, hbytes⟩ := h.bytes_eq
  have hlength := congrArg List.length hbytes
  rw [length_bitsOfBytes, List.length_append, List.length_replicate] at hlength
  refine ⟨spare + 8 * ((stop + 7) / 8 - s.bytes.length) - (stop - l.bits.length), by omega, ?_⟩
  rw [grown, bitsOfBytes_append, hbytes, bitsOfBytes_replicate_zero, List.append_assoc,
    List.append_assoc, List.replicate_append_replicate, List.replicate_append_replicate]
  congr 2
  omega

/-- A stream holds what was written to it, if its bytes have the new bits in the place of those
that were there when room was made. -/
theorem Holds.write (h : s.Holds l) (stop : Nat) {new : List Bool} {t : BitStream}
    (hstop : l.cursor + new.length = stop) (hlength : t.length = (s.grown stop).length)
    (hcursor : t.cursor = stop)
    (hbytes : bitsOfBytes t.bytes = (bitsOfBytes (s.grown stop).bytes).take l.cursor ++ new
      ++ (bitsOfBytes (s.grown stop).bytes).drop stop) :
  t.Holds (l.write new)
  := by
  refine ⟨?_, ?_, ?_⟩
  · rw [hlength, l.length_write, hstop, ← h.length_eq]
    rfl
  · rw [hcursor, ← hstop]
    rfl
  · obtain ⟨spare, hspare, hgrown⟩ := h.bytes_grown stop
    refine ⟨spare, hspare, ?_⟩
    have hfront : (l.bits ++ List.replicate (stop - l.bits.length) false
        ++ List.replicate spare false).take l.cursor
        = l.bits.take l.cursor ++ List.replicate (l.cursor - l.bits.length) false := by
      rw [List.append_assoc, List.replicate_append_replicate, List.take_append, List.take_replicate]
      congr 2
      omega
    have hback : (l.bits ++ List.replicate (stop - l.bits.length) false
        ++ List.replicate spare false).drop stop
          = l.bits.drop stop ++ List.replicate spare false := by
      rw [List.append_assoc, List.replicate_append_replicate, List.drop_append, List.drop_replicate]
      congr 2
      omega
    rw [hbytes, hgrown, hfront, hback, BitList.write, hstop]
    simp only [List.append_assoc]

/-- An operation that writes bits. Writing no bits after the end is left out: it may make room up to
the cursor, or not. -/
def Writes (op : BitOp Unit) (new : List Bool) : Prop :=
  ∀ (s : BitStream) (l : BitList), s.Holds l → new ≠ [] ∨ l.cursor ≤ l.bits.length →
  ∃ t, op.run s = (.ok (), t) ∧ t.Holds (l.write new)

/-- Two writes one after the other write the bits of both. -/
theorem Writes.append {first second : BitOp Unit} {b : Bool} {bits more : List Bool}
    (hfirst : Writes first (b :: bits)) (hsecond : Writes second more) :
  Writes (do first; second) (b :: bits ++ more)
  := by
  intro s l hs _
  obtain ⟨t, hrun, ht⟩ := hfirst s l hs (.inl (by simp))
  have hcursor : (l.write (b :: bits)).cursor ≤ (l.write (b :: bits)).bits.length := by
    rw [BitList.length_write]
    exact le_max_right _ _
  obtain ⟨u, hrun', hu⟩ := hsecond t _ ht (.inr hcursor)
  refine ⟨u, ?_, ?_⟩
  · rw [run_bind_of_ok hrun, hrun']
  · rwa [BitList.write_write] at hu

theorem writes_nil :
  Writes (pure ()) []
  := by
  intro s l hs hroom
  refine ⟨s, rfl, ?_⟩
  rwa [l.write_nil (by simpa using hroom)]

/-! ### Bits -/

/-- A bit is written as it is. -/
theorem writes_writeBit (b : Bool) :
  Writes (writeBit b) [b]
  := by
  intro s l hs _
  have hcursor := hs.cursor_eq
  have hstop : s.cursor + 1 = (l.cursor + 1 : Nat) := by omega
  have hroom := le_length_grown s (l.cursor + 1)
  have hindex : (s.grown (l.cursor + 1)).cursor / 8 = (l.cursor / 8 : Nat) := by
    rw [cursor_grown]
    omega
  rw [writeBit, run_bind_of_ok run_get, hstop, run_bind_of_ok (run_grow s _),
    run_bind_of_ok run_get, hindex, bytePosition?_natCast (by omega)]
  refine ⟨_, rfl, ?_⟩
  apply hs.write (l.cursor + 1)
  · rfl
  · rfl
  · exact hstop
  · have hposition : ((s.grown (l.cursor + 1)).cursor % 8).toNat = l.cursor % 8 := by
      rw [cursor_grown]
      omega
    have hinside : l.cursor < (bitsOfBytes (s.grown (l.cursor + 1)).bytes).length := by
      rw [length_bitsOfBytes]
      exact hroom
    dsimp only
    rw [hposition, bitsOfBytes_modify (Nat.mod_lt _ (by decide)), Nat.div_add_mod,
      List.set_eq_take_append_cons_drop, if_pos hinside, List.append_assoc]
    rfl

/-- Bits are written as they are. -/
theorem writes_writeBits (bits : List Bool) :
  Writes (writeBits bits) bits
  := by
  induction bits with
  | nil => exact writes_nil
  | cons b bits ih => exact (writes_writeBit b).append ih

theorem writes_zeroFill (n : Int) :
  Writes (zeroFill n) (List.replicate n.toNat false)
  := writes_writeBits _

/-! ### Bytes -/

/-- Replacing bytes replaces their bits. -/
theorem bitsOfBytes_replace (bytes data : Bytes) (k : Nat) :
  bitsOfBytes (bytes.take k ++ data ++ bytes.drop (k + data.length))
    = (bitsOfBytes bytes).take (8 * k) ++ bitsOfBytes data
      ++ (bitsOfBytes bytes).drop (8 * k + (bitsOfBytes data).length)
  := by
  rw [bitsOfBytes_append, bitsOfBytes_append, take_bitsOfBytes, length_bitsOfBytes, ← mul_add,
    drop_bitsOfBytes]

/-- An aligned cursor is at the start of a byte. -/
theorem exists_cursor_of_isAligned (hs : s.Holds l) (h : s.isAligned = true) :
  ∃ k : Nat, l.cursor = 8 * k ∧ s.cursor / 8 = k
  := by
  obtain ⟨k, hk⟩ := exists_of_isAligned hs.backed h
  have hcursor := hs.cursor_eq
  exact ⟨k, by omega, by omega⟩

/-- A byte to be written may be given as that many below 256. -/
theorem exists_byte_of_range {n : Int} (hlow : -256 ≤ n) (hhigh : n ≤ 255) :
  ∃ b : UInt8, (n % 256).toNat = b.toNat ∧ (if n < 0 then n + 256 else n) = b.toNat
  := by
  refine ⟨UInt8.ofNat (n % 256).toNat, ?_, ?_⟩
  · rw [Bytes.toNat_ofNat]
    omega
  · rw [Bytes.toNat_ofNat (by omega)]
    split <;> omega

/-- A byte is written as its eight bits, a negative one as what it is modulo 256. -/
theorem writes_writeByte {n : Int} (hlow : -256 ≤ n) (hhigh : n ≤ 255) :
  Writes (writeByte n) (bitsOfNumber 8 (n % 256).toNat)
  := by
  intro s l hs hroom
  obtain ⟨b, hb, hwrap⟩ := exists_byte_of_range hlow hhigh
  have hlt := b.toNat_lt
  rw [hb] at hroom
  simp only [writeByte, hwrap, hb]
  rw [run_bind_of_ok run_get]
  by_cases haligned : s.isAligned
  · obtain ⟨k, hk, hindex⟩ := exists_cursor_of_isAligned hs haligned
    have hcursor := hs.cursor_eq
    have hstop : s.cursor + 8 = (8 * k + 8 : Nat) := by omega
    have hinside : k < (s.grown (8 * k + 8)).bytes.length := by
      have hle := le_length_grown s (8 * k + 8)
      omega
    rw [if_pos haligned, run_bind_of_ok run_get, hstop, run_bind_of_ok (run_grow s _),
      if_pos (by omega), run_bind_of_ok run_get, cursor_grown, hindex,
      bytePosition?_natCast hinside]
    refine ⟨_, rfl, ?_⟩
    apply hs.write (8 * k + 8)
    · rw [hk, length_bitsOfNumber]
    · rfl
    · exact hstop
    · have hbits := bitsOfBytes_replace (s.grown (8 * k + 8)).bytes [b] k
      dsimp only
      rw [Int.toNat_natCast, UInt8.ofNat_toNat, List.set_eq_take_append_cons_drop,
        if_pos hinside, hk]
      simpa [bitsOfBytes_singleton] using hbits
  · rw [if_neg haligned, Scalar.fitInt_natCast (by omega)]
    exact writes_writeBits _ s l hs hroom

/-- Bytes are written one by one as their bits. -/
theorem writes_writeEach (bytes : Bytes) :
  Writes (writeEach bytes) (bitsOfBytes bytes)
  := by
  induction bytes with
  | nil => exact writes_nil
  | cons b bytes ih =>
    have hlt := b.toNat_lt
    have hb : ((b.toNat : Int) % 256).toNat = b.toNat := by omega
    have hbyte := writes_writeByte (n := b.toNat) (by omega) (by omega)
    rw [hb] at hbyte
    exact hbyte.append ih

/-- A slice within a byte string is replaced by as many bytes. -/
theorem replaceSlice_natCast {bytes new : Bytes} {k : Nat} (h : k + new.length ≤ bytes.length) :
  replaceSlice bytes k (k + new.length) new = bytes.take k ++ new ++ bytes.drop (k + new.length)
  := by
  have hfirst : k ≤ bytes.length := by omega
  simp only [replaceSlice, ← Nat.cast_add, sliceEnd_natCast h, sliceEnd_natCast hfirst]
  rw [max_eq_right (Nat.le_add_right _ _)]

theorem replaceSlice_nil (bytes : Bytes) (k : Int) :
  replaceSlice bytes k k [] = bytes
  := by
  simp only [replaceSlice, max_self, List.append_nil, List.take_append_drop]

/-- Bytes are written as their bits, aligned or not. -/
theorem writes_writeBytes (bytes : Bytes) :
  Writes (writeBytes bytes) (bitsOfBytes bytes)
  := by
  intro s l hs hroom
  rw [writeBytes, run_bind_of_ok run_get]
  by_cases haligned : s.isAligned
  · obtain ⟨k, hk, hindex⟩ := exists_cursor_of_isAligned hs haligned
    have hcursor := hs.cursor_eq
    have hstop : s.cursor + 8 * bytes.length = (8 * k + 8 * bytes.length : Nat) := by omega
    rw [if_pos haligned, hstop, run_bind_of_ok (run_grow s _)]
    refine ⟨_, rfl, ?_⟩
    apply hs.write (8 * k + 8 * bytes.length)
    · rw [hk, length_bitsOfBytes]
    · rfl
    · exact hstop
    · have hle := le_length_grown s (8 * k + 8 * bytes.length)
      dsimp only
      rw [hindex, replaceSlice_natCast (by omega), bitsOfBytes_replace, hk, length_bitsOfBytes]
  · rw [if_neg haligned]
    exact writes_writeEach bytes s l hs hroom

/-! ### Integers -/

/-- The bits of an integer in a field. -/
def bitsOfInt (width : Nat) (order : ByteOrder) (n : Int) : List Bool :=
  match order with
  | .little => bitsOfBytes (Bytes.littleEndian (width / 8) (n % 2 ^ width).toNat)
  | .big => bitsOfNumber width (n % 2 ^ width).toNat

/-- An integer has as many bits as it is wide. -/
theorem length_bitsOfInt {width : Nat} {order : ByteOrder} (h : order = .little → 8 ∣ width)
    (n : Int) :
  (bitsOfInt width order n).length = width
  := by
  cases order with
  | little =>
    rw [bitsOfInt, length_bitsOfBytes, Bytes.length_littleEndian, Nat.mul_div_cancel' (h rfl)]
  | big => rw [bitsOfInt, length_bitsOfNumber]

/-- An integer within the range of its field is written as its bits. -/
theorem writes_writeInt {value : Value} {n : Int} {width : Nat} {signed : Bool} {order : ByteOrder}
    (hvalue : value.whole? = some n) (hsigned : signed = true → 0 < width)
    (hlow : (Scalar.fieldRange width signed).1 ≤ n) (hhigh : n ≤ (Scalar.fieldRange width signed).2)
    (horder : order = .little → 8 ∣ width) :
  Writes (writeInt value width signed order) (bitsOfInt width order n)
  := by
  have hwidth : ¬ (if signed then (width : Int) - 1 else width) < 0 := by
    split
    · rename_i h
      have := hsigned h
      omega
    · omega
  have hfit : value.fit width signed = .ok (n % 2 ^ width).toNat := by
    rw [Value.fit_of_whole hvalue]
    exact Scalar.fitInt_eq_ok_iff.mpr ⟨hlow, hhigh, rfl⟩
  intro s l hs hroom
  rw [writeInt, if_neg hwidth, Int.toNat_natCast, hfit]
  cases order with
  | little =>
    have hdvd := horder rfl
    have hdiv : ((width : Int) / 8).toNat = width / 8 := by omega
    dsimp only
    rw [if_neg (by omega), hdiv]
    exact writes_writeBytes _ s l hs hroom
  | big => exact writes_writeBits _ s l hs hroom

end BitStream

end ActionBlock
