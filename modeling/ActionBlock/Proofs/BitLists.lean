import ActionBlock.Proofs.BitWriting

/-!
# Operations on lists of bits

What each operation on a bit stream does to the list of bits that the stream holds. Reading takes
bits at the cursor and moves the cursor behind them, writing puts bits at the cursor, and a stream
does the same, at the start of a byte and elsewhere.
-/

namespace ActionBlock

open BitStream

/-! ### Operations -/

/-- The operations on bit streams, by what they give. -/
inductive BitStream.Operation : Type → Type where
  | seek (offset : Int) (whence : Whence) : Operation Unit
  | skipToEnd : Operation Unit
  | skipFlush : Operation Unit
  | flush : Operation Unit
  | readBit : Operation Bool
  | readBits (n : Int) : Operation (List Bool)
  | readByte : Operation UInt8
  | readBytes (n : Int) : Operation Bytes
  | readInt (width : Int) (signed : Bool) (order : ByteOrder) : Operation Int
  | readFloat (width order : Value) : Operation Double
  | readText : Operation Text
  | readStream (n : Int) : Operation BitStream
  | writeBit (b : Bool) : Operation Unit
  | writeBits (bits : List Bool) : Operation Unit
  | zeroFill (n : Int) : Operation Unit
  | writeByte (value : Value) : Operation Unit
  | writeBytes (bytes : Bytes) : Operation Unit
  | writeInt (value : Value) (width : Int) (signed : Bool) (order : ByteOrder) : Operation Unit
  | writeFloat (value width order : Value) : Operation Unit
  | writeString (value : Value) : Operation Unit

/-- Performs an operation. -/
def BitStream.Operation.perform {α : Type} : Operation α → BitOp α
  | .seek offset whence => BitStream.seek offset whence
  | .skipToEnd => BitStream.skipToEnd
  | .skipFlush => BitStream.skipFlush
  | .flush => BitStream.flush
  | .readBit => BitStream.readBit
  | .readBits n => BitStream.readBits n
  | .readByte => BitStream.readByte
  | .readBytes n => BitStream.readBytes n
  | .readInt width signed order => BitStream.readInt width signed order
  | .readFloat width order => BitStream.readFloat width order
  | .readText => BitStream.readText
  | .readStream n => BitStream.readStream n
  | .writeBit b => BitStream.writeBit b
  | .writeBits bits => BitStream.writeBits bits
  | .zeroFill n => BitStream.zeroFill n
  | .writeByte value => BitStream.writeByteOf value
  | .writeBytes bytes => BitStream.writeBytes bytes
  | .writeInt value width signed order => BitStream.writeInt value width signed order
  | .writeFloat value width order => BitStream.writeFloat value width order
  | .writeString value => BitStream.writeString value

/-! ### Operations on lists of bits -/

namespace BitList

/-- Reads the next `n` bits, and gives what `f` makes of them. It fails if there are not that many.
-/
def read {α : Type} (n : Nat) (f : List Bool → α) (l : BitList) : Except Fault α × BitList :=
  if l.bits.length < l.cursor + n then (.error .pastEnd, l)
  else (.ok (f ((l.bits.drop l.cursor).take n)), { l with cursor := l.cursor + n })

/-- Writes bytes, if there are any to write. -/
def writeResult (l : BitList) : Except Fault Bytes → Except Fault Unit × BitList
  | .error fault => (.error fault, l)
  | .ok bytes => (.ok (), l.write (bitsOfBytes bytes))

/-- Where the cursor is set to. -/
def destination (l : BitList) (offset : Int) : Whence → Int
  | .start => offset
  | .current => l.cursor + offset
  | .stop => l.bits.length - offset

/-- The next position that is a multiple of eight. -/
def nextByte (n : Nat) : Nat := 8 * ((n + 7) / 8)

/-- Moves the cursor up to a multiple of eight, if that is not past the end. -/
def skipFlush (l : BitList) : BitList :=
  if nextByte l.cursor ≤ l.bits.length then { l with cursor := nextByte l.cursor } else l

/-- Adds zeros up to a multiple of eight and moves the cursor to the end. -/
def flush (l : BitList) : BitList where
  bits := l.bits ++ List.replicate (nextByte l.bits.length - l.bits.length) false
  cursor := nextByte l.bits.length

/-- Reads a text up to a zero byte. -/
def readText (l : BitList) : Except Fault Text × BitList :=
  let bytes := bytesOfBits (l.bits.drop l.cursor)
  match bytes.idxOf? 0 with
  | none => (.error .pastEnd, l)
  | some k => (.ok (Utf8.decode (bytes.take k)), { l with cursor := l.cursor + 8 * (k + 1) })

end BitList

namespace BitStream

/-- The number that the bits of a floating point number stand for. -/
def floatOfBits (single : Bool) (order : ByteOrder) (bits : List Bool) : Double :=
  let bytes := bytesOfBits bits
  floatOfBytes single (match order with | .little => bytes | .big => bytes.reverse)

/-- The bytes of a floating point number, as the width and the byte order have it. -/
def floatBytes (value width order : Value) : Except Fault Bytes := do
  let single ← isSingleWidth width
  match ← byteOrder? order with
  | none => .error .noByteOrder
  | some order =>
    let bytes ← bytesOfFloat single value
    pure (match order with | .little => bytes | .big => bytes.reverse)

namespace Operation

/-- What an operation does to a list of bits with a cursor. -/
def onBits {α : Type} : Operation α → BitList → Except Fault α × BitList
  | seek offset whence, l => (.ok (), { l with cursor := (l.destination offset whence).toNat })
  | skipToEnd, l => (.ok (), { l with cursor := l.bits.length })
  | skipFlush, l => (.ok (), l.skipFlush)
  | flush, l => (.ok (), l.flush)
  | readBit, l => l.read 1 fun bits => decide (bits = [true])
  | readBits n, l => l.read n.toNat id
  | readByte, l => l.read 8 byteOfBits
  | readBytes n, l => l.read (8 * n.toNat) bytesOfBits
  | readInt width signed order, l => l.read width.toNat (intOfBits signed order)
  | readFloat width order, l =>
    match isSingleWidth width, byteOrder? order with
    | .ok single, .ok (some order) => l.read (if single then 32 else 64) (floatOfBits single order)
    | _, _ => (.error .wrongKind, l)
  | readText, l => l.readText
  | readStream n, l => l.read (8 * n.toNat) (ofBytes ∘ bytesOfBits)
  | writeBit b, l => (.ok (), l.write [b])
  | writeBits bits, l => (.ok (), l.write bits)
  | zeroFill n, l => (.ok (), l.write (List.replicate n.toNat false))
  | writeByte value, l => (.ok (), l.write (bitsOfNumber 8 (value.whole?.getD 0 % 256).toNat))
  | writeBytes bytes, l => (.ok (), l.write (bitsOfBytes bytes))
  | writeInt value width _ order, l =>
    (.ok (), l.write (bitsOfInt width.toNat order (value.whole?.getD 0)))
  | writeFloat value width order, l => l.writeResult (floatBytes value width order)
  | writeString value, l => l.writeResult value.string

/-- Whether an operation is given what it can use: a cursor is set to a position of the list or
after it, the bits of a read are counted by a natural number, and what is written fits its field. To
write no bits is to be done inside the list only. -/
def Covered {α : Type} : Operation α → BitList → Prop
  | seek offset whence, l => 0 ≤ l.destination offset whence
  | readBits n, _ => 0 ≤ n
  | readBytes n, _ => 0 ≤ n
  | readStream n, _ => 0 ≤ n
  | readInt width _ order, _ => 0 ≤ width ∧ (order = .little → 8 ∣ width)
  | readFloat width order, _ =>
    (∃ single, isSingleWidth width = .ok single) ∧ width.whole?.isSome
      ∧ ∃ order', byteOrder? order = .ok (some order')
  | readText, l => 0 ∈ bytesOfBits (l.bits.drop l.cursor)
  | writeBits bits, l => 1 ≤ bits.length ∨ l.cursor ≤ l.bits.length
  | zeroFill n, l => 1 ≤ n ∨ l.cursor ≤ l.bits.length
  | writeByte value, _ => ∃ n, value.whole? = some n ∧ -256 ≤ n ∧ n ≤ 255
  | writeBytes bytes, l => 1 ≤ bytes.length ∨ l.cursor ≤ l.bits.length
  | writeInt value width signed order, l =>
    (∃ n, value.whole? = some n ∧ (Scalar.fieldRange width.toNat signed).1 ≤ n
      ∧ n ≤ (Scalar.fieldRange width.toNat signed).2)
      ∧ (if signed then 1 else 0) ≤ width ∧ (order = .little → 8 ∣ width)
      ∧ (1 ≤ width ∨ l.cursor ≤ l.bits.length)
  | _, _ => True

end Operation

/-- An operation gives what it should give, and leaves a stream that holds what it should hold. -/
def Behaves {α : Type} (op : BitOp α) (s : BitStream) (expected : Except Fault α × BitList) :
    Prop :=
  (op.run s).1 = expected.1 ∧ (op.run s).2.Holds expected.2

variable {α : Type} {op : BitOp α} {s : BitStream} {l : BitList}

/-- The cursor of a list of bits moves with that of the stream. -/
theorem Holds.moved (h : s.Holds l) (n : Nat) :
  (s.moved n).Holds { l with cursor := l.cursor + n }
  := by
  refine ⟨h.length_eq, ?_, h.bytes_eq⟩
  rw [BitStream.moved, h.cursor_eq, Nat.cast_add]

/-- The bits ahead of the cursor are those of the list. -/
theorem Holds.ahead_eq (h : s.Holds l) :
  s.ahead = l.bits.drop l.cursor
  := by
  rw [ahead, h.toBits_eq, h.cursor_eq, Int.toNat_natCast]

/-- An operation that reads bits reads them from the list. -/
theorem Reads.behaves {n : Nat} {f : List Bool → α} (h : Reads op n f) (hs : s.Holds l) :
  Behaves op s (l.read n f)
  := by
  have hcursor := hs.cursor_eq
  have hlength := hs.length_eq
  rw [Behaves, BitList.read]
  split
  · rw [h.run_of_lt hs.backed (by omega)]
    exact ⟨rfl, hs⟩
  · rw [h.run_of_le hs.backed (by omega), hs.ahead_eq]
    exact ⟨rfl, hs.moved n⟩

/-- An operation that writes bits writes them into the list. Without any bits the cursor must not be
past the end. -/
theorem Writes.behaves {op : BitOp Unit} {new : List Bool} (h : Writes op new) (hs : s.Holds l)
    (hroom : 1 ≤ new.length ∨ l.cursor ≤ l.bits.length) :
  Behaves op s (.ok (), l.write new)
  := by
  have hroom' : new ≠ [] ∨ l.cursor ≤ l.bits.length := hroom.imp_left List.length_pos_iff.mp
  obtain ⟨t, hrun, ht⟩ := h s l hs hroom'
  rw [Behaves, hrun]
  exact ⟨rfl, ht⟩

/-! ### Moving the cursor -/

/-- The cursor is set to where it is sent, unless that is before the start. -/
theorem behaves_seek (hs : s.Holds l) {offset : Int} {whence : Whence}
    (h : 0 ≤ l.destination offset whence) :
  Behaves (seek offset whence) s (.ok (), { l with cursor := (l.destination offset whence).toNat })
  := by
  have hcursor := hs.cursor_eq
  have hlength := hs.length_eq
  refine ⟨rfl, ?_⟩
  cases whence with
  | start =>
    refine ⟨hlength, ?_, hs.bytes_eq⟩
    exact (Int.toNat_of_nonneg h).symm
  | current =>
    refine ⟨hlength, ?_, hs.bytes_eq⟩
    rw [Int.toNat_of_nonneg h, BitList.destination, ← hcursor]
    rfl
  | stop =>
    refine ⟨hlength, ?_, hs.bytes_eq⟩
    rw [Int.toNat_of_nonneg h, BitList.destination, ← hlength]
    rfl

/-- The cursor is set to the end. -/
theorem behaves_skipToEnd (hs : s.Holds l) :
  Behaves skipToEnd s (.ok (), { l with cursor := l.bits.length })
  := by
  refine ⟨rfl, hs.length_eq, ?_, hs.bytes_eq⟩
  exact congrArg Nat.cast hs.length_eq

/-- The cursor is moved to the next byte. -/
theorem behaves_skipFlush (hs : s.Holds l) :
  Behaves skipFlush s (.ok (), l.skipFlush)
  := by
  have hcursor := hs.cursor_eq
  have hlength := hs.length_eq
  have havailable : s.available = s.length - s.cursor := rfl
  refine ⟨rfl, ?_⟩
  rw [BitStream.skipFlush, run_modify, BitList.skipFlush, BitList.nextByte]
  dsimp only
  by_cases hend : 8 * ((l.cursor + 7) / 8) ≤ l.bits.length
  · rw [if_pos hend]
    split
    · refine ⟨hlength, ?_, hs.bytes_eq⟩
      dsimp only
      omega
    · refine ⟨hlength, ?_, hs.bytes_eq⟩
      dsimp only
      omega
  · rw [if_neg hend, if_neg (by omega)]
    exact hs

/-- The cursor is moved to the next byte, and the list ends there at the earliest. -/
theorem behaves_flush (hs : s.Holds l) :
  Behaves flush s (.ok (), l.flush)
  := by
  obtain ⟨hrun, hend⟩ := behaves_skipToEnd hs
  have hlength := hs.length_eq
  have hskip : skipToEnd.run s = (.ok (), { s with cursor := s.length }) := rfl
  rw [hskip] at hend
  rw [Behaves, BitStream.flush, run_bind_of_ok hskip, run_bind_of_ok run_get]
  dsimp only
  by_cases haligned : (s.length : Int) % 8 = 0
  · have hnext : BitList.nextByte l.bits.length = l.bits.length := by
      rw [BitList.nextByte]
      omega
    rw [if_neg (not_not.mpr haligned), BitList.flush, hnext, Nat.sub_self, List.replicate_zero,
      List.append_nil]
    exact ⟨rfl, hend⟩
  · rw [if_pos haligned]
    have hcount : (8 - (s.length : Int) % 8).toNat
        = BitList.nextByte l.bits.length - l.bits.length := by
      rw [BitList.nextByte]
      omega
    have hnext : l.bits.length ≤ BitList.nextByte l.bits.length := by
      rw [BitList.nextByte]
      omega
    have hflush : BitList.write ⟨l.bits, l.bits.length⟩
        (List.replicate (8 - (s.length : Int) % 8).toNat false) = l.flush := by
      rw [hcount]
      simp [BitList.write, BitList.flush, hnext]
    rw [← hflush]
    apply (writes_zeroFill (8 - (s.length : Int) % 8)).behaves hend
    exact .inr le_rfl

/-! ### Floating point numbers and texts -/

/-- A floating point number is read from 32 or 64 bits. -/
theorem reads_readFloat {width order : Value} {single : Bool} {order' : ByteOrder}
    (hsingle : isSingleWidth width = .ok single) (hwhole : width.whole?.isSome)
    (horder : byteOrder? order = .ok (some order')) :
  Reads (readFloat width order) (if single then 32 else 64) (floatOfBits single order')
  := by
  intro s hs
  rw [readFloat, hsingle, run_bind_of_ok (run_liftM _), horder, run_bind_of_ok (run_liftM _)]
  have hnone : ¬ width.whole?.isNone = true := by
    rw [Option.isNone_iff_eq_none, ← ne_eq, Option.ne_none_iff_isSome]
    exact hwhole
  obtain ⟨k, hk, hbits⟩ : ∃ k : Nat, (if single then 4 else 8 : Int) = k
      ∧ (if single then 32 else 64) = 8 * k := by
    cases single with
    | false => exact ⟨8, rfl, rfl⟩
    | true => exact ⟨4, rfl, rfl⟩
  dsimp only
  rw [if_neg hnone, hbits, hk]
  apply (reads_readBytes k).bind _ s hs
  intro bits hlength
  rw [length_bytesOfBits, hlength, Nat.mul_div_cancel_left _ (by decide), if_neg (not_not.mpr rfl)]
  rfl

theorem floatBytes_eq_ok {value width order : Value} {bytes : Bytes}
    (h : floatBytes value width order = .ok bytes) :
  1 ≤ bytes.length
  := by
  obtain ⟨single, -, h⟩ := bind_eq_ok_iff.mp h
  obtain ⟨order?, -, h⟩ := bind_eq_ok_iff.mp h
  cases order? with
  | none => cases h
  | some order =>
    obtain ⟨bytes', hbytes, h⟩ := bind_eq_ok_iff.mp h
    have hlength : 1 ≤ bytes'.length := by
      cases single with
      | false =>
        obtain ⟨x, -, rfl⟩ := map_eq_ok_iff.mp hbytes
        rw [Bytes.length_littleEndian]
        decide
      | true =>
        obtain ⟨x, -, rfl⟩ := map_eq_ok_iff.mp hbytes
        rw [Bytes.length_littleEndian]
        decide
    obtain rfl := Except.ok.inj h
    cases order with
    | little => exact hlength
    | big => rwa [List.length_reverse]

/-- A floating point number is written as its bytes. -/
theorem writeFloat_eq (value width order : Value) :
  writeFloat value width order = liftM (floatBytes value width order) >>= writeBytes
  := by
  rw [writeFloat, floatBytes]
  cases isSingleWidth width with
  | error fault => rfl
  | ok single =>
    cases byteOrder? order with
    | error fault => rfl
    | ok order? =>
      cases order? with
      | none => rfl
      | some order =>
        change liftM (bytesOfFloat single value) >>= _
          = liftM (bytesOfFloat single value >>= _) >>= writeBytes
        cases bytesOfFloat single value with
        | error fault => rfl
        | ok bytes => rfl

/-- A string that is written ends with a zero byte. -/
theorem string_eq_ok {value : Value} {bytes : Bytes} (h : value.string = .ok bytes) :
  ∃ b, bytes = b ++ [0]
  := by
  cases value with
  | scalar s =>
    cases s with
    | text t =>
      obtain ⟨b, -, -, rfl⟩ := Scalar.terminatedText_eq_ok_iff.mp h
      exact ⟨b, rfl⟩
    | bytes b =>
      rw [Value.string, Scalar.string, Scalar.terminated] at h
      split at h
      · cases h
      · exact ⟨b, (Except.ok.inj h).symm⟩
    | _ => cases h
  | _ =>
    obtain ⟨members, -, h⟩ := bind_eq_ok_iff.mp h
    split at h
    · obtain ⟨t, -, h⟩ := bind_eq_ok_iff.mp h
      cases h
    · cases h

/-- What cannot be written is found out before anything is written. -/
theorem behaves_writeResult (hs : s.Holds l) (x : Except Fault Bytes)
    (hx : ∀ bytes, x = .ok bytes → 1 ≤ bytes.length) :
  Behaves (liftM x >>= writeBytes) s (l.writeResult x)
  := by
  cases x with
  | error fault => exact ⟨rfl, hs⟩
  | ok bytes =>
    rw [Behaves, run_bind_of_ok (run_liftM _)]
    apply (writes_writeBytes bytes).behaves hs
    left
    have := hx bytes rfl
    rw [length_bitsOfBytes]
    omega

/-- Bytes are read one by one up to the first that is zero. -/
theorem run_readUntilZero (hs : s.Backed) {k steps : Nat}
    (hk : (bytesOfBits s.ahead).idxOf? 0 = some k) (hsteps : k < steps) (done : Bytes) :
  (readUntilZero steps done).run s
    = (.ok (done.reverse ++ (bytesOfBits s.ahead).take k), s.moved (8 * (k + 1)))
  := by
  induction steps generalizing s k done with
  | zero => cases hsteps
  | succ steps ih =>
    have hcursor := hs.cursor_nonneg
    have hlength : 8 ≤ s.ahead.length := by
      by_contra hlt
      rw [bytesOfBits_of_short (not_le.mp hlt)] at hk
      cases hk
    have hread := reads_readByte.run_of_le hs (by rw [hs.length_ahead] at hlength; omega)
    rw [bytesOfBits_eq_cons hlength, List.idxOf?_cons] at hk
    rw [readUntilZero, run_bind_of_ok hread, bytesOfBits_eq_cons hlength]
    by_cases hzero : byteOfBits (s.ahead.take 8) = 0
    · rw [if_pos (by simpa using hzero)] at hk
      obtain rfl := Option.some.inj hk
      rw [if_pos hzero, List.take_zero, List.append_nil]
      rfl
    · rw [if_neg (by simpa using hzero)] at hk
      obtain ⟨j, hj, rfl⟩ := Option.map_eq_some_iff.mp hk
      rw [← hs.ahead_moved] at hj ⊢
      rw [if_neg hzero, ih (hs.moved 8) hj (by omega), moved_moved, List.reverse_cons,
        List.append_assoc]
      congr 2
      push_cast
      ring

/-- The first zero byte ahead of a cursor at the start of a byte. -/
theorem findZero?_eq (hs : s.Backed) {c k : Nat} (hc : s.cursor = 8 * c)
    (hk : (bytesOfBits s.ahead).idxOf? 0 = some k) :
  findZero? s.bytes (sliceEnd s.bytes.length (s.cursor / 8)) (s.length / 8) = some (c + k)
  := by
  have hbytes := hs.bytesOfBits_ahead hc
  rw [hbytes] at hk
  have hinside : c ≤ s.bytes.length := by
    by_contra hlt
    rw [List.drop_eq_nil_of_le (not_le.mp hlt).le, List.take_nil] at hk
    cases hk
  have hindex : s.cursor / 8 = c := by omega
  rw [findZero?, hindex, sliceEnd_natCast hinside, List.drop_take]
  exact congrArg (Option.map (c + ·)) hk

/-- Reading a text takes the bytes up to the first that is zero, wherever the cursor is. -/
theorem run_readText_of_idxOf? (hs : s.Backed) {k : Nat}
    (hk : (bytesOfBits s.ahead).idxOf? 0 = some k) :
  readText.run s = (.ok (Utf8.decode ((bytesOfBits s.ahead).take k)), s.moved (8 * (k + 1)))
  := by
  obtain ⟨hlt, -⟩ := List.idxOf?_eq_some_iff.mp hk
  rw [length_bytesOfBits, hs.length_ahead] at hlt
  have hcursor := hs.cursor_nonneg
  rw [readText, run_bind_of_ok run_get]
  by_cases haligned : s.isAligned
  · obtain ⟨c, hc⟩ := exists_of_isAligned hs haligned
    have hcount : ((c + k : Nat) : Int) - s.cursor / 8 = k := by omega
    rw [if_pos haligned]
    dsimp only
    rw [findZero?_eq hs hc hk]
    dsimp only
    rw [hcount, run_bind_of_ok ((reads_readBytes k).run_of_le hs (by omega)),
      run_bind_of_ok (run_advance _ 8), bytesOfBits_take, moved_moved]
    rfl
  · have havailable : s.available = s.length - s.cursor := rfl
    have hsteps : k < (s.available / 8).toNat + 1 := by omega
    rw [if_neg haligned, run_bind_of_ok (run_readUntilZero hs hk hsteps [])]
    rfl

/-- A string is read up to its zero byte, if there is one. -/
theorem behaves_readText (hs : s.Holds l) (h : 0 ∈ bytesOfBits (l.bits.drop l.cursor)) :
  Behaves readText s l.readText
  := by
  obtain ⟨k, hk⟩ := Option.isSome_iff_exists.mp (List.isSome_idxOf?.mpr h)
  rw [Behaves, BitList.readText, hk]
  rw [← hs.ahead_eq] at hk ⊢
  rw [run_readText_of_idxOf? hs.backed hk]
  exact ⟨rfl, hs.moved (8 * (k + 1))⟩

/-! ### One operation -/

/-- A byte is written from an integer of eight bits, with or without a sign. -/
theorem behaves_writeByteOf (hs : s.Holds l) {value : Value} {n : Int}
    (hvalue : value.whole? = some n)
    (hlow : -256 ≤ n) (hhigh : n ≤ 255) :
  Behaves (writeByteOf value) s (.ok (), l.write (bitsOfNumber 8 (n % 256).toNat))
  := by
  have hwrite : (writeByteOf value).run s = (writeByte n).run s := by
    obtain ⟨_ | b | m | _ | _ | _⟩ | _ := value
    all_goals cases hvalue
    · rfl
    · rfl
  rw [Behaves, hwrite]
  apply (writes_writeByte hlow hhigh).behaves hs
  left
  rw [length_bitsOfNumber]
  decide

/-- An operation that is given what it can use does to a stream what it does to the list of bits
that the stream holds. -/
theorem Operation.behaves {α : Type} (op : Operation α) (hs : s.Holds l) (h : op.Covered l) :
  Behaves op.perform s (op.onBits l)
  := by
  cases op with
  | seek offset whence => exact behaves_seek hs h
  | skipToEnd => exact behaves_skipToEnd hs
  | skipFlush => exact behaves_skipFlush hs
  | flush => exact behaves_flush hs
  | readBit => exact reads_readBit.behaves hs
  | readBits n =>
    obtain ⟨n, rfl⟩ := Int.eq_ofNat_of_zero_le h
    exact (reads_readBits n).behaves hs
  | readByte => exact reads_readByte.behaves hs
  | readBytes n =>
    obtain ⟨n, rfl⟩ := Int.eq_ofNat_of_zero_le h
    exact (reads_readBytes n).behaves hs
  | readInt width signed order =>
    obtain ⟨hwidth, horder⟩ := h
    obtain ⟨width, rfl⟩ := Int.eq_ofNat_of_zero_le hwidth
    apply (reads_readInt _ signed).behaves hs
    intro hlittle
    exact Int.natCast_dvd_natCast.mp (horder hlittle)
  | readFloat width order =>
    obtain ⟨⟨single, hsingle⟩, hwhole, order', horder⟩ := h
    rw [onBits, hsingle, horder]
    exact (reads_readFloat hsingle hwhole horder).behaves hs
  | readText => exact behaves_readText hs h
  | readStream n =>
    obtain ⟨n, rfl⟩ := Int.eq_ofNat_of_zero_le h
    exact (reads_readStream n).behaves hs
  | writeBit b => exact (writes_writeBit b).behaves hs (.inl le_rfl)
  | writeBits bits => exact (writes_writeBits bits).behaves hs h
  | zeroFill n =>
    apply (writes_zeroFill n).behaves hs
    apply h.imp_left
    intro hn
    rw [List.length_replicate]
    omega
  | writeByte value =>
    obtain ⟨n, hvalue, hlow, hhigh⟩ := h
    rw [onBits, hvalue]
    exact behaves_writeByteOf hs hvalue hlow hhigh
  | writeBytes bytes =>
    apply (writes_writeBytes bytes).behaves hs
    apply h.imp_left
    intro hbytes
    rw [length_bitsOfBytes]
    omega
  | writeInt value width signed order =>
    obtain ⟨⟨n, hvalue, hlow, hhigh⟩, hwidth, horder, hroom⟩ := h
    obtain ⟨width, rfl⟩ := Int.eq_ofNat_of_zero_le (le_trans (by split <;> decide) hwidth)
    have hdvd : order = .little → 8 ∣ width := by
      intro hlittle
      exact Int.natCast_dvd_natCast.mp (horder hlittle)
    have hsigned : signed = true → 0 < width := by
      rintro rfl
      exact Int.natCast_pos.mp hwidth
    rw [onBits, hvalue]
    apply (writes_writeInt hvalue hsigned hlow hhigh hdvd).behaves hs
    apply hroom.imp_left
    intro hpos
    rw [length_bitsOfInt hdvd]
    exact Int.natCast_pos.mp hpos
  | writeFloat value width order =>
    rw [perform, writeFloat_eq]
    apply behaves_writeResult hs
    apply floatBytes_eq_ok
  | writeString value =>
    apply behaves_writeResult hs
    intro bytes hbytes
    obtain ⟨b, rfl⟩ := string_eq_ok hbytes
    simp

end BitStream

end ActionBlock
