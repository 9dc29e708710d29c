import ActionBlock.Proofs.BitLists

/-!
# Runs of operations on bit streams

A bit stream behaves as a list of bits with a cursor, whatever operations were performed on it
before. What makes this so is that its bytes are exactly the bits filled up with zeros, and each
operation, also one that fails or that is given something it cannot use, leaves a stream of that
form.
-/

namespace ActionBlock

open BitStream

namespace BitStream

variable {α : Type} {op : BitOp α} {s : BitStream} {l : BitList}

/-! ### Operations that only move the cursor -/

/-- An operation that changes nothing but the cursor, whether it fails or not. -/
def Steady (op : BitOp α) : Prop :=
  ∀ s : BitStream, (op.run s).2.bytes = s.bytes ∧ (op.run s).2.length = s.length

namespace Steady

variable {β : Type}

theorem pure (a : α) :
  Steady (Pure.pure a)
  := fun _ => ⟨rfl, rfl⟩

theorem throw (fault : Fault) :
  Steady (MonadExcept.throw fault : BitOp α)
  := fun _ => ⟨rfl, rfl⟩

theorem throw_bind (fault : Fault) (next : α → BitOp β) :
  Steady (MonadExcept.throw fault >>= next)
  := fun _ => ⟨rfl, rfl⟩

theorem get :
  Steady MonadState.get
  := fun _ => ⟨rfl, rfl⟩

theorem liftM (x : Except Fault α) :
  Steady (MonadLiftT.monadLift x)
  := by
  intro s
  cases x with
  | error fault => exact ⟨rfl, rfl⟩
  | ok a => exact ⟨rfl, rfl⟩

/-- Steps that are steady are steady one after the other. -/
theorem bind (h : Steady op) {next : α → BitOp β} (hnext : ∀ a, Steady (next a)) :
  Steady (op >>= next)
  := by
  intro s
  obtain ⟨hbytes, hlength⟩ := h s
  rcases hrun : op.run s with ⟨fault | a, t⟩
  · rw [run_bind_of_error hrun]
    rw [hrun] at hbytes hlength
    exact ⟨hbytes, hlength⟩
  · rw [run_bind_of_ok hrun]
    rw [hrun] at hbytes hlength
    obtain ⟨hbytes', hlength'⟩ := hnext a t
    exact ⟨hbytes'.trans hbytes, hlength'.trans hlength⟩

theorem ite {c : Prop} [Decidable c] {x y : BitOp α} (hx : Steady x) (hy : Steady y) :
  Steady (if c then x else y)
  := by
  split
  · exact hx
  · exact hy

theorem map (h : Steady op) (g : α → β) :
  Steady (g <$> op)
  := by
  rw [map_eq_pure_bind]
  apply h.bind
  intro a
  apply Steady.pure

theorem need (n : Int) :
  Steady (BitStream.need n)
  := by
  intro s
  rw [run_need]
  split <;> exact ⟨rfl, rfl⟩

theorem advance (n : Int) :
  Steady (BitStream.advance n)
  := fun _ => ⟨rfl, rfl⟩

theorem byteAt (index : Int) :
  Steady (BitStream.byteAt index)
  := by
  apply Steady.get.bind
  intro s
  split
  · apply Steady.pure
  · apply Steady.throw

theorem readBit :
  Steady BitStream.readBit
  := by
  apply (Steady.need 1).bind
  intro _
  apply Steady.get.bind
  intro s
  apply (Steady.advance 1).bind
  intro _
  apply (Steady.byteAt _).bind
  intro b
  apply Steady.pure

/-- A steady step is steady when it is repeated. -/
theorem repeatOp (h : Steady op) (n : Nat) (done : List α) :
  Steady (BitStream.repeatOp op n done)
  := by
  induction n generalizing done with
  | zero => apply Steady.pure
  | succ n ih =>
    apply h.bind
    intro a
    apply ih

theorem readBits (n : Int) :
  Steady (BitStream.readBits n)
  := by
  apply (Steady.need n).bind
  intro _
  apply Steady.readBit.repeatOp

theorem readByte :
  Steady BitStream.readByte
  := by
  apply Steady.get.bind
  intro s
  split
  · apply (Steady.need 8).bind
    intro _
    apply (Steady.advance 8).bind
    intro _
    apply Steady.get.bind
    intro _
    apply Steady.byteAt
  · apply (Steady.readBits 8).bind
    intro bits
    apply Steady.pure

/-- Bytes are read without a change, aligned or not. -/
theorem readBytes (n : Int) :
  Steady (BitStream.readBytes n)
  := by
  apply (Steady.need _).bind
  intro _
  apply Steady.get.bind
  intro s
  split
  · apply (Steady.advance _).bind
    intro _
    apply Steady.pure
  · apply Steady.readByte.repeatOp

/-- An integer is read without a change, and so is a refusal to read it. -/
theorem readInt (width : Int) (signed : Bool) (order : ByteOrder) :
  Steady (BitStream.readInt width signed order)
  := by
  have hsign : ∀ n : Nat, Steady
      (if signed ∧ width ≠ 0 then
        if width < 0 then MonadExcept.throw Fault.negativeWidth
        else if n.testBit (width.toNat - 1) then Pure.pure ((n : Int) - 2 ^ width.toNat)
        else Pure.pure n
      else Pure.pure n : BitOp Int) := by
    intro n
    split
    · split
      · apply Steady.throw
      · split <;> apply Steady.pure
    · apply Steady.pure
  unfold BitStream.readInt
  cases order with
  | little =>
    dsimp only
    split
    · exact (Steady.throw _).bind hsign
    · exact ((Steady.readBytes _).map _).bind hsign
  | big => exact ((Steady.readBits _).map _).bind hsign

theorem readFloat (width order : Value) :
  Steady (BitStream.readFloat width order)
  := by
  apply (Steady.liftM _).bind
  intro single
  apply (Steady.liftM _).bind
  intro order?
  dsimp only
  split
  · apply (Steady.need _).bind
    intro _
    apply Steady.throw_bind
  · apply (Steady.readBytes _).bind
    intro bytes
    cases order? with
    | none => apply Steady.throw
    | some order =>
      apply Steady.ite
      · apply Steady.throw
      · apply Steady.pure

/-- The bytes of a string are read without a change. -/
theorem readUntilZero (steps : Nat) (done : Bytes) :
  Steady (BitStream.readUntilZero steps done)
  := by
  induction steps generalizing done with
  | zero => apply Steady.throw
  | succ steps ih =>
    apply Steady.readByte.bind
    intro b
    split
    · apply Steady.pure
    · apply ih

theorem readText :
  Steady BitStream.readText
  := by
  apply Steady.get.bind
  intro s
  split
  · dsimp only
    split
    · apply Steady.throw
    · apply (Steady.readBytes _).bind
      intro bytes
      apply (Steady.advance 8).bind
      intro _
      apply Steady.pure
  · apply (Steady.readUntilZero _ _).bind
    intro bytes
    apply Steady.pure

end Steady

/-! ### Sound streams -/

/-- A stream that holds some list of bits. -/
def Sound (s : BitStream) : Prop := ∃ l, s.Holds l

/-- The list of bits of a stream, with its cursor. -/
def view (s : BitStream) : BitList := ⟨s.toBits, s.cursor.toNat⟩

/-- The list that a stream holds is its view. -/
theorem Holds.view_eq (h : s.Holds l) :
  s.view = l
  := by
  rw [view, h.toBits_eq, h.cursor_eq, Int.toNat_natCast]

/-- A sound stream holds its view. -/
theorem Sound.holds (h : s.Sound) :
  s.Holds s.view
  := by
  obtain ⟨l, hl⟩ := h
  rwa [hl.view_eq]

/-- An operation that behaves leaves the stream sound. -/
theorem Behaves.sound {expected : Except Fault α × BitList} (h : Behaves op s expected) :
  (op.run s).2.Sound
  := ⟨_, h.2⟩

/-- A steady operation leaves the stream sound, if the cursor is not before the start. -/
theorem Steady.sound (h : Steady op) (hs : s.Sound) (hcursor : 0 ≤ (op.run s).2.cursor) :
  (op.run s).2.Sound
  := by
  obtain ⟨l, hl⟩ := hs
  obtain ⟨hbytes, hlength⟩ := h s
  refine ⟨⟨l.bits, (op.run s).2.cursor.toNat⟩, ?_, ?_, ?_⟩
  · exact hlength.trans hl.length_eq
  · exact (Int.toNat_of_nonneg hcursor).symm
  · rw [hbytes]
    exact hl.bytes_eq

theorem Sound.grown (h : s.Sound) (stop : Nat) :
  (s.grown stop).Sound
  := by
  obtain ⟨l, hl⟩ := h
  refine ⟨⟨l.bits ++ List.replicate (stop - l.bits.length) false, l.cursor⟩, ?_, hl.cursor_eq,
    hl.bytes_grown stop⟩
  have hlength : (s.grown stop).length = max s.length stop := rfl
  rw [List.length_append, List.length_replicate, hlength, hl.length_eq]
  omega

/-- A stream grows to any length. -/
theorem Sound.run_grow (h : s.Sound) (stop : Int) (hstop : 0 ≤ stop) :
  ∃ t, (grow stop).run s = (.ok (), t) ∧ t.Sound
  := by
  obtain ⟨stop, rfl⟩ := Int.eq_ofNat_of_zero_le hstop
  exact ⟨_, BitStream.run_grow s stop, h.grown stop⟩

/-- An operation that leaves a stream sound, whether it fails or not. -/
def Keeps (op : BitOp α) : Prop := ∀ s : BitStream, s.Sound → (op.run s).2.Sound

/-- Writing bits keeps streams sound, and so do the other writes. -/
theorem keeps_writeBits (bits : List Bool) :
  Keeps (writeBits bits)
  := by
  intro s hs
  cases bits with
  | nil => exact hs
  | cons b bits =>
    apply ((writes_writeBits (b :: bits)).behaves hs.holds _).sound
    exact .inl (Nat.le_add_left _ _)

theorem keeps_writeBytes (bytes : Bytes) :
  Keeps (writeBytes bytes)
  := by
  intro s hs
  cases bytes with
  | nil =>
    have hcursor := hs.holds.backed.cursor_nonneg
    rw [writeBytes, run_bind_of_ok run_get]
    split
    · -- Room is made up to the cursor, and no byte is replaced.
      obtain ⟨t, hrun, ht⟩ := hs.run_grow (s.cursor + 8 * (0 : Nat)) (by omega)
      rw [List.length_nil, run_bind_of_ok hrun, run_modify]
      simp only [Nat.cast_zero, add_zero, mul_zero, replaceSlice_nil]
      exact ht
    · exact hs
  | cons b bytes =>
    apply ((writes_writeBytes (b :: bytes)).behaves hs.holds _).sound
    left
    rw [length_bitsOfBytes, List.length_cons]
    omega

theorem keeps_writeByte (n : Int) :
  Keeps (writeByte n)
  := by
  intro s hs
  have hcursor := hs.holds.backed.cursor_nonneg
  by_cases hrange : -256 ≤ n ∧ n ≤ 255
  · apply ((writes_writeByte hrange.1 hrange.2).behaves hs.holds _).sound
    left
    rw [length_bitsOfNumber]
    decide
  · rw [writeByte, run_bind_of_ok run_get]
    split
    · obtain ⟨t, hrun, ht⟩ := hs.run_grow (s.cursor + 8) (by omega)
      rw [run_bind_of_ok run_get, run_bind_of_ok hrun, if_neg (by split <;> omega)]
      exact ht
    · split
      · exact keeps_writeBits _ s hs
      · exact hs

theorem keeps_writeByteOf (value : Value) :
  Keeps (writeByteOf value)
  := by
  intro s hs
  have hcursor := hs.holds.backed.cursor_nonneg
  rw [writeByteOf]
  cases value.compareInt 0 with
  | error fault => exact hs
  | ok order =>
    rw [run_bind_of_ok (run_liftM _)]
    cases value.whole? with
    | some n => exact keeps_writeByte n s hs
    | none =>
      dsimp only
      rw [run_bind_of_ok run_get]
      by_cases haligned : s.isAligned
      · obtain ⟨t, hrun, ht⟩ := hs.run_grow (s.cursor + 8) (by omega)
        rw [if_pos haligned, run_bind_of_ok hrun]
        exact ht
      · rw [if_neg haligned]
        generalize Value.fit 8 false _ = x
        cases x with
        | error fault => exact hs
        | ok bits => exact hs

theorem keeps_writeInt (value : Value) (width : Int) (signed : Bool) (order : ByteOrder) :
  Keeps (writeInt value width signed order)
  := by
  intro s hs
  rw [writeInt]
  by_cases hwidth : (if signed then width - 1 else width) < 0
  · rw [if_pos hwidth]
    exact hs
  rw [if_neg hwidth]
  dsimp only
  cases value.fit width.toNat signed with
  | error fault => exact hs
  | ok bits =>
    cases order with
    | little =>
      dsimp only
      split
      · exact hs
      · exact keeps_writeBytes _ s hs
    | big => exact keeps_writeBits _ s hs

theorem keeps_liftM_bind (x : Except Fault Bytes) :
  Keeps (liftM x >>= writeBytes)
  := by
  intro s hs
  cases x with
  | error fault => exact hs
  | ok bytes => exact keeps_writeBytes bytes s hs

/-- An operation leaves a sound stream, unless it moves the cursor before the start. -/
theorem Operation.sound {α : Type} (op : Operation α) (hs : s.Sound)
    (hcursor : 0 ≤ (op.perform.run s).2.cursor) :
  (op.perform.run s).2.Sound
  := by
  cases op with
  | seek offset whence =>
    apply Steady.sound _ hs hcursor
    intro s
    cases whence <;> exact ⟨rfl, rfl⟩
  | skipToEnd => exact (behaves_skipToEnd hs.holds).sound
  | skipFlush => exact (behaves_skipFlush hs.holds).sound
  | flush => exact (behaves_flush hs.holds).sound
  | readBit => exact Steady.readBit.sound hs hcursor
  | readBits n => exact (Steady.readBits n).sound hs hcursor
  | readByte => exact Steady.readByte.sound hs hcursor
  | readBytes n => exact (Steady.readBytes n).sound hs hcursor
  | readInt width signed order => exact (Steady.readInt width signed order).sound hs hcursor
  | readFloat width order => exact (Steady.readFloat width order).sound hs hcursor
  | readText => exact Steady.readText.sound hs hcursor
  | readStream n => exact ((Steady.readBytes n).map ofBytes).sound hs hcursor
  | writeBit b => exact ((writes_writeBit b).behaves hs.holds (.inl le_rfl)).sound
  | writeBits bits => exact keeps_writeBits bits s hs
  | zeroFill n => exact keeps_writeBits _ s hs
  | writeByte value => exact keeps_writeByteOf value s hs
  | writeBytes bytes => exact keeps_writeBytes bytes s hs
  | writeInt value width signed order => exact keeps_writeInt value width signed order s hs
  | writeFloat value width order =>
    rw [perform, writeFloat_eq]
    exact keeps_liftM_bind _ s hs
  | writeString value => exact keeps_liftM_bind _ s hs

/-! ### Runs -/

/-- A stream to which operations lead, one after another, from a stream made of bits or of bytes.
The cursor is not moved before the start. -/
inductive Reached : BitStream → Prop where
  | ofBits (bits : List Bool) : Reached (.ofBits bits)
  | ofBytes (bytes : Bytes) : Reached (.ofBytes bytes)
  | perform {s : BitStream} {α : Type} (op : Operation α) (hs : Reached s)
      (hcursor : 0 ≤ (op.perform.run s).2.cursor) : Reached (op.perform.run s).2

/-- A stream of bytes holds their bits. -/
theorem holds_ofBytes (bytes : Bytes) :
  (ofBytes bytes).Holds ⟨bitsOfBytes bytes, 0⟩
  := by
  refine ⟨?_, rfl, 0, by decide, ?_⟩
  · rw [ofBytes, length_bitsOfBytes]
  · rw [List.replicate_zero, List.append_nil]
    rfl

/-- A stream of bits holds them. -/
theorem holds_ofBits (bits : List Bool) :
  (ofBits bits).Holds ⟨bits, 0⟩
  := by
  have hempty : empty.Holds ⟨[], 0⟩ := holds_ofBytes []
  obtain ⟨t, hrun, ht⟩ := writes_writeBits bits empty _ hempty (.inr le_rfl)
  have hbits : ofBits bits = { ((writeBits bits).run empty).2 with cursor := 0 } := rfl
  have hwrite : (BitList.write ⟨[], 0⟩ bits).bits = bits := by simp [BitList.write]
  rw [hbits, hrun]
  have hlength := ht.length_eq
  have hbytes := ht.bytes_eq
  rw [hwrite] at hlength hbytes
  exact ⟨hlength, rfl, hbytes⟩

/-- Every stream of a run is sound. -/
theorem Reached.sound (h : s.Reached) :
  s.Sound
  := by
  induction h with
  | ofBits bits => exact ⟨_, holds_ofBits bits⟩
  | ofBytes bytes => exact ⟨_, holds_ofBytes bytes⟩
  | perform op _ hcursor ih => exact op.sound ih hcursor

/-- The bytes of a stream are its bits filled up with zeros. -/
theorem Holds.serialize_eq (h : s.Holds l) :
  s.serialize = bytesOfBits l.flush.bits
  := by
  obtain ⟨spare, hspare, hbytes⟩ := h.bytes_eq
  have hlength := congrArg List.length hbytes
  rw [length_bitsOfBytes, List.length_append, List.length_replicate] at hlength
  have hfill : BitList.nextByte l.bits.length - l.bits.length = spare := by
    rw [BitList.nextByte]
    omega
  have hall : s.bytes.length ≤ (s.length + 7) / 8 := by
    rw [h.length_eq]
    omega
  rw [serialize, List.take_of_length_le hall, BitList.flush, hfill, ← hbytes,
    bytesOfBits_bitsOfBytes]

end BitStream

/-! ### The theorem -/

/-- A bit stream behaves as a list of bits with a cursor. It begins as the bits or the bytes that it
was made of, and after any operations it holds its own bits and nothing else. Each operation that is
given what it can use gives then what it gives for the list of bits, and changes the bits and the
cursor in the same way. -/
theorem stream_refines_bits :
  (∀ bits, (ofBits bits).Holds ⟨bits, 0⟩) ∧ (∀ bytes, (ofBytes bytes).Holds ⟨bitsOfBytes bytes, 0⟩)
    ∧ ∀ s : BitStream, s.Reached → s.Holds s.view ∧ s.serialize = bytesOfBits s.view.flush.bits
      ∧ ∀ (α : Type) (op : Operation α), op.Covered s.view →
        (op.perform.run s).1 = (op.onBits s.view).1
          ∧ (op.perform.run s).2.Holds (op.onBits s.view).2 ∧ (op.perform.run s).2.Reached
  := by
  refine ⟨holds_ofBits, holds_ofBytes, ?_⟩
  intro s hs
  have hholds := hs.sound.holds
  refine ⟨hholds, hholds.serialize_eq, ?_⟩
  intro α op hop
  obtain ⟨hresult, hstate⟩ := op.behaves hholds hop
  exact ⟨hresult, hstate, hs.perform op hstate.backed.cursor_nonneg⟩

/-- After a single bit, a byte is written across the ends of two bytes, and then another. -/
theorem stream_refines_bits_unaligned :
  ∃ s : BitStream, s.Reached ∧ s.view = ⟨List.replicate 9 true, 9⟩
    ∧ (Operation.writeBytes [0]).Covered s.view
    ∧ ((Operation.writeBytes [0]).perform.run s).2.Holds
      ⟨List.replicate 9 true ++ List.replicate 8 false, 17⟩
  := by
  have hend := (Reached.ofBits [true]).perform (.seek 0 .stop) (by decide)
  obtain ⟨s, hs, hview⟩ : ∃ s : BitStream, s.Reached ∧ s.view = ⟨List.replicate 9 true, 9⟩ :=
    ⟨_, hend.perform (.writeByte (.int 255)) (by decide +kernel), by decide +kernel⟩
  have hcovered : (Operation.writeBytes [0]).Covered s.view := .inl (by decide)
  have hwrite := (stream_refines_bits.2.2 s hs).2.2 _ _ hcovered
  refine ⟨s, hs, hview, hcovered, ?_⟩
  rw [hview] at hwrite
  exact hwrite.2.1

end ActionBlock
