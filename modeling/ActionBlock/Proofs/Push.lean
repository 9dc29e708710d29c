import ActionBlock.Proofs.Quieting

/-!
# Pushed values

Pushed values that were read are written as the bytes they were read from, save that a signalling
NaN of 32 bits becomes quiet. Conversely a value of a kind that reading its type gives is read
back from what is written for it.
-/

namespace ActionBlock

/-! ### Numbers of 32 bits -/

/-- Quieting a signalling NaN sets its bit 22. -/
theorem Single.quieted_bits {x : Single} (h : x.isSignalling = true) :
  x.quieted.bits.toNat = x.bits.toNat + 2 ^ 22
  := by
  obtain ⟨hnan, hbit⟩ := isSignalling_iff.mp h
  have hinf : Format.single.infinity = 255 * 2 ^ 23 := rfl
  have hlt := x.pattern_lt
  have hbits := x.bits.toNat_lt
  rw [quieted, if_pos h, ofPattern, UInt32.toNat_ofNat']
  simp only [pattern, negative] at *
  by_cases hneg : 2 ^ 31 ≤ x.bits.toNat
  · simp only [hneg, decide_true, if_true]
    omega
  · simp only [hneg, decide_false, Bool.false_eq_true, if_false]
    omega

/-- Setting the bit 6 of a byte in which it is clear. -/
theorem ofNat_or_quiet {n : Nat} (h : n / 64 % 2 = 0) :
  UInt8.ofNat n ||| 0x40 = UInt8.ofNat (n + 64)
  := by
  have hbyte : ∀ k < 256, k / 64 % 2 = 0 → k ||| 64 = k + 64 := by decide +kernel
  apply UInt8.toNat_inj.mp
  rw [UInt8.toNat_or, UInt8.toNat_ofNat', UInt8.toNat_ofNat']
  change n % 256 ||| 64 = (n + 64) % 256
  rw [hbyte (n % 256) (Nat.mod_lt _ (by decide)) (by omega)]
  omega

/-- The quiet bit of a number is in its third byte. -/
theorem littleEndian_add_quiet {n : Nat} (h : n / 2 ^ 22 % 2 = 0) :
  Bytes.littleEndian 4 (n + 2 ^ 22)
    = [UInt8.ofNat n, UInt8.ofNat (n / 256), UInt8.ofNat (n / 256 / 256) ||| 0x40,
        UInt8.ofNat (n / 256 / 256 / 256)]
  := by
  rw [ofNat_or_quiet (by omega)]
  simp only [Bytes.littleEndian, List.cons.injEq, ← UInt8.toNat_inj, UInt8.toNat_ofNat', and_true]
  omega

/-- A number of 32 bits, read and written at a place of the data. -/
theorem Requieted.single {data tail : Bytes} {start n : Nat} (hn : n < 2 ^ 32)
    (h : data.drop start = Bytes.littleEndian 4 n ++ tail) :
  Requieted data [start] start
    (Bytes.littleEndian 4 (Single.quieted ⟨UInt32.ofNat n⟩).bits.toNat)
  := by
  have hat : Single.ofBytesAt data start = ⟨UInt32.ofNat n⟩ := by
    rw [Single.ofBytesAt, h, List.take_left' (Bytes.length_littleEndian 4 n),
      Bytes.ofLittleEndian_littleEndian hn]
  have hbits : (UInt32.ofNat n).toNat = n := by
    rw [UInt32.toNat_ofNat', Nat.mod_eq_of_lt hn]
  constructor
  · intro o ho
    obtain rfl := List.mem_singleton.mp ho
    rw [Bytes.length_littleEndian]
    exact ⟨le_refl _, le_refl _⟩
  · intro i hi
    rw [Bytes.length_littleEndian] at hi
    have hget : data[start + i]? = (Bytes.littleEndian 4 n)[i]? := by
      rw [← List.getElem?_drop, h, List.getElem?_append_left (by simpa using hi)]
    rw [hget]
    by_cases hs : Single.isSignalling ⟨UInt32.ofNat n⟩ = true
    · have hbit : n / 2 ^ 22 % 2 = 0 := by
        have := (Single.isSignalling_iff.mp hs).2
        rw [Single.pattern, hbits] at this
        omega
      rw [Single.quieted_bits hs, hbits, littleEndian_add_quiet hbit]
      obtain rfl | rfl | rfl | rfl : i = 0 ∨ i = 1 ∨ i = 2 ∨ i = 3 := by omega
      all_goals simp [quietedByte, hat, hs, Bytes.littleEndian]
    · have hsame : ∀ b, quietedByte data [start] (start + i) b = b := by
        intro b
        simp [quietedByte, hat, hs]
      rw [Single.quieted, if_neg hs, hbits, funext hsame, Option.map_id']

/-! ### Reading and then writing -/

namespace PushType

/-- A float is read exactly from four bytes, as the single with their pattern. -/
theorem read_float_eq_some_iff {bytes rest : Bytes} {v : Scalar} :
  read float bytes = some (v, rest)
    ↔ ∃ n, n < 2 ^ 32 ∧ bytes = Bytes.littleEndian 4 n ++ rest
      ∧ .double (.ofSingle ⟨UInt32.ofNat n⟩) = v
  := by
  simp only [read, Reader.map_eq_some_iff, Reader.number_eq_some_iff, and_assoc]
  rfl

/-- A single is written as its own pattern, up to the quiet bit of a NaN. -/
theorem write_float (x : Single) :
  write float (.double (.ofSingle x)) = .ok (Bytes.littleEndian 4 x.quieted.bits.toNat)
  := by
  simp only [write, Value.toSingle, Scalar.toSingle, Scalar.toDouble, Except.bind, bind,
    Double.toSingle?_ofSingle, Except.map]

/-- Swapping the two words of eight bytes twice gives them back. -/
theorem swapWords_swapWords {bytes : Bytes} (h : bytes.length = 8) :
  swapWords (swapWords bytes) = bytes
  := by
  have hlen : (bytes.drop 4).length = 4 := by simp [h]
  simp only [swapWords, List.drop_left' hlen, List.take_left' hlen, List.take_append_drop]

theorem length_swapWords (bytes : Bytes) :
  (swapWords bytes).length = bytes.length
  := by
  simp only [swapWords, List.length_append, List.length_drop, List.length_take]
  omega

/-- Eight bytes are written as they were read, whatever number they make. -/
theorem write_double_of_bytes {piece : Bytes} (h : piece.length = 8) :
  write double (.double ⟨UInt64.ofNat (Bytes.ofLittleEndian (swapWords piece))⟩) = .ok piece
  := by
  have hlen : (swapWords piece).length = 8 := by rw [length_swapWords, h]
  have hlt : Bytes.ofLittleEndian (swapWords piece) < 2 ^ 64 := by
    have := Bytes.ofLittleEndian_lt (swapWords piece)
    rwa [hlen] at this
  have hbits : Bytes.littleEndian 8 (Bytes.ofLittleEndian (swapWords piece)) = swapWords piece := by
    rw [← hlen]
    apply Bytes.littleEndian_ofLittleEndian
  simp only [write, Value.toDouble, Scalar.toDouble, Except.map, UInt64.toNat_ofNat',
    Nat.mod_eq_of_lt hlt, hbits, swapWords_swapWords h]

/-- A value of a type of one byte is written as the byte it was read from. -/
theorem write_of_toInt {t : PushType} (ht : t = register ∨ t = boolean ∨ t = constant8)
    {v : Scalar} {b : UInt8} (hv : v.toInt = .ok b.toNat) :
  t.write (.scalar v) = .ok [b]
  := by
  have hbyte : Scalar.fitInt 8 false b.toNat = .ok b.toNat := Scalar.fitInt_natCast b.toNat_lt
  obtain rfl | rfl | rfl := ht <;>
    simp [write, Value.toInt, hv, bind, Except.bind, hbyte]

/-- A value of any type but that of 32-bit numbers is written as the bytes it was read from. -/
theorem write_of_read {t : PushType} (ht : t ≠ float) {bytes rest : Bytes} {v : Scalar}
    (h : t.read bytes = some (v, rest)) :
  ∃ piece, bytes = piece ++ rest ∧ t.write (.scalar v) = .ok piece
  := by
  cases t with
  | float => exact absurd rfl ht
  | string =>
    obtain ⟨t, ht, rfl⟩ := Reader.map_eq_some_iff.mp h
    obtain ⟨piece, hp, rfl⟩ := Reader.text_eq_some_iff.mp ht
    exact ⟨piece, rfl, hp.terminatedText⟩
  | null =>
    obtain ⟨-, rfl⟩ := Reader.pure_eq_some_iff.mp h
    exact ⟨[], rfl, rfl⟩
  | undefined =>
    obtain ⟨-, rfl⟩ := Reader.pure_eq_some_iff.mp h
    exact ⟨[], rfl, rfl⟩
  | register =>
    obtain ⟨n, hn, rfl⟩ := Reader.map_eq_some_iff.mp h
    obtain ⟨b, rfl, rfl⟩ := Reader.ui8_eq_some_iff.mp hn
    exact ⟨[b], rfl, write_of_toInt (.inl rfl) rfl⟩
  | boolean =>
    obtain ⟨n, hn, rfl⟩ := Reader.map_eq_some_iff.mp h
    obtain ⟨b, rfl, rfl⟩ := Reader.ui8_eq_some_iff.mp hn
    refine ⟨[b], rfl, write_of_toInt (.inr (.inl rfl)) ?_⟩
    split
    · rename_i hlt
      obtain h0 | h1 : b.toNat = 0 ∨ b.toNat = 1 := by omega
      · simp [h0, Scalar.toInt, Scalar.number]
      · simp [h1, Scalar.toInt, Scalar.number]
    · rfl
  | double =>
    obtain ⟨piece, hp, rfl⟩ := Reader.map_eq_some_iff.mp h
    obtain ⟨hlen, rfl⟩ := Reader.take_eq_some_iff.mp hp
    exact ⟨piece, rfl, write_double_of_bytes hlen⟩
  | integer =>
    obtain ⟨n, hn, rfl⟩ := Reader.map_eq_some_iff.mp h
    obtain ⟨bits, hbits, rfl⟩ := Reader.si32_eq_some_iff.mp hn
    refine ⟨_, rfl, ?_⟩
    simp [write, Value.fit, Scalar.fit, hbits, Except.map]
  | constant8 =>
    obtain ⟨n, hn, rfl⟩ := Reader.map_eq_some_iff.mp h
    obtain ⟨b, rfl, rfl⟩ := Reader.ui8_eq_some_iff.mp hn
    exact ⟨[b], rfl, write_of_toInt (.inr (.inr rfl)) rfl⟩
  | constant16 =>
    obtain ⟨n, hn, rfl⟩ := Reader.map_eq_some_iff.mp h
    obtain ⟨hlt, rfl⟩ := Reader.ui16_eq_some_iff.mp hn
    refine ⟨_, rfl, ?_⟩
    simp [write, Value.fit, Scalar.fit, Scalar.fitInt_natCast hlt, Except.map]

end PushType

namespace PushValue

theorem pushBytes_toValue (v : PushValue) :
  v.toValue.pushBytes = v.write
  := rfl

/-- A push value is written exactly when its value is, behind the number of its type. -/
theorem write_eq_ok_iff {v : PushValue} {bytes : Bytes} :
  v.write = .ok bytes
    ↔ ∃ piece, v.type.write v.value = .ok piece ∧ bytes = UInt8.ofNat v.type.number :: piece
  := by
  simp only [write, map_eq_ok_iff, @eq_comm _ bytes]

/-- A type found under a byte has that byte for its number. -/
theorem number_of_ofNumber? {b : UInt8} {t : PushType} (h : PushType.ofNumber? b.toNat = some t) :
  UInt8.ofNat t.number = b
  := by
  have hnumber : ∀ (n : Nat) (t : PushType), PushType.all[n]? = some t → t.number = n := by
    intro n t hn
    match n, hn with
    | 0, hn | 1, hn | 2, hn | 3, hn | 4, hn | 5, hn | 6, hn | 7, hn | 8, hn | 9, hn =>
      obtain rfl := Option.some.inj hn
      rfl
  rw [hnumber _ _ h, UInt8.ofNat_toNat]

/-- The floats of a push are those of its first value and those of the rest, which begins behind
it. -/
theorem pushFloatOffsets_cons {v : PushValue} {out : Bytes} (h : v.write = .ok out)
    (vs : List Value) (start : Nat) :
  pushFloatOffsets (v.toValue :: vs) start
    = pushFloatOffsets [v.toValue] start ++ pushFloatOffsets vs (start + out.length)
  := by
  simp only [pushFloatOffsets, pushBytes_toValue, h, Except.toOption, Option.getD_some,
    List.append_nil]

/-- Only a value of the float type is a float. -/
theorem pushFloatOffsets_of_ne_float {v : PushValue} (h : v.type ≠ .float) (start : Nat) :
  pushFloatOffsets [v.toValue] start = []
  := by
  obtain ⟨value, type⟩ := v
  cases type with
  | float => exact absurd rfl h
  | _ => rfl

/-- A value that was read at a place of the data is written as the bytes that stand there, up to
the quiet bit of a number of 32 bits. -/
theorem exists_write_of_read {data bytes rest tail : Bytes} {start : Nat} {b : UInt8}
    {t : PushType} {v : Scalar} (ht : PushType.ofNumber? b.toNat = some t)
    (h : t.read bytes = some (v, rest)) (hdata : data.drop start = b :: bytes ++ tail) :
  ∃ front out, b :: bytes = front ++ rest ∧ front.length = out.length
    ∧ write ⟨.scalar v, t⟩ = .ok out
    ∧ Requieted data (pushFloatOffsets [toValue ⟨.scalar v, t⟩] start) start out
  := by
  have hnumber := number_of_ofNumber? ht
  by_cases hfloat : t = .float
  · subst hfloat
    obtain ⟨n, hn, rfl, rfl⟩ := PushType.read_float_eq_some_iff.mp h
    have hraw : Requieted data [] start [b] := .raw _ hdata
    have hdata' : data.drop (start + 1) = Bytes.littleEndian 4 n ++ (rest ++ tail) := by
      have hfirst : data.drop start = [b] ++ (Bytes.littleEndian 4 n ++ (rest ++ tail)) := by
        simpa using hdata
      exact Bytes.drop_add_length hfirst
    refine ⟨b :: Bytes.littleEndian 4 n, _, rfl, ?_,
      write_eq_ok_iff.mpr ⟨_, PushType.write_float _, rfl⟩, ?_⟩
    · simp
    · rw [hnumber]
      apply hraw.append (Requieted.single hn hdata')
  · obtain ⟨piece, rfl, hpiece⟩ := PushType.write_of_read hfloat h
    refine ⟨b :: piece, b :: piece, rfl, rfl, ?_, ?_⟩
    · exact write_eq_ok_iff.mpr ⟨piece, hpiece, by rw [hnumber]⟩
    · rw [pushFloatOffsets_of_ne_float hfloat]
      apply Requieted.raw (rest ++ tail)
      rw [hdata]
      simp

/-- Values that were read at a place of the data are written as the bytes that stand there, up to
the quiet bits of numbers of 32 bits. -/
theorem exists_each_of_readFrom {more : Nat} {done vs : List PushValue}
    {data bytes rest tail : Bytes} {start : Nat} (h : readFrom more done bytes = some (vs, rest))
    (hdata : data.drop start = bytes ++ tail) :
  ∃ new front out, vs = done.reverse ++ new ∧ bytes = front ++ rest ∧ front.length = out.length
    ∧ Operands.each Value.pushBytes (new.map toValue) = .ok out
    ∧ Requieted data (pushFloatOffsets (new.map toValue) start) start out
  := by
  induction more generalizing done bytes start with
  | zero =>
    obtain ⟨rfl, rfl⟩ := Reader.pure_eq_some_iff.mp h
    exact ⟨[], [], [], by simp, rfl, rfl, rfl, .raw (bytes ++ tail) hdata⟩
  | succ more ih =>
    cases bytes with
    | nil =>
      obtain ⟨rfl, rfl⟩ := Prod.mk.inj (Option.some.inj h)
      exact ⟨[], [], [], by simp, rfl, rfl, rfl, .raw tail hdata⟩
    | cons b bytes =>
      simp only [readFrom] at h
      cases ht : PushType.ofNumber? b.toNat with
      | none =>
        rw [ht] at h
        obtain ⟨rfl, rfl⟩ := Prod.mk.inj (Option.some.inj h)
        exact ⟨[], [], [], by simp, rfl, rfl, rfl, .raw (b :: bytes ++ tail) hdata⟩
      | some t =>
        rw [ht] at h
        obtain ⟨⟨v, mid⟩, hv, hmore⟩ := Option.bind_eq_some_iff.mp h
        obtain ⟨front, out, hsplit, hlen, hout, hq⟩ := exists_write_of_read ht hv hdata
        have hdata' : data.drop (start + out.length) = mid ++ tail := by
          rw [← hlen]
          apply Bytes.drop_add_length
          rw [hdata, hsplit, List.append_assoc]
        obtain ⟨new, front', out', rfl, rfl, hlen', heach, hq'⟩ := ih hmore hdata'
        refine ⟨⟨.scalar v, t⟩ :: new, front ++ front', out ++ out', by simp, ?_, ?_, ?_, ?_⟩
        · rw [hsplit, List.append_assoc]
        · rw [List.length_append, List.length_append, hlen, hlen']
        · exact Operands.each_cons_eq_ok_iff.mpr ⟨out, out', hout, heach, rfl⟩
        · rw [List.map_cons, pushFloatOffsets_cons hout]
          apply hq.append hq'

end PushValue

end ActionBlock
