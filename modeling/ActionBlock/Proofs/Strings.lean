import ActionBlock.Proofs.TypedFields

/-!
# Strings keep their bytes

A string in a bit stream is bytes up to a zero byte. What is read there is a text, whatever the
bytes are, and the text is written as the bytes that it was read from. A text that is written need
not be the one that is then read, since surrogates that stand for bytes may come to spell a code
point next to each other; but both have the same bytes, and without surrogates they are the same
text.
-/

namespace ActionBlock

/-! ### Texts that can be written -/

namespace Utf8

/-- A code point is encoded without a zero exactly when it is not zero and, if it is a surrogate,
stands for an escaped byte. -/
theorem exists_encodeOne?_iff {c : CodePoint} :
  (∃ piece, encodeOne? c = some piece ∧ 0 ∉ piece)
    ↔ c.val ≠ 0 ∧ (c.isSurrogate = true → c.escapedByte?.isSome = true)
  := by
  constructor
  · rintro ⟨piece, hpiece, hzero⟩
    constructor
    · intro hc
      obtain rfl : c = 0 := Fin.ext hc
      obtain rfl : [0] = piece := Option.some.inj hpiece
      simp at hzero
    · intro hsurrogate
      rw [encodeOne?, if_pos hsurrogate] at hpiece
      obtain ⟨b, hb, -⟩ := Option.map_eq_some_iff.mp hpiece
      rw [hb, Option.isSome_some]
  · rintro ⟨hc, hescaped⟩
    have hpiece : ∃ piece, encodeOne? c = some piece := by
      rw [encodeOne?]
      split
      · rename_i hsurrogate
        obtain ⟨b, hb⟩ := Option.isSome_iff_exists.mp (hescaped hsurrogate)
        exact ⟨[b], by rw [hb, Option.map_some]⟩
      · exact ⟨_, rfl⟩
    obtain ⟨piece, hpiece⟩ := hpiece
    exact ⟨piece, hpiece, zero_notMem_of_encodeOne? hpiece hc⟩

/-- A text has bytes, and none of them zero, if it has no zero and no surrogate that does not stand
for a byte. -/
theorem exists_encode_iff {t : Text} :
  (∃ bytes, encode t = .ok bytes ∧ 0 ∉ bytes)
    ↔ ∀ c ∈ t, c.val ≠ 0 ∧ (c.isSurrogate = true → c.escapedByte?.isSome = true)
  := by
  induction t with
  | nil =>
    constructor
    · simp
    · intro _
      exact ⟨[], rfl, List.not_mem_nil⟩
  | cons c t ih =>
    rw [List.forall_mem_cons, ← ih, ← exists_encodeOne?_iff]
    constructor
    · rintro ⟨bytes, hbytes, hzero⟩
      obtain ⟨piece, rest, hpiece, hrest, rfl⟩ := encode_cons_eq_ok_iff.mp hbytes
      rw [List.mem_append, not_or] at hzero
      exact ⟨⟨piece, hpiece, hzero.1⟩, rest, hrest, hzero.2⟩
    · rintro ⟨⟨piece, hpiece, hzero⟩, rest, hrest, hzero'⟩
      use piece ++ rest, encode_cons_eq_ok_iff.mpr ⟨piece, rest, hpiece, hrest, rfl⟩
      rw [List.mem_append, not_or]
      exact ⟨hzero, hzero'⟩

end Utf8

/-! ### Strings in a stream -/

namespace BitStream

variable {s t : BitStream} {l : BitList} {text : Text}

/-- A string that was written has bytes, and none of them is zero. -/
theorem exists_encode_of_writeString (h : (writeString (.text text)).run s = (.ok (), t)) :
  ∃ b, Utf8.encode text = .ok b ∧ 0 ∉ b
  := by
  rw [writeString] at h
  cases hstring : Value.string (.text text) with
  | error fault =>
    rw [hstring] at h
    cases h
  | ok bytes =>
    obtain ⟨b, hb, hzero, -⟩ := Scalar.terminatedText_eq_ok_iff.mp hstring
    exact ⟨b, hb, hzero⟩

/-- A string with such bytes is written, also after the end of the stream. -/
theorem exists_writeString (hs : s.Holds l) {b : Bytes} (hb : Utf8.encode text = .ok b)
    (hzero : 0 ∉ b) :
  ∃ t, (writeString (.text text)).run s = (.ok (), t)
    ∧ t.Holds (l.write (bitsOfBytes (b ++ [0])))
  := by
  apply writes_writeString hb hzero s l hs
  left
  rw [bitsOfBytes_append]
  apply List.append_ne_nil_of_right_ne_nil
  decide

/-- A text is written exactly when it can be encoded and has no zero in it. -/
theorem exists_writeString_iff (hs : s.Sound) :
  (∃ t, (writeString (.text text)).run s = (.ok (), t)) ↔ ∃ b, Utf8.encode text = .ok b ∧ 0 ∉ b
  := by
  constructor
  · rintro ⟨t, h⟩
    apply exists_encode_of_writeString h
  · rintro ⟨b, hb, hzero⟩
    obtain ⟨t, h, -⟩ := exists_writeString hs.holds hb hzero
    exact ⟨t, h⟩

/-- What was written for a string is read from where the cursor was. -/
theorem run_seek_readText {b : Bytes} (hzero : 0 ∉ b)
    (ht : t.Holds (l.write (bitsOfBytes (b ++ [0])))) :
  (do seek l.cursor .start; readText).run t = (.ok (Utf8.decode b), t)
  := by
  have hseek : (seek l.cursor .start).run t = (.ok (), { t with cursor := l.cursor }) := rfl
  have hback : ({ t with cursor := l.cursor } : BitStream).Holds
      ⟨(l.write (bitsOfBytes (b ++ [0]))).bits, l.cursor⟩ := ⟨ht.length_eq, rfl, ht.bytes_eq⟩
  have hend : (l.cursor : Int) + (bitsOfBytes (b ++ [0])).length = t.cursor := by
    rw [ht.cursor_eq, ← Nat.cast_add]
    rfl
  rw [run_bind_of_ok hseek, run_readText hback hzero (drop_write l _), moved]
  dsimp only
  rw [hend]

end BitStream

open BitStream

/-- A string of any bytes that is read from one stream, and written to another or the same, is
written as these bytes, wherever in a byte the cursors are. A text can be written if it has no zero,
and no surrogate that does not stand for a byte, and only then; the text that is read where it was
written has the same bytes, and is the same text if that had no surrogates. -/
theorem strings_keep_bytes {t : BitStream} (ht : t.Sound) :
  (∀ (s : BitStream) (b : Bytes) (rest : List Bool), s.Sound → 0 ∉ b →
      s.ahead = bitsOfBytes (b ++ [0]) ++ rest →
      ∃ text t', readText.run s = (.ok text, s.moved (8 * (b.length + 1)))
        ∧ (writeString (.text text)).run t = (.ok (), t')
        ∧ t'.Holds (t.view.write (bitsOfBytes (b ++ [0]))))
    ∧ ∀ text : Text,
      ((∃ t', (writeString (.text text)).run t = (.ok (), t'))
        ↔ ∀ c ∈ text, c.val ≠ 0 ∧ (c.isSurrogate = true → c.escapedByte?.isSome = true))
      ∧ ∀ t', (writeString (.text text)).run t = (.ok (), t') →
        ∃ text', (do seek t.cursor .start; readText).run t' = (.ok text', t')
          ∧ Utf8.encode text' = Utf8.encode text
          ∧ ((∀ c ∈ text, c.isSurrogate = false) → text' = text)
  := by
  refine ⟨?_, fun text => ⟨?_, ?_⟩⟩
  · intro s b rest hs hzero hahead
    rw [hs.holds.ahead_eq] at hahead
    obtain ⟨t', hwrite, ht'⟩ := exists_writeString ht.holds (Utf8.encode_decode b) hzero
    have hread := run_readText hs.holds hzero hahead
    rw [length_bitsOfBytes, List.length_append, List.length_singleton] at hread
    exact ⟨Utf8.decode b, t', hread, hwrite, ht'⟩
  · rw [exists_writeString_iff ht, Utf8.exists_encode_iff]
  · intro t' h
    obtain ⟨b, hb, hzero⟩ := exists_encode_of_writeString h
    obtain ⟨t'', hwrite, ht'⟩ := exists_writeString ht.holds hb hzero
    obtain rfl : t' = t'' := congrArg Prod.snd (h.symm.trans hwrite)
    use Utf8.decode b
    refine ⟨?_, by rw [Utf8.encode_decode, hb], ?_⟩
    · rw [ht.holds.cursor_eq]
      apply run_seek_readText hzero ht'
    · apply Utf8.decode_of_encode hb

/-- Bytes of which some spell a code point, one belongs to none, and the last begins one that does
not end. -/
def brokenBytes : Bytes := [0xC3, 0xA9, 0xFF, 0xC3]

/-- A stream with these bytes after three bits, and the cursor between them. -/
def brokenStream : BitStream :=
  (((Operation.seek 3 .start).perform).run
    (.ofBits ([true, false, true] ++ bitsOfBytes (brokenBytes ++ [0])))).2

/-- A stream of one bit, and the cursor at its end. -/
def loneBit : BitStream := ((Operation.seek 1 .start).perform.run (.ofBits [true])).2

/-- Surrogates that stand for bytes which spell a code point next to each other. -/
def splitLetter : Text := [0xDCC3, 0xDCA9]

theorem strings_keep_bytes_brokenBytes :
  brokenStream.Sound ∧ loneBit.Sound
    ∧ brokenStream.ahead = bitsOfBytes (brokenBytes ++ [0]) ++ []
    ∧ (∃ text t', readText.run brokenStream = (.ok text, brokenStream.moved 40)
      ∧ (writeString (.text text)).run loneBit = (.ok (), t')
      ∧ t'.Holds (loneBit.view.write (bitsOfBytes (brokenBytes ++ [0]))))
    ∧ ∃ t' text', (writeString (.text splitLetter)).run loneBit = (.ok (), t')
      ∧ (do seek 1 .start; readText).run t' = (.ok text', t')
      ∧ Utf8.encode text' = Utf8.encode splitLetter
  := by
  have hs : brokenStream.Sound := ((Reached.ofBits _).perform (.seek 3 .start) (by decide)).sound
  have ht : loneBit.Sound := ((Reached.ofBits _).perform (.seek 1 .start) (by decide)).sound
  have hahead : brokenStream.ahead = bitsOfBytes (brokenBytes ++ [0]) ++ [] := by decide +kernel
  obtain ⟨hbytes, htexts⟩ := strings_keep_bytes ht
  obtain ⟨hwritten, hback⟩ := htexts splitLetter
  have hletter : ∀ c ∈ splitLetter,
      c.val ≠ 0 ∧ (c.isSurrogate = true → c.escapedByte?.isSome = true) := by
    simp only [splitLetter, List.forall_mem_cons]
    exact ⟨by decide, by decide, by simp⟩
  obtain ⟨t', hwrite⟩ := hwritten.mpr hletter
  obtain ⟨text', hread, hencode, -⟩ := hback t' hwrite
  exact ⟨hs, ht, hahead, hbytes _ brokenBytes [] hs (by decide) hahead, t', text', hwrite, hread,
    hencode⟩

end ActionBlock
