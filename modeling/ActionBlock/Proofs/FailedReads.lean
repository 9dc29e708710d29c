import ActionBlock.Proofs.BitRuns

/-!
# Reads that fail

A read finds out first whether there are enough bits for it, and leaves the stream as it is if there
are not. This is so wherever the cursor is, for bits, bytes, integers and streams, and also for a
text at the start of a byte, since the end of the text is searched before anything is read.
Elsewhere a text is read byte by byte: if it has no end, the cursor is left behind the last whole
byte.
-/

namespace ActionBlock

namespace BitStream

variable {s : BitStream}

/-! ### Texts without an end -/

theorem moved_zero (s : BitStream) :
  s.moved 0 = s
  := by
  simp [moved]

/-- There are as many whole bytes ahead as the bits that are left make up. -/
theorem Backed.length_bytesOfBits_ahead (h : s.Backed) :
  (bytesOfBits s.ahead).length = (s.available / 8).toNat
  := by
  have hcursor := h.cursor_nonneg
  have havailable : s.available = s.length - s.cursor := rfl
  rw [length_bytesOfBits, h.length_ahead]
  omega

/-- If no byte ahead is zero, reading up to a zero byte takes all whole bytes and fails. -/
theorem run_readUntilZero_of_notMem (hs : s.Backed) (h : 0 ∉ bytesOfBits s.ahead) {steps : Nat}
    (hsteps : (bytesOfBits s.ahead).length < steps) (done : Bytes) :
  (readUntilZero steps done).run s
    = (.error .pastEnd, s.moved (8 * (bytesOfBits s.ahead).length : Nat))
  := by
  induction steps generalizing s done with
  | zero => cases hsteps
  | succ steps ih =>
    have hcursor := hs.cursor_nonneg
    have hlength := hs.length_ahead
    by_cases hshort : s.ahead.length < 8
    · rw [bytesOfBits_of_short hshort, readUntilZero,
        run_bind_of_error (reads_readByte.run_of_lt hs (by omega))]
      exact congrArg _ (moved_zero s).symm
    · have hcons := bytesOfBits_eq_cons (not_lt.mp hshort)
      rw [hcons, List.mem_cons, not_or] at h
      rw [hcons, List.length_cons] at hsteps
      obtain ⟨hfirst, hrest⟩ := h
      rw [← hs.ahead_moved] at hrest hsteps
      rw [readUntilZero, run_bind_of_ok (reads_readByte.run_of_le hs (by omega)),
        if_neg (Ne.symm hfirst), ih (hs.moved 8) hrest (by omega), moved_moved, hcons,
        List.length_cons, ← hs.ahead_moved]
      congr 2
      push_cast
      ring

/-- If no byte ahead of a cursor at the start of a byte is zero, none is found. -/
theorem findZero?_eq_none (hs : s.Backed) {c : Nat} (hc : s.cursor = 8 * c)
    (h : 0 ∉ bytesOfBits s.ahead) :
  findZero? s.bytes (sliceEnd s.bytes.length (s.cursor / 8)) (s.length / 8) = none
  := by
  have hstart : s.cursor / 8 = c := by omega
  rw [hs.bytesOfBits_ahead hc] at h
  rw [findZero?, Option.map_eq_none_iff, List.findIdx?_eq_none_iff, hstart, List.drop_take]
  intro b hb
  by_cases hinside : c ≤ s.bytes.length
  · rw [sliceEnd_natCast hinside] at hb
    exact decide_eq_false (ne_of_mem_of_not_mem hb h)
  · have hindex : sliceEnd s.bytes.length c = s.bytes.length := by
      rw [sliceEnd, if_neg (by omega)]
      omega
    rw [hindex, List.drop_length, List.take_nil] at hb
    cases hb

/-- Reading a text that has no end fails. At the start of a byte the cursor stays, and elsewhere it
is moved behind the last whole byte. -/
theorem run_readText_of_notMem (hs : s.Backed) (h : 0 ∉ bytesOfBits s.ahead) :
  readText.run s
    = (.error .pastEnd, if s.isAligned then s else s.moved (8 * (s.available / 8).toNat : Nat))
  := by
  rw [readText, run_bind_of_ok run_get]
  by_cases haligned : s.isAligned
  · obtain ⟨c, hc⟩ := exists_of_isAligned hs haligned
    rw [if_pos haligned, if_pos haligned]
    dsimp only
    rw [findZero?_eq_none hs hc h]
    rfl
  · have hcount := hs.length_bytesOfBits_ahead
    rw [if_neg haligned, if_neg haligned,
      run_bind_of_error (run_readUntilZero_of_notMem hs h (by omega) []), hcount]

/-! ### Operations that read -/

namespace Operation

variable {α : Type}

/-- Whether an operation reads bits, bytes, an integer, a text or a stream, as many as it is given
by a number that is not negative. -/
def IsRead : Operation α → Prop
  | readBit | readByte | readText => True
  | readBits n | readBytes n | readStream n => 0 ≤ n
  | readInt width _ _ => 0 ≤ width
  | _ => False

/-- Whether an operation reads a text. -/
def IsText : Operation α → Prop
  | readText => True
  | _ => False

end Operation

/-- An operation that takes a number of bits leaves the stream as it is if it fails. -/
theorem Reads.eq_of_error {α : Type} {op : BitOp α} {n : Nat} {f : List Bool → α} {fault : Fault}
    (h : Reads op n f) (hs : s.Backed) (herror : (op.run s).1 = .error fault) :
  (op.run s).2 = s
  := by
  rw [h s hs] at herror ⊢
  split at herror
  · rw [if_pos ‹_›]
  · cases herror

/-- An integer that cannot be read leaves the stream as it was. -/
theorem readInt_eq_of_error {width : Nat} {signed : Bool} {order : ByteOrder} {fault : Fault}
    (hs : s.Backed) (herror : ((readInt width signed order).run s).1 = .error fault) :
  ((readInt width signed order).run s).2 = s
  := by
  by_cases h : order = .little → 8 ∣ width
  · exact (reads_readInt h signed).eq_of_error hs herror
  · -- The width is found to be no number of bytes before anything is read.
    obtain ⟨rfl, hwidth⟩ := Classical.not_imp.mp h
    have huneven : (width : Int) % 8 ≠ 0 := by omega
    simp only [readInt, if_pos huneven]
    rfl

/-- A text that cannot be read has no end. -/
theorem run_readText_of_error {fault : Fault} (hs : s.Backed)
    (herror : (readText.run s).1 = .error fault) :
  readText.run s
    = (.error .pastEnd, if s.isAligned then s else s.moved (8 * (s.available / 8).toNat : Nat))
  := by
  apply run_readText_of_notMem hs
  intro hzero
  obtain ⟨k, hk⟩ := Option.isSome_iff_exists.mp (List.isSome_idxOf?.mpr hzero)
  rw [run_readText_of_idxOf? hs hk] at herror
  cases herror

/-- Every operation that reads, but for a text, leaves the stream as it is if it fails. -/
theorem Operation.eq_of_error {α : Type} {op : Operation α} {fault : Fault} (hop : op.IsRead)
    (htext : ¬ op.IsText) (hs : s.Backed) (herror : (op.perform.run s).1 = .error fault) :
  (op.perform.run s).2 = s
  := by
  cases op with
  | readBit => exact reads_readBit.eq_of_error hs herror
  | readBits n =>
    obtain ⟨n, rfl⟩ := Int.eq_ofNat_of_zero_le hop
    exact (reads_readBits n).eq_of_error hs herror
  | readByte => exact reads_readByte.eq_of_error hs herror
  | readBytes n =>
    obtain ⟨n, rfl⟩ := Int.eq_ofNat_of_zero_le hop
    exact (reads_readBytes n).eq_of_error hs herror
  | readInt width signed order =>
    obtain ⟨width, rfl⟩ := Int.eq_ofNat_of_zero_le hop
    exact readInt_eq_of_error hs herror
  | readText => exact absurd trivial htext
  | readStream n =>
    obtain ⟨n, rfl⟩ := Int.eq_ofNat_of_zero_le hop
    exact (reads_readStream n).eq_of_error hs herror
  | _ => cases hop

end BitStream

/-! ### The theorem -/

open BitStream

/-- An operation that reads leaves the stream as it is if it fails, at any cursor that is not before
the start, unless it reads a text from inside of a byte. Then the contents stay, and the cursor is
moved over the whole bytes that are left. The bytes of a stream hold all of its bits after any run
of operations. -/
theorem failed_reads_stay {α : Type} (op : Operation α) (hop : op.IsRead) (s : BitStream) :
  (s.Reached → s.Backed)
    ∧ (s.Backed → ∀ fault : Fault, (op.perform.run s).1 = .error fault →
      (¬ (op.IsText ∧ s.isAligned = false) → (op.perform.run s).2 = s)
        ∧ (op.IsText → s.isAligned = false →
          (op.perform.run s).2 = { s with cursor := s.cursor + 8 * max 0 (s.available / 8) }))
  := by
  refine ⟨fun hs => hs.sound.holds.backed, ?_⟩
  intro hs fault herror
  by_cases htext : op.IsText
  · cases op with
    | readText =>
      have hrun := run_readText_of_error hs herror
      rw [Operation.perform, hrun]
      cases haligned : s.isAligned with
      | true => exact ⟨fun _ => rfl, fun _ h => by cases h⟩
      | false =>
        refine ⟨fun h => absurd ⟨htext, rfl⟩ h, fun _ _ => ?_⟩
        have hcount :
            ((8 * (s.available / 8).toNat : Nat) : Int) = 8 * max 0 (s.available / 8) := by
          omega
        rw [← hcount]
        rfl
    | _ => cases htext
  · exact ⟨fun _ => Operation.eq_of_error hop htext hs herror, fun h => absurd h htext⟩

/-- The stream of two bytes without a zero bit, with the cursor inside of the first. -/
def insideOnes : BitStream := ((Operation.seek 4 .start).perform.run (.ofBytes [0xFF, 0xFF])).2

/-- A text that is read from inside of a byte and has no end moves the cursor, though it fails. -/
theorem cursor_readText_insideOnes :
  insideOnes.Reached ∧ insideOnes.cursor = 4 ∧ Operation.readText.IsRead
    ∧ (Operation.readText.perform.run insideOnes).1 = .error .pastEnd
    ∧ (Operation.readText.perform.run insideOnes).2.cursor = 12
  := ⟨(Reached.ofBytes [0xFF, 0xFF]).perform (.seek 4 .start) (by decide), rfl, trivial, by decide,
    by decide⟩

/-- An integer that is too long leaves the cursor inside of a byte, a text moves it. -/
theorem failed_reads_stay_insideOnes :
  insideOnes.Backed ∧ (Operation.readInt 16 true .little).IsRead
    ∧ ((Operation.readInt 16 true .little).perform.run insideOnes) = (.error .pastEnd, insideOnes)
    ∧ (Operation.readText.perform.run insideOnes).2 = { insideOnes with cursor := 12 }
  := by
  have hint : (Operation.readInt 16 true .little).IsRead := show (0 : Int) ≤ 16 by decide
  obtain ⟨hbacked, hstays⟩ := failed_reads_stay _ hint insideOnes
  have hbacked : insideOnes.Backed :=
    hbacked ((Reached.ofBytes [0xFF, 0xFF]).perform (.seek 4 .start) (by decide))
  have herror : ((Operation.readInt 16 true .little).perform.run insideOnes).1
      = .error .pastEnd := by
    decide
  refine ⟨hbacked, hint, Prod.ext herror ((hstays hbacked _ herror).1 fun h => h.1), ?_⟩
  obtain ⟨-, hmoves⟩ := failed_reads_stay .readText trivial insideOnes
  exact (hmoves hbacked .pastEnd (by decide)).2 trivial (by decide)

end ActionBlock
