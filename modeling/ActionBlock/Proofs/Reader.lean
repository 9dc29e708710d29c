import ActionBlock.Proofs.Bytes
import ActionBlock.Proofs.Utf8
import ActionBlock.Reader
import Mathlib.Data.List.Forall2
import Mathlib.Data.List.TakeDrop
import Mathlib.Data.List.TakeWhile

/-!
# What readers accept

For each reader, the byte strings off which it takes a value: a reader succeeds exactly on the
spellings of its values followed by anything, and leaves what follows. A text is spelled by bytes
other than zero and a zero byte; the bytes are those that writing the text gives.
-/

namespace ActionBlock

namespace Scalar

/-- A text read from bytes other than zero is written as these bytes and a zero byte. -/
theorem terminatedText_decode {b : Bytes} (h : (0 : UInt8) ∉ b) :
  terminatedText (Utf8.decode b) = .ok (b ++ [0])
  := by
  simp [terminatedText, Utf8.encode_decode, terminated, h]

/-- A text that is written ends with the only zero byte. -/
theorem terminatedText_eq_ok_iff {t : Text} {bytes : Bytes} :
  terminatedText t = .ok bytes
    ↔ ∃ b, Utf8.encode t = .ok b ∧ (0 : UInt8) ∉ b ∧ bytes = b ++ [0]
  := by
  simp only [terminatedText]
  cases Utf8.encode t with
  | error run => simp
  | ok b =>
    simp only [terminated, List.contains_iff_mem]
    split
    · rename_i h
      simp [h]
    · rename_i h
      simp [h, eq_comm]

end Scalar

namespace Reader

variable {α β : Type}

/-! ### Sequences of readers -/

/-- A sequence reads exactly what its parts read in turn. -/
theorem bind_eq_some_iff {r : Reader α} {f : α → Reader β} {bytes rest : Bytes} {b : β} :
  (r >>= f) bytes = some (b, rest)
    ↔ ∃ a mid, r bytes = some (a, mid) ∧ f a mid = some (b, rest)
  := by
  change (r bytes).bind (fun p => f p.1 p.2) = some (b, rest) ↔ _
  simp [Option.bind_eq_some_iff]

theorem map_eq_some_iff {r : Reader α} {g : α → β} {bytes rest : Bytes} {b : β} :
  (g <$> r) bytes = some (b, rest) ↔ ∃ a, r bytes = some (a, rest) ∧ g a = b
  := by
  change (r bytes).bind (fun p => some (g p.1, p.2)) = some (b, rest) ↔ _
  simp only [Option.bind_eq_some_iff, Option.some.injEq, Prod.mk.injEq, Prod.exists]
  constructor
  · rintro ⟨a, _, hr, hg, rfl⟩
    exact ⟨a, hr, hg⟩
  · rintro ⟨a, hr, hg⟩
    exact ⟨a, rest, hr, hg, rfl⟩

theorem pure_eq_some_iff {a b : α} {bytes rest : Bytes} :
  (pure a : Reader α) bytes = some (b, rest) ↔ a = b ∧ bytes = rest
  := by
  change some (a, bytes) = some (b, rest) ↔ _
  simp

/-! ### Numbers -/

theorem byte_eq_some_iff {bytes rest : Bytes} {b : UInt8} :
  byte bytes = some (b, rest) ↔ bytes = b :: rest
  := by
  cases bytes <;> simp [byte]

theorem ui8_eq_some_iff {bytes rest : Bytes} {n : Nat} :
  ui8 bytes = some (n, rest) ↔ ∃ b : UInt8, bytes = b :: rest ∧ b.toNat = n
  := by
  simp only [ui8, map_eq_some_iff, byte_eq_some_iff]

/-- Bytes are taken exactly from a front of that length. -/
theorem take_eq_some_iff {n : Nat} {bytes front rest : Bytes} :
  take n bytes = some (front, rest) ↔ front.length = n ∧ bytes = front ++ rest
  := Bytes.splitExact_eq_some_iff

/-- A number is read exactly from its little-endian bytes. -/
theorem number_eq_some_iff {width n : Nat} {bytes rest : Bytes} :
  number width bytes = some (n, rest)
    ↔ n < 256 ^ width ∧ bytes = Bytes.littleEndian width n ++ rest
  := by
  simp only [number, map_eq_some_iff, take_eq_some_iff]
  constructor
  · rintro ⟨front, ⟨rfl, rfl⟩, rfl⟩
    exact ⟨Bytes.ofLittleEndian_lt front, by rw [Bytes.littleEndian_ofLittleEndian]⟩
  · rintro ⟨hn, rfl⟩
    exact ⟨_, ⟨Bytes.length_littleEndian width n, rfl⟩, Bytes.ofLittleEndian_littleEndian hn⟩

theorem ui16_eq_some_iff {n : Nat} {bytes rest : Bytes} :
  ui16 bytes = some (n, rest) ↔ n < 2 ^ 16 ∧ bytes = Bytes.littleEndian 2 n ++ rest
  := number_eq_some_iff

/-- A signed number is spelled by its remainder, as a field for signed numbers holds it. -/
theorem signed_eq_some_iff {width : Nat} (hwidth : 0 < width) {n : Int} {bytes rest : Bytes} :
  (Bytes.toSigned (8 * width) <$> number width) bytes = some (n, rest)
    ↔ ∃ bits, Scalar.fitInt (8 * width) true n = .ok bits
      ∧ bytes = Bytes.littleEndian width bits ++ rest
  := by
  have hpow : 256 ^ width = 2 ^ (8 * width) := by rw [pow_mul]; rfl
  simp only [map_eq_some_iff, number_eq_some_iff, Scalar.fitInt_eq_ok_iff, Scalar.fieldRange,
    if_true, hpow]
  constructor
  · rintro ⟨m, ⟨hm, rfl⟩, rfl⟩
    obtain ⟨hlow, hhigh⟩ := Bytes.toSigned_range (by omega) hm
    exact ⟨m, ⟨hlow, hhigh, (Bytes.toSigned_emod hm).symm⟩, rfl⟩
  · rintro ⟨_, ⟨hlow, hhigh, rfl⟩, rfl⟩
    refine ⟨_, ⟨?_, rfl⟩, Bytes.toSigned_of_range (by omega) hlow hhigh⟩
    have hpos : (0 : Int) < 2 ^ (8 * width) := by positivity
    have hlt := Int.emod_lt_of_pos n hpos
    have hnn := Int.emod_nonneg n hpos.ne'
    zify
    omega

/-- A signed number is read exactly from the two bytes it fits into. -/
theorem si16_eq_some_iff {n : Int} {bytes rest : Bytes} :
  si16 bytes = some (n, rest)
    ↔ ∃ bits, Scalar.fitInt 16 true n = .ok bits ∧ bytes = Bytes.littleEndian 2 bits ++ rest
  := signed_eq_some_iff (by decide)

/-- A signed number is read exactly from the four bytes it fits into. -/
theorem si32_eq_some_iff {n : Int} {bytes rest : Bytes} :
  si32 bytes = some (n, rest)
    ↔ ∃ bits, Scalar.fitInt 32 true n = .ok bits ∧ bytes = Bytes.littleEndian 4 bits ++ rest
  := signed_eq_some_iff (by decide)

/-! ### Texts -/

/-- Bytes without a zero end at the first zero behind them. -/
theorem span_ne_zero {b : Bytes} (h : (0 : UInt8) ∉ b) (rest : Bytes) :
  (b ++ 0 :: rest).span (· ≠ 0) = (b, 0 :: rest)
  := by
  have hb : ∀ x ∈ b, decide (x ≠ 0) = true := by
    rintro x hx
    apply decide_eq_true
    rintro rfl
    apply h hx
  rw [List.span_eq_takeWhile_dropWhile, List.takeWhile_append_of_pos hb,
    List.dropWhile_append_of_pos hb]
  simp

/-- The bytes that spell a text: some other than zero that are read as it, and a zero byte. -/
def Spells (t : Text) (piece : Bytes) : Prop :=
  ∃ b, (0 : UInt8) ∉ b ∧ Utf8.decode b = t ∧ piece = b ++ [0]

/-- A text is read exactly from the bytes that spell it. -/
theorem text_eq_some_iff {t : Text} {bytes rest : Bytes} :
  text bytes = some (t, rest) ↔ ∃ piece, Spells t piece ∧ bytes = piece ++ rest
  := by
  constructor
  · intro h
    have hsplit :=
      List.takeWhile_append_dropWhile (p := fun x : UInt8 => decide (x ≠ 0)) (l := bytes)
    simp only [text, List.span_eq_takeWhile_dropWhile] at h
    split at h
    · cases h
    · rename_i front z tail heq
      obtain ⟨rfl, hdrop⟩ := Prod.mk.inj heq
      obtain ⟨rfl, rfl⟩ := Prod.mk.inj (Option.some.inj h)
      have hz : z = 0 := by
        have := List.head?_dropWhile_not (fun x : UInt8 => decide (x ≠ 0)) bytes
        rw [hdrop] at this
        simpa using this
      refine ⟨_, ⟨_, ?_, rfl, rfl⟩, ?_⟩
      · intro hmem
        have := List.mem_takeWhile_imp hmem
        simp at this
      · rw [hdrop, hz] at hsplit
        rw [List.append_assoc]
        apply hsplit.symm
  · rintro ⟨_, ⟨b, hb, rfl, rfl⟩, rfl⟩
    rw [List.append_assoc, List.singleton_append, text, span_ne_zero hb]

/-- What spells a text is what is written for it. -/
theorem Spells.terminatedText {t : Text} {piece : Bytes} (h : Spells t piece) :
  Scalar.terminatedText t = .ok piece
  := by
  obtain ⟨b, hb, rfl, rfl⟩ := h
  apply Scalar.terminatedText_decode hb

/-! ### Repetition -/

/-- A repeated reader adds to what it has the pieces it reads one after another. -/
theorem timesFrom_eq_some_iff {r : Reader α} {P : α → Bytes → Prop}
    (hr : ∀ {bytes a rest}, r bytes = some (a, rest) ↔ ∃ piece, P a piece ∧ bytes = piece ++ rest)
    {n : Nat} {done xs : List α} {bytes rest : Bytes} :
  timesFrom r n done bytes = some (xs, rest)
    ↔ ∃ ys pieces, xs = done.reverse ++ ys ∧ ys.length = n ∧ List.Forall₂ P ys pieces
      ∧ bytes = pieces.flatten ++ rest
  := by
  induction n generalizing done bytes with
  | zero =>
    simp only [timesFrom, pure_eq_some_iff]
    constructor
    · rintro ⟨rfl, rfl⟩
      exact ⟨[], [], by simp⟩
    · rintro ⟨ys, pieces, rfl, hlen, hp, rfl⟩
      obtain rfl := List.length_eq_zero_iff.mp hlen
      obtain rfl := List.forall₂_nil_left_iff.mp hp
      simp
  | succ n ih =>
    simp only [timesFrom, bind_eq_some_iff, hr, ih]
    constructor
    · rintro ⟨a, _, ⟨piece, ha, rfl⟩, ys, pieces, rfl, rfl, hp, rfl⟩
      exact ⟨a :: ys, piece :: pieces, by simp, by simp, .cons ha hp, by simp⟩
    · rintro ⟨_, _, rfl, hlen, hp, rfl⟩
      cases hp with
      | nil => cases hlen
      | cons ha hp =>
        rename_i a piece ys pieces
        exact ⟨a, _, ⟨piece, ha, by simp⟩, ys, pieces, by simp, by simpa using hlen, hp, rfl⟩

/-- A repeated reader reads exactly that many pieces, one after another. -/
theorem times_eq_some_iff {r : Reader α} {P : α → Bytes → Prop}
    (hr : ∀ {bytes a rest}, r bytes = some (a, rest) ↔ ∃ piece, P a piece ∧ bytes = piece ++ rest)
    {n : Nat} {xs : List α} {bytes rest : Bytes} :
  times n r bytes = some (xs, rest)
    ↔ ∃ pieces, xs.length = n ∧ List.Forall₂ P xs pieces ∧ bytes = pieces.flatten ++ rest
  := by
  rw [times, timesFrom_eq_some_iff hr]
  constructor
  · rintro ⟨_, pieces, rfl, h⟩
    exact ⟨pieces, h⟩
  · rintro ⟨pieces, h⟩
    exact ⟨xs, pieces, rfl, h⟩

end Reader

end ActionBlock
