import ActionBlock.Proofs.Bytes
import ActionBlock.Text.Utf8
import Mathlib.Tactic.Ring

/-!
# Escaped bytes come back

Writing the code points that were read from a byte string gives the byte string back, whatever
its bytes are: a well-formed sequence is the shortest one for its code point, and a byte that
belongs to none is read as the surrogate that stands for it. Reading what was written for code
points gives them back if none of them is a surrogate.
-/

namespace ActionBlock.Utf8

/-! ### One code point -/

theorem val_ofNat_codePoint {n : Nat} (h : n < 0x110000) :
  (Fin.ofNat 0x110000 n).val = n
  := Nat.mod_eq_of_lt h

/-- A code point that is no surrogate has an encoding. -/
theorem encodeOne?_of_scalar {c : CodePoint} (h : c.val < 0xD800 ∨ 0xDFFF < c.val) :
  encodeOne? c = some (encodeScalar c)
  := by
  have hs : c.isSurrogate = false := by
    simp only [CodePoint.isSurrogate, Bool.and_eq_false_iff, decide_eq_false_iff_not]
    omega
  simp [encodeOne?, hs]

/-- An escaped byte is encoded as that byte. -/
theorem encodeOne?_ofEscapedByte {a : UInt8} (h : ¬ a < 0x80) :
  encodeOne? (CodePoint.ofEscapedByte a) = some [a]
  := by
  have ha := a.toNat_lt
  have hlow : 0x80 ≤ a.toNat := by
    simpa [UInt8.lt_iff_toNat_lt] using h
  have hval : (CodePoint.ofEscapedByte a).val = 0xDC00 + a.toNat :=
    val_ofNat_codePoint (by omega)
  have hs : (CodePoint.ofEscapedByte a).isSurrogate = true := by
    simp only [CodePoint.isSurrogate, hval, Bool.and_eq_true, decide_eq_true_eq]
    omega
  have hrange : 0xDC80 ≤ 0xDC00 + a.toNat ∧ 0xDC00 + a.toNat ≤ 0xDCFF := by omega
  simp [encodeOne?, hs, CodePoint.escapedByte?, hval, hrange]

theorem encodeOne?_ascii {a : UInt8} (h : a < 0x80) :
  encodeOne? (Fin.ofNat _ a.toNat) = some [a]
  := by
  have hlow : a.toNat < 0x80 := UInt8.lt_iff_toNat_lt.mp h
  have hval : (Fin.ofNat 0x110000 a.toNat).val = a.toNat := val_ofNat_codePoint (by omega)
  rw [encodeOne?_of_scalar (by omega), encodeScalar, hval, if_pos hlow, UInt8.ofNat_toNat]

theorem isContinuation_iff {b : UInt8} :
  isContinuation b = true ↔ 0x80 ≤ b.toNat ∧ b.toNat ≤ 0xBF
  := by
  simp [isContinuation, UInt8.le_iff_toNat_le]

/-- A continuation byte is determined by its lower six bits. -/
theorem continuation_eq {n : Nat} {b : UInt8} (hb : isContinuation b = true)
    (h : n % 64 = b.toNat % 64) :
  continuation n = b
  := by
  have hb' := isContinuation_iff.mp hb
  apply UInt8.toNat_inj.mp
  rw [continuation, UInt8.toNat_ofNat']
  omega

/-- What two bytes decode to is encoded to the same two. -/
theorem encodeOne?_of_two? {a b : UInt8} {c : CodePoint} (h : two? a b = some c) :
  encodeOne? c = some [a, b]
  := by
  simp only [two?] at h
  split at h
  · rename_i hw
    simp only [Bool.and_eq_true, decide_eq_true_eq, UInt8.le_iff_toNat_le] at hw
    obtain ⟨⟨hlow, hhigh⟩, hb⟩ := hw
    have hb' := isContinuation_iff.mp hb
    change 0xC2 ≤ a.toNat at hlow
    change a.toNat ≤ 0xDF at hhigh
    obtain rfl := Option.some.inj h
    have hval : (Fin.ofNat 0x110000 (extend (a.toNat % 32) b)).val
        = (a.toNat - 0xC0) * 64 + b.toNat % 64 := by
      rw [val_ofNat_codePoint] <;> simp only [extend] <;> omega
    rw [encodeOne?_of_scalar (by rw [hval]; omega), encodeScalar, hval,
      if_neg (by omega), if_pos (by omega), continuation_eq hb (by omega),
      Bytes.ofNat_eq (b := a) (by omega)]
  · cases h

/-- What three bytes decode to is encoded to the same three. -/
theorem encodeOne?_of_three? {a b c : UInt8} {p : CodePoint} (h : three? a b c = some p) :
  encodeOne? p = some [a, b, c]
  := by
  simp only [three?] at h
  split at h
  · rename_i hw
    simp only [Bool.and_eq_true, decide_eq_true_eq, UInt8.le_iff_toNat_le] at hw
    obtain ⟨⟨⟨hlow, hhigh⟩, hb⟩, hc⟩ := hw
    have hb' := isContinuation_iff.mp hb
    have hc' := isContinuation_iff.mp hc
    change 0xE0 ≤ a.toNat at hlow
    change a.toNat ≤ 0xEF at hhigh
    have hn : extend (extend (a.toNat % 16) b) c
        = (a.toNat - 0xE0) * 4096 + b.toNat % 64 * 64 + c.toNat % 64 := by
      simp only [extend]
      omega
    rw [hn] at h
    split at h
    · cases h
    · rename_i hrange
      obtain rfl := Option.some.inj h
      have hval := val_ofNat_codePoint
        (n := (a.toNat - 0xE0) * 4096 + b.toNat % 64 * 64 + c.toNat % 64) (by omega)
      rw [encodeOne?_of_scalar (by rw [hval]; omega), encodeScalar, hval,
        if_neg (by omega), if_neg (by omega), if_pos (by omega), continuation_eq hb (by omega),
        continuation_eq hc (by omega), Bytes.ofNat_eq (b := a) (by omega)]
  · cases h

/-- What four bytes decode to is encoded to the same four. -/
theorem encodeOne?_of_four? {a b c d : UInt8} {p : CodePoint} (h : four? a b c d = some p) :
  encodeOne? p = some [a, b, c, d]
  := by
  simp only [four?] at h
  split at h
  · rename_i hw
    simp only [Bool.and_eq_true, decide_eq_true_eq, UInt8.le_iff_toNat_le] at hw
    obtain ⟨⟨⟨⟨hlow, hhigh⟩, hb⟩, hc⟩, hd⟩ := hw
    have hb' := isContinuation_iff.mp hb
    have hc' := isContinuation_iff.mp hc
    have hd' := isContinuation_iff.mp hd
    change 0xF0 ≤ a.toNat at hlow
    change a.toNat ≤ 0xF4 at hhigh
    have hn : extend (extend (extend (a.toNat % 8) b) c) d
        = (a.toNat - 0xF0) * 262144 + b.toNat % 64 * 4096 + c.toNat % 64 * 64 + d.toNat % 64 := by
      simp only [extend]
      omega
    rw [hn] at h
    split at h
    · cases h
    · rename_i hrange
      obtain rfl := Option.some.inj h
      have hval := val_ofNat_codePoint
        (n := (a.toNat - 0xF0) * 262144 + b.toNat % 64 * 4096 + c.toNat % 64 * 64 + d.toNat % 64)
        (by omega)
      rw [encodeOne?_of_scalar (by rw [hval]; omega), encodeScalar, hval,
        if_neg (by omega), if_neg (by omega), if_neg (by omega), continuation_eq hb (by omega),
        continuation_eq hc (by omega), continuation_eq hd (by omega),
        Bytes.ofNat_eq (b := a) (by omega)]
  · cases h

/-! ### The sequence at the front -/

/-- A sequence of more than one byte is the encoding of its code point. -/
theorem encodeOne?_of_sequence? {a : UInt8} {rest : Bytes} {c : CodePoint} {more : Nat}
    (h : sequence? a rest = some (c, more)) :
  encodeOne? c = some (a :: rest.take more) ∧ more ≤ rest.length
  := by
  match rest with
  | [] => cases h
  | [b] =>
    simp only [sequence?, Option.map_eq_some_iff, Prod.mk.injEq] at h
    obtain ⟨_, htwo, rfl, rfl⟩ := h
    exact ⟨encodeOne?_of_two? htwo, by simp⟩
  | [b, c'] =>
    simp only [sequence?, Option.orElse_eq_some, Option.map_eq_some_iff, Prod.mk.injEq,
      Option.map_eq_none_iff] at h
    obtain ⟨_, htwo, rfl, rfl⟩ | ⟨-, _, hthree, rfl, rfl⟩ := h
    · exact ⟨encodeOne?_of_two? htwo, by simp⟩
    · exact ⟨encodeOne?_of_three? hthree, by simp⟩
  | b :: c' :: d :: tail =>
    simp only [sequence?, Option.orElse_eq_some, Option.map_eq_some_iff, Prod.mk.injEq,
      Option.map_eq_none_iff] at h
    obtain ⟨_, htwo, rfl, rfl⟩ | ⟨-, ⟨_, hthree, rfl, rfl⟩ | ⟨-, _, hfour, rfl, rfl⟩⟩ := h
    · exact ⟨encodeOne?_of_two? htwo, by simp⟩
    · exact ⟨encodeOne?_of_three? hthree, by simp⟩
    · exact ⟨encodeOne?_of_four? hfour, by simp⟩

/-- The code point at the front is encoded by the bytes it was read from. -/
theorem encodeOne?_front (a : UInt8) (rest : Bytes) :
  encodeOne? (front a rest).1 = some (a :: rest.take (front a rest).2)
    ∧ (front a rest).2 ≤ rest.length
  := by
  by_cases h : a < 0x80
  · simp only [front, h, if_true]
    exact ⟨encodeOne?_ascii h, Nat.zero_le _⟩
  · simp only [front, h, if_false]
    cases hs : sequence? a rest with
    | none => exact ⟨encodeOne?_ofEscapedByte h, Nat.zero_le _⟩
    | some found => exact encodeOne?_of_sequence? hs

/-! ### Whole texts -/

/-- Reading without an accumulator: what was read before stands in front. -/
theorem decodeFrom_eq (bytes : Bytes) (skip : Nat) (read : Text) :
  decodeFrom bytes skip read = read.reverse ++ decodeFrom (bytes.drop skip) 0 []
  := by
  induction bytes generalizing skip read with
  | nil => simp [decodeFrom]
  | cons a rest ih =>
    cases skip with
    | zero =>
      simp only [decodeFrom, List.drop_zero]
      rw [ih, ih _ [_]]
      simp
    | succ skip =>
      simp only [decodeFrom, List.drop_succ_cons]
      apply ih

/-- Decoding takes the code point in front and goes on behind it. -/
theorem decode_cons (a : UInt8) (rest : Bytes) :
  decode (a :: rest) = (front a rest).1 :: decode (rest.drop (front a rest).2)
  := by
  simp only [decode, decodeFrom]
  apply decodeFrom_eq

/-- Writing succeeds if every code point has an encoding, and gives the encodings end to end. -/
theorem encodeFrom_eq_ok_iff {t : Text} {position : Nat} {written bytes : Bytes} :
  encodeFrom t position written = .ok bytes
    ↔ ∃ pieces, t.mapM encodeOne? = some pieces ∧ bytes = written.reverse ++ pieces.flatten
  := by
  induction t generalizing position written with
  | nil => simp [encodeFrom, eq_comm]
  | cons c rest ih =>
    cases hc : encodeOne? c with
    | none => simp [encodeFrom, hc]
    | some piece =>
      simp only [encodeFrom, hc, ih, List.mapM_cons, Option.bind_eq_bind, Option.bind_some,
        Option.bind_eq_some_iff, List.reverse_append, List.reverse_reverse, List.append_assoc]
      constructor
      · rintro ⟨pieces, hrest, rfl⟩
        exact ⟨piece :: pieces, ⟨pieces, hrest, rfl⟩, by simp⟩
      · rintro ⟨_, ⟨pieces, hrest, ⟨⟩⟩, rfl⟩
        exact ⟨pieces, hrest, by simp⟩

/-- A text is encoded exactly when each of its code points is. -/
theorem encode_eq_ok_iff {t : Text} {bytes : Bytes} :
  encode t = .ok bytes ↔ ∃ pieces, t.mapM encodeOne? = some pieces ∧ bytes = pieces.flatten
  := by
  simp [encode, encodeFrom_eq_ok_iff]

theorem encode_cons_eq_ok_iff {c : CodePoint} {t : Text} {bytes : Bytes} :
  encode (c :: t) = .ok bytes
    ↔ ∃ piece rest, encodeOne? c = some piece ∧ encode t = .ok rest ∧ bytes = piece ++ rest
  := by
  simp only [encode_eq_ok_iff, List.mapM_cons, Option.bind_eq_bind, Option.bind_eq_some_iff]
  constructor
  · rintro ⟨_, ⟨piece, hpiece, pieces, hpieces, ⟨⟩⟩, rfl⟩
    exact ⟨piece, pieces.flatten, hpiece, ⟨pieces, hpieces, rfl⟩, rfl⟩
  · rintro ⟨piece, _, hpiece, ⟨pieces, hpieces, rfl⟩, rfl⟩
    exact ⟨piece :: pieces, ⟨piece, hpiece, pieces, hpieces, rfl⟩, rfl⟩

/-- The text of any byte string is written as that byte string. -/
theorem encode_decode (bytes : Bytes) :
  encode (decode bytes) = .ok bytes
  := by
  apply encode_eq_ok_iff.mpr
  -- A code point takes one byte at least, so the number of bytes left goes down.
  induction hn : bytes.length using Nat.strong_induction_on generalizing bytes with
  | _ n ih =>
    cases bytes with
    | nil => exact ⟨[], rfl, rfl⟩
    | cons a rest =>
      obtain ⟨hfront, hle⟩ := encodeOne?_front a rest
      have hlt : (rest.drop (front a rest).2).length < n := by
        rw [← hn, List.length_cons, List.length_drop]
        omega
      obtain ⟨pieces, hpieces, hflat⟩ := ih _ hlt (rest.drop (front a rest).2) rfl
      refine ⟨(a :: rest.take (front a rest).2) :: pieces, ?_, ?_⟩
      · rw [decode_cons, List.mapM_cons, hfront, hpieces]
        rfl
      · rw [List.flatten_cons, ← hflat, List.cons_append, List.take_append_drop]

/-! ### Zero bytes -/

theorem zero_ne_ofNat {n : Nat} (h : n % 256 ≠ 0) :
  0 ≠ UInt8.ofNat n
  := by
  intro hzero
  apply h
  rw [← UInt8.toNat_ofNat', ← hzero]
  rfl

/-- Only the code point zero has a zero byte in its encoding. -/
theorem zero_notMem_of_encodeOne? {c : CodePoint} {bytes : Bytes} (h : encodeOne? c = some bytes)
    (hc : c.val ≠ 0) :
  (0 : UInt8) ∉ bytes
  := by
  rw [encodeOne?] at h
  split at h
  · obtain ⟨b, hb, rfl⟩ := Option.map_eq_some_iff.mp h
    rw [CodePoint.escapedByte?] at hb
    split at hb
    · obtain rfl := Option.some.inj hb
      rw [List.mem_singleton]
      apply zero_ne_ofNat
      omega
    · cases hb
  · obtain rfl := Option.some.inj h
    have hlt := c.isLt
    have hcontinuation : ∀ n, 0 ≠ continuation n := fun n => zero_ne_ofNat (by omega)
    rw [encodeScalar]
    split
    · rw [List.mem_singleton]
      apply zero_ne_ofNat
      omega
    split
    · simp only [List.mem_cons, List.not_mem_nil, or_false, not_or]
      exact ⟨zero_ne_ofNat (by omega), hcontinuation _⟩
    split
    · simp only [List.mem_cons, List.not_mem_nil, or_false, not_or]
      exact ⟨zero_ne_ofNat (by omega), hcontinuation _, hcontinuation _⟩
    · simp only [List.mem_cons, List.not_mem_nil, or_false, not_or]
      exact ⟨zero_ne_ofNat (by omega), hcontinuation _, hcontinuation _, hcontinuation _⟩

/-- The bytes of a text without a zero have none. -/
theorem zero_notMem_of_encode {t : Text} {bytes : Bytes} (h : encode t = .ok bytes)
    (ht : ∀ c ∈ t, c.val ≠ 0) :
  (0 : UInt8) ∉ bytes
  := by
  induction t generalizing bytes with
  | nil =>
    obtain rfl := Except.ok.inj h
    simp
  | cons c t ih =>
    rw [List.forall_mem_cons] at ht
    obtain ⟨piece, rest, hpiece, hrest, rfl⟩ := encode_cons_eq_ok_iff.mp h
    rw [List.mem_append, not_or]
    constructor
    · apply zero_notMem_of_encodeOne? hpiece ht.1
    · apply ih hrest ht.2

/-! ### Encodings are read back -/

theorem toNat_continuation (n : Nat) :
  (continuation n).toNat = 0x80 + n % 64
  := Bytes.toNat_ofNat (by omega)

theorem ofNat_codePoint {n : Nat} {c : CodePoint} (h : n = c.val) :
  Fin.ofNat 0x110000 n = c
  := by
  apply Fin.ext
  rw [h, val_ofNat_codePoint c.isLt]

section Sequences

variable {a b b' b'' : UInt8} {c : CodePoint}

theorem two?_eq_some (hlow : 0x80 ≤ c.val) (hhigh : c.val < 0x800)
    (ha : a.toNat = 0xC0 + c.val / 64) (hb : b.toNat = 0x80 + c.val % 64) :
  two? a b = some c
  := by
  have hfirst : 0xC2 ≤ a ∧ a ≤ 0xDF := by
    rw [UInt8.le_iff_toNat_le, UInt8.le_iff_toNat_le]
    change 0xC2 ≤ a.toNat ∧ a.toNat ≤ 0xDF
    omega
  have hsecond : isContinuation b = true := isContinuation_iff.mpr (by omega)
  rw [two?, if_pos (by simp [hfirst, hsecond]), ofNat_codePoint]
  simp only [extend]
  omega

theorem two?_eq_none (ha : 0xE0 ≤ a.toNat) :
  two? a b = none
  := by
  have hfirst : ¬ a ≤ 0xDF := by
    rw [UInt8.le_iff_toNat_le]
    change ¬ a.toNat ≤ 0xDF
    omega
  simp [two?, hfirst]

theorem three?_eq_some (hlow : 0x800 ≤ c.val) (hhigh : c.val < 0x10000)
    (hscalar : c.val < 0xD800 ∨ 0xDFFF < c.val) (ha : a.toNat = 0xE0 + c.val / 4096)
    (hb : b.toNat = 0x80 + c.val / 64 % 64) (hb' : b'.toNat = 0x80 + c.val % 64) :
  three? a b b' = some c
  := by
  have hfirst : 0xE0 ≤ a ∧ a ≤ 0xEF := by
    rw [UInt8.le_iff_toNat_le, UInt8.le_iff_toNat_le]
    change 0xE0 ≤ a.toNat ∧ a.toNat ≤ 0xEF
    omega
  have hsecond : isContinuation b = true := isContinuation_iff.mpr (by omega)
  have hthird : isContinuation b' = true := isContinuation_iff.mpr (by omega)
  have hvalue : extend (extend (a.toNat % 16) b) b' = c.val := by
    simp only [extend]
    omega
  rw [three?, if_pos (by simp [hfirst, hsecond, hthird])]
  dsimp only
  rw [hvalue, if_neg (by omega), ofNat_codePoint rfl]

theorem three?_eq_none (ha : 0xF0 ≤ a.toNat) :
  three? a b b' = none
  := by
  have hfirst : ¬ a ≤ 0xEF := by
    rw [UInt8.le_iff_toNat_le]
    change ¬ a.toNat ≤ 0xEF
    omega
  simp [three?, hfirst]

theorem four?_eq_some (hlow : 0x10000 ≤ c.val) (ha : a.toNat = 0xF0 + c.val / 262144)
    (hb : b.toNat = 0x80 + c.val / 4096 % 64) (hb' : b'.toNat = 0x80 + c.val / 64 % 64)
    (hb'' : b''.toNat = 0x80 + c.val % 64) :
  four? a b b' b'' = some c
  := by
  have hlt := c.isLt
  have hfirst : 0xF0 ≤ a ∧ a ≤ 0xF4 := by
    rw [UInt8.le_iff_toNat_le, UInt8.le_iff_toNat_le]
    change 0xF0 ≤ a.toNat ∧ a.toNat ≤ 0xF4
    omega
  have hsecond : isContinuation b = true := isContinuation_iff.mpr (by omega)
  have hthird : isContinuation b' = true := isContinuation_iff.mpr (by omega)
  have hfourth : isContinuation b'' = true := isContinuation_iff.mpr (by omega)
  have hvalue : extend (extend (extend (a.toNat % 8) b) b') b'' = c.val := by
    simp only [extend]
    omega
  rw [four?, if_pos (by simp [hfirst, hsecond, hthird, hfourth])]
  dsimp only
  rw [hvalue, if_neg (by omega), ofNat_codePoint rfl]

theorem sequence?_of_two? (h : two? a b = some c) (rest : Bytes) :
  sequence? a (b :: rest) = some (c, 1)
  := by
  obtain _ | ⟨_, _ | _⟩ := rest <;> simp [sequence?, h]

theorem sequence?_of_three? (htwo : two? a b = none) (h : three? a b b' = some c) (rest : Bytes) :
  sequence? a (b :: b' :: rest) = some (c, 2)
  := by
  obtain _ | _ := rest <;> simp [sequence?, htwo, h]

/-- Four bytes are tried where neither two nor three are a sequence. -/
theorem sequence?_of_four? (htwo : two? a b = none) (hthree : three? a b b' = none)
    (h : four? a b b' b'' = some c) (rest : Bytes) :
  sequence? a (b :: b' :: b'' :: rest) = some (c, 3)
  := by
  simp [sequence?, htwo, hthree, h]

/-- A sequence of more than one byte at the front is read as its code point. -/
theorem front_of_sequence? {rest : Bytes} {more : Nat} (ha : 0x80 ≤ a.toNat)
    (h : sequence? a rest = some (c, more)) :
  front a rest = (c, more)
  := by
  have hfirst : ¬ a < 0x80 := by
    rw [UInt8.lt_iff_toNat_lt]
    change ¬ a.toNat < 0x80
    omega
  rw [front, if_neg hfirst, h, Option.getD_some]

end Sequences

/-- The encoding of a code point is read as that code point, whatever follows it. -/
theorem front_encodeScalar {c : CodePoint} (h : c.val < 0xD800 ∨ 0xDFFF < c.val) (rest : Bytes) :
  ∃ a more, encodeScalar c = a :: more ∧ front a (more ++ rest) = (c, more.length)
  := by
  have hlt := c.isLt
  rw [encodeScalar]
  split
  · rename_i hone
    have ha : (UInt8.ofNat c.val).toNat = c.val := Bytes.toNat_ofNat (by omega)
    have hfirst : UInt8.ofNat c.val < 0x80 := by
      rw [UInt8.lt_iff_toNat_lt, ha]
      exact hone
    use UInt8.ofNat c.val, [], rfl
    rw [front, if_pos hfirst, ha, ofNat_codePoint rfl, List.length_nil]
  split
  · have ha : (UInt8.ofNat (0xC0 + c.val / 64)).toNat = 0xC0 + c.val / 64 :=
      Bytes.toNat_ofNat (by omega)
    refine ⟨_, _, rfl, front_of_sequence? (by omega) (sequence?_of_two? ?_ rest)⟩
    apply two?_eq_some (by omega) (by omega) ha (toNat_continuation _)
  split
  · have ha : (UInt8.ofNat (0xE0 + c.val / 4096)).toNat = 0xE0 + c.val / 4096 :=
      Bytes.toNat_ofNat (by omega)
    refine ⟨_, _, rfl, front_of_sequence? (by omega)
      (sequence?_of_three? (two?_eq_none (by omega)) ?_ rest)⟩
    apply three?_eq_some (by omega) (by omega) h ha (toNat_continuation _) (toNat_continuation _)
  · have ha : (UInt8.ofNat (0xF0 + c.val / 262144)).toNat = 0xF0 + c.val / 262144 :=
      Bytes.toNat_ofNat (by omega)
    refine ⟨_, _, rfl, front_of_sequence? (by omega)
      (sequence?_of_four? (two?_eq_none (by omega)) (three?_eq_none (by omega)) ?_ rest)⟩
    apply four?_eq_some (by omega) ha (toNat_continuation _) (toNat_continuation _)
      (toNat_continuation _)

/-- An encoded code point is decoded in front of anything. -/
theorem decode_encodeScalar_append {c : CodePoint} (h : c.val < 0xD800 ∨ 0xDFFF < c.val)
    (rest : Bytes) :
  decode (encodeScalar c ++ rest) = c :: decode rest
  := by
  obtain ⟨a, more, hencode, hfront⟩ := front_encodeScalar h rest
  rw [hencode, List.cons_append, decode_cons, hfront, List.drop_left]

/-- A text without surrogates is read from its bytes. -/
theorem decode_of_encode {t : Text} {bytes : Bytes} (h : encode t = .ok bytes)
    (ht : ∀ c ∈ t, c.isSurrogate = false) :
  decode bytes = t
  := by
  induction t generalizing bytes with
  | nil =>
    obtain rfl := Except.ok.inj h
    rfl
  | cons c t ih =>
    rw [List.forall_mem_cons] at ht
    have hscalar : c.val < 0xD800 ∨ 0xDFFF < c.val := by
      simpa [CodePoint.isSurrogate, imp_iff_not_or] using ht.1
    obtain ⟨piece, rest, hpiece, hrest, rfl⟩ := encode_cons_eq_ok_iff.mp h
    rw [encodeOne?_of_scalar hscalar] at hpiece
    obtain rfl := Option.some.inj hpiece
    rw [decode_encodeScalar_append hscalar, ih hrest ht.2]

end ActionBlock.Utf8
