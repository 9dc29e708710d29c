import ActionBlock.Block.Decode
import ActionBlock.Proofs.Push

/-!
# Operands, read and written

Operands that a layout reads are written as the bytes they were read from, up to the quiet bits of
pushed numbers; what the layout does not read is left over.
-/

namespace ActionBlock

/-! ### Strings and parameters -/

/-- A register parameter is read exactly from its register and the bytes that spell its name. -/
theorem Reader.registerParam_eq_some_iff {bytes rest : Bytes} {v : Value} :
  registerParam bytes = some (v, rest)
    ↔ ∃ piece, (∃ (b : UInt8) (t : Text) (p : Bytes), Spells t p
        ∧ v = .param (.int b.toNat) (.text t) ∧ piece = b :: p) ∧ bytes = piece ++ rest
  := by
  simp only [registerParam, bind_eq_some_iff, ui8_eq_some_iff, text_eq_some_iff,
    pure_eq_some_iff]
  constructor
  · rintro ⟨_, _, ⟨b, rfl, rfl⟩, t, _, ⟨p, hp, rfl⟩, rfl, rfl⟩
    exact ⟨b :: p, ⟨b, t, p, hp, rfl, rfl⟩, rfl⟩
  · rintro ⟨_, ⟨b, t, p, hp, rfl, rfl⟩, rfl⟩
    exact ⟨_, _, ⟨b, rfl, rfl⟩, t, _, ⟨p, hp, rfl⟩, rfl, rfl⟩

namespace Operands

theorem string_of_spells {t : Text} {piece : Bytes} (h : Reader.Spells t piece) :
  Value.string (.text t) = .ok piece
  := h.terminatedText

/-- Texts are written one after another to the bytes that spell them. -/
theorem each_string_of_spells {ts : List Text} {pieces : List Bytes}
    (h : List.Forall₂ Reader.Spells ts pieces) :
  each Value.string (ts.map Value.text) = .ok pieces.flatten
  := by
  apply each_eq_ok_iff.mpr
  refine ⟨pieces, ?_, rfl⟩
  rw [List.forall₂_map_left_iff]
  apply h.imp
  intro t piece
  apply string_of_spells

theorem registerParamBytes_of_spells {b : UInt8} {t : Text} {piece : Bytes}
    (h : Reader.Spells t piece) :
  registerParamBytes (.param (.int b.toNat) (.text t)) = .ok (b :: piece)
  := by
  have hpair : Value.pair (.param (.int b.toNat) (.text t)) = .ok (.int b.toNat, .text t) := rfl
  simp only [registerParamBytes, bind_eq_ok_iff, hpair, both_eq_ok_iff]
  exact ⟨_, rfl, [b], piece, ui8_int_eq_ok_iff.mpr ⟨b, rfl, rfl⟩, string_of_spells h, rfl⟩

/-! ### Flags -/

theorem toNat_flag (b : UInt8) (position : Nat) :
  (b.toNat.testBit position).toNat = b.toNat / 2 ^ position % 2
  := Nat.toNat_testBit b.toNat position

theorem eq_flag_iff {flag : Bool} {b : UInt8} {position : Nat} :
  flag = b.toNat.testBit position ↔ flag.toNat = b.toNat / 2 ^ position % 2
  := by
  rw [← toNat_flag]
  generalize b.toNat.testBit position = bit
  revert flag bit
  decide

theorem fit_int_eq_ok_iff {width : Nat} {n : Int} {bits : Nat} :
  Value.fit width false (.int n) = .ok bits ↔ n = bits ∧ bits < 2 ^ width
  := Scalar.fitInt_unsigned_eq_ok_iff

theorem truth_bool (b : Bool) :
  (Value.bool b).truth = b
  := rfl

theorem packFlags_two (a b : Bool) :
  packFlags [a, b] = 2 * a.toNat + b.toNat
  := by
  simp [packFlags]

theorem packFlags_three (a b c : Bool) :
  packFlags [a, b, c] = 4 * a.toNat + 2 * b.toNat + c.toNat
  := by
  simp only [packFlags, List.foldl_cons, List.foldl_nil]
  omega

theorem packFlags_eight (a b c d e f g h : Bool) :
  packFlags [a, b, c, d, e, f, g, h]
    = 128 * a.toNat + 64 * b.toNat + 32 * c.toNat + 16 * d.toNat + 8 * e.toNat + 4 * f.toNat
      + 2 * g.toNat + h.toNat
  := by
  simp only [packFlags, List.foldl_cons, List.foldl_nil]
  omega

/-- The byte of a request for a file holds the method, the reserved bits and two flags. -/
theorem getUrl2Bytes_eq_ok_iff {method reserved : Int} {loadTarget loadVariables : Bool}
    {bytes : Bytes} :
  getUrl2Bytes (.int method) (.bool loadTarget) (.bool loadVariables) (.int reserved) = .ok bytes
    ↔ ∃ b : UInt8, bytes = [b] ∧ method = (b.toNat % 4 : Nat) ∧ loadTarget = b.toNat.testBit 6
      ∧ loadVariables = b.toNat.testBit 7 ∧ reserved = (b.toNat / 4 % 16 : Nat)
  := by
  simp only [getUrl2Bytes, bind_eq_ok_iff, fit_int_eq_ok_iff, Except.ok.injEq, truth_bool,
    packFlags_two, eq_flag_iff]
  have ht := loadTarget.toNat_le
  have hv := loadVariables.toNat_le
  constructor
  · rintro ⟨r, ⟨rfl, hr⟩, m, ⟨rfl, hm⟩, rfl⟩
    refine ⟨_, rfl, ?_⟩
    rw [Bytes.toNat_ofNat (by omega)]
    omega
  · rintro ⟨b, rfl, rfl, htarget, hvariables, rfl⟩
    have hb := b.toNat_lt
    refine ⟨_, ⟨rfl, by omega⟩, _, ⟨rfl, by omega⟩, ?_⟩
    rw [show (2 * loadVariables.toNat + loadTarget.toNat) * 64 + b.toNat / 4 % 16 * 4
      + b.toNat % 4 = b.toNat by omega, UInt8.ofNat_toNat]

/-- The byte of a jump to a frame holds the reserved bits, whether there is a bias, and a flag. -/
theorem gotoFrame2Bytes_none_eq_ok_iff {play : Bool} {reserved : Int} {bytes : Bytes} :
  gotoFrame2Bytes (.bool play) .none (.int reserved) = .ok bytes
    ↔ ∃ b : UInt8, bytes = [b] ∧ play = b.toNat.testBit 0 ∧ false = b.toNat.testBit 1
      ∧ reserved = (b.toNat / 4 : Nat)
  := by
  simp only [gotoFrame2Bytes, bind_eq_ok_iff, fit_int_eq_ok_iff, Except.ok.injEq, truth_bool,
    packFlags_two, eq_flag_iff, Value.isNone, Bool.not_true, if_true]
  have hp := play.toNat_le
  constructor
  · rintro ⟨r, ⟨rfl, hr⟩, _, rfl, rfl⟩
    refine ⟨_, rfl, ?_⟩
    rw [Bytes.toNat_ofNat (by simp; omega)]
    simp
    omega
  · rintro ⟨b, rfl, hplay, hbias, rfl⟩
    have hb := b.toNat_lt
    refine ⟨_, ⟨rfl, by omega⟩, [], rfl, ?_⟩
    rw [show b.toNat / 4 * 4 + (2 * false.toNat + play.toNat) = b.toNat by simp at *; omega,
      UInt8.ofNat_toNat]

/-- A frame with a bias is written to a byte of flags and two bytes of bias, and to these only. -/
theorem gotoFrame2Bytes_int_eq_ok_iff {play : Bool} {bias reserved : Int} {bytes : Bytes} :
  gotoFrame2Bytes (.bool play) (.int bias) (.int reserved) = .ok bytes
    ↔ ∃ (b : UInt8) (n : Nat), bytes = b :: Bytes.littleEndian 2 n ∧ bias = n ∧ n < 2 ^ 16
      ∧ play = b.toNat.testBit 0 ∧ true = b.toNat.testBit 1 ∧ reserved = (b.toNat / 4 : Nat)
  := by
  simp only [gotoFrame2Bytes, bind_eq_ok_iff, fit_int_eq_ok_iff, Except.ok.injEq, truth_bool,
    packFlags_two, eq_flag_iff, Value.isNone, Bool.not_false, Bool.false_eq_true, if_false,
    ui16_int_eq_ok_iff]
  have hp := play.toNat_le
  constructor
  · rintro ⟨r, ⟨rfl, hr⟩, _, ⟨n, rfl, hn, rfl⟩, rfl⟩
    refine ⟨_, n, rfl, rfl, hn, ?_⟩
    rw [Bytes.toNat_ofNat (by simp; omega)]
    simp
    omega
  · rintro ⟨b, n, rfl, rfl, hn, hplay, hbias, rfl⟩
    have hb := b.toNat_lt
    refine ⟨_, ⟨rfl, by omega⟩, _, ⟨n, rfl, hn, rfl⟩, ?_⟩
    rw [show b.toNat / 4 * 4 + (2 * true.toNat + play.toNat) = b.toNat by simp at *; omega,
      UInt8.ofNat_toNat]

/-- The byte of a `try` holds the reserved bits, where the caught value goes, and two flags. -/
theorem tryBytes_eq_ok_iff {catchTarget : Value} {hasCatch hasFinally : Bool} {reserved : Int}
    {bytes : Bytes} :
  tryBytes catchTarget (.bool hasCatch) (.bool hasFinally) (.int reserved) = .ok bytes
    ↔ ∃ b : UInt8, bytes = [b] ∧ catchTarget.whole?.isSome = b.toNat.testBit 2
      ∧ hasFinally = b.toNat.testBit 1 ∧ hasCatch = b.toNat.testBit 0
      ∧ reserved = (b.toNat / 8 : Nat)
  := by
  simp only [tryBytes, bind_eq_ok_iff, fit_int_eq_ok_iff, Except.ok.injEq, truth_bool,
    packFlags_three, eq_flag_iff]
  have hc := hasCatch.toNat_le
  have hf := hasFinally.toNat_le
  have ht := catchTarget.whole?.isSome.toNat_le
  constructor
  · rintro ⟨r, ⟨rfl, hr⟩, rfl⟩
    refine ⟨_, rfl, ?_⟩
    rw [Bytes.toNat_ofNat (by omega)]
    omega
  · rintro ⟨b, rfl, htarget, hfinally, hcatch, rfl⟩
    have hb := b.toNat_lt
    refine ⟨_, ⟨rfl, by omega⟩, ?_⟩
    rw [show b.toNat / 8 * 8 + (4 * catchTarget.whole?.isSome.toNat + 2 * hasFinally.toNat
      + hasCatch.toNat) = b.toNat by omega, UInt8.ofNat_toNat]

end Operands

namespace FunctionFlags

/-- The flags taken from a first byte are packed into it again. -/
theorem packFlags_first_ofBytes (first second : UInt8) :
  UInt8.ofNat (Operands.packFlags ((ofBytes first second).first.map Value.truth)) = first
  := by
  have hb := first.toNat_lt
  apply Bytes.ofNat_eq
  simp only [ofBytes, FunctionFlags.first, List.map, flagAt, Operands.truth_bool,
    Operands.packFlags_eight, Operands.toNat_flag]
  omega

/-- The flag taken from a second byte is put back beside its reserved bits. -/
theorem preloadGlobal_ofBytes (first second : UInt8) :
  UInt8.ofNat (second.toNat / 2 * 2 + (ofBytes first second).preloadGlobal.truth.toNat) = second
  := by
  apply Bytes.ofNat_eq
  simp only [ofBytes, flagAt, Operands.truth_bool, Operands.toNat_flag]
  omega

end FunctionFlags

/-! ### Reading and then writing -/

namespace Operands

/-- The bytes of operands without bodies and without fields after the sizes. -/
theorem wire_nil_eq_ok_iff {o : Operands} {bytes : Bytes} (hc : o.closing = .ok []) :
  o.wire [] = .ok bytes ↔ o.fields = .ok bytes
  := by
  simp [wire_eq_ok_iff, hc, @eq_comm _ bytes]

/-- The bytes of operands with one body and without fields after its size. -/
theorem wire_singleton_eq_ok_iff {o : Operands} {n : Nat} {bytes : Bytes}
    (hc : o.closing = .ok []) :
  o.wire [n] = .ok bytes
    ↔ ∃ front, o.fields = .ok front ∧ n < 2 ^ 16 ∧ bytes = front ++ Bytes.littleEndian 2 n
  := by
  simp [wire_eq_ok_iff, hc]

theorem wire_of_fields {o : Operands} {front : Bytes} (h : o.fields = .ok front)
    (hc : o.closing = .ok []) :
  o.wire [] = .ok front
  := (wire_nil_eq_ok_iff hc).mpr h

theorem wire_of_body {o : Operands} {front : Bytes} {n : Nat} (h : o.fields = .ok front)
    (hn : n < 2 ^ 16) (hc : o.closing = .ok []) :
  o.wire [n] = .ok (front ++ Bytes.littleEndian 2 n)
  := (wire_singleton_eq_ok_iff hc).mpr ⟨front, h, hn, rfl⟩

/-- A function is its name, the number of its parameters and the parameters. -/
theorem functionBytes_eq_ok_iff {name : Text} {params : List Value} {bytes : Bytes} :
  functionBytes (.text name) (.list params) = .ok bytes
    ↔ ∃ p q, Value.string (.text name) = .ok p ∧ params.length < 2 ^ 16
      ∧ each Value.string params = .ok q ∧ bytes = p ++ Bytes.littleEndian 2 params.length ++ q
  := by
  simp only [functionBytes, bind_eq_ok_iff, membersOf_list, sizeOf_list_eq_ok_iff,
    Except.ok.injEq, @eq_comm _ _ bytes]
  constructor
  · rintro ⟨p, hp, _, ⟨hlen, rfl⟩, q, hq, rfl⟩
    exact ⟨p, q, hp, hlen, hq, rfl⟩
  · rintro ⟨p, q, hp, hlen, hq, rfl⟩
    exact ⟨p, hp, _, ⟨hlen, rfl⟩, q, hq, rfl⟩

/-- A function with registers has the number of its registers and two bytes of flags before its
parameters. -/
theorem function2Bytes_eq_ok_iff {name : Text} {params : List Value} {registerCount reserved : Int}
    {flags : FunctionFlags} {bytes : Bytes} :
  function2Bytes (.text name) (.list params) (.int registerCount) flags (.int reserved) = .ok bytes
    ↔ ∃ (p q : Bytes) (count : UInt8) (r : Nat), Value.string (.text name) = .ok p
      ∧ params.length < 2 ^ 16 ∧ registerCount = count.toNat ∧ reserved = r ∧ r < 2 ^ 7
      ∧ each registerParamBytes params = .ok q
      ∧ bytes = p ++ Bytes.littleEndian 2 params.length ++ [count]
        ++ [UInt8.ofNat (packFlags (flags.first.map Value.truth)),
          UInt8.ofNat (r * 2 + flags.preloadGlobal.truth.toNat)] ++ q
  := by
  simp only [function2Bytes, bind_eq_ok_iff, membersOf_list, sizeOf_list_eq_ok_iff,
    ui8_int_eq_ok_iff, fit_int_eq_ok_iff, Except.ok.injEq, @eq_comm _ _ bytes]
  constructor
  · rintro ⟨p, hp, _, ⟨hlen, rfl⟩, _, ⟨count, rfl, rfl⟩, r, ⟨rfl, hr⟩, q, hq, rfl⟩
    exact ⟨p, q, count, r, hp, hlen, rfl, rfl, hr, hq, rfl⟩
  · rintro ⟨p, q, count, r, hp, hlen, rfl, rfl, hr, hq, rfl⟩
    exact ⟨p, hp, _, ⟨hlen, rfl⟩, _, ⟨count, rfl, rfl⟩, r, ⟨rfl, hr⟩, q, hq, rfl⟩

/-- A try record is written as its flags, its three sizes and what it catches into. -/
theorem tryCatch_wire_of_closing {target : Value} {b : UInt8} {x y z : Nat} {back : Bytes}
    (hsizes : ∀ n ∈ [x, y, z], n < 2 ^ 16) (hb : target.whole?.isSome = b.toNat.testBit 2)
    (hback : (if target.whole?.isSome then ui8 target else target.string) = .ok back) :
  (tryCatch target (flagAt b 0) (flagAt b 1) (.int (b.toNat / 8 : Nat))).wire [x, y, z]
    = .ok ([b] ++ [x, y, z].flatMap (Bytes.littleEndian 2) ++ back)
  := by
  apply wire_eq_ok_iff.mpr
  refine ⟨[b], back, ?_, hsizes, hback, rfl⟩
  exact tryBytes_eq_ok_iff.mpr ⟨b, rfl, hb, rfl, rfl, rfl⟩

end Operands

namespace Layout

open Operands in
/-- Operands of any layout but that of a push are written as the bytes they were read from. -/
theorem wire_of_read {l : Layout} (hl : l ≠ push) {operands trailing : Bytes} {o : Operands}
    {ns : List Nat} (h : l.read operands = some ((o, ns), trailing)) :
  ∃ front, operands = front ++ trailing ∧ o.wire ns = .ok front
    ∧ o.bodyNames.length = ns.length ∧ o.isBranch = o.displacement?.isSome
    ∧ ∀ offset, o.floatOffsets offset = []
  := by
  cases l with
  | push => exact absurd rfl hl
  | plain =>
    simp only [read, Reader.pure_eq_some_iff, Prod.mk.injEq] at h
    obtain ⟨⟨rfl, rfl⟩, rfl⟩ := h
    exact ⟨[], rfl, rfl, rfl, rfl, fun _ => rfl⟩
  | gotoFrame =>
    simp only [read, Reader.bind_eq_some_iff, Reader.ui16_eq_some_iff, Reader.pure_eq_some_iff,
      Prod.mk.injEq] at h
    obtain ⟨n, _, ⟨hn, rfl⟩, ⟨rfl, rfl⟩, rfl⟩ := h
    refine ⟨_, rfl, wire_of_fields ?_ rfl, rfl, rfl, fun _ => rfl⟩
    exact ui16_int_eq_ok_iff.mpr ⟨n, rfl, hn, rfl⟩
  | getUrl =>
    simp only [read, Reader.bind_eq_some_iff, Reader.text_eq_some_iff, Reader.pure_eq_some_iff,
      Prod.mk.injEq] at h
    obtain ⟨url, _, ⟨p, hp, rfl⟩, target, _, ⟨q, hq, rfl⟩, ⟨rfl, rfl⟩, rfl⟩ := h
    refine ⟨p ++ q, by simp, wire_of_fields ?_ rfl, rfl, rfl, fun _ => rfl⟩
    exact both_eq_ok_iff.mpr ⟨p, q, string_of_spells hp, string_of_spells hq, rfl⟩
  | storeRegister | strictMode | waitForFrame2 =>
    simp only [read, Reader.bind_eq_some_iff, Reader.ui8_eq_some_iff, Reader.pure_eq_some_iff,
      Prod.mk.injEq] at h
    obtain ⟨_, _, ⟨b, rfl, rfl⟩, ⟨rfl, rfl⟩, rfl⟩ := h
    refine ⟨[b], rfl, wire_of_fields ?_ rfl, rfl, rfl, fun _ => rfl⟩
    exact ui8_int_eq_ok_iff.mpr ⟨b, rfl, rfl⟩
  | constantPool =>
    simp only [read, Reader.bind_eq_some_iff, Reader.ui16_eq_some_iff,
      Reader.times_eq_some_iff Reader.text_eq_some_iff, Reader.pure_eq_some_iff,
      Prod.mk.injEq] at h
    obtain ⟨n, _, ⟨hn, rfl⟩, ts, _, ⟨pieces, rfl, hp, rfl⟩, ⟨rfl, rfl⟩, rfl⟩ := h
    refine ⟨_, (List.append_assoc _ _ _).symm, wire_of_fields ?_ rfl, rfl, rfl, fun _ => rfl⟩
    apply both_eq_ok_iff.mpr
    refine ⟨_, _, ?_, each_string_of_spells hp, rfl⟩
    exact sizeOf_list_eq_ok_iff.mpr ⟨by simpa using hn, by simp⟩
  | waitForFrame =>
    simp only [read, Reader.bind_eq_some_iff, Reader.ui16_eq_some_iff, Reader.ui8_eq_some_iff,
      Reader.pure_eq_some_iff, Prod.mk.injEq] at h
    obtain ⟨n, _, ⟨hn, rfl⟩, _, _, ⟨b, rfl, rfl⟩, ⟨rfl, rfl⟩, rfl⟩ := h
    refine ⟨Bytes.littleEndian 2 n ++ [b], by simp, wire_of_fields ?_ rfl, rfl, rfl, fun _ => rfl⟩
    apply both_eq_ok_iff.mpr
    exact ⟨_, [b], ui16_int_eq_ok_iff.mpr ⟨n, rfl, hn, rfl⟩, ui8_int_eq_ok_iff.mpr ⟨b, rfl, rfl⟩,
      rfl⟩
  | string =>
    simp only [read, Reader.bind_eq_some_iff, Reader.text_eq_some_iff, Reader.pure_eq_some_iff,
      Prod.mk.injEq] at h
    obtain ⟨t, _, ⟨p, hp, rfl⟩, ⟨rfl, rfl⟩, rfl⟩ := h
    exact ⟨p, rfl, wire_of_fields (string_of_spells hp) rfl, rfl, rfl, fun _ => rfl⟩
  | getUrl2 =>
    simp only [read, Reader.bind_eq_some_iff, Reader.byte_eq_some_iff, Reader.pure_eq_some_iff,
      Prod.mk.injEq] at h
    obtain ⟨b, _, rfl, ⟨rfl, rfl⟩, rfl⟩ := h
    refine ⟨[b], rfl, wire_of_fields ?_ rfl, rfl, rfl, fun _ => rfl⟩
    exact getUrl2Bytes_eq_ok_iff.mpr ⟨b, rfl, rfl, rfl, rfl, rfl⟩
  | gotoFrame2 =>
    simp only [read, Reader.bind_eq_some_iff, Reader.byte_eq_some_iff] at h
    obtain ⟨b, _, rfl, h⟩ := h
    split at h
    · rename_i hbias
      simp only [Reader.bind_eq_some_iff, Reader.map_eq_some_iff, Reader.ui16_eq_some_iff,
        Reader.pure_eq_some_iff, Prod.mk.injEq] at h
      obtain ⟨_, _, ⟨n, ⟨hn, rfl⟩, rfl⟩, ⟨rfl, rfl⟩, rfl⟩ := h
      refine ⟨b :: Bytes.littleEndian 2 n, rfl, wire_of_fields ?_ rfl, rfl, rfl, fun _ => rfl⟩
      exact gotoFrame2Bytes_int_eq_ok_iff.mpr ⟨b, n, rfl, rfl, hn, rfl, hbias.symm, rfl⟩
    · rename_i hbias
      simp only [Reader.bind_eq_some_iff, Reader.pure_eq_some_iff, Prod.mk.injEq] at h
      obtain ⟨_, _, ⟨rfl, rfl⟩, ⟨rfl, rfl⟩, rfl⟩ := h
      refine ⟨[b], rfl, wire_of_fields ?_ rfl, rfl, rfl, fun _ => rfl⟩
      apply gotoFrame2Bytes_none_eq_ok_iff.mpr
      exact ⟨b, rfl, rfl, (Bool.eq_false_of_not_eq_true hbias).symm, rfl⟩
  | branch =>
    simp only [read, Reader.bind_eq_some_iff, Reader.si16_eq_some_iff, Reader.pure_eq_some_iff,
      Prod.mk.injEq] at h
    obtain ⟨d, _, ⟨bits, hbits, rfl⟩, ⟨rfl, rfl⟩, rfl⟩ := h
    refine ⟨_, rfl, wire_of_fields ?_ rfl, rfl, rfl, fun _ => rfl⟩
    exact map_eq_ok_iff.mpr ⟨bits, hbits, rfl⟩
  | defineFunction =>
    simp only [read, Reader.bind_eq_some_iff, Reader.text_eq_some_iff, Reader.ui16_eq_some_iff,
      Reader.times_eq_some_iff Reader.text_eq_some_iff, Reader.pure_eq_some_iff,
      Prod.mk.injEq] at h
    obtain ⟨name, _, ⟨p, hp, rfl⟩, n, _, ⟨hn, rfl⟩, params, _, ⟨pieces, rfl, hq, rfl⟩, size, _,
      ⟨hsize, rfl⟩, ⟨rfl, rfl⟩, rfl⟩ := h
    have hfields : functionBytes (.text name) (.list (params.map .text))
        = .ok (p ++ Bytes.littleEndian 2 params.length ++ pieces.flatten) := by
      apply functionBytes_eq_ok_iff.mpr
      rw [List.length_map]
      exact ⟨p, _, string_of_spells hp, hn, each_string_of_spells hq, rfl⟩
    refine ⟨_, ?_, wire_of_body hfields hsize rfl, rfl, rfl, fun _ => rfl⟩
    simp
  | defineFunction2 =>
    simp only [read, Reader.bind_eq_some_iff, Reader.text_eq_some_iff, Reader.ui16_eq_some_iff,
      Reader.ui8_eq_some_iff, Reader.byte_eq_some_iff,
      Reader.times_eq_some_iff Reader.registerParam_eq_some_iff, Reader.pure_eq_some_iff,
      Prod.mk.injEq] at h
    obtain ⟨name, _, ⟨p, hp, rfl⟩, n, _, ⟨hn, rfl⟩, _, _, ⟨count, rfl, rfl⟩, first, _, rfl, second,
      _, rfl, params, _, ⟨pieces, rfl, hq, rfl⟩, size, _, ⟨hsize, rfl⟩, ⟨rfl, rfl⟩, rfl⟩ := h
    have hparams : each registerParamBytes params = .ok pieces.flatten := by
      apply each_eq_ok_iff.mpr
      refine ⟨pieces, hq.imp ?_, rfl⟩
      rintro _ _ ⟨b, t, q, hq, rfl, rfl⟩
      apply registerParamBytes_of_spells hq
    have hreserved : second.toNat / 2 < 2 ^ 7 := by
      have := second.toNat_lt
      omega
    have hfields : function2Bytes (.text name) (.list params) (.int count.toNat)
        (.ofBytes first second) (.int (second.toNat / 2 : Nat))
        = .ok (p ++ Bytes.littleEndian 2 params.length ++ [count] ++ [first, second]
          ++ pieces.flatten) := by
      apply function2Bytes_eq_ok_iff.mpr
      refine ⟨p, _, count, second.toNat / 2, string_of_spells hp, hn, rfl, rfl, hreserved, hparams,
        ?_⟩
      rw [FunctionFlags.packFlags_first_ofBytes, FunctionFlags.preloadGlobal_ofBytes]
    refine ⟨_, ?_, wire_of_body hfields hsize rfl, rfl, rfl, fun _ => rfl⟩
    simp
  | withObject =>
    simp only [read, Reader.bind_eq_some_iff, Reader.ui16_eq_some_iff, Reader.pure_eq_some_iff,
      Prod.mk.injEq] at h
    obtain ⟨n, _, ⟨hn, rfl⟩, ⟨rfl, rfl⟩, rfl⟩ := h
    exact ⟨[] ++ Bytes.littleEndian 2 n, rfl, wire_of_body rfl hn rfl, rfl, rfl, fun _ => rfl⟩
  | tryCatch =>
    simp only [read, Reader.bind_eq_some_iff, Reader.byte_eq_some_iff,
      Reader.ui16_eq_some_iff] at h
    obtain ⟨b, _, rfl, x, _, ⟨hx, rfl⟩, y, _, ⟨hy, rfl⟩, z, _, ⟨hz, rfl⟩, h⟩ := h
    have hsizes : ∀ n ∈ [x, y, z], n < 2 ^ 16 := by
      simpa using ⟨hx, hy, hz⟩
    split at h
    · rename_i hregister
      simp only [Reader.bind_eq_some_iff, Reader.map_eq_some_iff, Reader.ui8_eq_some_iff,
        Reader.pure_eq_some_iff, Prod.mk.injEq] at h
      obtain ⟨_, _, ⟨_, ⟨c, rfl, rfl⟩, rfl⟩, ⟨rfl, rfl⟩, rfl⟩ := h
      have hc : ui8 (.int c.toNat) = .ok [c] := ui8_int_eq_ok_iff.mpr ⟨c, rfl, rfl⟩
      refine ⟨_, ?_, tryCatch_wire_of_closing hsizes hregister.symm hc, rfl, rfl, fun _ => rfl⟩
      simp
    · rename_i hregister
      simp only [Reader.bind_eq_some_iff, Reader.map_eq_some_iff, Reader.text_eq_some_iff,
        Reader.pure_eq_some_iff, Prod.mk.injEq] at h
      obtain ⟨_, _, ⟨t, ⟨p, hp, rfl⟩, rfl⟩, ⟨rfl, rfl⟩, rfl⟩ := h
      refine ⟨_, ?_, tryCatch_wire_of_closing hsizes ?_ (string_of_spells hp), rfl, rfl,
        fun _ => rfl⟩
      · simp
      · exact (Bool.eq_false_of_not_eq_true hregister).symm

/-- Operands are written as the bytes they were read from, the values of a push requieted. -/
theorem exists_wire_of_read {l : Layout} {data operands trailing tail : Bytes} {start : Nat}
    {o : Operands} {ns : List Nat} (h : l.read operands = some ((o, ns), trailing))
    (hdata : data.drop start = operands ++ tail) :
  ∃ front out, operands = front ++ trailing ∧ front.length = out.length ∧ o.wire ns = .ok out
    ∧ o.bodyNames.length = ns.length ∧ o.isBranch = o.displacement?.isSome
    ∧ Requieted data (o.floatOffsets start) start out
  := by
  by_cases hl : l = push
  · subst hl
    simp only [read, Reader.bind_eq_some_iff, Reader.pure_eq_some_iff, Prod.mk.injEq] at h
    obtain ⟨vs, _, hvs, ⟨rfl, rfl⟩, rfl⟩ := h
    obtain ⟨new, front, out, rfl, rfl, hlen, hout, hq⟩ :=
      PushValue.exists_each_of_readFrom hvs hdata
    exact ⟨front, out, rfl, hlen, Operands.wire_of_fields hout rfl, rfl, rfl, hq⟩
  · obtain ⟨front, rfl, hwire, hnames, hbranch, hfloats⟩ := wire_of_read hl h
    refine ⟨front, front, rfl, rfl, hwire, hnames, hbranch, ?_⟩
    rw [hfloats]
    apply Requieted.raw (trailing ++ tail)
    rw [hdata, List.append_assoc]

/-- The operands hold a size for each body, of two bytes. -/
theorem sizes_of_read {l : Layout} {operands trailing : Bytes} {o : Operands} {ns : List Nat}
    (h : l.read operands = some ((o, ns), trailing)) :
  o.bodyNames.length = ns.length ∧ 2 * ns.length ≤ operands.length
  := by
  obtain ⟨front, out, rfl, hlen, hwire, hnames, -, -⟩ :=
    exists_wire_of_read h (show operands.drop 0 = operands ++ [] by simp)
  obtain ⟨fields, closing, -, -, -, rfl⟩ := Operands.wire_eq_ok_iff.mp hwire
  refine ⟨hnames, ?_⟩
  have hsizes : (ns.flatMap (Bytes.littleEndian 2)).length = 2 * ns.length := by
    simp [List.length_flatMap, mul_comm]
  simp only [List.length_append, hsizes] at hlen ⊢
  omega

end Layout

end ActionBlock
