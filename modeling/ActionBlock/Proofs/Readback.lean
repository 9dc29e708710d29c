import ActionBlock.Action.Equality
import ActionBlock.Proofs.Operands
import ActionBlock.Proofs.WellFormed
import Mathlib.Data.List.Induction

/-!
# Writing and then reading operands

Well-formed operands are read back from what is written for them, whatever bytes follow that the
layout leaves. What is read is equal to what was written, apart from the target of a branch, which
is not written.
-/

namespace ActionBlock

/-! ### Equality -/

/-- Every double but a NaN equals itself. -/
theorem Double.equal_self {x : Double} (h : Double.meaning x ≠ .nan) :
  x.equal x = true
  := by
  simp [equal, h]

theorem Scalar.same_self {s : Scalar} (h : ∀ x, s = .double x → Double.meaning x ≠ .nan) :
  s.same s = true
  := by
  cases s with
  | double x => exact Double.equal_self (h x rfl)
  | _ => simp [same, whole?]

namespace Value

/-- Lists are the same exactly when they are as long and the same member by member. -/
theorem sameAll_iff {as bs : List Value} :
  sameAll as bs = true ↔ List.Forall₂ (fun a b => a.same b = true) as bs
  := by
  induction as generalizing bs with
  | nil => cases bs <;> simp [sameAll]
  | cons a as ih => cases bs <;> simp [sameAll, ih]

theorem same_scalar {s t : Scalar} :
  (scalar s).same (scalar t) = s.same t
  := by
  rw [same]

theorem sameAll_self {vs : List Value} (h : ∀ v ∈ vs, v.same v = true) :
  sameAll vs vs = true
  := by
  rw [sameAll_iff, List.forall₂_same]
  exact h

end Value

/-! ### Texts -/

/-- What is written for a faithful text spells it. -/
theorem Text.Faithful.spells {t : Text} {piece : Bytes} (ht : t.Faithful)
    (h : Scalar.terminatedText t = .ok piece) :
  Reader.Spells t piece
  := by
  obtain ⟨b, hb, hzero, rfl⟩ := Scalar.terminatedText_eq_ok_iff.mp h
  rw [Faithful, hb] at ht
  exact ⟨b, hzero, Except.ok.inj ht, rfl⟩

/-- A faithful text is read back from the bytes it is written to. -/
theorem Text.Faithful.read {t : Text} {piece : Bytes} (ht : t.Faithful)
    (h : Scalar.terminatedText t = .ok piece) (rest : Bytes) :
  Reader.text (piece ++ rest) = some (t, rest)
  := Reader.text_eq_some_iff.mpr ⟨piece, ht.spells h, rfl⟩

/-! ### Pushed values -/

namespace PushType

/-- The bytes of a value of a type of one byte. -/
theorem write_byte_eq_ok_iff {t : PushType} (ht : t = register ∨ t = boolean ∨ t = constant8)
    {v : Scalar} {n : Int} {bytes : Bytes} (hv : v.toInt = .ok n) :
  t.write (.scalar v) = .ok bytes ↔ ∃ b : UInt8, n = b.toNat ∧ bytes = [b]
  := by
  have hwrite : t.write (.scalar v) = Operands.ui8 (.int n) := by
    obtain rfl | rfl | rfl := ht <;>
      · simp only [write, Value.toInt, hv, Operands.ui8, Value.fit, Scalar.fit, bind, Except.bind]
        cases Scalar.fitInt 8 false n <;> rfl
  rw [hwrite, Operands.ui8_int_eq_ok_iff]

/-- A number of 64 bits is read back from its bytes, the words of which are swapped. -/
theorem read_double (x : Double) (rest : Bytes) :
  read double (swapWords (Bytes.littleEndian 8 x.bits.toNat) ++ rest) = some (.double x, rest)
  := by
  have hlen : (Bytes.littleEndian 8 x.bits.toNat).length = 8 := Bytes.length_littleEndian _ _
  have hbits : Bytes.ofLittleEndian (Bytes.littleEndian 8 x.bits.toNat) = x.bits.toNat :=
    Bytes.ofLittleEndian_littleEndian x.bits.toNat_lt
  apply Reader.map_eq_some_iff.mpr
  refine ⟨_, Reader.take_eq_some_iff.mpr ⟨?_, rfl⟩, ?_⟩
  · rw [length_swapWords, hlen]
  · rw [swapWords_swapWords hlen, hbits, UInt64.ofNat_toNat]

/-- A value of a type is read back from what is written for it. A truth value that was given as
a number comes back as a truth value. -/
theorem Holds.exists_read {t : PushType} {s : Scalar} {piece : Bytes} (h : t.Holds s)
    (hwrite : t.write (.scalar s) = .ok piece) (rest : Bytes) :
  ∃ s', t.read (piece ++ rest) = some (s', rest) ∧ s'.same s = true
  := by
  have hself : ∀ {s : Scalar}, (∀ x, s ≠ .double x) → s.same s = true :=
    fun hs => Scalar.same_self fun x hx => absurd hx (hs x)
  cases h with
  | @string t ht =>
    refine ⟨.text t, ?_, hself (by simp)⟩
    exact Reader.map_eq_some_iff.mpr ⟨t, ht.read hwrite rest, rfl⟩
  | @float x hx =>
    have hnan : ¬ Format.single.infinity < x.pattern :=
      fun hlt => hx (Double.meaning_ofSingle_of_nan hlt)
    rw [write_float, Single.quieted_of_not_nan hnan] at hwrite
    obtain rfl := Except.ok.inj hwrite
    refine ⟨.double (.ofSingle x), ?_, Double.equal_self hx⟩
    apply read_float_eq_some_iff.mpr
    exact ⟨x.bits.toNat, x.bits.toNat_lt, rfl, by rw [UInt32.ofNat_toNat]⟩
  | null | undefined =>
    obtain rfl := Except.ok.inj hwrite
    exact ⟨.none, rfl, rfl⟩
  | @register n =>
    obtain ⟨b, rfl, rfl⟩ := (write_byte_eq_ok_iff (.inl rfl) rfl).mp hwrite
    exact ⟨.int b.toNat, rfl, hself (by simp)⟩
  | @truth b =>
    obtain ⟨c, hc, rfl⟩ := (write_byte_eq_ok_iff (.inr (.inl rfl)) rfl).mp hwrite
    refine ⟨.bool b, ?_, hself (by simp)⟩
    apply Reader.map_eq_some_iff.mpr
    refine ⟨c.toNat, rfl, ?_⟩
    rw [← Int.natCast_inj.mp hc]
    cases b <;> rfl
  | @boolean n =>
    obtain ⟨c, rfl, rfl⟩ := (write_byte_eq_ok_iff (.inr (.inl rfl)) rfl).mp hwrite
    refine ⟨_, Reader.map_eq_some_iff.mpr ⟨c.toNat, rfl, rfl⟩, ?_⟩
    split
    · rename_i hlt
      obtain h | h : c.toNat = 0 ∨ c.toNat = 1 := by omega
      · rw [h]
        rfl
      · rw [h]
        rfl
    · apply hself (by simp)
  | @double x hx =>
    obtain rfl := Except.ok.inj hwrite
    exact ⟨.double x, read_double x rest, Double.equal_self hx⟩
  | @integer n =>
    obtain ⟨bits, hbits, rfl⟩ := map_eq_ok_iff.mp hwrite
    refine ⟨.int n, ?_, hself (by simp)⟩
    apply Reader.map_eq_some_iff.mpr
    exact ⟨n, Reader.si32_eq_some_iff.mpr ⟨bits, hbits, rfl⟩, rfl⟩
  | @constant8 n =>
    obtain ⟨b, rfl, rfl⟩ := (write_byte_eq_ok_iff (.inr (.inr rfl)) rfl).mp hwrite
    exact ⟨.int b.toNat, rfl, hself (by simp)⟩
  | @constant16 n =>
    obtain ⟨m, rfl, hm, rfl⟩ := Operands.ui16_int_eq_ok_iff.mp hwrite
    refine ⟨.int m, ?_, hself (by simp)⟩
    apply Reader.map_eq_some_iff.mpr
    exact ⟨m, Reader.ui16_eq_some_iff.mpr ⟨hm, rfl⟩, rfl⟩

end PushType

namespace PushValue

/-- Every push type is found under its own number. -/
theorem ofNumber?_number (t : PushType) :
  PushType.ofNumber? (UInt8.ofNat t.number).toNat = some t
  := by
  cases t <;> rfl

theorem ofNumber?_eq_none {b : UInt8} (h : 9 < b.toNat) :
  PushType.ofNumber? b.toNat = none
  := List.getElem?_eq_none h

/-- Reading stops before bytes that do not begin with the number of a type. -/
theorem readFrom_of_leaves {more : Nat} {trailing : Bytes}
    (h : ∀ b ∈ trailing.head?, 9 < b.toNat) (done : List PushValue) :
  readFrom more done trailing = some (done.reverse, trailing)
  := by
  cases more with
  | zero => rfl
  | succ more =>
    cases trailing with
    | nil => rfl
    | cons b trailing => simp only [readFrom, ofNumber?_eq_none (h b rfl)]

/-- Values of a push are read back from what is written for them, up to bytes that begin with no
number of a type. -/
theorem exists_readFrom {more : Nat} {vs : List Value} {front trailing : Bytes}
    (hvs : ∀ v ∈ vs, v.IsPushed) (hfront : Operands.each Value.pushBytes vs = .ok front)
    (hmore : front.length ≤ more) (h : ∀ b ∈ trailing.head?, 9 < b.toNat)
    (done : List PushValue) :
  ∃ new, readFrom more done (front ++ trailing) = some (done.reverse ++ new, trailing)
    ∧ Value.sameAll (new.map toValue) vs = true
  := by
  induction vs generalizing more front done with
  | nil =>
    obtain rfl := Except.ok.inj hfront
    refine ⟨[], ?_, rfl⟩
    rw [List.append_nil]
    apply readFrom_of_leaves h
  | cons v vs ih =>
    obtain ⟨hv, hrest⟩ := List.forall_mem_cons.mp hvs
    obtain ⟨x, y, hx, hy, rfl⟩ := Operands.each_cons_eq_ok_iff.mp hfront
    obtain @⟨s, t, hs⟩ := hv
    obtain ⟨piece, hpiece, rfl⟩ := write_eq_ok_iff.mp hx
    obtain ⟨s', hread, hsame⟩ := hs.exists_read hpiece (y ++ trailing)
    cases more with
    | zero => simp at hmore
    | succ more =>
      have hroom : y.length ≤ more := by
        simp only [List.length_append, List.length_cons] at hmore
        omega
      obtain ⟨new, hnew, hall⟩ := ih hrest hy hroom (⟨.scalar s', t⟩ :: done)
      refine ⟨⟨.scalar s', t⟩ :: new, ?_, ?_⟩
      · simp only [List.cons_append, List.append_assoc, readFrom, ofNumber?_number, hread]
        simpa using hnew
      · simp [toValue, Value.sameAll, Value.same, Value.tupleMembers?, hsame, hall]

end PushValue

/-! ### Operands -/

theorem Reader.bind_of_eq_some {α β : Type} {r : Reader α} {f : α → Reader β} {bytes rest : Bytes}
    {a : α} (h : r bytes = some (a, rest)) :
  (r >>= f) bytes = f a rest
  := by
  change (r bytes).bind (fun p => f p.1 p.2) = f a rest
  rw [h]
  rfl

theorem Reader.map_of_eq_some {α β : Type} {r : Reader α} {g : α → β} {bytes rest : Bytes} {a : α}
    (h : r bytes = some (a, rest)) :
  (g <$> r) bytes = some (g a, rest)
  := Reader.map_eq_some_iff.mpr ⟨a, h, rfl⟩

theorem Reader.byte_cons (b : UInt8) (rest : Bytes) :
  Reader.byte (b :: rest) = some (b, rest)
  := rfl

theorem Reader.ui8_cons (b : UInt8) (rest : Bytes) :
  Reader.ui8 (b :: rest) = some (b.toNat, rest)
  := rfl

theorem Reader.ui16_littleEndian {n : Nat} (h : n < 2 ^ 16) (rest : Bytes) :
  Reader.ui16 (Bytes.littleEndian 2 n ++ rest) = some (n, rest)
  := Reader.ui16_eq_some_iff.mpr ⟨h, rfl⟩

namespace Operands

/-- What is written for faithful texts spells them one after the other. -/
theorem exists_spells_of_each {ts : List Text} {bytes : Bytes} (hts : ∀ t ∈ ts, t.Faithful)
    (h : each Value.string (ts.map .text) = .ok bytes) :
  ∃ pieces, List.Forall₂ Reader.Spells ts pieces ∧ bytes = pieces.flatten
  := by
  obtain ⟨pieces, hpieces, rfl⟩ := each_eq_ok_iff.mp h
  rw [List.forall₂_map_left_iff] at hpieces
  refine ⟨pieces, ?_, rfl⟩
  clear h
  induction hpieces with
  | nil => exact .nil
  | cons hpiece _ ih =>
    obtain ⟨ht, hts⟩ := List.forall_mem_cons.mp hts
    exact .cons (ht.spells hpiece) (ih hts)

/-- Faithful texts written one after another are read back. -/
theorem times_text_of_each {ts : List Text} {bytes : Bytes} (hts : ∀ t ∈ ts, t.Faithful)
    (h : each Value.string (ts.map .text) = .ok bytes) (rest : Bytes) :
  Reader.times ts.length Reader.text (bytes ++ rest) = some (ts, rest)
  := by
  obtain ⟨pieces, hpieces, rfl⟩ := exists_spells_of_each hts h
  apply (Reader.times_eq_some_iff Reader.text_eq_some_iff).mpr
  exact ⟨pieces, rfl, hpieces, rfl⟩

/-- Register parameters written one after another are read back. -/
theorem times_registerParam_of_each {params : List Value} {bytes : Bytes}
    (hparams : ∀ v ∈ params, v.IsRegisterParam) (h : each registerParamBytes params = .ok bytes)
    (rest : Bytes) :
  Reader.times params.length Reader.registerParam (bytes ++ rest) = some (params, rest)
  := by
  obtain ⟨pieces, hpieces, rfl⟩ := each_eq_ok_iff.mp h
  apply (Reader.times_eq_some_iff Reader.registerParam_eq_some_iff).mpr
  refine ⟨pieces, rfl, ?_, rfl⟩
  clear h
  induction hpieces with
  | nil => exact .nil
  | @cons v piece _ _ hpiece _ ih =>
    obtain ⟨hv, hrest⟩ := List.forall_mem_cons.mp hparams
    refine .cons ?_ (ih hrest)
    obtain @⟨register, name, hname⟩ := hv
    obtain ⟨x, y, hx, hy, rfl⟩ := both_eq_ok_iff.mp hpiece
    obtain ⟨b, rfl, rfl⟩ := ui8_int_eq_ok_iff.mp hx
    exact ⟨b, name, y, hname.spells hy, rfl, rfl⟩

end Operands

/-! ### Flags -/

namespace Operands

theorem packFlags_concat (flags : List Bool) (b : Bool) :
  packFlags (flags ++ [b]) = 2 * packFlags flags + b.toNat
  := by
  simp [packFlags]

/-- Flags are packed into as many bits. -/
theorem packFlags_lt (flags : List Bool) :
  packFlags flags < 2 ^ flags.length
  := by
  induction flags using List.reverseRecOn with
  | nil => decide
  | append_singleton flags b ih =>
    have hb := b.toNat_le
    rw [packFlags_concat, List.length_append, List.length_singleton, pow_succ]
    omega

/-- The last of the flags is the least significant bit. -/
theorem testBit_packFlags (flags : List Bool) (position : Nat) :
  (packFlags flags).testBit position = flags.reverse.getD position false
  := by
  induction flags using List.reverseRecOn generalizing position with
  | nil => simp [packFlags]
  | append_singleton flags b ih =>
    rw [packFlags_concat, List.reverse_concat]
    cases position with
    | zero => cases b <;> simp
    | succ position =>
      have hhalf : (2 * packFlags flags + b.toNat) / 2 = packFlags flags := by
        have hb := b.toNat_le
        omega
      rw [Nat.testBit_succ, hhalf, ih, List.getD_cons_succ]

/-- The bit of a byte of flags is the flag at its position, counted from the last. -/
theorem flagAt_packFlags {flags : List Bool} (h : flags.length = 8) (position : Nat) :
  flagAt (UInt8.ofNat (packFlags flags)) position = .bool (flags.reverse.getD position false)
  := by
  have hlt := packFlags_lt flags
  rw [h] at hlt
  rw [flagAt, Bytes.toNat_ofNat hlt, testBit_packFlags]

end Operands

namespace FunctionFlags

/-- The flags of a function are read back from its two bytes of flags. -/
theorem ofBytes_packFlags {flags : FunctionFlags} (h : flags.AreBooleans) {reserved : Nat}
    (hreserved : reserved < 2 ^ 7) :
  ofBytes (UInt8.ofNat (Operands.packFlags (flags.first.map Value.truth)))
      (UInt8.ofNat (reserved * 2 + flags.preloadGlobal.truth.toNat))
    = flags
  := by
  have hlen : (flags.first.map Value.truth).length = 8 := rfl
  have hlt : reserved * 2 + flags.preloadGlobal.truth.toNat < 256 := by
    have := flags.preloadGlobal.truth.toNat_le
    omega
  simp only [ofBytes, Operands.flagAt_packFlags hlen]
  rw [flagAt, Bytes.toNat_ofNat hlt, Nat.testBit_zero]
  obtain ⟨parent, root, super, super', arguments, arguments', this, this', preloadGlobal⟩ := flags
  simp only [AreBooleans, toList, first, List.cons_append, List.nil_append, List.forall_mem_cons]
    at h
  obtain ⟨⟨_, rfl⟩, ⟨_, rfl⟩, ⟨_, rfl⟩, ⟨_, rfl⟩, ⟨_, rfl⟩, ⟨_, rfl⟩, ⟨_, rfl⟩, ⟨_, rfl⟩,
    ⟨preloadGlobal, rfl⟩, -⟩ := h
  cases preloadGlobal <;> simp [first, Operands.truth_bool]

end FunctionFlags

/-! ### Layouts -/

namespace Operands

/-- Operands other than those of a push and of a branch are read back as they are. -/
theorem WellFormed.read_of_wire {l : Layout} {o : Operands} {ns : List Nat} {front : Bytes}
    (h : o.WellFormed l) (hpush : l ≠ .push) (hbranch : l ≠ .branch)
    (hwire : o.wire ns = .ok front) (hns : ns.length = o.bodyNames.length) (trailing : Bytes) :
  l.read (front ++ trailing) = some ((o, ns), trailing)
  := by
  cases h with
  | push => exact absurd rfl hpush
  | branch => exact absurd rfl hbranch
  | plain =>
    obtain rfl := List.length_eq_zero_iff.mp hns
    obtain rfl := Except.ok.inj ((wire_nil_eq_ok_iff rfl).mp hwire)
    rfl
  | gotoFrame =>
    obtain rfl := List.length_eq_zero_iff.mp hns
    obtain ⟨n, rfl, hn, rfl⟩ := ui16_int_eq_ok_iff.mp ((wire_nil_eq_ok_iff rfl).mp hwire)
    rw [Layout.read, Reader.bind_of_eq_some (Reader.ui16_littleEndian hn trailing)]
    rfl
  | getUrl hurl htarget =>
    obtain rfl := List.length_eq_zero_iff.mp hns
    obtain ⟨p, q, hp, hq, rfl⟩ := both_eq_ok_iff.mp ((wire_nil_eq_ok_iff rfl).mp hwire)
    rw [Layout.read, List.append_assoc, Reader.bind_of_eq_some (hurl.read hp _),
      Reader.bind_of_eq_some (htarget.read hq trailing)]
    rfl
  | storeRegister | strictMode | waitForFrame2 =>
    obtain rfl := List.length_eq_zero_iff.mp hns
    obtain ⟨b, rfl, rfl⟩ := ui8_int_eq_ok_iff.mp ((wire_nil_eq_ok_iff rfl).mp hwire)
    rfl
  | @constantPool pool hpool =>
    obtain rfl := List.length_eq_zero_iff.mp hns
    obtain ⟨p, q, hp, hq, rfl⟩ := both_eq_ok_iff.mp ((wire_nil_eq_ok_iff rfl).mp hwire)
    obtain ⟨hlen, rfl⟩ := sizeOf_list_eq_ok_iff.mp hp
    rw [List.length_map] at hlen ⊢
    rw [Layout.read, List.append_assoc, Reader.bind_of_eq_some (Reader.ui16_littleEndian hlen _),
      Reader.bind_of_eq_some (times_text_of_each hpool hq trailing)]
    rfl
  | waitForFrame =>
    obtain rfl := List.length_eq_zero_iff.mp hns
    obtain ⟨p, q, hp, hq, rfl⟩ := both_eq_ok_iff.mp ((wire_nil_eq_ok_iff rfl).mp hwire)
    obtain ⟨n, rfl, hn, rfl⟩ := ui16_int_eq_ok_iff.mp hp
    obtain ⟨b, rfl, rfl⟩ := ui8_int_eq_ok_iff.mp hq
    rw [Layout.read, List.append_assoc, Reader.bind_of_eq_some (Reader.ui16_littleEndian hn _)]
    rfl
  | string ht =>
    obtain rfl := List.length_eq_zero_iff.mp hns
    rw [Layout.read,
      Reader.bind_of_eq_some (ht.read ((wire_nil_eq_ok_iff rfl).mp hwire) trailing)]
    rfl
  | getUrl2 =>
    obtain rfl := List.length_eq_zero_iff.mp hns
    obtain ⟨b, rfl, rfl, rfl, rfl, rfl⟩ :=
      getUrl2Bytes_eq_ok_iff.mp ((wire_nil_eq_ok_iff rfl).mp hwire)
    rfl
  | gotoFrame2 =>
    obtain rfl := List.length_eq_zero_iff.mp hns
    obtain ⟨b, rfl, rfl, hbias, rfl⟩ :=
      gotoFrame2Bytes_none_eq_ok_iff.mp ((wire_nil_eq_ok_iff rfl).mp hwire)
    rw [Layout.read, List.singleton_append, Reader.bind_of_eq_some (Reader.byte_cons b trailing),
      ← hbias]
    rfl
  | gotoFrame2Bias =>
    obtain rfl := List.length_eq_zero_iff.mp hns
    obtain ⟨b, n, rfl, rfl, hn, rfl, hbias, rfl⟩ :=
      gotoFrame2Bytes_int_eq_ok_iff.mp ((wire_nil_eq_ok_iff rfl).mp hwire)
    rw [Layout.read, List.cons_append, Reader.bind_of_eq_some (Reader.byte_cons b _), ← hbias,
      if_pos rfl, Reader.bind_of_eq_some (Reader.map_of_eq_some (Reader.ui16_littleEndian hn _))]
    rfl
  | @defineFunction name params hname hparams =>
    obtain ⟨n, rfl⟩ := List.length_eq_one_iff.mp hns
    obtain ⟨_, hfields, hn, rfl⟩ := (wire_singleton_eq_ok_iff rfl).mp hwire
    obtain ⟨p, q, hp, hlen, hq, rfl⟩ := functionBytes_eq_ok_iff.mp hfields
    rw [List.length_map] at hlen ⊢
    simp only [Layout.read, List.append_assoc]
    rw [Reader.bind_of_eq_some (hname.read hp _),
      Reader.bind_of_eq_some (Reader.ui16_littleEndian hlen _),
      Reader.bind_of_eq_some (times_text_of_each hparams hq _),
      Reader.bind_of_eq_some (Reader.ui16_littleEndian hn _)]
    rfl
  | @defineFunction2 name params registerCount reserved flags hname hparams hflags =>
    obtain ⟨n, rfl⟩ := List.length_eq_one_iff.mp hns
    obtain ⟨_, hfields, hn, rfl⟩ := (wire_singleton_eq_ok_iff rfl).mp hwire
    obtain ⟨p, q, count, r, hp, hlen, rfl, rfl, hr, hq, rfl⟩ :=
      function2Bytes_eq_ok_iff.mp hfields
    have hhalf : ((UInt8.ofNat (r * 2 + flags.preloadGlobal.truth.toNat)).toNat : Int) / 2 = r := by
      have := flags.preloadGlobal.truth.toNat_le
      rw [Bytes.toNat_ofNat (by omega)]
      omega
    simp only [Layout.read, List.append_assoc, List.cons_append, List.nil_append]
    rw [Reader.bind_of_eq_some (hname.read hp _),
      Reader.bind_of_eq_some (Reader.ui16_littleEndian hlen _),
      Reader.bind_of_eq_some (Reader.ui8_cons count _),
      Reader.bind_of_eq_some (Reader.byte_cons _ _), Reader.bind_of_eq_some (Reader.byte_cons _ _),
      Reader.bind_of_eq_some (times_registerParam_of_each hparams hq _),
      Reader.bind_of_eq_some (Reader.ui16_littleEndian hn _),
      FunctionFlags.ofBytes_packFlags hflags hr, hhalf]
    rfl
  | withObject =>
    obtain ⟨n, rfl⟩ := List.length_eq_one_iff.mp hns
    obtain ⟨_, hfields, hn, rfl⟩ := (wire_singleton_eq_ok_iff rfl).mp hwire
    obtain rfl := Except.ok.inj hfields
    rw [Layout.read, List.nil_append, Reader.bind_of_eq_some (Reader.ui16_littleEndian hn _)]
    rfl
  | tryCatch htarget =>
    obtain ⟨x, y, z, rfl⟩ := List.length_eq_three.mp hns
    obtain ⟨_, back, hfields, hsizes, hback, rfl⟩ := wire_eq_ok_iff.mp hwire
    obtain ⟨b, rfl, hregister, rfl, rfl, rfl⟩ := tryBytes_eq_ok_iff.mp hfields
    simp only [List.forall_mem_cons] at hsizes
    obtain ⟨hx, hy, hz, -⟩ := hsizes
    simp only [Layout.read, List.flatMap_cons, List.flatMap_nil, List.append_assoc,
      List.cons_append, List.nil_append]
    rw [Reader.bind_of_eq_some (Reader.byte_cons b _),
      Reader.bind_of_eq_some (Reader.ui16_littleEndian hx _),
      Reader.bind_of_eq_some (Reader.ui16_littleEndian hy _),
      Reader.bind_of_eq_some (Reader.ui16_littleEndian hz _), ← hregister]
    cases htarget with
    | register =>
      obtain ⟨c, rfl, rfl⟩ := ui8_int_eq_ok_iff.mp hback
      rfl
    | name ht =>
      rw [if_neg (by simp [Value.whole?, Scalar.whole?]),
        Reader.bind_of_eq_some (Reader.map_of_eq_some (ht.read hback trailing))]
      rfl

/-- Operands that both have values compare without an error. -/
theorem compare_eq_of_toValues {a b : Operands} {as bs : List Value} (ha : a.toValues = .ok as)
    (hb : b.toValues = .ok bs) :
  a.compare b = .ok (a.same b)
  := by
  rw [compare, ha, hb]
  rfl

/-- Operands without numbers that may be NaNs are equal to themselves. -/
theorem WellFormed.compare_self {l : Layout} {o : Operands} (h : o.WellFormed l)
    (hpush : l ≠ .push) (hbranch : l ≠ .branch) :
  o.compare o = .ok true
  := by
  have hscalar : ∀ {s : Scalar}, (∀ x, s ≠ .double x) → (Value.scalar s).same (.scalar s) = true :=
    fun hs => Value.same_scalar.trans (Scalar.same_self fun x hx => absurd hx (hs x))
  have htexts : ∀ ts : List Text, Value.sameAll (ts.map .text) (ts.map .text) = true := by
    intro ts
    apply Value.sameAll_self
    intro v hv
    obtain ⟨t, -, rfl⟩ := List.mem_map.mp hv
    apply hscalar (by simp)
  cases h with
  | push => exact absurd rfl hpush
  | branch => exact absurd rfl hbranch
  | plain | withObject => rfl
  | constantPool =>
    rw [compare_eq_of_toValues rfl rfl]
    apply congrArg Except.ok (htexts _)
  | defineFunction =>
    rw [compare_eq_of_toValues rfl rfl]
    simp [Operands.same, Value.sameMembers, Value.members, hscalar, htexts]
  | @defineFunction2 name params registerCount reserved flags hname hparams hflags =>
    have hparamsSame : Value.sameAll params params = true := by
      apply Value.sameAll_self
      intro v hv
      obtain @⟨register, name, -⟩ := hparams v hv
      simp [Value.same, Value.tupleMembers?, Scalar.same, Scalar.whole?]
    have hflagsSame : flags.same flags = true := by
      apply Value.sameAll_self
      intro v hv
      obtain ⟨b, rfl⟩ := hflags v hv
      apply hscalar (by simp)
    rw [compare_eq_of_toValues rfl rfl]
    simp [Operands.same, Value.sameMembers, Value.members, hscalar, hparamsSame, hflagsSame]
  | tryCatch htarget =>
    rw [compare_eq_of_toValues rfl rfl]
    cases htarget <;> simp [Operands.same, hscalar]
  | _ =>
    rw [compare_eq_of_toValues rfl rfl]
    simp [Operands.same, hscalar]

/-- Operands as they are read back: equal to those that were written, or those of a branch with the
same displacement, whose target is not known yet. -/
def Recovers (new old : Operands) : Prop :=
  (new.displacement? = none ∧ new.compare old = .ok true)
    ∨ ∃ target displacement d, old = .branch target displacement ∧ displacement.whole? = some d
      ∧ new = .branch .none (.int d)

/-- Operands are read back from what is written for them, whatever bytes follow that their layout
leaves. -/
theorem WellFormed.exists_read {l : Layout} {o : Operands} {ns : List Nat} {front trailing : Bytes}
    (h : o.WellFormed l) (hwire : o.wire ns = .ok front) (hns : ns.length = o.bodyNames.length)
    (hleaves : l.Leaves trailing) :
  ∃ new, l.read (front ++ trailing) = some ((new, ns), trailing) ∧ new.Recovers o
  := by
  by_cases hpush : l = .push
  · subst hpush
    cases h with
    | @push vs hvs =>
      obtain rfl := List.length_eq_zero_iff.mp hns
      have hroom : front.length ≤ (front ++ trailing).length + 1 := by
        rw [List.length_append]
        omega
      obtain ⟨new, hnew, hsame⟩ := PushValue.exists_readFrom hvs
        ((wire_nil_eq_ok_iff rfl).mp hwire) hroom (hleaves rfl) []
      have hread : PushValue.readAll (front ++ trailing) = some (new, trailing) := hnew
      refine ⟨.push (.list (new.map PushValue.toValue)), ?_, .inl ⟨rfl, ?_⟩⟩
      · rw [Layout.read, Reader.bind_of_eq_some hread]
        rfl
      · rw [compare_eq_of_toValues rfl rfl]
        exact congrArg Except.ok hsame
  by_cases hbranch : l = .branch
  · subst hbranch
    cases h with
    | @branch target displacement =>
      obtain rfl := List.length_eq_zero_iff.mp hns
      obtain ⟨bits, hbits, rfl⟩ := map_eq_ok_iff.mp ((wire_nil_eq_ok_iff rfl).mp hwire)
      obtain ⟨d, hd, hfit⟩ := Value.fit_eq_ok_iff.mp hbits
      have hread : Reader.si16 (Bytes.littleEndian 2 bits ++ trailing) = some (d, trailing) :=
        Reader.si16_eq_some_iff.mpr ⟨bits, hfit, rfl⟩
      refine ⟨.branch .none (.int d), ?_, .inr ⟨target, displacement, d, rfl, hd, rfl⟩⟩
      rw [Layout.read, Reader.bind_of_eq_some hread]
      rfl
  refine ⟨o, h.read_of_wire hpush hbranch hwire hns trailing, .inl ⟨?_, ?_⟩⟩
  · cases h with
    | branch => exact absurd rfl hbranch
    | _ => rfl
  · apply h.compare_self hpush hbranch

end Operands

end ActionBlock
