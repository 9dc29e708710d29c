import ActionBlock.Proofs.BitRuns
import ActionBlock.Proofs.WellFormed

/-!
# Typed fields of bit streams

A bit stream is written and read field by field. A field is a bit, an integer of some width, a byte
string of some length, a text that ends with a zero byte, or a floating point number of 64 bits, and
it stands for a string of bits, which are written at the cursor wherever that is. Fields that were
written one after the other are read back by their kinds alone: a later field does not touch the
bits of an earlier one, and each kind tells where its bits end.
-/

namespace ActionBlock

open BitStream

/-- The mark that says a byte order. -/
def ByteOrder.mark : ByteOrder → Text
  | little => "<"
  | big => ">"

namespace BitStream

/-! ### Fields -/

/-- A field: what it holds, and how. -/
inductive Field where
  | bit (b : Bool)
  | integer (width : Nat) (signed : Bool) (order : ByteOrder) (n : Int)
  | bytes (data : Bytes)
  | text (t : Text)
  /-- A number of 64 bits. -/
  | double (order : ByteOrder) (x : Double)
  deriving DecidableEq, Repr

/-- The kinds of fields, which are what a reader knows of a field. -/
inductive FieldKind where
  | bit
  | integer (width : Nat) (signed : Bool) (order : ByteOrder)
  | bytes (count : Nat)
  | text
  | double (order : ByteOrder)
  deriving DecidableEq, Repr

/-- Reads a field of a kind. -/
def FieldKind.read : FieldKind → BitOp Field
  | bit => .bit <$> readBit
  | integer width signed order => .integer width signed order <$> readInt width signed order
  | bytes count => .bytes <$> readBytes count
  | text => .text <$> readText
  | double order => .double order <$> readFloat (.int 64) (.text order.mark)

/-- Whether a number is in the range of an integer field. -/
def InRange (width : Nat) (signed : Bool) (n : Int) : Prop :=
  if signed then -2 ^ (width - 1) ≤ n ∧ n ≤ 2 ^ (width - 1) - 1 else 0 ≤ n ∧ n ≤ 2 ^ width - 1

namespace Field

/-- The kind of a field. -/
def kind : Field → FieldKind
  | bit _ => .bit
  | integer width signed order _ => .integer width signed order
  | bytes data => .bytes data.length
  | text _ => .text
  | double order _ => .double order

/-- Writes a field. -/
def write : Field → BitOp Unit
  | bit b => writeBit b
  | integer width signed order n => writeInt (.int n) width signed order
  | bytes data => writeBytes data
  | text t => writeString (.text t)
  | double order x => writeFloat (.double x) (.int 64) (.text order.mark)

/-- The fields that can be written and read back. A signed number has a bit at least, the one for
its sign, and a number with its least significant byte first is one of whole bytes. A text has no
zero in it, and is the one that its bytes spell. -/
def Admissible : Field → Prop
  | integer width signed order n =>
    (signed = true → 1 ≤ width) ∧ (order = .little → 8 ∣ width) ∧ InRange width signed n
  | text t => (∀ c ∈ t, c.val ≠ 0) ∧ t.Faithful
  | _ => True

/-- The bits of a field. -/
def bits : Field → List Bool
  | bit b => [b]
  | integer width _ order n => bitsOfInt width order n
  | bytes data => bitsOfBytes data
  | text t => bitsOfBytes ((Utf8.encode t).toOption.getD [] ++ [0])
  | double order x =>
    let bytes := Bytes.littleEndian 8 x.bits.toNat
    bitsOfBytes (match order with | .little => bytes | .big => bytes.reverse)

end Field

/-! ### Writing a field -/

theorem inRange_iff {width : Nat} {signed : Bool} {n : Int} :
  InRange width signed n
    ↔ (Scalar.fieldRange width signed).1 ≤ n ∧ n ≤ (Scalar.fieldRange width signed).2
  := by
  cases signed with
  | false => rfl
  | true => rfl

theorem floatBytes_double (x : Double) (order : ByteOrder) :
  floatBytes (.double x) (.int 64) (.text order.mark)
    = .ok (match order with
      | .little => Bytes.littleEndian 8 x.bits.toNat
      | .big => (Bytes.littleEndian 8 x.bits.toNat).reverse)
  := by
  cases order with
  | little => rfl
  | big => rfl

/-- The bytes of a text that can be written. -/
theorem Field.exists_encode {t : Text} (h : (text t).Admissible) :
  ∃ b, Utf8.encode t = .ok b ∧ Utf8.decode b = t ∧ 0 ∉ b ∧ (text t).bits = bitsOfBytes (b ++ [0])
  := by
  obtain ⟨hzero, hfaithful⟩ := h
  obtain ⟨b, hb, hdecode⟩ := map_eq_ok_iff.mp hfaithful
  use b, hb, hdecode, Utf8.zero_notMem_of_encode hb hzero
  rw [bits, hb]
  rfl

/-- A text is written as its bytes, and a zero byte that ends it. -/
theorem writes_writeString {t : Text} {b : Bytes} (hb : Utf8.encode t = .ok b) (hzero : 0 ∉ b) :
  Writes (writeString (.text t)) (bitsOfBytes (b ++ [0]))
  := by
  have hstring : Value.string (.text t) = .ok (b ++ [0]) :=
    Scalar.terminatedText_eq_ok_iff.mpr ⟨b, hb, hzero, rfl⟩
  rw [writeString, hstring]
  apply writes_writeBytes

/-- A field that can be written is written as its bits. -/
theorem Field.writes_write {f : Field} (h : f.Admissible) :
  Writes f.write f.bits
  := by
  cases f with
  | bit b => apply writes_writeBit
  | integer width signed order n =>
    obtain ⟨hsigned, horder, hrange⟩ := h
    obtain ⟨hlow, hhigh⟩ := inRange_iff.mp hrange
    apply writes_writeInt rfl hsigned hlow hhigh horder
  | bytes data => apply writes_writeBytes
  | text t =>
    obtain ⟨b, hb, -, hzero, hbits⟩ := exists_encode h
    rw [write, hbits]
    apply writes_writeString hb hzero
  | double order x =>
    rw [write, writeFloat_eq, floatBytes_double]
    apply writes_writeBytes

/-! ### Reading a field -/

section Reading

variable {α : Type} {op : BitOp α} {s : BitStream} {l : BitList} {rest : List Bool}

/-- What is read is made of the bits that are ahead. -/
theorem Reads.run_of_ahead {n : Nat} {f : List Bool → α} (h : Reads op n f) (hs : s.Holds l)
    (hroom : l.cursor ≤ l.bits.length) {bits : List Bool} (hlength : bits.length = n)
    (hahead : l.bits.drop l.cursor = bits ++ rest) :
  op.run s = (.ok (f bits), s.moved n)
  := by
  have hcount := congrArg List.length hahead
  rw [List.length_drop, List.length_append] at hcount
  have hcursor := hs.cursor_eq
  have hend := hs.length_eq
  rw [h.run_of_le hs.backed (by omega), hs.ahead_eq, hahead, List.take_left' hlength]

/-- The bits of an integer in either order make up its residue. -/
theorem magnitude_bitsOfInt {width : Nat} {order : ByteOrder} (h : order = .little → 8 ∣ width)
    (n : Int) :
  magnitude order (bitsOfInt width order n) = (n % 2 ^ width).toNat
  := by
  have hpos : (0 : Int) < 2 ^ width := by positivity
  have hlt : (n % 2 ^ width).toNat < 2 ^ width := by
    rw [Int.toNat_lt (Int.emod_nonneg n hpos.ne')]
    push_cast
    apply Int.emod_lt_of_pos n hpos
  cases order with
  | little =>
    have hpow : 256 ^ (width / 8) = 2 ^ width := by
      rw [show 256 = 2 ^ 8 from rfl, ← pow_mul, Nat.mul_div_cancel' (h rfl)]
    rw [magnitude, bitsOfInt, bytesOfBits_bitsOfBytes, Bytes.ofLittleEndian_littleEndian]
    rwa [hpow]
  | big => rw [magnitude, bitsOfInt, numberOfBits_bitsOfNumber, Nat.mod_eq_of_lt hlt]

/-- The bits of a number in the range of its field stand for that number. -/
theorem intOfBits_bitsOfInt {width : Nat} {signed : Bool} {order : ByteOrder} {n : Int}
    (hsigned : signed = true → 1 ≤ width) (horder : order = .little → 8 ∣ width)
    (hrange : InRange width signed n) :
  intOfBits signed order (bitsOfInt width order n) = n
  := by
  rw [intOfBits, magnitude_bitsOfInt horder, length_bitsOfInt horder]
  cases signed with
  | false =>
    obtain ⟨hlow, hhigh⟩ := hrange
    have hmod : n % 2 ^ width = n := Int.emod_eq_of_lt hlow (by omega)
    rw [hmod]
    apply Int.toNat_of_nonneg hlow
  | true =>
    obtain ⟨hlow, hhigh⟩ := hrange
    apply Bytes.toSigned_of_range (hsigned rfl) hlow hhigh

/-- The bits of a double in either order read back as it. -/
theorem floatOfBits_double (x : Double) (order : ByteOrder) :
  floatOfBits false order (Field.double order x).bits = x
  := by
  have hlt : x.bits.toNat < 256 ^ 8 := x.bits.toNat_lt
  have hback : floatOfBytes false (Bytes.littleEndian 8 x.bits.toNat) = x := by
    rw [floatOfBytes, Bytes.ofLittleEndian_littleEndian hlt]
    simp
  cases order with
  | little => rwa [floatOfBits, Field.bits, bytesOfBits_bitsOfBytes]
  | big =>
    rwa [floatOfBits, Field.bits, bytesOfBits_bitsOfBytes, List.reverse_reverse]

/-- The first zero of a text is its terminator. -/
theorem idxOf?_zero {b : Bytes} (h : 0 ∉ b) (more : Bytes) :
  (b ++ 0 :: more).idxOf? 0 = some b.length
  := by
  rw [List.idxOf?_eq_some_iff]
  use by simp
  constructor
  · simp
  · intro j hj
    rw [List.getElem_append_left hj]
    exact fun hzero => h (hzero ▸ List.getElem_mem hj)

/-- A text is read up to the zero byte that ends it. -/
theorem run_readText (hs : s.Holds l) {b : Bytes} (hzero : 0 ∉ b)
    (hahead : l.bits.drop l.cursor = bitsOfBytes (b ++ [0]) ++ rest) :
  readText.run s = (.ok (Utf8.decode b), s.moved (bitsOfBytes (b ++ [0])).length)
  := by
  have hbytes : bytesOfBits (l.bits.drop l.cursor) = b ++ 0 :: bytesOfBits rest := by
    rw [hahead, bytesOfBits_bitsOfBytes_append, List.append_assoc]
    rfl
  obtain ⟨hresult, hstate⟩ := behaves_readText hs (by simp [hbytes])
  simp only [BitList.readText, hbytes, idxOf?_zero hzero, List.take_left] at hresult hstate
  -- Reading changes nothing but the cursor, so where the cursor is says all.
  obtain ⟨hsame, hlength⟩ := Steady.readText s
  have hcursor := hstate.cursor_eq
  have hmoved : (readText.run s).2 = s.moved (bitsOfBytes (b ++ [0])).length := by
    rw [moved, ← hsame, ← hlength, hs.cursor_eq, ← Nat.cast_add, length_bitsOfBytes,
      List.length_append, List.length_singleton, ← hcursor]
  apply Prod.ext hresult hmoved

/-- A field is read back if its bits are ahead. -/
theorem Field.run_read {f : Field} (h : f.Admissible) (hs : s.Holds l)
    (hroom : l.cursor ≤ l.bits.length) (hahead : l.bits.drop l.cursor = f.bits ++ rest) :
  f.kind.read.run s = (.ok f, s.moved f.bits.length)
  := by
  cases f with
  | bit b =>
    rw [kind, FieldKind.read, (reads_readBit.map bit).run_of_ahead hs hroom rfl hahead]
    cases b with
    | false => rfl
    | true => rfl
  | integer width signed order n =>
    obtain ⟨hsigned, horder, hrange⟩ := h
    have hlength := length_bitsOfInt horder n
    rw [kind, FieldKind.read,
      ((reads_readInt horder signed).map _).run_of_ahead hs hroom hlength hahead,
      Function.comp_apply, intOfBits_bitsOfInt hsigned horder hrange, bits, hlength]
  | bytes data =>
    have hlength := length_bitsOfBytes data
    rw [kind, FieldKind.read, ((reads_readBytes _).map _).run_of_ahead hs hroom hlength hahead,
      Function.comp_apply, bytesOfBits_bitsOfBytes, bits, hlength]
  | text t =>
    obtain ⟨b, -, hdecode, hzero, hbits⟩ := exists_encode h
    rw [hbits] at hahead ⊢
    rw [kind, FieldKind.read, run_map, run_readText hs hzero hahead, hdecode]
    rfl
  | double order x =>
    have hlength : (double order x).bits.length = 64 := by
      cases order with
      | little => simp [bits]
      | big => simp [bits]
    have horder : byteOrder? (.text order.mark) = .ok (some order) := by
      cases order with
      | little => rfl
      | big => rfl
    have hwidth : isSingleWidth (.int 64) = .ok false := rfl
    have hread := reads_readFloat hwidth rfl horder
    rw [kind, FieldKind.read, (hread.map _).run_of_ahead hs hroom hlength hahead,
      Function.comp_apply, floatOfBits_double, hlength]
    rfl

end Reading

/-! ### Several fields -/

/-- Writes fields, one after the other. -/
def writeFields : List Field → BitOp Unit
  | [] => pure ()
  | f :: fields => do
    f.write
    writeFields fields

/-- Reads fields of the given kinds, one after the other. -/
def readFields : List FieldKind → BitOp (List Field)
  | [] => pure []
  | k :: kinds => do
    let f ← k.read
    let fields ← readFields kinds
    pure (f :: fields)

variable {s : BitStream} {l : BitList} {fields : List Field}

/-- Fields are written as their bits, end to end. -/
theorem exists_writeFields (hfields : ∀ f ∈ fields, f.Admissible) (hs : s.Holds l)
    (hroom : l.cursor ≤ l.bits.length) :
  ∃ t, (writeFields fields).run s = (.ok (), t) ∧ t.Holds (l.write (fields.flatMap Field.bits))
  := by
  induction fields generalizing s l with
  | nil =>
    use s, rfl
    rwa [List.flatMap_nil, l.write_nil hroom]
  | cons f fields ih =>
    rw [List.forall_mem_cons] at hfields
    obtain ⟨t, hrun, ht⟩ := Field.writes_write hfields.1 s l hs (.inr hroom)
    have hroom' : (l.write f.bits).cursor ≤ (l.write f.bits).bits.length := by
      rw [l.length_write]
      apply le_max_right
    obtain ⟨u, hrest, hu⟩ := ih hfields.2 ht hroom'
    use u
    constructor
    · rw [writeFields, run_bind_of_ok hrun, hrest]
    · rwa [List.flatMap_cons, ← l.write_write]

/-- What was written is ahead of where the cursor was. -/
theorem drop_write (l : BitList) (new : List Bool) :
  (l.write new).bits.drop l.cursor = new ++ l.bits.drop (l.cursor + new.length)
  := by
  rw [BitList.write, List.append_assoc _ new, List.drop_left' l.length_front]

/-- Fields are read back if their bits are ahead, end to end. -/
theorem run_readFields (hfields : ∀ f ∈ fields, f.Admissible) (hs : s.Holds l)
    (hroom : l.cursor ≤ l.bits.length) {rest : List Bool}
    (hahead : l.bits.drop l.cursor = fields.flatMap Field.bits ++ rest) :
  (readFields (fields.map Field.kind)).run s
    = (.ok fields, s.moved (fields.flatMap Field.bits).length)
  := by
  induction fields generalizing s l with
  | nil =>
    rw [List.flatMap_nil, List.length_nil, moved, Nat.cast_zero, add_zero]
    rfl
  | cons f fields ih =>
    rw [List.forall_mem_cons] at hfields
    rw [List.flatMap_cons, List.append_assoc] at hahead
    have hcount := congrArg List.length hahead
    rw [List.length_drop, List.length_append] at hcount
    have hahead' : l.bits.drop (l.cursor + f.bits.length)
        = fields.flatMap Field.bits ++ rest := by
      rw [← List.drop_drop, hahead, List.drop_left]
    have hrest := ih hfields.2 (hs.moved f.bits.length)
      (by dsimp only; omega) hahead'
    rw [List.map_cons, readFields, run_bind_of_ok (Field.run_read hfields.1 hs hroom hahead),
      run_bind_of_ok hrest, moved_moved, List.flatMap_cons, List.length_append, Nat.cast_add]
    rfl

/-- Fields that were written are read back from where the cursor was, and the cursor is then where
writing left it. -/
theorem run_seek_readFields (hfields : ∀ f ∈ fields, f.Admissible)
    (hroom : l.cursor ≤ l.bits.length) (hs : s.Holds (l.write (fields.flatMap Field.bits))) :
  (do seek l.cursor .start; readFields (fields.map Field.kind)).run s = (.ok fields, s)
  := by
  have hseek : (seek l.cursor .start).run s = (.ok (), { s with cursor := l.cursor }) := rfl
  have hback : ({ s with cursor := l.cursor } : BitStream).Holds
      ⟨(l.write (fields.flatMap Field.bits)).bits, l.cursor⟩ := ⟨hs.length_eq, rfl, hs.bytes_eq⟩
  have hroom' : l.cursor ≤ (l.write (fields.flatMap Field.bits)).bits.length := by
    rw [l.length_write]
    omega
  have hahead := drop_write l (fields.flatMap Field.bits)
  have hend : (l.cursor : Int) + (fields.flatMap Field.bits).length = s.cursor := by
    rw [hs.cursor_eq, ← Nat.cast_add]
    rfl
  rw [run_bind_of_ok hseek, run_readFields hfields hback hroom' hahead, moved]
  dsimp only
  rw [hend]

/-! ### Numbers that do not fit -/

section Overflow

variable {n : Int} {width : Nat} {signed : Bool} {order : ByteOrder}

theorem not_width_neg (h : signed = true → 1 ≤ width) :
  ¬ (if signed then (width : Int) - 1 else width) < 0
  := by
  cases signed with
  | false => simp
  | true =>
    have := h rfl
    simp only [if_true]
    omega

/-- What cannot be put into a field is found out before anything is written. -/
theorem run_writeInt_of_fit {value : Value} {fault : Fault} (hwidth : signed = true → 1 ≤ width)
    (h : value.fit width signed = .error fault) :
  (writeInt value width signed order).run s = (.error fault, s)
  := by
  rw [writeInt, if_neg (not_width_neg hwidth), Int.toNat_natCast, h]
  rfl

/-- A number that is not in the range of its field is not written, and the stream stays as it is.
The fault is that of the message if the number has too many digits for it. -/
theorem run_writeInt_of_not_inRange (hwidth : signed = true → 1 ≤ width)
    (h : ¬ InRange width signed n) :
  (writeInt (.int n) width signed order).run s
    = (.error (if n.natAbs < 10 ^ Numeral.mostDigits then .outOfRange n width signed
      else .tooLongToShow), s)
  := by
  apply run_writeInt_of_fit hwidth
  rw [inRange_iff] at h
  simp only [← Numeral.isShown_iff]
  exact if_neg h

/-- A NaN is in no range, and has no numeral for the message. -/
theorem run_writeInt_of_nan {x : Double} (hwidth : signed = true → 1 ≤ width)
    (h : x.meaning = .nan) :
  (writeInt (.double x) width signed order).run s = (.error .integerOfNan, s)
  := by
  apply run_writeInt_of_fit hwidth
  have hcompare : ∀ i, x.compareInt? i = none := by
    intro i
    rw [Double.compareInt?, h]
  have hpart : Scalar.integerPart x = .error .integerOfNan := by
    simp only [Scalar.integerPart, Double.truncate?, h, if_true]
  simp only [Value.fit, Scalar.fit, hcompare, hpart, Option.any_none, Bool.false_and,
    Bool.false_eq_true, if_false]
  rfl

/-- An integer in range is refused in little-endian order where its width is not a number of
bytes. -/
theorem run_writeInt_of_uneven (hwidth : signed = true → 1 ≤ width) (h : InRange width signed n)
    (huneven : ¬ 8 ∣ width) :
  (writeInt (.int n) width signed .little).run s = (.error .unevenWrite, s)
  := by
  obtain ⟨hlow, hhigh⟩ := inRange_iff.mp h
  have hfit : Value.fit width signed (.int n) = .ok (n % 2 ^ width).toNat :=
    Scalar.fitInt_eq_ok_iff.mpr ⟨hlow, hhigh, rfl⟩
  rw [writeInt, if_neg (not_width_neg hwidth), Int.toNat_natCast, hfit]
  dsimp only
  rw [if_pos (by omega)]
  rfl

/-- Only a number that is not in the range of its field overflows it, and only one that is shown. -/
theorem outOfRange_iff (hwidth : signed = true → 1 ≤ width) (hs : s.Holds l)
    (hroom : l.cursor ≤ l.bits.length) :
  (∃ value size sign, ((writeInt (.int n) width signed order).run s).1
      = .error (.outOfRange value size sign))
    ↔ ¬ InRange width signed n ∧ n.natAbs < 10 ^ Numeral.mostDigits
  := by
  by_cases hrange : InRange width signed n
  · simp only [hrange, not_true_eq_false, false_and, iff_false]
    rintro ⟨value, size, sign, hfault⟩
    by_cases horder : order = .little → 8 ∣ width
    · have hfield : (Field.integer width signed order n).Admissible := ⟨hwidth, horder, hrange⟩
      obtain ⟨t, hrun, -⟩ := Field.writes_write hfield s l hs (.inr hroom)
      rw [Field.write] at hrun
      rw [hrun] at hfault
      cases hfault
    · obtain ⟨rfl, huneven⟩ := Classical.not_imp.mp horder
      rw [run_writeInt_of_uneven hwidth hrange huneven] at hfault
      cases hfault
  · simp only [run_writeInt_of_not_inRange hwidth hrange, hrange, not_false_eq_true, true_and]
    split <;> simp_all

end Overflow

end BitStream

/-! ### The theorem -/

/-- Fields are read back as they were written. Start with a stream whose cursor is not past its end,
write fields one after the other, set the cursor back to where it was, and read fields of the same
kinds: they are the same fields, and the stream is then the one that was left by writing them, its
cursor included.

An integer that is written overflows its field if it is not in the range of the field and is shown,
and only then. An integer outside of the range that has too many digits, and a NaN, are faults of
the message. In any case the stream stays as it is. -/
theorem fields_read_back {s : BitStream} (hs : s.Sound) (hcursor : s.cursor ≤ s.length) :
  (∀ fields : List Field, (∀ f ∈ fields, f.Admissible) →
      ∃ t, (writeFields fields).run s = (.ok (), t)
        ∧ (do seek s.cursor .start; readFields (fields.map Field.kind)).run t = (.ok fields, t))
    ∧ (∀ (n : Int) (width : Nat) (signed : Bool) (order : ByteOrder), (signed = true → 1 ≤ width) →
      ((∃ value size sign, ((writeInt (.int n) width signed order).run s).1
          = .error (.outOfRange value size sign))
        ↔ ¬ InRange width signed n ∧ n.natAbs < 10 ^ Numeral.mostDigits)
      ∧ (¬ InRange width signed n →
        (writeInt (.int n) width signed order).run s
          = (.error (if n.natAbs < 10 ^ Numeral.mostDigits then .outOfRange n width signed
            else .tooLongToShow), s)))
    ∧ ∀ (x : Double) (width : Nat) (signed : Bool) (order : ByteOrder),
      (signed = true → 1 ≤ width) → x.meaning = .nan →
      (writeInt (.double x) width signed order).run s = (.error .integerOfNan, s)
  := by
  have hview := hs.holds
  have hroom : s.view.cursor ≤ s.view.bits.length := by
    have := hview.length_eq
    have := hview.cursor_eq
    omega
  refine ⟨?_, ?_, ?_⟩
  · intro fields hfields
    obtain ⟨t, hwrite, ht⟩ := exists_writeFields hfields hview hroom
    use t, hwrite
    rw [hview.cursor_eq]
    apply run_seek_readFields hfields hroom ht
  · intro n width signed order hwidth
    constructor
    · apply outOfRange_iff hwidth hview hroom
    · apply run_writeInt_of_not_inRange hwidth
  · intro x width signed order hwidth hnan
    apply run_writeInt_of_nan hwidth hnan

/-- Fields of every kind, at positions in the middle of bytes: a negative number of either byte
order, an empty one, bytes, a text with a byte that is no text, and a NaN with a payload. -/
def mixedFields : List Field :=
  [.bit true, .integer 5 true .big (-16), .integer 0 false .little 0, .integer 24 true .little (-2),
    .bytes [0, 0xFF], .text [0x61, 0xE9, 0xDCFF], .double .big ⟨0x7FF0000000000001⟩]

theorem fields_read_back_mixedFields :
  ∃ s t : BitStream, s.Reached ∧ s.view = ⟨[true, false, true], 2⟩
    ∧ (∀ f ∈ mixedFields, f.Admissible)
    ∧ (writeFields mixedFields).run s = (.ok (), t)
    ∧ (do seek 2 .start; readFields (mixedFields.map Field.kind)).run t = (.ok mixedFields, t)
    ∧ ¬ InRange 16 true 0x8000
    ∧ (writeInt (.int 0x8000) 16 true .little).run s = (.error (.outOfRange 0x8000 16 true), s)
  := by
  have hreached := (Reached.ofBits [true, false, true]).perform (.seek 2 .start) (by decide)
  have hadmissible : ∀ f ∈ mixedFields, f.Admissible := by
    have hinteger : ∀ f ∈ [Field.integer 5 true .big (-16), .integer 0 false .little 0,
        .integer 24 true .little (-2)], f.Admissible := by
      simp [Field.Admissible, InRange]
    have htext : Field.Admissible (.text [0x61, 0xE9, 0xDCFF]) := by
      rw [Field.Admissible, Text.Faithful]
      constructor
      · simp only [List.forall_mem_cons]
        exact ⟨by decide, by decide, by decide, by simp⟩
      · decide +kernel
    simp only [List.forall_mem_cons] at hinteger
    simp only [mixedFields, List.forall_mem_cons]
    exact ⟨trivial, hinteger.1, hinteger.2.1, hinteger.2.2.1, trivial, htext, trivial, by simp⟩
  have hrange : ¬ InRange 16 true 0x8000 := by simp [InRange]
  obtain ⟨hread, hoverflow, -⟩ := fields_read_back hreached.sound (by decide)
  obtain ⟨t, hwrite, hback⟩ := hread mixedFields hadmissible
  have hshown : Int.natAbs 0x8000 < 10 ^ Numeral.mostDigits :=
    Numeral.isShown_iff.mp (Numeral.isShown_of_lt (by decide))
  have hmisfit := (hoverflow 0x8000 16 true .little (by decide)).2 hrange
  rw [if_pos hshown] at hmisfit
  exact ⟨_, t, hreached, by decide, hadmissible, hwrite, hback, hrange, hmisfit⟩

/-- Neither the least integer that has too many digits nor a NaN is in the range of a field of
sixteen bits, and neither of them overflows it. -/
theorem writeInt_not_outOfRange :
  ¬ InRange 16 false (10 ^ Numeral.mostDigits)
    ∧ (writeInt (.int (10 ^ Numeral.mostDigits)) 16 false .big).run empty
      = (.error .tooLongToShow, empty)
    ∧ Double.meaning ⟨0x7FF8000000000000⟩ = .nan
    ∧ (writeInt (.double ⟨0x7FF8000000000000⟩) 16 false .big).run empty
      = (.error .integerOfNan, empty)
  := by
  have hlarge : (2 : Int) ^ 16 ≤ 10 ^ Numeral.mostDigits :=
    calc (2 : Int) ^ 16 ≤ 10 ^ 5 := by decide
      _ ≤ 10 ^ Numeral.mostDigits := pow_le_pow_right₀ (by decide) (by decide)
  have hbeyond : ∀ n : Int, 2 ^ 16 ≤ n → ¬ InRange 16 false n := by
    intro n hn
    simp only [InRange, Bool.false_eq_true, if_false]
    omega
  have hrange := hbeyond _ hlarge
  have hpower : ∀ k : Nat, ¬ Int.natAbs (10 ^ k) < 10 ^ k := by
    intro k
    rw [Int.natAbs_pow]
    exact lt_irrefl _
  have hdigits := hpower Numeral.mostDigits
  have hrun : (writeInt (.int (10 ^ Numeral.mostDigits)) 16 false .big).run empty = _ :=
    run_writeInt_of_not_inRange (by decide) hrange
  rw [if_neg hdigits] at hrun
  exact ⟨hrange, hrun, by decide, run_writeInt_of_nan (by decide) (by decide)⟩

end ActionBlock
