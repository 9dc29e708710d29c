import ActionBlock.Action.Wire
import ActionBlock.Proofs.Reader
import ActionBlock.Proofs.Single

/-!
# What fields write

For each kind of field, when a value can be written and what its bytes are. The operands of a
record without the bytes at their end are `Operands.wire`: the fields, the sizes of the bodies,
and the fields after the sizes.
-/

namespace ActionBlock

/-! ### Outcomes -/

section Outcomes

variable {ε α β : Type}

/-- A sequence succeeds exactly when both of its parts do. -/
theorem bind_eq_ok_iff {x : Except ε α} {f : α → Except ε β} {b : β} :
  (x >>= f) = .ok b ↔ ∃ a, x = .ok a ∧ f a = .ok b
  := by
  cases x with
  | error e => simp [bind, Except.bind]
  | ok a => simp [bind, Except.bind]

/-- A sequence fails exactly when its first part does, or its second after the first. -/
theorem bind_eq_error_iff {x : Except ε α} {f : α → Except ε β} {e : ε} :
  (x >>= f) = .error e ↔ x = .error e ∨ ∃ a, x = .ok a ∧ f a = .error e
  := by
  cases x with
  | error e => simp [bind, Except.bind]
  | ok a => simp [bind, Except.bind]

theorem map_eq_ok_iff {x : Except ε α} {f : α → β} {b : β} :
  x.map f = .ok b ↔ ∃ a, x = .ok a ∧ f a = b
  := by
  cases x with
  | error e => simp [Except.map]
  | ok a => simp [Except.map]

theorem map_eq_error_iff {x : Except ε α} {f : α → β} {e : ε} :
  x.map f = .error e ↔ x = .error e
  := by
  cases x with
  | error e => simp [Except.map]
  | ok a => simp [Except.map]

/-- A list is mapped successfully exactly when each of its members is. -/
theorem mapM_eq_ok_iff {f : α → Except ε β} {as : List α} {bs : List β} :
  as.mapM f = .ok bs ↔ List.Forall₂ (fun a b => f a = .ok b) as bs
  := by
  induction as generalizing bs with
  | nil =>
    rw [List.mapM_nil, List.forall₂_nil_left_iff]
    exact ⟨fun h => (Except.ok.inj h).symm, fun h => congrArg Except.ok h.symm⟩
  | cons a as ih =>
    simp only [List.mapM_cons, bind_eq_ok_iff, ih, List.forall₂_cons_left_iff]
    constructor
    · rintro ⟨b, hb, rest, hrest, ⟨⟩⟩
      exact ⟨b, rest, hb, hrest, rfl⟩
    · rintro ⟨b, rest, hb, hrest, rfl⟩
      exact ⟨b, hb, rest, hrest, rfl⟩

/-- A traversal fails at the first member that fails. -/
theorem mapM_eq_error_iff {f : α → Except ε β} {as : List α} {e : ε} :
  as.mapM f = .error e
    ↔ ∃ before a after, as = before ++ a :: after ∧ (∀ x ∈ before, ∃ b, f x = .ok b)
      ∧ f a = .error e
  := by
  induction as with
  | nil => simp [pure, Except.pure]
  | cons a as ih =>
    rw [List.mapM_cons]
    cases ha : f a with
    | error e' =>
      constructor
      · intro h
        obtain rfl := Except.error.inj h
        exact ⟨[], a, as, rfl, by simp, ha⟩
      · rintro ⟨before, x, after, heq, hbefore, hx⟩
        cases before with
        | nil =>
          obtain ⟨rfl, rfl⟩ := List.cons.inj heq
          rw [← ha, hx]
          rfl
        | cons y before =>
          obtain ⟨rfl, -⟩ := List.cons.inj heq
          obtain ⟨b, hb⟩ := hbefore a List.mem_cons_self
          rw [ha] at hb
          cases hb
    | ok b =>
      have hrest : (do let b ← Except.ok b; let bs ← as.mapM f; pure (b :: bs)) = .error e
          ↔ as.mapM f = .error e := by
        cases as.mapM f <;> simp [bind, Except.bind, pure, Except.pure]
      rw [hrest, ih]
      constructor
      · rintro ⟨before, x, after, rfl, hbefore, hx⟩
        refine ⟨a :: before, x, after, rfl, ?_, hx⟩
        simpa using ⟨⟨b, ha⟩, hbefore⟩
      · rintro ⟨before, x, after, heq, hbefore, hx⟩
        cases before with
        | nil =>
          obtain ⟨rfl, rfl⟩ := List.cons.inj heq
          rw [ha] at hx
          cases hx
        | cons y before =>
          obtain ⟨rfl, rfl⟩ := List.cons.inj heq
          exact ⟨before, x, after, rfl, fun z hz => hbefore z (List.mem_cons_of_mem _ hz), hx⟩

/-- A traversal succeeds if it does for each member. -/
theorem exists_mapM_eq_ok_iff {f : α → Except ε β} {as : List α} :
  (∃ bs, as.mapM f = .ok bs) ↔ ∀ a ∈ as, ∃ b, f a = .ok b
  := by
  cases h : as.mapM f with
  | ok bs =>
    have hall := mapM_eq_ok_iff.mp h
    simp only [Except.ok.injEq, exists_eq', true_iff]
    clear h
    induction hall with
    | nil => simp
    | cons hb _ ih => simpa using ⟨⟨_, hb⟩, ih⟩
  | error e =>
    obtain ⟨before, a, after, rfl, -, ha⟩ := mapM_eq_error_iff.mp h
    simp only [reduceCtorEq, exists_false, false_iff, not_forall]
    exact ⟨a, by simp, by simp [ha]⟩

end Outcomes

/-! ### Numbers -/

/-- An integer is shown if it is below a power of ten. -/
theorem Numeral.isShown_iff {n : Int} :
  isShown n = true ↔ n.natAbs < 10 ^ mostDigits
  := by
  rw [isShown, decide_eq_true_iff, nat, digits, List.length_map]
  exact Nat.length_toDigits_le_iff (by decide) (by decide)

/-- The integers that have a field of 64 bits are shown. -/
theorem Numeral.isShown_of_lt {n : Int} (h : n.natAbs < 2 ^ 64) :
  isShown n = true
  := by
  rw [isShown_iff]
  calc n.natAbs < 2 ^ 64 := h
    _ ≤ 10 ^ 20 := by decide
    _ ≤ 10 ^ mostDigits := Nat.pow_le_pow_right (by decide) (by decide)

theorem Scalar.numeral_of_isShown {n : Int} (h : Numeral.isShown n = true) :
  numeral n = .ok (Numeral.int n)
  := if_pos h

/-- An integer has a numeral exactly when it is within the digit limit. -/
theorem Scalar.numeral_eq_ok_iff {n : Int} {t : Text} :
  numeral n = .ok t ↔ Numeral.isShown n = true ∧ Numeral.int n = t
  := by
  rw [numeral]
  split <;> simp_all

/-- A number is shown in decimal if it does not have too many digits. -/
theorem Value.decimal_eq_ok_iff {v : Value} {t : Text} :
  v.decimal = .ok t
    ↔ ∃ n, v.number = .ok n ∧ n.natAbs < 10 ^ Numeral.mostDigits ∧ Numeral.int n = t
  := by
  change (v.number >>= Scalar.numeral) = .ok t ↔ _
  simp only [bind_eq_ok_iff, Scalar.numeral_eq_ok_iff, Numeral.isShown_iff]

theorem Scalar.signedNumeral_of_isShown {n : Int} (h : Numeral.isShown n = true) :
  signedNumeral n = .ok (Numeral.signed n)
  := if_pos h

/-- An integer has a signed numeral exactly when it is within the digit limit. -/
theorem Scalar.signedNumeral_eq_ok_iff {n : Int} {t : Text} :
  signedNumeral n = .ok t ↔ Numeral.isShown n = true ∧ Numeral.signed n = t
  := by
  rw [signedNumeral]
  split <;> simp_all

/-- Integers and truth values are written as the numbers they are. -/
theorem Value.fit_of_whole {v : Value} {n : Int} (h : v.whole? = some n) (width : Nat)
    (signed : Bool) :
  v.fit width signed = Scalar.fitInt width signed n
  := by
  obtain ⟨_ | b | m | _ | _ | _⟩ | _ := v
  all_goals cases h
  · rfl
  · rfl

/-- Only integers and truth values are written into a field for integers. -/
theorem Value.fit_eq_ok_iff {v : Value} {width : Nat} {signed : Bool} {bits : Nat} :
  v.fit width signed = .ok bits
    ↔ ∃ n, v.whole? = some n ∧ Scalar.fitInt width signed n = .ok bits
  := by
  constructor
  · intro h
    cases hwhole : v.whole? with
    | some n =>
      rw [fit_of_whole hwhole] at h
      exact ⟨n, rfl, h⟩
    | none =>
      cases v with
      | scalar s =>
        cases s with
        | bool b | int m => cases hwhole
        | double x =>
          simp only [fit, Scalar.fit] at h
          split at h
          · cases h
          · obtain ⟨n, -, h⟩ := bind_eq_ok_iff.mp h
            cases h
        | _ => cases h
      | _ => cases h
  · rintro ⟨n, hwhole, h⟩
    rw [fit_of_whole hwhole, h]

namespace Operands

/-- An integer is written to one byte exactly when it is the value of a byte. -/
theorem ui8_int_eq_ok_iff {n : Int} {bytes : Bytes} :
  ui8 (.int n) = .ok bytes ↔ ∃ b : UInt8, n = b.toNat ∧ bytes = [b]
  := by
  simp only [ui8, Value.fit, Scalar.fit, map_eq_ok_iff, Scalar.fitInt_unsigned_eq_ok_iff]
  constructor
  · rintro ⟨m, ⟨rfl, hm⟩, rfl⟩
    refine ⟨UInt8.ofNat m, ?_, rfl⟩
    rw [Bytes.toNat_ofNat hm]
  · rintro ⟨b, rfl, rfl⟩
    exact ⟨b.toNat, ⟨rfl, b.toNat_lt⟩, by rw [UInt8.ofNat_toNat]⟩

/-- An integer is written to two bytes exactly when it is natural and below `2 ^ 16`. -/
theorem ui16_int_eq_ok_iff {n : Int} {bytes : Bytes} :
  ui16 (.int n) = .ok bytes
    ↔ ∃ m : Nat, n = m ∧ m < 2 ^ 16 ∧ bytes = Bytes.littleEndian 2 m
  := by
  simp only [ui16, Value.fit, Scalar.fit, map_eq_ok_iff, Scalar.fitInt_unsigned_eq_ok_iff]
  constructor
  · rintro ⟨m, ⟨rfl, hm⟩, rfl⟩
    exact ⟨m, rfl, hm, rfl⟩
  · rintro ⟨m, rfl, hm, rfl⟩
    exact ⟨m, ⟨rfl, hm⟩, rfl⟩

theorem count_eq_ok_iff {n : Nat} {bytes : Bytes} :
  count n = .ok bytes ↔ n < 2 ^ 16 ∧ bytes = Bytes.littleEndian 2 n
  := by
  simp only [count, map_eq_ok_iff, Scalar.fitInt_unsigned_eq_ok_iff, Int.natCast_inj]
  constructor
  · rintro ⟨m, ⟨rfl, hm⟩, rfl⟩
    exact ⟨hm, rfl⟩
  · rintro ⟨hn, rfl⟩
    exact ⟨n, ⟨rfl, hn⟩, rfl⟩

/-! ### Several fields -/

/-- Values are written one after another exactly when each of them is. -/
theorem each_eq_ok_iff {write : Value → Except Fault Bytes} {vs : List Value} {bytes : Bytes} :
  each write vs = .ok bytes
    ↔ ∃ pieces, List.Forall₂ (fun v piece => write v = .ok piece) vs pieces
      ∧ bytes = pieces.flatten
  := by
  simp only [each, map_eq_ok_iff, mapM_eq_ok_iff, @eq_comm _ bytes]

theorem each_cons_eq_ok_iff {write : Value → Except Fault Bytes} {v : Value} {vs : List Value}
    {bytes : Bytes} :
  each write (v :: vs) = .ok bytes
    ↔ ∃ x y, write v = .ok x ∧ each write vs = .ok y ∧ bytes = x ++ y
  := by
  simp only [each_eq_ok_iff, List.forall₂_cons_left_iff]
  constructor
  · rintro ⟨_, ⟨x, pieces, hx, hp, rfl⟩, rfl⟩
    exact ⟨x, pieces.flatten, hx, ⟨pieces, hp, rfl⟩, rfl⟩
  · rintro ⟨x, _, hx, ⟨pieces, hp, rfl⟩, rfl⟩
    exact ⟨x :: pieces, ⟨x, pieces, hx, hp, rfl⟩, rfl⟩

theorem both_eq_ok_iff {a b : Except Fault Bytes} {bytes : Bytes} :
  both a b = .ok bytes ↔ ∃ x y, a = .ok x ∧ b = .ok y ∧ bytes = x ++ y
  := by
  simp only [both, bind_eq_ok_iff, Except.ok.injEq]
  constructor
  · rintro ⟨x, hx, y, hy, rfl⟩
    exact ⟨x, y, hx, hy, rfl⟩
  · rintro ⟨x, y, hx, hy, rfl⟩
    exact ⟨x, hx, y, hy, rfl⟩

theorem sizeOf_list_eq_ok_iff {vs : List Value} {bytes : Bytes} :
  sizeOf (.list vs) = .ok bytes
    ↔ vs.length < 2 ^ 16 ∧ bytes = Bytes.littleEndian 2 vs.length
  := by
  apply count_eq_ok_iff

theorem membersOf_list {write : Value → Except Fault Bytes} {vs : List Value} :
  membersOf write (.list vs) = each write vs
  := rfl

/-- Body sizes are written exactly when each of them fits into two bytes. -/
theorem sizes_eq_ok_iff {ns : List Nat} {bytes : Bytes} :
  sizes ns = .ok bytes
    ↔ (∀ n ∈ ns, n < 2 ^ 16) ∧ bytes = ns.flatMap (Bytes.littleEndian 2)
  := by
  simp only [sizes, map_eq_ok_iff, mapM_eq_ok_iff, count_eq_ok_iff]
  constructor
  · rintro ⟨pieces, hp, rfl⟩
    induction hp with
    | nil => simp
    | cons h _ ih =>
      obtain ⟨hn, rfl⟩ := h
      obtain ⟨hns, heq⟩ := ih
      exact ⟨by simpa using ⟨hn, hns⟩, by simp [heq]⟩
  · rintro ⟨hns, rfl⟩
    refine ⟨ns.map (Bytes.littleEndian 2), ?_, by rw [List.flatMap_def]⟩
    rw [List.forall₂_map_right_iff, List.forall₂_same]
    exact fun n hn => ⟨hns n hn, rfl⟩

/-! ### The operands of a record -/

/-- The bytes of the operands of a record whose bodies have the given sizes, without the bytes
that no field reads. -/
def wire (o : Operands) (ns : List Nat) : Except Fault Bytes := do
  let fields ← o.fields
  let sizes ← sizes ns
  let closing ← o.closing
  .ok (fields ++ sizes ++ closing)

/-- Operands are written exactly when their fields, the body sizes and the closing fields are, in
this order. -/
theorem wire_eq_ok_iff {o : Operands} {ns : List Nat} {bytes : Bytes} :
  o.wire ns = .ok bytes
    ↔ ∃ front back, o.fields = .ok front ∧ (∀ n ∈ ns, n < 2 ^ 16) ∧ o.closing = .ok back
      ∧ bytes = front ++ ns.flatMap (Bytes.littleEndian 2) ++ back
  := by
  simp only [wire, bind_eq_ok_iff, sizes_eq_ok_iff, Except.ok.injEq]
  constructor
  · rintro ⟨front, hf, _, ⟨hns, rfl⟩, back, hb, rfl⟩
    exact ⟨front, back, hf, hns, hb, rfl⟩
  · rintro ⟨front, back, hf, hns, hb, rfl⟩
    exact ⟨front, hf, _, ⟨hns, rfl⟩, back, hb, rfl⟩

end Operands

/-- A record has operand bytes exactly when its operands are written and its trailing data are
bytes. -/
theorem Record.operandBytes_eq_ok_iff {r : Record} {ns : List Nat} {bytes : Bytes} :
  r.operandBytes ns = .ok bytes
    ↔ ∃ w t, r.operands.wire ns = .ok w ∧ r.trailing = .bytes t ∧ bytes = w ++ t
  := by
  have htrailing : ∀ t, r.trailing.trailingBytes = .ok t ↔ r.trailing = .bytes t := by
    intro t
    constructor
    · intro h
      simp only [Value.trailingBytes] at h
      split at h
      · rename_i b hb
        rw [hb, Except.ok.inj h]
      · cases h
    · intro h
      rw [h]
      rfl
  simp only [operandBytes, Operands.wire, bind_eq_ok_iff, Except.ok.injEq, htrailing]
  constructor
  · rintro ⟨f, hf, s, hs, c, hc, t, ht, rfl⟩
    exact ⟨f ++ s ++ c, t, ⟨f, hf, s, hs, c, hc, rfl⟩, ht, rfl⟩
  · rintro ⟨_, t, ⟨f, hf, s, hs, c, hc, rfl⟩, ht, rfl⟩
    exact ⟨f, hf, s, hs, c, hc, t, ht, rfl⟩

end ActionBlock
