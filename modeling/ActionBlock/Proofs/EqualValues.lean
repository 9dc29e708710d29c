import ActionBlock.Proofs.Readback
import ActionBlock.Proofs.Rounding

/-!
# Equal operands are written alike

Equality compares numbers by their value, across integers, truth values and floating point numbers,
and a list of any kind with another of that kind. Fields are more exact: a field for integers
refuses a floating point number, a string is a text or a byte string. So where equal values can both
be written into a field, the bytes are the same.

The one exception are the two zeros of floating point numbers, which are equal. They are written
differently as pushed numbers of 32 or 64 bits, and nowhere else.

A NaN is not equal to itself, but one and the same member of two lists is taken as equal without a
look at it. So that nothing depends on which values are held once, all of this is shown for a
coarser relation, in which every value is like itself.
-/

namespace ActionBlock

/-! ### Outcomes that agree -/

section Agreement

variable {ε α β : Type} {x y : Except ε α}

/-- Two outcomes that are the same if both are successes. -/
def Agree (x y : Except ε α) : Prop := ∀ a b, x = .ok a → y = .ok b → a = b

namespace Agree

theorem refl (x : Except ε α) :
  Agree x x
  := by
  intro a b ha hb
  exact Except.ok.inj (ha.symm.trans hb)

/-- A computation that goes on from results that may differ agrees where all that follows agrees. -/
theorem bind_of {f g : α → Except ε β}
    (h : ∀ a b, x = .ok a → y = .ok b → Agree (f a) (g b)) :
  Agree (x >>= f) (y >>= g)
  := by
  intro c d hc hd
  obtain ⟨a, ha, hc⟩ := bind_eq_ok_iff.mp hc
  obtain ⟨b, hb, hd⟩ := bind_eq_ok_iff.mp hd
  exact h a b ha hb c d hc hd

theorem bind {f g : α → Except ε β} (h : Agree x y) (hf : ∀ a, Agree (f a) (g a)) :
  Agree (x >>= f) (y >>= g)
  := by
  apply bind_of
  intro a b ha hb
  obtain rfl := h a b ha hb
  apply hf

theorem map (h : Agree x y) (f : α → β) :
  Agree (x.map f) (y.map f)
  := by
  intro c d hc hd
  obtain ⟨a, ha, rfl⟩ := map_eq_ok_iff.mp hc
  obtain ⟨b, hb, rfl⟩ := map_eq_ok_iff.mp hd
  rw [h a b ha hb]

/-- Lists agree where their members do. -/
theorem mapM {f : α → Except ε β} {as bs : List α}
    (h : List.Forall₂ (fun a b => Agree (f a) (f b)) as bs) :
  Agree (as.mapM f) (bs.mapM f)
  := by
  induction h with
  | nil => apply refl
  | cons hab _ ih =>
    rw [List.mapM_cons, List.mapM_cons]
    exact hab.bind fun b => ih.bind fun bs => refl _

theorem both {a b c d : Except Fault Bytes} (h : Agree a c) (h' : Agree b d) :
  Agree (Operands.both a b) (Operands.both c d)
  := h.bind fun _ => h'.bind fun _ => refl _

end Agree

end Agreement

/-! ### Numbers -/

namespace Double

/-- The zero with a sign bit. -/
def isNegativeZero (x : Double) : Bool := x.negative && x.pattern = 0

theorem ofPattern_self (x : Double) :
  ofPattern x.negative x.pattern = x
  := by
  obtain ⟨bits⟩ := x
  have hbits := bits.toNat_lt
  simp only [ofPattern, negative, pattern, mk.injEq]
  apply UInt64.toNat_inj.mp
  rw [UInt64.toNat_ofNat']
  by_cases h : 2 ^ 63 ≤ bits.toNat
  · simp only [h, decide_true, if_true]
    omega
  · simp only [h, decide_false, Bool.false_eq_true, if_false]
    omega

theorem eq_of_pattern_eq {x y : Double} (hnegative : x.negative = y.negative)
    (hpattern : x.pattern = y.pattern) :
  x = y
  := by
  rw [← ofPattern_self x, hnegative, hpattern, ofPattern_self]

/-- Equal numbers are the same, or zeros. -/
theorem eq_or_of_equal {x y : Double} (h : x.equal y = true) :
  x = y ∨ x.pattern = 0 ∧ y.pattern = 0
  := by
  simp only [equal, Bool.and_eq_true, Bool.or_eq_true, decide_eq_true_eq] at h
  exact h.2

/-- Doubles that compare equal are the same but for the sign of zero. -/
theorem eq_of_equal {x y : Double} (h : x.equal y = true) (hx : x.isNegativeZero = false)
    (hy : y.isNegativeZero = false) :
  x = y
  := by
  obtain heq | ⟨hx', hy'⟩ := eq_or_of_equal h
  · exact heq
  · simp only [isNegativeZero, hx', hy', decide_true, Bool.and_true] at hx hy
    exact eq_of_pattern_eq (hx.trans hy.symm) (hx'.trans hy'.symm)

/-- A number that is equal to an integer denotes it, in units that are at least one or divide one.
-/
theorem meaning_of_compareInt? {x : Double} {i : Int} (h : x.compareInt? i = some .eq) :
  ∃ (n : Nat) (unit : Int), x.pattern < Format.double.infinity
    ∧ Format.double.unpack x.pattern = (n, unit)
    ∧ (if x.negative then -(n : Int) else n) * 2 ^ unit.toNat = i * 2 ^ (-unit).toNat
  := by
  rw [compareInt?] at h
  split at h
  · cases h
  · rename_i negative _
    cases negative <;> cases h
  · rename_i negative n unit hden
    obtain ⟨hfinite, rfl, hunpack⟩ := eq_of_meaning hden
    refine ⟨n, unit, hfinite, hunpack, ?_⟩
    simp only at h
    by_cases hunit : 0 ≤ unit
    · rw [if_pos hunit] at h
      rw [show (-unit).toNat = 0 by omega, pow_zero, mul_one]
      exact compare_eq_iff_eq.mp (Option.some.inj h)
    · rw [if_neg hunit] at h
      rw [show unit.toNat = 0 by omega, pow_zero, mul_one]
      exact compare_eq_iff_eq.mp (Option.some.inj h)

/-- A finite double has the pattern zero exactly when its significand is zero. -/
theorem pattern_eq_zero_iff {x : Double} (h : x.pattern < Format.double.infinity) :
  x.pattern = 0 ↔ (Format.double.unpack x.pattern).1 = 0
  := by
  constructor
  · intro hzero
    rw [hzero]
    rfl
  · intro hzero
    have hcanon := Format.canonical_unpack (f := .double) (by decide) (by decide) h
    have hunit := hcanon.full.resolve_left (by rw [hzero]; decide)
    rw [← Format.pack_unpack (f := .double) x.pattern, hzero, hunit]
    rfl

/-- A number that is equal to an integer is nonzero if the integer is. -/
theorem isNonzero_of_compareInt? {x : Double} {i : Int} (h : x.compareInt? i = some .eq) :
  x.isNonzero = decide (i ≠ 0)
  := by
  obtain ⟨n, unit, hfinite, hunpack, heq⟩ := meaning_of_compareInt? h
  have hzero : x.pattern = 0 ↔ n = 0 := by
    rw [pattern_eq_zero_iff hfinite, hunpack]
  have hi : n = 0 ↔ i = 0 := by
    have hpow : ∀ k : Nat, (2 : Int) ^ k ≠ 0 := fun k => by positivity
    constructor
    · rintro rfl
      simpa [hpow] using heq.symm
    · rintro rfl
      split at heq <;> simpa [hpow] using heq
  simp only [isNonzero, ne_eq, hzero, hi]

/-- A number that is equal to an integer has it as its integer part. -/
theorem truncate?_of_compareInt? {x : Double} {i : Int} (h : x.compareInt? i = some .eq) :
  x.truncate? = some i
  := by
  obtain ⟨n, unit, hfinite, hunpack, heq⟩ := meaning_of_compareInt? h
  rw [truncate?, meaning_of_finite hfinite]
  simp only [hunpack, Option.some.injEq]
  by_cases hunit : 0 ≤ unit
  · rw [show (-unit).toNat = 0 by omega, pow_zero, mul_one] at heq
    rw [← heq]
    simp only [if_pos hunit]
    split <;> push_cast <;> ring
  · rw [show unit.toNat = 0 by omega, pow_zero, mul_one] at heq
    have hpos : (0 : Int) < 2 ^ (-unit).toNat := by positivity
    simp only [if_neg hunit, Nat.cast_ofNat, Int.natCast_ediv, Nat.cast_pow]
    split at heq
    · rw [if_pos ‹_›, show (n : Int) = -i * 2 ^ (-unit).toNat by linarith,
        Int.mul_ediv_cancel _ hpos.ne', neg_neg]
    · rw [if_neg ‹_›, heq, Int.mul_ediv_cancel _ hpos.ne']

theorem truncate?_of_zero {x : Double} (h : x.pattern = 0) :
  x.truncate? = some 0
  := by
  have hunpack : Format.double.unpack 0 = (0, Format.double.least) := rfl
  rw [truncate?, meaning_of_finite (by rw [h]; decide), h]
  simp only [hunpack, Nat.zero_mul, Nat.zero_div, ite_self, Nat.cast_zero, neg_zero]

/-- A number other than zero that is equal to an integer has its sign. -/
theorem decide_neg_of_signed {negative : Bool} {n i a b : Int} (hn : 0 < n) (ha : 0 < a)
    (hb : 0 < b) (h : (if negative then -n else n) * a = i * b) :
  decide (i < 0) = negative
  := by
  have hleft := mul_pos hn ha
  cases negative with
  | true =>
    rw [decide_eq_true_eq]
    by_contra hi
    have hright := mul_nonneg (not_lt.mp hi) hb.le
    simp only [if_true] at h
    linarith
  | false =>
    rw [decide_eq_false_iff_not]
    intro hi
    have hright := mul_neg_of_neg_of_pos hi hb
    simp only [Bool.false_eq_true, if_false] at h
    linarith

/-- A canonical number that is whole is what the whole number is rounded to. -/
theorem round_of_whole {f : Format} {n m : Nat} {unit : Int} (h : f.Canonical n unit) (hn : n ≠ 0)
    (heq : n * 2 ^ unit.toNat = m * 2 ^ (-unit).toNat) :
  f.round m 0 = some (n, unit)
  := by
  by_cases hunit : 0 ≤ unit
  · rw [show (-unit).toNat = 0 by omega, pow_zero, mul_one] at heq
    have hfiner := h.round_finer hn unit.toNat
    rwa [heq, show unit - (unit.toNat : Int) = 0 by omega] at hfiner
  · rw [show unit.toNat = 0 by omega, pow_zero, mul_one] at heq
    rw [heq] at h hn
    have hcoarser := h.round_coarser (left_ne_zero_of_mul hn)
    rwa [← heq, show unit + ((-unit).toNat : Int) = 0 by omega] at hcoarser

/-- A number that is equal to an integer is what the integer is rounded to, but for the sign of a
zero. -/
theorem ofInt?_of_compareInt? {x : Double} {i : Int} (h : x.compareInt? i = some .eq)
    (hx : x.isNegativeZero = false) :
  ofInt? i = some x
  := by
  obtain ⟨n, unit, hfinite, hunpack, heq⟩ := meaning_of_compareInt? h
  have hcanon := Format.canonical_unpack (f := .double) (by decide) (by decide) hfinite
  have hpack := Format.pack_unpack (f := .double) x.pattern
  rw [hunpack] at hcanon hpack
  have hmagnitude : n * 2 ^ unit.toNat = i.natAbs * 2 ^ (-unit).toNat := by
    have habs := congrArg Int.natAbs heq
    rw [Int.natAbs_mul, Int.natAbs_mul, Int.natAbs_pow, Int.natAbs_pow] at habs
    split at habs <;> simpa using habs
  by_cases hn : n = 0
  · have hzero : x.pattern = 0 := by rw [pattern_eq_zero_iff hfinite, hunpack, hn]
    have hi : i = 0 := by simpa [hn] using hmagnitude.symm
    simp only [isNegativeZero, hzero, decide_true, Bool.and_true] at hx
    rw [hi, ← ofPattern_self x, hx, hzero]
    rfl
  · have hnegative := decide_neg_of_signed (by omega) (by positivity) (by positivity) heq
    have hround := round_of_whole hcanon hn hmagnitude
    simp only [ofInt?, hround, Option.map_some, hpack, hnegative, ofPattern_self]

end Double

/-! ### Scalars -/

namespace Scalar

variable {s t : Scalar}

/-- How scalars can be alike: as integers or truth values, as an integer and a floating point
number, as floating point numbers, or as one and the same, be it a NaN. -/
inductive Alike : Scalar → Scalar → Prop where
  | whole {s t : Scalar} {n : Int} (hs : s.whole? = some n) (ht : t.whole? = some n) : Alike s t
  | wholeDouble {s : Scalar} {n : Int} {y : Double} (hs : s.whole? = some n)
      (hy : y.compareInt? n = some .eq) : Alike s (.double y)
  | doubleWhole {t : Scalar} {n : Int} {x : Double} (ht : t.whole? = some n)
      (hx : x.compareInt? n = some .eq) : Alike (.double x) t
  | doubles {x y : Double} (h : x.equal y = true) : Alike (.double x) (.double y)
  | refl (s : Scalar) : Alike s s

/-- Equal scalars are alike. -/
theorem alike_of_same (h : s.same t = true) :
  Alike s t
  := by
  cases hs : s.whole? with
  | some m =>
    cases ht : t.whole? with
    | some n =>
      simp only [same, hs, ht, decide_eq_true_eq] at h
      exact .whole hs (h ▸ ht)
    | none =>
      simp only [same, hs, ht] at h
      split at h
      · exact .wholeDouble hs (decide_eq_true_eq.mp h)
      · cases h
  | none =>
    cases ht : t.whole? with
    | some n =>
      simp only [same, hs, ht] at h
      split at h
      · exact .doubleWhole ht (decide_eq_true_eq.mp h)
      · cases h
    | none =>
      simp only [same, hs, ht] at h
      split at h
      · exact .doubles h
      · obtain rfl := decide_eq_true_eq.mp h
        exact .refl s

/-- A scalar that counts as a whole number converts to it. -/
theorem toInt_of_whole {n : Int} (h : s.whole? = some n) :
  s.toInt = .ok n
  := by
  cases s with
  | bool | int => exact congrArg Except.ok (Option.some.inj h)
  | _ => cases h

/-- A scalar that counts as a whole number converts to the double nearest to it, and fails where
there is none. -/
theorem toDouble_of_whole {n : Int} (h : s.whole? = some n) :
  s.toDouble = (Double.ofInt? n).elim (.error .notANumber) .ok
  := by
  cases s with
  | bool | int => rw [← Option.some.inj h, toDouble]
  | _ => cases h

theorem truth_of_whole {n : Int} (h : s.whole? = some n) :
  s.truth = decide (n ≠ 0)
  := by
  cases s with
  | bool b => cases b <;> cases h <;> rfl
  | int m => rw [← Option.some.inj h, truth]
  | _ => cases h

/-- Scalars that are alike are both true or both false. -/
theorem Alike.truth_eq (h : Alike s t) :
  s.truth = t.truth
  := by
  cases h with
  | whole hs ht => rw [truth_of_whole hs, truth_of_whole ht]
  | wholeDouble hs hy => rw [truth_of_whole hs, truth, Double.isNonzero_of_compareInt? hy]
  | doubleWhole ht hx => rw [truth_of_whole ht, truth, Double.isNonzero_of_compareInt? hx]
  | doubles h =>
    obtain rfl | ⟨hx, hy⟩ := Double.eq_or_of_equal h
    · rfl
    · rw [truth, truth, Double.isNonzero, Double.isNonzero, hx, hy]
  | refl => rfl

/-- A double that compares equal to an integer converts to that integer. -/
theorem integerPart_of_compareInt? {x : Double} {n : Int} (h : x.compareInt? n = some .eq) :
  toInt (.double x) = .ok n
  := by
  simp only [toInt, number, integerPart, Double.truncate?_of_compareInt? h]

/-- Scalars that are alike convert to the same integer, or fail alike. -/
theorem Alike.toInt_eq (h : Alike s t) :
  s.toInt = t.toInt
  := by
  cases h with
  | whole hs ht => rw [toInt_of_whole hs, toInt_of_whole ht]
  | wholeDouble hs hy => rw [toInt_of_whole hs, integerPart_of_compareInt? hy]
  | doubleWhole ht hx => rw [toInt_of_whole ht, integerPart_of_compareInt? hx]
  | @doubles x y h =>
    obtain rfl | ⟨hx, hy⟩ := Double.eq_or_of_equal h
    · rfl
    · have hzero : ∀ z : Double, z.pattern = 0 → toInt (.double z) = .ok 0 := by
        intro z hz
        simp only [toInt, number, integerPart, Double.truncate?_of_zero hz]
      rw [hzero x hx, hzero y hy]
  | refl => rfl

/-- Scalars that are alike are the same floating point number, unless one is a negative zero. -/
theorem Alike.toDouble_eq (h : Alike s t) (hs : ∀ x, s = .double x → x.isNegativeZero = false)
    (ht : ∀ y, t = .double y → y.isNegativeZero = false) :
  s.toDouble = t.toDouble
  := by
  cases h with
  | whole hs ht => rw [toDouble_of_whole hs, toDouble_of_whole ht]
  | @wholeDouble _ n y hs hy =>
    rw [toDouble_of_whole hs, Double.ofInt?_of_compareInt? hy (ht y rfl)]
    rfl
  | @doubleWhole _ n x ht hx =>
    rw [toDouble_of_whole ht, Double.ofInt?_of_compareInt? hx (hs x rfl)]
    rfl
  | @doubles x y h => rw [Double.eq_of_equal h (hs x rfl) (ht y rfl)]
  | refl => rfl

/-- Scalars that are alike and are integers are the same integer. -/
theorem Alike.whole?_unique (h : Alike s t) {m n : Int} (hs : s.whole? = some m)
    (ht : t.whole? = some n) :
  m = n
  := by
  cases h with
  | whole hs' ht' =>
    obtain rfl := Option.some.inj (hs.symm.trans hs')
    exact Option.some.inj (ht'.symm.trans ht)
  | wholeDouble => cases ht
  | doubleWhole => cases hs
  | doubles => cases hs
  | refl => exact Option.some.inj (hs.symm.trans ht)

/-- Whether a scalar is a number, as a truth value is. -/
def isNumber : Scalar → Bool
  | bool _ | int _ | double _ => true
  | _ => false

theorem isNumber_of_whole {n : Int} (h : s.whole? = some n) :
  s.isNumber = true
  := by
  cases s with
  | bool | int => rfl
  | _ => cases h

/-- Scalars that are alike are the same, unless they are numbers. -/
theorem Alike.eq_or_numbers (h : Alike s t) :
  s = t ∨ s.isNumber = true ∧ t.isNumber = true
  := by
  cases h with
  | whole hs ht => exact .inr ⟨isNumber_of_whole hs, isNumber_of_whole ht⟩
  | wholeDouble hs => exact .inr ⟨isNumber_of_whole hs, rfl⟩
  | doubleWhole ht => exact .inr ⟨rfl, isNumber_of_whole ht⟩
  | doubles => exact .inr ⟨rfl, rfl⟩
  | refl => exact .inl rfl

end Scalar

/-! ### Values -/

namespace Value

variable {a b : Value}

/-- The members of a list, or of a block. -/
def listMembers? : Value → Option (List Value)
  | list members | block members => some members
  | _ => Option.none

/-- How values can be alike: as scalars, as lists or tuples with members that are, as the same
action or actions of the same look, or as one and the same. -/
inductive Alike : Value → Value → Prop where
  | refl (v : Value) : Alike v v
  | scalar {s t : Scalar} (h : Scalar.Alike s t) : Alike (scalar s) (scalar t)
  | list {a b : Value} {as bs : List Value} (ha : a.listMembers? = some as)
      (hb : b.listMembers? = some bs) (h : List.Forall₂ Alike as bs) : Alike a b
  | tuple {a b : Value} {as bs : List Value} (ha : a.tupleMembers? = some as)
      (hb : b.tupleMembers? = some bs) (h : List.Forall₂ Alike as bs) : Alike a b
  | action {i j : Nat} {s t : Sketch} (h : i = j ∨ s = t) : Alike (action i s) (action j t)

mutual

/-- Equal values are alike. -/
theorem alike_of_same : ∀ (a : Value) {b : Value}, a.same b = true → Alike a b
  | .scalar s, b, h => by
    cases b with
    | scalar t => exact .scalar (Scalar.alike_of_same (same_scalar ▸ h))
    | _ => simp [same] at h
  | .list as, b, h => by
    cases b with
    | list bs | block bs =>
      rw [same] at h
      exact .list rfl rfl (forall₂_alike_of_sameAll as h)
    | _ => simp [same] at h
  | .block as, b, h => by
    cases b with
    | list bs | block bs =>
      rw [same] at h
      exact .list rfl rfl (forall₂_alike_of_sameAll as h)
    | _ => simp [same] at h
  | .tuple as, b, h => by
    rw [same] at h
    split at h
    · rename_i bs hbs
      exact .tuple rfl hbs (forall₂_alike_of_sameAll as h)
    · cases h
  | .pushed value type, b, h => by
    rw [same] at h
    split at h
    · rename_i other t hbs
      rw [Bool.and_eq_true, decide_eq_true_eq] at h
      obtain ⟨hvalue, rfl⟩ := h
      exact .tuple rfl hbs (.cons (alike_of_same value hvalue) (.cons (.refl _) .nil))
    · cases h
  | .param register name, b, h => by
    rw [same] at h
    split at h
    · rename_i r n hbs
      rw [Bool.and_eq_true] at h
      exact .tuple rfl hbs
        (.cons (alike_of_same register h.1) (.cons (alike_of_same name h.2) .nil))
    · cases h
  | .pushType s, b, h => by
    cases b with
    | pushType t =>
      rw [same, decide_eq_true_eq] at h
      exact h ▸ .refl _
    | _ => simp [same] at h
  | .action i s, b, h => by
    cases b with
    | action j t =>
      rw [same, Bool.or_eq_true, decide_eq_true_eq, decide_eq_true_eq] at h
      exact .action h
    | _ => simp [same] at h

/-- Lists of values that are equal are alike, member by member. -/
theorem forall₂_alike_of_sameAll :
    ∀ (as : List Value) {bs : List Value}, sameAll as bs = true → List.Forall₂ Alike as bs
  | [], bs, h => by
    cases bs with
    | nil => exact .nil
    | cons => simp [sameAll] at h
  | a :: as, bs, h => by
    cases bs with
    | nil => simp [sameAll] at h
    | cons b bs =>
      rw [sameAll, Bool.and_eq_true] at h
      exact .cons (alike_of_same a h.1) (forall₂_alike_of_sameAll as h.2)

end

/-- What is like a scalar is a scalar. -/
theorem Alike.scalar_left {s : Scalar} (h : Alike (.scalar s) b) :
  ∃ t, b = .scalar t ∧ Scalar.Alike s t
  := by
  cases h with
  | refl => exact ⟨s, rfl, .refl s⟩
  | @scalar _ t h => exact ⟨t, rfl, h⟩
  | list ha | tuple ha => cases ha

/-- A value alike to a scalar is a scalar. -/
theorem Alike.scalar_right {t : Scalar} (h : Alike a (.scalar t)) :
  ∃ s, a = .scalar s ∧ Scalar.Alike s t
  := by
  cases h with
  | refl => exact ⟨t, rfl, .refl t⟩
  | @scalar s _ h => exact ⟨s, rfl, h⟩
  | list _ hb | tuple _ hb => cases hb

theorem Alike.pushType_eq {s t : PushType} (h : Alike (.pushType s) (.pushType t)) :
  s = t
  := by
  cases h with
  | refl => rfl
  | list ha | tuple ha => cases ha

theorem exists_scalar_of_whole {n : Int} (h : a.whole? = some n) :
  ∃ s, a = scalar s ∧ s.whole? = some n
  := by
  cases a with
  | scalar s => exact ⟨s, rfl, h⟩
  | _ => cases h

/-- Values that are alike and are integers are the same integer. -/
theorem Alike.whole?_unique (h : Alike a b) {m n : Int} (ha : a.whole? = some m)
    (hb : b.whole? = some n) :
  m = n
  := by
  obtain ⟨s, rfl, hs⟩ := exists_scalar_of_whole ha
  obtain ⟨t, rfl, hst⟩ := h.scalar_left
  exact hst.whole?_unique hs hb

theorem members_of_listMembers? {members : List Value} (h : a.listMembers? = some members) :
  a.members = .ok members
  := by
  cases a with
  | list | block => exact congrArg Except.ok (Option.some.inj h)
  | _ => cases h

theorem members_of_tupleMembers? {members : List Value} (h : a.tupleMembers? = some members) :
  a.members = .ok members
  := by
  cases a with
  | tuple | pushed | param => exact congrArg Except.ok (Option.some.inj h)
  | _ => cases h

/-- A value that is like one with members has members that are alike. -/
theorem Alike.exists_members (h : Alike a b) {as : List Value} (ha : a.members = .ok as) :
  ∃ bs, b.members = .ok bs ∧ List.Forall₂ Alike as bs
  := by
  have hself : List.Forall₂ Alike as as := List.forall₂_same.mpr fun v _ => .refl v
  cases h with
  | refl => exact ⟨as, ha, hself⟩
  | @scalar s t h =>
    obtain rfl | ⟨hs, -⟩ := h.eq_or_numbers
    · exact ⟨as, ha, hself⟩
    · cases s with
      | bool | int | double => cases ha
      | _ => cases hs
  | list ha' hb h =>
    obtain rfl := Except.ok.inj (ha.symm.trans (members_of_listMembers? ha'))
    exact ⟨_, members_of_listMembers? hb, h⟩
  | tuple ha' hb h =>
    obtain rfl := Except.ok.inj (ha.symm.trans (members_of_tupleMembers? ha'))
    exact ⟨_, members_of_tupleMembers? hb, h⟩
  | action => cases ha

/-- Values that are alike have members that are alike one by one. -/
theorem Alike.forall₂_members (h : Alike a b) {as bs : List Value} (ha : a.members = .ok as)
    (hb : b.members = .ok bs) :
  List.Forall₂ Alike as bs
  := by
  obtain ⟨bs', hb', hall⟩ := h.exists_members ha
  obtain rfl := Except.ok.inj (hb.symm.trans hb')
  exact hall

theorem truth_of_listMembers? {members : List Value} (h : a.listMembers? = some members) :
  a.truth = !members.isEmpty
  := by
  cases a with
  | list | block =>
    obtain rfl := Option.some.inj h
    rfl
  | _ => cases h

theorem truth_of_tupleMembers? {members : List Value} (h : a.tupleMembers? = some members) :
  a.truth = !members.isEmpty
  := by
  cases a with
  | tuple | pushed | param =>
    obtain rfl := Option.some.inj h
    rfl
  | _ => cases h

/-- Values that are alike count as true or not alike. -/
theorem Alike.truth_eq (h : Alike a b) :
  a.truth = b.truth
  := by
  cases h with
  | refl | action => rfl
  | scalar h => exact h.truth_eq
  | list ha hb h =>
    rw [truth_of_listMembers? ha, truth_of_listMembers? hb]
    cases h <;> rfl
  | tuple ha hb h =>
    rw [truth_of_tupleMembers? ha, truth_of_tupleMembers? hb]
    cases h <;> rfl

theorem isNone_scalar_of_isNumber {s : Scalar} (h : s.isNumber = true) :
  (scalar s).isNone = false
  := by
  cases s with
  | none => cases h
  | _ => rfl

/-- Of two values that are alike, both are none or neither is. -/
theorem Alike.isNone_eq (h : Alike a b) :
  a.isNone = b.isNone
  := by
  cases h with
  | refl | action => rfl
  | scalar h =>
    obtain rfl | ⟨hs, ht⟩ := h.eq_or_numbers
    · rfl
    · rw [isNone_scalar_of_isNumber hs, isNone_scalar_of_isNumber ht]
  | list ha hb | tuple ha hb =>
    cases a with
    | scalar => cases ha
    | _ =>
      cases b with
      | scalar => cases hb
      | _ => rfl

/-! ### Fields -/

/-- Values that are alike are fitted into a field alike. -/
theorem fit_agree (h : Alike a b) (width : Nat) (signed : Bool) :
  Agree (a.fit width signed) (b.fit width signed)
  := by
  intro x y hx hy
  obtain ⟨m, hm, hx⟩ := fit_eq_ok_iff.mp hx
  obtain ⟨n, hn, hy⟩ := fit_eq_ok_iff.mp hy
  obtain rfl := h.whole?_unique hm hn
  exact Except.ok.inj (hx.symm.trans hy)

/-- Only texts and byte strings are strings. -/
theorem exists_scalar_of_string {bytes : Bytes} (h : a.string = .ok bytes) :
  ∃ s, a = scalar s ∧ s.isNumber = false
  := by
  cases a with
  | scalar s =>
    cases s with
    | text t => exact ⟨.text t, rfl, rfl⟩
    | bytes b => exact ⟨.bytes b, rfl, rfl⟩
    | _ => cases h
  | _ =>
    obtain ⟨members, -, h⟩ := bind_eq_ok_iff.mp h
    split at h
    · obtain ⟨t, -, h⟩ := bind_eq_ok_iff.mp h
      cases h
    · cases h

theorem string_agree (h : Alike a b) :
  Agree a.string b.string
  := by
  intro x y hx hy
  obtain ⟨s, rfl, hs⟩ := exists_scalar_of_string hx
  obtain ⟨t, rfl, hst⟩ := h.scalar_left
  obtain rfl | ⟨hnumber, -⟩ := hst.eq_or_numbers
  · exact Except.ok.inj (hx.symm.trans hy)
  · cases hs.symm.trans hnumber

theorem byte_agree (h : Alike a b) (fault : Fault) :
  Agree (a.byte fault) (b.byte fault)
  := by
  intro x y hx hy
  rw [byte] at hx hy
  split at hx
  · rename_i m hm
    split at hy
    · rename_i n hn
      obtain rfl := h.whole?_unique hm hn
      exact Except.ok.inj (hx.symm.trans hy)
    · cases hy
  · cases hx

/-- What gives a byte string: a byte string, a number of bytes, or bytes one by one. -/
theorem toBytes_eq_ok {wanted : Text} {fault : Fault} {x : Bytes}
    (h : a.toBytes wanted fault = .ok x) :
  a = .bytes x ∨ (∃ n, a.whole? = some n ∧ x = List.replicate n.toNat 0)
    ∨ (∀ s, a ≠ scalar s) ∧ ∃ as, a.members = .ok as ∧ as.mapM (byte fault) = .ok x
  := by
  cases a with
  | scalar s =>
    cases s with
    | bytes b => exact .inl (congrArg Value.bytes (Except.ok.inj h))
    | bool | int =>
      simp only [toBytes, whole?, Scalar.whole?] at h
      split at h
      · cases h
      split at h
      · cases h
      exact .inr (.inl ⟨_, rfl, (Except.ok.inj h).symm⟩)
    | _ => cases h
  | pushType | action => cases h
  | _ => exact .inr (.inr ⟨by simp, bind_eq_ok_iff.mp h⟩)

theorem toBytes_agree (h : Alike a b) (wanted : Text) (fault : Fault) :
  Agree (a.toBytes wanted fault) (b.toBytes wanted fault)
  := by
  intro x y hx hy
  obtain rfl | ⟨m, hm, rfl⟩ | ⟨ha, as, has, hx⟩ := toBytes_eq_ok hx
  · obtain ⟨t, rfl, hst⟩ := h.scalar_left
    obtain rfl | ⟨hnumber, -⟩ := hst.eq_or_numbers
    · exact Except.ok.inj hy
    · cases hnumber
  · obtain rfl | ⟨n, hn, rfl⟩ | ⟨hb, -⟩ := toBytes_eq_ok hy
    · obtain ⟨s, rfl, hst⟩ := h.scalar_right
      obtain rfl | ⟨-, hnumber⟩ := hst.eq_or_numbers
      · cases hm
      · cases hnumber
    · rw [h.whole?_unique hm hn]
    · obtain ⟨s, rfl, -⟩ := exists_scalar_of_whole hm
      obtain ⟨t, rfl, -⟩ := h.scalar_left
      exact absurd rfl (hb t)
  · obtain rfl | ⟨n, hn, rfl⟩ | ⟨-, bs, hbs, hy⟩ := toBytes_eq_ok hy
    · obtain ⟨s, rfl, -⟩ := h.scalar_right
      exact absurd rfl (ha s)
    · obtain ⟨t, rfl, -⟩ := exists_scalar_of_whole hn
      obtain ⟨s, rfl, -⟩ := h.scalar_right
      exact absurd rfl (ha s)
    · have hbytes := (h.forall₂_members has hbs).imp fun _ _ hvw => byte_agree hvw fault
      exact Agree.mapM hbytes x y hx hy

theorem toInt_agree (h : Alike a b) :
  Agree a.toInt b.toInt
  := by
  intro x y hx hy
  cases a with
  | scalar s =>
    obtain ⟨t, rfl, hst⟩ := h.scalar_left
    exact Except.ok.inj (hx.symm.trans (hst.toInt_eq.trans hy))
  | _ => cases hx

/-- Values that are alike are the same number, unless one is a negative zero. -/
theorem toDouble_agree (h : Alike a b) (ha : ∀ x, a = .double x → x.isNegativeZero = false)
    (hb : ∀ y, b = .double y → y.isNegativeZero = false) :
  Agree a.toDouble b.toDouble
  := by
  intro x y hx hy
  cases a with
  | scalar s =>
    obtain ⟨t, rfl, hst⟩ := h.scalar_left
    have heq := hst.toDouble_eq (fun x hx => ha x (congrArg scalar hx))
      (fun y hy => hb y (congrArg scalar hy))
    exact Except.ok.inj (hx.symm.trans (heq.trans hy))
  | _ => cases hx

/-- A value converts to a single exactly when it converts to a double in the range of singles. -/
theorem toSingle_eq_ok_iff {y : Single} :
  a.toSingle = .ok y ↔ ∃ x, a.toDouble = .ok x ∧ x.toSingle? = some y
  := by
  cases a with
  | scalar s =>
    simp only [toSingle, toDouble, Scalar.toSingle, bind_eq_ok_iff]
    refine exists_congr fun x => and_congr_right fun _ => ?_
    cases x.toSingle? <;> simp
  | _ => simp [toSingle, toDouble]

theorem toSingle_agree (h : Agree a.toDouble b.toDouble) :
  Agree a.toSingle b.toSingle
  := by
  intro x y hx hy
  obtain ⟨x', hx', hx⟩ := toSingle_eq_ok_iff.mp hx
  obtain ⟨y', hy', hy⟩ := toSingle_eq_ok_iff.mp hy
  obtain rfl := h x' y' hx' hy'
  exact Option.some.inj (hx.symm.trans hy)

/-- A value unpacks to a pair exactly when it has two members. -/
theorem pair_eq_ok_iff {v w : Value} :
  a.pair = .ok (v, w) ↔ a.members = .ok [v, w]
  := by
  rw [pair]
  split <;> simp_all

end Value

/-! ### Pushed values -/

/-- A pushed number that is a negative zero. -/
def PushValue.isNegativeZero (p : PushValue) : Bool :=
  match p.type, p.value with
  | .float, .double x | .double, .double x => x.isNegativeZero
  | _, _ => false

/-- The values that a push has, of those of its members that are values with a type. -/
def Operands.pushValues : Operands → List PushValue
  | push values =>
    (values.members.toOption.getD []).filterMap fun v => (PushValue.ofValue "id" v).toOption
  | _ => []

namespace PushValue

/-- A push value comes from a pair of a value and a push type. -/
theorem members_of_ofValue {asked : Text} {v : Value} {p : PushValue}
    (h : ofValue asked v = .ok p) :
  v.members = .ok [p.value, .pushType p.type]
  := by
  rw [ofValue.eq_def] at h
  split at h
  · obtain rfl := Except.ok.inj h
    rfl
  · obtain ⟨⟨value, type⟩, hpair, h⟩ := bind_eq_ok_iff.mp h
    simp only at h
    split at h
    · obtain rfl := Except.ok.inj h
      exact Value.pair_eq_ok_iff.mp hpair
    · cases h

/-- Push values of one type with values that are alike are written alike, unless one of them is a
negative zero. -/
theorem write_agree {p q : PushValue} (hvalue : p.value.Alike q.value) (htype : p.type = q.type)
    (hp : p.isNegativeZero = false) (hq : q.isNegativeZero = false) :
  Agree p.write q.write
  := by
  obtain ⟨a, type⟩ := p
  obtain ⟨b, type⟩ := q
  subst htype
  have hdouble : type = .float ∨ type = .double → Agree a.toDouble b.toDouble := by
    intro htype
    apply Value.toDouble_agree hvalue
    · rintro x rfl
      obtain rfl | rfl := htype <;> exact hp
    · rintro y rfl
      obtain rfl | rfl := htype <;> exact hq
  apply Agree.map
  cases type with
  | string => exact Value.string_agree hvalue
  | float => exact (Value.toSingle_agree (hdouble (.inl rfl))).map _
  | null | undefined => apply Agree.refl
  | register | boolean | constant8 => exact (Value.toInt_agree hvalue).bind fun _ => .refl _
  | double => exact (hdouble (.inr rfl)).map _
  | integer => exact (Value.fit_agree hvalue 32 true).map _
  | constant16 => exact (Value.fit_agree hvalue 16 false).map _

end PushValue

/-- Values that are alike are pushed alike, unless one of them is a negative zero. -/
theorem Value.pushBytes_agree {a b : Value} (h : a.Alike b)
    (ha : ∀ p, PushValue.ofValue "id" a = .ok p → p.isNegativeZero = false)
    (hb : ∀ q, PushValue.ofValue "id" b = .ok q → q.isNegativeZero = false) :
  Agree a.pushBytes b.pushBytes
  := by
  apply Agree.bind_of
  intro p q hp hq
  obtain _ | ⟨hvalue, htypes⟩ := h.forall₂_members (PushValue.members_of_ofValue hp)
    (PushValue.members_of_ofValue hq)
  obtain _ | ⟨htype, -⟩ := htypes
  exact PushValue.write_agree hvalue htype.pushType_eq (ha p hp) (hb q hq)

/-! ### Operands -/

/-- Values with members that are alike, whatever holds them. -/
def Value.AlikeMembers (a b : Value) : Prop :=
  ∃ as bs, a.members = .ok as ∧ b.members = .ok bs ∧ List.Forall₂ Alike as bs

/-- Values with equal members have members that are alike. -/
theorem Value.alikeMembers_of_sameMembers {a b : Value} (h : a.sameMembers b = true) :
  a.AlikeMembers b
  := by
  rw [sameMembers] at h
  split at h
  · rename_i as bs has hbs
    exact ⟨as, bs, has, hbs, forall₂_alike_of_sameAll as h⟩
  · cases h

/-- Flags that are alike, one by one. -/
def FunctionFlags.Alike (f g : FunctionFlags) : Prop := List.Forall₂ Value.Alike f.toList g.toList

/-- Flags that are alike are set alike. -/
theorem FunctionFlags.truths_eq {f g : FunctionFlags} (h : f.Alike g) :
  f.first.map Value.truth = g.first.map Value.truth
    ∧ f.preloadGlobal.truth = g.preloadGlobal.truth
  := by
  have hall := List.Forall₂.imp (fun _ _ hvw => Value.Alike.truth_eq hvw) h
  have hmap : f.toList.map Value.truth = g.toList.map Value.truth := by
    rw [← List.forall₂_eq_eq_eq, List.forall₂_map_left_iff, List.forall₂_map_right_iff]
    exact hall
  rw [FunctionFlags.toList, FunctionFlags.toList, List.map_append, List.map_append] at hmap
  obtain ⟨hfirst, hlast⟩ := List.append_inj hmap rfl
  exact ⟨hfirst, by simpa using hlast⟩

namespace Operands

theorem each_agree {write : Value → Except Fault Bytes} {as bs : List Value}
    (h : List.Forall₂ (fun v w => Agree (write v) (write w)) as bs) :
  Agree (each write as) (each write bs)
  := (Agree.mapM h).map _

/-- Values whose members are alike are written member by member alike. -/
theorem membersOf_agree {write : Value → Except Fault Bytes} {a b : Value}
    (h : a.AlikeMembers b)
    (hwrite : ∀ v w : Value, v.Alike w → Agree (write v) (write w)) :
  Agree (membersOf write a) (membersOf write b)
  := by
  obtain ⟨as, bs, has, hbs, hall⟩ := h
  rw [membersOf, membersOf, has, hbs]
  exact each_agree (hall.imp fun v w hvw => hwrite v w hvw)

/-- Values whose members are alike have the same count. -/
theorem sizeOf_agree {a b : Value} (h : a.AlikeMembers b) :
  Agree (sizeOf a) (sizeOf b)
  := by
  obtain ⟨as, bs, has, hbs, hall⟩ := h
  have hsize : sizeOf a = sizeOf b := by
    simp only [sizeOf, Value.size, has, hbs, Except.map, hall.length_eq]
  rw [hsize]
  apply Agree.refl

theorem ui8_agree {a b : Value} (h : a.Alike b) :
  Agree (ui8 a) (ui8 b)
  := (Value.fit_agree h 8 false).map _

theorem ui16_agree {a b : Value} (h : a.Alike b) :
  Agree (ui16 a) (ui16 b)
  := (Value.fit_agree h 16 false).map _

/-- Register parameters that are alike are written alike. -/
theorem registerParamBytes_agree {a b : Value} (h : a.Alike b) :
  Agree (registerParamBytes a) (registerParamBytes b)
  := by
  apply Agree.bind_of
  rintro ⟨r, n⟩ ⟨r', n'⟩ ha hb
  obtain _ | ⟨hregister, hnames⟩ := h.forall₂_members (Value.pair_eq_ok_iff.mp ha)
    (Value.pair_eq_ok_iff.mp hb)
  obtain _ | ⟨hname, -⟩ := hnames
  exact (ui8_agree hregister).both (Value.string_agree hname)

/-- Pushes of members that are alike are written alike, unless one of them is a negative zero. -/
theorem push_agree {a b : Value} (h : a.AlikeMembers b)
    (ha : ∀ p ∈ (push a).pushValues, p.isNegativeZero = false)
    (hb : ∀ q ∈ (push b).pushValues, q.isNegativeZero = false) :
  Agree (membersOf Value.pushBytes a) (membersOf Value.pushBytes b)
  := by
  obtain ⟨as, bs, has, hbs, hall⟩ := h
  have hvalue : ∀ {c : Value} {cs : List Value}, c.members = .ok cs → ∀ v ∈ cs, ∀ p,
      PushValue.ofValue "id" v = .ok p → p ∈ (push c).pushValues := by
    intro c cs hcs v hv p hp
    rw [pushValues, hcs]
    exact List.mem_filterMap.mpr ⟨v, hv, by rw [hp]; rfl⟩
  rw [membersOf, membersOf, has, hbs]
  apply each_agree
  apply List.forall₂_iff_get.mpr
  obtain ⟨hlength, hget⟩ := List.forall₂_iff_get.mp hall
  refine ⟨hlength, fun i hi hi' => Value.pushBytes_agree (hget i hi hi') ?_ ?_⟩
  · exact fun p hp => ha p (hvalue has _ (List.get_mem _ _) p hp)
  · exact fun q hq => hb q (hvalue hbs _ (List.get_mem _ _) q hq)

/-- The place of a caught value is a number for both of two that are alike and can be written. -/
theorem isSome_whole?_of_closing {a b : Value} (h : a.Alike b) {x y : Bytes}
    (hx : (if a.whole?.isSome then ui8 a else a.string) = .ok x)
    (hy : (if b.whole?.isSome then ui8 b else b.string) = .ok y) :
  a.whole?.isSome = b.whole?.isSome
  := by
  cases ha : a.whole? with
  | some m =>
    cases hb : b.whole? with
    | some n => rfl
    | none =>
      rw [hb] at hy
      obtain ⟨t, rfl, ht⟩ := Value.exists_scalar_of_string hy
      obtain ⟨s, rfl, hst⟩ := h.scalar_right
      obtain rfl | ⟨-, hnumber⟩ := hst.eq_or_numbers
      · cases ha.symm.trans hb
      · cases ht.symm.trans hnumber
  | none =>
    cases hb : b.whole? with
    | none => rfl
    | some n =>
      rw [ha] at hx
      obtain ⟨s, rfl, hs⟩ := Value.exists_scalar_of_string hx
      obtain ⟨t, rfl, hst⟩ := h.scalar_left
      obtain rfl | ⟨hnumber, -⟩ := hst.eq_or_numbers
      · cases ha.symm.trans hb
      · cases hs.symm.trans hnumber

/-- How operands can be alike: their fields are, one by one, and the members of their lists. The
displacement of a branch plays no part. -/
inductive Alike : Operands → Operands → Prop where
  | plain : Alike plain plain
  | payload {a b : Value} (h : a.Alike b) : Alike (payload a) (payload b)
  | gotoFrame {a b : Value} (h : a.Alike b) : Alike (gotoFrame a) (gotoFrame b)
  | getUrl {a a' b b' : Value} (hurl : a.Alike b) (htarget : a'.Alike b') :
      Alike (getUrl a a') (getUrl b b')
  | storeRegister {a b : Value} (h : a.Alike b) : Alike (storeRegister a) (storeRegister b)
  | constantPool {a b : Value} (h : a.AlikeMembers b) : Alike (constantPool a) (constantPool b)
  | strictMode {a b : Value} (h : a.Alike b) : Alike (strictMode a) (strictMode b)
  | waitForFrame {a a' b b' : Value} (hframe : a.Alike b) (hcount : a'.Alike b') :
      Alike (waitForFrame a a') (waitForFrame b b')
  | waitForFrame2 {a b : Value} (h : a.Alike b) : Alike (waitForFrame2 a) (waitForFrame2 b)
  | string {a b : Value} (h : a.Alike b) : Alike (string a) (string b)
  | getUrl2 {a₁ a₂ a₃ a₄ b₁ b₂ b₃ b₄ : Value} (hmethod : a₁.Alike b₁) (htarget : a₂.Alike b₂)
      (hvariables : a₃.Alike b₃) (hreserved : a₄.Alike b₄) :
      Alike (getUrl2 a₁ a₂ a₃ a₄) (getUrl2 b₁ b₂ b₃ b₄)
  | gotoFrame2 {a₁ a₂ a₃ b₁ b₂ b₃ : Value} (hplay : a₁.Alike b₁) (hbias : a₂.Alike b₂)
      (hreserved : a₃.Alike b₃) : Alike (gotoFrame2 a₁ a₂ a₃) (gotoFrame2 b₁ b₂ b₃)
  | push {a b : Value} (h : a.AlikeMembers b) : Alike (push a) (push b)
  | branch {a b d e : Value} (h : a.Alike b) : Alike (branch a d) (branch b e)
  | defineFunction {a b as bs : Value} (hname : a.Alike b) (hparams : as.AlikeMembers bs) :
      Alike (defineFunction a as) (defineFunction b bs)
  | defineFunction2 {a b as bs m n r s : Value} {f g : FunctionFlags} (hname : a.Alike b)
      (hparams : as.AlikeMembers bs) (hcount : m.Alike n) (hflags : f.Alike g)
      (hreserved : r.Alike s) : Alike (defineFunction2 a as m f r) (defineFunction2 b bs n g s)
  | withObject : Alike withObject withObject
  | tryCatch {a₁ a₂ a₃ a₄ b₁ b₂ b₃ b₄ : Value} (hplace : a₁.Alike b₁) (hcatch : a₂.Alike b₂)
      (hfinally : a₃.Alike b₃) (hreserved : a₄.Alike b₄) :
      Alike (tryCatch a₁ a₂ a₃ a₄) (tryCatch b₁ b₂ b₃ b₄)

/-- Equal operands are alike. -/
theorem alike_of_same {a b : Operands} (h : a.same b = true) :
  Alike a b
  := by
  revert h
  fun_cases Operands.same a b
  all_goals intro h
  all_goals try simp only [Bool.and_eq_true, and_assoc] at h
  all_goals first
    | cases h; done
    | constructor <;> first
      | exact Value.alike_of_same _ (by simp only [h])
      | exact Value.alikeMembers_of_sameMembers (by simp only [h])
      | exact Value.forall₂_alike_of_sameAll _ h.2.2.2.1

/-- Operands that are alike agree in the bytes after the body sizes. -/
theorem Alike.closing_agree {a b : Operands} (h : Alike a b) :
  Agree a.closing b.closing
  := by
  cases h with
  | tryCatch hplace =>
    intro x y hx hy
    rw [closing] at hx hy
    have hwhole := isSome_whole?_of_closing hplace hx hy
    rw [hwhole] at hx
    split at hx
    · rw [if_pos ‹_›] at hy
      exact ui8_agree hplace x y hx hy
    · rw [if_neg ‹_›] at hy
      exact Value.string_agree hplace x y hx hy
  | _ => apply Agree.refl

/-- Operands that are alike have the same fields, if both can be written. -/
theorem Alike.fields_agree {a b : Operands} (h : Alike a b)
    (ha : ∀ p ∈ a.pushValues, p.isNegativeZero = false)
    (hb : ∀ q ∈ b.pushValues, q.isNegativeZero = false) {x y : Bytes} (hx : a.closing = .ok x)
    (hy : b.closing = .ok y) (d : Int) :
  Agree (a.withDisplacement d).fields (b.withDisplacement d).fields
  := by
  cases h with
  | plain | withObject | branch => apply Agree.refl
  | payload h => exact Value.toBytes_agree h _ _
  | gotoFrame h => exact ui16_agree h
  | getUrl hurl htarget => exact (Value.string_agree hurl).both (Value.string_agree htarget)
  | storeRegister h | strictMode h | waitForFrame2 h => exact ui8_agree h
  | constantPool h =>
    exact (sizeOf_agree h).both (membersOf_agree h fun _ _ => Value.string_agree)
  | waitForFrame hframe hcount => exact (ui16_agree hframe).both (ui8_agree hcount)
  | string h => exact Value.string_agree h
  | getUrl2 hmethod htarget hvariables hreserved =>
    apply (Value.fit_agree hreserved 4 false).bind
    intro reserved
    apply (Value.fit_agree hmethod 2 false).bind
    intro method
    rw [htarget.truth_eq, hvariables.truth_eq]
    apply Agree.refl
  | gotoFrame2 hplay hbias hreserved =>
    apply (Value.fit_agree hreserved 6 false).bind
    intro reserved
    rw [hbias.isNone_eq, hplay.truth_eq]
    split
    · apply Agree.refl
    · exact (ui16_agree hbias).bind fun _ => .refl _
  | push h => exact push_agree h ha hb
  | defineFunction hname hparams =>
    apply (Value.string_agree hname).bind
    intro name
    apply (sizeOf_agree hparams).bind
    intro size
    exact (membersOf_agree hparams fun _ _ => Value.string_agree).bind fun _ => .refl _
  | defineFunction2 hname hparams hcount hflags hreserved =>
    obtain ⟨hfirst, hglobal⟩ := FunctionFlags.truths_eq hflags
    apply (Value.string_agree hname).bind
    intro name
    apply (sizeOf_agree hparams).bind
    intro size
    apply (ui8_agree hcount).bind
    intro registerCount
    apply (Value.fit_agree hreserved 7 false).bind
    intro reserved
    rw [hfirst, hglobal]
    exact (membersOf_agree hparams fun _ _ => registerParamBytes_agree).bind fun _ => .refl _
  | tryCatch hplace hcatch hfinally hreserved =>
    apply (Value.fit_agree hreserved 5 false).bind
    intro reserved
    rw [isSome_whole?_of_closing hplace hx hy, hcatch.truth_eq, hfinally.truth_eq]
    apply Agree.refl

/-- Operands that are alike are written alike, given the sizes of the bodies and the displacement of
a branch. -/
theorem Alike.wire_agree {a b : Operands} (h : Alike a b)
    (ha : ∀ p ∈ a.pushValues, p.isNegativeZero = false)
    (hb : ∀ q ∈ b.pushValues, q.isNegativeZero = false) (d : Int) (ns : List Nat) :
  Agree ((a.withDisplacement d).wire ns) ((b.withDisplacement d).wire ns)
  := by
  have hclosing : ∀ o : Operands, (o.withDisplacement d).closing = o.closing := by
    intro o
    cases o <;> rfl
  intro x y hx hy
  obtain ⟨front, back, hfront, -, hback, rfl⟩ := wire_eq_ok_iff.mp hx
  obtain ⟨front', back', hfront', -, hback', rfl⟩ := wire_eq_ok_iff.mp hy
  rw [hclosing] at hback hback'
  obtain rfl := h.closing_agree back back' hback hback'
  obtain rfl := h.fields_agree ha hb hback hback' d front front' hfront hfront'
  rfl

end Operands

end ActionBlock
