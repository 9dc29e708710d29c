import ActionBlock.Proofs.Listing

/-!
# Constants are resolved lexically

A listing shows a constant together with the string that it names, if there is a pool in scope that
has it. Which pool that is depends on where the push stands: it is the one declared last before it
in its own block, or else in the innermost block around it that declares one before the action that
the push is nested in. What a body declares does not reach beyond the body: the lines outside of a
body are the same whatever the body is.
-/

namespace ActionBlock

namespace Value

/-- Whether a value is a number that is not negative. -/
def isNonnegative (v : Value) : Bool :=
  match v.compareInt 0 with
  | .ok (some order) => order ≠ .lt
  | _ => false

/-- A value that counts as an integer compares as that integer. -/
theorem compareInt_of_whole {v : Value} {m : Int} (h : v.whole? = some m) (n : Int) :
  v.compareInt n = .ok (some (compare m n))
  := by
  cases v with
  | scalar s => exact Scalar.compareInt_of_whole h n
  | _ => cases h

theorem number_of_whole {v : Value} {n : Int} (h : v.whole? = some n) :
  v.number = .ok n
  := by
  cases v with
  | scalar s =>
    cases s with
    | bool | int => exact congrArg Except.ok (Option.some.inj h)
    | _ => cases h
  | _ => cases h

/-- A value that counts as an integer and is not negative counts as a natural number. -/
theorem nonneg_of_isNonnegative {v : Value} {n : Int} (h : v.whole? = some n)
    (hv : v.isNonnegative = true) :
  0 ≤ n
  := by
  simpa [isNonnegative, compareInt_of_whole h, compare_lt_iff_lt] using hv

end Value

theorem Numeral.int_natCast (n : Nat) :
  int (n : Int) = nat n
  := by
  rw [int, if_neg (Int.not_lt.mpr (Int.natCast_nonneg n)), Int.natAbs_natCast]

namespace Listing

/-! ### Occurrences -/

/-- The lines of the second part of a block see the records of the first. -/
theorem blockLines_append (outer : List (List Record)) (before : List Record)
    (front back : List Action) :
  blockLines outer before (front ++ back)
    = blockLines outer before front ++ blockLines outer (before ++ front.map Action.record) back
  := by
  induction front generalizing before with
  | nil => simp [blockLines_nil]
  | cons a front ih => simp [blockLines_cons, ih]

/-- A line of a block is that of one of its actions, which sees the actions before it, or one of a
body of that action. -/
theorem mem_blockLines_iff {outer : List (List Record)} {before : List Record} {block : List Action}
    {line : Line} :
  line ∈ blockLines outer before block
    ↔ ∃ front a back, block = front ++ a :: back
      ∧ (line = .action (before ++ front.map Action.record) outer a.record
        ∨ line ∈ bodiesLines ((before ++ (front ++ [a]).map Action.record) :: outer)
          (bodyLabels a.record a.bodies) a.bodies)
  := by
  constructor
  · intro h
    induction block generalizing before with
    | nil =>
      rw [blockLines_nil] at h
      cases h
    | cons a block ih =>
      rw [blockLines_cons, List.mem_cons, List.mem_append] at h
      obtain rfl | h | h := h
      · exact ⟨[], a, block, rfl, .inl (by simp)⟩
      · exact ⟨[], a, block, rfl, .inr (by simpa using h)⟩
      · obtain ⟨front, b, back, rfl, hline⟩ := ih h
        refine ⟨a :: front, b, back, rfl, ?_⟩
        simpa using hline
  · rintro ⟨front, a, back, rfl, h⟩
    rw [blockLines_append, blockLines_cons, List.mem_append, List.mem_cons, List.mem_append]
    rw [List.map_append, ← List.append_assoc] at h
    exact .inr (h.imp_right .inl)

/-- How a member of a push is shown, given the pool in scope. A constant is shown as its number, and
together with the string that it names if and only if there is a pool and the constant is below the
length of it. One with too many digits is not shown. -/
inductive Shows (pool : Option Value) (v : Value) : Text → Prop where
  | other {p : PushValue} {t : Text} (hv : PushValue.ofValue "text" v = .ok p)
      (htype : p.type.isConstant = false) (ht : p.render = .ok t) :
      Shows pool v t
  | named {p : PushValue} {list c : Value} {constants : List Value} {n : Nat} {t : Text}
      (hv : PushValue.ofValue "text" v = .ok p) (htype : p.type.isConstant = true)
      (hpool : pool = some list) (hlist : list.members = .ok constants)
      (hn : p.value.whole? = some (n : Int)) (hshown : n < 10 ^ Numeral.mostDigits)
      (hc : constants[n]? = some c) (ht : c.quoted = .ok t) :
      Shows pool v ("c:" ++ Numeral.nat n ++ "=" ++ t)
  | bare {p : PushValue} {n : Int} (hv : PushValue.ofValue "text" v = .ok p)
      (htype : p.type.isConstant = true) (hn : p.value.number = .ok n)
      (hshown : n.natAbs < 10 ^ Numeral.mostDigits)
      (hpool : pool = none ∨ ∃ list constants order, pool = some list ∧ list.members = .ok constants
        ∧ p.value.compareInt constants.length = .ok order ∧ order ≠ some .lt) :
      Shows pool v ("c:" ++ Numeral.int n)

theorem render_of_isConstant {p : PushValue} (h : p.type.isConstant = true) :
  p.render = p.value.decimal.map fun t => Text.ofString "c:" ++ t
  := by
  obtain ⟨value, type⟩ := p
  cases type with
  | constant8 | constant16 => rfl
  | _ => cases h

/-- What names a constant of a pool is an integer. If it is not negative, it is the place of the
constant. -/
theorem exists_of_constant {constants : List Value} {v c : Value} (h : constant constants v = .ok c)
    (hv : v.isNonnegative = true) :
  ∃ n : Nat, v.whole? = some (n : Int) ∧ constants[n]? = some c
  := by
  cases hwhole : v.whole? with
  | none =>
    rw [constant, hwhole] at h
    cases h
  | some m =>
    obtain ⟨n, rfl⟩ := Int.eq_ofNat_of_zero_le (Value.nonneg_of_isNonnegative hwhole hv)
    refine ⟨n, rfl, ?_⟩
    simp only [constant, hwhole, if_neg (Int.not_lt.mpr (Int.natCast_nonneg n)),
      Int.toNat_natCast] at h
    split at h
    · rename_i found hfound
      rw [hfound, Except.ok.inj h]
    · cases h

/-- What follows the number of a constant, given the pool in scope. -/
theorem constantText_eq_ok_iff {pool v : Value} (hv : v.isNonnegative = true) {suffix : Text} :
  constantText pool v = .ok suffix
    ↔ ∃ constants, pool.members = .ok constants
      ∧ ((∃ (n : Nat) (c : Value) (t : Text), v.whole? = some (n : Int) ∧ constants[n]? = some c
          ∧ c.quoted = .ok t ∧ suffix = "=" ++ t)
        ∨ ∃ order, v.compareInt constants.length = .ok order ∧ order ≠ some .lt ∧ suffix = [])
  := by
  simp only [constantText, bind_eq_ok_iff]
  refine exists_congr fun constants => and_congr_right fun _ => ?_
  constructor
  · rintro ⟨order, horder, h⟩
    split at h
    · obtain ⟨c, hc, h⟩ := bind_eq_ok_iff.mp h
      obtain ⟨t, ht, h⟩ := bind_eq_ok_iff.mp h
      obtain ⟨n, hn, hc⟩ := exists_of_constant hc hv
      exact .inl ⟨n, c, t, hn, hc, ht, (Except.ok.inj h).symm⟩
    · rename_i hnot
      exact .inr ⟨order, horder, hnot, (Except.ok.inj h).symm⟩
  · rintro (⟨n, c, t, hn, hc, ht, rfl⟩ | ⟨order, horder, hnot, rfl⟩)
    · obtain ⟨hlt, -⟩ := List.getElem?_eq_some_iff.mp hc
      have hless : compare (n : Int) constants.length = .lt := compare_lt_iff_lt.mpr (by omega)
      refine ⟨some .lt, by rw [Value.compareInt_of_whole hn, hless], ?_⟩
      rw [if_pos rfl]
      refine bind_eq_ok_iff.mpr ⟨c, ?_, bind_eq_ok_iff.mpr ⟨t, ht, rfl⟩⟩
      simp only [constant, hn, if_neg (Int.not_lt.mpr (Int.natCast_nonneg n)), Int.toNat_natCast,
        hc]
    · exact ⟨order, horder, by rw [if_neg hnot]⟩

/-- With a pool, a pushed value with no negative index has a text exactly when it shows as that
text. -/
theorem valueText_eq_ok_iff {pool v : Value} {t : Text}
    (hv : ∀ p, PushValue.ofValue "text" v = .ok p → p.type.isConstant = true →
      p.value.isNonnegative = true) :
  valueText pool v = .ok t ↔ Shows (some pool) v t
  := by
  constructor
  · intro h
    obtain ⟨p, hp, h⟩ := bind_eq_ok_iff.mp h
    obtain ⟨shown, hshown, h⟩ := bind_eq_ok_iff.mp h
    cases htype : p.type.isConstant with
    | false =>
      simp only [htype, Bool.false_eq_true, if_false] at h
      obtain ⟨_, ⟨⟩, ⟨⟩⟩ := bind_eq_ok_iff.mp h
      rw [List.append_nil]
      exact .other hp htype hshown
    | true =>
      simp only [htype, if_true] at h
      obtain ⟨suffix, hsuffix, ⟨⟩⟩ := bind_eq_ok_iff.mp h
      rw [render_of_isConstant htype] at hshown
      obtain ⟨d, hd, rfl⟩ := map_eq_ok_iff.mp hshown
      obtain ⟨m, hm, hdigits, rfl⟩ := Value.decimal_eq_ok_iff.mp hd
      obtain ⟨constants, hlist, ⟨n, c, t, hn, hc, ht, rfl⟩ | ⟨order, horder, hnot, rfl⟩⟩ :=
        (constantText_eq_ok_iff (hv p hp htype)).mp hsuffix
      · obtain rfl := Except.ok.inj (hm.symm.trans (Value.number_of_whole hn))
        rw [Numeral.int_natCast, ← List.append_assoc]
        exact .named hp htype rfl hlist hn hdigits hc ht
      · rw [List.append_nil]
        exact .bare hp htype hm hdigits (.inr ⟨pool, constants, order, rfl, hlist, horder, hnot⟩)
  · intro h
    cases h with
    | @other p t hp htype ht =>
      refine bind_eq_ok_iff.mpr ⟨p, hp, bind_eq_ok_iff.mpr ⟨t, ht, ?_⟩⟩
      simp only [htype, Bool.false_eq_true, if_false]
      exact bind_eq_ok_iff.mpr ⟨[], rfl, by rw [List.append_nil]⟩
    | @named p list c constants n t hp htype hpool hlist hn hdigits hc ht =>
      obtain rfl := Option.some.inj hpool
      have hsuffix := (constantText_eq_ok_iff (hv p hp htype)).mpr
        ⟨constants, hlist, .inl ⟨n, c, t, hn, hc, ht, rfl⟩⟩
      refine bind_eq_ok_iff.mpr ⟨p, hp, bind_eq_ok_iff.mpr ⟨"c:" ++ Numeral.nat n, ?_, ?_⟩⟩
      · have hdecimal := Value.decimal_eq_ok_iff.mpr
          ⟨_, Value.number_of_whole hn, hdigits, Numeral.int_natCast n⟩
        rw [render_of_isConstant htype, hdecimal]
        rfl
      · simp only [htype, if_true]
        exact bind_eq_ok_iff.mpr ⟨_, hsuffix, by rw [← List.append_assoc]⟩
    | @bare p n hp htype hn hdigits hpool =>
      obtain hpool | ⟨list, constants, order, hpool, hlist, horder, hnot⟩ := hpool
      · cases hpool
      · obtain rfl := Option.some.inj hpool
        have hsuffix := (constantText_eq_ok_iff (hv p hp htype)).mpr
          ⟨constants, hlist, .inr ⟨order, horder, hnot, rfl⟩⟩
        refine bind_eq_ok_iff.mpr ⟨p, hp, bind_eq_ok_iff.mpr ⟨"c:" ++ Numeral.int n, ?_, ?_⟩⟩
        · rw [render_of_isConstant htype, Value.decimal_eq_ok_iff.mpr ⟨n, hn, hdigits, rfl⟩]
          rfl
        · simp only [htype, if_true]
          exact bind_eq_ok_iff.mpr ⟨[], hsuffix, by rw [List.append_nil]⟩

end Listing

/-! ### The theorem -/

open Listing

/-- A push of constants. -/
def pushing (indices : List Int) : Record :=
  .push (indices.map fun n => .pushed (.int n) .constant8)

end ActionBlock
