import ActionBlock.Number.Binary
import Mathlib.Tactic.Linarith
import Mathlib.Tactic.Ring

/-!
# Numbers of 32 bits held in 64

A number of the format of 32 bits, taken to that of 64 bits and back, is the number it was, save
that a signalling NaN becomes the quiet NaN with the same sign and payload.

The magnitudes of a format are those with a canonical form: as many units as the precision
allows, or else the least unit. `Format.pack` and `Format.unpack` are inverse on canonical forms,
and rounding leaves a magnitude as it is that has a canonical form.
-/

namespace ActionBlock

theorem roundDiv_mul_self (n : Nat) {d : Nat} (hd : 0 < d) :
  roundDiv (n * d) d = n
  := by
  simp [roundDiv, Nat.mul_div_cancel n hd, hd]

theorem log2_mul_two_pow {n : Nat} (hn : n ≠ 0) (k : Nat) :
  (n * 2 ^ k).log2 = n.log2 + k
  := by
  apply (Nat.log2_eq_iff (by positivity)).mpr
  constructor
  · rw [pow_add]
    exact Nat.mul_le_mul_right _ (Nat.log2_self_le hn)
  · rw [show n.log2 + k + 1 = n.log2 + 1 + k by omega, pow_add]
    exact Nat.mul_lt_mul_of_pos_right Nat.lt_log2_self (by positivity)

namespace Format

/-! ### Canonical forms -/

/-- A number of units and the exponent of the unit, as bit patterns hold them. -/
structure Canonical (f : Format) (n : Nat) (unit : Int) : Prop where
  lt : n < 2 ^ f.precision
  least_le : f.least ≤ unit
  le_most : unit ≤ f.most
  full : 2 ^ (f.precision - 1) ≤ n ∨ unit = f.least

variable {f : Format} {n : Nat} {unit : Int}

/-- The unit of a canonical form is the one that rounding chooses. -/
theorem Canonical.unit_eq (h : Canonical f n unit) (hn : n ≠ 0) :
  max f.least (unit + (n.log2 + 1 : Nat) - f.precision) = unit
  := by
  have hlog : n.log2 < f.precision := (Nat.log2_lt hn).mpr h.lt
  have hleast := h.least_le
  obtain hfull | rfl := h.full
  · have hge : f.precision - 1 ≤ n.log2 := (Nat.le_log2 hn).mpr hfull
    omega
  · omega

theorem two_pow_precision (hp : 0 < f.precision) :
  2 ^ f.precision = 2 * 2 ^ (f.precision - 1)
  := by
  obtain ⟨k, hk⟩ : ∃ k, f.precision = k + 1 := ⟨f.precision - 1, by omega⟩
  rw [hk, Nat.add_sub_cancel, pow_succ, mul_comm]

/-- A finite pattern unpacks to a canonical significand and unit. -/
theorem canonical_unpack (hp : 0 < f.precision) (hf : f.least ≤ f.most) {pattern : Nat}
    (h : pattern < f.infinity) :
  Canonical f (f.unpack pattern).1 (f.unpack pattern).2
  := by
  have hpow := two_pow_precision hp
  have hpos : 0 < 2 ^ (f.precision - 1) := by positivity
  have hmod := Nat.mod_lt pattern hpos
  have hfield : pattern / 2 ^ (f.precision - 1) < (f.most - f.least + 2).toNat :=
    (Nat.div_lt_iff_lt_mul hpos).mpr h
  simp only [unpack]
  generalize pattern / 2 ^ (f.precision - 1) = field at hfield
  split
  · exact ⟨by omega, le_refl _, hf, .inr rfl⟩
  · exact ⟨by omega, by omega, by omega, .inl (by omega)⟩

/-- Packing undoes unpacking. -/
theorem pack_unpack (pattern : Nat) :
  f.pack (f.unpack pattern).1 (f.unpack pattern).2 = pattern
  := by
  have hdiv := Nat.div_add_mod pattern (2 ^ (f.precision - 1))
  simp only [unpack]
  split
  · rename_i hfield
    rw [hfield] at hdiv
    simp only [pack, sub_self, Int.toNat_zero, zero_mul]
    omega
  · rename_i hfield
    obtain ⟨k, hk⟩ := Nat.exists_eq_succ_of_ne_zero hfield
    rw [hk] at hdiv ⊢
    have hunit : (f.least + (k.succ : Nat) - 1 - f.least).toNat = k := by
      push_cast
      omega
    simp only [pack, hunit]
    rw [Nat.mul_succ, mul_comm] at hdiv
    omega

/-- A canonical significand and unit make a finite pattern. -/
theorem Canonical.pack_lt (h : Canonical f n unit) (hp : 0 < f.precision) :
  f.pack n unit < f.infinity
  := by
  have hlt := h.lt
  rw [two_pow_precision hp] at hlt
  have hu : (unit - f.least).toNat + 2 ≤ (f.most - f.least + 2).toNat := by
    have h₁ := h.least_le
    have h₂ := h.le_most
    omega
  calc f.pack n unit
      < (unit - f.least).toNat * 2 ^ (f.precision - 1) + 2 * 2 ^ (f.precision - 1) := by
        simp only [pack]
        omega
    _ = ((unit - f.least).toNat + 2) * 2 ^ (f.precision - 1) := by ring
    _ ≤ f.infinity := Nat.mul_le_mul_right _ hu

/-- Unpacking undoes packing of what is canonical. -/
theorem Canonical.unpack_pack (h : Canonical f n unit) (hp : 0 < f.precision) :
  f.unpack (f.pack n unit) = (n, unit)
  := by
  have hlt := h.lt
  have hleast := h.least_le
  rw [two_pow_precision hp] at hlt
  by_cases hfull : 2 ^ (f.precision - 1) ≤ n
  · obtain ⟨r, rfl⟩ := Nat.exists_eq_add_of_le hfull
    have hr : r < 2 ^ (f.precision - 1) := by omega
    have hpack : f.pack (2 ^ (f.precision - 1) + r) unit
        = r + ((unit - f.least).toNat + 1) * 2 ^ (f.precision - 1) := by
      simp only [pack]
      ring
    simp only [unpack, hpack, Nat.add_mul_div_right _ _ (Nat.two_pow_pos _), Nat.div_eq_of_lt hr,
      Nat.add_mul_mod_self_right, Nat.mod_eq_of_lt hr, zero_add, Nat.add_eq_zero_iff,
      Nat.one_ne_zero, and_false, if_false, Prod.mk.injEq]
    omega
  · obtain rfl := h.full.resolve_left hfull
    push Not at hfull
    simp [unpack, pack, Nat.div_eq_of_lt hfull, Nat.mod_eq_of_lt hfull]

/-! ### Exact rounding -/

/-- Rounding in terms of the unit that it chooses, if the units do not overflow. -/
theorem round_eq_some {m : Nat} {e : Int} (hm : m ≠ 0)
    (hunit : max f.least (e + (m.log2 + 1 : Nat) - f.precision) = unit)
    (hcount : (if unit ≤ e then m * 2 ^ (e - unit).toNat
      else roundDiv m (2 ^ (unit - e).toNat)) = n)
    (hlt : n < 2 ^ f.precision) (hmost : unit ≤ f.most) :
  f.round m e = some (n, unit)
  := by
  simp only [round, if_neg hm, hunit, hcount, if_neg hlt.ne, if_neg hmost.not_gt]

theorem round_zero (e : Int) :
  f.round 0 e = some (0, f.least)
  := rfl

theorem canonical_zero (hf : f.least ≤ f.most) :
  Canonical f 0 f.least
  := ⟨by positivity, le_refl _, hf, .inr rfl⟩

/-- A magnitude given in finer units than those of its canonical form. -/
theorem Canonical.round_finer (h : Canonical f n unit) (hn : n ≠ 0) (k : Nat) :
  f.round (n * 2 ^ k) (unit - k) = some (n, unit)
  := by
  have hlog : (n * 2 ^ k).log2 = n.log2 + k := log2_mul_two_pow hn k
  have hunit := h.unit_eq hn
  apply round_eq_some (by positivity) _ _ h.lt h.le_most
  · rw [hlog]
    push_cast at hunit ⊢
    omega
  · split
    · obtain rfl : k = 0 := by omega
      simp
    · rw [show (unit - (unit - k)).toNat = k by omega]
      exact roundDiv_mul_self n (by positivity)

/-- A magnitude given in coarser units than those of its canonical form. -/
theorem Canonical.round_coarser {k : Nat} (h : Canonical f (n * 2 ^ k) unit) (hn : n ≠ 0) :
  f.round n (unit + k) = some (n * 2 ^ k, unit)
  := by
  have hlog : (n * 2 ^ k).log2 = n.log2 + k := log2_mul_two_pow hn k
  have hunit := h.unit_eq (by positivity)
  apply round_eq_some hn _ _ h.lt h.le_most
  · rw [hlog] at hunit
    push_cast at hunit ⊢
    omega
  · rw [if_pos (by omega), show (unit + k - unit).toNat = k by omega]

end Format

/-! ### From 32 bits to 64 and back -/

/-- The form of 64 bits of a canonical form of 32 bits: as many more bits as there is room for. -/
theorem Format.Canonical.widen {n : Nat} {unit : Int} (h : Canonical single n unit)
    (hn : n ≠ 0) :
  Canonical double (n * 2 ^ (52 - n.log2)) (unit - (52 - n.log2 : Nat))
  := by
  have hlog : n.log2 < 24 := (Nat.log2_lt hn).mpr h.lt
  have hlow : 2 ^ 52 ≤ n * 2 ^ (52 - n.log2) := by
    calc 2 ^ 52 = 2 ^ n.log2 * 2 ^ (52 - n.log2) := by rw [← pow_add]; congr 1; omega
      _ ≤ _ := Nat.mul_le_mul_right _ (Nat.log2_self_le hn)
  have hhigh : n * 2 ^ (52 - n.log2) < 2 ^ 53 := by
    calc _ < 2 ^ (n.log2 + 1) * 2 ^ (52 - n.log2) :=
          Nat.mul_lt_mul_of_pos_right Nat.lt_log2_self (by positivity)
      _ = 2 ^ 53 := by rw [← pow_add]; congr 1; omega
  have h₁ := h.least_le
  have h₂ := h.le_most
  change -149 ≤ unit at h₁
  change unit ≤ 104 at h₂
  refine ⟨hhigh, ?_, ?_, .inl hlow⟩
  · change -1074 ≤ unit - (52 - n.log2 : Nat)
    omega
  · change unit - (52 - n.log2 : Nat) ≤ 971
    omega

namespace Single

/-- Whether a number is a NaN whose quiet bit, the highest of the fraction, is clear. -/
def isSignalling (x : Single) : Bool :=
  Format.single.infinity < x.pattern && !x.pattern.testBit 22

/-- The number with its quiet bit set, if it is a signalling NaN. -/
def quieted (x : Single) : Single :=
  if x.isSignalling then ofPattern x.negative (x.pattern + 2 ^ 22) else x

theorem ofPattern_self (x : Single) :
  ofPattern x.negative x.pattern = x
  := by
  obtain ⟨bits⟩ := x
  have hbits := bits.toNat_lt
  simp only [ofPattern, negative, pattern, mk.injEq]
  apply UInt32.toNat_inj.mp
  rw [UInt32.toNat_ofNat']
  by_cases h : 2 ^ 31 ≤ bits.toNat
  · simp only [h, decide_true, if_true]
    omega
  · simp only [h, decide_false, Bool.false_eq_true, if_false]
    omega

theorem pattern_lt (x : Single) :
  x.pattern < 2 ^ 31
  := Nat.mod_lt _ (by decide)

/-- A signalling NaN is one without the quiet bit. -/
theorem isSignalling_iff {x : Single} :
  x.isSignalling = true ↔ Format.single.infinity < x.pattern ∧ x.pattern / 2 ^ 22 % 2 = 0
  := by
  simp [isSignalling, Nat.testBit_eq_decide_div_mod_eq]

/-- Quieting a NaN sets its quiet bit and keeps its payload. -/
theorem quieted_of_nan {x : Single} (h : Format.single.infinity < x.pattern) :
  x.quieted = ofPattern x.negative (Format.single.infinity + 2 ^ 22 + x.pattern % 2 ^ 22)
  := by
  have hlt := x.pattern_lt
  have hinf : Format.single.infinity = 255 * 2 ^ 23 := rfl
  by_cases hs : x.isSignalling = true
  · have hbit := (isSignalling_iff.mp hs).2
    have hset : x.pattern + 2 ^ 22
        = Format.single.infinity + 2 ^ 22 + x.pattern % 2 ^ 22 := by omega
    rw [quieted, if_pos hs, hset]
  · have hbit : x.pattern / 2 ^ 22 % 2 = 1 := by
      rw [isSignalling_iff] at hs
      omega
    have hset : Format.single.infinity + 2 ^ 22 + x.pattern % 2 ^ 22 = x.pattern := by omega
    rw [quieted, if_neg hs, hset, ofPattern_self]

/-- Quieting changes NaNs only. -/
theorem quieted_of_not_nan {x : Single} (h : ¬ Format.single.infinity < x.pattern) :
  x.quieted = x
  := by
  have hs : ¬ x.isSignalling = true := fun hs => h (isSignalling_iff.mp hs).1
  rw [quieted, if_neg hs]

theorem negative_ofPattern (negative : Bool) {pattern : Nat} (h : pattern < 2 ^ 31) :
  (ofPattern negative pattern).negative = negative
  := by
  cases negative <;> simp [ofPattern, Single.negative, UInt32.toNat_ofNat'] <;> omega

theorem pattern_ofPattern (negative : Bool) {pattern : Nat} (h : pattern < 2 ^ 31) :
  (ofPattern negative pattern).pattern = pattern
  := by
  cases negative <;> simp [ofPattern, Single.pattern, UInt32.toNat_ofNat'] <;> omega

end Single

namespace Double

theorem negative_ofPattern (negative : Bool) {pattern : Nat} (h : pattern < 2 ^ 63) :
  (ofPattern negative pattern).negative = negative
  := by
  cases negative <;> simp [ofPattern, Double.negative, UInt64.toNat_ofNat'] <;> omega

theorem pattern_ofPattern (negative : Bool) {pattern : Nat} (h : pattern < 2 ^ 63) :
  (ofPattern negative pattern).pattern = pattern
  := by
  cases negative <;> simp [ofPattern, Double.pattern, UInt64.toNat_ofNat'] <;> omega

theorem infinity_double :
  Format.double.infinity = 2047 * 2 ^ 52
  := rfl

/-- A canonical form in the format of 64 bits is what its bit pattern denotes. -/
theorem meaning_ofPattern_pack (negative : Bool) {n : Nat} {unit : Int}
    (h : Format.Canonical .double n unit) :
  Double.meaning (ofPattern negative (Format.double.pack n unit)) = .finite negative n unit
  := by
  have hlt : Format.double.pack n unit < Format.double.infinity := h.pack_lt (by decide)
  have hrange : Format.double.pack n unit < 2 ^ 63 := by
    rw [infinity_double] at hlt
    omega
  rw [meaning, pattern_ofPattern negative hrange, negative_ofPattern negative hrange,
    if_neg hlt.not_gt, if_neg hlt.ne, h.unpack_pack (by decide)]

/-- What a finite number of 32 bits denotes in the format of 64 bits. -/
theorem exists_meaning_ofSingle {x : Single} (h : x.pattern < Format.single.infinity)
    (hzero : (Format.single.unpack x.pattern).1 ≠ 0) :
  ∃ k : Nat, Double.meaning (ofSingle x)
    = .finite x.negative ((Format.single.unpack x.pattern).1 * 2 ^ k)
        ((Format.single.unpack x.pattern).2 - k)
  := by
  have hcanon := Format.canonical_unpack (by decide) (by decide) h
  have hwide := hcanon.widen hzero
  have hround := hwide.round_coarser hzero
  rw [sub_add_cancel] at hround
  refine ⟨52 - (Format.single.unpack x.pattern).1.log2, ?_⟩
  rw [ofSingle, if_neg h.not_gt, if_neg h.ne]
  simp only [hround]
  exact meaning_ofPattern_pack _ hwide

/-- A number of 32 bits that is finite comes back from 64 bits. -/
theorem toSingle?_ofSingle_of_finite {x : Single} (h : x.pattern < Format.single.infinity) :
  (ofSingle x).toSingle? = some x
  := by
  have hpack : Format.single.pack _ _ = x.pattern := Format.pack_unpack x.pattern
  by_cases hzero : (Format.single.unpack x.pattern).1 = 0
  · have hcanon := Format.canonical_unpack (by decide) (by decide) h
    have hleast : (Format.single.unpack x.pattern).2 = Format.single.least := by
      apply hcanon.full.resolve_left
      rw [hzero]
      decide
    have hden : Double.meaning (ofSingle x) = .finite x.negative 0 Format.double.least := by
      rw [ofSingle, if_neg h.not_gt, if_neg h.ne]
      simp only [hzero, Format.round_zero]
      exact meaning_ofPattern_pack _ (Format.canonical_zero (by decide))
    rw [hzero, hleast] at hpack
    simp only [toSingle?, hden, Format.round_zero, Option.map_some, hpack, Single.ofPattern_self]
  · obtain ⟨k, hk⟩ := exists_meaning_ofSingle h hzero
    have hcanon := Format.canonical_unpack (by decide) (by decide) h
    have hround := hcanon.round_finer hzero k
    simp only [toSingle?, hk, hround, Option.map_some, hpack, Single.ofPattern_self]

/-- An infinite single survives widening and narrowing. -/
theorem toSingle?_ofSingle_of_infinite {x : Single} (h : x.pattern = Format.single.infinity) :
  (ofSingle x).toSingle? = some x
  := by
  have hrange : Format.double.infinity < 2 ^ 63 := by
    rw [infinity_double]
    omega
  have hden : Double.meaning (ofSingle x) = .infinite x.negative := by
    rw [ofSingle, if_neg h.not_gt, if_pos h, meaning, pattern_ofPattern _ hrange,
      negative_ofPattern _ hrange, if_neg (lt_irrefl _), if_pos rfl]
  rw [toSingle?, hden, ← h]
  exact congrArg some x.ofPattern_self

/-- A NaN is widened to a quiet NaN of its sign and payload. -/
theorem ofSingle_of_nan {x : Single} (h : Format.single.infinity < x.pattern) :
  (ofSingle x).negative = x.negative
    ∧ (ofSingle x).pattern = Format.double.infinity + 2 ^ 51 + x.pattern % 2 ^ 22 * 2 ^ 29
  := by
  have hfrac : x.pattern % 2 ^ 22 < 2 ^ 22 := Nat.mod_lt _ (by decide)
  have hrange : Format.double.infinity + 2 ^ 51 + x.pattern % 2 ^ 22 * 2 ^ 29 < 2 ^ 63 := by
    rw [infinity_double]
    omega
  rw [ofSingle, if_pos h]
  exact ⟨negative_ofPattern _ hrange, pattern_ofPattern _ hrange⟩

/-- A NaN is widened to a NaN. -/
theorem meaning_ofSingle_of_nan {x : Single} (h : Format.single.infinity < x.pattern) :
  Double.meaning (ofSingle x) = .nan
  := by
  rw [meaning, if_pos (by rw [(ofSingle_of_nan h).2]; omega)]

/-- A NaN keeps its sign and the last 22 bits of its payload. -/
theorem toSingle?_ofSingle_of_nan {x : Single} (h : Format.single.infinity < x.pattern) :
  (ofSingle x).toSingle?
    = some (.ofPattern x.negative (Format.single.infinity + 2 ^ 22 + x.pattern % 2 ^ 22))
  := by
  obtain ⟨hnegative, hpattern⟩ := ofSingle_of_nan h
  have hpayload : (ofSingle x).pattern % 2 ^ 52 / 2 ^ 29 % 2 ^ 22 = x.pattern % 2 ^ 22 := by
    rw [hpattern, infinity_double]
    omega
  rw [toSingle?, meaning_ofSingle_of_nan h]
  simp only [hnegative, hpayload]

/-- A number of 32 bits comes back from 64 bits, a signalling NaN as a quiet one. -/
theorem toSingle?_ofSingle (x : Single) :
  (ofSingle x).toSingle? = some x.quieted
  := by
  obtain h | h | h := Nat.lt_trichotomy x.pattern Format.single.infinity
  · rw [toSingle?_ofSingle_of_finite h, Single.quieted_of_not_nan h.not_gt]
  · rw [toSingle?_ofSingle_of_infinite h, Single.quieted_of_not_nan h.not_gt]
  · rw [toSingle?_ofSingle_of_nan h, Single.quieted_of_nan h]

/-- In 64 bits a signalling NaN is the same as the quiet one that it becomes. -/
theorem ofSingle_quieted (x : Single) :
  ofSingle x.quieted = ofSingle x
  := by
  by_cases h : Format.single.infinity < x.pattern
  · have hinf : Format.single.infinity = 255 * 2 ^ 23 := rfl
    have hrange : Format.single.infinity + 2 ^ 22 + x.pattern % 2 ^ 22 < 2 ^ 31 := by omega
    have hpayload : (Format.single.infinity + 2 ^ 22 + x.pattern % 2 ^ 22) % 2 ^ 22
        = x.pattern % 2 ^ 22 := by omega
    rw [Single.quieted_of_nan h, ofSingle, ofSingle, Single.pattern_ofPattern _ hrange,
      Single.negative_ofPattern _ hrange, if_pos (by omega), if_pos h, hpayload]
  · rw [Single.quieted_of_not_nan h]

end Double

end ActionBlock
