import ActionBlock.Action.Render
import ActionBlock.Proofs.HexDumps
import ActionBlock.Proofs.Kinds

/-!
# Texts on one line

A text without a newline can stand on a line of its own. Numerals are such texts, and so are quoted
texts and byte strings whatever is in them, because a newline in them is escaped. Of the operands of
an action, only the names of parameters are shown as they are.
-/

namespace ActionBlock

/-! ### Texts -/

namespace Text

/-- The code point that ends a line. -/
def newline : CodePoint := CodePoint.ofChar '\n'

/-- Whether a text is free of newlines. -/
def Unbroken (t : Text) : Prop := newline ∉ t

instance (t : Text) : Decidable t.Unbroken := inferInstanceAs (Decidable (newline ∉ t))

variable {s t separator : Text}

theorem Unbroken.mono (h : t.Unbroken) (hsub : s ⊆ t) :
  s.Unbroken
  := fun hs => h (hsub hs)

@[simp]
theorem unbroken_append :
  Unbroken (s ++ t) ↔ s.Unbroken ∧ t.Unbroken
  := by
  simp [Unbroken]

theorem unbroken_cons {c : CodePoint} :
  Unbroken (c :: t) ↔ c ≠ newline ∧ t.Unbroken
  := by
  simp [Unbroken, eq_comm]

theorem unbroken_replicate {c : CodePoint} (h : c ≠ newline) (n : Nat) :
  Unbroken (List.replicate n c)
  := by
  intro hmem
  exact h (List.eq_of_mem_replicate hmem).symm

/-- Texts are joined to a text on one line if each of them is. -/
theorem unbroken_join (hseparator : separator.Unbroken) {ts : List Text} :
  Unbroken (join separator ts) ↔ ∀ t ∈ ts, t.Unbroken
  := by
  cases ts with
  | nil => simp [join, Unbroken]
  | cons t ts =>
    have hrest : Unbroken (ts.flatMap (separator ++ ·)) ↔ ∀ t ∈ ts, t.Unbroken := by
      simp only [Unbroken, List.mem_flatMap, not_exists, not_and, List.mem_append, not_or]
      exact forall₂_congr fun t _ => and_iff_right hseparator
    rw [join, unbroken_append, hrest, List.forall_mem_cons]

theorem unbroken_afterSeparator (hseparator : separator.Unbroken) :
  Unbroken (afterSeparator separator t) ↔ t.Unbroken
  := by
  rw [afterSeparator]
  split
  · rename_i hnil
    rw [hnil]
  · rw [unbroken_append, and_iff_right hseparator]

end Text

open Text

/-! ### Numerals -/

namespace Numeral

/-- Digits are unbroken, provided none of them is shown as a line break. -/
theorem unbroken_map_toDigits {base : Nat} (hbase : 1 < base) {shown : Char → CodePoint}
    (h : ∀ d < base, shown d.digitChar ≠ newline) (n : Nat) :
  Unbroken ((Nat.toDigits base n).map shown)
  := by
  intro hmem
  obtain ⟨ch, hch, hshown⟩ := List.mem_map.mp hmem
  obtain ⟨d, hd, rfl⟩ := exists_of_mem_toDigits hbase hch
  exact h d hd hshown

theorem unbroken_nat (n : Nat) :
  (nat n).Unbroken
  := unbroken_map_toDigits (by decide) (by decide) n

theorem unbroken_int (n : Int) :
  (int n).Unbroken
  := by
  rw [int]
  split
  · exact unbroken_append.mpr ⟨by decide, unbroken_nat _⟩
  · exact unbroken_nat _

theorem unbroken_signed (n : Int) :
  (signed n).Unbroken
  := by
  rw [signed]
  split
  · exact unbroken_int n
  · exact unbroken_append.mpr ⟨by decide, unbroken_int n⟩

theorem unbroken_zeroPad {digits : Text} (h : digits.Unbroken) (width : Nat) (negative : Bool) :
  (zeroPad width negative digits).Unbroken
  := by
  have hsign : Unbroken (if negative then "-" else []) := by cases negative <;> decide
  exact unbroken_append.mpr
    ⟨unbroken_append.mpr ⟨hsign, unbroken_replicate (by decide) _⟩, h⟩

theorem unbroken_hexLower (width : Nat) (n : Int) :
  (hexLower width n).Unbroken
  := unbroken_zeroPad (unbroken_map_toDigits (by decide) (by decide) _) width _

theorem unbroken_hexUpper (width : Nat) (n : Int) :
  (hexUpper width n).Unbroken
  := unbroken_zeroPad (unbroken_map_toDigits (by decide) (by decide) _) width _

end Numeral

theorem Bytes.unbroken_hex (bytes : Bytes) :
  bytes.hex.Unbroken
  := by
  apply (unbroken_join (by decide)).mpr
  exact List.forall_mem_map.mpr fun _ _ => Numeral.unbroken_hexUpper _ _

theorem Decimal.Scientific.unbroken_text (s : Scientific) :
  s.text.Unbroken
  := by
  have hdigits : (dropTrailing (CodePoint.ofChar '0') (Numeral.nat s.digits)).Unbroken := by
    apply (Numeral.unbroken_nat s.digits).mono
    intro c hc
    have := (List.dropWhile_sublist _).subset (List.mem_reverse.mp hc)
    exact List.mem_reverse.mp this
  have hzeros := unbroken_replicate (c := CodePoint.ofChar '0') (by decide)
  have htake := fun n => hdigits.mono (List.take_subset n _)
  have hdrop := fun n => hdigits.mono (List.drop_subset n _)
  have hexponent := fun n => Numeral.unbroken_zeroPad (Numeral.unbroken_nat n) 2 false
  have hliteral : ∀ {s : String}, s ∈ ["0.", ".0", ".", "e", "-", "+"] → Unbroken s := by decide
  simp only [text]
  split_ifs <;> simp [-List.drop_one, hdigits, hzeros, htake, hdrop, hexponent, hliteral]

theorem Double.unbroken_text (x : Double) :
  x.text.Unbroken
  := by
  rw [text]
  split
  · decide
  · split <;> decide
  · refine unbroken_append.mpr ⟨by split <;> decide, ?_⟩
    split
    · decide
    · apply Decimal.Scientific.unbroken_text

/-! ### Quotes -/

namespace Quoted

theorem unbroken_numbered (c : CodePoint) :
  (numbered c).Unbroken
  := by
  rw [numbered]
  split_ifs <;> exact unbroken_append.mpr ⟨by decide, Numeral.unbroken_hexLower _ _⟩

/-- A newline is escaped, whatever quote there is and whatever else can be shown. -/
theorem unbroken_escape {shown : CodePoint → Bool} {quote : CodePoint}
    (hshown : shown newline = false) (hquote : quote ≠ newline) (c : CodePoint) :
  (escape shown quote c).Unbroken
  := by
  rw [escape]
  split_ifs with hescaped _ _ _ hc
  · refine unbroken_cons.mpr ⟨by decide, unbroken_cons.mpr ⟨?_, by decide⟩⟩
    obtain rfl | rfl := hescaped
    · exact hquote
    · decide
  · decide
  · decide
  · decide
  · refine unbroken_cons.mpr ⟨?_, by decide⟩
    rintro rfl
    rw [hshown] at hc
    cases hc
  · exact unbroken_numbered c

/-- A quoted text is unbroken where a line break is not shown as it is. -/
theorem unbroken_wrap {shown : CodePoint → Bool} (hshown : shown newline = false) (t : Text) :
  (wrap shown t).Unbroken
  := by
  have hquote : quoteFor t ≠ newline := by
    rw [quoteFor]
    split <;> decide
  refine unbroken_cons.mpr ⟨hquote, unbroken_append.mpr ⟨?_, unbroken_cons.mpr ⟨hquote, by decide⟩⟩⟩
  intro hmem
  obtain ⟨c, -, hc⟩ := List.mem_flatMap.mp hmem
  exact unbroken_escape hshown hquote c hc

end Quoted

theorem Quoted.unbroken_bytes (b : Bytes) :
  (bytes b).Unbroken
  := unbroken_append.mpr ⟨by decide, unbroken_wrap (by decide) _⟩

theorem Scalar.unbroken_of_numeral {n : Int} {t : Text} (h : numeral n = .ok t) :
  t.Unbroken
  := by
  obtain ⟨-, rfl⟩ := numeral_eq_ok_iff.mp h
  exact Numeral.unbroken_int n

/-- Every scalar is quoted on one line. -/
theorem Scalar.unbroken_of_quoted {s : Scalar} {t : Text} (h : s.quoted = .ok t) :
  t.Unbroken
  := by
  cases s with
  | none =>
    obtain rfl := Except.ok.inj h
    decide
  | bool b =>
    obtain rfl := Except.ok.inj h
    cases b <;> decide
  | int n => exact unbroken_of_numeral h
  | double x => exact Except.ok.inj h ▸ x.unbroken_text
  | text t => exact Except.ok.inj h ▸ Quoted.unbroken_wrap (by decide) t
  | bytes b => exact Except.ok.inj h ▸ Quoted.unbroken_bytes b

/-! ### Values -/

namespace Value

variable {v : Value} {t : Text}

theorem unbroken_of_decimal (h : v.decimal = .ok t) :
  t.Unbroken
  := by
  obtain ⟨n, -, hn⟩ := bind_eq_ok_iff.mp h
  exact Scalar.unbroken_of_numeral hn

/-- What is shown as a decimal numeral after fixed words is on one line. -/
theorem unbroken_of_map_decimal {words : Text} (hwords : words.Unbroken)
    (h : v.decimal.map (words ++ ·) = .ok t) :
  t.Unbroken
  := by
  obtain ⟨n, hn, rfl⟩ := map_eq_ok_iff.mp h
  exact unbroken_append.mpr ⟨hwords, unbroken_of_decimal hn⟩

/-- A string or a number is shown in quotes on one line, whatever it is. -/
theorem unbroken_of_quoted (hv : v.isString = true ∨ v.isNumber = true) (h : v.quoted = .ok t) :
  t.Unbroken
  := by
  cases v with
  | scalar s =>
    rw [quoted] at h
    exact Scalar.unbroken_of_quoted h
  | _ => obtain hv | hv := hv <;> cases hv

/-- A pushed value is shown on one line. -/
theorem unbroken_of_pushText (hv : v.isPushed = true) (h : v.pushText = .ok t) :
  t.Unbroken
  := by
  cases v with
  | pushed value type =>
    change type.render value value.quoted = .ok t at h
    cases type with
    | string => exact unbroken_of_quoted (.inl hv) h
    | float | double => exact unbroken_of_quoted (.inr hv) h
    | integer => exact unbroken_of_quoted (.inr (isNumber_of_isInteger hv)) h
    | null | undefined =>
      obtain rfl := Except.ok.inj h
      decide
    | register | constant8 | constant16 => exact unbroken_of_map_decimal (by decide) h
    | boolean =>
      unfold PushType.render at h
      dsimp only at h
      split at h
      · rename_i b
        obtain rfl := Except.ok.inj h
        cases b <;> decide
      · obtain ⟨n, hn, rfl⟩ := map_eq_ok_iff.mp h
        simp only [unbroken_append]
        exact ⟨⟨by decide, unbroken_of_decimal hn⟩, by decide⟩
  | _ => cases hv

end Value

/-! ### Operands -/

namespace Operands

/-- The name of a parameter. -/
def paramName? : Value → Option Text
  | .text name | .param _ (.text name) => some name
  | _ => none

/-- The names of the parameters of a function. -/
def paramNames : Operands → List Text
  | defineFunction _ params | defineFunction2 _ params .. =>
    (params.members.toOption.getD []).filterMap paramName?
  | _ => []

/-- Whether operands are those of a function. -/
def isFunction : Operands → Bool
  | defineFunction .. | defineFunction2 .. => true
  | _ => false

variable {t : Text}

/-- Two texts joined are unbroken where both are. -/
theorem unbroken_of_pairText {a b : Except Fault Text} (ha : ∀ t, a = .ok t → t.Unbroken)
    (hb : ∀ t, b = .ok t → t.Unbroken) (h : pairText a b = .ok t) :
  t.Unbroken
  := by
  obtain ⟨s, hs, h⟩ := bind_eq_ok_iff.mp h
  obtain ⟨u, hu, h⟩ := bind_eq_ok_iff.mp h
  obtain rfl := Except.ok.inj h
  simp only [unbroken_append]
  exact ⟨⟨ha s hs, by decide⟩, hb u hu⟩

/-- A list is shown on one line where its members are. -/
theorem unbroken_of_listText {list : Value} {isMember : Value → Bool}
    {shown : Value → Except Fault Text} (hlist : list.isListOf isMember = true)
    (hshown : ∀ {v t}, isMember v = true → shown v = .ok t → t.Unbroken)
    (h : listText list shown = .ok t) :
  t.Unbroken
  := by
  obtain ⟨members, hmembers, hkind⟩ := Value.exists_members_of_isListOf hlist
  obtain ⟨members', hmembers', h⟩ := bind_eq_ok_iff.mp h
  obtain rfl := Except.ok.inj (hmembers.symm.trans hmembers')
  obtain ⟨ts, hts, h⟩ := bind_eq_ok_iff.mp h
  obtain rfl := Except.ok.inj h
  apply (unbroken_join (by decide)).mpr
  intro t ht
  obtain ⟨i, rfl⟩ := List.get_of_mem ht
  obtain ⟨hlength, hget⟩ := List.forall₂_iff_get.mp (mapM_eq_ok_iff.mp hts)
  exact hshown (hkind _ (List.get_mem _ ⟨i, by omega⟩)) (hget i (by omega) i.2)

/-- The words of flags are on one line where the names are. -/
theorem unbroken_flagWords {flags : List (Text × Value)} (h : ∀ f ∈ flags, Unbroken f.1) :
  (flagWords flags).Unbroken
  := by
  intro hmem
  obtain ⟨⟨word, flag⟩, hf, hword⟩ := List.mem_flatMap.mp hmem
  dsimp only at hword
  split at hword
  · exact unbroken_append.mpr ⟨by decide, h (word, flag) hf⟩ hword
  · cases hword

theorem unbroken_of_methodName {method : Value} (hmethod : method.isInteger = true)
    (h : methodName method = .ok t) :
  t.Unbroken
  := by
  obtain ⟨shown, hshown, h⟩ := bind_eq_ok_iff.mp h
  have hquoted : method.quoted = .ok shown := by
    cases method with
    | scalar s =>
      cases s with
      | bool | int => exact hshown
      | _ => cases hmethod
    | _ => cases hmethod
  have hunbroken := Value.unbroken_of_quoted (.inr (Value.isNumber_of_isInteger hmethod)) hquoted
  split_ifs at h
  all_goals obtain rfl := Except.ok.inj h
  · decide
  · decide
  · decide
  · decide
  · exact hunbroken

/-- What is not the parameters of a function is on one line. -/
theorem unbroken_functionText_iff {name : Value} {params : List Value}
    (hname : name.isString = true) (h : functionText name params = .ok t) :
  ∃ names : List Text, params = names.map Value.text ∧ (t.Unbroken ↔ ∀ name ∈ names, Unbroken name)
  := by
  obtain ⟨shown, hshown, h⟩ := bind_eq_ok_iff.mp h
  obtain ⟨quoted, hquoted, h⟩ := bind_eq_ok_iff.mp h
  obtain ⟨names, hnames, hjoin⟩ := bind_eq_ok_iff.mp hshown
  obtain rfl := Except.ok.inj h
  obtain rfl := Except.ok.inj hjoin
  refine ⟨names, ?_, ?_⟩
  · rw [← List.forall₂_eq_eq_eq, List.forall₂_map_right_iff]
    refine (mapM_eq_ok_iff.mp hnames).imp fun param name hparam => ?_
    split at hparam
    · exact congrArg Value.text (Except.ok.inj hparam)
    · cases hparam
  · have hfront := Value.unbroken_of_quoted (.inl hname) hquoted
    simp only [unbroken_append, hfront, unbroken_join (show Unbroken ", " by decide)]
    have hbrackets : Unbroken " (" ∧ Unbroken ")" := by decide
    simp only [hbrackets, true_and, and_true]

/-- A parameter with a register is on one line if its name is. -/
theorem unbroken_registerParam_iff {param : Value} (hparam : param.isParam = true)
    (h : registerParam param = .ok (.text t)) :
  t.Unbroken ↔ ∀ name ∈ paramName? param, Unbroken name
  := by
  cases param with
  | param register name =>
    rw [Value.isParam, Bool.and_eq_true] at hparam
    rw [registerParam] at h
    split at h
    · obtain ⟨n, hn, h⟩ := bind_eq_ok_iff.mp h
      obtain ⟨shown, hshown, h⟩ := bind_eq_ok_iff.mp h
      obtain rfl : _ = t := by injection Except.ok.inj h with h; injection h
      have hwords : Unbroken "r:" ∧ Unbroken "=" := by decide
      simp only [unbroken_append, hwords, Value.unbroken_of_decimal hn, true_and, and_true]
      obtain ⟨_ | _ | _ | _ | name | b⟩ | _ := name
      case text =>
        obtain rfl := Except.ok.inj hshown
        simp [paramName?]
      case bytes =>
        obtain rfl := Except.ok.inj hshown
        simp [paramName?, Quoted.unbroken_bytes]
      all_goals cases hparam.2
    · obtain rfl := Except.ok.inj h
      simp [paramName?]
  | _ => cases hparam

/-- The names of register parameters are unbroken exactly when the texts among them are. -/
theorem unbroken_registerParams_iff {params : List Value} {names : List Text}
    (hparams : ∀ param ∈ params, param.isParam = true)
    (h : List.Forall₂ (fun param name => registerParam param = .ok (.text name)) params names) :
  (∀ name ∈ names, Unbroken name) ↔ ∀ name ∈ params.filterMap paramName?, Unbroken name
  := by
  induction h with
  | nil => simp
  | @cons param _ params _ h _ ih =>
    obtain ⟨hparam, hrest⟩ := List.forall_mem_cons.mp hparams
    rw [List.forall_mem_cons, unbroken_registerParam_iff hparam h, ih hrest]
    cases hname : paramName? param with
    | none => simp [hname]
    | some name => simp [hname]

/-- A function is shown on one line exactly when the names of its parameters are unbroken. -/
theorem unbroken_function2Text_iff {name params count : Value} {flags : FunctionFlags}
    (hname : name.isString = true) (hparams : params.isListOf Value.isParam = true)
    (h : function2Text name params count flags = .ok t) :
  ∃ members, params.members = .ok members
    ∧ (t.Unbroken ↔ ∀ name ∈ members.filterMap paramName?, Unbroken name)
  := by
  obtain ⟨members, hmembers, hkind⟩ := Value.exists_members_of_isListOf hparams
  refine ⟨members, hmembers, ?_⟩
  obtain ⟨members', hmembers', h⟩ := bind_eq_ok_iff.mp h
  obtain rfl := Except.ok.inj (hmembers.symm.trans hmembers')
  obtain ⟨shown, hshown, h⟩ := bind_eq_ok_iff.mp h
  obtain ⟨function, hfunction, h⟩ := bind_eq_ok_iff.mp h
  obtain ⟨n, hn, h⟩ := bind_eq_ok_iff.mp h
  obtain rfl := Except.ok.inj h
  obtain ⟨names, rfl, hnames⟩ := unbroken_functionText_iff hname hfunction
  have hwords : Unbroken (Text.join " " (((FunctionFlags.names.zip flags.toList).filter
      (·.2.truth)).map (Text.ofString ·.1))) := by
    apply (unbroken_join (by decide)).mpr
    intro word hword
    obtain ⟨⟨name, flag⟩, hmem, rfl⟩ := List.mem_map.mp hword
    have hname := (List.of_mem_zip (List.mem_of_mem_filter hmem)).1
    have hall : ∀ name ∈ FunctionFlags.names, Unbroken name := by decide
    exact hall name hname
  have hregisters : Unbroken ", registers=" := by decide
  simp only [unbroken_append, hnames, hregisters, Value.unbroken_of_decimal hn,
    unbroken_afterSeparator (show Unbroken ", " by decide), hwords, and_true]
  rw [mapM_eq_ok_iff, List.forall₂_map_right_iff] at hshown
  exact unbroken_registerParams_iff hkind hshown

/-- Operands of their kinds are shown on one line, those of functions apart. -/
theorem unbroken_of_render {o : Operands} (h : o.kinded = true) (hnames : o.isFunction = false)
    (ht : o.render = .ok t) :
  t.Unbroken
  := by
  cases o <;> simp only [kinded, Bool.and_eq_true, Bool.or_eq_true] at h
  case plain | withObject =>
    obtain rfl := Except.ok.inj ht
    decide
  case payload =>
    obtain ⟨bytes, -, rfl⟩ := map_eq_ok_iff.mp ht
    exact bytes.unbroken_hex
  case gotoFrame | strictMode | waitForFrame2 => exact Value.unbroken_of_decimal ht
  case getUrl =>
    exact unbroken_of_pairText (fun _ => Value.unbroken_of_quoted (.inl h.1))
      (fun _ => Value.unbroken_of_quoted (.inl h.2)) ht
  case storeRegister => exact Value.unbroken_of_map_decimal (by decide) ht
  case constantPool =>
    exact unbroken_of_listText h (fun hmember => Value.unbroken_of_quoted (.inl hmember)) ht
  case waitForFrame =>
    exact unbroken_of_pairText (fun _ => Value.unbroken_of_decimal)
      (fun _ => Value.unbroken_of_decimal) ht
  case string => exact Value.unbroken_of_quoted (.inl h) ht
  case getUrl2 =>
    obtain ⟨verb, hverb, rfl⟩ := map_eq_ok_iff.mp ht
    refine unbroken_append.mpr ⟨unbroken_of_methodName h.1 hverb, unbroken_flagWords ?_⟩
    simp only [List.forall_mem_cons]
    decide
  case gotoFrame2 play sceneBias reserved =>
    have hverb : Unbroken (if play.truth then "play" else "stop") := by split <;> decide
    simp only [render, gotoFrame2Text] at ht
    split at ht
    · exact Except.ok.inj ht ▸ hverb
    · obtain ⟨n, hn, rfl⟩ := map_eq_ok_iff.mp ht
      exact unbroken_append.mpr
        ⟨unbroken_append.mpr ⟨hverb, by decide⟩, Value.unbroken_of_decimal hn⟩
  case push => exact unbroken_of_listText h Value.unbroken_of_pushText ht
  case branch target displacement =>
    simp only [render, branchText] at ht
    split at ht
    · obtain ⟨n, -, hn⟩ := bind_eq_ok_iff.mp ht
      obtain ⟨-, rfl⟩ := Scalar.signedNumeral_eq_ok_iff.mp hn
      exact Numeral.unbroken_signed n
    · obtain ⟨n, -, rfl⟩ := map_eq_ok_iff.mp ht
      exact unbroken_append.mpr ⟨by decide, Numeral.unbroken_int n⟩
  case tryCatch target hasCatch hasFinally reserved =>
    obtain ⟨place, hplace, rfl⟩ := map_eq_ok_iff.mp ht
    refine unbroken_append.mpr ⟨?_, unbroken_flagWords ?_⟩
    · rw [catchText] at hplace
      split at hplace
      · exact Value.unbroken_of_map_decimal (by decide) hplace
      · rename_i hwhole
        exact Value.unbroken_of_quoted (.inl (h.1.resolve_left hwhole)) hplace
    · simp only [List.forall_mem_cons]
      decide
  case defineFunction | defineFunction2 => cases hnames

/-- Operands of their kinds are shown on one line, but for newlines in the names of parameters. -/
theorem unbroken_render_iff {o : Operands} (h : o.kinded = true) (ht : o.render = .ok t) :
  t.Unbroken ↔ ∀ name ∈ o.paramNames, Unbroken name
  := by
  cases o with
  | defineFunction name params =>
    rw [kinded, Bool.and_eq_true] at h
    obtain ⟨members, hmembers, ht⟩ := bind_eq_ok_iff.mp ht
    obtain ⟨names, rfl, hnames⟩ := unbroken_functionText_iff h.1 ht
    have hparams : (names.map Value.text).filterMap paramName? = names := by
      rw [List.filterMap_map]
      exact List.filterMap_some
    rw [hnames, paramNames, hmembers]
    exact hparams.symm ▸ Iff.rfl
  | defineFunction2 name params count flags reserved =>
    simp only [kinded, Bool.and_eq_true] at h
    obtain ⟨members, hmembers, hnames⟩ := unbroken_function2Text_iff h.1.1.1 h.1.1.2 ht
    rw [hnames, paramNames, hmembers]
    rfl
  | _ => simp [paramNames, unbroken_of_render h rfl ht]

end Operands

end ActionBlock
