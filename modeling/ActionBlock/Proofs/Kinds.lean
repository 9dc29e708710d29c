import ActionBlock.Proofs.Assembly

/-!
# Kinds of operands

A field is meant for values of some kind: integers of any size, strings of any code points, numbers,
lists of such. An action whose fields all hold values of their kinds may still not fit its record,
but it is never at fault for the kind of a value. The flags of an action may hold anything, since
only their truth is asked for, and what is derived is not looked at.
-/

namespace ActionBlock

/-! ### Values -/

namespace Value

/-- Whether a value is an integer, or a truth value. -/
def isInteger (v : Value) : Bool := v.whole?.isSome

/-- Whether a value is an integer, or the one that stands for nothing. -/
def isIntegerOrNone (v : Value) : Bool := v.isNone || v.isInteger

/-- Whether a value is a string: a text of any code points, or a byte string. -/
def isString : Value → Bool
  | text _ | bytes _ => true
  | _ => false

/-- Whether a value is a byte string. -/
def isBytes : Value → Bool
  | bytes _ => true
  | _ => false

/-- Whether a value is an integer or a floating point number. -/
def isNumber : Value → Bool
  | double _ => true
  | v => v.isInteger

/-- Whether a value is a list whose members are all of a kind. -/
def isListOf (isMember : Value → Bool) (v : Value) : Bool :=
  match v.members with
  | .ok members => members.all isMember
  | .error _ => false

/-- Whether a value is a parameter of a function with registers. -/
def isParam : Value → Bool
  | param register name => register.isInteger && name.isString
  | _ => false

end Value

/-- Whether a value is of the kind that goes with a type. -/
def PushType.suits (t : PushType) (v : Value) : Bool :=
  match t with
  | string => v.isString
  | float | double => v.isNumber
  | null | undefined => true
  | register | boolean | constant8 | integer | constant16 => v.isInteger

/-- Whether a value is one with a type, of the kind that goes with the type. -/
def Value.isPushed : Value → Bool
  | pushed v t => t.suits v
  | _ => false

/-! ### Records -/

/-- Whether all operands are of the kinds that their fields are meant for. -/
def Operands.kinded : Operands → Bool
  | plain | withObject => true
  | payload data => data.isBytes
  | gotoFrame n | storeRegister n | strictMode n | waitForFrame2 n => n.isInteger
  | getUrl url target => url.isString && target.isString
  | constantPool pool => pool.isListOf Value.isString
  | waitForFrame frame skipCount => frame.isInteger && skipCount.isInteger
  | string s => s.isString
  | getUrl2 method _ _ reserved => method.isInteger && reserved.isInteger
  | gotoFrame2 _ sceneBias reserved => sceneBias.isIntegerOrNone && reserved.isInteger
  | push values => values.isListOf Value.isPushed
  | branch target _ => target.isIntegerOrNone
  | defineFunction name params => name.isString && params.isListOf Value.isString
  | defineFunction2 name params registerCount _ reserved =>
    name.isString && params.isListOf Value.isParam && registerCount.isInteger
      && reserved.isInteger
  | tryCatch catchTarget _ _ reserved =>
    (catchTarget.isInteger || catchTarget.isString) && reserved.isInteger

/-- Whether a record is that of an action, with a number for its code and with operands of their
kinds. -/
def Record.kinded (r : Record) : Bool :=
  (r.kind.misuse? "jumplike").isNone && r.code.isInteger && r.operands.kinded
    && r.trailing.isBytes

mutual

/-- Whether the operands of an action, and of the actions in its bodies, are of their kinds. -/
def Action.kinded : Action → Bool
  | .mk _ record bodies => record.kinded && bodiesKinded bodies

/-- Whether the operands of the actions in bodies are of their kinds. -/
def bodiesKinded : List (List Action) → Bool
  | [] => true
  | body :: bodies => blockKinded body && bodiesKinded bodies

/-- Whether the operands of the actions of a block, and of those in their bodies, are of their
kinds. -/
def blockKinded : List Action → Bool
  | [] => true
  | a :: actions => a.kinded && blockKinded actions

end

/-- Bodies have the right kinds if each of them does. -/
theorem bodiesKinded_eq_all (bodies : List (List Action)) :
  bodiesKinded bodies = bodies.all blockKinded
  := by
  induction bodies with
  | nil => rfl
  | cons body bodies ih => rw [bodiesKinded, ih, List.all_cons]

/-- A block has the right kinds if each of its actions does. -/
theorem blockKinded_eq_all (block : List Action) :
  blockKinded block = block.all Action.kinded
  := by
  induction block with
  | nil => rfl
  | cons a actions ih => rw [blockKinded, ih, List.all_cons]

/-- An action has the right kinds if its record does, and each of its bodies. -/
theorem Action.kinded_iff {a : Action} :
  a.kinded = true ↔ a.record.kinded = true ∧ ∀ body ∈ a.bodies, blockKinded body = true
  := by
  obtain ⟨identity, record, bodies⟩ := a
  rw [kinded, Bool.and_eq_true, bodiesKinded_eq_all, List.all_eq_true]
  rfl

/-! ### Outcomes without misuse -/

/-- Whether an outcome is no fault for the kind of a value. -/
def Proper {α : Type} (x : Except Fault α) : Prop :=
  ∀ fault, x = .error fault → fault.isMisuse = false

namespace Proper

variable {α β : Type} {x : Except Fault α}

theorem ok (a : α) :
  Proper (.ok a : Except Fault α)
  := by
  intro fault h
  cases h

/-- An error other than a misuse is proper. -/
theorem error {fault : Fault} (h : fault.isMisuse = false) :
  Proper (.error fault : Except Fault α)
  := by
  rintro _ ⟨⟩
  exact h

/-- What is done step by step is proper if each step is. -/
theorem bind {f : α → Except Fault β} (hx : Proper x) (hf : ∀ a, x = .ok a → Proper (f a)) :
  Proper (x >>= f)
  := by
  cases x with
  | error fault => exact error (hx fault rfl)
  | ok a => exact hf a rfl

theorem map (f : α → β) (hx : Proper x) :
  Proper (x.map f)
  := by
  intro fault h
  exact hx fault (map_eq_error_iff.mp h)

/-- What is done for each member of a list is proper if it is for each. -/
theorem mapM {f : α → Except Fault β} {as : List α} (h : ∀ a ∈ as, Proper (f a)) :
  Proper (as.mapM f)
  := by
  intro fault hfault
  obtain ⟨before, a, after, rfl, -, ha⟩ := mapM_eq_error_iff.mp hfault
  apply h a _ fault ha
  apply List.mem_append_right
  apply List.mem_cons_self

end Proper

/-! ### Fields -/

/-- An integer that does not fit is out of range, and that is not a misuse. -/
theorem Scalar.proper_fitInt (width : Nat) (signed : Bool) (n : Int) :
  Proper (fitInt width signed n)
  := by
  rw [fitInt]
  split
  split
  · apply Proper.ok
  · rw [misfit]
    split <;> exact Proper.error rfl

/-- A string with a NUL is refused, and that is not a misuse. -/
theorem Scalar.proper_terminated (b : Bytes) :
  Proper (terminated b)
  := by
  rw [terminated]
  split
  · apply Proper.error rfl
  · apply Proper.ok

namespace Value

variable {v : Value}

theorem isInteger_iff :
  v.isInteger = true ↔ ∃ n, v.whole? = some n
  := Option.isSome_iff_exists

theorem isNumber_of_isInteger (h : v.isInteger = true) :
  v.isNumber = true
  := by
  unfold isNumber
  split
  · rfl
  · exact h

/-- An integer is put into a field, or does not fit it. -/
theorem proper_fit (h : v.isInteger = true) (width : Nat) (signed : Bool) :
  Proper (v.fit width signed)
  := by
  obtain ⟨n, hn⟩ := isInteger_iff.mp h
  rw [fit_of_whole hn]
  apply Scalar.proper_fitInt

/-- A string is written, or refused for what is in it. -/
theorem proper_string (h : v.isString = true) :
  Proper v.string
  := by
  obtain ⟨_ | _ | _ | _ | t | b⟩ | _ := v
  case text =>
    rw [string, Scalar.string, Scalar.terminatedText]
    split
    · apply Scalar.proper_terminated
    · apply Proper.error rfl
  case bytes => apply Scalar.proper_terminated
  all_goals cases h

/-- A list of a kind has members, all of that kind. -/
theorem exists_members_of_isListOf {isMember : Value → Bool} (h : v.isListOf isMember = true) :
  ∃ members, v.members = .ok members ∧ ∀ member ∈ members, isMember member = true
  := by
  rw [isListOf] at h
  cases hmembers : v.members with
  | error fault =>
    rw [hmembers] at h
    cases h
  | ok members =>
    rw [hmembers] at h
    exact ⟨members, rfl, List.all_eq_true.mp h⟩

theorem proper_toInt (h : v.isInteger = true) :
  Proper v.toInt
  := by
  obtain ⟨_ | _ | _ | _ | _ | _⟩ | _ := v
  case bool => apply Proper.ok
  case int => apply Proper.ok
  all_goals cases h

/-- What is no number is refused as such, and that is not a misuse. -/
theorem proper_toDouble (v : Value) :
  Proper v.toDouble
  := by
  obtain ⟨_ | b | n | _ | _ | _⟩ | _ := v
  case bool =>
    rw [toDouble, Scalar.toDouble]
    cases Double.ofInt? b.toNat <;> first | apply Proper.error rfl | apply Proper.ok
  case int =>
    rw [toDouble, Scalar.toDouble]
    cases Double.ofInt? n <;> first | apply Proper.error rfl | apply Proper.ok
  case double => apply Proper.ok
  all_goals apply Proper.error rfl

theorem proper_toSingle (v : Value) :
  Proper v.toSingle
  := by
  cases v with
  | scalar s =>
    rw [toSingle, Scalar.toSingle]
    apply Proper.bind (proper_toDouble (scalar s))
    intro x _
    cases x.toSingle? with
    | some y => apply Proper.ok
    | none => cases hwhole : s.whole?.isSome <;> apply Proper.error rfl
  | _ => apply Proper.error rfl

/-- A value with a type can be written but for what it is. -/
theorem proper_pushBytes (h : v.isPushed = true) :
  Proper v.pushBytes
  := by
  cases v with
  | pushed value type =>
    apply Proper.map
    cases type
    case string => exact proper_string h
    case float => exact (proper_toSingle value).map _
    case null => apply Proper.ok
    case undefined => apply Proper.ok
    case double => exact (proper_toDouble value).map _
    case integer => exact (proper_fit h _ _).map _
    case constant16 => exact (proper_fit h _ _).map _
    -- A register, a truth value and a short constant are all a byte.
    all_goals
      apply Proper.bind (proper_toInt h)
      intro n _
      apply Proper.bind (Scalar.proper_fitInt _ _ n)
      intro bits _
      apply Proper.ok
  | _ => cases h

/-- A code is a byte, or is out of range. -/
theorem proper_codeByte (h : v.isInteger = true) :
  Proper v.codeByte
  := by
  obtain ⟨n, hn⟩ := isInteger_iff.mp h
  have hbyte : Proper (if 0 ≤ n ∧ n ≤ 255 then .ok (UInt8.ofNat n.toNat)
      else if -2 ^ 63 ≤ n ∧ n < 2 ^ 63 then .error .codeNotAByte
      else .error .codeOutOfRange : Except Fault UInt8) := by
    split
    · apply Proper.ok
    · split <;> apply Proper.error rfl
  obtain ⟨_ | _ | _ | _ | _ | _⟩ | _ := v
  case bool =>
    cases hn
    exact hbyte
  case int =>
    cases hn
    exact hbyte
  all_goals cases hn

end Value

namespace Operands

variable {v w : Value}

theorem proper_ui8 (h : v.isInteger = true) :
  Proper (ui8 v)
  := (Value.proper_fit h _ _).map _

theorem proper_ui16 (h : v.isInteger = true) :
  Proper (ui16 v)
  := (Value.proper_fit h _ _).map _

theorem proper_count (n : Nat) :
  Proper (count n)
  := (Scalar.proper_fitInt _ _ _).map _

theorem proper_both {a b : Except Fault Bytes} (ha : Proper a) (hb : Proper b) :
  Proper (both a b)
  := by
  apply ha.bind
  intro x _
  apply hb.bind
  intro y _
  apply Proper.ok

/-- The number of members of a list fits its field, or is out of range. -/
theorem proper_sizeOf {isMember : Value → Bool} (h : v.isListOf isMember = true) :
  Proper (sizeOf v)
  := by
  obtain ⟨members, hmembers, -⟩ := Value.exists_members_of_isListOf h
  rw [sizeOf, Value.size, hmembers]
  apply proper_count

/-- The members of a list are written properly if each of them is. -/
theorem proper_membersOf {isMember : Value → Bool} {write : Value → Except Fault Bytes}
    (h : v.isListOf isMember = true)
    (hwrite : ∀ member : Value, isMember member = true → Proper (write member)) :
  Proper (membersOf write v)
  := by
  obtain ⟨members, hmembers, hall⟩ := Value.exists_members_of_isListOf h
  rw [membersOf, hmembers]
  apply Proper.map
  apply Proper.mapM
  intro member hmember
  exact hwrite member (hall member hmember)

/-- A parameter with a register is written, or does not fit. -/
theorem proper_registerParamBytes (h : v.isParam = true) :
  Proper (registerParamBytes v)
  := by
  cases v with
  | param register name =>
    rw [Value.isParam, Bool.and_eq_true] at h
    exact proper_both (proper_ui8 h.1) (Value.proper_string h.2)
  | _ => cases h

/-- The flags may be of any kind, and only the two numbers have to fit. -/
theorem proper_getUrl2Bytes {method loadTarget loadVariables reserved : Value}
    (hmethod : method.isInteger = true) (hreserved : reserved.isInteger = true) :
  Proper (getUrl2Bytes method loadTarget loadVariables reserved)
  := by
  apply Proper.bind (Value.proper_fit hreserved _ _)
  intro _ _
  apply Proper.bind (Value.proper_fit hmethod _ _)
  intro _ _
  apply Proper.ok

/-- The scene bias may be left out, and has to fit if it is there. -/
theorem proper_gotoFrame2Bytes {play sceneBias reserved : Value}
    (hbias : sceneBias.isIntegerOrNone = true) (hreserved : reserved.isInteger = true) :
  Proper (gotoFrame2Bytes play sceneBias reserved)
  := by
  apply Proper.bind (Value.proper_fit hreserved _ _)
  intro _ _
  dsimp only
  split
  · apply Proper.ok
  · rename_i hnone
    rw [Value.isIntegerOrNone, Bool.or_eq_true] at hbias
    apply Proper.bind (proper_ui16 (hbias.resolve_left hnone))
    intro _ _
    apply Proper.ok

/-- A function is written properly if its names are strings. -/
theorem proper_functionBytes {name params : Value} (hname : name.isString = true)
    (hparams : params.isListOf Value.isString = true) :
  Proper (functionBytes name params)
  := by
  apply Proper.bind (Value.proper_string hname)
  intro _ _
  apply Proper.bind (proper_sizeOf hparams)
  intro _ _
  apply Proper.bind (proper_membersOf hparams fun _ => Value.proper_string)
  intro _ _
  apply Proper.ok

/-- A function with registers is written properly if its names are strings and its numbers
integers. -/
theorem proper_function2Bytes {name params registerCount reserved : Value} {flags : FunctionFlags}
    (hname : name.isString = true) (hparams : params.isListOf Value.isParam = true)
    (hcount : registerCount.isInteger = true) (hreserved : reserved.isInteger = true) :
  Proper (function2Bytes name params registerCount flags reserved)
  := by
  apply Proper.bind (Value.proper_string hname)
  intro _ _
  apply Proper.bind (proper_sizeOf hparams)
  intro _ _
  apply Proper.bind (proper_ui8 hcount)
  intro _ _
  apply Proper.bind (Value.proper_fit hreserved _ _)
  intro _ _
  apply Proper.bind (proper_membersOf hparams fun _ => proper_registerParamBytes)
  intro _ _
  apply Proper.ok

theorem proper_tryBytes {catchTarget hasCatch hasFinally reserved : Value}
    (hreserved : reserved.isInteger = true) :
  Proper (tryBytes catchTarget hasCatch hasFinally reserved)
  := by
  apply Proper.bind (Value.proper_fit hreserved _ _)
  intro _ _
  apply Proper.ok

theorem proper_toByteString (h : v.isBytes = true) :
  Proper v.toByteString
  := by
  obtain ⟨_ | _ | _ | _ | _ | _⟩ | _ := v
  case bytes => apply Proper.ok
  all_goals cases h

/-- Fields that hold values of their kinds can be written but for what the values are. The
displacement is an integer that is set for the purpose. -/
theorem proper_fields {o : Operands} (h : o.kinded = true) (d : Int) :
  Proper (o.withDisplacement d).fields
  := by
  cases o <;> simp only [kinded, Bool.and_eq_true] at h
  case plain => apply Proper.ok
  case withObject => apply Proper.ok
  case payload => exact proper_toByteString h
  case gotoFrame => exact proper_ui16 h
  case storeRegister => exact proper_ui8 h
  case strictMode => exact proper_ui8 h
  case waitForFrame2 => exact proper_ui8 h
  case getUrl => exact proper_both (Value.proper_string h.1) (Value.proper_string h.2)
  case constantPool =>
    exact proper_both (proper_sizeOf h) (proper_membersOf h fun _ => Value.proper_string)
  case waitForFrame => exact proper_both (proper_ui16 h.1) (proper_ui8 h.2)
  case string => exact Value.proper_string h
  case getUrl2 => exact proper_getUrl2Bytes h.1 h.2
  case gotoFrame2 => exact proper_gotoFrame2Bytes h.1 h.2
  case push => exact proper_membersOf h fun _ => Value.proper_pushBytes
  case branch => exact Proper.map _ (Value.proper_fit (v := .int d) rfl _ _)
  case defineFunction => exact proper_functionBytes h.1 h.2
  case defineFunction2 => exact proper_function2Bytes h.1.1.1 h.1.1.2 h.1.2 h.2
  case tryCatch => exact proper_tryBytes h.2

/-- A size of a body fits its field, or is out of range. -/
theorem proper_sizes (ns : List Nat) :
  Proper (sizes ns)
  := by
  apply Proper.map
  apply Proper.mapM
  intro n _
  apply proper_count

/-- The end of the operands, after the sizes, is written properly. -/
theorem proper_closing {o : Operands} (h : o.kinded = true) :
  Proper o.closing
  := by
  cases o with
  | tryCatch target hasCatch hasFinally reserved =>
    simp only [kinded, Bool.and_eq_true, Bool.or_eq_true] at h
    rw [closing]
    split
    · rename_i hwhole
      exact proper_ui8 hwhole
    · rename_i hwhole
      exact Value.proper_string (h.1.resolve_left hwhole)
  | _ => apply Proper.ok

/-- A displacement has no bearing on the kinds. -/
theorem kinded_withDisplacement (o : Operands) (d : Int) :
  (o.withDisplacement d).kinded = o.kinded
  := by
  cases o <;> rfl

end Operands

/-! ### Records and blocks -/

theorem Value.proper_trailingBytes {v : Value} (h : v.isBytes = true) :
  Proper v.trailingBytes
  := by
  obtain ⟨_ | _ | _ | _ | _ | _⟩ | _ := v
  case bytes => apply Proper.ok
  all_goals cases h

namespace Record

variable {r : Record}

/-- The operands of a record are written properly, with any displacement and any sizes. -/
theorem proper_operandBytes (hoperands : r.operands.kinded = true)
    (htrailing : r.trailing.isBytes = true) (d : Int) (sizes : List Nat) :
  Proper ((r.withDisplacement d).operandBytes sizes)
  := by
  apply Proper.bind (Operands.proper_fields hoperands d)
  intro _ _
  apply Proper.bind (Operands.proper_sizes sizes)
  intro _ _
  rw [← Operands.kinded_withDisplacement r.operands d] at hoperands
  apply Proper.bind (Operands.proper_closing hoperands)
  intro _ _
  apply Proper.bind (Value.proper_trailingBytes htrailing)
  intro _ _
  apply Proper.ok

/-- A record whose fields hold values of their kinds is never at fault for the kind of a value. -/
theorem proper_serialize (h : r.kinded = true) (d : Int) (bodies : List Bytes) :
  Proper ((r.withDisplacement d).serialize bodies)
  := by
  simp only [kinded, Bool.and_eq_true, Option.isNone_iff_eq_none] at h
  obtain ⟨⟨⟨hkind, hcode⟩, hoperands⟩, htrailing⟩ := h
  obtain ⟨n, hn⟩ := Value.isInteger_iff.mp hcode
  have hlong : (r.withDisplacement d).isLong = .ok (decide (firstLongCode ≤ n)) :=
    isLong_of_whole hn
  rw [serialize, show (r.withDisplacement d).kind.misuse? "jumplike" = none from hkind]
  apply Proper.bind (hlong ▸ Proper.ok _)
  intro long _
  split
  · apply Proper.map
    apply Proper.bind (proper_operandBytes hoperands htrailing d _)
    intro operands _
    split
    · apply Proper.error rfl
    · apply Proper.bind (Value.proper_codeByte hcode)
      intro _ _
      apply Proper.ok
  · apply Proper.bind (Value.proper_codeByte hcode)
    intro _ _
    apply Proper.ok

/-- A record with the right kinds has an integer for its code. -/
theorem exists_code_of_kinded (h : r.kinded = true) :
  r.code.whole? = some r.codeNumber
  := by
  simp only [kinded, Bool.and_eq_true] at h
  obtain ⟨n, hn⟩ := Value.isInteger_iff.mp h.1.1.2
  rw [codeNumber, hn, Option.getD_some]

end Record

end ActionBlock
