import ActionBlock.Action.Wire
import ActionBlock.Opcode.Standard

/-!
# Well-formed actions

What reading can give back. Fields may hold values of any kind, and writing takes more of them than
reading gives: a flag may be a number, a text may be one that its bytes do not spell. An action is
well formed if it holds what reading it could have given, up to the targets of branches, which are
not written.

There are three further reasons why an action may not come back. A NaN is equal to nothing; bytes
after the values of a push must not look like a further value; and a record of code zero ends the
outermost block.

Some actions of the standard table are given as records, for blocks to be put together from them.
-/

namespace ActionBlock

/-- A text that its bytes spell. Not every text is one: surrogates that each stand for a byte may
together be the encoding of another code point. -/
def Text.Faithful (t : Text) : Prop := (Utf8.encode t).map Utf8.decode = .ok t

/-- The values of a type that reading it can give, NaNs apart. -/
inductive PushType.Holds : PushType → Scalar → Prop where
  | string {t : Text} (ht : t.Faithful) : Holds .string (.text t)
  | float {x : Single} (hx : Double.meaning (.ofSingle x) ≠ .nan) :
      Holds .float (.double (.ofSingle x))
  | null : Holds .null .none
  | undefined : Holds .undefined .none
  | register {n : Int} : Holds .register (.int n)
  | truth {b : Bool} : Holds .boolean (.bool b)
  | boolean {n : Int} : Holds .boolean (.int n)
  | double {x : Double} (hx : Double.meaning x ≠ .nan) : Holds .double (.double x)
  | integer {n : Int} : Holds .integer (.int n)
  | constant8 {n : Int} : Holds .constant8 (.int n)
  | constant16 {n : Int} : Holds .constant16 (.int n)

/-- A value with a type, as a member of a push. -/
inductive Value.IsPushed : Value → Prop where
  | mk {s : Scalar} {t : PushType} (h : t.Holds s) : IsPushed (.pushed (.scalar s) t)

/-- A parameter of a function with registers. -/
inductive Value.IsRegisterParam : Value → Prop where
  | mk {register : Int} {name : Text} (hname : name.Faithful) :
      IsRegisterParam (.param (.int register) (.text name))

/-- The place of a caught value: a register or a name. -/
inductive Value.IsCatchTarget : Value → Prop where
  | register {n : Int} : IsCatchTarget (.int n)
  | name {t : Text} (ht : t.Faithful) : IsCatchTarget (.text t)

/-- Flags that are truth values. -/
def FunctionFlags.AreBooleans (f : FunctionFlags) : Prop := ∀ v ∈ f.toList, ∃ b, v = .bool b

/-- Operands of the kinds that reading a layout gives. The target of a branch may be anything, and
so may its displacement, which is found anew when it is written. -/
inductive Operands.WellFormed : Layout → Operands → Prop where
  | plain : WellFormed .plain .plain
  | gotoFrame {frame : Int} : WellFormed .gotoFrame (.gotoFrame (.int frame))
  | getUrl {url target : Text} (hurl : url.Faithful) (htarget : target.Faithful) :
      WellFormed .getUrl (.getUrl (.text url) (.text target))
  | storeRegister {n : Int} : WellFormed .storeRegister (.storeRegister (.int n))
  | constantPool {pool : List Text} (hpool : ∀ t ∈ pool, t.Faithful) :
      WellFormed .constantPool (.constantPool (.list (pool.map .text)))
  | strictMode {mode : Int} : WellFormed .strictMode (.strictMode (.int mode))
  | waitForFrame {frame skipCount : Int} :
      WellFormed .waitForFrame (.waitForFrame (.int frame) (.int skipCount))
  | waitForFrame2 {skipCount : Int} : WellFormed .waitForFrame2 (.waitForFrame2 (.int skipCount))
  | string {t : Text} (ht : t.Faithful) : WellFormed .string (.string (.text t))
  | getUrl2 {method reserved : Int} {loadTarget loadVariables : Bool} :
      WellFormed .getUrl2
        (.getUrl2 (.int method) (.bool loadTarget) (.bool loadVariables) (.int reserved))
  | gotoFrame2 {play : Bool} {reserved : Int} :
      WellFormed .gotoFrame2 (.gotoFrame2 (.bool play) .none (.int reserved))
  | gotoFrame2Bias {play : Bool} {bias reserved : Int} :
      WellFormed .gotoFrame2 (.gotoFrame2 (.bool play) (.int bias) (.int reserved))
  | push {values : List Value} (hvalues : ∀ v ∈ values, v.IsPushed) :
      WellFormed .push (.push (.list values))
  | branch {target displacement : Value} : WellFormed .branch (.branch target displacement)
  | defineFunction {name : Text} {params : List Text} (hname : name.Faithful)
      (hparams : ∀ t ∈ params, t.Faithful) :
      WellFormed .defineFunction (.defineFunction (.text name) (.list (params.map .text)))
  | defineFunction2 {name : Text} {params : List Value} {registerCount reserved : Int}
      {flags : FunctionFlags} (hname : name.Faithful) (hparams : ∀ v ∈ params, v.IsRegisterParam)
      (hflags : flags.AreBooleans) :
      WellFormed .defineFunction2
        (.defineFunction2 (.text name) (.list params) (.int registerCount) flags (.int reserved))
  | withObject : WellFormed .withObject .withObject
  | tryCatch {target : Value} {hasCatch hasFinally : Bool} {reserved : Int}
      (htarget : target.IsCatchTarget) :
      WellFormed .tryCatch (.tryCatch target (.bool hasCatch) (.bool hasFinally) (.int reserved))

/-- Bytes at the end of operands that no field takes for its own: after the values of a push, a
byte that is the number of a type would begin another value. -/
def Layout.Leaves (l : Layout) (trailing : Bytes) : Prop :=
  l = .push → ∀ b ∈ trailing.head?, 9 < b.toNat

/-- The record of an action of a table, or of a code that the table does not list. Without a
length there is no room for anything after the code. -/
inductive Record.WellFormed (table : OpcodeTable) (outermost : Bool) (r : Record) : Prop where
  | listed {entry : OpcodeEntry} {trailing : Bytes} (hkind : r.kind = .listed table.id entry)
      (hentry : table.find? entry.code = some entry) (hcode : r.code = .int entry.code)
      (hoperands : r.operands.WellFormed entry.layout) (htrailing : r.trailing = .bytes trailing)
      (hshort : entry.code < firstLongCode → trailing = [])
      (hleaves : entry.layout.Leaves trailing) (hforms : ∀ number, r.form number = .block)
  | unlisted {kindCode code : Int} {payload : Bytes} (hkind : r.kind = .unlisted kindCode)
      (hmissing : table.find? code = none) (hcode : r.code = .int code)
      (hpayload : r.operands = .payload (.bytes payload))
      (hshort : code < firstLongCode → payload = []) (htrailing : r.trailing = .bytes [])
      (hzero : outermost → code ≠ 0)

mutual

/-- A block whose actions are well formed, and so are those in their bodies. -/
inductive BlockWellFormed (table : OpcodeTable) : Bool → List Action → Prop where
  | nil {outermost : Bool} : BlockWellFormed table outermost []
  | cons {outermost : Bool} {identity : Option Nat} {record : Record}
      {bodies : List (List Action)} {actions : List Action}
      (hrecord : record.WellFormed table outermost)
      (hcount : bodies.length = record.operands.bodyNames.length)
      (hbodies : BodiesWellFormed table bodies)
      (hrest : BlockWellFormed table outermost actions) :
      BlockWellFormed table outermost (.mk identity record bodies :: actions)

/-- Bodies that are well formed. -/
inductive BodiesWellFormed (table : OpcodeTable) : List (List Action) → Prop where
  | nil : BodiesWellFormed table []
  | cons {body : List Action} {bodies : List (List Action)}
      (hbody : BlockWellFormed table false body) (hrest : BodiesWellFormed table bodies) :
      BodiesWellFormed table (body :: bodies)

end

/-! ### Actions of the standard table -/

namespace Record

/-- The action of an entry of the standard table, with the given operands. -/
def standard (entry : OpcodeEntry) (operands : Operands) : Record where
  kind := .listed .shared entry
  operands := operands

/-- An action of the standard table is well formed if its operands are. -/
theorem wellFormed_standard {entry : OpcodeEntry} {operands : Operands} {outermost : Bool}
    (hentry : OpcodeTable.shared.find? entry.code = some entry)
    (hoperands : operands.WellFormed entry.layout) :
  (standard entry operands).WellFormed OpcodeTable.shared outermost
  := .listed rfl hentry rfl hoperands rfl (fun _ => rfl) (by simp [Layout.Leaves]) (fun _ => rfl)

/-- An action without operands. -/
def play : Record := standard (.make 0x06 "play" 0 0 .plain) .plain

/-- Another action without operands. -/
def stop : Record := standard (.make 0x07 "stop" 0 0 .plain) .plain

/-- An action without operands that takes a value off the stack. -/
def pop : Record := standard (.make 0x17 "pop" 1 0 .plain) .plain

/-- A branch to the action with an index. -/
def jump (target : Int) (displacement : Value := .none) : Record :=
  standard (.make 0x99 "jump" 0 0 .branch) (.branch (.int target) displacement)

/-- A branch to the action with an index, if the value on top of the stack is true. -/
def jumpIf (target : Int) : Record :=
  standard (.make 0x9D "if" 1 0 .branch) (.branch (.int target) .none)

/-- A push of values. -/
def push (values : List Value) : Record :=
  standard (.make 0x96 "push" 0 0 .push) (.push (.list values))

/-- An action with one body. -/
def withObject : Record := standard (.make 0x94 "with" 1 0 .withObject) .withObject

end Record

end ActionBlock
