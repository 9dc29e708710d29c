import ActionBlock.Action.Render
import ActionBlock.Proofs.Assembly
import ActionBlock.Proofs.Grammar
import ActionBlock.Proofs.Kinds
import ActionBlock.Proofs.Landing

/-!
# What reading gives

A decoder builds its blocks from bit streams of any kind, and whatever the bits are, the actions at
all levels of a block are of the same making. The kind of a record gives its code and its name. Its
operands are those of a layout: they are of the kinds that their fields are meant for and can be
shown, and a body goes with each name of a body. A branch has landed on an action of its block, so
that its target is an index.

This holds of each action when its record is framed, but for the target of a branch, and once the
branches of a block are resolved it holds of the block.
-/

namespace ActionBlock

/-! ### Actions at all levels -/

mutual

/-- The actions of a block at all levels, each before those in its bodies. -/
def allActions : List Action → List Action
  | [] => []
  | .mk identity record bodies :: actions =>
    .mk identity record bodies :: (bodiesActions bodies ++ allActions actions)

/-- The actions of bodies at all levels. -/
def bodiesActions : List (List Action) → List Action
  | [] => []
  | body :: bodies => allActions body ++ bodiesActions bodies

end

theorem allActions_nil :
  allActions [] = []
  := by
  rw [allActions]

/-- An action comes first, then what is in its bodies, then what comes after it. -/
theorem allActions_cons (a : Action) (actions : List Action) :
  allActions (a :: actions) = a :: (bodiesActions a.bodies ++ allActions actions)
  := by
  obtain ⟨identity, record, bodies⟩ := a
  rw [allActions]
  rfl

theorem bodiesActions_nil :
  bodiesActions [] = []
  := by
  rw [bodiesActions]

theorem bodiesActions_cons (body : List Action) (bodies : List (List Action)) :
  bodiesActions (body :: bodies) = allActions body ++ bodiesActions bodies
  := by
  rw [bodiesActions]

/-- What is in bodies is in one of them. -/
theorem mem_bodiesActions_iff {a : Action} {bodies : List (List Action)} :
  a ∈ bodiesActions bodies ↔ ∃ body ∈ bodies, a ∈ allActions body
  := by
  induction bodies with
  | nil => simp [bodiesActions_nil]
  | cons body bodies ih => simp [bodiesActions_cons, ih]

/-- What holds of the actions at all levels holds of those of the block, and of those at all levels
of their bodies. -/
theorem forall_mem_allActions_iff {P : Action → Prop} {block : List Action} :
  (∀ a ∈ allActions block, P a)
    ↔ ∀ a ∈ block, P a ∧ ∀ body ∈ a.bodies, ∀ b ∈ allActions body, P b
  := by
  induction block with
  | nil => simp [allActions_nil]
  | cons a actions ih =>
    simp only [allActions_cons, List.forall_mem_cons, List.forall_mem_append, ih,
      mem_bodiesActions_iff]
    constructor
    · rintro ⟨ha, hbodies, hrest⟩
      exact ⟨⟨ha, fun body hbody b hb => hbodies b ⟨body, hbody, hb⟩⟩, hrest⟩
    · rintro ⟨⟨ha, hbodies⟩, hrest⟩
      exact ⟨ha, fun b ⟨body, hbody, hb⟩ => hbodies body hbody b hb, hrest⟩

/-! ### Operands -/

namespace Reader

variable {bytes rest : Bytes}

/-- A byte has few digits, and so have the other numbers that are read. -/
theorem isShown_of_ui8 {n : Nat} (h : ui8 bytes = some (n, rest)) :
  Numeral.isShown n = true
  := by
  obtain ⟨b, -, rfl⟩ := ui8_eq_some_iff.mp h
  have hlt := b.toNat_lt
  apply Numeral.isShown_of_lt
  omega

theorem isShown_of_ui16 {n : Nat} (h : ui16 bytes = some (n, rest)) :
  Numeral.isShown n = true
  := by
  have hlt := (ui16_eq_some_iff.mp h).1
  apply Numeral.isShown_of_lt
  omega

/-- A number that fits 32 bits has few digits. -/
theorem isShown_of_fitInt {n : Int} {width bits : Nat} (hwidth : width ≤ 32)
    (h : Scalar.fitInt width true n = .ok bits) :
  Numeral.isShown n = true
  := by
  obtain ⟨hlow, hhigh, -⟩ := Scalar.fitInt_eq_ok_iff.mp h
  have hpow : (2 : Int) ^ (width - 1) ≤ 2 ^ 32 := by
    gcongr
    · decide
    · omega
  simp only [Scalar.fieldRange, if_true] at hlow hhigh
  apply Numeral.isShown_of_lt
  omega

theorem isShown_of_si16 {n : Int} (h : si16 bytes = some (n, rest)) :
  Numeral.isShown n = true
  := by
  obtain ⟨bits, hbits, -⟩ := si16_eq_some_iff.mp h
  exact isShown_of_fitInt (by decide) hbits

theorem isShown_of_si32 {n : Int} (h : si32 bytes = some (n, rest)) :
  Numeral.isShown n = true
  := by
  obtain ⟨bits, hbits, -⟩ := si32_eq_some_iff.mp h
  exact isShown_of_fitInt (by decide) hbits

end Reader

/-- A value of a push as it is read: it is of the kind that goes with its type and can be shown, and
a constant is an index. -/
structure PushValue.AsRead (v : PushValue) : Prop where
  suits : v.type.suits v.value = true
  exists_render : ∃ t, v.render = .ok t
  exists_index : v.type.isConstant = true → ∃ n : Nat, v.value = .int n

/-- A value is read with the kind of its type. -/
theorem PushType.asRead_of_read {t : PushType} {bytes rest : Bytes} {s : Scalar}
    (h : t.read bytes = some (s, rest)) :
  PushValue.AsRead ⟨.scalar s, t⟩
  := by
  cases t with
  | null | undefined => exact ⟨rfl, ⟨_, rfl⟩, nofun⟩
  | string | float | double =>
    obtain ⟨x, -, rfl⟩ := Reader.map_eq_some_iff.mp h
    exact ⟨rfl, ⟨_, rfl⟩, nofun⟩
  | integer =>
    obtain ⟨n, hn, rfl⟩ := Reader.map_eq_some_iff.mp h
    exact ⟨rfl, ⟨_, Scalar.numeral_of_isShown (Reader.isShown_of_si32 hn)⟩, nofun⟩
  | register | constant8 =>
    obtain ⟨n, hn, rfl⟩ := Reader.map_eq_some_iff.mp h
    have hshown := Scalar.numeral_of_isShown (Reader.isShown_of_ui8 hn)
    exact ⟨rfl, ⟨_, map_eq_ok_iff.mpr ⟨_, hshown, rfl⟩⟩, fun _ => ⟨n, rfl⟩⟩
  | constant16 =>
    obtain ⟨n, hn, rfl⟩ := Reader.map_eq_some_iff.mp h
    have hshown := Scalar.numeral_of_isShown (Reader.isShown_of_ui16 hn)
    exact ⟨rfl, ⟨_, map_eq_ok_iff.mpr ⟨_, hshown, rfl⟩⟩, fun _ => ⟨n, rfl⟩⟩
  | boolean =>
    obtain ⟨n, hn, rfl⟩ := Reader.map_eq_some_iff.mp h
    have hshown := Scalar.numeral_of_isShown (Reader.isShown_of_ui8 hn)
    split
    · exact ⟨rfl, ⟨_, rfl⟩, nofun⟩
    · exact ⟨rfl, ⟨_, map_eq_ok_iff.mpr ⟨_, hshown, rfl⟩⟩, nofun⟩

/-- The values of a push are as they are read, if those read by then are. -/
theorem PushValue.asRead_of_readFrom {more : Nat} {done vs : List PushValue} {bytes rest : Bytes}
    (h : readFrom more done bytes = some (vs, rest)) (hdone : ∀ v ∈ done, v.AsRead) :
  ∀ v ∈ vs, v.AsRead
  := by
  induction more generalizing done bytes with
  | zero =>
    obtain ⟨rfl, rfl⟩ := Reader.pure_eq_some_iff.mp h
    simpa using hdone
  | succ more ih =>
    cases bytes with
    | nil =>
      obtain ⟨rfl, rfl⟩ := Prod.mk.inj (Option.some.inj h)
      simpa using hdone
    | cons b bytes =>
      simp only [readFrom] at h
      cases ht : PushType.ofNumber? b.toNat with
      | none =>
        rw [ht] at h
        obtain ⟨rfl, rfl⟩ := Prod.mk.inj (Option.some.inj h)
        simpa using hdone
      | some t =>
        rw [ht] at h
        obtain ⟨⟨s, mid⟩, hs, hmore⟩ := Option.bind_eq_some_iff.mp h
        exact ih hmore (List.forall_mem_cons.mpr ⟨PushType.asRead_of_read hs, hdone⟩)

/-- Operands as a layout reads them, but for the target of a branch. -/
structure Operands.AsRead (l : Layout) (o : Operands) : Prop where
  kinded : o.kinded = true
  bodyNames : o.bodyNames = l.bodyNames
  isBranch : o.isBranch = decide (l = .branch)
  displacement : o.displacement?.isSome = o.isBranch
  exists_render : ∃ t, o.render = .ok t
  pool : ∀ pool, o = .constantPool pool → ∃ ts : List Text, pool = .list (ts.map .text)
  values : ∀ values, o = .push values →
    ∃ vs : List PushValue, values = .list (vs.map PushValue.toValue) ∧ ∀ v ∈ vs, v.AsRead

namespace Operands

/-- The members of a list can be shown if each of them can. -/
theorem exists_listText {members : List Value} {shown : Value → Except Fault Text}
    (h : ∀ v ∈ members, ∃ t, shown v = .ok t) :
  ∃ t, listText (.list members) shown = .ok t
  := by
  obtain ⟨ts, hts⟩ := exists_mapM_eq_ok_iff.mpr h
  exact ⟨_, bind_eq_ok_iff.mpr ⟨members, rfl, bind_eq_ok_iff.mpr ⟨ts, hts, rfl⟩⟩⟩

theorem exists_pairText {a b : Except Fault Text} {s t : Text} (ha : a = .ok s) (hb : b = .ok t) :
  ∃ shown, pairText a b = .ok shown
  := by
  rw [pairText, ha, hb]
  exact ⟨_, rfl⟩

/-- Texts are joined as they are. -/
theorem joined_map_text (ts : List Text) :
  joined (ts.map .text) = .ok (Text.join ", " ts)
  := by
  refine bind_eq_ok_iff.mpr ⟨ts, mapM_eq_ok_iff.mpr ?_, rfl⟩
  rw [List.forall₂_map_left_iff, List.forall₂_same]
  exact fun _ _ => rfl

/-- A function with texts for its names is shown. -/
theorem exists_functionText (name : Text) (params : List Text) :
  ∃ t, functionText (.text name) (params.map .text) = .ok t
  := ⟨_, bind_eq_ok_iff.mpr ⟨_, joined_map_text params, rfl⟩⟩

/-- The parameters of a function with registers are shown as texts. -/
theorem exists_mapM_registerParam {params : List Value}
    (h : ∀ v ∈ params, ∃ register name, Numeral.isShown register = true
      ∧ v = .param (.int register) (.text name)) :
  ∃ ts : List Text, params.mapM registerParam = .ok (ts.map .text)
  := by
  induction params with
  | nil => exact ⟨[], rfl⟩
  | cons v params ih =>
    obtain ⟨⟨register, name, hshown, rfl⟩, hrest⟩ := List.forall_mem_cons.mp h
    obtain ⟨ts, hts⟩ := ih hrest
    obtain ⟨t, ht⟩ : ∃ t, registerParam (.param (.int register) (.text name)) = .ok (.text t) := by
      rw [registerParam]
      split
      · exact ⟨_, bind_eq_ok_iff.mpr ⟨_, Scalar.numeral_of_isShown hshown, rfl⟩⟩
      · exact ⟨_, rfl⟩
    refine ⟨t :: ts, ?_⟩
    rw [List.mapM_cons, ht, hts]
    rfl

/-- A function with registers is shown if its numbers are. -/
theorem exists_function2Text (name : Text) {params : List Value} {count : Int}
    (hcount : Numeral.isShown count = true) (flags : FunctionFlags)
    (h : ∀ v ∈ params, ∃ register name, Numeral.isShown register = true
      ∧ v = .param (.int register) (.text name)) :
  ∃ t, function2Text (.text name) (.list params) (.int count) flags = .ok t
  := by
  obtain ⟨ts, hts⟩ := exists_mapM_registerParam h
  obtain ⟨t, ht⟩ := exists_functionText name ts
  exact ⟨_, bind_eq_ok_iff.mpr ⟨params, rfl, bind_eq_ok_iff.mpr ⟨_, hts,
    bind_eq_ok_iff.mpr ⟨t, ht, bind_eq_ok_iff.mpr ⟨_, Scalar.numeral_of_isShown hcount, rfl⟩⟩⟩⟩⟩

theorem exists_methodName {n : Int} (h : Numeral.isShown n = true) :
  ∃ t, methodName (.int n) = .ok t
  := by
  have hkey : (Value.int n).isKey = true := rfl
  have hplain : (Value.int n).plain = .ok (Numeral.int n) := Scalar.numeral_of_isShown h
  simp only [methodName, hplain, hkey, bind, Except.bind, Bool.not_true, Bool.false_eq_true,
    if_false]
  split_ifs <;> exact ⟨_, rfl⟩

end Operands

theorem Value.isListOf_list {isMember : Value → Bool} {members : List Value}
    (h : ∀ v ∈ members, isMember v = true) :
  (list members).isListOf isMember = true
  := List.all_eq_true.mpr h

theorem Value.isListOf_texts (ts : List Text) :
  (list (ts.map text)).isListOf isString = true
  := isListOf_list (List.forall_mem_map.mpr fun _ _ => rfl)

/-- Operands are read with the kinds of their layout. -/
theorem Layout.asRead_of_read {l : Layout} {operands trailing : Bytes} {o : Operands}
    {ns : List Nat}
    (h : l.read operands = some ((o, ns), trailing)) :
  o.AsRead l
  := by
  cases l with
  | plain =>
    simp only [read, Reader.pure_eq_some_iff, Prod.mk.injEq] at h
    obtain ⟨⟨rfl, rfl⟩, rfl⟩ := h
    exact ⟨rfl, rfl, rfl, rfl, ⟨_, rfl⟩, by simp, by simp⟩
  | string | withObject =>
    simp only [read, Reader.bind_eq_some_iff, Reader.pure_eq_some_iff, Prod.mk.injEq] at h
    obtain ⟨_, _, -, ⟨rfl, rfl⟩, rfl⟩ := h
    exact ⟨rfl, rfl, rfl, rfl, ⟨_, rfl⟩, by simp, by simp⟩
  | gotoFrame =>
    simp only [read, Reader.bind_eq_some_iff, Reader.pure_eq_some_iff, Prod.mk.injEq] at h
    obtain ⟨n, _, hn, ⟨rfl, rfl⟩, rfl⟩ := h
    have hshown := Scalar.numeral_of_isShown (Reader.isShown_of_ui16 hn)
    exact ⟨rfl, rfl, rfl, rfl, ⟨_, hshown⟩, by simp, by simp⟩
  | strictMode | waitForFrame2 =>
    simp only [read, Reader.bind_eq_some_iff, Reader.pure_eq_some_iff, Prod.mk.injEq] at h
    obtain ⟨n, _, hn, ⟨rfl, rfl⟩, rfl⟩ := h
    have hshown := Scalar.numeral_of_isShown (Reader.isShown_of_ui8 hn)
    exact ⟨rfl, rfl, rfl, rfl, ⟨_, hshown⟩, by simp, by simp⟩
  | storeRegister =>
    simp only [read, Reader.bind_eq_some_iff, Reader.pure_eq_some_iff, Prod.mk.injEq] at h
    obtain ⟨n, _, hn, ⟨rfl, rfl⟩, rfl⟩ := h
    have hshown := Scalar.numeral_of_isShown (Reader.isShown_of_ui8 hn)
    exact ⟨rfl, rfl, rfl, rfl, ⟨_, map_eq_ok_iff.mpr ⟨_, hshown, rfl⟩⟩, by simp, by simp⟩
  | branch =>
    simp only [read, Reader.bind_eq_some_iff, Reader.pure_eq_some_iff, Prod.mk.injEq] at h
    obtain ⟨n, _, hn, ⟨rfl, rfl⟩, rfl⟩ := h
    have hshown := Scalar.signedNumeral_of_isShown (Reader.isShown_of_si16 hn)
    exact ⟨rfl, rfl, rfl, rfl, ⟨_, hshown⟩, by simp, by simp⟩
  | getUrl =>
    simp only [read, Reader.bind_eq_some_iff, Reader.pure_eq_some_iff, Prod.mk.injEq] at h
    obtain ⟨_, _, -, _, _, -, ⟨rfl, rfl⟩, rfl⟩ := h
    exact ⟨rfl, rfl, rfl, rfl, ⟨_, rfl⟩, by simp, by simp⟩
  | waitForFrame =>
    simp only [read, Reader.bind_eq_some_iff, Reader.pure_eq_some_iff, Prod.mk.injEq] at h
    obtain ⟨frame, _, hframe, count, _, hcount, ⟨rfl, rfl⟩, rfl⟩ := h
    have hframe := Scalar.numeral_of_isShown (Reader.isShown_of_ui16 hframe)
    have hcount := Scalar.numeral_of_isShown (Reader.isShown_of_ui8 hcount)
    exact ⟨rfl, rfl, rfl, rfl, Operands.exists_pairText hframe hcount, by simp, by simp⟩
  | constantPool =>
    simp only [read, Reader.bind_eq_some_iff, Reader.pure_eq_some_iff, Prod.mk.injEq] at h
    obtain ⟨_, _, -, ts, _, -, ⟨rfl, rfl⟩, rfl⟩ := h
    refine ⟨Value.isListOf_texts ts, rfl, rfl, rfl, Operands.exists_listText ?_, ?_, by simp⟩
    · intro v hv
      obtain ⟨t, -, rfl⟩ := List.mem_map.mp hv
      exact ⟨_, rfl⟩
    · rintro _ ⟨⟩
      exact ⟨ts, rfl⟩
  | getUrl2 =>
    simp only [read, Reader.bind_eq_some_iff, Reader.pure_eq_some_iff, Prod.mk.injEq] at h
    obtain ⟨b, _, -, ⟨rfl, rfl⟩, rfl⟩ := h
    have hlt := b.toNat_lt
    obtain ⟨t, ht⟩ := Operands.exists_methodName (n := b.toNat % 4)
      (Numeral.isShown_of_lt (by omega))
    exact ⟨rfl, rfl, rfl, rfl, ⟨_, map_eq_ok_iff.mpr ⟨t, ht, rfl⟩⟩, by simp, by simp⟩
  | gotoFrame2 =>
    simp only [read, Reader.bind_eq_some_iff] at h
    obtain ⟨b, _, -, h⟩ := h
    split at h
    · simp only [Reader.bind_eq_some_iff, Reader.map_eq_some_iff, Reader.pure_eq_some_iff,
        Prod.mk.injEq] at h
      obtain ⟨_, _, ⟨n, hn, rfl⟩, ⟨rfl, rfl⟩, rfl⟩ := h
      have hshown := Scalar.numeral_of_isShown (Reader.isShown_of_ui16 hn)
      exact ⟨rfl, rfl, rfl, rfl, ⟨_, map_eq_ok_iff.mpr ⟨_, hshown, rfl⟩⟩, by simp, by simp⟩
    · simp only [Reader.bind_eq_some_iff, Reader.pure_eq_some_iff, Prod.mk.injEq] at h
      obtain ⟨_, _, ⟨rfl, rfl⟩, ⟨rfl, rfl⟩, rfl⟩ := h
      exact ⟨rfl, rfl, rfl, rfl, ⟨_, rfl⟩, by simp, by simp⟩
  | push =>
    simp only [read, Reader.bind_eq_some_iff, Reader.pure_eq_some_iff, Prod.mk.injEq] at h
    obtain ⟨vs, _, hvs, ⟨rfl, rfl⟩, rfl⟩ := h
    have hread := PushValue.asRead_of_readFrom hvs (List.forall_mem_nil _)
    have hsuits : (Value.list (vs.map PushValue.toValue)).isListOf Value.isPushed = true :=
      Value.isListOf_list (List.forall_mem_map.mpr fun p hp => (hread p hp).suits)
    refine ⟨hsuits, rfl, rfl, rfl, Operands.exists_listText ?_, by simp, ?_⟩
    · intro v hv
      obtain ⟨p, hp, rfl⟩ := List.mem_map.mp hv
      exact (hread p hp).exists_render
    · rintro _ ⟨⟩
      exact ⟨vs, rfl, hread⟩
  | defineFunction =>
    simp only [read, Reader.bind_eq_some_iff, Reader.pure_eq_some_iff, Prod.mk.injEq] at h
    obtain ⟨name, _, -, _, _, -, params, _, -, _, _, -, ⟨rfl, rfl⟩, rfl⟩ := h
    exact ⟨Value.isListOf_texts params, rfl, rfl, rfl, Operands.exists_functionText name params,
      by simp, by simp⟩
  | defineFunction2 =>
    simp only [read, Reader.bind_eq_some_iff,
      Reader.times_eq_some_iff Reader.registerParam_eq_some_iff, Reader.pure_eq_some_iff,
      Prod.mk.injEq] at h
    obtain ⟨name, _, -, _, _, -, count, _, hcount, first, _, -, second, _, -, params, _,
      ⟨pieces, -, hparams, -⟩, _, _, -, ⟨rfl, rfl⟩, rfl⟩ := h
    have hmembers : ∀ v ∈ params, ∃ register name, Numeral.isShown register = true
        ∧ v = .param (.int register) (.text name) := by
      intro v hv
      obtain ⟨hlength, hget⟩ := List.forall₂_iff_get.mp hparams
      obtain ⟨i, rfl⟩ := List.get_of_mem hv
      obtain ⟨b, t, q, -, hv, -⟩ := hget i i.2 (hlength ▸ i.2)
      have hlt := b.toNat_lt
      exact ⟨_, _, Numeral.isShown_of_lt (by omega), hv⟩
    have hparam : (Value.list params).isListOf Value.isParam = true := by
      apply Value.isListOf_list
      intro v hv
      obtain ⟨register, name, -, rfl⟩ := hmembers v hv
      rfl
    have hrender := Operands.exists_function2Text name (Reader.isShown_of_ui8 hcount)
      (.ofBytes first second) hmembers
    refine ⟨?_, rfl, rfl, rfl, hrender, by simp, by simp⟩
    simp only [Operands.kinded, hparam]
    rfl
  | tryCatch =>
    simp only [read, Reader.bind_eq_some_iff] at h
    obtain ⟨b, _, -, _, _, -, _, _, -, _, _, -, h⟩ := h
    split at h
    · simp only [Reader.bind_eq_some_iff, Reader.map_eq_some_iff, Reader.pure_eq_some_iff,
        Prod.mk.injEq] at h
      obtain ⟨_, _, ⟨n, hn, rfl⟩, ⟨rfl, rfl⟩, rfl⟩ := h
      have hshown := Scalar.numeral_of_isShown (Reader.isShown_of_ui8 hn)
      have hcatch : Operands.catchText (.int n) = .ok _ := map_eq_ok_iff.mpr ⟨_, hshown, rfl⟩
      exact ⟨rfl, rfl, rfl, rfl, ⟨_, map_eq_ok_iff.mpr ⟨_, hcatch, rfl⟩⟩, by simp, by simp⟩
    · simp only [Reader.bind_eq_some_iff, Reader.map_eq_some_iff, Reader.pure_eq_some_iff,
        Prod.mk.injEq] at h
      obtain ⟨_, _, ⟨t, -, rfl⟩, ⟨rfl, rfl⟩, rfl⟩ := h
      exact ⟨rfl, rfl, rfl, rfl, ⟨_, rfl⟩, by simp, by simp⟩

/-- Landing changes nothing but the target, which can be shown like the displacement before it. -/
theorem Operands.AsRead.withTarget {l : Layout} {o : Operands} (h : o.AsRead l) (n : Nat) :
  (o.withTarget (.int n)).AsRead l
  := by
  cases o with
  | branch target displacement =>
    exact ⟨rfl, h.bodyNames, h.isBranch, h.displacement, ⟨_, rfl⟩, nofun, nofun⟩
  | _ => exact h

/-! ### Actions -/

/-- A record as it is read with a table, but for the target of a branch. -/
inductive Record.AsRead (table : OpcodeTable) (r : Record) : Prop where
  | listed {entry : OpcodeEntry} (hkind : r.kind = .listed table.id entry)
      (hentry : table.find? entry.code = some entry) (hcode : r.code = .int entry.code)
      (hname : r.name = .text entry.mnemonic) (hoperands : r.operands.AsRead entry.layout)
  | unlisted {code : UInt8} {payload : Bytes} (hkind : r.kind = .unlisted code.toNat)
      (hmissing : table.find? code.toNat = none) (hcode : r.code = .int code.toNat)
      (hname : r.name = .text (ActionKind.unlisted code.toNat).name)
      (hoperands : r.operands = .payload (.bytes payload))

/-- An action whose record is one that is read, with as many bodies as its operands name. -/
structure Action.Framed (table : OpcodeTable) (a : Action) : Prop where
  record : a.record.AsRead table
  length_bodies : a.bodies.length = a.record.operands.bodyNames.length

/-- An action as it is read with a table: a branch has landed. -/
structure Action.AsRead (table : OpcodeTable) (a : Action) : Prop extends a.Framed table where
  exists_target : a.isBranch = true → ∃ n : Nat, a.record.operands.target? = some (.int n)

namespace Record.AsRead

variable {table : OpcodeTable} {r : Record}

/-- The bytes of a code that is not listed are shown, and taken for nothing else. -/
theorem exists_layout (h : r.AsRead table) :
  ∃ l, r.operands.AsRead l
  := by
  cases h with
  | listed _ _ _ _ hoperands => exact ⟨_, hoperands⟩
  | unlisted _ _ _ _ hoperands =>
    rw [hoperands]
    exact ⟨.plain, rfl, rfl, rfl, rfl, ⟨_, rfl⟩, by simp, by simp⟩

/-- A record stays as it is read when it gets a target. -/
theorem withTarget (h : r.AsRead table) (n : Nat) :
  (r.withTarget (.int n)).AsRead table
  := by
  cases h with
  | listed hkind hentry hcode hname hoperands =>
    exact .listed hkind hentry hcode hname (hoperands.withTarget n)
  | unlisted hkind hmissing hcode hname hoperands =>
    exact .unlisted hkind hmissing hcode hname (by rw [Record.withTarget, hoperands]; rfl)

end Record.AsRead

/-- An action that has landed is as it is read. -/
theorem Action.Framed.asRead_of_land {table : OpcodeTable} {starts : List Int} {p : Placed}
    {stop : Int}
    {a : Action} (h : p.action.Framed table) (hland : land starts p stop = .ok a) :
  a.AsRead table ∧ a.bodies = p.action.bodies
  := by
  obtain ⟨hnone, rfl⟩ | ⟨d, n, hsome, -, rfl⟩ := land_eq_ok_iff.mp hland
  · refine ⟨⟨h, ?_⟩, rfl⟩
    intro hbranch
    obtain ⟨l, hl⟩ := h.record.exists_layout
    have hsome := hl.displacement.trans hbranch
    rw [hnone] at hsome
    cases hsome
  · obtain ⟨start, identity, record, bodies⟩ := p
    have hlength := h.length_bodies.trans
      (congrArg List.length (Operands.bodyNames_withTarget record.operands (.int n))).symm
    exact ⟨⟨⟨h.record.withTarget n, hlength⟩,
      fun _ => ⟨n, (targeted_withTarget hsome n).target⟩⟩, rfl⟩

/-! ### Blocks -/

/-- A block as it is read with a table. -/
def BlockAsRead (table : OpcodeTable) (block : List Action) : Prop :=
  ∀ a ∈ allActions block, a.AsRead table

/-- An action of a block whose branches are not resolved yet, with bodies as they are read. -/
structure Placed.Framed (table : OpcodeTable) (p : Placed) : Prop where
  action : p.action.Framed table
  bodies : ∀ body ∈ p.action.bodies, BlockAsRead table body

/-- A block whose actions are as they are read stays so when it is resolved. -/
theorem blockAsRead_of_resolve {table : OpcodeTable} {placed : List Placed} {stop : Int}
    {block : List Action} (h : ∀ p ∈ placed, p.Framed table)
    (hresolve : resolve placed stop = .ok block) :
  BlockAsRead table block
  := by
  rw [resolve_eq_mapM, mapM_eq_ok_iff] at hresolve
  refine forall_mem_allActions_iff.mpr fun a ha => ?_
  obtain ⟨hlength, hget⟩ := List.forall₂_iff_get.mp hresolve
  obtain ⟨i, rfl⟩ := List.get_of_mem ha
  have hi : i < (placed.zip ((landings placed stop).drop 1)).length := by
    rw [hlength]
    exact i.2
  have hp := h _ (List.of_mem_zip (List.get_mem _ ⟨i, hi⟩)).1
  obtain ⟨hread, hbodies⟩ := hp.action.asRead_of_land (hget i hi i.2)
  exact ⟨hread, fun body hbody => hp.bodies body (hbodies ▸ hbody)⟩

namespace Decoder

variable {d : Decoder}

/-- A record is as it is read, with a size for each of its bodies. -/
theorem framed_of_record {offset : Int} {code : UInt8} {operands : Bytes} {frame : Frame}
    (h : d.record offset code.toNat operands = .ok frame) :
  frame.record.AsRead d.table ∧ frame.bodySizes.length = frame.record.operands.bodyNames.length
  := by
  obtain ⟨hmissing, -, rfl⟩ | ⟨entry, o, ns, trailing, hentry, hread, rfl⟩ := record_eq_ok_iff.mp h
  · exact ⟨.unlisted rfl hmissing rfl rfl rfl, rfl⟩
  · have hcode : entry.code = code.toNat := by simpa using List.find?_some hentry
    obtain ⟨hnames, -⟩ := Layout.sizes_of_read hread
    refine ⟨.listed rfl (hcode ▸ hentry) rfl rfl (Layout.asRead_of_read hread), ?_⟩
    rw [Frame.bodySizes, List.length_zip]
    exact min_eq_left hnames.le

/-- What is framed with a number of steps is as it is read. -/
def FramesAsRead (d : Decoder) (steps : Nat) : Prop :=
  ∀ {limit : Option Int} {input : Input} {done : List Placed} {events events' : List Event}
    {framed : Framed}, (∀ p ∈ done, p.Framed d.table) →
  d.frame limit steps input done events = (.ok framed, events') →
  ∀ p ∈ framed.actions, p.Framed d.table

/-- The bodies that are read with a number of steps are as they are read, one for each size. -/
def BodiesAsRead (d : Decoder) (steps : Nat) : Prop :=
  ∀ {limit : Option Int} {record : Record} {sizes : List (String × Nat)} {input next : Input}
    {done bodies : List (List Action)} {events events' : List Event},
  (∀ body ∈ done, BlockAsRead d.table body) →
  d.bodies limit steps record sizes input done events = (.ok (bodies, next), events') →
  bodies.length = done.length + sizes.length ∧ ∀ body ∈ bodies, BlockAsRead d.table body

/-- A block is as it is read if its bodies and its other actions are, which take one step less. -/
theorem framesAsRead_succ {steps : Nat} (hframe : d.FramesAsRead steps)
    (hbodies : d.BodiesAsRead steps) :
  d.FramesAsRead (steps + 1)
  := by
  intro limit input done events events' framed hdone h
  rw [frame] at h
  split at h
  · cases h
  · obtain ⟨rfl, rfl⟩ := h
    simpa using hdone
  rename_i frame next hnext
  obtain ⟨code, operands, hrecord⟩ := exists_record_of_upcoming hnext
  obtain ⟨hread, hsizes⟩ := framed_of_record hrecord
  dsimp only at h
  split at h
  · cases h
  rename_i bodies next' events'' hbodies'
  obtain ⟨hlength, hblocks⟩ := hbodies (List.forall_mem_nil _) hbodies'
  have hcount : bodies.length = frame.record.operands.bodyNames.length := by
    rw [hlength, hsizes, List.length_nil, Nat.zero_add]
  have hplaced : Placed.Framed d.table ⟨input.offset, .mk none frame.record bodies⟩ :=
    ⟨⟨hread, hcount⟩, hblocks⟩
  exact hframe (List.forall_mem_cons.mpr ⟨hplaced, hdone⟩) h

/-- Bodies are as they are read if the first and the others are, which take one step less. -/
theorem bodiesAsRead_succ {steps : Nat} (hframe : d.FramesAsRead steps)
    (hbodies : d.BodiesAsRead steps) :
  d.BodiesAsRead (steps + 1)
  := by
  intro limit record sizes input next done bodies events events' hdone h
  cases sizes with
  | nil =>
    rw [bodies_nil] at h
    obtain ⟨⟨rfl, rfl⟩, rfl⟩ := h
    simpa using hdone
  | cons named sizes =>
    rw [Decoder.bodies] at h
    split at h
    · cases h
    split at h
    · cases h
    rename_i body next' events'' hbody
    obtain ⟨framed, earlier, hframed, hresolve, rfl, -⟩ := Framed.finish_eq_ok_iff.mp hbody
    have hblock := blockAsRead_of_resolve (hframe (List.forall_mem_nil _) hframed) hresolve
    obtain ⟨hlength, hblocks⟩ := hbodies (List.forall_mem_cons.mpr ⟨hblock, hdone⟩) h
    refine ⟨?_, hblocks⟩
    rw [hlength, List.length_cons, List.length_cons]
    omega

/-- Blocks and bodies are as they are read, in any number of steps. -/
theorem asRead (steps : Nat) :
  d.FramesAsRead steps ∧ d.BodiesAsRead steps
  := by
  induction steps with
  | zero =>
    constructor
    · intro limit input done events events' framed hdone h
      cases h
    · intro limit record sizes input next done bodies events events' hdone h
      cases sizes with
      | nil =>
        rw [bodies_nil] at h
        obtain ⟨⟨rfl, rfl⟩, rfl⟩ := h
        simpa using hdone
      | cons named sizes => simp [Decoder.bodies] at h
  | succ steps ih => exact ⟨framesAsRead_succ ih.1 ih.2, bodiesAsRead_succ ih.1 ih.2⟩

/-- A block that is read from a bit stream, up to a size or to an end of its own, is as it is
read. -/
theorem blockAsRead_of_readBlock {s : BitStream} {size : Option Int} {block : List Action}
    {cursor : Int}
    (h : (d.readBlock s size).result = .ok (block, cursor)) :
  BlockAsRead d.table block
  := by
  rw [readBlock] at h
  split at h
  · cases h
  split at h
  · cases h
  rename_i actions next events hblock
  obtain ⟨rfl, -⟩ := Prod.mk.inj (Except.ok.inj h)
  obtain ⟨framed, earlier, hframed, hresolve, rfl, -⟩ := Framed.finish_eq_ok_iff.mp hblock
  exact blockAsRead_of_resolve ((asRead _).1 (List.forall_mem_nil _) hframed) hresolve

end Decoder

end ActionBlock
