import ActionBlock.Proofs.Scoping

/-!
# Pushes with and without a pool

A push is shown in two ways, depending on whether there is a pool in scope. Where no value names a
constant of the pool both ways show the values alike. They differ for a push without values: after
its name there is a blank if there is a pool in scope, and none otherwise.
-/

namespace ActionBlock

/-! ### Texts that are not empty -/

theorem Numeral.int_ne_nil (n : Int) :
  int n ≠ []
  := by
  have hnat : nat n.natAbs ≠ [] := fun h => Nat.toDigits_ne_nil (List.map_eq_nil_iff.mp h)
  rw [int]
  split <;> simp [hnat]

theorem Decimal.Scientific.text_ne_nil (s : Scientific) :
  s.text ≠ []
  := by
  simp only [text]
  split_ifs <;> simp [Text.ofString]

theorem Double.text_ne_nil (x : Double) :
  x.text ≠ []
  := by
  rw [text]
  split
  · decide
  · split <;> decide
  · dsimp only
    split_ifs <;> simp [Text.ofString, Decimal.Scientific.text_ne_nil]

/-- No scalar is quoted as the empty text. -/
theorem Scalar.quoted_ne_nil (s : Scalar) :
  s.quoted ≠ .ok []
  := by
  intro h
  cases s with
  | none => cases h
  | bool b => cases b <;> cases h
  | int n =>
    obtain ⟨-, hn⟩ := numeral_eq_ok_iff.mp h
    exact Numeral.int_ne_nil n hn
  | double x => exact x.text_ne_nil (Except.ok.inj h)
  | text t => exact List.cons_ne_nil _ _ (Except.ok.inj h)
  | bytes b => exact List.cons_ne_nil _ _ (Except.ok.inj h)

/-- What is shown within a frame of its own is not empty. -/
theorem map_ne_ok_nil {α : Type} {x : Except Fault α} {frame : α → Text} (h : ∀ a, frame a ≠ []) :
  x.map frame ≠ .ok []
  := by
  intro hx
  obtain ⟨a, -, ha⟩ := map_eq_ok_iff.mp hx
  exact h a ha

/-- An action is shown as some text, unless it cannot be shown. -/
theorem Record.describe_ne_nil {r : Record} (h : r.kind.misuse? "to_mnemonic_text" = none) :
  r.describe ≠ .ok []
  := by
  rw [describe]
  cases hkind : r.kind with
  | listed | unlisted =>
    intro hshown
    obtain ⟨t, -, hshown⟩ := bind_eq_ok_iff.mp hshown
    obtain ⟨name, -, hshown⟩ := bind_eq_ok_iff.mp hshown
    obtain ⟨code, -, hshown⟩ := bind_eq_ok_iff.mp hshown
    exact List.cons_ne_nil _ _ (Except.ok.inj hshown)
  | foreign | formless =>
    rw [hkind] at h
    cases h

namespace Value

/-- Whether a value stands for an action that is shown as nothing, which no action is. -/
def isBlank : Value → Bool
  | action _ sketch => sketch.describe = .ok []
  | _ => false

theorem isBlank_sketch {r : Record} (h : r.kind.misuse? "to_mnemonic_text" = Option.none)
    (identity : Nat) :
  (action identity r.sketch).isBlank = false
  := by
  have hdescribe := r.describe_ne_nil h
  rw [isBlank, decide_eq_false_iff_not, Record.sketch]
  cases hshown : r.describe with
  | error fault => simp [Sketch.describe]
  | ok t =>
    rw [hshown] at hdescribe
    exact hdescribe

/-- Only a blank value is quoted as the empty text. -/
theorem quoted_ne_nil {v : Value} (h : v.isBlank = false) :
  v.quoted ≠ .ok []
  := by
  cases v with
  | scalar s => exact s.quoted_ne_nil
  | list members =>
    rw [quoted]
    exact map_ne_ok_nil fun ts => List.cons_ne_nil _ _
  | tuple members =>
    rw [quoted]
    refine map_ne_ok_nil fun ts => ?_
    unfold tupleText
    split <;> exact List.cons_ne_nil _ _
  | pushed value type =>
    rw [quoted]
    exact map_ne_ok_nil fun t => List.cons_ne_nil _ _
  | pushType type => exact fun h => List.cons_ne_nil _ _ (Except.ok.inj h)
  | param register name =>
    rw [quoted]
    split
    · exact fun h => List.cons_ne_nil _ _ (Except.ok.inj h)
    · simp
    · simp
  | block members =>
    rw [quoted]
    exact map_ne_ok_nil fun ts => List.cons_ne_nil _ _
  | action identity sketch => simpa [isBlank, quoted] using h

end Value

/-- Only a push of a blank value is shown as the empty text. -/
theorem PushValue.render_ne_nil {p : PushValue} (h : p.value.isBlank = false) :
  p.render ≠ .ok []
  := by
  obtain ⟨value, type⟩ := p
  cases type with
  | string | float | double | integer => exact Value.quoted_ne_nil h
  | null | undefined => exact fun h => List.cons_ne_nil _ _ (Except.ok.inj h)
  | register | constant8 | constant16 => exact map_ne_ok_nil fun n => List.cons_ne_nil _ _
  | boolean =>
    unfold render PushType.render
    dsimp only
    split
    · rename_i b
      cases b <;> decide
    · exact map_ne_ok_nil fun n => List.cons_ne_nil _ _

/-! ### Values and pools -/

/-- A value that is a number can be compared with every integer. -/
theorem Value.exists_compareInt_of_number {v : Value} {n : Int} (h : v.number = .ok n) (m : Int) :
  ∃ order, v.compareInt m = .ok order
  := by
  cases v with
  | scalar s =>
    cases s with
    | bool | int | double => exact ⟨_, rfl⟩
    | _ => cases h
  | _ => cases h

namespace Listing

/-- Whether a member of a push is a constant below the number of constants of a pool. -/
def NamesOneOf (constants : List Value) (v : Value) : Prop :=
  ∃ p, PushValue.ofValue "text" v = .ok p ∧ p.type.isConstant = true
    ∧ p.value.compareInt constants.length = .ok (some .lt)

/-- A value is shown as without a pool if it names none of its constants. -/
theorem valueText_eq_pushText {pool v : Value} {constants : List Value}
    (hpool : pool.members = .ok constants) (h : ¬ NamesOneOf constants v) :
  valueText pool v = v.pushText
  := by
  rw [valueText, Value.pushText]
  cases hp : PushValue.ofValue "text" v with
  | error fault => rfl
  | ok p =>
    change (p.render >>= fun t => _) = p.render
    cases ht : p.render with
    | error fault => rfl
    | ok t =>
      dsimp only [bind, Except.bind]
      split
      · rename_i htype
        rw [render_of_isConstant htype] at ht
        obtain ⟨d, hd, -⟩ := map_eq_ok_iff.mp ht
        obtain ⟨n, hn, -⟩ := Value.decimal_eq_ok_iff.mp hd
        obtain ⟨order, horder⟩ := Value.exists_compareInt_of_number hn constants.length
        have hnot : order ≠ some .lt := by
          rintro rfl
          exact h ⟨p, hp, htype, horder⟩
        have hnamed : constantText pool p.value = .ok [] := by
          refine bind_eq_ok_iff.mpr ⟨constants, hpool, bind_eq_ok_iff.mpr ⟨order, horder, ?_⟩⟩
          rw [if_neg hnot]
        rw [hnamed]
        exact congrArg Except.ok (List.append_nil t)
      · exact congrArg Except.ok (List.append_nil t)

/-- A list is shown alike in two ways if each of its members is. -/
theorem listText_congr {list : Value} {shown shown' : Value → Except Fault Text}
    (h : ∀ members, list.members = .ok members → ∀ v ∈ members, shown v = shown' v) :
  Operands.listText list shown = Operands.listText list shown'
  := by
  rw [Operands.listText, Operands.listText]
  cases hmembers : list.members with
  | error fault => rfl
  | ok members =>
    have hmap := congrArg (List.mapM id) (List.map_congr_left (h members hmembers))
    rw [List.mapM_map, List.mapM_map, Function.id_comp, Function.id_comp] at hmap
    change (members.mapM shown >>= _) = (members.mapM shown' >>= _)
    rw [hmap]

/-- A list without members is shown as nothing, and so is no other. -/
theorem listText_eq_nil_iff {list : Value} {shown : Value → Except Fault Text}
    (h : ∀ members, list.members = .ok members → ∀ v ∈ members, shown v ≠ .ok []) :
  Operands.listText list shown = .ok [] ↔ list.members = .ok []
  := by
  constructor
  · intro hshown
    obtain ⟨members, hmembers, hshown⟩ := bind_eq_ok_iff.mp hshown
    obtain ⟨ts, hts, hjoin⟩ := bind_eq_ok_iff.mp hshown
    rw [mapM_eq_ok_iff] at hts
    cases hts with
    | nil => exact hmembers
    | @cons v t members ts hv _ =>
      obtain ⟨rfl, -⟩ := List.append_eq_nil_iff.mp (Except.ok.inj hjoin)
      exact absurd hv (h _ hmembers v List.mem_cons_self)
  · intro hmembers
    exact bind_eq_ok_iff.mpr ⟨[], hmembers, rfl⟩

end Listing

/-! ### The theorem -/

open Listing

/-- A push of which no value names a constant of the pool in scope is shown as if there was no pool,
if it has any values. Without values it is shown with a blank after its name that it does not have
otherwise. None of the values may be shown as nothing, which is so of all values there are: an
action in the place of a value is never blank. -/
theorem push_texts_agree {r : Record} {values pool : Value} {constants : List Value}
    (hpush : r.operands = .push values) (hkind : r.kind.misuse? "to_mnemonic_text" = none)
    (hpool : pool.members = .ok constants)
    (hnames : ∀ members, values.members = .ok members → ∀ v ∈ members, ¬ NamesOneOf constants v)
    (hblank : ∀ members, values.members = .ok members → ∀ v ∈ members,
      ∀ p, PushValue.ofValue "text" v = .ok p → p.value.isBlank = false) :
  (values.members ≠ .ok [] → actionText (some pool) r = r.render)
    ∧ (values.members = .ok [] →
      actionText (some pool) r = r.render.map fun t => t ++ Text.ofString " ")
  := by
  have htext : ∀ members, values.members = .ok members → ∀ v ∈ members, v.pushText ≠ .ok [] := by
    intro members hmembers v hv hshown
    obtain ⟨p, hp, hrender⟩ := bind_eq_ok_iff.mp hshown
    exact PushValue.render_ne_nil (hblank members hmembers v hv p hp) hrender
  have hvalues :
      Operands.listText values (valueText pool) = Operands.listText values Value.pushText :=
    listText_congr fun members hmembers v hv =>
      valueText_eq_pushText hpool (hnames members hmembers v hv)
  have hnil := listText_eq_nil_iff htext
  have hoperands : r.operands.render = Operands.listText values Value.pushText := by rw [hpush]; rfl
  have haction : actionText (some pool) r = (do
      let t ← Operands.listText values Value.pushText
      let name ← r.name.plain
      .ok (name ++ " " ++ t)) := by
    simp only [actionText, hpush, hvalues]
  rw [ne_eq, ← hnil, haction, Record.render, Record.title, hkind, hoperands]
  cases hshown : Operands.listText values Value.pushText with
  | error fault => exact ⟨fun _ => rfl, fun h => by cases h⟩
  | ok t =>
    constructor
    · intro ht
      have ht : t ≠ [] := fun h => ht (congrArg Except.ok h)
      simp only [bind, Except.bind, if_neg ht]
      cases r.name.plain <;> rfl
    · intro ht
      obtain rfl := Except.ok.inj ht
      simp only [bind, Except.bind, if_true]
      cases r.name.plain with
      | error fault => rfl
      | ok name => simp [Except.map]

/-- A push without values is not shown alike: none of its values names a constant. -/
theorem actionText_pushing_nil :
  (pushing []).operands = .push (.list [])
    ∧ (∀ v ∈ ([] : List Value), ¬ NamesOneOf [.text "a"] v)
    ∧ actionText (some (.list [.text "a"])) (pushing []) = .ok "push "
    ∧ (pushing []).render = .ok "push"
  := ⟨rfl, List.forall_mem_nil _, by decide +kernel, by decide +kernel⟩

/-- A push of a constant beyond the pool, of a text, and of an action in the place of a text. -/
def mixedPush : Record :=
  { pushing [] with
    operands := .push (.list [.pushed (.int 7) .constant8, .pushed (.text "c") .string,
      .pushed (.action 0 (pushing [7]).sketch) .string]) }

theorem push_texts_agree_mixedPush :
  actionText (some (.list [.text "a"])) mixedPush = mixedPush.render
    ∧ mixedPush.render = .ok "push c:7, 'c', <push (0x96) c:7>"
    ∧ actionText (some (.tuple [])) (pushing []) = .ok "push "
  := by
  have hblank := Value.isBlank_sketch (r := pushing [7]) rfl 0
  refine ⟨?_, by decide +kernel, ?_⟩
  · apply (push_texts_agree rfl rfl rfl ?_ ?_).1 (by simp [Value.members])
    · rintro members ⟨⟩ v hv ⟨p, hp, htype, horder⟩
      simp only [List.mem_cons, List.not_mem_nil, or_false] at hv
      obtain rfl | rfl | rfl := hv <;> cases hp
      · cases horder
      · cases htype
      · cases htype
    · rintro members ⟨⟩ v hv p hp
      simp only [List.mem_cons, List.not_mem_nil, or_false] at hv
      obtain rfl | rfl | rfl := hv <;> cases hp
      · rfl
      · rfl
      · exact hblank
  · rw [(push_texts_agree (r := pushing []) rfl rfl rfl ?_ ?_).2 rfl]
    · decide +kernel
    · rintro members ⟨⟩ v ⟨⟩
    · rintro members ⟨⟩ v ⟨⟩

end ActionBlock
