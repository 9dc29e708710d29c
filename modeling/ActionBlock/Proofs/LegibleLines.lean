import ActionBlock.Opcode.Standard
import ActionBlock.Proofs.AsRead
import ActionBlock.Proofs.Scoping
import Mathlib.Data.List.Nodup

/-!
# Lines can be read

A line of a block that was read can be shown, and what it is can be told from its text. The tabs
give its depth, a digit after them tells an action from a label, and the mnemonic reaches to the
first blank. This takes a table whose mnemonics can be told apart and told from what follows them.
Then two lines with the same text are alike, whatever their operands are: they are labels of one
name, or actions of one code, with bodies of the same names and one target.
-/

namespace ActionBlock

/-! ### Texts -/

theorem CodePoint.ofChar_injective :
  Function.Injective ofChar
  := by
  intro c d h
  have hlt : ∀ c : Char, c.toNat < 0x110000 := by
    intro c
    have hvalid := c.valid
    simp only [UInt32.isValidChar, Nat.isValidChar] at hvalid
    change c.val.toNat < _
    omega
  have hval : c.toNat % 0x110000 = d.toNat % 0x110000 := congrArg Fin.val h
  rw [Nat.mod_eq_of_lt (hlt c), Nat.mod_eq_of_lt (hlt d)] at hval
  exact Char.toNat_inj.mp hval

theorem Text.ofString_injective :
  Function.Injective ofString
  := by
  intro s t h
  exact String.toList_inj.mp (CodePoint.ofChar_injective.list_map h)

namespace Numeral

/-- A numeral determines its number. -/
theorem nat_injective :
  Function.Injective nat
  := by
  intro m n h
  have hdigits : Nat.toDigits 10 m = Nat.toDigits 10 n := CodePoint.ofChar_injective.list_map h
  rw [← Nat.ofDigitChars_ten_toDigits (n := m), hdigits, Nat.ofDigitChars_ten_toDigits]

/-- Whether a code point is one of the digits of numerals that are written. -/
def IsDigit (c : CodePoint) : Prop := ∃ ch : Char, ch.isDigit = true ∧ c = .ofChar ch

theorem not_isDigit {ch : Char} (h : ch.isDigit = false) :
  ¬ IsDigit (.ofChar ch)
  := by
  rintro ⟨other, hdigit, heq⟩
  rw [← CodePoint.ofChar_injective heq, h] at hdigit
  cases hdigit

theorem isDigit_of_mem_nat {n : Nat} {c : CodePoint} (h : c ∈ nat n) :
  IsDigit c
  := by
  obtain ⟨ch, hch, rfl⟩ := List.mem_map.mp h
  exact ⟨ch, Nat.isDigit_of_mem_toDigits (by decide) (by decide) hch, rfl⟩

theorem exists_nat_eq_cons (n : Nat) :
  ∃ c rest, nat n = c :: rest ∧ IsDigit c
  := by
  obtain ⟨c, rest, hnat⟩ := List.exists_cons_of_ne_nil
    (show nat n ≠ [] from fun h => Nat.toDigits_ne_nil (List.map_eq_nil_iff.mp h))
  exact ⟨c, rest, hnat, isDigit_of_mem_nat (hnat ▸ List.mem_cons_self)⟩

end Numeral

/-! ### Splitting lists -/

/-- Lists that are related member by member split at the same place, if what is before the place has
a property that what follows does not begin with. -/
theorem forall₂_append_of_boundary {α : Type} {R : α → α → Prop} {p : α → Prop}
    (hR : ∀ {a b}, R a b → (p a ↔ p b)) {xs ys xs' ys' : List α}
    (h : List.Forall₂ R (xs ++ ys) (xs' ++ ys'))
    (hxs : ∀ x ∈ xs, p x) (hys : ∀ y ∈ ys.head?, ¬ p y) (hxs' : ∀ x ∈ xs', p x)
    (hys' : ∀ y ∈ ys'.head?, ¬ p y) :
  List.Forall₂ R xs xs' ∧ List.Forall₂ R ys ys'
  := by
  induction xs generalizing xs' with
  | nil =>
    cases xs' with
    | nil => exact ⟨.nil, h⟩
    | cons x' xs' =>
      cases ys with
      | nil => cases h
      | cons y ys =>
        obtain ⟨hy, -⟩ := List.forall₂_cons.mp h
        exact absurd ((hR hy).mpr (hxs' x' List.mem_cons_self)) (hys y rfl)
  | cons x xs ih =>
    cases xs' with
    | nil =>
      cases ys' with
      | nil => cases h
      | cons y' ys' =>
        obtain ⟨hy, -⟩ := List.forall₂_cons.mp h
        exact absurd ((hR hy).mp (hxs x List.mem_cons_self)) (hys' y' rfl)
    | cons x' xs' =>
      obtain ⟨hx, hrest⟩ := List.forall₂_cons.mp h
      obtain ⟨hfront, hback⟩ := ih hrest (fun a ha => hxs a (List.mem_cons_of_mem _ ha))
        (fun a ha => hxs' a (List.mem_cons_of_mem _ ha))
      exact ⟨.cons hx hfront, hback⟩

/-- Where a run of a property ends, a list can be split in one way only. -/
theorem append_inj_of_boundary {α : Type} {p : α → Prop} {xs ys xs' ys' : List α}
    (h : xs ++ ys = xs' ++ ys')
    (hxs : ∀ x ∈ xs, p x) (hys : ∀ y ∈ ys.head?, ¬ p y) (hxs' : ∀ x ∈ xs', p x)
    (hys' : ∀ y ∈ ys'.head?, ¬ p y) :
  xs = xs' ∧ ys = ys'
  := by
  simp only [← List.forall₂_eq_eq_eq] at h ⊢
  exact forall₂_append_of_boundary (fun heq => by rw [heq]) h hxs hys hxs' hys'

/-! ### Names -/

/-- A table whose mnemonics can be told from one another, from the names of codes that it does not
list, and from what follows them on a line. -/
structure OpcodeTable.Legible (table : OpcodeTable) : Prop where
  blank : ∀ e ∈ table.entries, CodePoint.ofChar ' ' ∉ e.mnemonic
  distinct : (table.entries.map OpcodeEntry.mnemonic).Nodup
  unlisted : ∀ code < 256, table.find? (code : Nat) = none →
    (ActionKind.unlisted (code : Nat)).name ∉ table.entries.map OpcodeEntry.mnemonic

/-- The shared table is legible. -/
theorem OpcodeTable.legible_shared :
  shared.Legible
  where
  blank := by decide +kernel
  distinct := by decide +kernel
  unlisted code _ _ hmem := by
    have hunknown : ∀ e ∈ shared.entries, e.mnemonic.take 8 ≠ "unknown_" := by decide +kernel
    obtain ⟨e, he, heq⟩ := List.mem_map.mp hmem
    apply hunknown e he
    rw [heq]
    rfl

theorem blank_notMem_unlisted_name (code : UInt8) :
  CodePoint.ofChar ' ' ∉ (ActionKind.unlisted code.toNat).name
  := by
  have h : ∀ n < 256, CodePoint.ofChar ' ' ∉ (ActionKind.unlisted (n : Nat)).name := by
    decide +kernel
  exact h code.toNat code.toNat_lt

/-- The name of an unlisted code determines it. -/
theorem unlisted_name_inj {a b : UInt8}
    (h : (ActionKind.unlisted a.toNat).name = (ActionKind.unlisted b.toNat).name) :
  a = b
  := by
  have hread : ∀ n < 256, Numeral.read? (Numeral.code (n : Nat)) = some (n : Int) := by
    decide +kernel
  have hcode := congrArg Numeral.read? (List.append_cancel_left h)
  rw [hread _ a.toNat_lt, hread _ b.toNat_lt] at hcode
  exact UInt8.toNat_inj.mp (Int.ofNat_inj.mp (Option.some.inj hcode))

namespace Record.AsRead

variable {table : OpcodeTable} {r r' : Record}

theorem name_eq (h : r.AsRead table) :
  r.name = .text r.kind.name
  := by
  cases h with
  | listed hkind _ _ hname | unlisted hkind _ _ hname => rw [hname, hkind, ActionKind.name]

theorem misuse?_eq_none (h : r.AsRead table) (asked : Text) :
  r.kind.misuse? asked = none
  := by
  cases h with
  | listed hkind | unlisted hkind => rw [hkind]; rfl

/-- A record as it is read has a name without a blank, provided its table is legible. -/
theorem blank_notMem_name (h : r.AsRead table) (htable : table.Legible) :
  CodePoint.ofChar ' ' ∉ r.kind.name
  := by
  cases h with
  | listed hkind hentry =>
    rw [hkind]
    exact htable.blank _ (List.mem_of_find?_eq_some hentry)
  | unlisted hkind =>
    rw [hkind]
    exact blank_notMem_unlisted_name _

/-- The name of a record that was read gives its code, its bodies and whether it is a branch. -/
theorem eq_of_name_eq (h : r.AsRead table) (h' : r'.AsRead table) (htable : table.Legible)
    (hname : r.kind.name = r'.kind.name) :
  r.code = r'.code ∧ r.operands.bodyNames = r'.operands.bodyNames
    ∧ r.operands.isBranch = r'.operands.isBranch
  := by
  have hunlisted : ∀ {entry : OpcodeEntry} {code : UInt8}, table.find? entry.code = some entry →
      table.find? code.toNat = none → entry.mnemonic ≠ (ActionKind.unlisted code.toNat).name := by
    intro entry code hentry hmissing heq
    apply htable.unlisted _ code.toNat_lt hmissing
    exact heq ▸ List.mem_map_of_mem (List.mem_of_find?_eq_some hentry)
  cases h with
  | listed hkind hentry hcode _ hoperands =>
    cases h' with
    | listed hkind' hentry' hcode' _ hoperands' =>
      rw [hkind, hkind'] at hname
      obtain rfl := List.inj_on_of_nodup_map htable.distinct (List.mem_of_find?_eq_some hentry)
        (List.mem_of_find?_eq_some hentry') hname
      exact ⟨hcode.trans hcode'.symm, hoperands.bodyNames.trans hoperands'.bodyNames.symm,
        hoperands.isBranch.trans hoperands'.isBranch.symm⟩
    | unlisted hkind' hmissing =>
      rw [hkind, hkind'] at hname
      exact absurd hname (hunlisted hentry hmissing)
  | unlisted hkind hmissing hcode _ hoperands =>
    cases h' with
    | listed hkind' hentry =>
      rw [hkind, hkind'] at hname
      exact absurd hname.symm (hunlisted hentry hmissing)
    | unlisted hkind' _ hcode' _ hoperands' =>
      rw [hkind, hkind'] at hname
      obtain rfl := unlisted_name_inj hname
      rw [hoperands, hoperands']
      exact ⟨hcode.trans hcode'.symm, rfl, rfl⟩

end Record.AsRead

/-- The bodies of an action have distinct names. -/
theorem Operands.nodup_bodyNames (o : Operands) :
  o.bodyNames.Nodup
  := by
  cases o <;> simp [bodyNames, Layout.bodyNames]

/-! ### Actions as text -/

namespace Listing

theorem target?_eq_some {o : Operands} {n : Nat} (h : o.target? = some (.int n)) :
  ∃ displacement, o = .branch (.int n) displacement
  := by
  cases o with
  | branch target displacement =>
    rw [Operands.target?] at h
    split at h
    · cases h
    · obtain rfl := Option.some.inj h
      exact ⟨displacement, rfl⟩
  | _ => cases h

/-- An action that was read is shown as its name, then nothing or a blank and more. The target of a
branch follows the name. -/
theorem exists_of_actionText {table : OpcodeTable} {pool : Option Value} {r : Record} {t : Text}
    (h : r.AsRead table) (ht : actionText pool r = .ok t) :
  ∃ tail : Text, t = r.kind.name ++ tail ∧ (∀ c ∈ tail.head?, c = .ofChar ' ')
    ∧ ∀ n : Nat, r.operands.target? = some (.int n) → tail = " -> " ++ Numeral.nat n
  := by
  have hplain : r.name.plain = .ok r.kind.name := by rw [h.name_eq]; rfl
  unfold actionText at ht
  split at ht
  · rename_i list values hpush
    obtain ⟨shown, -, ht⟩ := bind_eq_ok_iff.mp ht
    obtain ⟨name, hname, ⟨⟩⟩ := bind_eq_ok_iff.mp ht
    obtain rfl := Except.ok.inj (hname.symm.trans hplain)
    refine ⟨" " ++ shown, List.append_assoc _ _ _, by simp [Text.ofString], ?_⟩
    intro n hn
    rw [hpush] at hn
    cases hn
  · obtain ⟨-, shown, name, hshown, hname, rfl⟩ := Record.render_eq_ok_iff.mp ht
    obtain rfl := Except.ok.inj (hname.symm.trans hplain)
    refine ⟨Text.afterSeparator " " shown, rfl, ?_, ?_⟩
    · rw [Text.afterSeparator]
      split <;> simp [Text.ofString]
    · intro n hn
      obtain ⟨displacement, hbranch⟩ := target?_eq_some hn
      rw [hbranch] at hshown
      obtain rfl := Except.ok.inj hshown
      rw [← Numeral.int_natCast]
      rfl

/-! ### Lines that are alike -/

/-- The names that bodies are listed under. -/
def labelNames : List String := ["body", "try_body", "catch_body", "finally_body"]

/-- A line of a block that was read. -/
def Line.AsRead (table : OpcodeTable) : Line → Prop
  | action before outer r =>
    (∀ records ∈ before :: outer, ∀ r' ∈ records, r'.AsRead table) ∧ r.AsRead table
      ∧ (r.operands.isBranch = true → ∃ n : Nat, r.operands.target? = some (.int n))
  | label _ name => name ∈ labelNames

/-- Lines of the same kind and depth. Actions have the same code, bodies of the same names and the
same target; labels have the same name. -/
inductive Line.Alike : Line → Line → Prop where
  | action {before before' : List Record} {outer outer' : List (List Record)} {r r' : Record}
      (hdepth : outer.length = outer'.length) (hcode : r.code = r'.code)
      (hnames : r.operands.bodyNames = r'.operands.bodyNames)
      (htarget : r.operands.target? = r'.operands.target?) :
      Alike (.action before outer r) (.action before' outer' r')
  | label {depth : Nat} {name : String} : Alike (.label depth name) (.label depth name)

/-- An indented text determines its depth, unless it begins with a tab. -/
theorem indent_append_inj {m n : Nat} {x y : Text} (h : indent m ++ x = indent n ++ y)
    (hx : ∀ c ∈ x.head?, c ≠ .ofChar '\t') (hy : ∀ c ∈ y.head?, c ≠ .ofChar '\t') :
  m = n ∧ x = y
  := by
  obtain ⟨hindent, hrest⟩ := append_inj_of_boundary (p := (· = .ofChar '\t')) h
    (fun _ => List.eq_of_mem_replicate) hx (fun _ => List.eq_of_mem_replicate) hy
  exact ⟨by simpa [indent] using congrArg List.length hindent, hrest⟩

theorem isDigit_of_head_nat {n : Nat} {x : Text} :
  ∀ c ∈ (Numeral.nat n ++ x).head?, Numeral.IsDigit c
  := by
  obtain ⟨c, rest, hnat, hc⟩ := Numeral.exists_nat_eq_cons n
  simpa [hnat] using hc

theorem ne_tab_of_isDigit {c : CodePoint} (h : Numeral.IsDigit c) :
  c ≠ .ofChar '\t'
  := by
  rintro rfl
  exact Numeral.not_isDigit rfl h

/-- A label begins neither with a tab nor with a digit. -/
theorem exists_label_eq_cons {name : String} (h : name ∈ labelNames) :
  ∃ ch rest, (name : Text) = CodePoint.ofChar ch :: rest ∧ ch ≠ '\t' ∧ ch.isDigit = false
  := by
  simp only [labelNames, List.mem_cons, List.not_mem_nil, or_false] at h
  obtain rfl | rfl | rfl | rfl := h <;> exact ⟨_, _, rfl, by decide, by decide⟩

theorem ne_tab_of_head_label {name : String} (h : name ∈ labelNames) {x : Text} :
  ∀ c ∈ ((name : Text) ++ x).head?, c ≠ .ofChar '\t'
  := by
  obtain ⟨ch, rest, hname, hch, -⟩ := exists_label_eq_cons h
  simpa [hname] using fun heq => hch (CodePoint.ofChar_injective heq)

/-- The line of an action is its index and its text, indented by the depth. -/
theorem text_action_eq_ok_iff {before : List Record} {outer : List (List Record)} {r : Record}
    {t : Text} :
  (Line.action before outer r).text = .ok t
    ↔ ∃ shown, actionText (poolInScope (before :: outer)) r = .ok shown
      ∧ t = indent outer.length ++ (Numeral.nat before.length ++ ("\t" ++ shown))
  := by
  rw [Line.text, map_eq_ok_iff]
  simp only [List.append_assoc, eq_comm]

/-- After its tabs, an action is shown with a digit first, and a label is not. -/
theorem text_action_ne_text_label {before : List Record} {outer : List (List Record)} {r : Record}
    {depth : Nat} {name : String} {t : Text} (hname : name ∈ labelNames)
    (h : (Line.action before outer r).text = .ok t) :
  (Line.label depth name).text ≠ .ok t
  := by
  intro h'
  obtain ⟨shown, -, rfl⟩ := text_action_eq_ok_iff.mp h
  have heq := Except.ok.inj h'
  rw [List.append_assoc] at heq
  obtain ⟨-, hrest⟩ := indent_append_inj heq (ne_tab_of_head_label hname)
    (fun c hc => ne_tab_of_isDigit (isDigit_of_head_nat c hc))
  obtain ⟨ch, rest, hcons, -, hch⟩ := exists_label_eq_cons hname
  apply Numeral.not_isDigit hch
  apply isDigit_of_head_nat (n := before.length) (x := "\t" ++ shown)
  rw [← hrest, hcons]
  rfl

theorem target?_of_not_isBranch {o : Operands} (h : o.isBranch = false) :
  o.target? = none
  := by
  cases o with
  | branch => cases h
  | _ => rfl

/-- Actions that were read are alike if they are shown alike. -/
theorem alike_of_actionText {table : OpcodeTable} (htable : table.Legible)
    {before before' : List Record}
    {outer outer' : List (List Record)} {r r' : Record} {pool pool' : Option Value} {t : Text}
    (h : (Line.action before outer r).AsRead table)
    (h' : (Line.action before' outer' r').AsRead table)
    (hdepth : outer.length = outer'.length) (ht : actionText pool r = .ok t)
    (ht' : actionText pool' r' = .ok t) :
  (Line.action before outer r).Alike (.action before' outer' r')
  := by
  obtain ⟨-, hread, hbranch⟩ := h
  obtain ⟨-, hread', hbranch'⟩ := h'
  obtain ⟨tail, rfl, hblank, htarget⟩ := exists_of_actionText hread ht
  obtain ⟨tail', heq, hblank', htarget'⟩ := exists_of_actionText hread' ht'
  obtain ⟨hname, rfl⟩ := append_inj_of_boundary (p := (· ≠ .ofChar ' ')) heq
    (fun c hc => ne_of_mem_of_not_mem hc (hread.blank_notMem_name htable))
    (fun c hc => not_not.mpr (hblank c hc))
    (fun c hc => ne_of_mem_of_not_mem hc (hread'.blank_notMem_name htable))
    (fun c hc => not_not.mpr (hblank' c hc))
  obtain ⟨hcode, hnames, hbranches⟩ := hread.eq_of_name_eq hread' htable hname
  refine .action hdepth hcode hnames ?_
  cases hr : r.operands.isBranch with
  | false =>
    rw [target?_of_not_isBranch hr, target?_of_not_isBranch (hbranches ▸ hr)]
  | true =>
    obtain ⟨n, hn⟩ := hbranch hr
    obtain ⟨n', hn'⟩ := hbranch' (hbranches ▸ hr)
    have hnumeral := List.append_cancel_left ((htarget n hn).symm.trans (htarget' n' hn'))
    rw [hn, hn', Numeral.nat_injective hnumeral]

/-- Lines of blocks that were read with one table are alike if they have the same text. -/
theorem Line.alike_of_text {table : OpcodeTable} (htable : table.Legible) {l l' : Line} {t : Text}
    (h : l.AsRead table) (h' : l'.AsRead table) (ht : l.text = .ok t) (ht' : l'.text = .ok t) :
  l.Alike l'
  := by
  cases l with
  | action before outer r =>
    cases l' with
    | action before' outer' r' =>
      obtain ⟨shown, hshown, rfl⟩ := text_action_eq_ok_iff.mp ht
      obtain ⟨shown', hshown', heq⟩ := text_action_eq_ok_iff.mp ht'
      obtain ⟨hdepth, hrest⟩ := indent_append_inj heq
        (fun c hc => ne_tab_of_isDigit (isDigit_of_head_nat c hc))
        (fun c hc => ne_tab_of_isDigit (isDigit_of_head_nat c hc))
      have htab : ∀ x : Text, ∀ c ∈ ("\t" ++ x).head?, ¬ Numeral.IsDigit c := by
        intro x c hc hdigit
        exact ne_tab_of_isDigit hdigit (Option.some.inj hc).symm
      obtain ⟨-, hshown_eq⟩ := append_inj_of_boundary hrest (fun _ => Numeral.isDigit_of_mem_nat)
        (htab shown) (fun _ => Numeral.isDigit_of_mem_nat) (htab shown')
      rw [← List.append_cancel_left hshown_eq] at hshown'
      exact alike_of_actionText htable h h' hdepth hshown hshown'
    | label depth name => exact absurd ht' (text_action_ne_text_label h' ht)
  | label depth name =>
    cases l' with
    | action before' outer' r' => exact absurd ht (text_action_ne_text_label h ht')
    | label depth' name' =>
      have heq := Except.ok.inj (ht.trans ht'.symm)
      rw [List.append_assoc, List.append_assoc] at heq
      obtain ⟨rfl, hrest⟩ :=
        indent_append_inj heq (ne_tab_of_head_label h) (ne_tab_of_head_label h')
      obtain rfl := Text.ofString_injective (List.append_cancel_right hrest)
      exact .label

/-! ### The lines of a block that was read -/

/-- A line of some bodies is a label or a line of one of them. -/
theorem mem_bodiesLines {outer : List (List Record)} {names : List String}
    {bodies : List (List Action)}
    {l : Line} (h : l ∈ bodiesLines outer names bodies) :
  (∃ name ∈ names, l = .label outer.length name) ∨ ∃ body ∈ bodies, l ∈ blockLines outer [] body
  := by
  induction bodies generalizing names with
  | nil =>
    rw [bodiesLines_nil] at h
    cases h
  | cons body bodies ih =>
    rw [bodiesLines_cons, List.mem_append, List.mem_append] at h
    obtain h | h | h := h
    · rw [labelLines] at h
      split at h
      · cases h
      · obtain ⟨name, hname, rfl⟩ := List.mem_map.mp h
        exact .inl ⟨name, List.mem_of_mem_take hname, rfl⟩
    · exact .inr ⟨body, List.mem_cons_self, h⟩
    · obtain ⟨name, hname, rfl⟩ | ⟨other, hother, h⟩ := ih h
      · exact .inl ⟨name, List.mem_of_mem_drop hname, rfl⟩
      · exact .inr ⟨other, List.mem_cons_of_mem _ hother, h⟩

theorem mem_labelNames {o : Operands} {name : String} (h : name ∈ o.bodyNames) :
  name ∈ labelNames
  := by
  cases o <;> simp_all [Operands.bodyNames, Layout.bodyNames, labelNames]

/-- The lines of a block as it is read are about records as they are read. -/
theorem asRead_of_mem_blockLines {table : OpcodeTable} {block : List Action}
    {outer : List (List Record)}
    {before : List Record} {l : Line} (h : BlockAsRead table block)
    (haround : ∀ records ∈ before :: outer, ∀ r ∈ records, r.AsRead table)
    (hl : l ∈ blockLines outer before block) :
  l.AsRead table
  := by
  induction block using Action.block_induct generalizing outer before with
  | h block ih =>
    obtain ⟨front, a, back, rfl, hline⟩ := mem_blockLines_iff.mp hl
    have hblock := forall_mem_allActions_iff.mp h
    obtain ⟨ha, hbodies⟩ := hblock a (by simp)
    have hextended : ∀ more : List Action, more ⊆ front ++ a :: back →
        ∀ records ∈ (before ++ more.map Action.record) :: outer, ∀ r ∈ records, r.AsRead table := by
      intro more hmore
      obtain ⟨hbefore, houter⟩ := List.forall_mem_cons.mp haround
      refine List.forall_mem_cons.mpr ⟨List.forall_mem_append.mpr ⟨hbefore, ?_⟩, houter⟩
      intro r hr
      obtain ⟨b, hb, rfl⟩ := List.mem_map.mp hr
      exact (hblock b (hmore hb)).1.record
    obtain hline | hline := hline
    · rw [hline]
      exact ⟨hextended front (by simp), ha.record, ha.exists_target⟩
    · obtain ⟨name, hname, heq⟩ | ⟨body, hbody, hline⟩ := mem_bodiesLines hline
      · rw [heq]
        rw [bodyLabels] at hname
        split at hname
        · exact mem_labelNames hname
        · cases hname
      · refine ih a (by simp) body hbody (hbodies body hbody) ?_ hline
        exact List.forall_mem_cons.mpr ⟨List.forall_mem_nil _, hextended (front ++ [a]) (by simp)⟩

/-- A pool in scope of what was read is a list of texts. -/
theorem exists_texts_of_poolInScope {table : OpcodeTable} {around : List (List Record)}
    {pool : Value}
    (haround : ∀ records ∈ around, ∀ r ∈ records, r.AsRead table)
    (h : poolInScope around = some pool) :
  ∃ ts : List Text, pool = .list (ts.map .text)
  := by
  obtain ⟨h, -⟩ := Option.filter_eq_some_iff.mp h
  obtain ⟨records, hrecords, h⟩ := List.exists_of_findSome?_eq_some h
  obtain ⟨r, hr, h⟩ := List.exists_of_findSome?_eq_some h
  have hpool : r.operands = .constantPool pool := by
    cases hoperands : r.operands with
    | constantPool other =>
      rw [hoperands] at h
      rw [Option.some.inj h]
    | _ =>
      rw [hoperands] at h
      cases h
  obtain ⟨l, hl⟩ := (haround records hrecords r (List.mem_reverse.mp hr)).exists_layout
  exact hl.pool pool hpool

/-- A value that was read can be shown, whatever texts are in scope. -/
theorem exists_valueText {v : PushValue} (h : v.AsRead) (ts : List Text) :
  ∃ t, valueText (.list (ts.map .text)) v.toValue = .ok t
  := by
  have hofValue : PushValue.ofValue "text" v.toValue = .ok v := rfl
  have hnonnegative : ∀ p, PushValue.ofValue "text" v.toValue = .ok p → p.type.isConstant = true →
      p.value.isNonnegative = true := by
    intro p hp htype
    obtain rfl := Except.ok.inj (hofValue.symm.trans hp)
    obtain ⟨n, hn⟩ := h.exists_index htype
    have hwhole : v.value.whole? = some (n : Int) := by rw [hn]; rfl
    simp [Value.isNonnegative, Value.compareInt_of_whole hwhole, compare_lt_iff_lt]
  cases htype : v.type.isConstant with
  | false =>
    obtain ⟨t, ht⟩ := h.exists_render
    exact ⟨t, (valueText_eq_ok_iff hnonnegative).mpr (.other hofValue htype ht)⟩
  | true =>
    obtain ⟨n, hn⟩ := h.exists_index htype
    have hwhole : v.value.whole? = some (n : Int) := by rw [hn]; rfl
    have hnumber := Value.number_of_whole hwhole
    have hdigits : Int.natAbs n < 10 ^ Numeral.mostDigits := by
      obtain ⟨t, ht⟩ := h.exists_render
      rw [render_of_isConstant htype] at ht
      obtain ⟨_, hdecimal, -⟩ := map_eq_ok_iff.mp ht
      obtain ⟨m, hm, hdigits, -⟩ := Value.decimal_eq_ok_iff.mp hdecimal
      obtain rfl := Except.ok.inj (hnumber.symm.trans hm)
      exact hdigits
    by_cases hlt : n < ts.length
    · have hc : (ts.map Value.text)[n]? = some (.text ts[n]) := by simp [hlt]
      exact ⟨_, (valueText_eq_ok_iff hnonnegative).mpr
        (.named hofValue htype rfl rfl hwhole hdigits hc rfl)⟩
    · refine ⟨_, (valueText_eq_ok_iff hnonnegative).mpr (.bare hofValue htype hnumber hdigits
        (.inr ⟨_, _, _, rfl, rfl, Value.compareInt_of_whole hwhole _, ?_⟩))⟩
      simpa [compare_lt_iff_lt] using hlt

/-- A record as it is read has a text, with every pool of texts. -/
theorem exists_actionText {table : OpcodeTable} {r : Record} {pool : Option Value}
    (h : r.AsRead table)
    (hpool : ∀ list, pool = some list → ∃ ts : List Text, list = .list (ts.map .text)) :
  ∃ t, actionText pool r = .ok t
  := by
  have hplain : r.name.plain = .ok r.kind.name := by rw [h.name_eq]; rfl
  obtain ⟨l, hl⟩ := h.exists_layout
  unfold actionText
  split
  · rename_i list values hpush
    obtain ⟨ts, rfl⟩ := hpool list rfl
    obtain ⟨vs, rfl, hvs⟩ := hl.values values hpush
    have hshown : ∀ v ∈ vs.map PushValue.toValue,
        ∃ t, valueText (.list (ts.map .text)) v = .ok t := by
      intro v hv
      obtain ⟨p, hp, rfl⟩ := List.mem_map.mp hv
      exact exists_valueText (hvs p hp) ts
    obtain ⟨t, ht⟩ := Operands.exists_listText hshown
    exact ⟨_, bind_eq_ok_iff.mpr ⟨t, ht, bind_eq_ok_iff.mpr ⟨_, hplain, rfl⟩⟩⟩
  · obtain ⟨t, ht⟩ := hl.exists_render
    exact ⟨_, Record.render_eq_ok_iff.mpr ⟨h.misuse?_eq_none _, t, _, ht, hplain, rfl⟩⟩

/-- A line of a block that was read can be shown. -/
theorem Line.AsRead.exists_text {table : OpcodeTable} {l : Line} (h : l.AsRead table) :
  ∃ t, l.text = .ok t
  := by
  cases l with
  | action before outer r =>
    obtain ⟨haround, hread, -⟩ := h
    obtain ⟨t, ht⟩ := exists_actionText hread fun _ => exists_texts_of_poolInScope haround
    exact ⟨_, text_action_eq_ok_iff.mpr ⟨t, ht, rfl⟩⟩
  | label depth name => exact ⟨_, rfl⟩

/-- Lines with the same texts are alike one by one, provided the table is legible. -/
theorem forall₂_alike_of_text {table : OpcodeTable} (htable : table.Legible) {ls ls' : List Line}
    {ts : List Text} (h : List.Forall₂ (fun l t => l.text = .ok t) ls ts)
    (h' : List.Forall₂ (fun l t => l.text = .ok t) ls' ts) (hread : ∀ l ∈ ls, l.AsRead table)
    (hread' : ∀ l ∈ ls', l.AsRead table) :
  List.Forall₂ Line.Alike ls ls'
  := by
  induction h generalizing ls' with
  | nil =>
    cases h'
    exact .nil
  | cons hl _ ih =>
    cases h' with
    | cons hl' h' =>
      obtain ⟨hfirst, hrest⟩ := List.forall_mem_cons.mp hread
      obtain ⟨hfirst', hrest'⟩ := List.forall_mem_cons.mp hread'
      exact .cons (Line.alike_of_text htable hfirst hfirst' hl hl') (ih h' hrest hrest')

end Listing

end ActionBlock
