import ActionBlock.Proofs.ListingShape
import ActionBlock.Proofs.UnbrokenTexts

/-!
# Actions on single lines

The lines of a listing are put into one text with a newline between each two. They can be told from
the text if no line has a newline of its own. For a block that was read this depends on nothing but
the names of parameters, which are not quoted: all other texts on a line are numerals, fixed words,
mnemonics or quoted, whatever bytes they were read from.
-/

namespace ActionBlock

open Text

/-! ### Lines of a text -/

namespace Text

theorem join_newline_eq_intercalate (ts : List Text) :
  join "\n" ts = List.intercalate [newline] ts
  := by
  cases ts with
  | nil => rfl
  | cons t ts =>
    induction ts generalizing t with
    | nil => simp [join]
    | cons u ts ih =>
      rw [List.intercalate_cons_cons, ← ih, join, join, List.flatMap_cons, List.append_assoc,
        List.append_assoc]
      rfl

/-- The lines that a text is split into are unbroken. -/
theorem unbroken_of_mem_splitOn {t piece : Text} (h : piece ∈ List.splitOn newline t) :
  piece.Unbroken
  := by
  rw [List.splitOn_eq_splitOnP] at h
  induction t generalizing piece with
  | nil =>
    obtain rfl := List.mem_singleton.mp h
    decide
  | cons c t ih =>
    rw [List.splitOnP_cons_eq_if_modifyHead] at h
    split at h
    · obtain rfl | h := List.mem_cons.mp h
      · decide
      · exact ih h
    · rename_i hc
      obtain ⟨first, rest, hpieces⟩ :=
        List.exists_cons_of_ne_nil (List.splitOnP_ne_nil (· == newline) t)
      rw [hpieces] at h ih
      obtain rfl | h := List.mem_cons.mp h
      · exact unbroken_cons.mpr ⟨by simpa using hc, ih List.mem_cons_self⟩
      · exact ih (List.mem_cons_of_mem _ h)

/-- Texts are told from the text that they are joined to if each of them is on one line. -/
theorem splitOn_join_eq_iff {ts : List Text} (h : ts ≠ []) :
  List.splitOn newline (join "\n" ts) = ts ↔ ∀ t ∈ ts, t.Unbroken
  := by
  constructor
  · intro hsplit t ht
    rw [← hsplit] at ht
    exact unbroken_of_mem_splitOn ht
  · intro hunbroken
    rw [join_newline_eq_intercalate]
    exact List.splitOn_intercalate newline hunbroken h

end Text

/-! ### The text of a line -/

/-- A table whose mnemonics are each on one line. -/
def OpcodeTable.Unbroken (table : OpcodeTable) : Prop :=
  ∀ e ∈ table.entries, e.mnemonic.Unbroken

instance (table : OpcodeTable) : Decidable table.Unbroken :=
  inferInstanceAs (Decidable (∀ e ∈ table.entries, e.mnemonic.Unbroken))

/-- No mnemonic of the shared table has a line break. -/
theorem OpcodeTable.unbroken_shared :
  shared.Unbroken
  := by
  decide +kernel

/-- A record as it is read has an unbroken name, provided its table has. -/
theorem Record.AsRead.unbroken_name {table : OpcodeTable} {r : Record} (htable : table.Unbroken)
    (h : r.AsRead table) :
  r.kind.name.Unbroken
  := by
  cases h with
  | listed hkind hentry =>
    rw [hkind]
    exact htable _ (List.mem_of_find?_eq_some hentry)
  | unlisted hkind =>
    rw [hkind]
    exact unbroken_append.mpr
      ⟨by decide, unbroken_append.mpr ⟨by decide, Numeral.unbroken_hexUpper _ _⟩⟩

namespace Listing

theorem mem_of_constant {constants : List Value} {index c : Value}
    (h : constant constants index = .ok c) :
  c ∈ constants
  := by
  cases hwhole : index.whole? with
  | none =>
    rw [constant, hwhole] at h
    cases h
  | some n =>
    simp only [constant, hwhole] at h
    generalize (if n < 0 then n + (constants.length : Int) else n) = place at h
    split at h
    · rename_i found hfound
      obtain rfl := Except.ok.inj h
      split at hfound
      · cases hfound
      · exact List.mem_of_getElem? hfound
    · cases h

/-- A constant is shown on one line, as it is quoted. -/
theorem unbroken_of_constantText {ts : List Text} {value : Value} {t : Text}
    (h : constantText (.list (ts.map .text)) value = .ok t) :
  t.Unbroken
  := by
  obtain ⟨constants, hconstants, h⟩ := bind_eq_ok_iff.mp h
  obtain rfl := Except.ok.inj hconstants
  obtain ⟨order, -, h⟩ := bind_eq_ok_iff.mp h
  split at h
  · obtain ⟨c, hc, h⟩ := bind_eq_ok_iff.mp h
    obtain ⟨quoted, hquoted, h⟩ := bind_eq_ok_iff.mp h
    obtain rfl := Except.ok.inj h
    obtain ⟨constant, -, rfl⟩ := List.mem_map.mp (mem_of_constant hc)
    exact unbroken_append.mpr ⟨by decide, Value.unbroken_of_quoted (.inl rfl) hquoted⟩
  · obtain rfl := Except.ok.inj h
    decide

/-- A pushed value is shown on one line, with a pool or without. -/
theorem unbroken_of_valueText {ts : List Text} {v : Value} {t : Text} (hv : v.isPushed = true)
    (h : valueText (.list (ts.map .text)) v = .ok t) :
  t.Unbroken
  := by
  obtain ⟨p, hp, h⟩ := bind_eq_ok_iff.mp h
  obtain ⟨shown, hshown, h⟩ := bind_eq_ok_iff.mp h
  have hunbroken : shown.Unbroken :=
    Value.unbroken_of_pushText hv (bind_eq_ok_iff.mpr ⟨p, hp, hshown⟩)
  dsimp only at h
  split at h
  · obtain ⟨named, hnamed, h⟩ := bind_eq_ok_iff.mp h
    obtain rfl := Except.ok.inj h
    exact unbroken_append.mpr ⟨hunbroken, unbroken_of_constantText hnamed⟩
  · obtain rfl := Except.ok.inj h
    exact unbroken_append.mpr ⟨hunbroken, by decide⟩

/-- An action that was read is shown on one line, but for newlines in the names of parameters. -/
theorem unbroken_actionText_iff {table : OpcodeTable} {r : Record} {pool : Option Value} {t : Text}
    (htable : table.Unbroken) (h : r.AsRead table)
    (hpool : ∀ list, pool = some list → ∃ ts : List Text, list = .list (ts.map .text))
    (ht : actionText pool r = .ok t) :
  t.Unbroken ↔ ∀ name ∈ r.operands.paramNames, Unbroken name
  := by
  have hplain : r.name.plain = .ok r.kind.name := by rw [h.name_eq]; rfl
  have hname := h.unbroken_name htable
  obtain ⟨l, hl⟩ := h.exists_layout
  unfold actionText at ht
  split at ht
  · rename_i list values hpush
    obtain ⟨ts, rfl⟩ := hpool list rfl
    obtain ⟨shown, hshown, ht⟩ := bind_eq_ok_iff.mp ht
    obtain ⟨name, hname', ht⟩ := bind_eq_ok_iff.mp ht
    obtain rfl := Except.ok.inj (hname'.symm.trans hplain)
    obtain rfl := Except.ok.inj ht
    have hkinded := hl.kinded
    rw [hpush] at hkinded
    have hunbroken := Operands.unbroken_of_listText hkinded unbroken_of_valueText hshown
    rw [hpush, unbroken_append, unbroken_append]
    exact iff_of_true ⟨⟨hname, by decide⟩, hunbroken⟩ (List.forall_mem_nil _)
  · obtain ⟨-, shown, name, hshown, hname', rfl⟩ := Record.render_eq_ok_iff.mp ht
    obtain rfl := Except.ok.inj (hname'.symm.trans hplain)
    rw [unbroken_append, and_iff_right hname, unbroken_afterSeparator (by decide),
      Operands.unbroken_render_iff hl.kinded hshown]

/-- The names of parameters on a line. -/
def Line.paramNames : Line → List Text
  | action _ _ r => r.operands.paramNames
  | label .. => []

/-- A line of a block that was read has no newline of its own, but for those in the names of
parameters. -/
theorem Line.unbroken_text_iff {table : OpcodeTable} {l : Line} {t : Text}
    (htable : table.Unbroken) (h : l.AsRead table) (ht : l.text = .ok t) :
  t.Unbroken ↔ ∀ name ∈ l.paramNames, Unbroken name
  := by
  have hindent : ∀ depth, (indent depth).Unbroken := unbroken_replicate (by decide)
  cases l with
  | action before outer r =>
    obtain ⟨haround, hread, -⟩ := h
    obtain ⟨shown, hshown, rfl⟩ := text_action_eq_ok_iff.mp ht
    have htab : Unbroken "\t" := by decide
    rw [unbroken_append, unbroken_append, unbroken_append, and_iff_right (hindent _),
      and_iff_right (Numeral.unbroken_nat _), and_iff_right htab]
    exact unbroken_actionText_iff htable hread (fun _ => exists_texts_of_poolInScope haround) hshown
  | label depth name =>
    have hlabels : ∀ name ∈ labelNames, Unbroken name := by decide
    obtain rfl := Except.ok.inj ht
    rw [unbroken_append, unbroken_append]
    exact iff_of_true ⟨⟨hindent depth, hlabels name h⟩, by decide⟩ (List.forall_mem_nil _)

/-- Lines are all on one line if no name of a parameter on any of them has a newline. -/
theorem forall_unbroken_iff {ls : List Line} {ts : List Text}
    (h : List.Forall₂ (fun l t => t.Unbroken ↔ ∀ name ∈ l.paramNames, Unbroken name) ls ts) :
  (∀ t ∈ ts, t.Unbroken) ↔ ∀ l ∈ ls, ∀ name ∈ l.paramNames, Unbroken name
  := by
  induction h with
  | nil => simp
  | cons hline _ ih => rw [List.forall_mem_cons, List.forall_mem_cons, hline, ih]

/-! ### The actions on the lines -/

/-- The record of an action on a line. -/
def Line.record? : Line → Option Record
  | action _ _ r => some r
  | label .. => none

/-- The lines of bodies are, but for the labels, those of the actions in them. -/
theorem filterMap_record?_bodiesLines {bodies : List (List Action)} {outer : List (List Record)}
    (ih : ∀ body ∈ bodies,
      (blockLines outer [] body).filterMap Line.record? = (allActions body).map Action.record)
    (names : List String) :
  (bodiesLines outer names bodies).filterMap Line.record? = (bodiesActions bodies).map Action.record
  := by
  induction bodies generalizing names with
  | nil =>
    rw [bodiesLines_nil, bodiesActions_nil]
    rfl
  | cons body bodies ihbodies =>
    obtain ⟨hbody, hbodies⟩ := List.forall_mem_cons.mp ih
    have hlabels : (labelLines outer.length names body).filterMap Line.record? = [] := by
      cases body <;> cases names <;> rfl
    rw [bodiesLines_cons, bodiesActions_cons, List.filterMap_append, List.filterMap_append, hlabels,
      hbody, ihbodies hbodies, List.map_append, List.nil_append]

/-- The lines that are no labels are those of the actions at all levels, in order. -/
theorem filterMap_record?_blockLines (block : List Action) (outer : List (List Record))
    (before : List Record) :
  (blockLines outer before block).filterMap Line.record? = (allActions block).map Action.record
  := by
  induction block using Action.block_induct generalizing outer before with
  | h block ih =>
    induction block generalizing before with
    | nil =>
      rw [blockLines_nil, allActions_nil]
      rfl
    | cons a block ihblock =>
      obtain ⟨iha, ihrest⟩ := List.forall_mem_cons.mp ih
      have hbodies := filterMap_record?_bodiesLines
        (fun body hbody => iha body hbody ((before ++ [a.record]) :: outer) [])
        (bodyLabels a.record a.bodies)
      rw [blockLines_cons, allActions_cons, List.filterMap_cons_some (f := Line.record?) rfl,
        List.filterMap_append,
        hbodies, ihblock ihrest, List.map_cons, List.map_append]

/-- The names of parameters on the lines of a block are those of its actions at all levels. -/
theorem forall_mem_paramNames_iff {P : Text → Prop} {block : List Action} :
  (∀ l ∈ lines block, ∀ name ∈ l.paramNames, P name)
    ↔ ∀ a ∈ allActions block, ∀ name ∈ a.record.operands.paramNames, P name
  := by
  have hline : ∀ l : Line, (∀ name ∈ l.paramNames, P name)
      ↔ ∀ r ∈ l.record?, ∀ name ∈ r.operands.paramNames, P name := by
    intro l
    cases l <;> simp [Line.paramNames, Line.record?]
  have hrecords : (∀ l ∈ lines block, ∀ name ∈ l.paramNames, P name)
      ↔ ∀ r ∈ (lines block).filterMap Line.record?, ∀ name ∈ r.operands.paramNames, P name := by
    simp only [hline, List.forall_mem_filterMap, Option.mem_def]
  rw [hrecords, lines, filterMap_record?_blockLines, List.forall_mem_map]

end Listing

/-! ### The theorem -/

/-- A block that was read has a listing, and a line of it has a newline if and only if the name of a
parameter on it has one. So the lines can be told from the text that they are joined to if and only
if there is no newline in the names of parameters at any level of the block, whatever the other
texts in it are. The mnemonics of the table must have none, as those of the standard table do not.
-/
theorem splitOn_join_listing_iff {table : OpcodeTable} {block : List Action}
    (htable : table.Unbroken) (hread : table.Reads block) :
  ∃ ts, listing block = .ok ts
    ∧ List.Forall₂ (fun l t => l.text = .ok t ∧ (t.Unbroken ↔ ∀ name ∈ l.paramNames, Unbroken name))
      (Listing.lines block) ts
    ∧ (ts ≠ [] → (List.splitOn newline (Text.join "\n" ts) = ts
      ↔ ∀ a ∈ allActions block, ∀ name ∈ a.record.operands.paramNames, Unbroken name))
  := by
  obtain ⟨strict, s, size, cursor, hread⟩ := hread
  obtain ⟨ts, hts, htexts, hlines⟩ :=
    Listing.exists_listing (Decoder.blockAsRead_of_readBlock hread)
  have hunbroken := ((List.forall₂_and_left _ _).mpr ⟨hlines, htexts⟩).imp fun l t h =>
    And.intro h.2 (Listing.Line.unbroken_text_iff htable h.1 h.2)
  refine ⟨ts, hts, hunbroken, fun hne => ?_⟩
  rw [splitOn_join_eq_iff hne, ← Listing.forall_mem_paramNames_iff]
  exact Listing.forall_unbroken_iff (hunbroken.imp fun _ _ => And.right)

/-- A function of a name with a parameter of a name, and no actions. -/
def functionOf (name param : Bytes) : Bytes :=
  [0x9B, UInt8.ofNat (name.length + param.length + 6), 0] ++ name ++ [0, 1, 0] ++ param
    ++ [0, 0, 0] ++ [0]

/-- A newline in the name of a function is escaped. -/
theorem splitOn_join_listing_iff_functionOf :
  ∃ ts, listing (standardBlock (functionOf [0x66, 0x0A] [0x6D, 0x6E])) = .ok ts
    ∧ ts.length = 1 ∧ List.splitOn newline (Text.join "\n" ts) = ts
  := by
  have hread : OpcodeTable.shared.Reads (standardBlock (functionOf [0x66, 0x0A] [0x6D, 0x6E])) :=
    reads_standardBlock (by decide +kernel)
  obtain ⟨ts, hts, hlines, hsplit⟩ :=
    splitOn_join_listing_iff OpcodeTable.unbroken_shared hread
  have hlength : ts.length = 1 := hlines.length_eq.symm.trans (by decide +kernel)
  have hne : ts ≠ [] := by
    rintro rfl
    cases hlength
  exact ⟨ts, hts, hlength, (hsplit hne).mpr (by decide +kernel)⟩

/-- A newline in the name of a parameter is not: the function stands on two lines. -/
theorem splitOn_join_listing_newline :
  listing (standardBlock (functionOf [0x66] [0x6D, 0x0A, 0x6E]))
      = .ok [Text.ofString "0\tdefine_function 'f' (m\nn)"]
    ∧ List.splitOn newline (Text.join "\n" [Text.ofString "0\tdefine_function 'f' (m\nn)"])
      = [Text.ofString "0\tdefine_function 'f' (m", Text.ofString "n)"]
  := by
  decide +kernel

end ActionBlock
