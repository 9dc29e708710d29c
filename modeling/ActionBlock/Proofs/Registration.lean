import ActionBlock.Opcode.Standard
import ActionBlock.Proofs.Running
import Mathlib.Data.List.DropRight
import Mathlib.Data.List.Nodup
import Mathlib.Data.List.TakeWhile

/-!
# Registering and consulting

A table is found in some state after any calls of its operations, of which each may fail. What holds
of the table then is derived from what one call can do: a registration adds an entry that clashes
with none, under its code and under its mnemonic, or fails and changes nothing; a consultation
closes the table and changes no entry.

An entry is registered whether or not a class can be made of it. No class can be named by a mnemonic
with a NUL or with a surrogate, and there may be none with the base and the options of the entry. A
table with such an entry cannot be closed: every consultation fails, and registration stays
possible. Apart from such tables, the first consultation closes a table for good.
-/

namespace ActionBlock

/-! ### Calls -/

/-- A call of an operation of a table. -/
inductive TableCall where
  | register (entry : OpcodeEntry)
  | freeze
  | lookup (code : Int)
  | lookupMnemonic (mnemonic : Text)
  | instructionClass (entry : OpcodeEntry)
  | getInstruction (mnemonic : Text)

namespace TableCall

/-- Whether a call consults the table, or closes it. -/
def consults : TableCall → Bool
  | register _ => false
  | _ => true

/-- What a call gives, and the table that it leaves. -/
def perform : TableCall → TableOp (Option OpcodeEntry)
  | register entry => some <$> OpcodeTable.register entry
  | freeze => (fun _ => none) <$> OpcodeTable.freeze
  | lookup code => some <$> OpcodeTable.lookup code
  | lookupMnemonic mnemonic => some <$> OpcodeTable.lookupMnemonic mnemonic
  | instructionClass entry => some <$> OpcodeTable.instructionClass entry
  | getInstruction mnemonic => some <$> OpcodeTable.getInstruction mnemonic

end TableCall

namespace OpcodeTable

/-- The table after calls, one after the other, whether they fail or not. -/
def after (calls : List TableCall) (t : OpcodeTable) : OpcodeTable :=
  calls.foldl (fun t call => (call.perform.run t).2) t

end OpcodeTable

/-- Whether a class can be made of an entry: its mnemonic can name one, since it has no NUL and no
surrogate, and nothing is wrong with its base and its options. -/
structure OpcodeEntry.Makeable (e : OpcodeEntry) : Prop where
  mnemonic : ∀ c ∈ e.mnemonic, c ≠ 0 ∧ c.isSurrogate = false
  making : e.making.refusal? = none

/-- Whether a class can be made of every entry of a table. -/
def OpcodeTable.Makeable (t : OpcodeTable) : Prop := ∀ e ∈ t.entries, e.Makeable

/-- A text has no run of surrogates exactly when none of its code points is one. -/
theorem Utf8.surrogates?_eq_none_iff {t : Text} :
  surrogates? t = none ↔ ∀ c ∈ t, c.isSurrogate = false
  := by
  have hnil : t.dropWhile (!·.isSurrogate) = [] ↔ ∀ c ∈ t, c.isSurrogate = false := by
    simp only [List.dropWhile_eq_nil_iff, Bool.not_eq_true']
  rw [← hnil, surrogates?]
  cases t.dropWhile (!·.isSurrogate) with
  | nil => simp only
  | cons c rest => simp only [reduceCtorEq]

/-- A mnemonic can name a class unless it has a NUL or a surrogate. -/
theorem classNameError?_eq_none_iff {mnemonic : Text} :
  classNameError? mnemonic = none ↔ ∀ c ∈ mnemonic, c ≠ 0 ∧ c.isSurrogate = false
  := by
  rw [forall₂_and, ← Utf8.surrogates?_eq_none_iff, classNameError?]
  cases Utf8.surrogates? mnemonic with
  | some run => simp only [reduceCtorEq, and_false]
  | none =>
    have hzero : mnemonic.contains 0 = true ↔ ¬ ∀ c ∈ mnemonic, c ≠ 0 := by
      rw [List.contains_iff_mem]
      constructor
      · intro hmem hall
        exact hall 0 hmem rfl
      · intro hall
        by_contra hmem
        apply hall
        rintro c hc rfl
        exact hmem hc
    simp only [hzero, and_true]
    split
    · rename_i h
      simp only [reduceCtorEq, h]
    · rename_i h
      simp only [true_iff]
      apply not_not.mp h

/-- A class can be made of an entry if nothing is in the way of it. -/
theorem OpcodeEntry.classError?_eq_none_iff {e : OpcodeEntry} :
  e.classError? = none ↔ e.Makeable
  := by
  have hmakeable : e.Makeable
      ↔ classNameError? e.mnemonic = none ∧ e.making.refusal? = none := by
    rw [classNameError?_eq_none_iff]
    exact ⟨fun h => ⟨h.mnemonic, h.making⟩, fun h => ⟨h.1, h.2⟩⟩
  rw [hmakeable, classError?]
  cases e.making.refusal? with
  | none => simp only [Option.map_none, Option.any_none, Bool.false_eq_true, if_false,
      Option.or_none, and_true]
  | some refusal =>
    simp only [Option.map_some, Option.any_some, reduceCtorEq, and_false, iff_false]
    split
    · simp only [reduceCtorEq, not_false_eq_true]
    · cases classNameError? e.mnemonic <;> simp only [Option.or_some, reduceCtorEq,
        not_false_eq_true]

namespace OpcodeTable

variable {t t' : OpcodeTable} {e : OpcodeError} {call : TableCall}

/-- The classes of a table can be made exactly when that of each entry can. -/
theorem makeable_iff :
  t.Makeable ↔ ∀ e ∈ t.entries, e.classError? = none
  := by
  simp only [Makeable, OpcodeEntry.classError?_eq_none_iff]

/-! ### What a call can do -/

/-- Whether a table takes an entry: it is open, the code is a byte, neither the code nor the
mnemonic has an entry, and a code without a length after it has the base of all actions. -/
structure Admits (t : OpcodeTable) (entry : OpcodeEntry) : Prop where
  isOpen : t.frozen = false
  byte : 0 ≤ entry.code ∧ entry.code ≤ 255
  code : t.find? entry.code = none
  mnemonic : t.findMnemonic? entry.mnemonic = none
  plain : entry.code < firstLongCode → entry.hasPlainBase = true

/-- The table with one more entry. -/
def added (t : OpcodeTable) (entry : OpcodeEntry) : OpcodeTable :=
  { t with
    entries := t.entries ++ [entry]
    mnemonics := t.mnemonics ++ [(entry.mnemonic, entry)] }

/-- A registration fails and changes nothing, or it adds an entry that the table takes. -/
theorem run_register (t : OpcodeTable) (entry : OpcodeEntry) :
  (¬ t.Admits entry ∧ ∃ e, (register entry).run t = (.error e, t))
    ∨ t.Admits entry ∧ (register entry).run t = (.ok entry.normal, t.added entry.normal)
  := by
  rw [register, run_bind_of_ok run_get]
  by_cases hfrozen : t.frozen = true
  · rw [if_pos hfrozen]
    refine .inl ⟨fun h => ?_, _, rfl⟩
    rw [h.isOpen] at hfrozen
    cases hfrozen
  by_cases hbyte : 0 ≤ entry.code ∧ entry.code ≤ 255
  swap
  · rw [if_neg hfrozen, if_pos hbyte]
    exact .inl ⟨fun h => hbyte h.byte, _, rfl⟩
  rw [if_neg hfrozen, if_neg (not_not.mpr hbyte)]
  cases hcode : t.find? entry.normal.code with
  | some other =>
    left
    refine ⟨fun h => ?_, .codeTaken entry.normal.code other.mnemonic, ?_⟩
    · cases hcode.symm.trans h.code
    · simp only [hcode]
      rfl
  | none =>
    cases hname : t.mnemonics.lookup entry.normal.mnemonic with
    | some other =>
      left
      refine ⟨fun h => ?_, .mnemonicTaken entry.normal.mnemonic, ?_⟩
      · cases hname.symm.trans h.mnemonic
      · simp only [hcode, hname, Option.isSome_some, if_true]
        rfl
    | none =>
      have hlong : entry.normal.hasOperands = true ↔ firstLongCode ≤ entry.code :=
        decide_eq_true_iff
      by_cases hroom : ¬ entry.normal.hasOperands ∧ ¬ entry.normal.hasPlainBase
      · left
        refine ⟨fun h => ?_, .noRoomForOperands entry.normal.code, ?_⟩
        · apply hroom.2
          apply h.plain
          rw [hlong] at hroom
          omega
        · simp only [hcode, hname, Option.isSome_none, Bool.false_eq_true, if_false, if_pos hroom]
          rfl
      · right
        rw [Bool.not_eq_true] at hfrozen
        refine ⟨⟨hfrozen, hbyte, hcode, hname, ?_⟩, ?_⟩
        · intro hshort
          by_contra hbase
          apply hroom
          refine ⟨?_, hbase⟩
          rw [hlong]
          omega
        · simp only [hcode, hname, Option.isSome_none, Bool.false_eq_true, if_false, if_neg hroom]
          rfl

/-- The table with a class for each entry, closed. -/
def closed (t : OpcodeTable) : OpcodeTable :=
  { t with classes := keyed t.entries, frozen := true }

theorem run_freeze_of_frozen (h : t.frozen = true) :
  freeze.run t = (.ok (), t)
  := by
  rw [freeze, run_bind_of_ok run_get, if_pos h]
  rfl

/-- An open table is closed if classes can be made of all of its entries. -/
theorem run_freeze_of_makeable (hopen : t.frozen = false) (h : t.Makeable) :
  freeze.run t = (.ok (), t.closed)
  := by
  rw [makeable_iff] at h
  have hall : t.entries.takeWhile (fun e => e.classError?.isNone) = t.entries := by
    rw [List.takeWhile_eq_self_iff]
    intro e he
    rw [h e he, Option.isNone_none]
  have hnone : t.entries.findSome? OpcodeEntry.classError? = none := by
    rw [List.findSome?_eq_none_iff]
    exact h
  rw [freeze, run_bind_of_ok run_get, hopen, hall, hnone]
  rfl

/-- An open table stays open if no class can be made of some entry of it. -/
theorem run_freeze_of_not_makeable (hopen : t.frozen = false) (h : ¬ t.Makeable) :
  ∃ entry ∈ t.entries, ∃ e classes, entry.classError? = some e
    ∧ freeze.run t = (.error e, { t with classes := classes })
  := by
  cases hsome : t.entries.findSome? OpcodeEntry.classError? with
  | none =>
    rw [List.findSome?_eq_none_iff] at hsome
    cases h (makeable_iff.mpr hsome)
  | some e =>
    obtain ⟨entry, hentry, herror⟩ := List.exists_of_findSome?_eq_some hsome
    use entry, hentry, e, keyed (t.entries.takeWhile fun e => e.classError?.isNone), herror
    rw [freeze, run_bind_of_ok run_get, if_neg (Bool.not_eq_true _ ▸ hopen)]
    simp only [hsome]
    rfl

/-- What consulting an open table or a closed one begins with. -/
theorem frozen_of_run_freeze (h : freeze.run t = (.ok (), t')) :
  t'.frozen = true
  := by
  by_cases hfrozen : t.frozen = true
  · rw [run_freeze_of_frozen hfrozen] at h
    cases h
    exact hfrozen
  rw [Bool.not_eq_true] at hfrozen
  by_cases hmake : t.Makeable
  · rw [run_freeze_of_makeable hfrozen hmake] at h
    cases h
    rfl
  · obtain ⟨_, _, e, classes, _, hrun⟩ := run_freeze_of_not_makeable hfrozen hmake
    rw [hrun] at h
    cases h

/-- A lookup by code closes the table and answers from its entries. -/
theorem run_lookup (h : freeze.run t = (.ok (), t')) (code : Int) :
  (lookup code).run t = ((t'.find? code).elim (.error (.unknownCode code)) .ok, t')
  := by
  rw [lookup, run_bind_of_ok h, run_bind_of_ok run_get]
  cases t'.find? code <;> rfl

/-- A lookup by mnemonic closes the table and answers from its entries. -/
theorem run_lookupMnemonic (h : freeze.run t = (.ok (), t')) (mnemonic : Text) :
  (lookupMnemonic mnemonic).run t
    = ((t'.findMnemonic? mnemonic).elim (.error (.unknownMnemonic (normalMnemonic mnemonic))) .ok,
      t')
  := by
  rw [lookupMnemonic, run_bind_of_ok h, run_bind_of_ok run_get]
  cases t'.findMnemonic? mnemonic <;> rfl

/-- Asking for a class closes the table and answers from the classes made then. -/
theorem run_instructionClass (h : freeze.run t = (.ok (), t')) (entry : OpcodeEntry) :
  (instructionClass entry).run t
    = ((t'.classes.lookup entry.mnemonic).elim (.error (.noClass entry.mnemonic)) .ok, t')
  := by
  rw [instructionClass, run_bind_of_ok h, run_bind_of_ok run_get]
  cases t'.classes.lookup entry.mnemonic <;> rfl

/-- Asking for an instruction looks up its mnemonic and then its class. -/
theorem run_getInstruction (h : freeze.run t = (.ok (), t')) (mnemonic : Text) :
  (getInstruction mnemonic).run t
    = ((t'.findMnemonic? mnemonic).elim (.error (.unknownMnemonic (normalMnemonic mnemonic)))
      fun entry => (t'.classes.lookup entry.mnemonic).elim (.error (.noClass entry.mnemonic)) .ok,
      t')
  := by
  have hfirst := run_lookupMnemonic h mnemonic
  have hagain := run_freeze_of_frozen (frozen_of_run_freeze h)
  rw [getInstruction]
  cases hfind : t'.findMnemonic? mnemonic with
  | none =>
    rw [hfind] at hfirst
    rw [run_bind_of_error hfirst]
    rfl
  | some entry =>
    rw [hfind] at hfirst
    rw [run_bind_of_ok hfirst, run_instructionClass hagain]
    rfl

end OpcodeTable

namespace TableCall

open OpcodeTable

variable {t t' : OpcodeTable} {call : TableCall}

/-- A consultation fails if the table cannot be closed. -/
theorem run_perform_of_error {e : OpcodeError} (hcall : call.consults = true)
    (h : OpcodeTable.freeze.run t = (.error e, t')) :
  call.perform.run t = (.error e, t')
  := by
  cases call with
  | register entry => cases hcall
  | freeze => rw [perform, run_map, h]; rfl
  | lookup code => rw [perform, run_map, OpcodeTable.lookup, run_bind_of_error h]; rfl
  | lookupMnemonic mnemonic =>
    rw [perform, run_map, OpcodeTable.lookupMnemonic, run_bind_of_error h]
    rfl
  | instructionClass entry =>
    rw [perform, run_map, OpcodeTable.instructionClass, run_bind_of_error h]
    rfl
  | getInstruction mnemonic =>
    have hfirst : (OpcodeTable.lookupMnemonic mnemonic).run t = (.error e, t') := by
      rw [OpcodeTable.lookupMnemonic, run_bind_of_error h]
    rw [perform, run_map, OpcodeTable.getInstruction, run_bind_of_error hfirst]
    rfl

/-- A consultation changes a table only by closing it. -/
theorem perform_snd (hcall : call.consults = true) (t : OpcodeTable) :
  (call.perform.run t).2 = (OpcodeTable.freeze.run t).2
  := by
  rcases h : OpcodeTable.freeze.run t with ⟨e | _, t'⟩
  · rw [run_perform_of_error hcall h]
  cases call with
  | register entry => cases hcall
  | freeze => rw [perform, run_map, h]
  | lookup code => rw [perform, run_map, run_lookup h]
  | lookupMnemonic mnemonic => rw [perform, run_map, run_lookupMnemonic h]
  | instructionClass entry => rw [perform, run_map, run_instructionClass h]
  | getInstruction mnemonic => rw [perform, run_map, run_getInstruction h]

end TableCall

/-! ### What holds of every table -/

/-- Members with keys of their own are found by their keys. -/
theorem find?_key_eq_some_iff {α κ : Type} [DecidableEq κ] {key : α → κ} {l : List α}
    (h : (l.map key).Nodup) {k : κ} {a : α} :
  l.find? (fun x => key x = k) = some a ↔ a ∈ l ∧ key a = k
  := by
  have hkey {b : α} (hb : l.find? (fun x => key x = k) = some b) : b ∈ l ∧ key b = k := by
    use List.mem_of_find?_eq_some hb
    simpa only [decide_eq_true_eq] using List.find?_some hb
  constructor
  · apply hkey
  · rintro ⟨hmem, rfl⟩
    cases hfind : l.find? (fun x => key x = key a) with
    | none => cases List.find?_eq_none.mp hfind a hmem (decide_eq_true rfl)
    | some b =>
      obtain ⟨hb, hsame⟩ := hkey hfind
      rw [List.inj_on_of_nodup_map h hb hmem hsame]

/-- A member that is not found by its key can be added. -/
theorem nodup_map_concat {α κ : Type} [DecidableEq κ] {key : α → κ} {l : List α} {a : α}
    (h : (l.map key).Nodup) (hnone : l.find? (fun x => key x = key a) = none) :
  ((l ++ [a]).map key).Nodup
  := by
  rw [List.map_append, List.map_singleton, ← List.concat_eq_append]
  apply h.concat
  intro hmem
  obtain ⟨b, hb, hsame⟩ := List.mem_map.mp hmem
  exact List.find?_eq_none.mp hnone b hb (decide_eq_true hsame)

/-- What a table promises of an entry. -/
structure OpcodeEntry.WellMade (e : OpcodeEntry) : Prop where
  byte : 0 ≤ e.code ∧ e.code ≤ 255
  mnemonic : e.mnemonic.getLast? ≠ some (CodePoint.ofChar '_')
  hasOperands : e.hasOperands = true ↔ 0x80 ≤ e.code
  plain : e.code < 0x80 → e.hasPlainBase = true

/-- Underscores at the end of a mnemonic do not count. -/
theorem normalMnemonic_append_replicate (mnemonic : Text) (n : Nat) :
  normalMnemonic (mnemonic ++ List.replicate n (CodePoint.ofChar '_')) = normalMnemonic mnemonic
  := by
  induction n with
  | zero => rw [List.replicate_zero, List.append_nil]
  | succ n ih =>
    rw [List.replicate_succ', ← List.append_assoc, ← ih]
    apply List.rdropWhile_concat_pos
    apply beq_self_eq_true

/-- Normalising a mnemonic twice is normalising it once. -/
theorem normalMnemonic_normalMnemonic (mnemonic : Text) :
  normalMnemonic (normalMnemonic mnemonic) = normalMnemonic mnemonic
  := List.rdropWhile_idempotent _ _

/-- A mnemonic stays as it is if no underscore is at its end. -/
theorem normalMnemonic_eq_self_iff {mnemonic : Text} :
  normalMnemonic mnemonic = mnemonic ↔ mnemonic.getLast? ≠ some (CodePoint.ofChar '_')
  := by
  apply Iff.trans List.rdropWhile_eq_self_iff
  rcases List.eq_nil_or_concat mnemonic with rfl | ⟨rest, c, rfl⟩
  · simp
  · simp

/-- An entry within its bounds is well made once it is normalised. -/
theorem OpcodeEntry.wellMade_normal {e : OpcodeEntry} (hbyte : 0 ≤ e.code ∧ e.code ≤ 255)
    (hplain : e.code < firstLongCode → e.hasPlainBase = true) :
  e.normal.WellMade where
  byte := hbyte
  mnemonic := normalMnemonic_eq_self_iff.mp (normalMnemonic_normalMnemonic e.mnemonic)
  hasOperands := decide_eq_true_iff
  plain := hplain

namespace OpcodeTable

variable {t : OpcodeTable}

/-- A table as its operations leave it. -/
structure Sound (t : OpcodeTable) : Prop where
  wellMade : ∀ e ∈ t.entries, e.WellMade
  codes : (t.entries.map OpcodeEntry.code).Nodup
  names : (t.entries.map OpcodeEntry.mnemonic).Nodup
  mnemonics : t.mnemonics = keyed t.entries
  closed : t.frozen = true → t.Makeable ∧ t.classes = keyed t.entries

/-- An empty table is sound. -/
theorem sound_empty (id : TableId) :
  (empty id).Sound where
  wellMade := List.forall_mem_nil _
  codes := List.nodup_nil
  names := List.nodup_nil
  mnemonics := rfl
  closed h := by cases h

/-- Entries keyed by their mnemonics are found as the first one with the mnemonic. -/
theorem lookup_keyed (entries : List OpcodeEntry) (mnemonic : Text) :
  (keyed entries).lookup mnemonic = entries.find? (·.mnemonic = mnemonic)
  := by
  induction entries with
  | nil => rfl
  | cons e entries ih =>
    rw [keyed, List.map_cons, List.lookup_cons, List.find?_cons, ← keyed, ih]
    by_cases h : e.mnemonic = mnemonic
    · simp only [h, beq_self_eq_true, decide_true]
    · rw [beq_false_of_ne (Ne.symm h), decide_eq_false h]

namespace Sound

/-- Entries are found by their codes. -/
theorem find?_eq_some_iff (h : t.Sound) {code : Int} {e : OpcodeEntry} :
  t.find? code = some e ↔ e ∈ t.entries ∧ e.code = code
  := find?_key_eq_some_iff h.codes

/-- Entries are found by their mnemonics, underscores at the end of which do not count. -/
theorem findMnemonic?_eq_some_iff (h : t.Sound) {mnemonic : Text} {e : OpcodeEntry} :
  t.findMnemonic? mnemonic = some e ↔ e ∈ t.entries ∧ e.mnemonic = normalMnemonic mnemonic
  := by
  rw [findMnemonic?, h.mnemonics, lookup_keyed]
  exact find?_key_eq_some_iff h.names

/-- A registration keeps a table sound. -/
theorem register (h : t.Sound) (entry : OpcodeEntry) :
  ((register entry).run t).2.Sound
  := by
  obtain ⟨-, e, hrun⟩ | ⟨hadmits, hrun⟩ := run_register t entry
  · rw [hrun]
    exact h
  have hname : t.entries.find? (·.mnemonic = entry.normal.mnemonic) = none := by
    rw [← lookup_keyed, ← h.mnemonics]
    exact hadmits.mnemonic
  rw [hrun]
  constructor
  case wellMade =>
    intro e he
    rcases List.mem_append.mp he with he | he
    · exact h.wellMade e he
    · rw [List.mem_singleton.mp he]
      exact OpcodeEntry.wellMade_normal hadmits.byte hadmits.plain
  case codes => exact nodup_map_concat h.codes hadmits.code
  case names => exact nodup_map_concat h.names hname
  case mnemonics =>
    rw [added, h.mnemonics, keyed, keyed, List.map_append, List.map_singleton]
  case closed =>
    intro hfrozen
    cases hadmits.isOpen.symm.trans hfrozen

/-- Classes do not matter for a table that is open. -/
theorem with_classes (h : t.Sound) (hopen : t.frozen = false)
    (classes : List (Text × OpcodeEntry)) :
  { t with classes := classes }.Sound where
  wellMade := h.wellMade
  codes := h.codes
  names := h.names
  mnemonics := h.mnemonics
  closed hfrozen := by
    rw [hopen] at hfrozen
    cases hfrozen

/-- Closing a sound table whose classes can be made leaves it sound. -/
theorem closed_of_makeable (h : t.Sound) (hmake : t.Makeable) :
  t.closed.Sound where
  wellMade := h.wellMade
  codes := h.codes
  names := h.names
  mnemonics := h.mnemonics
  closed _ := ⟨hmake, rfl⟩

/-- A sound table is closed by closing it, whether it was open or not. -/
theorem run_freeze (h : t.Sound) (hmake : t.Makeable) :
  freeze.run t = (.ok (), t.closed)
  := by
  by_cases hfrozen : t.frozen = true
  · have hclosed : t.closed = t := by
      rw [OpcodeTable.closed, ← (h.closed hfrozen).2, ← hfrozen]
    rw [run_freeze_of_frozen hfrozen, hclosed]
  · rw [Bool.not_eq_true] at hfrozen
    exact run_freeze_of_makeable hfrozen hmake

/-- A sound table with a mnemonic that names no class cannot be closed. -/
theorem run_freeze_error (h : t.Sound) (hmake : ¬ t.Makeable) :
  t.frozen = false
    ∧ ∃ entry ∈ t.entries, ∃ e classes, entry.classError? = some e
      ∧ freeze.run t = (.error e, { t with classes := classes })
  := by
  have hopen : t.frozen = false := by
    rw [← Bool.not_eq_true]
    intro hfrozen
    exact hmake (h.closed hfrozen).1
  exact ⟨hopen, run_freeze_of_not_makeable hopen hmake⟩

/-- Every call keeps a table sound. -/
theorem perform (h : t.Sound) (call : TableCall) :
  (call.perform.run t).2.Sound
  := by
  by_cases hcall : call.consults = true
  · rw [TableCall.perform_snd hcall]
    by_cases hmake : t.Makeable
    · rw [h.run_freeze hmake]
      exact h.closed_of_makeable hmake
    · obtain ⟨hopen, _, _, _, _, _, hrun⟩ := h.run_freeze_error hmake
      rw [hrun]
      exact h.with_classes hopen _
  · cases call with
    | register entry =>
      rw [TableCall.perform, run_map]
      exact h.register entry
    | _ => cases hcall rfl

/-- Every run of calls keeps a table sound. -/
theorem after (h : t.Sound) (calls : List TableCall) :
  (t.after calls).Sound
  := by
  induction calls generalizing t with
  | nil => exact h
  | cons call calls ih => exact ih (h.perform call)

end Sound

/-! ### Runs -/

/-- A call leaves a closed table as it is. -/
theorem perform_of_frozen (h : t.frozen = true) (call : TableCall) :
  (call.perform.run t).2 = t
  := by
  by_cases hcall : call.consults = true
  · rw [TableCall.perform_snd hcall, run_freeze_of_frozen h]
  · cases call with
    | register entry =>
      rw [TableCall.perform, run_map]
      obtain ⟨-, e, hrun⟩ | ⟨hadmits, -⟩ := run_register t entry
      · rw [hrun]
      · cases h.symm.trans hadmits.isOpen
    | _ => cases hcall rfl

/-- No call changes a closed table. -/
theorem after_of_frozen (h : t.frozen = true) (calls : List TableCall) :
  t.after calls = t
  := by
  induction calls with
  | nil => rfl
  | cons call calls ih =>
    rw [after, List.foldl_cons, perform_of_frozen h]
    exact ih

/-- A call keeps the entries of a table. -/
theorem entries_subset_perform (t : OpcodeTable) (call : TableCall) :
  t.entries ⊆ (call.perform.run t).2.entries
  := by
  by_cases hcall : call.consults = true
  · rw [TableCall.perform_snd hcall]
    by_cases hfrozen : t.frozen = true
    · rw [run_freeze_of_frozen hfrozen]
      apply List.Subset.refl
    rw [Bool.not_eq_true] at hfrozen
    by_cases hmake : t.Makeable
    · rw [run_freeze_of_makeable hfrozen hmake]
      apply List.Subset.refl
    · obtain ⟨_, _, _, _, _, hrun⟩ := run_freeze_of_not_makeable hfrozen hmake
      rw [hrun]
      apply List.Subset.refl
  · cases call with
    | register entry =>
      rw [TableCall.perform, run_map]
      obtain ⟨-, e, hrun⟩ | ⟨-, hrun⟩ := run_register t entry
      · rw [hrun]
        apply List.Subset.refl
      · rw [hrun]
        apply List.subset_append_left
    | _ => cases hcall rfl

/-- No call takes an entry away. -/
theorem entries_subset_after (t : OpcodeTable) (calls : List TableCall) :
  t.entries ⊆ (t.after calls).entries
  := by
  induction calls generalizing t with
  | nil => apply List.Subset.refl
  | cons call calls ih => exact List.Subset.trans (entries_subset_perform t call) (ih _)

/-- A table has what another one has and one more entry, with its mnemonic and its flag of operands
brought into their normal form. -/
structure Stores (t t' : OpcodeTable) (entry : OpcodeEntry) : Prop where
  code : t'.find? entry.code = some entry.normal
  mnemonic : t'.findMnemonic? entry.mnemonic = some entry.normal
  other_code : ∀ code, code ≠ entry.code → t'.find? code = t.find? code
  other_mnemonic : ∀ mnemonic, normalMnemonic mnemonic ≠ normalMnemonic entry.mnemonic →
    t'.findMnemonic? mnemonic = t.findMnemonic? mnemonic

/-- The index of codes and the index of mnemonics of a table are inverse to each other, and its list
has each entry once, in the order of the codes. -/
structure Consistent (t : OpcodeTable) : Prop where
  wellMade : ∀ code e, t.find? code = some e → e.WellMade
  find?_mnemonic : ∀ code e, t.find? code = some e →
    e.code = code ∧ t.findMnemonic? e.mnemonic = some e
  findMnemonic?_code : ∀ mnemonic e, t.findMnemonic? mnemonic = some e →
    e.mnemonic = normalMnemonic mnemonic ∧ t.find? e.code = some e
  sorted : t.toList.Pairwise fun a b => a.code < b.code
  mem_toList : ∀ e, e ∈ t.toList ↔ t.find? e.code = some e
  size_toList : t.toList.length = t.size

/-- Every consultation of a table closes it for good, and finds what the table has. -/
structure Answers (t : OpcodeTable) : Prop where
  closes : ∀ (call : TableCall) later, call.consults = true → t.after (call :: later) = t.closed
  code : ∀ code, t.hasCode code = true →
    ∃ e, e.code = code ∧ (lookup code).run t = (.ok e, t.closed)
      ∧ (lookupMnemonic e.mnemonic).run t = (.ok e, t.closed)
  unknown_code : ∀ code, t.hasCode code = false →
    (lookup code).run t = (.error (.unknownCode code), t.closed)
  mnemonic : ∀ mnemonic, t.hasMnemonic mnemonic = true →
    ∃ e, e.mnemonic = normalMnemonic mnemonic ∧ (lookup e.code).run t = (.ok e, t.closed)
      ∧ (instructionClass e).run t = (.ok e, t.closed)
      ∧ ∀ n, (lookupMnemonic (mnemonic ++ List.replicate n (CodePoint.ofChar '_'))).run t
          = (.ok e, t.closed)
        ∧ (getInstruction (mnemonic ++ List.replicate n (CodePoint.ofChar '_'))).run t
          = (.ok e, t.closed)
  unknown_mnemonic : ∀ mnemonic, t.hasMnemonic mnemonic = false →
    (lookupMnemonic mnemonic).run t
      = (.error (.unknownMnemonic (normalMnemonic mnemonic)), t.closed)

/-- Every consultation of a table fails, since no class can be made of some entry of it, and the
table stays open. -/
structure Stuck (t : OpcodeTable) : Prop where
  fails : ∀ call : TableCall, call.consults = true →
    ∃ entry ∈ t.entries, ∃ e classes, entry.classError? = some e
      ∧ call.perform.run t = (.error e, { t with classes := classes })
  stays : ∀ later, (t.after later).frozen = false

/-- An admitted entry is stored in its normal form. -/
theorem Admits.stores {entry : OpcodeEntry} (h : t.Admits entry) :
  t.Stores (t.added entry.normal) entry where
  code := by
    rw [find?, added, List.find?_append, show t.entries.find? _ = none from h.code, Option.none_or,
      List.find?_singleton]
    exact if_pos (decide_eq_true_iff.mpr rfl)
  mnemonic := by
    rw [findMnemonic?, added, List.lookup_append,
      show t.mnemonics.lookup (normalMnemonic entry.mnemonic) = none from h.mnemonic,
      Option.none_or]
    exact List.lookup_cons_self
  other_code code hcode := by
    rw [find?, find?, added, List.find?_append, List.find?_singleton, if_neg, Option.or_none]
    rw [decide_eq_true_iff]
    exact hcode.symm
  other_mnemonic mnemonic hmnemonic := by
    rw [findMnemonic?, findMnemonic?, added, List.lookup_append, List.lookup_cons, List.lookup_nil,
      show (normalMnemonic mnemonic == entry.normal.mnemonic) = false from
        beq_eq_false_iff_ne.mpr hmnemonic, Option.or_none]

/-- A registration succeeds exactly if the table takes the entry. -/
theorem run_register_eq_ok_iff {entry e : OpcodeEntry} :
  (register entry).run t = (.ok e, t')
    ↔ t.Admits entry ∧ e = entry.normal ∧ t' = t.added entry.normal
  := by
  obtain ⟨hnot, e', hrun⟩ | ⟨hadmits, hrun⟩ := run_register t entry
  · rw [hrun]
    exact ⟨nofun, fun h => (hnot h.1).elim⟩
  · rw [hrun]
    constructor
    · intro h
      cases h
      exact ⟨hadmits, rfl, rfl⟩
    · rintro ⟨-, rfl, rfl⟩
      rfl

/-- A refused registration leaves the table as it was. -/
theorem run_register_of_error {entry : OpcodeEntry}
    (h : (register entry).run t = (.error e, t')) :
  t' = t
  := by
  obtain ⟨-, e', hrun⟩ | ⟨-, hrun⟩ := run_register t entry <;> rw [hrun] at h <;> cases h
  rfl

/-- A sound table is listed in the order of its codes. -/
theorem Sound.pairwise_toList (h : t.Sound) :
  t.toList.Pairwise fun a b => a.code < b.code
  := by
  have hsorted : t.toList.Pairwise fun a b => decide (a.code ≤ b.code) = true := by
    apply List.pairwise_mergeSort
    · simp only [decide_eq_true_eq]
      omega
    · simp only [Bool.or_eq_true, decide_eq_true_eq]
      omega
  have hdistinct : t.toList.Pairwise fun a b => a.code ≠ b.code := by
    apply List.pairwise_map.mp
    apply ((List.mergeSort_perm t.entries _).map OpcodeEntry.code).nodup_iff.mpr h.codes
  apply hsorted.imp₂ _ hdistinct
  intro a b hle hne
  rw [decide_eq_true_eq] at hle
  omega

/-- In a sound table the two lookups agree. -/
theorem Sound.consistent (h : t.Sound) :
  t.Consistent where
  wellMade code e he := h.wellMade e (h.find?_eq_some_iff.mp he).1
  find?_mnemonic code e he := by
    obtain ⟨hmem, hcode⟩ := h.find?_eq_some_iff.mp he
    use hcode
    rw [h.findMnemonic?_eq_some_iff]
    exact ⟨hmem, (normalMnemonic_eq_self_iff.mpr (h.wellMade e hmem).mnemonic).symm⟩
  findMnemonic?_code mnemonic e he := by
    obtain ⟨hmem, hname⟩ := h.findMnemonic?_eq_some_iff.mp he
    exact ⟨hname, h.find?_eq_some_iff.mpr ⟨hmem, rfl⟩⟩
  sorted := h.pairwise_toList
  mem_toList e := by
    rw [h.find?_eq_some_iff, toList, (List.mergeSort_perm _ _).mem_iff]
    simp only [and_true]
  size_toList := (List.mergeSort_perm _ _).length_eq

/-- Underscores behind a mnemonic do not change what it finds. -/
theorem findMnemonic?_append_replicate (t : OpcodeTable) (mnemonic : Text) (n : Nat) :
  t.findMnemonic? (mnemonic ++ List.replicate n (CodePoint.ofChar '_')) = t.findMnemonic? mnemonic
  := by
  rw [findMnemonic?, findMnemonic?, normalMnemonic_append_replicate]

/-- Each entry has its class in a closed table. -/
theorem Sound.lookup_classes (h : t.Sound) {e : OpcodeEntry} (he : e ∈ t.entries) :
  t.closed.classes.lookup e.mnemonic = some e
  := by
  rw [OpcodeTable.closed, lookup_keyed]
  exact (find?_key_eq_some_iff h.names).mpr ⟨he, rfl⟩

/-- A sound table whose classes can be made answers every call. -/
theorem Sound.answers (h : t.Sound) (hmake : t.Makeable) :
  t.Answers where
  closes call later hcall := by
    rw [OpcodeTable.after, List.foldl_cons, TableCall.perform_snd hcall, h.run_freeze hmake]
    exact after_of_frozen rfl later
  code code hcode := by
    obtain ⟨e, he⟩ := Option.isSome_iff_exists.mp hcode
    obtain ⟨hsame, hfind⟩ := h.consistent.find?_mnemonic code e he
    have hrun := h.run_freeze hmake
    use e, hsame
    constructor
    · rw [run_lookup hrun, show t.closed.find? code = some e from he, Option.elim_some]
    · rw [run_lookupMnemonic hrun, show t.closed.findMnemonic? e.mnemonic = some e from hfind,
        Option.elim_some]
  unknown_code code hcode := by
    have hfind : t.closed.find? code = none := by
      rw [← Option.isNone_iff_eq_none, ← Option.isSome_eq_false_iff]
      exact hcode
    rw [run_lookup (h.run_freeze hmake), hfind, Option.elim_none]
  mnemonic mnemonic hmnemonic := by
    obtain ⟨e, he⟩ := Option.isSome_iff_exists.mp hmnemonic
    obtain ⟨hsame, hfind⟩ := h.consistent.findMnemonic?_code mnemonic e he
    have hclass := h.lookup_classes (h.find?_eq_some_iff.mp hfind).1
    have hrun := h.run_freeze hmake
    refine ⟨e, hsame, ?_, ?_, ?_⟩
    · rw [run_lookup hrun, show t.closed.find? e.code = some e from hfind, Option.elim_some]
    · rw [run_instructionClass hrun, hclass, Option.elim_some]
    · intro n
      rw [run_lookupMnemonic hrun, run_getInstruction hrun, findMnemonic?_append_replicate,
        show t.closed.findMnemonic? mnemonic = some e from he, Option.elim_some, Option.elim_some,
        hclass, Option.elim_some]
      exact ⟨rfl, rfl⟩
  unknown_mnemonic mnemonic hmnemonic := by
    have hfind : t.closed.findMnemonic? mnemonic = none := by
      rw [← Option.isNone_iff_eq_none, ← Option.isSome_eq_false_iff]
      exact hmnemonic
    rw [run_lookupMnemonic (h.run_freeze hmake), hfind, Option.elim_none]

/-- A sound table with a class that cannot be made fails on every call that closes it. -/
theorem Sound.stuck (h : t.Sound) (hmake : ¬ t.Makeable) :
  t.Stuck where
  fails call hcall := by
    obtain ⟨_, entry, hentry, e, classes, herror, hrun⟩ := h.run_freeze_error hmake
    use entry, hentry, e, classes, herror
    exact TableCall.run_perform_of_error hcall hrun
  stays later := by
    rw [← Bool.not_eq_true]
    intro hfrozen
    apply hmake
    intro e he
    exact ((h.after later).closed hfrozen).1 e (t.entries_subset_after later he)

/-- After any calls of its operations, whether they failed or not, a table that was empty at first
is consistent. A registration that fails leaves it as it is; one that succeeds, and it does exactly
if the table takes the entry, adds this entry. Once the table is closed it never changes again. If a
class can be made of each of its entries, it answers every consultation and is closed by the first;
else it answers none and stays open. -/
theorem consistent_after (id : TableId) (calls : List TableCall) :
  let t := (empty id).after calls
  t.Consistent
    ∧ (∀ entry e t', (register entry).run t = (.error e, t') → t' = t)
    ∧ (∀ entry e t', (register entry).run t = (.ok e, t') → e = entry.normal ∧ t.Stores t' entry)
    ∧ (∀ entry, (∃ e t', (register entry).run t = (.ok e, t')) ↔ t.Admits entry)
    ∧ (t.frozen = true → ∀ later, t.after later = t)
    ∧ (t.Makeable → t.Answers)
    ∧ (¬ t.Makeable → t.Stuck)
  := by
  intro t
  have h : t.Sound := (sound_empty id).after calls
  refine ⟨h.consistent, fun entry e t' => run_register_of_error, ?_, ?_,
    fun hfrozen => after_of_frozen hfrozen, h.answers, h.stuck⟩
  · intro entry e t' hrun
    obtain ⟨hadmits, rfl, rfl⟩ := run_register_eq_ok_iff.mp hrun
    exact ⟨rfl, hadmits.stores⟩
  · intro entry
    constructor
    · rintro ⟨e, t', hrun⟩
      exact (run_register_eq_ok_iff.mp hrun).1
    · intro hadmits
      exact ⟨_, _, run_register_eq_ok_iff.mpr ⟨hadmits, rfl, rfl⟩⟩

/-- A table with a NUL in a mnemonic is not closed by consulting it, though the entry is in the
table, and takes another entry afterwards. -/
theorem not_frozen_after_lookup :
  let entry := OpcodeEntry.make 1 [CodePoint.ofChar 'a', 0, CodePoint.ofChar 'b'] 0 0 .plain
  let t := (empty (.own 0)).after [.register entry, .lookup 1]
  t.hasCode 1 = true
    ∧ ((lookup 1).run t).1 = .error .nulInName
    ∧ t.frozen = false
    ∧ (t.after [.register (.make 2 "late" 0 0 .plain)]).size = 2
  := by
  decide

end OpcodeTable

end ActionBlock
