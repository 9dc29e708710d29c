import ActionBlock.Block.Listing
import ActionBlock.Proofs.Chunks

/-!
# The lines of a listing

A listing is a list of lines, each of which can be shown by itself. A line of an action knows the
records before it in its block, and for each block around it the records up to the action that it is
nested in. Its index is the number of records before it, its depth the number of blocks around it,
and the pool in scope is found by a search outwards.
-/

namespace ActionBlock

/-- The pool that operands declare. -/
def Operands.pool? : Operands → Option Value
  | constantPool pool => some pool
  | _ => none

/-- An action is shown as its name, and its operands after a blank if there is anything to show. -/
theorem Record.render_eq_ok_iff {r : Record} {t : Text} :
  r.render = .ok t
    ↔ r.kind.misuse? "to_mnemonic_text" = none
      ∧ ∃ operands name, r.operands.render = .ok operands ∧ r.name.plain = .ok name
        ∧ t = name ++ Text.afterSeparator " " operands
  := by
  rw [render, bind_eq_ok_iff]
  cases hkind : r.kind.misuse? "to_mnemonic_text" with
  | some fault => simp [title, hkind]
  | none =>
    simp only [title, hkind, bind_eq_ok_iff, true_and]
    constructor
    · rintro ⟨shown, ⟨operands, hoperands, h⟩, ht⟩
      split at h
      · rename_i hnil
        obtain rfl := Except.ok.inj h
        refine ⟨operands, t, hoperands, ht, ?_⟩
        rw [Text.afterSeparator, if_pos hnil, List.append_nil]
      · rename_i hsome
        obtain ⟨name, hname, h⟩ := bind_eq_ok_iff.mp h
        obtain rfl := Except.ok.inj h
        refine ⟨operands, name, hoperands, hname, ?_⟩
        rw [Text.afterSeparator, if_neg hsome, ← Except.ok.inj ht, List.append_assoc]
    · rintro ⟨operands, name, hoperands, hname, rfl⟩
      by_cases hnil : operands = []
      · refine ⟨r.name, ⟨operands, hoperands, by rw [if_pos hnil]⟩, ?_⟩
        rw [hname, Text.afterSeparator, if_pos hnil, List.append_nil]
      · refine ⟨.text (name ++ " " ++ operands), ⟨operands, hoperands, ?_⟩, ?_⟩
        · rw [if_neg hnil, bind_eq_ok_iff]
          exact ⟨name, hname, rfl⟩
        · rw [Value.plain, Text.afterSeparator, if_neg hnil, List.append_assoc]

namespace Listing

/-! ### Lines -/

/-- The pool that the last constant pool among records declares. -/
def declared? (records : List Record) : Option Value :=
  records.reverse.findSome? (·.operands.pool?)

/-- The pool in scope after records in a block and in the blocks around it, the innermost first: the
one that is declared last in the innermost block that declares one, if it is not nothing. -/
def poolInScope (around : List (List Record)) : Option Value :=
  (around.findSome? declared?).filter (!·.isNone)

/-- A line of a listing. -/
inductive Line where
  /-- An action, with the records before it in its block and in the blocks around it. -/
  | action (before : List Record) (outer : List (List Record)) (record : Record)
  /-- The name of a body, with the depth of its actions. -/
  | label (depth : Nat) (name : String)

/-- A line as text. -/
def Line.text : Line → Except Fault Text
  | action before outer record =>
    (actionText (poolInScope (before :: outer)) record).map fun t =>
      indent outer.length ++ Numeral.nat before.length ++ "\t" ++ t
  | label depth name => .ok (indent depth ++ name ++ ":")

/-- The names that bodies are listed under. One body has none. -/
def bodyLabels (record : Record) (bodies : List (List Action)) : List String :=
  if bodies.length > 1 then record.operands.bodyNames else []

/-- The line before a body that is not empty, given the names of this body and those after it. -/
def labelLines (depth : Nat) (names : List String) (body : List Action) : List Line :=
  if body.isEmpty then [] else (names.take 1).map (.label depth)

mutual

/-- The lines of actions after records in their block, given the records in the blocks around it. -/
def blockLines (outer : List (List Record)) : List Record → List Action → List Line
  | _, [] => []
  | before, .mk _ record bodies :: actions =>
    .action before outer record ::
      (bodiesLines ((before ++ [record]) :: outer) (bodyLabels record bodies) bodies
        ++ blockLines outer (before ++ [record]) actions)

/-- The lines of bodies, given their names. -/
def bodiesLines (outer : List (List Record)) : List String → List (List Action) → List Line
  | _, [] => []
  | names, body :: bodies =>
    labelLines outer.length names body
      ++ (blockLines outer [] body ++ bodiesLines outer (names.drop 1) bodies)

end

/-- The lines of a block. -/
def lines (block : List Action) : List Line := blockLines [] [] block

theorem blockLines_nil (outer : List (List Record)) (before : List Record) :
  blockLines outer before [] = []
  := by
  rw [blockLines]

theorem blockLines_cons (outer : List (List Record)) (before : List Record) (a : Action)
    (actions : List Action) :
  blockLines outer before (a :: actions)
    = .action before outer a.record ::
      (bodiesLines ((before ++ [a.record]) :: outer) (bodyLabels a.record a.bodies) a.bodies
        ++ blockLines outer (before ++ [a.record]) actions)
  := by
  obtain ⟨identity, record, bodies⟩ := a
  rw [blockLines]
  rfl

theorem bodiesLines_nil (outer : List (List Record)) (names : List String) :
  bodiesLines outer names [] = []
  := by
  rw [bodiesLines]

theorem bodiesLines_cons (outer : List (List Record)) (names : List String) (body : List Action)
    (bodies : List (List Action)) :
  bodiesLines outer names (body :: bodies)
    = labelLines outer.length names body
      ++ (blockLines outer [] body ++ bodiesLines outer (names.drop 1) bodies)
  := by
  rw [bodiesLines]

/-! ### Scope -/

/-- The last record that declares a pool decides. -/
theorem declared?_concat (records : List Record) (r : Record) :
  declared? (records ++ [r]) = r.operands.pool?.or (declared? records)
  := by
  rw [declared?, List.reverse_concat, List.findSome?_cons]
  cases r.operands.pool? <;> rfl

theorem poolInScope_nil_cons (around : List (List Record)) :
  poolInScope ([] :: around) = poolInScope around
  := rfl

/-- The pool in scope after an action. -/
theorem scope_poolInScope (before : List Record) (outer : List (List Record)) (r : Record) :
  scope (poolInScope (before :: outer)) r = poolInScope ((before ++ [r]) :: outer)
  := by
  simp only [scope, poolInScope, List.findSome?_cons, declared?_concat]
  cases r.operands with
  | constantPool pool => cases hnone : pool.isNone <;> simp [Operands.pool?, Option.filter, hnone]
  | _ => simp [Operands.pool?]

/-- What an action declares makes no difference to how it is shown itself. -/
theorem actionText_scope (pool : Option Value) (r : Record) :
  actionText (scope pool r) r = actionText pool r
  := by
  rw [scope]
  split
  · rename_i constants hop
    simp only [actionText, hop]
    cases constants.isNone <;> rfl
  · rfl

/-! ### The lines are those of the listing -/

theorem linesFrom_cons (depth : Nat) (a : Action) (actions : List Action) (index : Nat)
    (pool : Option Value) (done : List Text) :
  linesFrom depth (a :: actions) index pool done
    = (do
      let t ← actionText pool a.record
      let done ← bodyLines depth a.bodies (bodyLabels a.record a.bodies) (scope pool a.record)
        ((indent depth ++ Numeral.nat index ++ "\t" ++ t) :: done)
      linesFrom depth actions (index + 1) (scope pool a.record) done)
  := by
  obtain ⟨identity, record, bodies⟩ := a
  rw [linesFrom, actionText_scope]
  change _ = actionText pool record >>= fun t => bodyLines depth bodies (bodyLabels record bodies)
    (scope pool record) ((indent depth ++ Numeral.nat index ++ "\t" ++ t) :: done) >>= fun done => _
  cases actionText pool record with
  | error fault => rfl
  | ok t =>
    dsimp only
    change _ = bodyLines depth bodies (bodyLabels record bodies) (scope pool record) _
      >>= fun done => _
    rw [bodyLabels]
    cases bodyLines depth bodies (if bodies.length > 1 then record.operands.bodyNames else [])
      (scope pool record) ((indent depth ++ Numeral.nat index ++ "\t" ++ t) :: done) <;> rfl

/-- The text before a body of an action at a depth. -/
def labelTexts (depth : Nat) (names : List String) (body : List Action) : List Text :=
  if body.isEmpty then []
  else (names.take 1).map fun name : String => indent depth ++ "\t" ++ (name : Text) ++ ":"

theorem bodyLines_cons (depth : Nat) (body : List Action) (bodies : List (List Action))
    (names : List String) (pool : Option Value) (done : List Text) :
  bodyLines depth (body :: bodies) names pool done
    = (do
      let done ← linesFrom (depth + 1) body 0 pool (labelTexts depth names body ++ done)
      bodyLines depth bodies (names.drop 1) pool done)
  := by
  cases names with
  | nil =>
    have hlabel : labelTexts depth [] body = [] := by
      rw [labelTexts, List.take_nil, List.map_nil, ite_self]
    rw [bodyLines, hlabel]
    cases linesFrom (depth + 1) body 0 pool ([] ++ done) <;> rfl
  | cons name names =>
    have hlabel : labelTexts depth (name :: names) body
        = if body.isEmpty then [] else [indent depth ++ "\t" ++ (name : Text) ++ ":"] := rfl
    rw [bodyLines, hlabel]
    cases linesFrom (depth + 1) body 0 pool
      ((if body.isEmpty then [] else [indent depth ++ "\t" ++ (name : Text) ++ ":"]) ++ done)
      <;> rfl

theorem reverse_labelTexts (depth : Nat) (names : List String) (body : List Action) :
  (labelTexts depth names body).reverse = labelTexts depth names body
  := by
  rw [labelTexts]
  cases body.isEmpty <;> cases names <;> rfl

/-- Lines that are listed one after the other, the last one first. -/
theorem bind_map_reverse (front back : List Line) (done : List Text) :
  (((front.mapM Line.text).map (·.reverse ++ done)) >>=
      fun done => (back.mapM Line.text).map (·.reverse ++ done))
    = ((front ++ back).mapM Line.text).map (·.reverse ++ done)
  := by
  rw [List.mapM_append]
  cases front.mapM Line.text with
  | error fault => rfl
  | ok ts =>
    cases back.mapM Line.text with
    | error fault => rfl
    | ok us => simp [Except.map, bind, Except.bind, pure, Except.pure]

theorem mapM_text_labelLines (depth : Nat) (names : List String) (body : List Action) :
  (labelLines (depth + 1) names body).mapM Line.text = .ok (labelTexts depth names body)
  := by
  have hindent : indent (depth + 1) = indent depth ++ "\t" := List.replicate_succ'
  rw [labelLines, labelTexts]
  cases body.isEmpty with
  | true => rfl
  | false =>
    cases names with
    | nil => rfl
    | cons name names =>
      simp only [List.take_succ_cons, List.take_zero, Bool.false_eq_true, if_false, List.map_cons,
        List.map_nil, List.mapM_cons, List.mapM_nil, Line.text, hindent]
      rfl

/-- Whether the actions of a block are listed as their lines, wherever the block stands. -/
def Lists (block : List Action) : Prop :=
  ∀ outer before done,
    linesFrom outer.length block before.length (poolInScope (before :: outer)) done
    = ((blockLines outer before block).mapM Line.text).map (·.reverse ++ done)

/-- The bodies of an action are listed line by line, given that their blocks are. -/
theorem bodyLines_eq {bodies : List (List Action)} (h : ∀ body ∈ bodies, Lists body)
    (records : List Record) (outer : List (List Record)) (names : List String) (done : List Text) :
  bodyLines outer.length bodies names (poolInScope (records :: outer)) done
    = ((bodiesLines (records :: outer) names bodies).mapM Line.text).map (·.reverse ++ done)
  := by
  induction bodies generalizing names done with
  | nil =>
    rw [bodyLines, bodiesLines_nil]
    rfl
  | cons body bodies ih =>
    have hbody := h body List.mem_cons_self (records :: outer) []
    have hrest := ih fun b hb => h b (List.mem_cons_of_mem _ hb)
    rw [List.length_cons, List.length_nil, poolInScope_nil_cons] at hbody
    rw [bodyLines_cons, bodiesLines_cons, ← bind_map_reverse, List.length_cons,
      mapM_text_labelLines, Except.map, reverse_labelTexts]
    simp only [hbody, hrest, bind_map_reverse]
    rfl

/-- Every block is listed line by line. -/
theorem lists (block : List Action) :
  Lists block
  := by
  induction block using Action.block_induct with
  | h block ih =>
    intro outer before done
    induction block generalizing before done with
    | nil =>
      rw [linesFrom, blockLines_nil]
      rfl
    | cons a actions ihactions =>
      have hbodies := bodyLines_eq (ih a List.mem_cons_self) (before ++ [a.record]) outer
      have hrest := ihactions (fun b hb => ih b (List.mem_cons_of_mem _ hb)) (before ++ [a.record])
      rw [List.length_append, List.length_singleton] at hrest
      rw [linesFrom_cons, blockLines_cons, scope_poolInScope,
        ← List.singleton_append (x := Line.action before outer a.record), ← bind_map_reverse]
      simp only [hbodies, hrest, bind_map_reverse, List.mapM_cons, Line.text]
      cases actionText (poolInScope (before :: outer)) a.record <;> rfl

/-- A listing is the texts of its lines. -/
theorem listing_eq (block : List Action) :
  listing block = (lines block).mapM Line.text
  := by
  have h : linesFrom 0 block 0 none [] = _ := lists block [] [] []
  rw [listing, lines, h]
  cases (blockLines [] [] block).mapM Line.text with
  | error fault => rfl
  | ok ts => simp [Except.map]

end Listing

end ActionBlock
