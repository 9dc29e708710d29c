import ActionBlock.Proofs.InPlace

/-!
# Derived fields

Three fields of a record are derived: the offset at which it was read, the displacement of a
branch, and the sizes that its bodies were declared with. Writing a block works them out anew. So
blocks that differ in derived fields only, at whatever depth, are written as the same bytes, or fail
with the same error.

Of a workspace, writing changes displacements only, whether it fails or not, and in the end no
action holds anything. Writing another time then has the same outcome.
-/

namespace ActionBlock

/-! ### Erasing derived fields -/

/-- A record without its derived fields. -/
def Record.underived (r : Record) : Record :=
  { r.withDisplacement 0 with offset := .none, declaredSizes := .tuple [] }

mutual

/-- An action without an identity, and without derived fields at any depth. -/
def Action.underived : Action → Action
  | .mk _ record bodies => .mk none record.underived (bodiesUnderived bodies)

/-- Bodies without derived fields. -/
def bodiesUnderived : List (List Action) → List (List Action)
  | [] => []
  | body :: bodies => blockUnderived body :: bodiesUnderived bodies

/-- A block without derived fields. -/
def blockUnderived : List Action → List Action
  | [] => []
  | a :: actions => a.underived :: blockUnderived actions

end

theorem blockUnderived_eq_map (block : List Action) :
  blockUnderived block = block.map Action.underived
  := by
  induction block with
  | nil => rw [blockUnderived, List.map_nil]
  | cons a actions ih => rw [blockUnderived, ih, List.map_cons]

theorem bodiesUnderived_eq_map (bodies : List (List Action)) :
  bodiesUnderived bodies = bodies.map blockUnderived
  := by
  induction bodies with
  | nil => rw [bodiesUnderived, List.map_nil]
  | cons body bodies ih => rw [bodiesUnderived, ih, List.map_cons]

/-- An action without its derived data has neither identity nor derived fields, and its bodies are
stripped alike. -/
theorem Action.underived_eq (a : Action) :
  a.underived = .mk none a.record.underived (a.bodies.map blockUnderived)
  := by
  obtain ⟨identity, record, bodies⟩ := a
  rw [underived, bodiesUnderived_eq_map]
  rfl

theorem Action.record_underived (a : Action) :
  a.underived.record = a.record.underived
  := by
  rw [underived_eq]
  rfl

theorem Action.bodies_underived (a : Action) :
  a.underived.bodies = a.bodies.map blockUnderived
  := by
  rw [underived_eq]
  rfl

/-- An item whose record has no derived fields. -/
def Item.underived (item : Item) : Item := { item with record := item.record.underived }

/-! ### Writing works derived fields out -/

/-- A displacement may be set before or after the other derived fields are stripped. -/
theorem Record.withDisplacement_underived (r : Record) (d : Int) :
  r.underived.withDisplacement d
    = { r.withDisplacement d with offset := .none, declaredSizes := .tuple [] }
  := by
  rw [underived, withDisplacement, withDisplacement, withDisplacement,
    Operands.withDisplacement_withDisplacement]

/-- An item is written without its derived fields being read. -/
theorem Item.serialize_underived (item : Item) (d : Int) :
  item.underived.serialize d = item.serialize d
  := by
  rw [serialize, underived, Record.withDisplacement_underived]
  rfl

theorem provisionalFrom_underived (items : List Item) (index offset : Nat) (done : List Bytes) :
  provisionalFrom (items.map Item.underived) index offset done
    = provisionalFrom items index offset done
  := by
  induction items generalizing index offset done with
  | nil => rfl
  | cons item items ih =>
    rw [List.map_cons, provisionalFrom, provisionalFrom, item.serialize_underived]
    cases item.serialize 0 with
    | error fault => rfl
    | ok chunk => exact ih (index + 1) (offset + chunk.length) (chunk :: done)

theorem linkFrom_underived (starts : Array Nat) (items : List Item) (chunks : List Bytes)
    (index : Nat) (done : List Bytes) :
  linkFrom starts (items.map Item.underived) chunks index done
    = linkFrom starts items chunks index done
  := by
  induction items generalizing chunks index done with
  | nil => rfl
  | cons item items ih =>
    cases chunks with
    | nil => rfl
    | cons chunk chunks =>
      cases hbranch : item.record.operands.isBranch with
      | false =>
        have hplain : item.underived.record.operands.isBranch = false := by
          rw [← hbranch]
          exact Operands.isBranch_withDisplacement item.record.operands 0
        rw [List.map_cons, linkFrom_of_plain hplain, linkFrom_of_plain hbranch, ih]
      | true =>
        obtain ⟨target, old, hoperands⟩ := Operands.exists_branch_of_isBranch hbranch
        have hunderived : item.underived.record.operands = .branch target (.int 0) := by
          rw [show item.underived.record.operands = item.record.operands.withDisplacement 0
            from rfl, hoperands]
          rfl
        rw [List.map_cons, linkFrom, linkFrom, hoperands, hunderived]
        dsimp only
        rw [show displacement starts index item.underived.record target
          = displacement starts index item.record target from rfl]
        cases displacement starts index item.record target with
        | error e => rfl
        | ok d =>
          dsimp only
          rw [item.serialize_underived]
          cases item.serialize d with
          | error fault => rfl
          | ok chunk => exact ih chunks (index + 1) (chunk :: done)

/-- The assembler does not read the derived fields. -/
theorem assemble_underived (items : List Item) :
  assemble (items.map Item.underived) = assemble items
  := by
  simp only [assemble, provisional, link, provisionalFrom_underived, linkFrom_underived]

/-- The items of a stripped block are the stripped items of the block, provided the bodies of its
actions are written alike. -/
theorem encodeItems_underived {block : List Action}
    (h : ∀ a ∈ block, encodeBodies a.underived.bodies [] = encodeBodies a.bodies [])
    (index : Nat) (done : List Item) :
  encodeItems (block.map Action.underived) index (done.map Item.underived)
    = (encodeItems block index done).map (List.map Item.underived)
  := by
  induction block generalizing index done with
  | nil =>
    rw [List.map_nil, encodeItems, encodeItems, ← List.map_reverse]
    rfl
  | cons a actions ih =>
    have hbodies := h a List.mem_cons_self
    rw [List.map_cons]
    cases hbytes : encodeBodies a.bodies [] with
    | error e =>
      rw [encodeItems_cons_of_error hbytes, encodeItems_cons_of_error (hbodies.trans hbytes)]
      rfl
    | ok bytes =>
      rw [encodeItems_cons_of_ok hbytes, encodeItems_cons_of_ok (hbodies.trans hbytes),
        ← ih (fun a ha => h a (List.mem_cons_of_mem _ ha)), a.record_underived]
      rfl

theorem encodeBodies_underived {bodies : List (List Action)}
    (h : ∀ body ∈ bodies, encodeBlock (blockUnderived body) = encodeBlock body) :
  encodeBodies (bodies.map blockUnderived) [] = encodeBodies bodies []
  := by
  rw [encodeBodies_eq_mapM, encodeBodies_eq_mapM]
  induction bodies with
  | nil => rfl
  | cons body bodies ih =>
    rw [List.map_cons, List.mapM_cons, List.mapM_cons, h body List.mem_cons_self,
      ih fun body hbody => h body (List.mem_cons_of_mem _ hbody)]

/-- A block is written the same without its derived fields. -/
theorem encodeBlock_underived (block : List Action) :
  encodeBlock (blockUnderived block) = encodeBlock block
  := by
  induction block using Action.block_induct with
  | _ block ih =>
    have hbodies : ∀ a ∈ block,
        encodeBodies a.underived.bodies [] = encodeBodies a.bodies [] := by
      intro a ha
      rw [a.bodies_underived]
      exact encodeBodies_underived (ih a ha)
    have hitems := encodeItems_underived hbodies 0 []
    rw [List.map_nil] at hitems
    rw [encodeBlock, encodeBlock, blockUnderived_eq_map, hitems]
    cases encodeItems block 0 [] with
    | error e => rfl
    | ok items => exact assemble_underived items

/-- Two actions that differ in derived data only have bodies that are written alike. -/
theorem encodeBodies_of_underived {a b : Action} (h : a.underived = b.underived) :
  encodeBodies a.bodies [] = encodeBodies b.bodies []
  := by
  have hbodies : a.bodies.map blockUnderived = b.bodies.map blockUnderived := by
    rw [← a.bodies_underived, ← b.bodies_underived, h]
  rw [← encodeBodies_underived fun body _ => encodeBlock_underived body, hbodies,
    encodeBodies_underived fun body _ => encodeBlock_underived body]

/-! ### Workspaces -/

namespace Workspace

variable {w w' : Workspace}

/-- Trees that differ in displacements only are the same without their derived fields. -/
theorem Alike.underived_unfold (h : w.Alike w') (depth : Nat) (r : Ref) :
  (w.unfold depth r).underived = (w'.unfold depth r).underived
  := by
  have hrecord (depth : Nat) (r : Ref) :
      (w.unfold depth r).record.underived = (w'.unfold depth r).record.underived := by
    rw [record_unfold, record_unfold, Record.underived, Record.underived, h.recordOf]
  induction depth generalizing r with
  | zero =>
    rw [Action.underived_eq, Action.underived_eq, hrecord]
    rfl
  | succ depth ih =>
    have hbody (body : List Ref) :
        blockUnderived (body.map (w.unfold depth))
          = blockUnderived (body.map (w'.unfold depth)) := by
      rw [blockUnderived_eq_map, blockUnderived_eq_map, List.map_map, List.map_map]
      exact List.map_congr_left fun r _ => ih r
    have hbodies : w.cells[r]?.map Cell.bodies = w'.cells[r]?.map Cell.bodies :=
      (h.sameBlocks.2 r).symm
    rw [Action.underived_eq, Action.underived_eq, hrecord, bodies_unfold_succ, bodies_unfold_succ,
      hbodies, List.map_map, List.map_map]
    congr 1
    exact List.map_congr_left fun body _ => hbody body

/-- Workspaces that are alike hold blocks that differ in derived data only. -/
theorem Alike.underived_block (h : w.Alike w') (place : Place) :
  blockUnderived (w.block place) = blockUnderived (w'.block place)
  := by
  rw [block, block, actions, actions, h.sameBlocks.contents_eq, blockUnderived_eq_map,
    blockUnderived_eq_map, List.map_map, List.map_map]
  apply List.map_congr_left
  intro r _
  rw [Function.comp_apply, Function.comp_apply, action, action, h.size]
  exact h.underived_unfold _ r

/-- A write answers with the bytes of the encoding, keeps the workspace that the encoding settled
and holds no body. -/
theorem write_eq (w : Workspace) (place : Place) :
  w.write place = ((w.encode place).1, { workspace := (w.encode place).2, held := [] })
  := by
  rw [write, writeBlock_eq]
  rfl

/-- Blocks that differ in derived data only are written with the same result. -/
theorem result_write_of_underived {place place' : Place}
    (h : blockUnderived (w.block place) = blockUnderived (w'.block place')) :
  (w.write place).1 = (w'.write place').1
  := by
  rw [write_eq, write_eq]
  change ActionBlock.encode (w.block place) = ActionBlock.encode (w'.block place')
  rw [ActionBlock.encode, ActionBlock.encode, ← encodeBlock_underived (w.block place), h,
    encodeBlock_underived]

/-- A write, failed or not, leaves a workspace alike. -/
theorem alike_write (w : Workspace) (place : Place) :
  w.Alike (w.write place).2.workspace
  := by
  rw [write_eq]
  apply w.alike_applySettings

/-! ### The theorem -/

/-- What is written in place is what is written for the trees. It is the same bytes, or the same
error, for another block that differs in derived fields only. Whether writing fails or not, the
workspace is left as it was up to the displacements of branches, and no action holds the bytes of
its bodies; every block is then written as it would have been before. -/
theorem write_undisturbed (w : Workspace) (place : Place) :
  (w.write place).1 = ActionBlock.encode (w.block place)
    ∧ (∀ (w' : Workspace) (place' : Place),
        blockUnderived (w.block place) = blockUnderived (w'.block place') →
      (w.write place).1 = (w'.write place').1)
    ∧ w.Alike (w.write place).2.workspace
    ∧ (w.write place).2.held = []
    ∧ ∀ place', ((w.write place).2.workspace.write place').1 = (w.write place').1
  := by
  refine ⟨?_, ?_, w.alike_write place, ?_, ?_⟩
  · rw [write_eq]
    rfl
  · intro w' place' hsame
    exact result_write_of_underived hsame
  · rw [write_eq]
  · intro place'
    apply result_write_of_underived
    exact ((w.alike_write place).underived_block place').symm

end Workspace

/-- A branch that is in the root and in the body of an action, and before the end of the root a
branch without a target in it; with what their derived fields hold. -/
def strayBranch (displacement offset sizes : Value) : Workspace where
  cells := #[
    ⟨{ Record.jump 0 displacement with offset := offset }, []⟩,
    ⟨{ Record.withObject with offset := offset, declaredSizes := sizes }, [[0]]⟩,
    ⟨.jump 9 displacement, []⟩]
  root := [1, 0, 2]

theorem write_undisturbed_strayBranch :
  blockUnderived ((strayBranch .none .none (.tuple [])).block .root)
      = blockUnderived ((strayBranch (.text "far") (.int 7) (.int (-1))).block .root)
    ∧ ((strayBranch .none .none (.tuple [])).write .root).1
      = .error (.noTarget "jump" 0x99 15 2 (.int 9))
    ∧ ((strayBranch .none .none (.tuple [])).write .root).1
      = ((strayBranch (.text "far") (.int 7) (.int (-1))).write .root).1
  := by
  have hsame : blockUnderived ((strayBranch .none .none (.tuple [])).block .root)
      = blockUnderived ((strayBranch (.text "far") (.int 7) (.int (-1))).block .root) := by
    simp [strayBranch, Workspace.block, Workspace.actions, Workspace.contents, Workspace.action,
      Workspace.unfold, blockUnderived, bodiesUnderived, Action.underived, Record.underived,
      Record.withDisplacement, Operands.withDisplacement, Record.standard, Record.jump,
      Record.withObject]
  exact ⟨hsame, by decide +kernel, (Workspace.write_undisturbed _ .root).2.1 _ .root hsame⟩

end ActionBlock
