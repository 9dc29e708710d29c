import ActionBlock.Proofs.Misfits
import ActionBlock.Proofs.Running
import ActionBlock.Workspace.Writing

/-!
# Writing in place

A block of a workspace that is written in place is written as the block of trees that it unfolds
to, with the same bytes or the same error, and the displacements that it leaves behind are those
listed for the trees.

The state of writing in place tracks what is listed: the workspace has the listed displacements set,
and the listed actions hold something. What an action of a block holds, once the bodies of the block
are written, are the bytes of its own bodies; writing the bodies of another action can only make it
let go of them. So each record is written with the right bytes, held or written anew, and each pass
over a block does to the state what is listed for it. Bodies are written by the same passes one
level down, and the claim for all levels is by induction on the depth.

So what is written in place has the layout of a block, however its actions are shared.
-/

namespace ActionBlock

/-! ### Records -/

/-- A record is written the same with any bodies if writing it does not come to them. -/
theorem Record.serialize_of_not_reachesBodies {r : Record} (h : r.reachesBodies = false)
    (bodies : List Bytes) :
  r.serialize bodies = r.serialize []
  := by
  rw [serialize, serialize]
  cases hkind : r.kind.misuse? "jumplike" with
  | some fault => rfl
  | none =>
    cases hlong : r.isLong with
    | error fault => rfl
    | ok long =>
      cases long with
      | false => rfl
      | true =>
        cases hfields : r.operands.fields with
        | error fault =>
          simp only [serializeLong, header, operandBytes, hfields]
          rfl
        | ok fields =>
          simp only [reachesBodies, hkind, hlong, hfields, Except.isOk, Except.toBool,
            reduceCtorEq] at h

theorem Operands.isBranch_withDisplacement (o : Operands) (d : Int) :
  (o.withDisplacement d).isBranch = o.isBranch
  := by
  cases o <;> rfl

/-! ### Bodies -/

theorem encodeBodies_eq_map_mapM (bodies : List (List Action)) (done : List Bytes) :
  encodeBodies bodies done = (bodies.mapM encodeBlock).map (done.reverse ++ ·)
  := by
  induction bodies generalizing done with
  | nil => simp only [encodeBodies, List.mapM_nil, pure, Except.pure, Except.map, List.append_nil]
  | cons body bodies ih =>
    rw [encodeBodies, List.mapM_cons, encodeBlock]
    cases encodeItems body 0 [] with
    | error e => rfl
    | ok items =>
      cases hbytes : assemble items with
      | error e =>
        simp only [hbytes, bind, Except.bind, Except.map]
      | ok bytes =>
        simp only [ih, hbytes, bind, Except.bind]
        cases bodies.mapM encodeBlock with
        | error e => rfl
        | ok rest => simp [Except.map, pure, Except.pure]

/-- Bodies are written block by block. -/
theorem encodeBodies_eq_mapM (bodies : List (List Action)) :
  encodeBodies bodies [] = bodies.mapM encodeBlock
  := by
  rw [encodeBodies_eq_map_mapM]
  cases bodies.mapM encodeBlock <;> rfl

section Cons

variable {a : Action} {bytes : List Bytes} {e : EncodeError}

theorem encodeItems_cons_of_ok (h : encodeBodies a.bodies [] = .ok bytes) (actions : List Action)
    (index : Nat) (done : List Item) :
  encodeItems (a :: actions) index done
    = encodeItems actions (index + 1) (⟨a.record, bytes⟩ :: done)
  := by
  obtain ⟨identity, record, bodies⟩ := a
  rw [encodeItems, show encodeBodies bodies [] = .ok bytes from h]
  rfl

/-- A body that cannot be written fails at the index of its action. -/
theorem encodeItems_cons_of_error (h : encodeBodies a.bodies [] = .error e) (actions : List Action)
    (index : Nat) (done : List Item) :
  encodeItems (a :: actions) index done = .error (e.within index)
  := by
  obtain ⟨identity, record, bodies⟩ := a
  rw [encodeItems, show encodeBodies bodies [] = .error e from h]

/-- Bodies that are written are held for their action. -/
theorem holdBodies_cons_of_ok (h : encodeBodies a.bodies [] = .ok bytes) (actions : List Action)
    (left : Residue) :
  holdBodies (a :: actions) left
    = holdBodies actions ((bodyResidue a.bodies left).hold a.identity a.bodies)
  := by
  obtain ⟨identity, record, bodies⟩ := a
  rw [holdBodies, show encodeBodies bodies [] = .ok bytes from h]
  rfl

/-- After a body that cannot be written nothing more is held. -/
theorem holdBodies_cons_of_error (h : encodeBodies a.bodies [] = .error e) (actions : List Action)
    (left : Residue) :
  holdBodies (a :: actions) left = bodyResidue a.bodies left
  := by
  obtain ⟨identity, record, bodies⟩ := a
  rw [holdBodies, show encodeBodies bodies [] = .error e from h]
  rfl

end Cons

/-- The index of the action at which writing failed. -/
def failedAt {α : Type} : Except EncodeError α → Option Nat
  | .ok _ => none
  | .error e => some e.index

/-- An error of an item is at the index of the item. -/
theorem Item.index_error (item : Item) (index offset : Nat) (fault : Fault) :
  (item.error index offset fault).index = index
  := by
  rw [error]
  split <;> rfl

/-- Records from an index on do not fail before it. -/
theorem failedAt_provisionalFrom_ne {items : List Item} {index offset i : Nat} {done : List Bytes}
    (hi : i < index) :
  failedAt (provisionalFrom items index offset done) ≠ some i
  := by
  cases h : provisionalFrom items index offset done with
  | ok chunks => exact Option.some_ne_none i |>.symm
  | error e =>
    obtain ⟨j, item, chunks, fault, -, -, -, rfl⟩ := provisionalFrom_eq_error h
    rw [failedAt, Item.index_error]
    intro heq
    have := Option.some.inj heq
    omega

theorem firstResidue_cons (failure : Option Nat) (a : Action) (actions : List Action) (index : Nat)
    (left : Residue) {left' : Residue}
    (h : (if a.record.operands.isBranch then left.set a.identity 0 else left).renew a.identity
      (a.record.withDisplacement 0) (bodyResidue a.bodies) = left') :
  firstResidue failure (a :: actions) index left
    = if failure = some index then left' else firstResidue failure actions (index + 1) left'
  := by
  subst h
  obtain ⟨identity, record, bodies⟩ := a
  rw [firstResidue]
  rfl

/-- A displacement does not depend on the one that the record already has. -/
theorem displacement_congr {r r' : Record} (h : r.withDisplacement 0 = r'.withDisplacement 0)
    (starts : Array Nat) (index : Nat) (target : Value) :
  displacement starts index r target = displacement starts index r' target
  := by
  change displacement starts index (r.withDisplacement 0) target = _
  rw [h]
  rfl

section Second

variable {a : Action} {target old : Value} {starts : Array Nat} {index : Nat}

/-- The second pass sets nothing for an action that does not branch. -/
theorem secondResidue_cons_of_plain (h : a.record.operands.isBranch = false)
    (actions : List Action) (left : Residue) :
  secondResidue starts (a :: actions) index left = secondResidue starts actions (index + 1) left
  := by
  obtain ⟨identity, record, bodies⟩ := a
  rw [secondResidue]
  change record.operands.isBranch = false at h
  cases hoperands : record.operands with
  | branch target old =>
    rw [hoperands] at h
    cases h
  | _ => rfl

/-- The second pass stops at a branch that has no displacement. -/
theorem secondResidue_cons_of_error (h : a.record.operands = .branch target old) {e : EncodeError}
    (he : displacement starts index a.record target = .error e) (actions : List Action)
    (left : Residue) :
  secondResidue starts (a :: actions) index left = left
  := by
  obtain ⟨identity, record, bodies⟩ := a
  change record.operands = .branch target old at h
  change displacement starts index record target = .error e at he
  rw [secondResidue, h]
  simp only [he]

/-- The second pass sets the displacement of a branch and writes it anew. -/
theorem secondResidue_cons_of_ok (h : a.record.operands = .branch target old) {d : Int}
    (hd : displacement starts index a.record target = .ok d) (actions : List Action)
    (left : Residue) :
  secondResidue starts (a :: actions) index left
    = secondResidue starts actions (index + 1)
      ((left.set a.identity d).renew a.identity (a.record.withDisplacement d)
        (bodyResidue a.bodies))
  := by
  obtain ⟨identity, record, bodies⟩ := a
  change record.operands = .branch target old at h
  change displacement starts index record target = .ok d at hd
  rw [secondResidue, h]
  simp only [hd]
  rfl

end Second

/-- What writing a block leaves behind before the bodies of its actions are let go of. -/
def blockResidue (block : List Action) (left : Residue) : Residue :=
  match encodeItems block 0 [] with
  | .error _ => holdBodies block left
  | .ok items =>
    match provisional items with
    | .error e => firstResidue (some e.index) block 0 (holdBodies block left)
    | .ok chunks =>
      secondResidue (starts chunks) block 0 (firstResidue none block 0 (holdBodies block left))

/-- Of the bodies of an action, those after one that cannot be written are not written. -/
theorem bodyResidue_cons_of_error {body : List Action} {e : EncodeError}
    (h : encodeBlock body = .error e) (bodies : List (List Action)) (left : Residue) :
  bodyResidue (body :: bodies) left = (blockResidue body left).release body
  := by
  rw [bodyResidue, h]
  rfl

theorem bodyResidue_cons_of_ok {body : List Action} {bytes : Bytes}
    (h : encodeBlock body = .ok bytes) (bodies : List (List Action)) (left : Residue) :
  bodyResidue (body :: bodies) left = bodyResidue bodies ((blockResidue body left).release body)
  := by
  rw [bodyResidue, h]
  rfl

/-- The chunks of the first pass are linked by the second. -/
theorem assemble_of_ok {items : List Item} {chunks : List Bytes}
    (h : provisional items = .ok chunks) :
  assemble items = (link items chunks).map List.flatten
  := by
  rw [assemble, h]
  rfl

/-- The second pass keeps the chunk of an action that does not branch. -/
theorem linkFrom_of_plain {item : Item} (h : item.record.operands.isBranch = false)
    (starts : Array Nat) (items : List Item) (chunk : Bytes) (chunks : List Bytes) (index : Nat)
    (done : List Bytes) :
  linkFrom starts (item :: items) (chunk :: chunks) index done
    = linkFrom starts items chunks (index + 1) (chunk :: done)
  := by
  rw [linkFrom]
  cases hoperands : item.record.operands with
  | branch target old =>
    rw [hoperands] at h
    cases h
  | _ => rfl

/-- There are bytes of bodies exactly when there are bodies. -/
theorem isEmpty_of_encodeBodies {bodies : List (List Action)} {bytes : List Bytes}
    (h : encodeBodies bodies [] = .ok bytes) :
  bytes.isEmpty = bodies.isEmpty
  := by
  obtain ⟨_, hbodies, rfl⟩ := encodeBodies_eq_ok_iff.mp h
  cases hbodies <;> rfl

/-! ### Trees of a workspace -/

namespace Workspace

variable {w w' : Workspace}

theorem record_unfold (w : Workspace) (depth : Nat) (r : Ref) :
  (w.unfold depth r).record = w.recordOf r
  := by
  cases depth with
  | zero => rfl
  | succ depth =>
    rw [unfold, recordOf, record?]
    cases w.cells[r]? <;> rfl

/-- Workspaces that are alike have records that differ in the displacement only. -/
theorem Alike.recordOf (h : w.Alike w') (r : Ref) :
  (w.recordOf r).withDisplacement 0 = (w'.recordOf r).withDisplacement 0
  := by
  rw [Workspace.recordOf, Workspace.recordOf, record?, record?]
  obtain ⟨hcell, hcell'⟩ | ⟨cell, cell', hcell, hcell', hrecord, -⟩ := h.cell_cases r
  · rw [hcell, hcell']
  · rw [hcell, hcell']
    exact hrecord

theorem recordOf_modifyRecord (w : Workspace) (r : Ref) (d : Int) :
  (w.modifyRecord r (Record.withDisplacement d)).recordOf r = (w.recordOf r).withDisplacement d
  := by
  rw [recordOf, record?_modifyRecord, recordOf]
  cases w.record? r with
  | none => simp [Record.ofValue, Record.withDisplacement, Operands.withDisplacement]
  | some record => simp

/-- Setting the displacement of an action that does not branch changes nothing. -/
theorem modifyRecord_of_not_branch {r : Ref} (h : (w.recordOf r).operands.isBranch = false)
    (d : Int) :
  w.modifyRecord r (Record.withDisplacement d) = w
  := by
  have hcells : (w.modifyRecord r (Record.withDisplacement d)).cells = w.cells := by
    apply Array.ext_getElem?
    intro s
    simp only [modifyRecord, Array.getElem?_modify]
    split
    · rename_i hs
      subst hs
      cases hcell : w.cells[r]? with
      | none => rfl
      | some cell =>
        rw [recordOf, record?, hcell, Option.map_some, Option.getD_some] at h
        rw [Option.map_some, Record.withDisplacement_of_not_branch h]
    · rfl
  exact congrArg (fun cells => Workspace.mk cells w.root) hcells

theorem applySettings_concat (w : Workspace) (settings : List Setting) (r : Ref) (d : Int) :
  w.applySettings (settings ++ [⟨r, d⟩])
    = (w.applySettings settings).modifyRecord r (Record.withDisplacement d)
  := List.foldl_append

end Workspace

/-! ### What writing in place leaves behind -/

/-- Whether the state of writing in place is as listed for the trees: the displacements were set one
after the other, and the listed actions hold something. -/
structure Residue.Tracks (w : Workspace) (left : Residue) (s : Writing) : Prop where
  workspace : s.workspace = w.applySettings left.settings.reverse
  held : s.held.map Prod.fst = left.held

namespace Residue.Tracks

variable {w : Workspace} {left : Residue} {s : Writing}

/-- A write in progress has a workspace alike the one it began with. -/
theorem alike (h : left.Tracks w s) :
  w.Alike s.workspace
  := by
  rw [h.workspace]
  apply w.alike_applySettings

theorem recordOf (h : left.Tracks w s) (r : Ref) :
  (s.workspace.recordOf r).withDisplacement 0 = (w.recordOf r).withDisplacement 0
  := (h.alike.recordOf r).symm

/-- Setting a displacement gives the record that displacement, whatever it had before. -/
theorem recordOf_displace (h : left.Tracks w s) (r : Ref) (d : Int) :
  (s.displace r d).workspace.recordOf r = (w.recordOf r).withDisplacement d
  := by
  rw [Writing.displace, Workspace.recordOf_modifyRecord,
    ← Record.withDisplacement_withDisplacement _ 0, h.recordOf,
    Record.withDisplacement_withDisplacement]

theorem set (h : left.Tracks w s) (r : Ref) (d : Int) :
  (left.set (some r) d).Tracks w (s.displace r d)
  where
  workspace := by
    rw [Writing.displace, h.workspace, ← Workspace.applySettings_concat, ← List.reverse_cons]
    rfl
  held := h.held

theorem isBranch_recordOf (h : left.Tracks w s) (r : Ref) :
  (s.workspace.recordOf r).operands.isBranch = (w.recordOf r).operands.isBranch
  := by
  have hoperands := congrArg (fun r => r.operands.isBranch) (h.recordOf r)
  simp only [Record.withDisplacement, Operands.isBranch_withDisplacement] at hoperands
  exact hoperands

theorem exists_branch (h : left.Tracks w s) {r : Ref} {target old : Value}
    (hbranch : (w.recordOf r).operands = .branch target old) :
  ∃ old', (s.workspace.recordOf r).operands = .branch target old'
  := by
  have hset : (s.workspace.recordOf r).operands.withDisplacement 0
      = (w.recordOf r).operands.withDisplacement 0 :=
    congrArg Record.operands (h.recordOf r)
  rw [hbranch] at hset
  obtain ⟨old', hcurrent, -⟩ := Operands.eq_branch_of_withDisplacement hset
  exact ⟨old', hcurrent⟩

/-- Setting the displacement of an action that is no branch changes nothing. -/
theorem displace (h : left.Tracks w s) (r : Ref) (d : Int) :
  (if (w.recordOf r).operands.isBranch then left.set (some r) d else left).Tracks w
    (s.displace r d)
  := by
  split
  · exact h.set r d
  · rename_i hplain
    rw [Bool.not_eq_true, ← h.isBranch_recordOf] at hplain
    rw [Writing.displace, Workspace.modifyRecord_of_not_branch hplain]
    exact h

theorem hold (h : left.Tracks w s) (r : Ref) {bodies : List (List Action)} {bytes : List Bytes}
    (hempty : bytes.isEmpty = bodies.isEmpty) :
  (left.hold (some r) bodies).Tracks w (s.hold r bytes)
  where
  workspace := h.workspace
  held := by
    have hfilter : (s.held.filter (·.1 ≠ r)).map Prod.fst
        = left.held.filter (some · ≠ some r) := by
      rw [← h.held, List.filter_map]
      simp only [Function.comp_def, ne_eq, Option.some.injEq]
    rw [Writing.hold, List.map_append, hfilter, hempty]
    cases hbodies : bodies.isEmpty <;> simp [Residue.hold, hbodies]

theorem release (h : left.Tracks w s) (refs : List Ref) (depth : Nat) :
  (left.release (refs.map (w.unfold depth))).Tracks w (s.release refs)
  where
  workspace := h.workspace
  held := by
    have hidentities : (refs.map (w.unfold depth)).filterMap Action.identity = refs := by
      rw [List.filterMap_map]
      simp only [Function.comp_def, w.identity_unfold, List.filterMap_some]
    rw [Writing.release, Residue.release, hidentities, ← h.held, List.filter_map]
    rfl

/-- An action is listed as holding something if it does. -/
theorem holds_iff (h : left.Tracks w s) (r : Ref) :
  left.holds (some r) = (s.held.lookup r).isSome
  := by
  rw [holds, Option.all_some, ← h.held]
  induction s.held with
  | nil => rfl
  | cons entry entries ih =>
    rw [List.map_cons, List.contains_cons, ih, List.lookup_cons]
    cases r == entry.1 <;> rfl

end Residue.Tracks

theorem lookup_filter_key {α : Type} (keep : Ref → Bool) (entries : List (Ref × α)) (r : Ref) :
  (entries.filter (keep ·.1)).lookup r = if keep r then entries.lookup r else none
  := by
  induction entries with
  | nil => rw [List.filter_nil, List.lookup_nil, ite_self]
  | cons entry entries ih =>
    obtain ⟨key, value⟩ := entry
    by_cases heq : r = key
    · subst heq
      cases hkeep : keep r with
      | true => simp only [List.filter_cons, hkeep, if_true, List.lookup_cons, beq_self_eq_true]
      | false => simpa only [List.filter_cons, hkeep, Bool.false_eq_true, if_false] using ih
    · have hne : (r == key) = false := beq_false_of_ne heq
      rw [List.lookup_cons, hne, ← ih, List.filter_cons]
      split
      · rw [List.lookup_cons, hne]
      · rfl

namespace Writing

/-- An action holds what it was last given, and nothing where it has no bodies. -/
theorem lookup_hold_self (s : Writing) (r : Ref) (bodies : List Bytes) :
  (s.hold r bodies).held.lookup r = if bodies.isEmpty then none else some bodies
  := by
  rw [hold, List.lookup_append, lookup_filter_key (fun x => decide (x ≠ r))]
  cases bodies with
  | nil => simp
  | cons body bodies => simp

/-- Holding the bodies of one action does not touch those of another. -/
theorem lookup_hold_of_ne (s : Writing) {r x : Ref} (h : x ≠ r) (bodies : List Bytes) :
  (s.hold r bodies).held.lookup x = s.held.lookup x
  := by
  rw [hold, List.lookup_append, lookup_filter_key (fun y => decide (y ≠ r))]
  cases bodies with
  | nil => simp [h]
  | cons body bodies => simp [List.lookup_cons, beq_false_of_ne h, h]

/-- A release drops what the actions of the block hold and nothing else. -/
theorem lookup_release (s : Writing) (refs : List Ref) (r : Ref) :
  (s.release refs).held.lookup r = if r ∈ refs then none else s.held.lookup r
  := by
  rw [show (s.release refs).held = s.held.filter (!refs.contains ·.1) from rfl,
    lookup_filter_key (fun x => !refs.contains x)]
  by_cases h : r ∈ refs <;> simp [h]

end Writing

/-- Whether nothing is held at the end but what was held at the start, except by some actions. -/
def Writing.KeepsOutside (refs : List Ref) (s s' : Writing) : Prop :=
  ∀ r ∉ refs, s'.held.lookup r = s.held.lookup r ∨ s'.held.lookup r = none

namespace Writing.KeepsOutside

variable {refs : List Ref} {s s' s'' : Writing}

theorem refl (s : Writing) :
  s.KeepsOutside refs s
  := fun _ _ => .inl rfl

theorem trans (h : s.KeepsOutside refs s') (h' : s'.KeepsOutside refs s'') :
  s.KeepsOutside refs s''
  := by
  intro r hr
  obtain hsame | hnone := h' r hr
  · rw [hsame]
    exact h r hr
  · exact .inr hnone

theorem mono {refs' : List Ref} (h : s.KeepsOutside refs s') (hrefs : refs ⊆ refs') :
  s.KeepsOutside refs' s'
  := fun r hr => h r fun hmem => hr (hrefs hmem)

end Writing.KeepsOutside

/-- Whether what actions hold are the bytes of their bodies, given the actions as trees. -/
def Writing.Right (tree : Ref → Action) (refs : List Ref) (s : Writing) : Prop :=
  ∀ r ∈ refs, ∀ bodies, s.held.lookup r = some bodies →
    encodeBodies (tree r).bodies [] = .ok bodies

theorem Writing.Right.of_mem {tree : Ref → Action} {refs : List Ref} {s : Writing} {r : Ref}
    (h : s.Right tree refs) (hr : r ∈ refs) :
  s.Right tree [r]
  := by
  intro x hx
  rw [List.mem_singleton.mp hx]
  exact h r hr

/-- What a write holds rightly stays right where nothing new is held. -/
theorem Writing.Right.of_keeps {tree : Ref → Action} {refs : List Ref} {s s' : Writing}
    (h : s.Right tree refs) (hkeeps : s.KeepsOutside [] s') :
  s'.Right tree refs
  := by
  intro r hr bodies hbodies
  obtain hsame | hnone := hkeeps r List.not_mem_nil
  · rw [hsame] at hbodies
    exact h r hr bodies hbodies
  · rw [hnone] at hbodies
    cases hbodies

/-- Whether bodies are written in place as those of trees. -/
def WritesBodies (w : Workspace) (depth : Nat) (fresh : Ref → WriteOp (List Bytes)) : Prop :=
  ∀ r left s, Residue.Tracks w left s →
    ∃ s', (fresh r).run s = (encodeBodies (w.unfold depth r).bodies [], s')
      ∧ (bodyResidue (w.unfold depth r).bodies left).Tracks w s' ∧ s.KeepsOutside [] s'

/-- An item for an action of the workspace: its record, with the bytes of its bodies. -/
def Itemizes (w : Workspace) (depth : Nat) (r : Ref) (item : Item) : Prop :=
  item.record = w.recordOf r ∧ encodeBodies (w.unfold depth r).bodies [] = .ok item.bodies

namespace WriteOp

variable {w : Workspace} {depth : Nat} {fresh : Ref → WriteOp (List Bytes)} {r : Ref}
  {left : Residue} {s : Writing}

theorem run_record (r : Ref) (s : Writing) :
  (record r).run s = (.ok (s.workspace.recordOf r), s)
  := rfl

/-- An action is written with the bytes of its bodies. These are written anew if it does not hold
them. -/
theorem run_action (hfresh : WritesBodies w depth fresh) (htracks : left.Tracks w s)
    (hright : s.Right (w.unfold depth) [r]) {bodies : List Bytes}
    (hbodies : encodeBodies (w.unfold depth r).bodies [] = .ok bodies) :
  ∃ s', (action fresh r).run s = (.ok ((s.workspace.recordOf r).serialize bodies), s')
    ∧ (left.renew (some r) (s.workspace.recordOf r)
      (bodyResidue (w.unfold depth r).bodies)).Tracks w s'
    ∧ s.KeepsOutside [] s'
  := by
  rw [action, run_bind_of_ok (run_record r s), Residue.renew]
  cases hreaches : (s.workspace.recordOf r).reachesBodies with
  | false =>
    use s
    rw [Record.serialize_of_not_reachesBodies hreaches bodies]
    exact ⟨rfl, htracks, .refl s⟩
  | true =>
    rw [htracks.holds_iff]
    cases hheld : s.held.lookup r with
    | some held =>
      have hrun : (heldOr fresh r).run s = (.ok held, s) := by
        rw [heldOr, run_bind_of_ok run_get, hheld]
        rfl
      obtain rfl : held = bodies := by
        have hheld' := hright r List.mem_cons_self held hheld
        rw [hbodies] at hheld'
        exact (Except.ok.inj hheld').symm
      use s
      rw [if_pos rfl, run_bind_of_ok hrun]
      exact ⟨rfl, htracks, .refl s⟩
    | none =>
      obtain ⟨s', hfresh', htracks', hkeeps⟩ := hfresh r left s htracks
      have hrun : (heldOr fresh r).run s = (.ok bodies, s') := by
        rw [heldOr, run_bind_of_ok run_get, hheld, ← hbodies]
        exact hfresh'
      use s'
      rw [if_pos rfl, run_bind_of_ok hrun]
      exact ⟨rfl, htracks', hkeeps⟩

/-- An action is written with the displacement set for it. -/
theorem run_displaced (hfresh : WritesBodies w depth fresh) {item : Item}
    (hitem : Itemizes w depth r item) (d : Int) (htracks : left.Tracks w s)
    (hright : s.Right (w.unfold depth) [r]) :
  ∃ s', (action fresh r).run (s.displace r d) = (.ok (item.serialize d), s')
    ∧ ((if item.record.operands.isBranch then left.set (some r) d else left).renew (some r)
      (item.record.withDisplacement d) (bodyResidue (w.unfold depth r).bodies)).Tracks w s'
    ∧ s.KeepsOutside [] s'
  := by
  obtain ⟨hrecord, hbodies⟩ := hitem
  have hright' : (s.displace r d).Right (w.unfold depth) [r] := hright
  obtain ⟨s', hrun, htracks', hkeeps⟩ := run_action hfresh (htracks.displace r d) hright' hbodies
  rw [htracks.recordOf_displace, ← hrecord] at hrun htracks'
  exact ⟨s', hrun, htracks', hkeeps⟩

/-- Adapting an error does not touch the state. -/
theorem run_adapt {ε α : Type} (f : EncodeError → ε) (x : WriteOp α) (s : Writing) :
  (ExceptT.adapt f x).run s = ((x.run s).1.mapError f, (x.run s).2)
  := rfl

/-- A block releases its bodies whether it was written or not. -/
theorem run_releasing {α : Type} (refs : List Ref) (x : WriteOp α) (s : Writing) :
  (releasing refs x).run s = ((x.run s).1, (x.run s).2.release refs)
  := rfl

/-- The bodies of the actions of a block are written, and what the actions hold then are the bytes
of their bodies. -/
theorem run_holdAll (hfresh : WritesBodies w depth fresh) (refs : List Ref) (index : Nat)
    (done : List Item) (htracks : left.Tracks w s) :
  ∃ s', (holdAll fresh refs index).run s
      = ((encodeItems (refs.map (w.unfold depth)) index done).map fun _ => (), s')
    ∧ (holdBodies (refs.map (w.unfold depth)) left).Tracks w s'
    ∧ s.KeepsOutside refs s'
    ∧ ∀ items, encodeItems (refs.map (w.unfold depth)) index done = .ok items →
      s'.Right (w.unfold depth) refs
  := by
  induction refs generalizing index done left s with
  | nil =>
    refine ⟨s, ?_, ?_, .refl s, ?_⟩
    · rw [List.map_nil, encodeItems]
      rfl
    · rw [List.map_nil, holdBodies]
      exact htracks
    · intro _ _ r hr
      cases hr
  | cons r refs ih =>
    obtain ⟨s₁, hrun, htracks₁, hkeeps₁⟩ := hfresh r left s htracks
    rw [holdAll, List.map_cons]
    cases hbodies : encodeBodies (w.unfold depth r).bodies [] with
    | error e =>
      rw [hbodies] at hrun
      have hadapt : (ExceptT.adapt (EncodeError.within index) (fresh r)).run s
          = (.error (e.within index), s₁) := by
        rw [run_adapt, hrun]
        rfl
      rw [encodeItems_cons_of_error hbodies, holdBodies_cons_of_error hbodies]
      refine ⟨s₁, ?_, htracks₁, hkeeps₁.mono (List.nil_subset _), ?_⟩
      · rw [run_bind_of_error hadapt]
        rfl
      · intro items hitems
        cases hitems
    | ok bytes =>
      rw [hbodies] at hrun
      have hadapt : (ExceptT.adapt (EncodeError.within index) (fresh r)).run s
          = (.ok bytes, s₁) := by
        rw [run_adapt, hrun]
        rfl
      have hempty := isEmpty_of_encodeBodies hbodies
      have htracks₂ := htracks₁.hold r hempty
      rw [← w.identity_unfold depth r] at htracks₂
      obtain ⟨s', hrun', htracks', hkeeps', hright'⟩ :=
        ih (index + 1) (⟨(w.unfold depth r).record, bytes⟩ :: done) htracks₂
      rw [encodeItems_cons_of_ok hbodies, holdBodies_cons_of_ok hbodies]
      refine ⟨s', ?_, htracks', ?_, ?_⟩
      · rw [run_bind_of_ok hadapt, run_bind_of_ok (run_modify _)]
        exact hrun'
      · intro x hx
        rw [List.mem_cons, not_or] at hx
        obtain hsame | hnone := hkeeps' x hx.2
        · rw [hsame, Writing.lookup_hold_of_ne s₁ hx.1]
          exact hkeeps₁ x List.not_mem_nil
        · exact .inr hnone
      · intro items hitems x hx bodies hheld
        by_cases hmem : x ∈ refs
        · exact hright' items hitems x hmem bodies hheld
        · obtain rfl : x = r := (List.mem_cons.mp hx).resolve_right hmem
          obtain hsame | hnone := hkeeps' x hmem
          · rw [hsame, Writing.lookup_hold_self] at hheld
            split at hheld
            · cases hheld
            · rw [hbodies, Option.some.inj hheld]
          · rw [hnone] at hheld
            cases hheld

/-- The records of a block are written, branches without a displacement. -/
theorem run_draftAll (hfresh : WritesBodies w depth fresh) {refs : List Ref} {items : List Item}
    (hitems : List.Forall₂ (Itemizes w depth) refs items) (index offset : Nat) (done : List Bytes)
    (htracks : left.Tracks w s) (hright : s.Right (w.unfold depth) refs) :
  ∃ s', (draftAll fresh refs index offset done).run s
      = (provisionalFrom items index offset done, s')
    ∧ (firstResidue (failedAt (provisionalFrom items index offset done))
      (refs.map (w.unfold depth)) index left).Tracks w s'
    ∧ s.KeepsOutside [] s'
  := by
  induction hitems generalizing index offset done left s with
  | nil =>
    refine ⟨s, rfl, ?_, .refl s⟩
    rw [List.map_nil, firstResidue]
    exact htracks
  | @cons r item refs items hitem _ ih =>
    obtain ⟨s₂, hrun, htracks₂, hkeeps₂⟩ :=
      run_displaced hfresh hitem 0 htracks (hright.of_mem List.mem_cons_self)
    have hdisplaced : (s.displace r 0).workspace.recordOf r = item.record.withDisplacement 0 := by
      rw [htracks.recordOf_displace, hitem.1]
    have hfirst := firstResidue_cons (failedAt (provisionalFrom (item :: items) index offset done))
      (w.unfold depth r) (refs.map (w.unfold depth)) index left rfl
    rw [w.identity_unfold, w.record_unfold, ← hitem.1] at hfirst
    rw [List.map_cons, hfirst, draftAll, run_bind_of_ok (run_modify _),
      run_bind_of_ok (run_record r _), run_bind_of_ok hrun, hdisplaced]
    cases hserialize : item.serialize 0 with
    | error fault =>
      have hfailed : provisionalFrom (item :: items) index offset done
          = .error (item.error index offset fault) := by
        rw [provisionalFrom, hserialize]
      rw [hfailed, failedAt, Item.index_error, if_pos rfl]
      exact ⟨s₂, rfl, htracks₂, hkeeps₂⟩
    | ok chunk =>
      have hrest : provisionalFrom (item :: items) index offset done
          = provisionalFrom items (index + 1) (offset + chunk.length) (chunk :: done) := by
        rw [provisionalFrom, hserialize]
      rw [hrest, if_neg (failedAt_provisionalFrom_ne (Nat.lt_succ_self index))]
      have hright₂ : s₂.Right (w.unfold depth) refs := by
        apply Writing.Right.of_keeps _ hkeeps₂
        exact fun x hx => hright x (List.mem_cons_of_mem r hx)
      obtain ⟨s', hrun', htracks', hkeeps'⟩ :=
        ih (index + 1) (offset + chunk.length) (chunk :: done) htracks₂ hright₂
      exact ⟨s', hrun', htracks', hkeeps₂.trans hkeeps'⟩

/-- The second pass over references keeps the chunk of an action that does not branch. -/
theorem run_linkAll_of_plain (h : (s.workspace.recordOf r).operands.isBranch = false)
    (starts : Array Nat) (refs : List Ref) (chunk : Bytes) (chunks : List Bytes) (index : Nat)
    (done : List Bytes) :
  (linkAll fresh starts (r :: refs) (chunk :: chunks) index done).run s
    = (linkAll fresh starts refs chunks (index + 1) (chunk :: done)).run s
  := by
  rw [linkAll, run_bind_of_ok (run_record r s)]
  cases hoperands : (s.workspace.recordOf r).operands with
  | branch target old =>
    rw [hoperands] at h
    cases h
  | _ => rfl

/-- The branches of a block are written again, with their displacements. -/
theorem run_linkAll (hfresh : WritesBodies w depth fresh) {refs : List Ref} {items : List Item}
    {chunks : List Bytes} (hitems : List.Forall₂ (Itemizes w depth) refs items)
    (hchunks : List.Forall₂ (fun item chunk => item.serialize 0 = .ok chunk) items chunks)
    (starts : Array Nat) (index : Nat) (done : List Bytes) (htracks : left.Tracks w s)
    (hright : s.Right (w.unfold depth) refs) :
  ∃ s', (linkAll fresh starts refs chunks index done).run s
      = (linkFrom starts items chunks index done, s')
    ∧ (secondResidue starts (refs.map (w.unfold depth)) index left).Tracks w s'
    ∧ s.KeepsOutside [] s'
  := by
  induction hitems generalizing chunks index done left s with
  | nil =>
    cases hchunks
    refine ⟨s, rfl, ?_, .refl s⟩
    rw [List.map_nil, secondResidue]
    exact htracks
  | @cons r item refs items hitem _ ih =>
    obtain _ | @⟨_, chunk, _, chunks, hchunk, hchunks⟩ := hchunks
    have hrecord : (w.unfold depth r).record = item.record := by rw [w.record_unfold, hitem.1]
    have hrefs : s.Right (w.unfold depth) refs :=
      fun x hx => hright x (List.mem_cons_of_mem r hx)
    rw [List.map_cons]
    cases hbranch : item.record.operands.isBranch with
    | false =>
      have hplain : (s.workspace.recordOf r).operands.isBranch = false := by
        rw [htracks.isBranch_recordOf, ← hitem.1, hbranch]
      rw [← hrecord] at hbranch
      rw [run_linkAll_of_plain hplain, linkFrom_of_plain (hrecord ▸ hbranch),
        secondResidue_cons_of_plain hbranch]
      exact ih hchunks (index + 1) (chunk :: done) htracks hrefs
    | true =>
      obtain ⟨target, old, hoperands⟩ := Operands.exists_branch_of_isBranch hbranch
      obtain ⟨old', hcurrent⟩ := htracks.exists_branch (hitem.1 ▸ hoperands)
      have hsame := htracks.recordOf r
      rw [← hitem.1] at hsame
      have htree : (w.unfold depth r).record.operands = .branch target old := by
        rw [hrecord, hoperands]
      rw [linkAll, run_bind_of_ok (run_record r s), linkFrom, hcurrent, hoperands]
      dsimp only
      rw [displacement_congr hsame]
      cases hd : displacement starts index item.record target with
      | error e =>
        rw [secondResidue_cons_of_error htree (hrecord ▸ hd)]
        exact ⟨s, rfl, htracks, .refl s⟩
      | ok d =>
        -- The record fits with its displacement, since it fits without one.
        obtain ⟨out, hout⟩ := Item.exists_serialize_of_displacement hchunk hd
        obtain ⟨s₂, hrun, htracks₂, hkeeps₂⟩ :=
          run_displaced hfresh hitem d htracks (hright.of_mem List.mem_cons_self)
        rw [hout] at hrun
        rw [if_pos hbranch, ← hrecord, ← w.identity_unfold depth r] at htracks₂
        obtain ⟨s', hrun', htracks', hkeeps'⟩ :=
          ih hchunks (index + 1) (out :: done) htracks₂ (hrefs.of_keeps hkeeps₂)
        rw [secondResidue_cons_of_ok htree (hrecord ▸ hd)]
        refine ⟨s', ?_, htracks', hkeeps₂.trans hkeeps'⟩
        dsimp only
        rw [run_bind_of_ok (run_modify _), run_bind_of_ok hrun, hout]
        exact hrun'

/-- The items of a block belong to its references one by one. -/
theorem forall₂_itemizes {refs : List Ref} {items : List Item}
    (h : encodeItems (refs.map (w.unfold depth)) 0 [] = .ok items) :
  List.Forall₂ (Itemizes w depth) refs items
  := by
  obtain ⟨_, hitems, rfl⟩ := encodeItems_eq_ok_iff.mp h
  apply (List.forall₂_map_left_iff.mp hitems).imp
  rintro r item ⟨hrecord, hbodies⟩
  rw [w.record_unfold] at hrecord
  exact ⟨hrecord, encodeBodies_eq_ok_iff.mpr ⟨_, hbodies, rfl⟩⟩

/-- The passes over a block write it as the block of trees that it unfolds to. -/
theorem run_passes (hfresh : WritesBodies w depth fresh) (refs : List Ref)
    (htracks : left.Tracks w s) :
  ∃ s', (passes fresh refs).run s = (encodeBlock (refs.map (w.unfold depth)), s')
    ∧ (blockResidue (refs.map (w.unfold depth)) left).Tracks w s'
    ∧ s.KeepsOutside refs s'
  := by
  obtain ⟨s₁, hhold, htracks₁, hkeeps₁, hright₁⟩ := run_holdAll hfresh refs 0 [] htracks
  rw [passes, encodeBlock, blockResidue]
  cases hitems : encodeItems (refs.map (w.unfold depth)) 0 [] with
  | error e =>
    rw [hitems] at hhold
    rw [run_bind_of_error hhold]
    exact ⟨s₁, rfl, htracks₁, hkeeps₁⟩
  | ok items =>
    rw [hitems] at hhold
    rw [run_bind_of_ok hhold]
    obtain ⟨s₂, hdraft, htracks₂, hkeeps₂⟩ :=
      run_draftAll hfresh (forall₂_itemizes hitems) 0 0 [] htracks₁ (hright₁ items hitems)
    rw [← provisional] at hdraft htracks₂
    have hkeeps : s.KeepsOutside refs s₂ := hkeeps₁.trans (hkeeps₂.mono (List.nil_subset refs))
    rw [show (Except.ok items >>= assemble) = assemble items from rfl]
    dsimp only
    cases hchunks : provisional items with
    | error e =>
      rw [hchunks] at hdraft htracks₂
      rw [run_bind_of_error hdraft, assemble, hchunks]
      exact ⟨s₂, rfl, htracks₂, hkeeps⟩
    | ok chunks =>
      rw [hchunks] at hdraft htracks₂
      rw [run_bind_of_ok hdraft, assemble_of_ok hchunks]
      obtain ⟨_, hserialized, rfl⟩ := provisionalFrom_eq_ok_iff.mp hchunks
      obtain ⟨s₃, hlink, htracks₃, hkeeps₃⟩ :=
        run_linkAll hfresh (forall₂_itemizes hitems) hserialized (starts _) 0 [] htracks₂
          ((hright₁ items hitems).of_keeps hkeeps₂)
      refine ⟨s₃, ?_, htracks₃, hkeeps.trans (hkeeps₃.mono (List.nil_subset refs))⟩
      rw [← link] at hlink
      rw [bind_pure_comp, run_map, hlink]

/-- A block is written as the block of trees that it unfolds to. -/
theorem run_block (hfresh : WritesBodies w depth fresh) (refs : List Ref)
    (htracks : left.Tracks w s) :
  ∃ s', (block fresh refs).run s = (encodeBlock (refs.map (w.unfold depth)), s')
    ∧ ((blockResidue (refs.map (w.unfold depth)) left).release
      (refs.map (w.unfold depth))).Tracks w s'
    ∧ s.KeepsOutside [] s'
  := by
  obtain ⟨s', hrun, htracks', hkeeps⟩ := run_passes hfresh refs htracks
  refine ⟨s'.release refs, ?_, ?_, ?_⟩
  · rw [block, run_releasing, hrun]
  · exact htracks'.release refs depth
  · intro r _
    rw [Writing.lookup_release]
    by_cases hr : r ∈ refs
    · exact .inr (if_pos hr)
    · rw [if_neg hr]
      exact hkeeps r hr

/-- The bodies of an action are written in place as they are as trees, and nothing more is held
afterwards. -/
theorem run_mapM_block (hfresh : WritesBodies w depth fresh) (bodies : List (List Ref))
    (htracks : left.Tracks w s) :
  ∃ s', (bodies.mapM (block fresh)).run s
      = ((bodies.map (List.map (w.unfold depth))).mapM encodeBlock, s')
    ∧ (bodyResidue (bodies.map (List.map (w.unfold depth))) left).Tracks w s'
    ∧ s.KeepsOutside [] s'
  := by
  induction bodies generalizing left s with
  | nil =>
    refine ⟨s, rfl, ?_, .refl s⟩
    rw [List.map_nil, bodyResidue]
    exact htracks
  | cons body bodies ih =>
    obtain ⟨s₁, hrun, htracks₁, hkeeps₁⟩ := run_block hfresh body htracks
    rw [List.mapM_cons, List.map_cons, List.mapM_cons]
    cases hbody : encodeBlock (body.map (w.unfold depth)) with
    | error e =>
      rw [hbody] at hrun
      rw [bodyResidue_cons_of_error hbody, run_bind_of_error hrun]
      exact ⟨s₁, rfl, htracks₁, hkeeps₁⟩
    | ok bytes =>
      rw [hbody] at hrun
      obtain ⟨s', hrun', htracks', hkeeps'⟩ := ih htracks₁
      rw [bodyResidue_cons_of_ok hbody, run_bind_of_ok hrun]
      refine ⟨s', ?_, htracks', hkeeps₁.trans hkeeps'⟩
      cases hrest : (bodies.map (List.map (w.unfold depth))).mapM encodeBlock with
      | error e =>
        rw [hrest] at hrun'
        rw [run_bind_of_error hrun']
        rfl
      | ok rest =>
        rw [hrest] at hrun'
        rw [run_bind_of_ok hrun']
        rfl

/-- Bodies are written as those of trees, however deep. -/
theorem writesBodies (w : Workspace) (depth : Nat) :
  WritesBodies w depth (bodies depth)
  := by
  induction depth with
  | zero =>
    intro r left s htracks
    rw [show (w.unfold 0 r).bodies = [] from rfl, encodeBodies, bodyResidue]
    exact ⟨s, rfl, htracks, .refl s⟩
  | succ depth ih =>
    intro r left s htracks
    obtain ⟨s', hrun, htracks', hkeeps⟩ :=
      run_mapM_block ih ((w.cells[r]?.map Cell.bodies).getD []) htracks
    rw [w.bodies_unfold_succ, encodeBodies_eq_mapM]
    refine ⟨s', ?_, htracks', hkeeps⟩
    rw [bodies, run_bind_of_ok run_get]
    obtain ⟨hcell, hcell'⟩ | ⟨cell, cell', hcell, hcell', -, hbodies⟩ := htracks.alike.cell_cases r
    · rw [hcell] at hrun ⊢
      rw [hcell', ← hrun]
      rfl
    · rw [hcell, Option.map_some, Option.getD_some] at hrun ⊢
      rw [hcell', ← hrun, hbodies]

end WriteOp

/-! ### A whole block -/

theorem Writing.KeepsOutside.held_eq_nil {s s' : Writing} (h : s.KeepsOutside [] s')
    (hs : s.held = []) :
  s'.held = []
  := by
  cases hheld : s'.held with
  | nil => rfl
  | cons entry entries =>
    have hlookup : s'.held.lookup entry.1 = none := by
      obtain hsame | hnone := h entry.1 List.not_mem_nil
      · rw [hsame, hs, List.lookup_nil]
      · exact hnone
    rw [hheld, List.lookup_cons, beq_self_eq_true] at hlookup
    cases hlookup

/-- The settings of a block are what its two passes set, in order. -/
theorem settings_eq (block : List Action) :
  settings block = ((blockResidue block {}).release block).settings.reverse
  := by
  rw [settings]
  cases hblock : encodeBlock block with
  | error e => rw [bodyResidue_cons_of_error hblock]
  | ok bytes => rw [bodyResidue_cons_of_ok hblock, bodyResidue]

/-- Writing a block in place writes the block of trees that it unfolds to, makes the settings listed
for the trees, and lets go of everything that actions held meanwhile. -/
theorem Workspace.writeBlock_eq (w : Workspace) (place : Place) :
  w.writeBlock place
    = ((w.encodeBlock place).1, { workspace := (w.encodeBlock place).2, held := [] })
  := by
  have hstart : Residue.Tracks w {} { workspace := w } := ⟨rfl, rfl⟩
  obtain ⟨s', hrun, htracks, hkeeps⟩ :=
    WriteOp.run_block (WriteOp.writesBodies w w.cells.size) (w.contents place) hstart
  have hworkspace : s'.workspace = (w.encodeBlock place).2 := by
    rw [htracks.workspace, encodeBlock, settings_eq]
    rfl
  have hheld : s'.held = [] := hkeeps.held_eq_nil rfl
  rw [writeBlock, hrun, ← hworkspace, ← hheld]
  rfl

/-! ### The layout of what is written -/

/-- What is written for a block in place is laid out: it is a chunk for each action of the block,
each branch among them holds the distance to where its target starts, and each action with bodies
holds their sizes, and is followed by them, laid out in turn. An action that occurs more than once
is laid out at each occurrence, although all of its occurrences share a displacement and what it
holds. At the end no action holds anything; and whatever displacements the branches were left with
by writing something else, the same bytes are written, as they are for the trees that the block
unfolds to. Operands and bodies are left out after a code below `0x80` only, and no table lists a
branch or an action with bodies under such a code. -/
theorem writeBlock_layout {w : Workspace} {place : Place} {bytes : Bytes}
    (h : (w.writeBlock place).1 = .ok bytes) :
  BlockLaidOut (w.block place) bytes
    ∧ (w.writeBlock place).2.held = []
    ∧ ∀ settings, ((w.applySettings settings).writeBlock place).1 = .ok bytes
      ∧ ((w.applySettings settings).encodeBlock place).1 = .ok bytes
  := by
  rw [Workspace.writeBlock_eq] at h
  refine ⟨BlockLaidOut.of_encodeBlock h, by rw [Workspace.writeBlock_eq], ?_⟩
  intro settings
  have hagain := (w.alike_applySettings settings).encodeBlock h
  rw [Workspace.writeBlock_eq]
  exact ⟨hagain, hagain⟩

/-- A branch back to the start of its block, and an action with this branch for a body. The branch
is in the root too, between two occurrences of the action. -/
def sharedBranch : Workspace where
  cells := #[⟨.jump 0, []⟩, ⟨.withObject, [[0]]⟩]
  root := [1, 0, 1]

/-- What the block is written as. -/
def sharedBranchBytes : Bytes :=
  [0x94, 0x02, 0x00, 0x05, 0x00, 0x99, 0x02, 0x00, 0xFB, 0xFF,
    0x99, 0x02, 0x00, 0xF1, 0xFF,
    0x94, 0x02, 0x00, 0x05, 0x00, 0x99, 0x02, 0x00, 0xFB, 0xFF]

theorem writeBlock_layout_sharedBranch :
  (sharedBranch.writeBlock .root).1 = .ok sharedBranchBytes
    ∧ BlockLaidOut (sharedBranch.block .root) sharedBranchBytes
    ∧ ((sharedBranch.encodeBlock .root).2.writeBlock .root).1 = .ok sharedBranchBytes
  := by
  have hbytes : (sharedBranch.writeBlock .root).1 = .ok sharedBranchBytes := by decide +kernel
  obtain ⟨hlaid, -, hagain⟩ := writeBlock_layout hbytes
  exact ⟨hbytes, hlaid, (hagain _).1⟩

end ActionBlock
