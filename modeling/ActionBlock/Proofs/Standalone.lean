import ActionBlock.Proofs.Adoption
import ActionBlock.Proofs.Reencoding
import ActionBlock.Proofs.Scanning
import Mathlib.Data.List.Pairwise

/-!
# Actions on their own

An action that is written on its own has its bodies written anew, twice, and a branch is written
with the displacement that was left to it. If every branch of a block has the displacement that it
is to be written with, as after the block was written or read, then every action of the block is
written on its own as in the block. That changes displacements in its bodies only, so it stays so if
no action occurs in the block twice, however many of its actions are written on their own, and in
whatever order.
-/

namespace ActionBlock

/-- Whether a kind is misused does not depend on what is asked of it. -/
theorem ActionKind.misuse?_eq_none {kind : ActionKind} {asked : Text}
    (h : kind.misuse? asked = none) (asked' : Text) :
  kind.misuse? asked' = none
  := by
  cases kind with
  | listed table entry => rfl
  | unlisted code => rfl
  | foreign value => cases h
  | formless value => cases h

/-! ### One action -/

/-- An action whose record, with the bytes of its bodies, is written as the given bytes. -/
def Action.Stands (a : Action) (chunk : Bytes) : Prop :=
  ∃ bodies, encodeBodies a.bodies [] = .ok bodies ∧ a.record.serialize bodies = .ok chunk

namespace Workspace

/-- The same for an action of a workspace. -/
def Standing (w : Workspace) (r : Ref) (chunk : Bytes) : Prop := (w.action r).Stands chunk

/-- An action stands as a chunk exactly when its bodies are written and its record is serialized
around them to it. -/
theorem standing_iff {w : Workspace} {r : Ref} {chunk : Bytes} :
  w.Standing r chunk ↔ ∃ bodies, encodeBodies (w.action r).bodies [] = .ok bodies
    ∧ (w.recordOf r).serialize bodies = .ok chunk
  := by
  rw [Standing, Action.Stands, action, record_unfold]

/-- Whether nothing is left behind but displacements that were set in the bodies of an action. -/
def Leaves (w : Workspace) (r : Ref) (s : Writing) : Prop :=
  ∃ left, Residue.Tracks w left s ∧ s.held = []
    ∧ Residue.Extends (bodiesIdentities (w.action r).bodies) {} left

end Workspace

namespace SerializeOp

variable {w : Workspace} {r : Ref} {chunk : Bytes} {left : Residue} {s : Writing}

theorem run_own {α : Type} {x : Except Fault α} {a : α} (h : x = .ok a) (s : Writing) :
  (own x).run s = (.ok a, s)
  := by
  rw [h]
  rfl

/-- An action that holds nothing has its bodies written. -/
theorem run_bodies (htracks : left.Tracks w s) (hheld : s.held = []) {bytes : List Bytes}
    (hbytes : encodeBodies (w.action r).bodies [] = .ok bytes) :
  ∃ s', (bodies (WriteOp.bodies w.cells.size) r).run s = (.ok bytes, s')
    ∧ (bodyResidue (w.action r).bodies left).Tracks w s' ∧ s'.held = []
  := by
  obtain ⟨s', hfresh, htracks', hkeeps⟩ := WriteOp.writesBodies w w.cells.size r left s htracks
  use s'
  refine ⟨?_, htracks', hkeeps.held_eq_nil hheld⟩
  have hrun : (WriteOp.heldOr (WriteOp.bodies w.cells.size) r).run s = (.ok bytes, s') := by
    rw [WriteOp.heldOr, run_bind_of_ok run_get, hheld, ← hbytes]
    exact hfresh
  rw [bodies, WriteOp.run_adapt, hrun]
  rfl

/-- The bodies are written twice, and are the same both times. -/
theorem run_long {s : Writing} (htracks : left.Tracks w s) (hheld : s.held = []) {record : Record}
    {bytes : List Bytes} (hbytes : encodeBodies (w.action r).bodies [] = .ok bytes)
    (hchunk : record.serializeLong bytes = .ok chunk) :
  ∃ s', (long (WriteOp.bodies w.cells.size) r record).run s = (.ok chunk, s')
    ∧ (bodyResidue (w.action r).bodies (bodyResidue (w.action r).bodies left)).Tracks w s'
    ∧ s'.held = []
  := by
  obtain ⟨header, hheader, rfl⟩ := map_eq_ok_iff.mp hchunk
  obtain ⟨operands, -, hoperands, -⟩ := Record.header_eq_ok_iff.mp hheader
  obtain ⟨wire, -, hwire, -⟩ := Record.operandBytes_eq_ok_iff.mp hoperands
  obtain ⟨fields, -, hfields, -⟩ := Operands.wire_eq_ok_iff.mp hwire
  obtain ⟨s₁, hsized, htracks₁, hheld₁⟩ := run_bodies htracks hheld hbytes
  obtain ⟨s₂, hwritten, htracks₂, hheld₂⟩ := run_bodies htracks₁ hheld₁ hbytes
  use s₂
  refine ⟨?_, htracks₂, hheld₂⟩
  rw [long, run_bind_of_ok (run_discard_of_ok (run_own hfields s)), run_bind_of_ok hsized,
    run_bind_of_ok (run_own hheader s₁), run_bind_of_ok hwritten]
  rfl

/-- An action on its own is written as its record with the bytes of its bodies. -/
theorem run_action (h : w.Standing r chunk) :
  ∃ s', (action (WriteOp.bodies w.cells.size) r).run { workspace := w } = (.ok chunk, s')
    ∧ w.Leaves r s'
  := by
  obtain ⟨bytes, hbytes, hchunk⟩ := Workspace.standing_iff.mp h
  have hstart : Residue.Tracks w {} { workspace := w } := ⟨rfl, rfl⟩
  obtain ⟨hkind, hserialized⟩ := Record.serialize_eq_ok_iff.mp hchunk
  rw [action, run_bind_of_ok run_get]
  dsimp only
  rw [ActionKind.misuse?_eq_none hkind]
  dsimp only
  obtain ⟨hlong, code, hcode, rfl⟩ | ⟨hlong, hchunk⟩ := hserialized
  · have hshort : (w.recordOf r).serialize [] = .ok [code] :=
      Record.serialize_eq_ok_iff.mpr ⟨hkind, .inl ⟨hlong, code, hcode, rfl⟩⟩
    use { workspace := w }
    rw [run_bind_of_ok (run_own hlong _)]
    exact ⟨run_own hshort _, {}, hstart, rfl, .refl _⟩
  · obtain ⟨s', hrun, htracks, hheld⟩ := run_long hstart rfl hbytes hchunk
    use s'
    rw [run_bind_of_ok (run_own hlong _)]
    refine ⟨hrun, _, htracks, hheld, ?_⟩
    apply (extends_bodyResidue _ _).trans (extends_bodyResidue _ _)

/-- The size of an action on its own is that of the bytes that it is written as. -/
theorem run_size (h : w.Standing r chunk) :
  ∃ s', (size (WriteOp.bodies w.cells.size) r).run { workspace := w } = (.ok chunk.length, s')
    ∧ w.Leaves r s'
  := by
  obtain ⟨s', hrun, hleaves⟩ := run_action h
  obtain ⟨bytes, -, hchunk⟩ := Workspace.standing_iff.mp h
  obtain ⟨-, hserialized⟩ := Record.serialize_eq_ok_iff.mp hchunk
  rw [size, run_bind_of_ok run_get]
  dsimp only
  obtain ⟨hlong, code, hcode, rfl⟩ | ⟨hlong, -⟩ := hserialized
  · use { workspace := w }
    rw [run_bind_of_ok (run_own hlong _)]
    exact ⟨rfl, {}, ⟨rfl, rfl⟩, rfl, .refl _⟩
  · use s'
    rw [run_bind_of_ok (run_own hlong _), if_pos rfl, run_map, hrun]
    exact ⟨rfl, hleaves⟩

end SerializeOp

/-! ### Actions of a block -/

namespace Workspace

variable {w w' : Workspace} {r : Ref} {refs : List Ref} {chunk : Bytes} {chunks : List Bytes}

/-- Workspaces that are alike have actions with the same identities. -/
theorem Alike.identities_unfold (h : w.Alike w') (depth : Nat) (r : Ref) :
  (w.unfold depth r).identities = (w'.unfold depth r).identities
  := by
  induction depth generalizing r with
  | zero =>
    rw [Action.identities_eq, Action.identities_eq]
    rfl
  | succ depth ih =>
    have hbodies : w.cells[r]?.map Cell.bodies = w'.cells[r]?.map Cell.bodies :=
      (h.sameBlocks.2 r).symm
    have hbody (body : List Ref) : blockIdentities (body.map (w.unfold depth))
        = blockIdentities (body.map (w'.unfold depth)) := by
      rw [blockIdentities_eq_flatMap, blockIdentities_eq_flatMap, List.flatMap_map,
        List.flatMap_map]
      apply List.flatMap_congr
      intro r _
      apply ih
    rw [Action.identities_eq, Action.identities_eq, identity_unfold, identity_unfold,
      bodies_unfold_succ, bodies_unfold_succ, hbodies, bodiesIdentities_eq_flatMap,
      bodiesIdentities_eq_flatMap, List.flatMap_map, List.flatMap_map]
    congr 1
    apply List.flatMap_congr
    intro body _
    apply hbody

theorem blockIdentities_actions (w : Workspace) (refs : List Ref) :
  blockIdentities (w.actions refs) = refs.flatMap fun r => (w.action r).identities
  := by
  rw [blockIdentities_eq_flatMap, actions, List.flatMap_map]

/-- Whether every action of a block is written on its own as its chunk, and none occurs in the block
twice, at whatever depth. -/
structure Settled (w : Workspace) (refs : List Ref) (chunks : List Bytes) : Prop where
  distinct : (blockIdentities (w.actions refs)).Nodup
  standing : List.Forall₂ w.Standing refs chunks

/-- An action of a block without repetitions does not occur in the bodies of another. -/
theorem notMem_bodiesIdentities (h : (blockIdentities (w.actions refs)).Nodup) {x : Ref}
    (hx : x ∈ refs) (hr : r ∈ refs) :
  x ∉ bodiesIdentities (w.action r).bodies
  := by
  have hself (r : Ref) : r ∈ (w.action r).identities := by
    apply (w.action r).toList_identity_subset
    rw [action, identity_unfold]
    apply List.mem_singleton_self
  rw [blockIdentities_actions, List.nodup_flatMap] at h
  obtain ⟨hdistinct, hdisjoint⟩ := h
  by_cases heq : x = r
  · subst heq
    have hx' := hdistinct x hx
    rw [Action.identities_eq, action, identity_unfold, Option.toList_some,
      List.singleton_append, List.nodup_cons] at hx'
    exact hx'.1
  · intro hmem
    have hsymm : Std.Symm (Function.onFun List.Disjoint fun r => (w.action r).identities) :=
      ⟨fun _ _ h _ hy hx => h hx hy⟩
    apply hdisjoint.forall hx hr heq (hself x)
    apply (w.action r).bodiesIdentities_subset hmem

/-- The bodies of an action are written alike whatever the displacements are. -/
theorem Alike.standing (h : w.Alike w') {bodies : List Bytes}
    (hbodies : encodeBodies (w.action r).bodies [] = .ok bodies)
    (hchunk : (w'.recordOf r).serialize bodies = .ok chunk) :
  w'.Standing r chunk
  := by
  apply standing_iff.mpr
  refine ⟨bodies, ?_, hchunk⟩
  rw [← hbodies]
  apply encodeBodies_of_underived
  rw [action, action, ← h.size]
  symm
  apply h.underived_unfold

theorem Alike.blockIdentities_actions (h : w.Alike w') (refs : List Ref) :
  blockIdentities (w.actions refs) = blockIdentities (w'.actions refs)
  := by
  rw [Workspace.blockIdentities_actions, Workspace.blockIdentities_actions]
  apply List.flatMap_congr
  intro r _
  rw [action, action, ← h.size, h.identities_unfold]

/-- Displacements that are set in the bodies of an action of a block do not matter. -/
theorem Settled.leaves (h : w.Settled refs chunks) (hr : r ∈ refs) {s : Writing}
    (hs : w.Leaves r s) :
  s.workspace.Settled refs chunks
  := by
  obtain ⟨left, htracks, -, hextends⟩ := hs
  have halike := htracks.alike
  constructor
  · rw [← halike.blockIdentities_actions]
    exact h.distinct
  · have hstanding : List.Forall₂ (fun x chunk => x ∈ refs ∧ w.Standing x chunk) refs chunks :=
      (List.forall₂_and_left _ _).mpr ⟨fun _ hx => hx, h.standing⟩
    apply hstanding.imp
    rintro x chunk ⟨hx, hchunk⟩
    obtain ⟨bodies, hbodies, hchunk⟩ := standing_iff.mp hchunk
    apply halike.standing hbodies
    rw [htracks.workspace, recordOf_applySettings,
      hextends.displaced?_eq (notMem_bodiesIdentities h.distinct hx hr)]
    exact hchunk

/-- An action that stands as a chunk is serialized to it. -/
theorem serialize_of_standing (h : w.Standing r chunk) :
  (w.serialize r).1 = .ok chunk ∧ w.Leaves r (w.serialize r).2
  := by
  obtain ⟨s', hrun, hleaves⟩ := SerializeOp.run_action h
  rw [serialize, hrun]
  exact ⟨rfl, hleaves⟩

/-- An action that stands as a chunk has its size. -/
theorem size_of_standing (h : w.Standing r chunk) :
  (w.size r).1 = .ok chunk.length ∧ w.Leaves r (w.size r).2
  := by
  obtain ⟨s', hrun, hleaves⟩ := SerializeOp.run_size h
  rw [size, hrun]
  exact ⟨rfl, hleaves⟩

/-- The workspaces that are left when some actions are written on their own, or are asked for their
sizes, in any order. -/
inductive Asked (refs : List Ref) (w : Workspace) : Workspace → Prop where
  | start : Asked refs w w
  | serialize {w' : Workspace} {r : Ref} (h : Asked refs w w') (hr : r ∈ refs) :
      Asked refs w (w'.serialize r).2.workspace
  | size {w' : Workspace} {r : Ref} (h : Asked refs w w') (hr : r ∈ refs) :
      Asked refs w (w'.size r).2.workspace

/-- Every action of a settled block stands as some chunk. -/
theorem Settled.exists_standing (h : w.Settled refs chunks) (hr : r ∈ refs) :
  ∃ chunk, w.Standing r chunk
  := by
  obtain ⟨i, hi, rfl⟩ := List.getElem_of_mem hr
  obtain ⟨hlength, hget⟩ := List.forall₂_iff_get.mp h.standing
  exact ⟨_, hget i hi (hlength ▸ hi)⟩

/-- A block stays settled. -/
theorem Settled.asked (h : w.Settled refs chunks) (hasked : Asked refs w w') :
  w'.Settled refs chunks
  := by
  induction hasked with
  | start => exact h
  | serialize _ hr ih =>
    obtain ⟨chunk, hchunk⟩ := ih.exists_standing hr
    apply ih.leaves hr (serialize_of_standing hchunk).2
  | size _ hr ih =>
    obtain ⟨chunk, hchunk⟩ := ih.exists_standing hr
    apply ih.leaves hr (size_of_standing hchunk).2

/-- Whether some actions are written on their own as the given bytes, and have their sizes, whatever
was asked of them before. -/
def Answers (w : Workspace) (refs : List Ref) (chunks : List Bytes) : Prop :=
  ∀ w', Asked refs w w' → List.Forall₂
    (fun r chunk => (w'.serialize r).1 = .ok chunk ∧ (w'.size r).1 = .ok chunk.length) refs chunks

/-- Every action of a settled block answers for itself with its own chunk. -/
theorem Settled.answers (h : w.Settled refs chunks) :
  w.Answers refs chunks
  := by
  intro w' hasked
  apply (h.asked hasked).standing.imp
  intro r chunk hchunk
  exact ⟨(serialize_of_standing hchunk).1, (size_of_standing hchunk).1⟩

/-! ### Blocks that were written -/

/-- A write leaves the displacements that its two passes set. -/
theorem workspace_write (w : Workspace) (place : Place) :
  (w.write place).2.workspace
    = w.applySettings (blockResidue (w.block place) {}).settings.reverse
  := by
  rw [write_eq, encode, settings_eq]
  rfl

/-- A block without repetitions is settled once it is written. -/
theorem settled_write {place : Place} (hdistinct : (blockIdentities (w.block place)).Nodup)
    (hchunks : encodeChunks (w.block place) = .ok chunks) :
  (w.write place).2.workspace.Settled (w.contents place) chunks
  := by
  have halike := w.alike_write place
  constructor
  · rw [← halike.blockIdentities_actions]
    exact hdistinct
  · have hsettled := forall₂_settled_blockResidue hchunks hdistinct
    apply (List.forall₂_map_left_iff.mp hsettled).imp
    rintro r chunk ⟨item, d, hitem, hchunk, hdisplaced⟩
    apply halike.standing hitem.encodeBodies_eq
    have hrecord : item.record = w.recordOf r := by
      rw [hitem.1, action, record_unfold]
    rw [workspace_write, recordOf_applySettings, ← hchunk, Item.serialize, hrecord]
    cases hbranch : (w.recordOf r).operands.isBranch with
    | false =>
      rw [Record.withDisplacement_of_not_branch hbranch]
      cases (blockResidue (w.block place) {}).displaced? r with
      | none => rfl
      | some d' => rw [Option.elim_some, Record.withDisplacement_of_not_branch hbranch]
    | true =>
      rw [action, record_unfold, identity_unfold] at hdisplaced
      rw [hdisplaced hbranch r rfl, Option.elim_some]

/-! ### Blocks that were read -/

/-- References to the actions of a block are written on their own as these are. -/
theorem forall₂_standing {actions : List Action} (h : List.Forall₂ Action.Stands actions chunks)
    (hrecords : refs.map w.recordOf = actions.map Action.record)
    (htrees : blockUnderived (w.actions refs) = blockUnderived actions) :
  List.Forall₂ w.Standing refs chunks
  := by
  rw [blockUnderived_eq_map, blockUnderived_eq_map, Workspace.actions] at htrees
  induction h generalizing refs with
  | nil =>
    rw [List.map_eq_nil_iff.mp hrecords]
    exact .nil
  | cons ha _ ih =>
    obtain ⟨r, refs, rfl, hrecord, hrecords⟩ := List.map_eq_cons_iff.mp hrecords
    rw [List.map_cons, List.map_cons, List.map_cons] at htrees
    obtain ⟨htree, htrees⟩ := List.cons.inj htrees
    apply List.Forall₂.cons _ (ih hrecords htrees)
    obtain ⟨bodies, hbodies, hchunk⟩ := ha
    apply standing_iff.mpr
    refine ⟨bodies, ?_, ?_⟩
    · rw [encodeBodies_of_underived htree]
      exact hbodies
    · rw [hrecord]
      exact hchunk

/-- A block whose actions are written on their own as chunks is settled once it is the root. -/
theorem settled_load {actions : List Action} (h : List.Forall₂ Action.Stands actions chunks)
    (w : Workspace) :
  (w.load actions).Settled (w.load actions).root chunks
  := by
  obtain ⟨hrecords, htrees, hdistinct⟩ := w.load_spec actions
  exact ⟨hdistinct, forall₂_standing h hrecords htrees⟩

end Workspace

/-- The actions that were read stand on their own as their chunks, as targets are not written. -/
theorem Chunked.forall₂_stands {data : Bytes} {offset : Nat} {placed : List Placed}
    {items : List Item} {chunks : List Bytes} {actions : List Action}
    (h : Chunked data offset placed items chunks)
    (hactions : List.Forall₂ (fun a b => b = a ∨ ∃ t : Nat, b = a.withTarget t)
      (placed.map Placed.action) actions) :
  List.Forall₂ Action.Stands actions chunks
  := by
  induction h generalizing actions with
  | nil =>
    cases hactions
    exact .nil
  | @cons _ a _ item _ _ _ hitem _ hchunk _ _ ih =>
    obtain _ | ⟨ha, hactions⟩ := hactions
    apply List.Forall₂.cons _ (ih hactions)
    obtain rfl | ⟨t, rfl⟩ := ha
    · exact ⟨item.bodies, hitem.encodeBodies_eq, hchunk⟩
    · obtain ⟨identity, record, bodies⟩ := a
      refine ⟨item.bodies, hitem.encodeBodies_eq, ?_⟩
      rw [← hchunk]
      apply Record.serialize_withTarget

namespace Decoder

variable {d : Decoder} {s : BitStream} {actions : List Action}

/-- The actions of a block that was read are written as chunks, in the block and on their own. -/
theorem exists_chunks_of_block {limit : Option Int} {offset : Nat} {rest : Bytes} {next : Input}
    (hlimit : ∀ l ∈ limit, (offset : Int) ≤ l)
    (h : (d.block limit (.plain offset rest)).1 = .ok (actions, next)) :
  ∃ chunks, encodeChunks actions = .ok chunks ∧ List.Forall₂ Action.Stands actions chunks
  := by
  obtain ⟨bytes, tail, placed, rfl, hblock, hresolve, -⟩ := (block_eq_ok_iff hlimit).mp h
  have hdata : (List.replicate offset 0 ++ (bytes ++ tail)).drop offset = bytes ++ tail := by
    rw [List.drop_left' List.length_replicate]
  obtain ⟨items, chunks, hchunked, hlen⟩ := hblock.exists_chunked hdata
  use chunks
  constructor
  · rw [← hlen] at hresolve
    obtain ⟨resolved, hresolved, hlinked⟩ := hchunked.exists_linked hresolve
    apply encodeChunks_eq_ok_iff.mpr
    exact ⟨resolved, encodeItems_eq_ok_iff.mpr ⟨resolved, hresolved, rfl⟩, hlinked⟩
  · apply hchunked.forall₂_stands (forall₂_of_resolve hresolve)

/-- Whether actions are read from a stream, as an outermost block or as a body of some size. -/
def Reads (d : Decoder) (s : BitStream) (actions : List Action) : Prop :=
  (∃ cursor, (d.read s).result = .ok (actions, cursor))
    ∨ ∃ (size : Nat) (cursor : Int), (d.scanBlock s (some size)).result = .ok (actions, cursor)

/-- What is read from a stream can be written, and every action stands as its chunk. -/
theorem Reads.exists_chunks (h : d.Reads s actions) (hs : s.Ready) :
  ∃ chunks, encodeChunks actions = .ok chunks ∧ List.Forall₂ Action.Stands actions chunks
  := by
  obtain ⟨cursor, hread⟩ | ⟨size, hscan⟩ := h
  · rw [result_read, ← scanBlock_eq hs] at hread
    obtain ⟨next, hblock⟩ := (exists_scanBlock_iff hs).mp ⟨cursor, hread⟩
    apply exists_chunks_of_block _ hblock
    simp
  · obtain ⟨next, hblock⟩ := (exists_scanBlock_iff hs).mp hscan
    apply exists_chunks_of_block _ hblock
    simp

end Decoder

/-! ### The theorem -/

/-- Once a block is written in which no action occurs twice, at whatever depth, and as soon as a
block was read, its actions are written on their own as in the block, one after the other and with
the end after them the bytes of the block, and their sizes are those of their bytes there, whatever
was asked of them before. -/
theorem Workspace.standalone_agrees :
  (∀ (w : Workspace) (place : Place) (bytes : Bytes),
      (blockIdentities (w.block place)).Nodup → (w.write place).1 = .ok bytes →
      ∃ chunks, encodeChunks (w.block place) = .ok chunks ∧ bytes = chunks.flatten ++ [0]
        ∧ (w.write place).2.workspace.Answers (w.contents place) chunks)
    ∧ ∀ (d : Decoder) (s : BitStream) (actions : List Action) (w : Workspace),
      s.Ready → d.Reads s actions →
      ∃ chunks, encodeChunks actions = .ok chunks
        ∧ ((w.load actions).write .root).1 = .ok (chunks.flatten ++ [0])
        ∧ (w.load actions).Answers (w.load actions).root chunks
  := by
  constructor
  · intro w place bytes hdistinct hwrite
    rw [write_eq] at hwrite
    obtain ⟨body, hbody, rfl⟩ := encode_eq_ok_iff.mp hwrite
    rw [encodeBlock_eq_map] at hbody
    obtain ⟨chunks, hchunks, rfl⟩ := map_eq_ok_iff.mp hbody
    exact ⟨chunks, hchunks, rfl, (settled_write hdistinct hchunks).answers⟩
  · intro d s actions w hs hreads
    obtain ⟨chunks, hchunks, hstands⟩ := hreads.exists_chunks hs
    refine ⟨chunks, hchunks, ?_, (settled_load hstands w).answers⟩
    obtain ⟨-, htrees, -⟩ := w.load_spec actions
    rw [write_eq]
    apply encode_eq_ok_iff.mpr
    refine ⟨chunks.flatten, ?_, rfl⟩
    rw [← encodeBlock_underived, htrees, encodeBlock_underived, encodeBlock_eq_map, hchunks]
    rfl

/-- A body with a branch to its start, and after it a branch to the start of the block. -/
def twoLoops : Workspace where
  cells := #[⟨.jump 0, []⟩, ⟨.withObject, [[0]]⟩, ⟨.jump 0, []⟩]
  root := [1, 2]

/-- What the two actions are written as. -/
def twoLoopsChunks : List Bytes :=
  [[0x94, 2, 0, 5, 0, 0x99, 2, 0, 0xFB, 0xFF], [0x99, 2, 0, 0xF1, 0xFF]]

theorem standalone_agrees_twoLoops :
  (blockIdentities (twoLoops.block .root)).Nodup
    ∧ (twoLoops.write .root).1 = .ok (twoLoopsChunks.flatten ++ [0])
    ∧ (twoLoops.write .root).2.workspace.Answers [1, 2] twoLoopsChunks
    ∧ ∃ actions, Decoder.Reads ⟨OpcodeTable.shared, false⟩
        (.ofBytes (twoLoopsChunks.flatten ++ [0])) actions
      ∧ (twoLoops.load actions).Answers (twoLoops.load actions).root twoLoopsChunks
  := by
  have hdistinct : (blockIdentities (twoLoops.block .root)).Nodup := by decide +kernel
  have hwrite : (twoLoops.write .root).1 = .ok (twoLoopsChunks.flatten ++ [0]) := by
    decide +kernel
  have hready := BitStream.ready_ofBytes (twoLoopsChunks.flatten ++ [0])
  obtain ⟨hwritten, hread⟩ := Workspace.standalone_agrees
  refine ⟨hdistinct, hwrite, ?_, _, .inl ⟨8 * 16, rfl⟩, ?_⟩
  · obtain ⟨chunks, hchunks, -, hanswers⟩ := hwritten twoLoops .root _ hdistinct hwrite
    have hchunks' : encodeChunks (twoLoops.block .root) = .ok twoLoopsChunks := by decide +kernel
    obtain rfl := Except.ok.inj (hchunks.symm.trans hchunks')
    exact hanswers
  · obtain ⟨chunks, hchunks, -, hanswers⟩ :=
      hread ⟨OpcodeTable.shared, false⟩ _ _ twoLoops hready (.inl ⟨8 * 16, rfl⟩)
    obtain rfl : chunks = twoLoopsChunks := by
      apply Except.ok.inj (hchunks.symm.trans _)
      decide +kernel
    exact hanswers

end ActionBlock
