import ActionBlock.Proofs.Assembly
import ActionBlock.Proofs.Cells
import ActionBlock.Proofs.WellFormed

/-!
# How blocks are laid out

The bytes of a block are chunks, one for each action, laid end to end. The chunk of an action is its
record followed by its bodies, and the record of an action with bodies holds how long each of them
is. The record of a branch holds the distance from its own end to the start of the chunk that its
target names, as it is in the finished block.

An action may occur more than once, at several places of a block and in bodies within it. Each
occurrence is laid out by itself: what is written does not depend on the displacements that branches
hold, so it makes no difference that all occurrences share one.
-/

namespace ActionBlock

/-! ### Layout -/

/-- Where the chunk with an index starts, or where the last one ends. -/
def chunkStart (chunks : List Bytes) (i : Nat) : Nat := ((chunks.take i).map List.length).sum

/-- The chunk of a branch with an index in its block, given the chunks of the block. The target is
the index of an action or of the end, and after its code and its length the chunk holds the distance
from its end to where the target starts. -/
def BranchLaidOut (chunks : List Bytes) (i : Nat) (target : Value) (chunk : Bytes) : Prop :=
  ∃ t : Nat, target.whole? = some (t : Int) ∧ t ≤ chunks.length ∧ 5 ≤ chunk.length
    ∧ Bytes.toSigned 16 (Bytes.ofLittleEndian ((chunk.drop 3).take 2))
      = (chunkStart chunks t : Int) - chunkStart chunks (i + 1)

mutual

/-- The bytes of a block: a chunk for each action. -/
inductive BlockLaidOut : List Action → Bytes → Prop where
  | chunks {block : List Action} {chunks : List Bytes} (hlength : chunks.length = block.length)
      (hactions : ∀ (i : Nat) (a : Action) (chunk : Bytes), block[i]? = some a →
        chunks[i]? = some chunk → ActionLaidOut chunks i a chunk) :
      BlockLaidOut block chunks.flatten

/-- The chunk of an action with an index in its block, given the chunks of the block. A code below
`0x80` stands alone. After any other come the length of the operands, the operands, which hold how
long the bodies are, and the bodies. -/
inductive ActionLaidOut : List Bytes → Nat → Action → Bytes → Prop where
  | short {chunks : List Bytes} {i : Nat} {a : Action} {code : UInt8}
      (hcode : a.record.code.whole? = some (code.toNat : Int))
      (hshort : (code.toNat : Int) < firstLongCode)
      (htarget : ∀ target old, a.record.operands = .branch target old →
        ∃ t : Nat, target.whole? = some (t : Int) ∧ t ≤ chunks.length) :
      ActionLaidOut chunks i a [code]
  | long {chunks : List Bytes} {i : Nat} {a : Action} {code : UInt8} {displacement : Int}
      {fields closing trailing operands chunk : Bytes} {bodies : List Bytes}
      (hcode : a.record.code.whole? = some (code.toNat : Int))
      (hlong : firstLongCode ≤ (code.toNat : Int))
      (hbodies : List.Forall₂ BlockLaidOut a.bodies bodies)
      (hsizes : ∀ body ∈ bodies, body.length < 2 ^ 16)
      (hfields : (a.record.operands.withDisplacement displacement).fields = .ok fields)
      (hclosing : a.record.operands.closing = .ok closing)
      (htrailing : a.record.trailing = .bytes trailing)
      (hoperands : operands = fields
        ++ bodies.flatMap (fun body => Bytes.littleEndian 2 body.length) ++ closing ++ trailing)
      (hlength : operands.length < 2 ^ 16)
      (hchunk : chunk
        = code :: (Bytes.littleEndian 2 operands.length ++ operands ++ bodies.flatten))
      (hbranch : ∀ target old, a.record.operands = .branch target old →
        BranchLaidOut chunks i target chunk) :
      ActionLaidOut chunks i a chunk

end

/-! ### Chunks as they are written -/

/-- The table of starts lists the start of every chunk, and last the end of them all. -/
theorem starts_getD_eq_chunkStart {chunks : List Bytes} {i : Nat} (h : i ≤ chunks.length) :
  (starts chunks).getD i 0 = chunkStart chunks i
  := by
  rw [starts_getD h, List.length_flatten, chunkStart]

/-- The displacement of a branch follows its code and the length of its operands. -/
theorem branchLaidOut_of_displacement {chunks : List Bytes} {i bits : Nat} {record : Record}
    {target : Value} {d : Int} {code : UInt8} {length rest : Bytes} (hi : i < chunks.length)
    (hd : displacement (starts chunks) i record target = .ok d)
    (hbits : Scalar.fitInt 16 true d = .ok bits) (hlength : length.length = 2) :
  BranchLaidOut chunks i target (code :: (length ++ (Bytes.littleEndian 2 bits ++ rest)))
  := by
  obtain ⟨t, htarget, ht, rfl, hrange⟩ := displacement_eq_ok_iff.mp hd
  obtain ⟨-, -, rfl⟩ := Scalar.fitInt_eq_ok_iff.mp hbits
  rw [size_starts] at ht
  have hle : t ≤ chunks.length := Nat.le_of_lt_succ ht
  have hpiece : ((code :: (length ++ (Bytes.littleEndian 2
      (distance (starts chunks) i t % 2 ^ 16).toNat ++ rest))).drop 3).take 2
      = Bytes.littleEndian 2 (distance (starts chunks) i t % 2 ^ 16).toNat := by
    rw [List.drop_succ_cons, List.drop_left' hlength,
      List.take_left' (Bytes.length_littleEndian _ _)]
  have hlt : (distance (starts chunks) i t % 2 ^ 16).toNat < 256 ^ 2 := by omega
  refine ⟨t, htarget, hle, by simp [hlength]; omega, ?_⟩
  rw [hpiece, Bytes.ofLittleEndian_littleEndian hlt,
    Bytes.toSigned_of_range (by decide) hrange.1 hrange.2, distance, starts_getD_eq_chunkStart hle,
    starts_getD_eq_chunkStart hi]

/-- The bytes that follow the body sizes do not depend on a displacement. -/
theorem Operands.closing_withDisplacement (o : Operands) (d : Int) :
  (o.withDisplacement d).closing = o.closing
  := by
  cases o <;> rfl

/-- What is written for an action is laid out, if its bodies are. -/
theorem ActionLaidOut.of_written {chunks : List Bytes} {i : Nat} {a : Action} {item : Item}
    {chunk : Bytes} (hi : i < chunks.length) (hrecord : item.record = a.record)
    (hbodies : List.Forall₂ BlockLaidOut a.bodies item.bodies)
    (h : item.Written (starts chunks) i chunk) :
  ActionLaidOut chunks i a chunk
  := by
  obtain ⟨d, hserialize, htarget⟩ := h
  rw [Item.serialize, hrecord] at hserialize
  rw [hrecord] at htarget
  obtain ⟨-, ⟨hlong, code, hcode, rfl⟩ | ⟨hlong, hchunk⟩⟩ :=
    Record.serialize_eq_ok_iff.mp hserialize
  · have hwhole := Value.codeByte_eq_ok_iff.mp hcode
    rw [Record.isLong_of_whole hwhole, Except.ok.injEq, decide_eq_false_iff_not, not_le] at hlong
    apply ActionLaidOut.short hwhole hlong
    intro target old hbranch
    obtain ⟨t, ht, hsize, -⟩ := displacement_eq_ok_iff.mp (htarget target old hbranch)
    rw [size_starts] at hsize
    exact ⟨t, ht, Nat.le_of_lt_succ hsize⟩
  · obtain ⟨operands, code, hoperands, hlength, hcode, rfl⟩ :=
      Record.serializeLong_eq_ok_iff.mp hchunk
    obtain ⟨wire, trailing, hwire, htrailing, rfl⟩ := Record.operandBytes_eq_ok_iff.mp hoperands
    obtain ⟨fields, closing, hfields, hsizes, hclosing, rfl⟩ := Operands.wire_eq_ok_iff.mp hwire
    have hwhole := Value.codeByte_eq_ok_iff.mp hcode
    rw [Record.isLong_of_whole hwhole, Except.ok.injEq, decide_eq_true_eq] at hlong
    have hclosing' : a.record.operands.closing = .ok closing := by
      rw [← hclosing]
      exact (a.record.operands.closing_withDisplacement d).symm
    apply ActionLaidOut.long hwhole hlong hbodies (List.forall_mem_map.mp hsizes) hfields hclosing'
      htrailing _ hlength rfl
    · intro target old hbranch
      have hfront : (a.record.withDisplacement d).operands.fields
          = (Scalar.fitInt 16 true d).map (Bytes.littleEndian 2) := by
        rw [Record.withDisplacement, hbranch]
        rfl
      obtain ⟨bits, hbits, rfl⟩ := map_eq_ok_iff.mp (hfront.symm.trans hfields)
      simp only [List.append_assoc]
      apply branchLaidOut_of_displacement hi (htarget target old hbranch) hbits
      apply Bytes.length_littleEndian
    · rw [List.flatMap_map]

/-- Each chunk of linked records is the one of its record. -/
theorem Linked.written {starts : Array Nat} {index : Nat} {items : List Item}
    {chunks : List Bytes} (h : Linked starts index items chunks) :
  chunks.length = items.length
    ∧ ∀ (i : Nat) (item : Item) (chunk : Bytes), items[i]? = some item → chunks[i]? = some chunk →
      item.Written starts (index + i) chunk
  := by
  induction h with
  | nil => simp
  | @cons index item items chunk chunks hitem _ ih =>
    obtain ⟨hlength, hwritten⟩ := ih
    refine ⟨by simp [hlength], ?_⟩
    intro i item' chunk' hitem' hchunk'
    cases i with
    | zero =>
      obtain rfl : item = item' := by simpa using hitem'
      obtain rfl : chunk = chunk' := by simpa using hchunk'
      exact hitem
    | succ i =>
      have hrest := hwritten i item' chunk' (by simpa using hitem') (by simpa using hchunk')
      rwa [Nat.add_right_comm, Nat.add_assoc] at hrest

/-! ### Blocks -/

theorem Action.sizeOf_lt_of_mem {a : Action} {body block : List Action} (hbody : body ∈ a.bodies)
    (ha : a ∈ block) :
  sizeOf body < sizeOf block
  := by
  obtain ⟨identity, record, bodies⟩ := a
  have hbodies := List.sizeOf_lt_of_mem hbody
  have hblock := List.sizeOf_lt_of_mem ha
  simp only [Action.bodies, Action.mk.sizeOf_spec] at hbodies hblock
  omega

/-- What holds of a block if it holds of all bodies in it holds of every block. -/
theorem Action.block_induct {motive : List Action → Prop}
    (h : ∀ block, (∀ a ∈ block, ∀ body ∈ a.bodies, motive body) → motive block)
    (block : List Action) :
  motive block
  := by
  induction hsize : sizeOf block using Nat.strong_induction_on generalizing block with
  | _ n ih =>
    apply h
    intro a ha body hbody
    apply ih _ (hsize ▸ Action.sizeOf_lt_of_mem hbody ha) body rfl

/-- What is written for a block is laid out. -/
theorem BlockLaidOut.of_encodeBlock {block : List Action} {bytes : Bytes}
    (h : encodeBlock block = .ok bytes) :
  BlockLaidOut block bytes
  := by
  induction block using Action.block_induct generalizing bytes with
  | h block ih =>
    obtain ⟨items, chunks, hitems, hlinked, rfl⟩ := encodeBlock_eq_ok_iff_linked.mp h
    obtain ⟨hlength, hwritten⟩ := hlinked.written
    apply BlockLaidOut.chunks (hlength.trans hitems.length_eq.symm)
    intro i a chunk ha hchunk
    obtain ⟨hi, -⟩ := List.getElem?_eq_some_iff.mp hchunk
    obtain ⟨hblock, rfl⟩ := List.getElem?_eq_some_iff.mp ha
    obtain ⟨-, hitemized⟩ := List.forall₂_iff_get.mp hitems
    obtain ⟨hrecord, hencoded⟩ := hitemized i hblock (hlength ▸ hi)
    have hbodies : List.Forall₂ BlockLaidOut block[i].bodies items[i].bodies := by
      have hbody : ∀ body ∈ block[i].bodies, ∀ bytes, encodeBlock body = .ok bytes →
          BlockLaidOut body bytes :=
        fun body hbody bytes => ih block[i] (List.getElem_mem hblock) body hbody
      apply ((List.forall₂_and_left _ _).mpr ⟨hbody, hencoded⟩).imp
      rintro body bytes ⟨hlaid, hbytes⟩
      exact hlaid bytes hbytes
    apply ActionLaidOut.of_written hi hrecord hbodies
    simpa using hwritten i items[i] chunk (by simp) hchunk

/-! ### Displacements do not matter -/

/-- Actions that are written alike: they differ in the displacement of a branch at most, and what
can be written for the bodies of one can be written for those of the other. -/
def Action.WrittenAlike (a b : Action) : Prop :=
  a.record.withDisplacement 0 = b.record.withDisplacement 0
    ∧ List.Forall₂ (fun x y => ∀ bytes, encodeBlock x = .ok bytes → encodeBlock y = .ok bytes)
      a.bodies b.bodies

/-- A record is written the same whatever its displacement was before. -/
theorem Item.Written.of_displacement {starts : Array Nat} {index : Nat} {r r' : Record}
    {bodies : List Bytes} {chunk : Bytes} (hrecord : r.withDisplacement 0 = r'.withDisplacement 0)
    (h : Item.Written starts index ⟨r, bodies⟩ chunk) :
  Item.Written starts index ⟨r', bodies⟩ chunk
  := by
  obtain ⟨d, hserialize, htarget⟩ := h
  have hset : r.withDisplacement d = r'.withDisplacement d := by
    rw [← r.withDisplacement_withDisplacement 0, hrecord, Record.withDisplacement_withDisplacement]
  refine ⟨d, ?_, ?_⟩
  · rw [Item.serialize, ← hset]
    exact hserialize
  · intro target old hbranch
    have hoperands : r.operands.withDisplacement 0 = .branch target (.int 0) := by
      rw [← show r'.operands.withDisplacement 0 = .branch target (.int 0) by rw [hbranch]; rfl]
      exact congrArg Record.operands hrecord
    obtain ⟨old', hold, -⟩ := Operands.eq_branch_of_withDisplacement hoperands
    apply displacement_eq_ok_iff.mpr
    apply displacement_eq_ok_iff.mp (htarget target old' hold)

/-- Bodies that are written alike have the same bytes. -/
theorem forall₂_encodeBlock_of_alike {as bs : List (List Action)} {outs : List Bytes}
    (h : List.Forall₂ (fun x y => ∀ bytes, encodeBlock x = .ok bytes → encodeBlock y = .ok bytes)
      as bs)
    (houts : List.Forall₂ (fun body bytes => encodeBlock body = .ok bytes) as outs) :
  List.Forall₂ (fun body bytes => encodeBlock body = .ok bytes) bs outs
  := by
  induction h generalizing outs with
  | nil => exact houts
  | cons hbody _ ih =>
    obtain _ | ⟨hout, houts⟩ := houts
    exact .cons (hbody _ hout) (ih houts)

/-- Two blocks written alike are linked into the same chunks. -/
theorem Linked.exists_of_writtenAlike {starts : Array Nat} {index : Nat} {as bs : List Action}
    {items : List Item} {chunks : List Bytes} (h : List.Forall₂ Action.WrittenAlike as bs)
    (hitems : List.Forall₂ Action.Itemized as items) (hlinked : Linked starts index items chunks) :
  ∃ items', List.Forall₂ Action.Itemized bs items' ∧ Linked starts index items' chunks
  := by
  induction h generalizing index items chunks with
  | nil => exact ⟨items, hitems, hlinked⟩
  | @cons a b as bs halike _ ih =>
    obtain _ | ⟨hitem, hitems⟩ := hitems
    obtain _ | ⟨hwritten, hlinked⟩ := hlinked
    obtain ⟨items', hitems', hlinked'⟩ := ih hitems hlinked
    obtain ⟨hrecord, hbodies⟩ := hitem
    refine ⟨⟨b.record, _⟩ :: items', .cons ⟨rfl, forall₂_encodeBlock_of_alike halike.2 hbodies⟩
      hitems', .cons (.of_displacement ?_ hwritten) hlinked'⟩
    rw [hrecord, halike.1]

/-- Blocks that are written alike have the same bytes. -/
theorem encodeBlock_of_writtenAlike {as bs : List Action} {bytes : Bytes}
    (h : List.Forall₂ Action.WrittenAlike as bs) (hbytes : encodeBlock as = .ok bytes) :
  encodeBlock bs = .ok bytes
  := by
  obtain ⟨items, chunks, hitems, hlinked, rfl⟩ := encodeBlock_eq_ok_iff_linked.mp hbytes
  obtain ⟨items', hitems', hlinked'⟩ := hlinked.exists_of_writtenAlike h hitems
  exact encodeBlock_eq_ok_iff_linked.mpr ⟨items', chunks, hitems', hlinked', rfl⟩

/-- A cell whose displacement, if it has one, is zero. -/
def Cell.undisplaced (cell : Cell) : Cell := { cell with record := cell.record.withDisplacement 0 }

namespace Workspace

/-- Workspaces that differ in the displacements of branches at most. -/
structure Alike (w w' : Workspace) : Prop where
  root : w.root = w'.root
  size : w.cells.size = w'.cells.size
  cells : ∀ r : Ref, w.cells[r]?.map Cell.undisplaced = w'.cells[r]?.map Cell.undisplaced

variable {w w' : Workspace}

theorem Alike.trans {w'' : Workspace} (h : w.Alike w') (h' : w'.Alike w'') :
  w.Alike w''
  := ⟨h.root.trans h'.root, h.size.trans h'.size, fun r => (h.cells r).trans (h'.cells r)⟩

/-- Setting a displacement leaves a workspace alike. -/
theorem alike_modifyRecord (w : Workspace) (r : Ref) (d : Int) :
  w.Alike (w.modifyRecord r (Record.withDisplacement d))
  where
  root := rfl
  size := by simp [modifyRecord]
  cells s := by
    simp only [modifyRecord, Array.getElem?_modify]
    split
    · cases w.cells[s]? with
      | none => rfl
      | some cell => simp [Cell.undisplaced, Record.withDisplacement_withDisplacement]
    · rfl

/-- A workspace that a write has settled is alike the one before it. -/
theorem alike_applySettings (w : Workspace) (settings : List Setting) :
  w.Alike (w.applySettings settings)
  := by
  induction settings generalizing w with
  | nil => exact ⟨rfl, rfl, fun _ => rfl⟩
  | cons s settings ih => exact (w.alike_modifyRecord s.identity s.displacement).trans (ih _)

/-- Under one reference, two workspaces that are alike either both hold nothing or hold cells that
differ in the displacement only. -/
theorem Alike.cell_cases (h : w.Alike w') (r : Ref) :
  (w.cells[r]? = none ∧ w'.cells[r]? = none)
    ∨ ∃ cell cell', w.cells[r]? = some cell ∧ w'.cells[r]? = some cell'
      ∧ cell.record.withDisplacement 0 = cell'.record.withDisplacement 0
      ∧ cell.bodies = cell'.bodies
  := by
  have hcells := h.cells r
  cases hcell : w.cells[r]? with
  | none =>
    rw [hcell, Option.map_none, eq_comm, Option.map_eq_none_iff] at hcells
    exact .inl ⟨rfl, hcells⟩
  | some cell =>
    rw [hcell, Option.map_some, eq_comm, Option.map_eq_some_iff] at hcells
    obtain ⟨cell', hcell', hsame⟩ := hcells
    exact .inr ⟨cell, cell', rfl, hcell', (congrArg Cell.record hsame).symm,
      (congrArg Cell.bodies hsame).symm⟩

/-- Workspaces that are alike hold the same references in the same blocks. -/
theorem Alike.sameBlocks (h : w.Alike w') :
  w.SameBlocks w'
  := by
  refine ⟨h.root.symm, ?_⟩
  intro r
  obtain ⟨hcell, hcell'⟩ | ⟨cell, cell', hcell, hcell', -, hbodies⟩ := h.cell_cases r
  · rw [hcell, hcell']
  · rw [hcell, hcell', Option.map_some, Option.map_some, hbodies]

theorem identity_unfold (w : Workspace) (depth : Nat) (r : Ref) :
  (w.unfold depth r).identity = some r
  := by
  cases depth with
  | zero => rfl
  | succ depth =>
    rw [unfold]
    cases w.cells[r]? <;> rfl

/-- The bodies of an unfolded action are the unfolded bodies of its cell. -/
theorem bodies_unfold_succ (w : Workspace) (depth : Nat) (r : Ref) :
  (w.unfold (depth + 1) r).bodies
    = ((w.cells[r]?.map Cell.bodies).getD []).map (List.map (w.unfold depth))
  := by
  rw [unfold]
  cases w.cells[r]? <;> rfl

/-- The trees of actions are written alike, however deep they are unfolded. -/
theorem Alike.unfold (h : w.Alike w') (depth : Nat) (r : Ref) :
  (w.unfold depth r).WrittenAlike (w'.unfold depth r)
  := by
  induction depth generalizing r with
  | zero =>
    obtain ⟨hcell, hcell'⟩ | ⟨cell, cell', hcell, hcell', hrecord, -⟩ := h.cell_cases r
    · simp only [Workspace.unfold, record?, hcell, hcell']
      exact ⟨rfl, .nil⟩
    · simp only [Workspace.unfold, record?, hcell, hcell']
      exact ⟨hrecord, .nil⟩
  | succ depth ih =>
    obtain ⟨hcell, hcell'⟩ | ⟨cell, cell', hcell, hcell', hrecord, hbodies⟩ := h.cell_cases r
    · simp only [Workspace.unfold, hcell, hcell']
      exact ⟨rfl, .nil⟩
    · simp only [Workspace.unfold, hcell, hcell', hbodies]
      refine ⟨hrecord, ?_⟩
      rw [Action.bodies, Action.bodies, List.forall₂_map_left_iff, List.forall₂_map_right_iff,
        List.forall₂_same]
      intro body _ bytes hbytes
      apply encodeBlock_of_writtenAlike _ hbytes
      rw [List.forall₂_map_left_iff, List.forall₂_map_right_iff, List.forall₂_same]
      exact fun r _ => ih r

/-- Workspaces that are alike are written to the same bytes. -/
theorem Alike.encodeBlock (h : w.Alike w') {place : Place} {bytes : Bytes}
    (hbytes : (w.encodeBlock place).1 = .ok bytes) :
  (w'.encodeBlock place).1 = .ok bytes
  := by
  apply encodeBlock_of_writtenAlike _ hbytes
  rw [block, block, actions, actions, h.sameBlocks.contents_eq, List.forall₂_map_left_iff,
    List.forall₂_map_right_iff, List.forall₂_same]
  intro r _
  rw [action, action, h.size]
  apply h.unfold

end Workspace

end ActionBlock
