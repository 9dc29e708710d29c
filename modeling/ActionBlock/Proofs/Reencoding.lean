import ActionBlock.Opcode.Standard
import ActionBlock.Proofs.Assembly
import ActionBlock.Proofs.Extent

/-!
# Reading and then writing

What was read from data is written as the bytes that were read, apart from the quiet bits of pushed
numbers. This holds for a record with any bodies of the declared sizes, for an action, whose
bodies have been read and written before, and for a block, because the displacement that follows
from the target of a branch is the one it was read with.
-/

namespace ActionBlock

/-! ### Records -/

namespace Decoder

variable {d : Decoder} {data : Bytes}

/-- A record keeps the code it was read by, and its kind can be asked whether it branches. -/
theorem record_code {offset code : Int} {operands : Bytes} {frame : Frame}
    (h : d.record offset code operands = .ok frame) :
  frame.record.code = .int code ∧ frame.record.kind.misuse? "jumplike" = none
  := by
  obtain ⟨-, -, rfl⟩ | ⟨entry, o, ns, trailing, hentry, -, rfl⟩ := record_eq_ok_iff.mp h
  · exact ⟨rfl, rfl⟩
  · have hcode : entry.code = code := by
      simpa using List.find?_some hentry
    exact ⟨by rw [← hcode]; rfl, rfl⟩

/-- The operands of a record are written as they were read. -/
theorem record_operandBytes {offset code : Int} {start : Nat} {operands tail : Bytes}
    {frame : Frame} (h : d.record offset code operands = .ok frame)
    (hdata : data.drop start = operands ++ tail) :
  ∃ out, frame.record.operandBytes frame.sizes = .ok out ∧ out.length = operands.length
    ∧ Requieted data (frame.record.operands.floatOffsets start) start out
  := by
  obtain ⟨-, -, rfl⟩ | ⟨entry, o, ns, trailing, -, hread, rfl⟩ := record_eq_ok_iff.mp h
  · refine ⟨operands, ?_, rfl, .raw tail hdata⟩
    apply Record.operandBytes_eq_ok_iff.mpr
    exact ⟨operands, [], Operands.wire_of_fields rfl rfl, rfl, by simp⟩
  · obtain ⟨front, out, rfl, hlen, hwire, -, -, hfloats⟩ := Layout.exists_wire_of_read hread hdata
    refine ⟨out ++ trailing, ?_, by simp [hlen], ?_⟩
    · apply Record.operandBytes_eq_ok_iff.mpr
      exact ⟨out, trailing, hwire, rfl, rfl⟩
    · rw [← List.append_nil ((Frame.listed _ _ _ _ _ _).record.operands.floatOffsets start)]
      apply hfloats.append (.raw tail _)
      rw [← hlen]
      apply Bytes.drop_add_length
      rw [hdata, List.append_assoc]

/-- A record is written as it was read, before any bodies of the sizes that it declares. -/
theorem RecordAt.exists_serialize {offset : Nat} {record tail : Bytes} {frame : Frame}
    {bodies : List Bytes} (h : d.RecordAt offset record frame)
    (hdata : data.drop offset = record ++ tail) (hbodies : bodies.map List.length = frame.sizes) :
  ∃ out, frame.record.serialize bodies = .ok (out ++ bodies.flatten)
    ∧ out.length = record.length ∧ Requieted data frame.record.floatOffsets offset out
  := by
  have hfloats : frame.record.floatOffsets = frame.record.operands.floatOffsets (offset + 3) := by
    rw [Record.floatOffsets, h.offset_eq]
    rfl
  rw [hfloats]
  cases h with
  | @short code _ hcode hframe =>
    obtain ⟨hcodeValue, hkind⟩ := record_code hframe
    have hlong : frame.record.isLong = .ok false := by
      rw [Record.isLong_of_code hcodeValue, decide_eq_false (not_le.mpr hcode)]
    have hnone : bodies = [] := by
      have hsizes := (record_sizes hframe).2
      rw [List.length_nil] at hsizes
      apply List.map_eq_nil_iff.mp
      rw [hbodies]
      apply List.eq_nil_of_length_eq_zero
      omega
    -- Without operands there is no room for pushed numbers.
    have hempty : frame.record.operands.floatOffsets (offset + 3) = [] := by
      obtain ⟨out, -, hout, hrequieted⟩ :=
        record_operandBytes hframe (show ([] : Bytes).drop (offset + 3) = [] ++ [] by simp)
      apply List.eq_nil_iff_forall_not_mem.mpr
      intro o ho
      have := hrequieted.within o ho
      simp only [List.length_nil] at hout
      omega
    refine ⟨[code], ?_, rfl, ?_⟩
    · apply Record.serialize_eq_ok_iff.mpr
      refine ⟨hkind, .inl ⟨hlong, code, ?_, by simp [hnone]⟩⟩
      rw [hcodeValue, Value.codeByte_int_eq_ok_iff]
    · rw [hempty]
      apply Requieted.raw tail hdata
  | @long code operands _ hcode hlen hframe =>
    obtain ⟨hcodeValue, hkind⟩ := record_code hframe
    have hheader : data.drop offset
        = (code :: Bytes.littleEndian 2 operands.length) ++ (operands ++ tail) := by
      rw [hdata, List.cons_append, List.cons_append, List.append_assoc]
    have hoperands := Bytes.drop_add_length hheader
    rw [List.length_cons, Bytes.length_littleEndian] at hoperands
    obtain ⟨out, hbytes, hout, hrequieted⟩ := record_operandBytes hframe hoperands
    have hlong : frame.record.isLong = .ok true := by
      rw [Record.isLong_of_code hcodeValue, decide_eq_true hcode]
    rw [← hbodies] at hbytes
    refine ⟨(code :: Bytes.littleEndian 2 operands.length) ++ out, ?_, ?_, ?_⟩
    · apply Record.serialize_eq_ok_iff.mpr
      refine ⟨hkind, .inr ⟨hlong, Record.serializeLong_eq_ok_iff.mpr ?_⟩⟩
      refine ⟨out, code, hbytes, by omega, ?_, by simp [hout]⟩
      rw [hcodeValue, Value.codeByte_int_eq_ok_iff]
    · simp [hout]
    · rw [← List.nil_append (frame.record.operands.floatOffsets (offset + 3))]
      apply (Requieted.raw _ hheader).append
      simpa only [List.length_cons, Bytes.length_littleEndian] using hrequieted

end Decoder

/-! ### Blocks -/

/-- The displacement of a branch is a number that fits. -/
def Operands.Branching (o : Operands) : Prop :=
  o.isBranch = o.displacement?.isSome
    ∧ ∀ x ∈ o.displacement?, displacementRange.1 ≤ x ∧ x ≤ displacementRange.2

/-- Actions that were read from an offset on, their records with the bytes of their bodies, and
the bytes that these are written as, one chunk after the other. -/
inductive Chunked (data : Bytes) : Nat → List Placed → List Item → List Bytes → Prop where
  | nil {offset : Nat} : Chunked data offset [] [] []
  | cons {offset : Nat} {a : Action} {placed : List Placed} {item : Item} {items : List Item}
      {chunk : Bytes} {chunks : List Bytes} (hitem : a.Itemized item)
      (hbranch : a.record.operands.Branching)
      (hchunk : a.record.serialize item.bodies = .ok chunk)
      (hrequieted : Requieted data a.floatOffsets offset chunk)
      (hrest : Chunked data (offset + chunk.length) placed items chunks) :
      Chunked data offset (⟨offset, a⟩ :: placed) (item :: items) (chunk :: chunks)

/-- An action whose target was found from its displacement is written with that displacement. -/
theorem exists_written_of_land {starts' : List Int} {all : List Bytes} {start offset index : Nat}
    {a a' : Action} {item : Item} {chunk : Bytes} (hitem : a.Itemized item)
    (hbranch : a.record.operands.Branching)
    (hchunk : a.record.serialize item.bodies = .ok chunk) (hindex : index < all.length)
    (hstarts : ∀ x t, starts'.idxOf? x = some t →
      t ≤ all.length ∧ x = (start + (all.take t).flatten.length : Nat))
    (hland : land starts' ⟨offset, a⟩ (start + (all.take (index + 1)).flatten.length : Nat)
      = .ok a') :
  ∃ item', a'.Itemized item' ∧ item'.Written (starts all) index chunk
  := by
  obtain ⟨hrecord, hbodies⟩ := hitem
  obtain ⟨hnone, ha⟩ | ⟨x, t, hx, ht, rfl⟩ := land_eq_ok_iff.mp hland
  · replace hnone : a.record.operands.displacement? = none := hnone
    have hplain : a.record.operands.isBranch = false := by
      simpa [hnone] using hbranch.1
    rw [show a' = a from ha]
    refine ⟨item, ⟨hrecord, hbodies⟩, 0, ?_, ?_⟩
    · rw [Item.serialize, hrecord, Record.withDisplacement_of_not_branch hplain, hchunk]
    · intro target old hop
      rw [hrecord] at hop
      rw [hop] at hplain
      cases hplain
  · obtain ⟨hle, hdest⟩ := hstarts _ t ht
    obtain ⟨identity, record, bodies⟩ := a
    replace hx : record.operands.displacement? = some x := hx
    have hrange := hbranch.2 x hx
    refine ⟨⟨record.withTarget (.int t), item.bodies⟩, ⟨rfl, hbodies⟩, x, ?_, ?_⟩
    · rw [Item.serialize, Record.withDisplacement_withTarget, Record.serialize_withTarget,
        Record.serialize_withDisplacement_self _ hx]
      exact hchunk
    · intro target old hop
      obtain rfl := Operands.target_of_withTarget hop
      apply displacement_eq_ok_iff.mpr
      refine ⟨t, rfl, ?_, ?_, hrange⟩
      · rw [size_starts]
        omega
      · rw [distance, starts_getD hle, starts_getD (Nat.succ_le_of_lt hindex), Nat.succ_eq_add_one]
        omega

namespace Chunked

variable {data : Bytes} {offset : Nat} {placed : List Placed} {items : List Item}
  {chunks : List Bytes}

/-- Chunks differ from the bytes they were read from in the quiet bits of floats only. -/
theorem requieted (h : Chunked data offset placed items chunks) :
  Requieted data (blockFloatOffsets (placed.map Placed.action)) offset chunks.flatten
  := by
  induction h with
  | nil => exact .raw _ rfl
  | cons _ _ _ hrequieted _ ih => exact hrequieted.append ih

/-- Chunks are laid out where their actions were read. -/
theorem laid (h : Chunked data offset placed items chunks) :
  Laid offset placed chunks
  := by
  induction h with
  | nil => exact .nil
  | cons _ _ _ _ _ ih => exact .cons ih

/-- The targets that resolution finds lead back to the displacements. -/
theorem linked {start : Nat} {starts' : List Int} {all before : List Bytes}
    {actions : List Action}
    (h : Chunked data (start + before.flatten.length) placed items chunks)
    (hall : before ++ chunks = all)
    (hstarts : ∀ x t, starts'.idxOf? x = some t →
      t ≤ all.length ∧ x = (start + (all.take t).flatten.length : Nat))
    (hland : List.Forall₂ (fun q a => Function.uncurry (land starts') q = .ok a)
      (placed.zip ((landings placed (start + all.flatten.length : Nat)).drop 1)) actions) :
  ∃ resolved, List.Forall₂ Action.Itemized actions resolved
    ∧ Linked (starts all) before.length resolved chunks
  := by
  generalize hoffset : start + before.flatten.length = offset at h
  induction h generalizing before actions with
  | nil =>
    cases hland
    exact ⟨[], .nil, .nil⟩
  | @cons offset a placed item items chunk chunks hitem hbranch hchunk _ hrest ih =>
    have hnext : start + (before ++ [chunk]).flatten.length = offset + chunk.length := by
      simp [← hoffset, add_assoc]
    have hindex : before.length < all.length := by
      rw [← hall]
      simp
    rw [hrest.laid.zip_cons hoffset hall] at hland
    obtain _ | ⟨ha, hland⟩ := hland
    obtain ⟨item', hitem', hwritten⟩ :=
      exists_written_of_land hitem hbranch hchunk hindex hstarts ha
    obtain ⟨resolved, hresolved, hlinked⟩ := ih (by simpa using hall) hland hnext
    refine ⟨item' :: resolved, .cons hitem' hresolved, .cons hwritten ?_⟩
    simpa using hlinked

/-- The actions of a block whose branches resolve are linked to where their chunks start. -/
theorem exists_linked {actions : List Action} (h : Chunked data offset placed items chunks)
    (hresolve : resolve placed (offset + chunks.flatten.length : Nat) = .ok actions) :
  ∃ resolved, List.Forall₂ Action.Itemized actions resolved
    ∧ Linked (starts chunks) 0 resolved chunks
  := by
  have hstarts : ∀ x t,
      (landings placed (offset + chunks.flatten.length : Nat)).idxOf? x = some t →
      t ≤ chunks.length ∧ x = (offset + (chunks.take t).flatten.length : Nat) := by
    intro x t ht
    exact h.laid.getElem?_landings.mp (getElem?_of_idxOf? ht)
  rw [resolve_eq_mapM, mapM_eq_ok_iff] at hresolve
  have hstart : Chunked data (offset + ([] : List Bytes).flatten.length) placed items chunks := h
  apply hstart.linked rfl hstarts hresolve

/-- A block whose branches resolve is written as its chunks. -/
theorem encodeBlock_eq {actions : List Action} (h : Chunked data offset placed items chunks)
    (hresolve : resolve placed (offset + chunks.flatten.length : Nat) = .ok actions) :
  encodeBlock actions = .ok chunks.flatten
  := by
  obtain ⟨resolved, hresolved, hlinked⟩ := h.exists_linked hresolve
  apply encodeBlock_eq_ok_iff_linked.mpr
  exact ⟨resolved, chunks, hresolved, hlinked, rfl⟩

end Chunked

/-! ### Blocks and bodies -/

theorem blockFloatOffsets_eq_flatten (actions : List Action) :
  blockFloatOffsets actions = (actions.map Action.floatOffsets).flatten
  := by
  induction actions with
  | nil => rfl
  | cons a actions ih => rw [blockFloatOffsets, ih, List.map_cons, List.flatten_cons]

theorem Action.floatOffsets_withTarget (t : Nat) (a : Action) :
  (a.withTarget t).floatOffsets = a.floatOffsets
  := by
  obtain ⟨identity, ⟨kind, operands, code, name, trailing, offset, sizes, forms⟩, bodies⟩ := a
  cases operands <;> rfl

/-- Resolving the branches does not change where a block has floats. -/
theorem blockFloatOffsets_of_resolve {placed : List Placed} {stop : Int} {actions : List Action}
    (h : resolve placed stop = .ok actions) :
  blockFloatOffsets actions = blockFloatOffsets (placed.map Placed.action)
  := by
  rw [blockFloatOffsets_eq_flatten, blockFloatOffsets_eq_flatten,
    map_of_resolve Action.floatOffsets_withTarget h]

namespace Decoder

variable {d : Decoder} {data : Bytes}

theorem RecordAt.branching {offset : Nat} {record : Bytes} {frame : Frame}
    (h : d.RecordAt offset record frame) :
  frame.record.operands.Branching
  := by
  obtain ⟨_, operands, hframe⟩ := h.exists_record
  obtain ⟨-, -, rfl⟩ | ⟨entry, o, ns, trailing, -, hread, rfl⟩ := record_eq_ok_iff.mp hframe
  · exact ⟨rfl, by simp [Frame.unlisted, Operands.displacement?]⟩
  · obtain ⟨front, out, rfl, -, hwire, -, hbranch, -⟩ :=
      Layout.exists_wire_of_read hread (show operands.drop 0 = operands ++ [] by simp)
    exact ⟨hbranch, fun x hx => Operands.displacement_range hwire hx⟩

mutual

/-- The actions of a block are written one by one as they were read. -/
theorem BlockAt.exists_chunked {outermost : Bool} :
  ∀ {offset : Nat} {bytes tail : Bytes} {placed : List Placed},
    d.BlockAt outermost offset bytes placed → data.drop offset = bytes ++ tail →
    ∃ items chunks, Chunked data offset placed items chunks
      ∧ chunks.flatten.length = bytes.length
  | _, _, _, _, .nil, _ => ⟨[], [], .nil, rfl⟩
  | offset, _, tail, _,
      @BlockAt.cons _ _ _ record bodyBytes rest frame bodies placed hrecord _ hbodies hrest,
      hdata => by
    simp only [List.append_assoc] at hdata
    have hbody := Bytes.drop_add_length hdata
    obtain ⟨outs, houts, hsizes, hbodyLen, hbodyQuiet⟩ := hbodies.exists_encode hbody
    obtain ⟨items, chunks, hchunked, hrestLen⟩ := hrest.exists_chunked (Bytes.drop_add_length hbody)
    obtain ⟨out, hout, hlen, hquiet⟩ := hrecord.exists_serialize hdata hsizes
    have hchunkLen : (out ++ outs.flatten).length = record.length + bodyBytes.length := by
      rw [List.length_append, hlen, hbodyLen]
    rw [← hlen] at hbodyQuiet
    rw [add_assoc, ← hchunkLen] at hchunked
    refine ⟨⟨frame.record, outs⟩ :: items, (out ++ outs.flatten) :: chunks,
      .cons ⟨rfl, houts⟩ hrecord.branching hout (hquiet.append hbodyQuiet) hchunked, ?_⟩
    rw [List.flatten_cons, List.length_append, hchunkLen, hrestLen]
    simp only [List.length_append]

/-- Bodies are written as they were read. -/
theorem BodiesAt.exists_encode :
  ∀ {offset : Nat} {sizes : List Nat} {bytes tail : Bytes} {bodies : List (List Action)},
    d.BodiesAt offset sizes bytes bodies → data.drop offset = bytes ++ tail →
    ∃ outs, List.Forall₂ (fun body out => encodeBlock body = .ok out) bodies outs
      ∧ outs.map List.length = sizes ∧ outs.flatten.length = bytes.length
      ∧ Requieted data (bodiesFloatOffsets bodies) offset outs.flatten
  | _, _, _, _, _, .nil, _ => ⟨[], .nil, rfl, rfl, .raw _ rfl⟩
  | offset, _, _, tail, _,
      @BodiesAt.cons _ _ size _ body rest placed actions bodies hsize hbody hresolve hrest,
      hdata => by
    simp only [List.append_assoc] at hdata
    have hnext := Bytes.drop_add_length hdata
    rw [hsize] at hnext
    obtain ⟨items, chunks, hchunked, hlen⟩ := hbody.exists_chunked hdata
    obtain ⟨outs, houts, hsizes, houtsLen, hquiet⟩ := hrest.exists_encode hnext
    rw [hsize] at hlen
    rw [← hlen] at hresolve hquiet
    refine ⟨chunks.flatten :: outs, .cons (hchunked.encodeBlock_eq hresolve) houts, ?_, ?_, ?_⟩
    · rw [List.map_cons, hlen, hsizes]
    · simp [hlen, hsize, houtsLen]
    · rw [bodiesFloatOffsets, blockFloatOffsets_of_resolve hresolve]
      exact hchunked.requieted.append hquiet

end

end Decoder

/-! ### The theorem -/

/-- What was read from a byte string is written as the bytes that were read, with the quiet bit
set of each pushed number of 32 bits that is a signalling NaN, and hence as these bytes themselves
if there is none. -/
theorem encode_of_read {d : Decoder} {data : Bytes} {actions : List Action} {cursor : Int}
    (h : (d.read (.ofBytes data)).result = .ok (actions, cursor)) :
  ∃ consumed : Nat, cursor = 8 * consumed ∧ consumed ≤ data.length
    ∧ encode actions = .ok ((data.quieted (blockFloatOffsets actions)).take consumed)
    ∧ ((data.quieted (blockFloatOffsets actions)).take consumed).length = consumed
    ∧ ((∀ o ∈ blockFloatOffsets actions, (Single.ofBytesAt data o).isSignalling = false) →
      encode actions = .ok (data.take consumed))
  := by
  obtain ⟨bytes, tail, placed, rfl, hblock, hresolve, rfl⟩ :=
    Decoder.read_ofBytes_eq_ok_iff.mp h
  generalize hdata : bytes ++ 0 :: tail = data at h
  have hdrop : data.drop 0 = bytes ++ 0 :: tail := hdata.symm
  obtain ⟨items, chunks, hchunked, hlen⟩ := hblock.exists_chunked hdrop
  have hwritten : encodeBlock actions = .ok chunks.flatten := by
    apply hchunked.encodeBlock_eq
    rw [zero_add, hlen]
    exact hresolve
  have hquiet : Requieted data (blockFloatOffsets actions) 0 (chunks.flatten ++ [0]) := by
    rw [blockFloatOffsets_of_resolve hresolve,
      ← List.append_nil (blockFloatOffsets (placed.map Placed.action))]
    apply hchunked.requieted.append (.raw tail _)
    rw [hlen]
    apply Bytes.drop_add_length hdrop
  have houtLen : (chunks.flatten ++ [0]).length = bytes.length + 1 := by
    rw [List.length_append, hlen]
    rfl
  have hencode : encode actions
      = .ok ((data.quieted (blockFloatOffsets actions)).take (bytes.length + 1)) := by
    apply encode_eq_ok_iff.mpr
    refine ⟨chunks.flatten, hwritten, ?_⟩
    rw [← houtLen]
    exact hquiet.eq_take.symm
  have hlength : (data.quieted (blockFloatOffsets actions)).length = data.length := by
    simp [Bytes.quieted]
  have hle : bytes.length + 1 ≤ data.length := by
    simp [← hdata]
  refine ⟨bytes.length + 1, by simp, hle, hencode, ?_, ?_⟩
  · rw [List.length_take, hlength]
    omega
  · intro hnone
    rw [hencode, Bytes.quieted_eq_self hnone]

/-- A function whose body pushes a signalling NaN, with a byte after the end. -/
theorem encode_of_read_function :
  ∃ actions, (Decoder.read ⟨OpcodeTable.shared, false⟩ (.ofBytes [0x9B, 0x05, 0x00, 0x00, 0x00,
      0x00, 0x08, 0x00, 0x96, 0x05, 0x00, 0x01, 0x01, 0x00, 0x80, 0x7F, 0x00, 0xFF])).result
      = .ok (actions, 8 * 17)
    ∧ encode actions = .ok [0x9B, 0x05, 0x00, 0x00, 0x00, 0x00, 0x08, 0x00, 0x96, 0x05, 0x00,
      0x01, 0x01, 0x00, 0xC0, 0x7F, 0x00]
  := by
  refine ⟨_, rfl, ?_⟩
  obtain ⟨consumed, hconsumed, -, hencode, -, -⟩ := @encode_of_read ⟨OpcodeTable.shared, false⟩
    [0x9B, 0x05, 0x00, 0x00, 0x00, 0x00, 0x08, 0x00, 0x96, 0x05, 0x00, 0x01, 0x01, 0x00, 0x80,
      0x7F, 0x00, 0xFF] _ (8 * 17) rfl
  obtain rfl : consumed = 17 := by omega
  rw [hencode]
  rfl

end ActionBlock
