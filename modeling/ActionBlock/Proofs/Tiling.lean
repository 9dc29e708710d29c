import ActionBlock.Proofs.Reencoding

/-!
# Blocks tile the data

The tree of actions that is read from data covers it without gaps and overlaps. Each action starts
where the one before it ends, an action takes as many bytes as it is written as, its bodies follow
its record one after the other, and a body takes as many bytes as its record declares.
-/

namespace ActionBlock

/-! ### Tilings -/

/-- The sizes that the bodies of a record were read with stand in the data after the code, the
length and the first fields, and the record ends where its length says. -/
structure Record.Declares (data : Bytes) (start : Nat) (r : Record) (sizes : List Nat) : Prop where
  declared : r.declaredSizes = .list (sizes.map fun (n : Nat) => .int n)
  fits : ∀ n ∈ sizes, n < 2 ^ 16
  header : ∃ front, r.operands.fields = .ok front
    ∧ (data.drop (start + 3 + front.length)).take (2 * sizes.length)
      = sizes.flatMap (Bytes.littleEndian 2)
  length : recordEnd data start
    = start + 3 + Bytes.ofLittleEndian ((data.drop (start + 1)).take 2)

mutual

/-- The actions of a block tile the data from a start to a stop. -/
inductive BlockTiles (data : Bytes) : Nat → List Action → Nat → Prop where
  | nil {start : Nat} : BlockTiles data start [] start
  | cons {start size stop : Nat} {a : Action} {actions : List Action} {sizes : List Nat}
      (hoffset : a.record.offset = .int start) (hsize : a.size = .ok size)
      (hbytes : ∃ bytes, a.serialize = .ok bytes ∧ bytes.length = size)
      (hdeclared : a.record.operands.isContainer → a.record.Declares data start sizes)
      (hbodies : BodiesTile data (recordEnd data start) a.bodies sizes (start + size))
      (hrest : BlockTiles data (start + size) actions stop) :
      BlockTiles data start (a :: actions) stop

/-- Bodies of the given sizes tile the data from a start to a stop, and no record in them crosses
the end of its body. -/
inductive BodiesTile (data : Bytes) : Nat → List (List Action) → List Nat → Nat → Prop where
  | nil {start : Nat} : BodiesTile data start [] [] start
  | cons {start size stop : Nat} {body : List Action} {bodies : List (List Action)}
      {sizes : List Nat} (hsize : ∃ bytes, encodeBlock body = .ok bytes ∧ bytes.length = size)
      (hbody : BlockTiles data start body (start + size))
      (hwithin : ∀ span ∈ blockSpans data body, start ≤ span.1 ∧ span.2 ≤ start + size)
      (hrest : BodiesTile data (start + size) bodies sizes stop) :
      BodiesTile data start (body :: bodies) (size :: sizes) stop

end

/-! ### Targets make no difference -/

theorem Operands.isContainer_withTarget (o : Operands) (t : Value) :
  (o.withTarget t).isContainer = o.isContainer
  := by
  rw [isContainer, bodyNames_withTarget, isContainer]

/-- A target does not change what a record declares. -/
theorem Record.Declares.withTarget {data : Bytes} {start : Nat} {r : Record} {sizes : List Nat}
    (h : r.Declares data start sizes) (t : Value) :
  (r.withTarget t).Declares data start sizes
  := by
  have hfields : (r.operands.withTarget t).fields = r.operands.fields := by
    cases r.operands <;> rfl
  obtain ⟨front, hfront, hheader⟩ := h.header
  exact ⟨h.declared, h.fits, ⟨front, hfields.trans hfront, hheader⟩, h.length⟩

/-- Resolution keeps a tiling. -/
theorem BlockTiles.of_targets {data : Bytes} {start stop : Nat} {actions resolved : List Action}
    (h : List.Forall₂ (fun a b => b = a ∨ ∃ t : Nat, b = a.withTarget t) actions resolved)
    (htiles : BlockTiles data start actions stop) :
  BlockTiles data start resolved stop
  := by
  induction h generalizing start with
  | nil => exact htiles
  | @cons a b actions resolved hab _ ih =>
    obtain _ | ⟨hoffset, hsize, ⟨bytes, hbytes, hlen⟩, hdeclared, hbodies, hrest⟩ := htiles
    obtain rfl | ⟨t, rfl⟩ := hab
    · exact .cons hoffset hsize ⟨bytes, hbytes, hlen⟩ hdeclared hbodies (ih hrest)
    · have hbytes' : (a.withTarget t).serialize = .ok bytes := by
        rw [Action.serialize_withTarget, hbytes]
      have hsize' : (a.withTarget t).size = .ok _ := hlen ▸ Action.size_of_serialize hbytes'
      obtain ⟨identity, record, bodies⟩ := a
      refine .cons hoffset hsize' ⟨bytes, hbytes', hlen⟩ ?_ hbodies (ih hrest)
      intro hcontainer
      apply Record.Declares.withTarget (hdeclared _)
      simpa [Action.withTarget, Action.record, Record.withTarget,
        Operands.isContainer_withTarget] using hcontainer

/-! ### What is read tiles the data -/

namespace Decoder

variable {d : Decoder} {data : Bytes}

/-- The sizes of the bodies stand in the operands after the first fields. -/
theorem record_header {offset code : Int} {start : Nat} {operands tail : Bytes} {frame : Frame}
    (h : d.record offset code operands = .ok frame)
    (hcontainer : frame.record.operands.isContainer)
    (hdata : data.drop start = operands ++ tail) :
  frame.record.declaredSizes = .list (frame.sizes.map fun (n : Nat) => .int n)
    ∧ (∀ n ∈ frame.sizes, n < 2 ^ 16)
    ∧ ∃ front, frame.record.operands.fields = .ok front
      ∧ (data.drop (start + front.length)).take (2 * frame.sizes.length)
        = frame.sizes.flatMap (Bytes.littleEndian 2)
  := by
  obtain ⟨-, -, rfl⟩ | ⟨entry, o, ns, trailing, -, hread, rfl⟩ := record_eq_ok_iff.mp h
  · cases hcontainer
  have hl : entry.layout ≠ .push := by
    intro hpush
    simp only [hpush, Layout.read, Reader.bind_eq_some_iff, Reader.pure_eq_some_iff,
      Prod.mk.injEq] at hread
    obtain ⟨vs, _, -, ⟨rfl, -⟩, -⟩ := hread
    cases hcontainer
  obtain ⟨_, rfl, hwire, -⟩ := Layout.wire_of_read hl hread
  obtain ⟨front, back, hfront, hfits, -, rfl⟩ := Operands.wire_eq_ok_iff.mp hwire
  refine ⟨rfl, hfits, front, hfront, ?_⟩
  have hsizes : (ns.flatMap (Bytes.littleEndian 2)).length = 2 * ns.length := by
    simp [List.length_flatMap, mul_comm]
  simp only [List.append_assoc] at hdata
  rw [Bytes.drop_add_length hdata]
  apply List.take_left' hsizes

/-- The record of a container declares the sizes that its bodies are read with. -/
theorem RecordAt.declares {offset : Nat} {record tail : Bytes} {frame : Frame}
    (h : d.RecordAt offset record frame) (hdata : data.drop offset = record ++ tail)
    (hcontainer : frame.record.operands.isContainer) :
  frame.record.Declares data offset frame.sizes
  := by
  have hstop := h.recordEnd_eq hdata
  cases h with
  | short hcode hframe =>
    -- A record without operands has no room for the size of a body.
    obtain ⟨hnames, hroom⟩ := record_sizes hframe
    have hsome : frame.record.operands.bodyNames ≠ [] := by
      simpa [Operands.isContainer] using hcontainer
    have := List.length_pos_iff.mpr hsome
    simp only [List.length_nil] at hroom
    omega
  | @long code operands _ hcode hlen hframe =>
    have hheader : data.drop offset
        = (code :: Bytes.littleEndian 2 operands.length) ++ (operands ++ tail) := by
      rw [hdata, List.cons_append, List.cons_append, List.append_assoc]
    have hoperands := Bytes.drop_add_length hheader
    rw [List.length_cons, Bytes.length_littleEndian] at hoperands
    obtain ⟨hdeclared, hfits, hfields⟩ := record_header hframe hcontainer hoperands
    refine ⟨hdeclared, hfits, hfields, ?_⟩
    rw [recordEnd] at hstop ⊢
    split at hstop
    · simp only [List.length_cons, List.length_append, Bytes.length_littleEndian] at hstop
      omega
    · rename_i hlong
      apply if_neg hlong

mutual

/-- The actions of a block tile the bytes they were read from. -/
theorem BlockAt.tiles {outermost : Bool} :
  ∀ {offset : Nat} {bytes tail : Bytes} {placed : List Placed},
    d.BlockAt outermost offset bytes placed → data.drop offset = bytes ++ tail →
    BlockTiles data offset (placed.map Placed.action) (offset + bytes.length)
  | _, _, _, _, .nil, _ => .nil
  | offset, _, tail, _,
      @BlockAt.cons _ _ _ record bodyBytes rest frame bodies placed hrecord _ hbodies hrest,
      hdata => by
    simp only [List.append_assoc] at hdata
    have hbody := Bytes.drop_add_length hdata
    have hbodyTiles := hbodies.tiles hbody
    have hrestTiles := hrest.tiles (Bytes.drop_add_length hbody)
    obtain ⟨outs, houts, hsizes, hbodyLen, -⟩ := hbodies.exists_encode hbody
    obtain ⟨out, hout, hlen, -⟩ := hrecord.exists_serialize hdata hsizes
    have hitem : (Action.mk none frame.record bodies).Itemized ⟨frame.record, outs⟩ := ⟨rfl, houts⟩
    have hbytes := Action.serialize_of_itemized hitem hout
    have hchunkLen : (out ++ outs.flatten).length = record.length + bodyBytes.length := by
      rw [List.length_append, hlen, hbodyLen]
    have hsize := Action.size_of_serialize hbytes
    rw [hchunkLen] at hsize
    rw [List.length_append, List.length_append, ← add_assoc, List.map_cons]
    rw [add_assoc] at hbodyTiles hrestTiles
    rw [← hrecord.recordEnd_eq hdata] at hbodyTiles
    exact .cons hrecord.offset_eq hsize ⟨_, hbytes, hchunkLen⟩ (hrecord.declares hdata) hbodyTiles
      hrestTiles

/-- Bodies tile the bytes they were read from. -/
theorem BodiesAt.tiles :
  ∀ {offset : Nat} {sizes : List Nat} {bytes tail : Bytes} {bodies : List (List Action)},
    d.BodiesAt offset sizes bytes bodies → data.drop offset = bytes ++ tail →
    BodiesTile data offset bodies sizes (offset + bytes.length)
  | _, _, _, _, _, .nil, _ => .nil
  | offset, _, _, tail, _,
      @BodiesAt.cons _ _ size _ body rest placed actions bodies hsize hbody hresolve hrest,
      hdata => by
    simp only [List.append_assoc] at hdata
    have hnext := Bytes.drop_add_length hdata
    rw [hsize] at hnext
    have hbodyTiles := hbody.tiles hdata
    have hrestTiles := hrest.tiles hnext
    obtain ⟨items, chunks, hchunked, hlen⟩ := hbody.exists_chunked hdata
    have hcontiguous := hbody.contiguous hdata
    rw [hsize] at hlen hbodyTiles hcontiguous
    rw [List.length_append, hsize, ← add_assoc]
    have hbytes : encodeBlock actions = .ok chunks.flatten := by
      apply hchunked.encodeBlock_eq
      rw [hlen]
      exact hresolve
    refine .cons ⟨_, hbytes, hlen⟩ (hbodyTiles.of_targets (forall₂_of_resolve hresolve)) ?_
      hrestTiles
    intro span hspan
    rw [blockSpans_of_resolve hresolve] at hspan
    obtain ⟨hstart, -, hstop⟩ := hcontiguous.within span hspan
    exact ⟨hstart, hstop⟩

end

end Decoder

/-! ### The theorem -/

/-- The actions that are read from a byte string tile the bytes before the code zero at which
reading ends, and each of these bytes belongs to exactly one record. -/
theorem read_tiles {d : Decoder} {data : Bytes} {actions : List Action} {cursor : Int}
    (h : (d.read (.ofBytes data)).result = .ok (actions, cursor)) :
  ∃ stop : Nat, cursor = 8 * (stop + 1) ∧ data[stop]? = some 0 ∧ BlockTiles data 0 actions stop
    ∧ ∀ i < stop, ∃! k : Nat, ∃ span, (blockSpans data actions)[k]? = some span
      ∧ span.1 ≤ i ∧ i < span.2
  := by
  obtain ⟨bytes, tail, placed, rfl, hblock, hresolve, rfl⟩ :=
    Decoder.read_ofBytes_eq_ok_iff.mp h
  generalize hdata : bytes ++ 0 :: tail = data
  have hdrop : data.drop 0 = bytes ++ 0 :: tail := hdata.symm
  have htiles := hblock.tiles hdrop
  have hcontiguous := hblock.contiguous hdrop
  rw [zero_add] at htiles hcontiguous
  rw [← blockSpans_of_resolve hresolve] at hcontiguous
  refine ⟨bytes.length, rfl, ?_, htiles.of_targets (forall₂_of_resolve hresolve), ?_⟩
  · rw [← hdata]
    simp
  · intro i hi
    apply hcontiguous.existsUnique (Nat.zero_le i) hi

/-- An action with three bodies of one record each. -/
theorem read_tiles_try :
  ∃ actions, (Decoder.read ⟨OpcodeTable.shared, false⟩ (.ofBytes [0x8F, 0x08, 0x00, 0x07, 0x01,
      0x00, 0x01, 0x00, 0x01, 0x00, 0x02, 0x06, 0x07, 0x17, 0x00])).result
      = .ok (actions, 8 * 15)
    ∧ BlockTiles [0x8F, 0x08, 0x00, 0x07, 0x01, 0x00, 0x01, 0x00, 0x01, 0x00, 0x02, 0x06, 0x07,
      0x17, 0x00] 0 actions 14
  := by
  refine ⟨_, rfl, ?_⟩
  obtain ⟨stop, hstop, -, htiles, -⟩ := @read_tiles ⟨OpcodeTable.shared, false⟩
    [0x8F, 0x08, 0x00, 0x07, 0x01, 0x00, 0x01, 0x00, 0x01, 0x00, 0x02, 0x06, 0x07, 0x17, 0x00] _
    (8 * 15) rfl
  obtain rfl : stop = 14 := by omega
  exact htiles

end ActionBlock
