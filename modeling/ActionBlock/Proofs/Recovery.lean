import ActionBlock.Opcode.Standard
import ActionBlock.Proofs.Assembly
import ActionBlock.Proofs.Extent
import ActionBlock.Proofs.Readback

/-!
# Writing and then reading

A well-formed block is read back from what is written for it, as a block that is equal to it. The
bytes of a block are the chunks of its actions. Each chunk is read as a record and its bodies,
which match those that were written; and the displacement of a branch, which was found from its
target, leads back to that target, because no two actions of a block start at the same offset.
-/

namespace ActionBlock

/-! ### Equality of actions -/

theorem sameActions_eq_ok_true_iff {as bs : List Action} :
  sameActions as bs = .ok true ↔ List.Forall₂ (fun a b => a.same b = .ok true) as bs
  := by
  induction as generalizing bs with
  | nil => cases bs <;> simp [sameActions]
  | cons a as ih =>
    cases bs with
    | nil => simp [sameActions]
    | cons b bs =>
      rw [sameActions, List.forall₂_cons, ← ih]
      split
      · rename_i hsame
        simp [hsame]
      · rename_i hother
        constructor
        · intro h
          exact absurd h hother
        · rintro ⟨h, -⟩
          exact absurd h hother

/-- Blocks are the same exactly when they are as long and the same action by action. -/
theorem sameBlock_eq_ok_true_iff {as bs : List Action} :
  sameBlock as bs = .ok true ↔ List.Forall₂ (fun a b => a.same b = .ok true) as bs
  := by
  rw [sameBlock]
  split
  · apply sameActions_eq_ok_true_iff
  · rename_i hlen
    simp only [Except.ok.injEq, Bool.false_eq_true, false_iff]
    intro h
    exact hlen h.length_eq

/-- Bodies that are the same one by one are the same. -/
theorem sameBodies_eq_ok_true {as bs : List (List Action)}
    (h : List.Forall₂ (fun a b => sameBlock a b = .ok true) as bs) :
  sameBodies (List.replicate as.length true) as bs = .ok true
  := by
  induction h with
  | nil => rw [List.length_nil, List.replicate_zero, sameBodies]
  | @cons a b as bs hab _ ih =>
    have hactions := sameBlock_eq_ok_true_iff.mp hab
    rw [List.length_cons, List.replicate_succ, sameBodies, if_pos hactions.length_eq,
      sameActions_eq_ok_true_iff.mpr hactions]
    exact ih

/-- Records that are equal, apart from their bodies. -/
structure Record.Matches (new old : Record) : Prop where
  kind : new.kind.same old.kind = true
  code : new.code.same old.code = true
  operands : new.operands.compare old.operands = .ok true
  trailing : new.trailing.same old.trailing = true
  forms : ∀ number < new.operands.bodyNames.length,
    (new.form number).same (old.form number) = true

/-- Actions are the same where their records match and their bodies are the same. -/
theorem Action.same_of_matches {new old : Record} {as bs : List (List Action)}
    {identity : Option Nat} (h : new.Matches old)
    (hcount : as.length = new.operands.bodyNames.length)
    (hbodies : List.Forall₂ (fun a b => sameBlock a b = .ok true) as bs) :
  (Action.mk none new as).same (.mk identity old bs) = .ok true
  := by
  have hforms : new.sameForms old = List.replicate as.length true := by
    rw [Record.sameForms, hcount]
    apply List.eq_replicate_iff.mpr
    constructor
    · simp
    · intro b hb
      obtain ⟨number, hnumber, rfl⟩ := List.mem_map.mp hb
      exact h.forms number (List.mem_range.mp hnumber)
  rw [Action.same, hforms, sameBodies_eq_ok_true hbodies]
  simp [h.kind, h.code, h.operands, h.trailing]

/-! ### Records -/

/-- A value that counts as an integer is the same as that integer. -/
theorem Value.same_of_whole {v : Value} {n : Int} (h : v.whole? = some n) :
  (Value.int n).same v = true
  := by
  cases v with
  | scalar s =>
    have hs : s.whole? = some n := h
    have hn : (Scalar.int n).whole? = some n := rfl
    rw [same_scalar]
    simp only [Scalar.same, hs, hn, decide_true]
  | _ => cases h

/-- The displacement of a branch plays no part in equality. -/
theorem Operands.compare_withDisplacement (new old : Operands) (d : Int) :
  new.compare (old.withDisplacement d) = new.compare old
  := by
  cases old with
  | branch => cases new <;> rfl
  | _ => rfl

/-- A record as it is read back from one that was written with a displacement: it matches, or it
is a branch with that displacement and matches once it has the target. -/
def Record.Recovers (new old : Record) (d : Int) : Prop :=
  (new.operands.displacement? = none ∧ new.Matches old)
    ∨ ∃ target displacement, old.operands = .branch target displacement
      ∧ new.operands.displacement? = some d
      ∧ ∀ t, t.same target = true → (new.withTarget t).Matches old

/-- Setting a displacement keeps operands well formed. -/
theorem Operands.WellFormed.withDisplacement {l : Layout} {o : Operands} (h : o.WellFormed l)
    (d : Int) :
  (o.withDisplacement d).WellFormed l
  := by
  cases h with
  | branch => exact .branch
  | _ => constructor <;> assumption

theorem Operands.WellFormed.eq_plain {o : Operands} (h : o.WellFormed .plain) :
  o = .plain
  := by
  cases h
  rfl

/-- A record read by its entry in the table matches the one it was written from. -/
theorem Frame.listed_matches {table : TableId} {entry : OpcodeEntry} {r : Record} {o : Operands}
    {trailing : Bytes} (hkind : r.kind = .listed table entry) (hcode : r.code = .int entry.code)
    (hoperands : o.compare r.operands = .ok true) (htrailing : r.trailing = .bytes trailing)
    (hforms : ∀ number, r.form number = .block) (offset : Int) (ns : List Nat) :
  (Frame.listed table entry offset o ns trailing).record.Matches r
  := by
  constructor
  · simp [listed, hkind, ActionKind.same]
  · rw [hcode]
    apply Value.same_of_whole rfl
  · exact hoperands
  · rw [htrailing]
    exact Value.same_scalar.trans (Scalar.same_self (by simp))
  · intro number _
    rw [hforms]
    rfl

/-- The operands of a well-formed record are read back as those of a record that is equal to it. -/
theorem Record.WellFormed.exists_record {d : Decoder} {outermost : Bool} {r : Record}
    {displacement code : Int} {ns : List Nat} {operands : Bytes} (hd : d.strict = false)
    (h : r.WellFormed d.table outermost) (hcode : r.code = .int code)
    (hns : ns.length = r.operands.bodyNames.length)
    (hbytes : (r.withDisplacement displacement).operandBytes ns = .ok operands) (offset : Int) :
  ∃ frame, d.record offset code operands = .ok frame ∧ frame.sizes = ns
    ∧ frame.record.Recovers r displacement
  := by
  obtain ⟨w, t, hwire, ht, rfl⟩ := operandBytes_eq_ok_iff.mp hbytes
  replace ht : r.trailing = .bytes t := ht
  cases h with
  | @listed entry trailing hkind hentry hentryCode hoperands htrailing _ hleaves hforms =>
    obtain rfl : entry.code = code := by simpa [hentryCode] using hcode
    obtain rfl : trailing = t := by simpa [htrailing] using ht
    rw [← Operands.bodyNames_withDisplacement _ displacement] at hns
    obtain ⟨new, hread, hrecovers⟩ :=
      (hoperands.withDisplacement displacement).exists_read hwire hns hleaves
    refine ⟨.listed d.table.id entry offset new ns trailing, ?_, rfl, ?_⟩
    · apply Decoder.record_eq_ok_iff.mpr
      exact .inr ⟨entry, new, ns, trailing, hentry, hread, rfl⟩
    · obtain ⟨hnone, hcompare⟩ | ⟨target, old, x, hbranch, hx, rfl⟩ := hrecovers
      · rw [Operands.compare_withDisplacement] at hcompare
        exact .inl ⟨hnone, Frame.listed_matches hkind hcode hcompare htrailing hforms _ _⟩
      · obtain ⟨old', hold, rfl⟩ := Operands.eq_branch_of_withDisplacement hbranch
        obtain rfl := Option.some.inj hx
        refine .inr ⟨target, old', hold, rfl, ?_⟩
        intro t ht
        have hcompare : (Operands.branch t (.int displacement)).compare r.operands = .ok true := by
          rw [hold, Operands.compare_eq_of_toValues rfl rfl]
          exact congrArg Except.ok ht
        exact Frame.listed_matches hkind hcode hcompare htrailing hforms _ _
  | @unlisted kindCode code' payload hkind hmissing hkindCode hpayload _ htrailing _ =>
    obtain rfl : code' = code := by simpa [hkindCode] using hcode
    obtain rfl : t = [] := by simpa [htrailing] using ht.symm
    have hsame : (r.withDisplacement displacement).operands = .payload (.bytes payload) := by
      rw [withDisplacement, hpayload]
      rfl
    rw [hpayload] at hns
    rw [hsame] at hwire
    obtain rfl := List.length_eq_zero_iff.mp hns
    obtain rfl := Except.ok.inj ((Operands.wire_nil_eq_ok_iff rfl).mp hwire)
    have hself : ∀ b : Bytes, (Value.bytes b).same (.bytes b) = true :=
      fun b => Value.same_scalar.trans (Scalar.same_self (by simp))
    refine ⟨.unlisted offset code' payload, ?_, rfl, .inl ⟨rfl, ?_, ?_, ?_, ?_, ?_⟩⟩
    · apply Decoder.record_eq_ok_iff.mpr
      exact .inl ⟨hmissing, hd, by rw [List.append_nil]⟩
    · rw [hkind]
      rfl
    · rw [hcode]
      apply Value.same_of_whole rfl
    · rw [hpayload, Operands.compare_eq_of_toValues rfl rfl]
      apply congrArg Except.ok (hself payload)
    · rw [htrailing]
      apply hself
    · intro number hnumber
      cases hnumber

/-- A table in which the code that ends a block has no entry, and codes that have no room for
operands have none. -/
structure OpcodeTable.Regular (table : OpcodeTable) : Prop where
  zero : table.find? 0 = none
  short : ∀ entry ∈ table.entries, entry.code < firstLongCode → entry.layout = .plain

namespace Record.WellFormed

variable {d : Decoder} {outermost : Bool} {r : Record} {displacement : Int}

/-- A well-formed record has an integer for its code, and outermost it is not the end code. -/
theorem exists_code (htable : d.table.Regular) (h : r.WellFormed d.table outermost) :
  ∃ code, r.code = .int code ∧ (outermost → code ≠ 0)
  := by
  cases h with
  | @listed entry _ _ hentry hcode =>
    refine ⟨entry.code, hcode, ?_⟩
    intro _ hzero
    rw [hzero, htable.zero] at hentry
    cases hentry
  | unlisted _ _ hcode _ _ _ hzero => exact ⟨_, hcode, hzero⟩

/-- A record without a length has nothing but its code. -/
theorem operandBytes_of_short {code : Int} (htable : d.table.Regular)
    (h : r.WellFormed d.table outermost) (hcode : r.code = .int code)
    (hshort : code < firstLongCode) :
  r.operands.bodyNames = [] ∧ (r.withDisplacement displacement).operandBytes [] = .ok []
  := by
  cases h with
  | @listed entry trailing _ hentry hentryCode hoperands htrailing hempty =>
    obtain rfl : entry.code = code := by simpa [hentryCode] using hcode
    obtain rfl := hempty hshort
    rw [htable.short entry (List.mem_of_find?_eq_some hentry) hshort] at hoperands
    have hplain := hoperands.eq_plain
    refine ⟨by rw [hplain]; rfl, operandBytes_eq_ok_iff.mpr ⟨[], [], ?_, htrailing, rfl⟩⟩
    rw [withDisplacement, hplain]
    rfl
  | @unlisted _ code' payload _ _ hkindCode hpayload hempty htrailing _ =>
    obtain rfl : code' = code := by simpa [hkindCode] using hcode
    obtain rfl := hempty hshort
    refine ⟨by rw [hpayload]; rfl, operandBytes_eq_ok_iff.mpr ⟨[], [], ?_, htrailing, rfl⟩⟩
    rw [withDisplacement, hpayload]
    rfl

/-- The bytes of a well-formed record are a record that is equal to it when it is read, followed by
its bodies. -/
theorem exists_recordAt {outs : List Bytes} {chunk : Bytes} (hd : d.strict = false)
    (htable : d.table.Regular) (h : r.WellFormed d.table outermost)
    (hcount : outs.length = r.operands.bodyNames.length)
    (hchunk : (r.withDisplacement displacement).serialize outs = .ok chunk) (offset : Nat) :
  ∃ record frame, chunk = record ++ outs.flatten ∧ d.RecordAt offset record frame
    ∧ (outermost → record.head? ≠ some 0) ∧ frame.sizes = outs.map List.length
    ∧ frame.record.Recovers r displacement
  := by
  obtain ⟨code, hcode, hzero⟩ := h.exists_code htable
  have hlong' : (r.withDisplacement displacement).isLong = .ok (decide (firstLongCode ≤ code)) :=
    isLong_of_code hcode
  have hnonzero : ∀ b : UInt8, code = b.toNat → outermost → b ≠ 0 := by
    rintro b hb houtermost rfl
    exact hzero houtermost hb
  obtain ⟨-, ⟨hlong, b, hb, rfl⟩ | ⟨hlong, hserialize⟩⟩ := serialize_eq_ok_iff.mp hchunk
  · have hshort : code < firstLongCode := by
      rw [hlong', Except.ok.injEq, decide_eq_false_iff_not] at hlong
      exact not_le.mp hlong
    replace hb : r.code.codeByte = .ok b := hb
    rw [hcode, Value.codeByte_int_eq_ok_iff] at hb
    obtain ⟨hnames, hbytes⟩ := h.operandBytes_of_short htable hcode hshort
    obtain rfl : outs = [] := by
      rw [hnames] at hcount
      exact List.length_eq_zero_iff.mp hcount
    obtain ⟨frame, hframe, hsizes, hrecovers⟩ := h.exists_record hd hcode hcount hbytes offset
    rw [hb] at hshort hframe
    refine ⟨[b], frame, rfl, .short hshort hframe, ?_, hsizes, hrecovers⟩
    simpa using hnonzero b hb
  · have hlong : firstLongCode ≤ code := by
      rw [hlong', Except.ok.injEq, decide_eq_true_iff] at hlong
      exact hlong
    obtain ⟨operands, b, hbytes, hlen, hb, rfl⟩ := serializeLong_eq_ok_iff.mp hserialize
    replace hb : r.code.codeByte = .ok b := hb
    rw [hcode, Value.codeByte_int_eq_ok_iff] at hb
    have hns : (outs.map List.length).length = r.operands.bodyNames.length := by
      rw [List.length_map, hcount]
    obtain ⟨frame, hframe, hsizes, hrecovers⟩ := h.exists_record hd hcode hns hbytes offset
    rw [hb] at hlong hframe
    refine ⟨_, frame, ?_, .long hlong hlen hframe, ?_, hsizes, hrecovers⟩
    · simp
    · simpa using hnonzero b hb

end Record.WellFormed

/-! ### Blocks -/

/-- An action as it is read back at an index of a block whose records start at the given offsets.
It is equal to the one that was written, or it is a branch and is equal to it once it has the
target that its displacement leads to. -/
def Action.Recovers (starts : Array Nat) (index : Nat) (new old : Action) : Prop :=
  (new.record.operands.displacement? = none ∧ new.same old = .ok true)
    ∨ ∃ t < starts.size, new.record.operands.displacement? = some (distance starts index t)
      ∧ (new.withTarget t).same old = .ok true

/-- Actions as they are read back from chunks that are laid end to end, from an index and an offset
on, with the actions that were written as these chunks. -/
inductive Recovered (starts : Array Nat) :
    Nat → Nat → List Placed → List Action → List Bytes → Prop where
  | nil {index offset : Nat} : Recovered starts index offset [] [] []
  | cons {index offset : Nat} {new old : Action} {placed : List Placed} {actions : List Action}
      {chunk : Bytes} {chunks : List Bytes} (hnew : new.Recovers starts index old)
      (hrest : Recovered starts (index + 1) (offset + chunk.length) placed actions chunks) :
      Recovered starts index offset (⟨offset, new⟩ :: placed) (old :: actions) (chunk :: chunks)

/-- An action whose record and bodies are read back is read back. -/
theorem Record.Recovers.action {starts : Array Nat} {index : Nat} {new old : Record} {x : Int}
    {as bs : List (List Action)} {identity : Option Nat} (h : new.Recovers old x)
    (htarget : ∀ target displacement', old.operands = .branch target displacement' →
      displacement starts index old target = .ok x)
    (hcount : as.length = new.operands.bodyNames.length)
    (hbodies : List.Forall₂ (fun a b => sameBlock a b = .ok true) as bs) :
  (Action.mk none new as).Recovers starts index (.mk identity old bs)
  := by
  obtain ⟨hnone, hmatches⟩ | ⟨target, old', hbranch, hx, hmatches⟩ := h
  · exact .inl ⟨hnone, Action.same_of_matches hmatches hcount hbodies⟩
  · obtain ⟨t, ht, hsize, rfl, -⟩ := displacement_eq_ok_iff.mp (htarget target old' hbranch)
    refine .inr ⟨t, hsize, hx, ?_⟩
    apply Action.same_of_matches (hmatches _ (Value.same_of_whole ht)) _ hbodies
    rw [hcount, withTarget, Operands.bodyNames_withTarget]

/-- A branch lands on its target. -/
theorem Action.Recovers.exists_land {all : List Bytes} {start index : Nat} {starts' : List Int}
    {new old : Action} (h : new.Recovers (starts all) index old) (hindex : index < all.length)
    (hstarts : ∀ t ≤ all.length,
      starts'.idxOf? ((start + (all.take t).flatten.length : Nat) : Int) = some t)
    (offset : Nat) :
  ∃ a, land starts' ⟨offset, new⟩ (start + (all.take (index + 1)).flatten.length : Nat) = .ok a
    ∧ a.same old = .ok true
  := by
  obtain ⟨hnone, hsame⟩ | ⟨t, ht, hdisplacement, hsame⟩ := h
  · exact ⟨new, land_eq_ok_iff.mpr (.inl ⟨hnone, rfl⟩), hsame⟩
  · rw [size_starts] at ht
    have hle : t ≤ all.length := Nat.le_of_lt_succ ht
    refine ⟨new.withTarget t, land_eq_ok_iff.mpr (.inr ⟨_, t, hdisplacement, ?_, rfl⟩), hsame⟩
    rw [← hstarts t hle, distance, starts_getD hle, starts_getD (Nat.succ_le_of_lt hindex)]
    congr 1
    push_cast
    ring

namespace Recovered

variable {offset : Nat} {placed : List Placed} {actions : List Action} {chunks : List Bytes}

/-- Recovered actions are laid out in their chunks. -/
theorem laid {starts : Array Nat} {index : Nat}
    (h : Recovered starts index offset placed actions chunks) :
  Laid offset placed chunks
  := by
  induction h with
  | nil => exact .nil
  | cons _ _ ih => exact .cons ih

/-- Every recovered branch lands where the written one did. -/
theorem exists_land {start : Nat} {starts' : List Int} {all before : List Bytes}
    (h : Recovered (starts all) before.length (start + before.flatten.length) placed actions
      chunks)
    (hall : before ++ chunks = all)
    (hstarts : ∀ t ≤ all.length,
      starts'.idxOf? ((start + (all.take t).flatten.length : Nat) : Int) = some t) :
  ∃ resolved, List.Forall₂ (fun q a => Function.uncurry (land starts') q = .ok a)
      (placed.zip ((landings placed (start + all.flatten.length : Nat)).drop 1)) resolved
    ∧ List.Forall₂ (fun a b => a.same b = .ok true) resolved actions
  := by
  generalize hoffset : start + before.flatten.length = offset at h
  generalize hindex : before.length = index at h
  induction h generalizing before with
  | nil => exact ⟨[], .nil, .nil⟩
  | @cons index offset new old placed actions chunk chunks hnew hrest ih =>
    have hnext : start + (before ++ [chunk]).flatten.length = offset + chunk.length := by
      simp [← hoffset, add_assoc]
    have hlt : index < all.length := by
      rw [← hall, ← hindex]
      simp
    obtain ⟨a, ha, hsame⟩ := hnew.exists_land hlt hstarts offset
    obtain ⟨resolved, hresolved, hall'⟩ := ih (by simpa using hall) hnext (by simp [hindex])
    refine ⟨a :: resolved, ?_, .cons hsame hall'⟩
    rw [hrest.laid.zip_cons hoffset hall, hindex]
    exact .cons ha hresolved

/-- The branches of a block that is read back resolve to their targets. -/
theorem exists_resolve (h : Recovered (starts chunks) 0 offset placed actions chunks)
    (hpairwise : (landings placed (offset + chunks.flatten.length : Nat)).Pairwise (· < ·)) :
  ∃ resolved, resolve placed (offset + chunks.flatten.length : Nat) = .ok resolved
    ∧ sameBlock resolved actions = .ok true
  := by
  have hstarts : ∀ t ≤ chunks.length,
      (landings placed (offset + chunks.flatten.length : Nat)).idxOf?
        ((offset + (chunks.take t).flatten.length : Nat) : Int) = some t := by
    intro t ht
    apply idxOf?_of_pairwise hpairwise
    exact h.laid.getElem?_landings.mpr ⟨ht, rfl⟩
  have hstart : Recovered (starts chunks) ([] : List Bytes).length
      (offset + ([] : List Bytes).flatten.length) placed actions chunks := h
  obtain ⟨resolved, hresolved, hsame⟩ := hstart.exists_land rfl hstarts
  refine ⟨resolved, ?_, sameBlock_eq_ok_true_iff.mpr hsame⟩
  rw [resolve_eq_mapM, mapM_eq_ok_iff]
  exact hresolved

end Recovered

namespace Decoder

variable {d : Decoder}

mutual

/-- The chunks of a well-formed block are read as actions that recover those of the block. -/
theorem exists_blockAt (hd : d.strict = false) (htable : d.table.Regular) {starts : Array Nat}
    {outermost : Bool} :
  ∀ {index : Nat} (offset : Nat) {block : List Action} {items : List Item} {chunks : List Bytes},
    BlockWellFormed d.table outermost block → List.Forall₂ Action.Itemized block items →
    Linked starts index items chunks →
    ∃ placed, d.BlockAt outermost offset chunks.flatten placed
      ∧ Recovered starts index offset placed block chunks
  | _, _, _, _, _, .nil, .nil, .nil => ⟨[], .nil, .nil⟩
  | index, offset, _, _, _,
      @BlockWellFormed.cons _ _ identity record bodies actions hrecord hcount hbodies hrest,
      @List.Forall₂.cons _ _ _ _ item _ items hitem hitems,
      @Linked.cons _ _ _ _ chunk chunks hwritten hlinked => by
    obtain ⟨hitemRecord, hitemBodies⟩ := hitem
    obtain ⟨x, hchunk, htarget⟩ := hwritten
    rw [Item.serialize, hitemRecord] at hchunk
    rw [hitemRecord] at htarget
    have hitemCount : item.bodies.length = record.operands.bodyNames.length := by
      rw [← hitemBodies.length_eq]
      exact hcount
    obtain ⟨header, frame, rfl, hheader, hcode, hsizes, hrecovers⟩ :=
      hrecord.exists_recordAt hd htable hitemCount hchunk offset
    obtain ⟨new, hnew, hsame⟩ :=
      exists_bodiesAt hd htable (offset + header.length) hbodies hitemBodies
    obtain ⟨placed, hplaced, hrecovered⟩ := exists_blockAt hd htable
      (offset + (header ++ item.bodies.flatten).length) hrest hitems hlinked
    have hnewCount : new.length = frame.record.operands.bodyNames.length := by
      rw [hheader.length_bodyNames, hsizes, List.length_map, hsame.length_eq]
      exact hitemBodies.length_eq
    refine ⟨⟨offset, .mk none frame.record new⟩ :: placed, ?_,
      .cons (hrecovers.action htarget hnewCount hsame) hrecovered⟩
    rw [← hsizes] at hnew
    rw [List.length_append, ← add_assoc] at hplaced
    exact .cons hheader hcode hnew hplaced

/-- The bytes of well-formed bodies are read as bodies that are equal to them. -/
theorem exists_bodiesAt (hd : d.strict = false) (htable : d.table.Regular) :
  ∀ (offset : Nat) {bodies : List (List Action)} {outs : List Bytes},
    BodiesWellFormed d.table bodies →
    List.Forall₂ (fun body out => encodeBlock body = .ok out) bodies outs →
    ∃ new, d.BodiesAt offset (outs.map List.length) outs.flatten new
      ∧ List.Forall₂ (fun a b => sameBlock a b = .ok true) new bodies
  | _, _, _, .nil, .nil => ⟨[], .nil, .nil⟩
  | offset, _, _, @BodiesWellFormed.cons _ body bodies hbody hrest,
      @List.Forall₂.cons _ _ _ _ out _ outs hout houts => by
    obtain ⟨items, chunks, hitems, hlinked, rfl⟩ := encodeBlock_eq_ok_iff_linked.mp hout
    obtain ⟨placed, hplaced, hrecovered⟩ := exists_blockAt hd htable offset hbody hitems hlinked
    obtain ⟨actions, hactions, hsame⟩ := hrecovered.exists_resolve hplaced.pairwise_landings.1
    obtain ⟨new, hnew, hall⟩ := exists_bodiesAt hd htable _ hrest houts
    exact ⟨actions :: new, .cons rfl hplaced hactions hnew, .cons hsame hall⟩

end

end Decoder

/-! ### The theorem -/

/-- A well-formed block is read back from what is written for it, by a decoder that takes codes
without an entry. -/
theorem Decoder.exists_read_of_encode {d : Decoder} (hd : d.strict = false)
    (htable : d.table.Regular) {block : List Action} {bytes : Bytes}
    (hblock : BlockWellFormed d.table true block) (h : encode block = .ok bytes) :
  ∃ actions, (d.read (.ofBytes bytes)).result = .ok (actions, 8 * bytes.length)
    ∧ sameBlock actions block = .ok true
  := by
  obtain ⟨_, hbody, rfl⟩ := encode_eq_ok_iff.mp h
  obtain ⟨items, chunks, hitems, hlinked, rfl⟩ := encodeBlock_eq_ok_iff_linked.mp hbody
  obtain ⟨placed, hplaced, hrecovered⟩ := exists_blockAt hd htable 0 hblock hitems hlinked
  obtain ⟨actions, hactions, hsame⟩ := hrecovered.exists_resolve hplaced.pairwise_landings.1
  rw [zero_add] at hactions
  refine ⟨actions, read_ofBytes_eq_ok_iff.mpr ?_, hsame⟩
  exact ⟨chunks.flatten, [], placed, rfl, hplaced, hactions, by simp⟩

/-- The shared table is regular. -/
theorem OpcodeTable.regular_shared :
  OpcodeTable.shared.Regular
  where
  zero := by decide +kernel
  short := by decide +kernel

/-- Reading undoes writing: a well-formed block of actions of the standard table is read back from
the bytes that it is written as, up to the last of them, as a block that is equal to it. -/
theorem read_encode {block : List Action} {bytes : Bytes}
    (hblock : BlockWellFormed OpcodeTable.shared true block) (h : encode block = .ok bytes) :
  ∃ actions, (Decoder.read ⟨OpcodeTable.shared, false⟩ (.ofBytes bytes)).result
      = .ok (actions, 8 * bytes.length)
    ∧ sameBlock actions block = .ok true
  := Decoder.exists_read_of_encode rfl OpcodeTable.regular_shared hblock h

/-- An action whose body pushes a truth value, given as a number, and jumps back to its start. -/
def loopingBody : List Action :=
  [.mk none .withObject
    [[.mk none (.push [.pushed (.int 1) .boolean]) [], .mk none (.jump 0) []]]]

theorem read_encode_loopingBody :
  encode loopingBody = .ok [0x94, 0x02, 0x00, 0x0A, 0x00, 0x96, 0x02, 0x00, 0x05, 0x01, 0x99, 0x02,
      0x00, 0xF6, 0xFF, 0x00]
    ∧ BlockWellFormed OpcodeTable.shared true loopingBody
    ∧ ∃ actions, (Decoder.read ⟨OpcodeTable.shared, false⟩ (.ofBytes [0x94, 0x02, 0x00, 0x0A, 0x00,
        0x96, 0x02, 0x00, 0x05, 0x01, 0x99, 0x02, 0x00, 0xF6, 0xFF, 0x00])).result
        = .ok (actions, 8 * 16)
      ∧ sameBlock actions loopingBody = .ok true
  := by
  have hencode : encode loopingBody = .ok [0x94, 0x02, 0x00, 0x0A, 0x00, 0x96, 0x02, 0x00, 0x05,
      0x01, 0x99, 0x02, 0x00, 0xF6, 0xFF, 0x00] := by
    decide +kernel
  have hjump : (Record.jump 0).WellFormed OpcodeTable.shared false :=
    Record.wellFormed_standard rfl .branch
  have hpush : (Record.push [.pushed (.int 1) .boolean]).WellFormed OpcodeTable.shared false :=
    Record.wellFormed_standard rfl (.push (by simpa using .mk .boolean))
  have hwith : Record.withObject.WellFormed OpcodeTable.shared true :=
    Record.wellFormed_standard rfl .withObject
  have hblock : BlockWellFormed OpcodeTable.shared true loopingBody :=
    .cons hwith rfl (.cons (.cons hpush rfl .nil (.cons hjump rfl .nil .nil)) .nil) .nil
  exact ⟨hencode, hblock, read_encode hblock hencode⟩

end ActionBlock
