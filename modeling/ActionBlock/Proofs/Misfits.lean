import ActionBlock.Proofs.Chunks
import ActionBlock.Proofs.Kinds

/-!
# Where writing fails

Writing a block fails in a body of one of its actions, at the first record that does not fit, or at
the first branch that cannot be linked. The error of a body passes through the blocks around it,
each of which puts the index of its own action in front. So if the operands of all actions are of
their kinds, an error either names a branch without a target, or leads to an action that does not
fit: its bodies can be written, but its record cannot, or it is a branch too far from its target.
-/

namespace ActionBlock

/-! ### Actions that do not fit -/

/-- The bytes of an action whose branch, if it is one, has no displacement yet. The displacement
does not change their number. -/
def Action.Drafted (a : Action) (chunk : Bytes) : Prop :=
  ∃ item, a.Itemized item ∧ item.serialize 0 = .ok chunk

/-- What does not fit about an action with an index in a block. All of its bodies can be written. -/
inductive Action.Misfits (block : List Action) (index : Nat) (a : Action) : Misfit → Prop where
  /-- Its record cannot be written. -/
  | record {item : Item} {fault : Fault} (hitem : a.Itemized item)
      (hfault : item.serialize 0 = .error fault) :
      Misfits block index a (.operand fault)
  /-- It is a branch with a target in the block, or at its end, that is too far away. -/
  | distance {item : Item} {chunks : List Bytes} {target old : Value} {t : Nat} {d : Int}
      (hitem : a.Itemized item) (hbranch : a.record.operands = .branch target old)
      (htarget : target.whole? = some (t : Int)) (ht : t ≤ block.length)
      (hchunks : List.Forall₂ Action.Drafted block chunks)
      (hdistance : d = chunkStart chunks t - chunkStart chunks (index + 1))
      (hrange : ¬ (-0x8000 ≤ d ∧ d ≤ 0x7FFF)) :
      Misfits block index a (.distance d)

/-- The action that indices lead to from a block, through some body of each action on the way, and
the block that it is in. -/
inductive Reaches : List Action → List Nat → List Action → Action → Prop where
  | here {block : List Action} {index : Nat} {a : Action} (ha : block[index]? = some a) :
      Reaches block [index] block a
  | inside {block body inner : List Action} {index : Nat} {path : List Nat} {container a : Action}
      (hcontainer : block[index]? = some container) (hbody : body ∈ container.bodies)
      (h : Reaches body path inner a) :
      Reaches block (index :: path) inner a

/-- Whether an error is about what the actions of a block are, and leads to the action that it is
about: the action has the code of the error, the actions before it take up as many bytes as the
offset says, and it does not fit as the error says. -/
def EncodeError.Accounts (block : List Action) : EncodeError → Prop
  | overflow misfit name code offset index enclosing =>
    (overflow misfit name code offset index enclosing).path.getLast? = some index
      ∧ ∃ inner a chunks,
        Reaches block (overflow misfit name code offset index enclosing).path inner a
        ∧ a.record.code.whole? = some code
        ∧ List.Forall₂ Action.Drafted (inner.take index) chunks
        ∧ offset = (chunks.map List.length).sum
        ∧ a.Misfits inner index misfit
  | noTarget .. => True
  | misuse .. => False

/-- The blocks around a body account for an error by the index of the action that it belongs to. -/
theorem EncodeError.Accounts.within {block body : List Action} {container : Action} {i : Nat}
    {e : EncodeError} (hcontainer : block[i]? = some container) (hbody : body ∈ container.bodies)
    (h : e.Accounts body) :
  (e.within i).Accounts block
  := by
  cases e with
  | overflow misfit name code offset index enclosing =>
    obtain ⟨-, inner, a, chunks, hreaches, hcode, hchunks, hoffset, hmisfit⟩ := h
    constructor
    · simp only [path, List.getLast?_append, List.getLast?_singleton, Option.some_or]
    · exact ⟨inner, a, chunks, .inside hcontainer hbody hreaches, hcode, hchunks, hoffset, hmisfit⟩
  | noTarget => trivial
  | misuse => cases h

/-! ### One block -/

/-- The first record that cannot be written is reported. -/
theorem provisionalFrom_eq_error {items : List Item} {index offset : Nat} {done : List Bytes}
    {e : EncodeError} (h : provisionalFrom items index offset done = .error e) :
  ∃ i item chunks fault, items[i]? = some item
    ∧ List.Forall₂ (fun item chunk => item.serialize 0 = .ok chunk) (items.take i) chunks
    ∧ item.serialize 0 = .error fault
    ∧ e = item.error (index + i) (offset + (chunks.map List.length).sum) fault
  := by
  induction items generalizing index offset done with
  | nil => cases h
  | cons item items ih =>
    rw [provisionalFrom] at h
    cases hitem : item.serialize 0 with
    | error fault =>
      rw [hitem] at h
      cases h
      exact ⟨0, item, [], fault, rfl, .nil, hitem, rfl⟩
    | ok chunk =>
      rw [hitem] at h
      obtain ⟨i, item', chunks, fault, hget, hchunks, hfault, rfl⟩ := ih h
      refine ⟨i + 1, item', chunk :: chunks, fault, hget, .cons hitem hchunks, hfault, ?_⟩
      rw [List.map_cons, List.sum_cons]
      congr 1 <;> omega

/-- A branch that has its displacement can be written if it could be written without. -/
theorem Item.exists_serialize_of_displacement {starts : Array Nat} {index : Nat} {item : Item}
    {record : Record} {target : Value} {chunk : Bytes} {d : Int}
    (hchunk : item.serialize 0 = .ok chunk)
    (hd : displacement starts index record target = .ok d) :
  ∃ out, item.serialize d = .ok out
  := by
  obtain ⟨_, -, -, -, hlow, hhigh⟩ := displacement_eq_ok_iff.mp hd
  have hbits : Scalar.fitInt 16 true d = .ok _ := Scalar.fitInt_eq_ok_iff.mpr ⟨hlow, hhigh, rfl⟩
  obtain ⟨out, hout, -⟩ := Record.exists_serialize_withDisplacement hchunk hbits
  rw [Record.withDisplacement_withDisplacement] at hout
  exact ⟨out, hout⟩

/-- The first branch that cannot be linked is reported. -/
theorem linkFrom_eq_error {starts : Array Nat} {items : List Item} {chunks : List Bytes}
    {index : Nat} {done : List Bytes} {e : EncodeError}
    (hchunks : List.Forall₂ (fun item chunk => item.serialize 0 = .ok chunk) items chunks)
    (h : linkFrom starts items chunks index done = .error e) :
  ∃ i item target old, items[i]? = some item ∧ item.record.operands = .branch target old
    ∧ displacement starts (index + i) item.record target = .error e
  := by
  induction hchunks generalizing index done with
  | nil => cases h
  | @cons item chunk items chunks hitem _ ih =>
    rw [linkFrom] at h
    split at h
    · rename_i target old hbranch
      cases hd : displacement starts index item.record target with
      | error e' =>
        rw [hd] at h
        cases h
        exact ⟨0, item, target, old, rfl, hbranch, hd⟩
      | ok d =>
        obtain ⟨out, hout⟩ := Item.exists_serialize_of_displacement hitem hd
        rw [hd] at h
        simp only [hout] at h
        obtain ⟨i, item', target', old', hget, hbranch', herror⟩ := ih h
        rw [Nat.add_right_comm, Nat.add_assoc] at herror
        exact ⟨i + 1, item', target', old', hget, hbranch', herror⟩
    · obtain ⟨i, item', target', old', hget, hbranch', herror⟩ := ih h
      rw [Nat.add_right_comm, Nat.add_assoc] at herror
      exact ⟨i + 1, item', target', old', hget, hbranch', herror⟩

/-- A branch whose target is an integer, or nothing, has no target in its block, or one that is too
far away. -/
theorem displacement_eq_error {starts : Array Nat} {index : Nat} {record : Record} {target : Value}
    {e : EncodeError} (hkind : target.isIntegerOrNone = true)
    (h : displacement starts index record target = .error e) :
  (∃ name code offset s, e = .noTarget name code offset index s)
    ∨ ∃ t : Nat, target.whole? = some (t : Int) ∧ t < starts.size
      ∧ ¬ (displacementRange.1 ≤ distance starts index t
        ∧ distance starts index t ≤ displacementRange.2)
      ∧ e = .overflow (.distance (distance starts index t)) record.nameText record.codeNumber
        (starts.getD index 0) index []
  := by
  by_cases hnone : target = .none
  · subst hnone
    left
    exact ⟨_, _, _, _, (Except.error.inj h).symm⟩
  have hinteger : target.isInteger = true := by
    rw [Value.isIntegerOrNone, Bool.or_eq_true] at hkind
    apply hkind.resolve_left
    intro hisNone
    apply hnone
    obtain ⟨_ | _ | _ | _ | _ | _⟩ | _ := target
    case scalar.none => rfl
    all_goals cases hisNone
  obtain ⟨n, hn⟩ := Value.isInteger_iff.mp hinteger
  cases target with
  | scalar s =>
    have hs : s ≠ .none := fun hs => hnone (congrArg Value.scalar hs)
    have hwhole : s.whole? = some n := hn
    simp only [displacement, if_neg hs, Scalar.compareInt_of_whole hwhole, hwhole, Option.all_some,
      Bool.or_eq_true, decide_eq_true_eq, compare_lt_iff_lt, compare_gt_iff_gt] at h
    split at h
    · left
      exact ⟨_, _, _, _, (Except.error.inj h).symm⟩
    · rename_i hbetween
      split at h
      · cases h
      · rename_i hrange
        right
        obtain ⟨t, rfl⟩ := Int.eq_ofNat_of_zero_le (a := n) (by omega)
        exact ⟨t, hn, by omega, hrange, (Except.error.inj h).symm⟩
  | _ => cases hn

/-! ### Blocks with their bodies -/

/-- A block fails exactly when its items do or their assembly does. -/
theorem encodeBlock_eq_error_iff {block : List Action} {e : EncodeError} :
  encodeBlock block = .error e
    ↔ encodeItems block 0 [] = .error e
      ∨ ∃ items, encodeItems block 0 [] = .ok items ∧ assemble items = .error e
  := bind_eq_error_iff

/-- Bodies fail with the error of one of them. -/
theorem encodeBodies_eq_error {bodies : List (List Action)} {done : List Bytes} {e : EncodeError}
    (h : encodeBodies bodies done = .error e) :
  ∃ body ∈ bodies, encodeBlock body = .error e
  := by
  induction bodies generalizing done with
  | nil =>
    rw [encodeBodies] at h
    cases h
  | cons body bodies ih =>
    rw [encodeBodies] at h
    cases hitems : encodeItems body 0 [] with
    | error e' =>
      rw [hitems] at h
      cases h
      exact ⟨body, List.mem_cons_self, encodeBlock_eq_error_iff.mpr (.inl hitems)⟩
    | ok items =>
      rw [hitems] at h
      cases hbytes : assemble items with
      | error e' =>
        simp only [hbytes] at h
        cases h
        exact ⟨body, List.mem_cons_self,
          encodeBlock_eq_error_iff.mpr (.inr ⟨items, hitems, hbytes⟩)⟩
      | ok bytes =>
        simp only [hbytes] at h
        obtain ⟨body', hmem, herror⟩ := ih h
        exact ⟨body', List.mem_cons_of_mem _ hmem, herror⟩

/-- Bodies are written before anything else, and the first that cannot be written is reported as in
the action that it belongs to. -/
theorem encodeItems_eq_error {actions : List Action} {index : Nat} {done : List Item}
    {e : EncodeError} (h : encodeItems actions index done = .error e) :
  ∃ i a body e', actions[i]? = some a ∧ body ∈ a.bodies ∧ encodeBlock body = .error e'
    ∧ e = e'.within (index + i)
  := by
  induction actions generalizing index done with
  | nil =>
    rw [encodeItems] at h
    cases h
  | cons a actions ih =>
    obtain ⟨identity, record, bodies⟩ := a
    rw [encodeItems] at h
    cases hbodies : encodeBodies bodies [] with
    | error e' =>
      rw [hbodies] at h
      cases h
      obtain ⟨body, hbody, herror⟩ := encodeBodies_eq_error hbodies
      exact ⟨0, _, body, e', rfl, hbody, herror, rfl⟩
    | ok bytes =>
      rw [hbodies] at h
      obtain ⟨i, a, body, e', ha, hbody, herror, rfl⟩ := ih h
      rw [Nat.add_right_comm, Nat.add_assoc]
      exact ⟨i + 1, a, body, e', ha, hbody, herror, rfl⟩

/-- What is drafted for items is drafted for the actions. -/
theorem forall₂_drafted {block : List Action} {items : List Item} {chunks : List Bytes}
    (hitems : List.Forall₂ Action.Itemized block items)
    (hchunks : List.Forall₂ (fun item chunk => item.serialize 0 = .ok chunk) items chunks) :
  List.Forall₂ Action.Drafted block chunks
  := by
  induction hitems generalizing chunks with
  | nil =>
    cases hchunks
    exact .nil
  | cons hitem _ ih =>
    obtain _ | ⟨hchunk, hchunks⟩ := hchunks
    exact .cons ⟨_, hitem, hchunk⟩ (ih hchunks)

/-- The action of an item. -/
theorem exists_itemized {block : List Action} {items : List Item} {i : Nat} {item : Item}
    (hitems : List.Forall₂ Action.Itemized block items) (hitem : items[i]? = some item) :
  ∃ a, block[i]? = some a ∧ a.Itemized item
  := by
  obtain ⟨hi, rfl⟩ := List.getElem?_eq_some_iff.mp hitem
  have hlt : i < block.length := hitems.length_eq ▸ hi
  use block[i], List.getElem?_eq_getElem hlt
  exact (List.forall₂_iff_get.mp hitems).2 i hlt hi

/-- A record that does not fit accounts for its error. -/
theorem accounts_of_provisional {block : List Action} {items : List Item} {e : EncodeError}
    (hkinded : ∀ a ∈ block, a.record.kinded = true)
    (hitems : List.Forall₂ Action.Itemized block items) (h : provisional items = .error e) :
  e.Accounts block
  := by
  obtain ⟨i, item, chunks, fault, hget, hchunks, hfault, rfl⟩ := provisionalFrom_eq_error h
  obtain ⟨a, ha, hitem⟩ := exists_itemized hitems hget
  have hrecord : item.record.kinded = true := by
    rw [hitem.1]
    exact hkinded a (List.mem_of_getElem? ha)
  have hproper : fault.isMisuse = false := Record.proper_serialize hrecord 0 _ fault hfault
  simp only [Nat.zero_add, Item.error, hproper, Bool.false_eq_true, if_false]
  constructor
  · rfl
  · use block, a, chunks, .here ha
    refine ⟨?_, forall₂_drafted (List.forall₂_take i hitems) hchunks, rfl, .record hitem hfault⟩
    rw [← hitem.1]
    exact Record.exists_code_of_kinded hrecord

/-- A branch that cannot be linked accounts for its error. -/
theorem accounts_of_link {block : List Action} {items : List Item} {chunks : List Bytes}
    {e : EncodeError} (hkinded : ∀ a ∈ block, a.record.kinded = true)
    (hitems : List.Forall₂ Action.Itemized block items)
    (hchunks : List.Forall₂ (fun item chunk => item.serialize 0 = .ok chunk) items chunks)
    (h : link items chunks = .error e) :
  e.Accounts block
  := by
  obtain ⟨i, item, target, old, hget, hbranch, herror⟩ := linkFrom_eq_error hchunks h
  obtain ⟨a, ha, hitem⟩ := exists_itemized hitems hget
  have hi : i < chunks.length := by
    rw [← hchunks.length_eq]
    exact (List.getElem?_eq_some_iff.mp hget).1
  have hrecord : item.record.kinded = true := by
    rw [hitem.1]
    exact hkinded a (List.mem_of_getElem? ha)
  have htarget : target.isIntegerOrNone = true := by
    simp only [Record.kinded, hbranch, Bool.and_eq_true] at hrecord
    exact hrecord.1.2
  rw [Nat.zero_add] at herror
  obtain ⟨_, _, _, _, rfl⟩ | ⟨t, ht, hsize, hrange, rfl⟩ := displacement_eq_error htarget herror
  · trivial
  rw [size_starts] at hsize
  constructor
  · rfl
  · use block, a, chunks.take i, .here ha
    refine ⟨?_, ?_, ?_, ?_⟩
    · rw [← hitem.1]
      exact Record.exists_code_of_kinded hrecord
    · exact forall₂_drafted (List.forall₂_take i hitems) (List.forall₂_take i hchunks)
    · exact starts_getD_eq_chunkStart hi.le
    · have hdistance : distance (starts chunks) i t
          = chunkStart chunks t - chunkStart chunks (i + 1) := by
        rw [distance, starts_getD_eq_chunkStart (Nat.le_of_lt_succ hsize),
          starts_getD_eq_chunkStart hi]
      apply Action.Misfits.distance hitem (hitem.1 ▸ hbranch) ht _ (forall₂_drafted hitems hchunks)
        hdistance hrange
      rw [hitems.length_eq, hchunks.length_eq]
      exact Nat.le_of_lt_succ hsize

/-- Items fail to be put together at a record or at a branch. -/
theorem assemble_eq_error {items : List Item} {e : EncodeError} (h : assemble items = .error e) :
  provisional items = .error e
    ∨ ∃ chunks, List.Forall₂ (fun item chunk => item.serialize 0 = .ok chunk) items chunks
      ∧ link items chunks = .error e
  := by
  obtain hfirst | ⟨chunks, hfirst, hrest⟩ := bind_eq_error_iff.mp h
  · exact .inl hfirst
  obtain ⟨_, hchunks, rfl⟩ := provisionalFrom_eq_ok_iff.mp hfirst
  obtain hlink | ⟨_, _, hok⟩ := bind_eq_error_iff.mp hrest
  · exact .inr ⟨_, hchunks, hlink⟩
  · cases hok

/-- An error of a block in which all operands are of their kinds is accounted for. -/
theorem accounts_of_encodeBlock {block : List Action} (hkinded : blockKinded block = true)
    {e : EncodeError} (h : encodeBlock block = .error e) :
  e.Accounts block
  := by
  induction block using Action.block_induct generalizing e with
  | h block ih =>
    rw [blockKinded_eq_all, List.all_eq_true] at hkinded
    have hrecords : ∀ a ∈ block, a.record.kinded = true :=
      fun a ha => (Action.kinded_iff.mp (hkinded a ha)).1
    obtain hitems | ⟨items, hitems, hassemble⟩ := encodeBlock_eq_error_iff.mp h
    · obtain ⟨i, a, body, e', ha, hbody, herror, rfl⟩ := encodeItems_eq_error hitems
      have hmem := List.mem_of_getElem? ha
      rw [Nat.zero_add]
      apply EncodeError.Accounts.within ha hbody
      exact ih a hmem body hbody ((Action.kinded_iff.mp (hkinded a hmem)).2 body hbody) herror
    · obtain ⟨_, hitemized, rfl⟩ := encodeItems_eq_ok_iff.mp hitems
      obtain hfirst | ⟨chunks, hchunks, hlink⟩ := assemble_eq_error hassemble
      · exact accounts_of_provisional hrecords hitemized hfirst
      · exact accounts_of_link hrecords hitemized hchunks hlink

/-- A block in which all operands are of their kinds is written, or the error says that a branch has
no target, or it leads to an action that does not fit. -/
theorem encode_accounted {block : List Action} (hkinded : blockKinded block = true) :
  (∃ bytes, encode block = .ok bytes) ∨ ∃ e, encode block = .error e ∧ e.Accounts block
  := by
  cases h : encode block with
  | ok bytes => exact .inl ⟨bytes, rfl⟩
  | error e =>
    right
    use e, rfl
    exact accounts_of_encodeBlock hkinded (map_eq_error_iff.mp h)

/-- A block with a function whose body has, after another action, a frame number that does not
fit. -/
def farFrame : List Action :=
  let play : Action := .mk none .play []
  let jump : Action := .mk none
    (.standard (.make 0x81 "goto_frame" 0 0 .gotoFrame) (.gotoFrame (.int 70000))) []
  let function : Action := .mk none
    (.standard (.make 0x9B "define_function" 0 0 .defineFunction)
      (.defineFunction (.text "f") (.list []))) [[play, jump]]
  [play, play, function]

theorem encode_accounted_farFrame :
  blockKinded farFrame = true
    ∧ encode farFrame
      = .error (.overflow (.operand (.outOfRange 70000 16 false)) "goto_frame" 0x81 1 1 [2])
    ∧ ((∃ bytes, encode farFrame = .ok bytes)
      ∨ ∃ e, encode farFrame = .error e ∧ e.Accounts farFrame)
  := by
  have hkinded : blockKinded farFrame = true := by decide +kernel
  exact ⟨hkinded, by decide +kernel, encode_accounted hkinded⟩

end ActionBlock
