import ActionBlock.Proofs.Derived
import ActionBlock.Proofs.Shifting

/-!
# Blocks one after the other

A block is written without regard to where its bytes come to stand: a branch holds a distance, and
the distance from a branch to the action that it names lies within the block. So a block that is put
before another is written as before, and so is one that is put behind another, once its branches
name the indices that their actions have come to have there.
-/

namespace ActionBlock

/-! ### Raising targets -/

/-- Raises the target of a branch. -/
def Operands.raised (n : Nat) : Operands → Operands
  | branch target displacement => branch (target.add n) displacement
  | o => o

/-- Raises the target of a branch. -/
def Record.raised (n : Nat) (r : Record) : Record := { r with operands := r.operands.raised n }

/-- Raises the target of a branch. The bodies of other actions stay as they are. -/
def Action.raised (n : Nat) : Action → Action
  | mk identity record bodies => mk identity (record.raised n) bodies

/-- Raises the target of a branch. -/
def Item.raised (n : Nat) (item : Item) : Item := { item with record := item.record.raised n }

theorem Record.landing?_of_branch {r : Record} {target displacement : Value}
    (h : r.operands = .branch target displacement) :
  r.landing? = target.whole?
  := by
  rw [landing?, h, Operands.target?]
  obtain ⟨_ | _ | _ | _ | _ | _⟩ | _ := target <;> rfl

/-- A raised branch lands as many actions further. -/
theorem Record.landing?_raised (n : Nat) (r : Record) :
  (r.raised n).landing? = r.landing?.map (· + (n : Int))
  := by
  obtain ⟨kind, operands, code, name, trailing, offset, sizes, forms⟩ := r
  cases operands with
  | branch target displacement =>
    rw [landing?_of_branch rfl, landing?_of_branch rfl, Value.whole?_add]
  | _ => rfl

theorem Record.isBranch_raised (n : Nat) (r : Record) :
  (r.raised n).operands.isBranch = r.operands.isBranch
  := by
  obtain ⟨kind, operands, code, name, trailing, offset, sizes, forms⟩ := r
  cases operands <;> rfl

/-- The target of a branch is not written. -/
theorem Item.serialize_raised (n : Nat) (item : Item) (d : Int) :
  (item.raised n).serialize d = item.serialize d
  := by
  obtain ⟨⟨kind, operands, code, name, trailing, offset, sizes, forms⟩, bodies⟩ := item
  cases operands <;> rfl

/-- The items of a raised action are the raised items of the action. -/
theorem Action.itemized_raised {n : Nat} {a : Action} {item : Item} :
  (a.raised n).Itemized item ↔ ∃ item', a.Itemized item' ∧ item = item'.raised n
  := by
  obtain ⟨identity, record, bodies⟩ := a
  obtain ⟨record', chunks⟩ := item
  constructor
  · rintro ⟨rfl, hbodies⟩
    exact ⟨⟨record, chunks⟩, ⟨rfl, hbodies⟩, rfl⟩
  · rintro ⟨⟨_, _⟩, ⟨rfl, hbodies⟩, ⟨⟩⟩
    exact ⟨rfl, hbodies⟩

/-- The items of a raised block are the raised items of the block. -/
theorem forall₂_itemized_raised {n : Nat} {block : List Action} {items : List Item} :
  List.Forall₂ Action.Itemized (block.map (Action.raised n)) items
    ↔ ∃ items', List.Forall₂ Action.Itemized block items' ∧ items = items'.map (Item.raised n)
  := by
  induction block generalizing items with
  | nil => simp
  | cons a block ih =>
    simp only [List.map_cons, List.forall₂_cons_left_iff, Action.itemized_raised, ih]
    constructor
    · rintro ⟨_, _, ⟨item, hitem, rfl⟩, ⟨items, hitems, rfl⟩, rfl⟩
      exact ⟨item :: items, ⟨item, items, hitem, hitems, rfl⟩, rfl⟩
    · rintro ⟨_, ⟨item, items, hitem, hitems, rfl⟩, rfl⟩
      exact ⟨_, _, ⟨item, hitem, rfl⟩, ⟨items, hitems, rfl⟩, rfl⟩

/-! ### Distances -/

/-- Chunks put behind do not change a distance among the chunks in front. -/
theorem distance_append_left {chunks : List Bytes} {i t : Nat} (hi : i < chunks.length)
    (ht : t ≤ chunks.length) (chunks' : List Bytes) :
  distance (starts (chunks ++ chunks')) i t = distance (starts chunks) i t
  := by
  have hstart : ∀ j ≤ chunks.length,
      (starts (chunks ++ chunks')).getD j 0 = (starts chunks).getD j 0 := by
    intro j hj
    rw [starts_getD (by simp; omega), starts_getD hj, List.take_append_of_le_length hj]
  rw [distance, distance, hstart t ht, hstart (i + 1) hi]

/-- Chunks put in front do not change a distance among the chunks behind, once both ends are counted
from the front. -/
theorem distance_append_right {chunks' : List Bytes} {i t : Nat} (hi : i < chunks'.length)
    (ht : t ≤ chunks'.length) (chunks : List Bytes) :
  distance (starts (chunks ++ chunks')) (chunks.length + i) (chunks.length + t)
    = distance (starts chunks') i t
  := by
  have hstart : ∀ j ≤ chunks'.length, (starts (chunks ++ chunks')).getD (chunks.length + j) 0
      = chunks.flatten.length + (starts chunks').getD j 0 := by
    intro j hj
    rw [starts_getD (by simp; omega), starts_getD hj, List.take_length_add_append,
      List.flatten_append, List.length_append]
  rw [distance, distance, Nat.add_assoc, hstart t ht, hstart (i + 1) hi]
  omega

/-! ### Chunks -/

/-- What is written for a branch depends on the index that it names, and on the distance to it. -/
theorem Item.written_iff {starts : Array Nat} {index : Nat} {item : Item} {chunk : Bytes} :
  item.Written starts index chunk
    ↔ ∃ d, item.serialize d = .ok chunk
      ∧ (item.record.operands.isBranch = true → ∃ t : Nat, item.record.landing? = some (t : Int)
        ∧ t < starts.size ∧ d = distance starts index t
        ∧ displacementRange.1 ≤ d ∧ d ≤ displacementRange.2)
  := by
  apply exists_congr
  intro d
  apply and_congr_right
  intro _
  constructor
  · intro h hbranch
    obtain ⟨target, old, hoperands⟩ := Operands.exists_branch_of_isBranch hbranch
    rw [Record.landing?_of_branch hoperands]
    apply displacement_eq_ok_iff.mp (h target old hoperands)
  · intro h target old hoperands
    rw [Record.landing?_of_branch hoperands] at h
    apply displacement_eq_ok_iff.mpr
    apply h
    rw [hoperands]
    rfl

/-- A chunk stays the same where it is as far from the action that it names. -/
theorem Item.Written.relocate {starts starts' : Array Nat} {index index' : Nat} {item item' : Item}
    {chunk : Bytes} (h : item.Written starts index chunk)
    (hserialize : ∀ d, item'.serialize d = item.serialize d)
    (hbranch : item'.record.operands.isBranch = item.record.operands.isBranch)
    (hlanding : ∀ t : Nat, item.record.landing? = some (t : Int) → t < starts.size →
      ∃ t' : Nat, item'.record.landing? = some (t' : Int) ∧ t' < starts'.size
        ∧ distance starts' index' t' = distance starts index t) :
  item'.Written starts' index' chunk
  := by
  obtain ⟨d, hchunk, htarget⟩ := Item.written_iff.mp h
  refine Item.written_iff.mpr ⟨d, (hserialize d).trans hchunk, ?_⟩
  intro hitem
  obtain ⟨t, ht, hsize, hd, hrange⟩ := htarget (hbranch.symm.trans hitem)
  obtain ⟨t', ht', hsize', hdistance⟩ := hlanding t ht hsize
  exact ⟨t', ht', hsize', hd.trans hdistance.symm, hrange⟩

/-- A chunk is the same with other chunks behind those that its branch may name. -/
theorem Item.written_append_left {chunks : List Bytes} {i : Nat} {item : Item} {chunk : Bytes}
    (hi : i < chunks.length)
    (haimed : ∀ n, item.record.landing? = some n → 0 ≤ n ∧ n ≤ chunks.length)
    (chunks' : List Bytes) :
  item.Written (starts (chunks ++ chunks')) i chunk ↔ item.Written (starts chunks) i chunk
  := by
  constructor
  · intro h
    apply h.relocate (fun _ => rfl) rfl
    intro t ht _
    obtain ⟨-, hle⟩ := haimed t ht
    rw [size_starts]
    exact ⟨t, ht, by omega, (distance_append_left hi (by omega) chunks').symm⟩
  · intro h
    apply h.relocate (fun _ => rfl) rfl
    intro t ht hsize
    rw [size_starts] at hsize
    rw [size_starts, List.length_append]
    exact ⟨t, ht, by omega, distance_append_left hi (by omega) chunks'⟩

/-- A chunk is the same with other chunks before those that its branch may name, if the branch is
raised over them. -/
theorem Item.written_append_right {chunks' : List Bytes} {i : Nat} {item : Item} {chunk : Bytes}
    (hi : i < chunks'.length)
    (haimed : ∀ n, item.record.landing? = some n → 0 ≤ n ∧ n ≤ chunks'.length)
    (chunks : List Bytes) :
  (item.raised chunks.length).Written (starts (chunks ++ chunks')) (chunks.length + i) chunk
    ↔ item.Written (starts chunks') i chunk
  := by
  have hbranch : (item.raised chunks.length).record.operands.isBranch
      = item.record.operands.isBranch := item.record.isBranch_raised chunks.length
  have hlanding : (item.raised chunks.length).record.landing?
      = item.record.landing?.map (· + (chunks.length : Int)) :=
    item.record.landing?_raised chunks.length
  constructor
  · intro h
    apply h.relocate (fun d => (item.serialize_raised chunks.length d).symm) hbranch.symm
    intro t ht _
    rw [hlanding, Option.map_eq_some_iff] at ht
    obtain ⟨n, hn, ht⟩ := ht
    obtain ⟨hlow, hle⟩ := haimed n hn
    obtain ⟨m, rfl⟩ := Int.eq_ofNat_of_zero_le hlow
    obtain rfl : t = chunks.length + m := by omega
    rw [size_starts]
    exact ⟨m, hn, by omega, (distance_append_right hi (by omega) chunks).symm⟩
  · intro h
    apply h.relocate (item.serialize_raised chunks.length) hbranch
    intro t ht hsize
    rw [size_starts] at hsize
    rw [hlanding, ht, size_starts, List.length_append]
    exact ⟨chunks.length + t, by simp [add_comm], by omega,
      distance_append_right hi (by omega) chunks⟩

/-! ### Chunks one after the other -/

/-- A run of items is linked part by part, the second part counting on from the first. -/
theorem linked_append {starts : Array Nat} {index : Nat} {items items' : List Item}
    {chunks : List Bytes} :
  Linked starts index (items ++ items') chunks
    ↔ ∃ front back, Linked starts index items front
      ∧ Linked starts (index + items.length) items' back ∧ chunks = front ++ back
  := by
  induction items generalizing index chunks with
  | nil =>
    constructor
    · intro h
      exact ⟨[], chunks, .nil, h, rfl⟩
    · rintro ⟨_, back, ⟨⟩, hback, rfl⟩
      exact hback
  | cons item items ih =>
    rw [List.length_cons, Nat.add_comm items.length, ← Nat.add_assoc]
    constructor
    · rintro (_ | ⟨hitem, hitems⟩)
      obtain ⟨front, back, hfront, hback, rfl⟩ := ih.mp hitems
      exact ⟨_ :: front, back, .cons hitem hfront, hback, rfl⟩
    · rintro ⟨_, back, _ | ⟨hitem, hfront⟩, hback, rfl⟩
      exact .cons hitem (ih.mpr ⟨_, back, hfront, hback, rfl⟩)

/-- Records are linked alike where each of them is written alike. -/
theorem linked_map_iff {starts starts' : Array Nat} {index index' : Nat} {items : List Item}
    {chunks : List Bytes} {f : Item → Item}
    (h : ∀ (i : Nat) (item : Item) (chunk : Bytes), items[i]? = some item →
      ((f item).Written starts' (index' + i) chunk ↔ item.Written starts (index + i) chunk)) :
  Linked starts' index' (items.map f) chunks ↔ Linked starts index items chunks
  := by
  induction items generalizing index index' chunks with
  | nil =>
    constructor
    · rintro ⟨⟩
      exact .nil
    · rintro ⟨⟩
      exact .nil
  | cons item items ih =>
    have hitem (chunk : Bytes) := h 0 item chunk rfl
    have hitems (chunks : List Bytes) : Linked starts' (index' + 1) (items.map f) chunks
        ↔ Linked starts (index + 1) items chunks := by
      apply ih
      intro i item chunk hi
      rw [Nat.add_right_comm, Nat.add_right_comm index]
      exact h (i + 1) item chunk hi
    constructor
    · rintro (_ | ⟨hfirst, hrest⟩)
      exact .cons ((hitem _).mp hfirst) ((hitems _).mp hrest)
    · rintro (_ | ⟨hfirst, hrest⟩)
      exact .cons ((hitem _).mpr hfirst) ((hitems _).mpr hrest)

/-! ### Blocks -/

/-- Every branch of a block that names an index names one of an action of the block, or of its end.
-/
def Aimed (block : List Action) : Prop :=
  ∀ a ∈ block, ∀ n ∈ a.record.landing?, 0 ≤ n ∧ n ≤ block.length

instance (block : List Action) : Decidable (Aimed block) :=
  inferInstanceAs (Decidable (∀ a ∈ block, ∀ n ∈ a.record.landing?, 0 ≤ n ∧ n ≤ block.length))

/-- In an aimed block every branch lands on an action of the block or at its end. -/
theorem Aimed.landing {block : List Action} {items : List Item} (h : Aimed block)
    (hitems : List.Forall₂ Action.Itemized block items) {i : Nat} {item : Item}
    (hi : items[i]? = some item) {n : Int} (hn : item.record.landing? = some n) :
  0 ≤ n ∧ n ≤ block.length
  := by
  obtain ⟨hlt, rfl⟩ := List.getElem?_eq_some_iff.mp hi
  have hblock : i < block.length := hitems.length_eq ▸ hlt
  obtain ⟨hrecord, -⟩ := (List.forall₂_iff_get.mp hitems).2 i hblock hlt
  apply h block[i] (List.getElem_mem hblock) n
  have hsame : block[i].record = items[i].record := hrecord.symm
  rw [hsame, Option.mem_def, hn]

theorem forall₂_itemized_append {s t : List Action} {items : List Item} :
  List.Forall₂ Action.Itemized (s ++ t) items
    ↔ ∃ front back, List.Forall₂ Action.Itemized s front ∧ List.Forall₂ Action.Itemized t back
      ∧ items = front ++ back
  := by
  constructor
  · intro h
    refine ⟨_, _, (List.forall₂_take_append _ s t h.flip).flip,
      (List.forall₂_drop_append _ s t h.flip).flip, (List.take_append_drop s.length items).symm⟩
  · rintro ⟨front, back, hfront, hback, rfl⟩
    exact List.rel_append hfront hback

/-- The records of a block are linked the same with other chunks behind them. -/
theorem Aimed.linked_append_left {block : List Action} {items : List Item} {chunks : List Bytes}
    (h : Aimed block) (hitems : List.Forall₂ Action.Itemized block items)
    (hlength : chunks.length = items.length) (chunks' : List Bytes) :
  Linked (starts (chunks ++ chunks')) 0 items chunks ↔ Linked (starts chunks) 0 items chunks
  := by
  have hmap : Linked (starts (chunks ++ chunks')) 0 (items.map id) chunks
      ↔ Linked (starts chunks) 0 items chunks := by
    apply linked_map_iff
    intro i item chunk hi
    obtain ⟨hlt, -⟩ := List.getElem?_eq_some_iff.mp hi
    rw [Nat.zero_add, id]
    apply Item.written_append_left (by omega)
    intro n hn
    rw [hlength, ← hitems.length_eq]
    apply h.landing hitems hi hn
  rwa [List.map_id] at hmap

/-- The records of a block, with the branches raised, are linked the same with other chunks before
them. -/
theorem Aimed.linked_append_right {block : List Action} {items : List Item} {chunks' : List Bytes}
    (h : Aimed block) (hitems : List.Forall₂ Action.Itemized block items)
    (hlength : chunks'.length = items.length) (chunks : List Bytes) :
  Linked (starts (chunks ++ chunks')) chunks.length (items.map (Item.raised chunks.length)) chunks'
    ↔ Linked (starts chunks') 0 items chunks'
  := by
  apply linked_map_iff
  intro i item chunk hi
  obtain ⟨hlt, -⟩ := List.getElem?_eq_some_iff.mp hi
  rw [Nat.zero_add]
  apply Item.written_append_right (by omega)
  intro n hn
  rw [hlength, ← hitems.length_eq]
  apply h.landing hitems hi hn

/-- A block behind another, with its branches raised, is written as the two one after the other. -/
theorem encodeBlock_append_raised {s t : List Action} (hs : Aimed s) (ht : Aimed t)
    {bytes : Bytes} :
  encodeBlock (s ++ t.map (Action.raised s.length)) = .ok bytes
    ↔ ∃ front back, encodeBlock s = .ok front ∧ encodeBlock t = .ok back ∧ bytes = front ++ back
  := by
  simp only [encodeBlock_eq_ok_iff_linked, forall₂_itemized_append, forall₂_itemized_raised]
  constructor
  · rintro ⟨_, _, ⟨items, _, hitems, ⟨items', hitems', rfl⟩, rfl⟩, hlinked, rfl⟩
    obtain ⟨chunks, chunks', hlinked, hlinked', rfl⟩ := linked_append.mp hlinked
    have hlength : chunks.length = items.length := hlinked.written.1
    have hlength' : chunks'.length = items'.length := by
      rw [hlinked'.written.1, List.length_map]
    rw [Nat.zero_add, hitems.length_eq, ← hlength, ht.linked_append_right hitems' hlength']
      at hlinked'
    rw [hs.linked_append_left hitems hlength] at hlinked
    exact ⟨_, _, ⟨items, chunks, hitems, hlinked, rfl⟩, ⟨items', chunks', hitems', hlinked', rfl⟩,
      by simp⟩
  · rintro ⟨_, _, ⟨items, chunks, hitems, hlinked, rfl⟩, ⟨items', chunks', hitems', hlinked', rfl⟩,
      rfl⟩
    have hlength : chunks.length = items.length := hlinked.written.1
    rw [← ht.linked_append_right hitems' hlinked'.written.1 chunks, hlength,
      ← hitems.length_eq] at hlinked'
    rw [← hs.linked_append_left hitems hlength chunks'] at hlinked
    refine ⟨_, chunks ++ chunks', ⟨items, _, hitems, ⟨items', hitems', rfl⟩, rfl⟩, ?_, by simp⟩
    apply linked_append.mpr
    refine ⟨chunks, chunks', hlinked, ?_, rfl⟩
    rwa [Nat.zero_add, ← hitems.length_eq]

/-- A workspace has a block at a place, up to derived fields. -/
def Workspace.Presents (w : Workspace) (place : Place) (block : List Action) : Prop :=
  blockUnderived (w.block place) = blockUnderived block

/-- A block that a workspace presents is written as the tree of its actions is. -/
theorem Workspace.Presents.writeBlock {w : Workspace} {place : Place} {block : List Action}
    (h : w.Presents place block) :
  (w.writeBlock place).1 = ActionBlock.encodeBlock block
  := by
  rw [writeBlock_eq, ← encodeBlock_underived block, ← h, encodeBlock_underived]
  rfl

/-- For two blocks whose branches name actions of their own block or its end, the second put behind
the first, with its branches raised over it, can be written if and only if each of the two can, and
then as the two one after the other. So it is for the trees, and for every workspace in which they
are written in place. -/
theorem encodeBlock_concatenates {s t : List Action} (hs : Aimed s) (ht : Aimed t)
    (bytes : Bytes) :
  (encodeBlock (s ++ t.map (Action.raised s.length)) = .ok bytes
      ↔ ∃ front back, encodeBlock s = .ok front ∧ encodeBlock t = .ok back ∧ bytes = front ++ back)
    ∧ ∀ (w w₁ w₂ : Workspace) (place place₁ place₂ : Place),
      w₁.Presents place₁ s → w₂.Presents place₂ t →
      w.Presents place (s ++ t.map (Action.raised s.length)) →
      ((w.writeBlock place).1 = .ok bytes
        ↔ ∃ front back, (w₁.writeBlock place₁).1 = .ok front ∧ (w₂.writeBlock place₂).1 = .ok back
          ∧ bytes = front ++ back)
  := by
  refine ⟨encodeBlock_append_raised hs ht, ?_⟩
  intro w w₁ w₂ place place₁ place₂ h₁ h₂ h
  rw [h.writeBlock, h₁.writeBlock, h₂.writeBlock]
  apply encodeBlock_append_raised hs ht

/-- A branch to the end of its block. -/
def leaving : Workspace where
  cells := #[⟨.jump 1, []⟩]
  root := [0]

/-- A branch to the start of its block and one to its end, and between them a body with a branch to
the start of the body. -/
def circling : Workspace where
  cells := #[⟨.jump 0, []⟩, ⟨.withObject, [[2]]⟩, ⟨.jump 0, []⟩, ⟨.jump 3, []⟩]
  root := [0, 1, 3]

/-- The two blocks one after the other, with displacements that some writing left. -/
def leavingCircling : Workspace where
  cells := #[⟨.jump 1 (.int 7), []⟩, ⟨.jump 1, []⟩, ⟨.withObject, [[3]]⟩, ⟨.jump 0, []⟩,
    ⟨.jump 4 (.int (-2)), []⟩]
  root := [0, 1, 2, 4]

theorem encodeBlock_concatenates_leavingCircling :
  Aimed (leaving.block .root) ∧ Aimed (circling.block .root)
    ∧ leavingCircling.Presents .root
      (leaving.block .root ++ (circling.block .root).map (Action.raised 1))
    ∧ ∃ front back, (leaving.writeBlock .root).1 = .ok front
      ∧ (circling.writeBlock .root).1 = .ok back
      ∧ (leavingCircling.writeBlock .root).1 = .ok (front ++ back)
  := by
  have hleaving : Aimed (leaving.block .root) := by decide +kernel
  have hcircling : Aimed (circling.block .root) := by decide +kernel
  have hboth : leavingCircling.Presents .root
      (leaving.block .root ++ (circling.block .root).map (Action.raised 1)) := by
    simp [Workspace.Presents, leavingCircling, leaving, circling, Record.standard, Record.jump,
      Record.withObject, Workspace.block,
      Workspace.actions, Workspace.contents, Workspace.action, Workspace.unfold, blockUnderived,
      bodiesUnderived, Action.underived, Action.raised, Record.underived, Record.raised,
      Record.withDisplacement, Operands.withDisplacement, Operands.raised, Value.add, Scalar.add]
  refine ⟨hleaving, hcircling, hboth, [0x99, 2, 0, 0, 0],
    [0x99, 2, 0, 0xFB, 0xFF, 0x94, 2, 0, 5, 0, 0x99, 2, 0, 0xFB, 0xFF, 0x99, 2, 0, 0, 0],
    by decide +kernel, by decide +kernel, ?_⟩
  obtain ⟨-, hwrite⟩ := encodeBlock_concatenates hleaving hcircling _
  apply (hwrite leavingCircling leaving circling .root .root .root rfl rfl hboth).mpr
  exact ⟨_, _, by decide +kernel, by decide +kernel, rfl⟩

end ActionBlock
