import ActionBlock.Proofs.Derived
import Mathlib.Data.List.Nodup

/-!
# Where displacements settle

Writing a block sets displacements of the actions in it, at whatever depth, and of no others. If no
action occurs in the block twice, then what is set for a branch when it is linked is not set again,
so every branch of the block is left with the displacement that it was written with.
-/

namespace ActionBlock

/-! ### Identities -/

mutual

/-- The identities of an action and of the actions in its bodies. -/
def Action.identities : Action → List Nat
  | .mk identity _ bodies => identity.toList ++ bodiesIdentities bodies

/-- The identities of the actions in bodies. -/
def bodiesIdentities : List (List Action) → List Nat
  | [] => []
  | body :: bodies => blockIdentities body ++ bodiesIdentities bodies

/-- The identities of the actions in a block. -/
def blockIdentities : List Action → List Nat
  | [] => []
  | a :: actions => a.identities ++ blockIdentities actions

end

/-- The identities of an action are its own and those of its bodies. -/
theorem Action.identities_eq (a : Action) :
  a.identities = a.identity.toList ++ bodiesIdentities a.bodies
  := by
  obtain ⟨identity, record, bodies⟩ := a
  rw [identities]
  rfl

theorem blockIdentities_eq_flatMap (block : List Action) :
  blockIdentities block = block.flatMap Action.identities
  := by
  induction block with
  | nil => rw [blockIdentities, List.flatMap_nil]
  | cons a actions ih => rw [blockIdentities, ih, List.flatMap_cons]

theorem bodiesIdentities_eq_flatMap (bodies : List (List Action)) :
  bodiesIdentities bodies = bodies.flatMap blockIdentities
  := by
  induction bodies with
  | nil => rw [bodiesIdentities, List.flatMap_nil]
  | cons body bodies ih => rw [bodiesIdentities, ih, List.flatMap_cons]

theorem Action.toList_identity_subset (a : Action) :
  a.identity.toList ⊆ a.identities
  := by
  rw [a.identities_eq]
  apply List.subset_append_left

theorem Action.bodiesIdentities_subset (a : Action) :
  bodiesIdentities a.bodies ⊆ a.identities
  := by
  rw [a.identities_eq]
  apply List.subset_append_right

theorem Action.identities_subset {a : Action} {block : List Action} (ha : a ∈ block) :
  a.identities ⊆ blockIdentities block
  := by
  intro r hr
  rw [blockIdentities_eq_flatMap]
  apply List.mem_flatMap.mpr ⟨a, ha, hr⟩

theorem blockIdentities_subset {body : List Action} {bodies : List (List Action)}
    (hbody : body ∈ bodies) :
  blockIdentities body ⊆ bodiesIdentities bodies
  := by
  intro r hr
  rw [bodiesIdentities_eq_flatMap]
  apply List.mem_flatMap.mpr ⟨body, hbody, hr⟩

/-! ### Which displacements are set -/

namespace Residue

/-- Whether the displacements that were set since are those of some actions only. -/
def Extends (identities : List Nat) (left left' : Residue) : Prop :=
  ∃ new, left'.settings = new ++ left.settings ∧ ∀ s ∈ new, s.identity ∈ identities

namespace Extends

variable {identities identities' : List Nat} {left left' left'' : Residue}

theorem of_settings_eq (h : left'.settings = left.settings) :
  Extends identities left left'
  := ⟨[], h, by simp⟩

theorem refl (left : Residue) :
  Extends identities left left
  := of_settings_eq rfl

theorem trans (h : Extends identities left left') (h' : Extends identities left' left'') :
  Extends identities left left''
  := by
  obtain ⟨new, hsettings, hnew⟩ := h
  obtain ⟨new', hsettings', hnew'⟩ := h'
  use new' ++ new
  constructor
  · rw [hsettings', hsettings, List.append_assoc]
  · intro s hs
    obtain hs | hs := List.mem_append.mp hs
    · apply hnew' s hs
    · apply hnew s hs

theorem mono (h : Extends identities left left') (hsubset : identities ⊆ identities') :
  Extends identities' left left'
  := by
  obtain ⟨new, hsettings, hnew⟩ := h
  use new, hsettings
  intro s hs
  apply hsubset (hnew s hs)

theorem set (left : Residue) (identity : Option Nat) (d : Int) :
  Extends identity.toList left (left.set identity d)
  := by
  refine ⟨_, rfl, ?_⟩
  intro s hs
  cases identity with
  | none => cases hs
  | some r =>
    obtain rfl := List.mem_singleton.mp hs
    apply List.mem_cons_self

/-- Writing an action's bodies anew extends by no more than the first write does. -/
theorem renew {anew : Residue → Residue} (h : Extends identities left (anew left))
    (identity : Option Nat) (record : Record) :
  Extends identities left (left.renew identity record anew)
  := by
  rw [Residue.renew]
  split
  · exact h
  · apply refl

end Extends

end Residue

section Frames

open Residue

variable {block : List Action} {bodies : List (List Action)} {identities : List Nat}

/-- Bodies extend by no more than each of their blocks does. -/
theorem extends_bodyResidue_of
    (h : ∀ body ∈ bodies, ∀ left, Extends identities left (blockResidue body left))
    (left : Residue) :
  Extends identities left (bodyResidue bodies left)
  := by
  induction bodies generalizing left with
  | nil =>
    rw [bodyResidue]
    apply Extends.refl
  | cons body bodies ih =>
    rw [List.forall_mem_cons] at h
    have hbody : Extends identities left ((blockResidue body left).release body) := by
      apply (h.1 left).trans
      apply Extends.of_settings_eq rfl
    cases hencode : encodeBlock body with
    | error e =>
      rw [bodyResidue_cons_of_error hencode]
      exact hbody
    | ok bytes =>
      rw [bodyResidue_cons_of_ok hencode]
      apply hbody.trans (ih h.2 _)

/-- Held bodies extend by no more than each of them does. -/
theorem extends_holdBodies_of
    (h : ∀ a ∈ block, ∀ left, Extends identities left (bodyResidue a.bodies left))
    (left : Residue) :
  Extends identities left (holdBodies block left)
  := by
  induction block generalizing left with
  | nil =>
    rw [holdBodies]
    apply Extends.refl
  | cons a actions ih =>
    rw [List.forall_mem_cons] at h
    cases hencode : encodeBodies a.bodies [] with
    | error e =>
      rw [holdBodies_cons_of_error hencode]
      apply h.1
    | ok bytes =>
      have hheld : Extends identities left
          ((bodyResidue a.bodies left).hold a.identity a.bodies) := by
        apply (h.1 left).trans
        apply Extends.of_settings_eq rfl
      rw [holdBodies_cons_of_ok hencode]
      apply hheld.trans (ih h.2 _)

/-- The first pass extends by the identities of the block only. -/
theorem extends_firstResidue_of (hidentities : ∀ a ∈ block, a.identities ⊆ identities)
    (h : ∀ a ∈ block, ∀ left, Extends identities left (bodyResidue a.bodies left))
    (failure : Option Nat) (index : Nat) (left : Residue) :
  Extends identities left (firstResidue failure block index left)
  := by
  induction block generalizing index left with
  | nil =>
    rw [firstResidue]
    apply Extends.refl
  | cons a actions ih =>
    rw [List.forall_mem_cons] at h hidentities
    have hset : Extends identities left
        (if a.record.operands.isBranch then left.set a.identity 0 else left) := by
      split
      · apply (Extends.set left a.identity 0).mono
        apply List.Subset.trans a.toList_identity_subset hidentities.1
      · apply Extends.refl
    have hrenewed := hset.trans
      (Extends.renew (h.1 _) a.identity (a.record.withDisplacement 0))
    rw [firstResidue_cons failure a actions index left rfl]
    split
    · exact hrenewed
    · apply hrenewed.trans (ih hidentities.2 h.2 _ _)

/-- The second pass extends by the identities of the block only, provided the bodies do. -/
theorem extends_secondResidue_of (hidentities : ∀ a ∈ block, a.identities ⊆ identities)
    (h : ∀ a ∈ block, ∀ left, Extends identities left (bodyResidue a.bodies left))
    (starts : Array Nat) (index : Nat) (left : Residue) :
  Extends identities left (secondResidue starts block index left)
  := by
  induction block generalizing index left with
  | nil =>
    rw [secondResidue]
    apply Extends.refl
  | cons a actions ih =>
    rw [List.forall_mem_cons] at h hidentities
    cases hbranch : a.record.operands.isBranch with
    | false =>
      rw [secondResidue_cons_of_plain hbranch]
      apply ih hidentities.2 h.2
    | true =>
      obtain ⟨target, old, hoperands⟩ := Operands.exists_branch_of_isBranch hbranch
      cases hd : displacement starts index a.record target with
      | error e =>
        rw [secondResidue_cons_of_error hoperands hd]
        apply Extends.refl
      | ok d =>
        have hset : Extends identities left (left.set a.identity d) := by
          apply (Extends.set left a.identity d).mono
          apply List.Subset.trans a.toList_identity_subset hidentities.1
        rw [secondResidue_cons_of_ok hoperands hd]
        apply (hset.trans (Extends.renew (h.1 _) _ _)).trans
        apply ih hidentities.2 h.2

/-- Writing a block sets displacements of the actions in it only. -/
theorem extends_blockResidue (block : List Action) (left : Residue) :
  Extends (blockIdentities block) left (blockResidue block left)
  := by
  induction block using Action.block_induct generalizing left with
  | h block ih =>
    have hidentities : ∀ a ∈ block, a.identities ⊆ blockIdentities block :=
      fun a ha => Action.identities_subset ha
    have hbodies : ∀ a ∈ block, ∀ left,
        Extends (blockIdentities block) left (bodyResidue a.bodies left) := by
      intro a ha
      apply extends_bodyResidue_of
      intro body hbody left
      apply (ih a ha body hbody left).mono
      apply List.Subset.trans (blockIdentities_subset hbody)
      apply List.Subset.trans a.bodiesIdentities_subset (hidentities a ha)
    have hheld := extends_holdBodies_of hbodies left
    rw [blockResidue]
    cases encodeItems block 0 [] with
    | error e => exact hheld
    | ok items =>
      dsimp only
      cases provisional items with
      | error e => apply hheld.trans (extends_firstResidue_of hidentities hbodies _ _ _)
      | ok chunks =>
        apply (hheld.trans (extends_firstResidue_of hidentities hbodies _ _ _)).trans
        apply extends_secondResidue_of hidentities hbodies

/-- Writing bodies sets displacements of the actions in them only. -/
theorem extends_bodyResidue (bodies : List (List Action)) (left : Residue) :
  Extends (bodiesIdentities bodies) left (bodyResidue bodies left)
  := by
  apply extends_bodyResidue_of
  intro body hbody left
  apply (extends_blockResidue body left).mono
  apply blockIdentities_subset hbody

/-- The second pass sets displacements of the block's own actions only. -/
theorem extends_secondResidue (block : List Action) (starts : Array Nat) (index : Nat)
    (left : Residue) :
  Extends (blockIdentities block) left (secondResidue starts block index left)
  := by
  apply extends_secondResidue_of
  · intro a ha
    apply Action.identities_subset ha
  · intro a ha left
    apply (extends_bodyResidue a.bodies left).mono
    apply List.Subset.trans a.bodiesIdentities_subset (Action.identities_subset ha)

end Frames

/-! ### Where they are left -/

namespace Residue

/-- The displacement that was set last for an action. -/
def displaced? (left : Residue) (r : Nat) : Option Int :=
  (left.settings.find? (·.identity == r)).map Setting.displacement

theorem displaced?_set (left : Residue) (r : Nat) (d : Int) :
  (left.set (some r) d).displaced? r = some d
  := by
  simp [displaced?, set]

/-- An action that is not among the identities keeps its displacement. -/
theorem Extends.displaced?_eq {identities : List Nat} {left left' : Residue}
    (h : Extends identities left left') {r : Nat} (hr : r ∉ identities) :
  left'.displaced? r = left.displaced? r
  := by
  obtain ⟨new, hsettings, hnew⟩ := h
  have hnone : new.find? (·.identity == r) = none := by
    apply List.find?_eq_none.mpr
    intro s hs heq
    apply hr
    rw [← beq_iff_eq.mp heq]
    apply hnew s hs
  rw [displaced?, displaced?, hsettings, List.find?_append, hnone, Option.none_or]

end Residue

/-- A record has the displacement that was set last for it, if any was. -/
theorem Workspace.recordOf_applySettings (w : Workspace) (left : Residue) (r : Ref) :
  (w.applySettings left.settings.reverse).recordOf r
    = (left.displaced? r).elim (w.recordOf r) fun d => (w.recordOf r).withDisplacement d
  := by
  rw [Residue.displaced?]
  induction left.settings with
  | nil => rfl
  | cons s settings ih =>
    rw [List.reverse_cons, applySettings_concat, List.find?_cons]
    cases heq : s.identity == r with
    | true =>
      obtain rfl : s.identity = r := beq_iff_eq.mp heq
      rw [recordOf_modifyRecord, ih]
      cases settings.find? (·.identity == s.identity) with
      | none => rfl
      | some s' => apply Record.withDisplacement_withDisplacement
    | false =>
      have hne : s.identity ≠ r := ne_of_beq_false heq
      rw [← ih, recordOf, record?_modifyRecord, if_neg hne]
      rfl

/-- An action was written as a chunk, a branch with the displacement that was set last for it. -/
def Residue.Settled (left : Residue) (a : Action) (chunk : Bytes) : Prop :=
  ∃ item d, a.Itemized item ∧ item.serialize d = .ok chunk
    ∧ (a.record.operands.isBranch = true → ∀ r ∈ a.identity, left.displaced? r = some d)

/-- Once the branches of a block without repetitions are linked, each of its actions has settled. -/
theorem forall₂_settled {starts : Array Nat} {index : Nat} {block : List Action}
    {items : List Item} {chunks : List Bytes}
    (hitems : List.Forall₂ Action.Itemized block items)
    (hlinked : Linked starts index items chunks) (hdistinct : (blockIdentities block).Nodup)
    (left : Residue) :
  List.Forall₂ (secondResidue starts block index left).Settled block chunks
  := by
  induction hitems generalizing index chunks left with
  | nil =>
    cases hlinked
    apply List.Forall₂.nil
  | @cons a item actions items hitem _ ih =>
    obtain _ | @⟨_, _, _, chunk, chunks, ⟨d, hchunk, htarget⟩, hlinked⟩ := hlinked
    rw [blockIdentities, List.nodup_append'] at hdistinct
    obtain ⟨hfirst, hrest, hdisjoint⟩ := hdistinct
    cases hbranch : a.record.operands.isBranch with
    | false =>
      rw [secondResidue_cons_of_plain hbranch]
      refine .cons ⟨item, d, hitem, hchunk, ?_⟩ (ih hlinked hrest left)
      intro h
      cases hbranch.symm.trans h
    | true =>
      obtain ⟨target, old, hoperands⟩ := Operands.exists_branch_of_isBranch hbranch
      have hd : displacement starts index a.record target = .ok d := by
        rw [← hitem.1]
        apply htarget target old
        rw [hitem.1, hoperands]
      rw [secondResidue_cons_of_ok hoperands hd]
      refine .cons ⟨item, d, hitem, hchunk, ?_⟩ (ih hlinked hrest _)
      intro _ r hr
      -- Neither the bodies of the action nor the actions after it set its displacement again.
      have hmem : r ∈ a.identities := by
        apply a.toList_identity_subset
        rw [Option.mem_toList]
        exact hr
      have hbodies : r ∉ bodiesIdentities a.bodies := by
        rw [a.identities_eq, List.nodup_append'] at hfirst
        apply hfirst.2.2
        rw [Option.mem_toList]
        exact hr
      have hafter : r ∉ blockIdentities actions := hdisjoint hmem
      rw [(extends_secondResidue actions starts (index + 1) _).displaced?_eq hafter,
        (Residue.Extends.renew (extends_bodyResidue a.bodies _) _ _).displaced?_eq hbodies,
        Option.mem_def.mp hr, Residue.displaced?_set]

/-! ### What an action of a block is written as -/

/-- The bytes of the actions of a block, a chunk for each. -/
def encodeChunks (block : List Action) : Except EncodeError (List Bytes) := do
  let items ← encodeItems block 0 []
  let chunks ← provisional items
  link items chunks

/-- A block is the concatenation of its chunks. -/
theorem encodeBlock_eq_map (block : List Action) :
  encodeBlock block = (encodeChunks block).map List.flatten
  := by
  rw [encodeBlock, encodeChunks]
  cases encodeItems block 0 [] with
  | error e => rfl
  | ok items => apply assemble_eq_map

/-- The chunks of a block are those its items are linked into. -/
theorem encodeChunks_eq_ok_iff {block : List Action} {chunks : List Bytes} :
  encodeChunks block = .ok chunks
    ↔ ∃ items, encodeItems block 0 [] = .ok items ∧ Linked (starts chunks) 0 items chunks
  := by
  rw [encodeChunks, bind_eq_ok_iff]
  simp only [provisional_bind_link_eq_ok_iff]

/-- Once a block without repetitions is written, each of its actions has settled. -/
theorem forall₂_settled_blockResidue {block : List Action} {chunks : List Bytes}
    (h : encodeChunks block = .ok chunks) (hdistinct : (blockIdentities block).Nodup) :
  List.Forall₂ (blockResidue block {}).Settled block chunks
  := by
  obtain ⟨items, hencode, hlinked⟩ := encodeChunks_eq_ok_iff.mp h
  obtain ⟨_, hitems, rfl⟩ := encodeItems_eq_ok_iff.mp hencode
  obtain ⟨first, hfirst, hlink⟩ :=
    bind_eq_ok_iff.mp (provisional_bind_link_eq_ok_iff.mpr hlinked)
  obtain ⟨_, hserialized, rfl⟩ := provisionalFrom_eq_ok_iff.mp hfirst
  rw [blockResidue, hencode]
  dsimp only
  rw [hfirst]
  dsimp only
  obtain ⟨_, hlinked', rfl⟩ := (linkFrom_eq_ok_iff hserialized).mp hlink
  apply forall₂_settled hitems hlinked' hdistinct

end ActionBlock
