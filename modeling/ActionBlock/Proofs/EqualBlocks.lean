import ActionBlock.Proofs.Chunks
import ActionBlock.Proofs.EqualValues
import ActionBlock.Proofs.Recovery

/-!
# Equal blocks have the same bytes

Blocks that are equal are written as the same bytes, if both can be written, but for the sign of a
floating point zero among the pushed numbers. So equality takes in every field that reaches the
bytes. This is so for all blocks that are alike: the fields of their actions are equal, or are the
same NaN.

Two occurrences of one action are equal without a look at what it holds. Blocks of one workspace
agree on what an identity stands for: at the same depth of nesting it is one and the same action.
-/

namespace ActionBlock

/-! ### Nesting -/

/-- The actions that lie at a depth of nesting in a block. -/
def nested : Nat → List Action → List Action
  | 0, block => block
  | depth + 1, block => nested depth (block.flatMap fun a => a.bodies.flatten)

theorem nested_nil (depth : Nat) :
  nested depth [] = []
  := by
  induction depth with
  | zero => rfl
  | succ depth ih => exact ih

/-- A larger block has more actions at every depth. -/
theorem nested_subset {block block' : List Action} (h : block ⊆ block') (depth : Nat) :
  nested depth block ⊆ nested depth block'
  := by
  induction depth generalizing block block' with
  | zero => exact h
  | succ depth ih =>
    apply ih
    intro b hb
    obtain ⟨a, ha, hb⟩ := List.mem_flatMap.mp hb
    exact List.mem_flatMap.mpr ⟨a, h ha, hb⟩

/-- What lies in a body lies one level deeper in the block around it. -/
theorem nested_body_subset {block body : List Action} {a : Action} (ha : a ∈ block)
    (hbody : body ∈ a.bodies) (depth : Nat) :
  nested depth body ⊆ nested (depth + 1) block
  := by
  apply nested_subset
  intro b hb
  exact List.mem_flatMap.mpr ⟨a, ha, List.mem_flatten.mpr ⟨body, hbody, hb⟩⟩

/-- No pushed number, at any depth of nesting, is a negative zero. -/
def NoNegativeZero (block : List Action) : Prop :=
  ∀ depth, ∀ a ∈ nested depth block, ∀ p ∈ a.record.operands.pushValues, p.isNegativeZero = false

/-- A body of a block without negative zeros has none either. -/
theorem NoNegativeZero.body {block body : List Action} {a : Action} (h : NoNegativeZero block)
    (ha : a ∈ block) (hbody : body ∈ a.bodies) :
  NoNegativeZero body
  := fun depth b hb => h (depth + 1) b (nested_body_subset ha hbody depth hb)

/-- Blocks that agree on what an identity stands for, at each depth of nesting. -/
def Coherent (s t : List Action) : Prop :=
  ∀ depth, ∀ a ∈ nested depth s, ∀ b ∈ nested depth t,
    a.identity.isSome → a.identity = b.identity → a = b

/-- Bodies of coherent blocks are coherent. -/
theorem Coherent.body {s t body body' : List Action} {a b : Action} (h : Coherent s t) (ha : a ∈ s)
    (hb : b ∈ t) (hbody : body ∈ a.bodies) (hbody' : body' ∈ b.bodies) :
  Coherent body body'
  := fun depth c hc d hd => h (depth + 1) c (nested_body_subset ha hbody depth hc) d
    (nested_body_subset hb hbody' depth hd)

namespace Workspace

variable {w : Workspace}

/-- What lies at a depth in unfolded actions is unfolded that much less. -/
theorem exists_unfold_of_mem_nested {depth size : Nat} {refs : List Ref} {a : Action}
    (h : a ∈ nested depth (refs.map (w.unfold size))) :
  ∃ r, a = w.unfold (size - depth) r
  := by
  induction depth generalizing size refs with
  | zero =>
    obtain ⟨r, -, rfl⟩ := List.mem_map.mp h
    exact ⟨r, rfl⟩
  | succ depth ih =>
    cases size with
    | zero =>
      have hnone : ((refs.map (w.unfold 0)).flatMap fun a => a.bodies.flatten) = [] := by
        rw [List.flatMap_map, List.flatMap_eq_nil_iff]
        exact fun r _ => rfl
      rw [nested, hnone, nested_nil] at h
      cases h
    | succ size =>
      have hinside : ((refs.map (w.unfold (size + 1))).flatMap fun a => a.bodies.flatten)
          = (refs.flatMap fun r => ((w.cells[r]?.map Cell.bodies).getD []).flatten).map
              (w.unfold size) := by
        rw [List.flatMap_map, List.map_flatMap]
        apply List.flatMap_congr
        intro r _
        rw [bodies_unfold_succ, List.map_flatten]
      rw [nested, hinside] at h
      rw [Nat.add_sub_add_right]
      exact ih h

/-- Blocks of one workspace are coherent, as a reference names one cell there. -/
theorem coherent_actions (w : Workspace) (as bs : List Ref) :
  Coherent (w.actions as) (w.actions bs)
  := by
  intro depth a ha b hb _ heq
  obtain ⟨r, rfl⟩ := exists_unfold_of_mem_nested ha
  obtain ⟨r', rfl⟩ := exists_unfold_of_mem_nested hb
  rw [identity_unfold, identity_unfold, Option.some.injEq] at heq
  rw [heq]

end Workspace

/-! ### Equal records -/

/-- Records that are written alike with the same bodies, and whose targets are the same if they are
branches. -/
structure Record.Agrees (r s : Record) : Prop where
  serialize (d : Int) (bodies : List Bytes) :
    Agree ((r.withDisplacement d).serialize bodies) ((s.withDisplacement d).serialize bodies)
  isBranch : r.operands.isBranch = s.operands.isBranch
  target {a b d e : Value} (hr : r.operands = .branch a d) (hs : s.operands = .branch b e)
    {m n : Int} (ha : a.whole? = some m) (hb : b.whole? = some n) : m = n

theorem Record.Agrees.refl (r : Record) :
  r.Agrees r
  := by
  refine ⟨fun _ _ => Agree.refl _, rfl, ?_⟩
  intro a b d e hr hs m n ha hb
  obtain ⟨rfl, rfl⟩ := Operands.branch.inj (hr.symm.trans hs)
  exact Option.some.inj (ha.symm.trans hb)

/-- Values that are alike give the same code byte. -/
theorem Value.codeByte_agree {a b : Value} (h : a.Alike b) :
  Agree a.codeByte b.codeByte
  := by
  intro x y hx hy
  have heq := h.whole?_unique (codeByte_eq_ok_iff.mp hx) (codeByte_eq_ok_iff.mp hy)
  exact UInt8.toNat_inj.mp (Int.natCast_inj.mp heq)

/-- Byte strings that are alike are the same. -/
theorem Value.Alike.bytes_eq {b c : Bytes} (h : Alike (.bytes b) (.bytes c)) :
  b = c
  := by
  obtain ⟨t, ht, hst⟩ := h.scalar_left
  obtain rfl := Value.scalar.inj ht
  obtain heq | ⟨hnumber, -⟩ := hst.eq_or_numbers
  · exact Scalar.bytes.inj heq
  · cases hnumber

/-- A record that can be written has a code, which says whether it is long. -/
theorem Record.exists_code_of_serialize {r : Record} {bodies : List Bytes} {bytes : Bytes}
    (h : r.serialize bodies = .ok bytes) :
  ∃ code, r.code.codeByte = .ok code
    ∧ r.isLong = .ok (decide (firstLongCode ≤ (code.toNat : Int)))
  := by
  have hcode : ∃ code, r.code.codeByte = .ok code := by
    obtain ⟨-, ⟨-, code, hcode, -⟩ | ⟨-, h⟩⟩ := serialize_eq_ok_iff.mp h
    · exact ⟨code, hcode⟩
    · obtain ⟨operands, code, -, -, hcode, -⟩ := serializeLong_eq_ok_iff.mp h
      exact ⟨code, hcode⟩
  obtain ⟨code, hcode⟩ := hcode
  exact ⟨code, hcode, isLong_of_whole (Value.codeByte_eq_ok_iff.mp hcode)⟩

/-- Long records agree where their codes, trailing bytes and operands do. -/
theorem Record.serializeLong_agree {r s : Record} (hcode : r.code.Alike s.code)
    (htrailing : r.trailing.Alike s.trailing) {bodies : List Bytes}
    (hwire : Agree (r.operands.wire (bodies.map List.length))
      (s.operands.wire (bodies.map List.length))) :
  Agree (r.serializeLong bodies) (s.serializeLong bodies)
  := by
  intro x y hx hy
  obtain ⟨operands, code, hoperands, -, hbyte, rfl⟩ := serializeLong_eq_ok_iff.mp hx
  obtain ⟨operands', code', hoperands', -, hbyte', rfl⟩ := serializeLong_eq_ok_iff.mp hy
  obtain ⟨wire, t, hr, ht, rfl⟩ := operandBytes_eq_ok_iff.mp hoperands
  obtain ⟨wire', t', hs, ht', rfl⟩ := operandBytes_eq_ok_iff.mp hoperands'
  rw [ht, ht'] at htrailing
  obtain rfl := htrailing.bytes_eq
  obtain rfl := hwire wire wire' hr hs
  rw [Value.codeByte_agree hcode code code' hbyte hbyte']

/-- Records agree where their codes, trailing bytes and operands do. -/
theorem Record.serialize_agree {r s : Record} (hcode : r.code.Alike s.code)
    (htrailing : r.trailing.Alike s.trailing) {bodies : List Bytes}
    (hwire : Agree (r.operands.wire (bodies.map List.length))
      (s.operands.wire (bodies.map List.length))) :
  Agree (r.serialize bodies) (s.serialize bodies)
  := by
  intro x y hx hy
  obtain ⟨code, hr, hlong⟩ := exists_code_of_serialize hx
  obtain ⟨code', hs, hlong'⟩ := exists_code_of_serialize hy
  obtain rfl := Value.codeByte_agree hcode code code' hr hs
  obtain ⟨-, ⟨hshort, c, hc, rfl⟩ | ⟨hlong₁, hx⟩⟩ := serialize_eq_ok_iff.mp hx
  · obtain ⟨-, ⟨-, c', hc', rfl⟩ | ⟨hlong₂, -⟩⟩ := serialize_eq_ok_iff.mp hy
    · rw [Value.codeByte_agree hcode c c' hc hc']
    · rw [hlong, ← hlong', hlong₂] at hshort
      cases hshort
  · obtain ⟨-, ⟨hshort, -⟩ | ⟨-, hy⟩⟩ := serialize_eq_ok_iff.mp hy
    · rw [hlong', ← hlong, hlong₁] at hshort
      cases hshort
    · exact serializeLong_agree hcode htrailing hwire x y hx hy

/-- Records are written alike if their codes, their operands and the bytes after them are alike. -/
theorem Record.agrees_of_alike {r s : Record} (hcode : r.code.Alike s.code)
    (hoperands : r.operands.Alike s.operands) (htrailing : r.trailing.Alike s.trailing)
    (hr : ∀ p ∈ r.operands.pushValues, p.isNegativeZero = false)
    (hs : ∀ q ∈ s.operands.pushValues, q.isNegativeZero = false) :
  r.Agrees s
  := by
  refine ⟨fun d bodies => ?_, ?_, ?_⟩
  · exact serialize_agree (r := r.withDisplacement d) (s := s.withDisplacement d) hcode htrailing
      (hoperands.wire_agree hr hs d _)
  · generalize r.operands = a, s.operands = b at hoperands
    cases hoperands <;> rfl
  · intro a b d e ha hb m n hm hn
    rw [ha, hb] at hoperands
    cases hoperands with
    | branch h => exact h.whole?_unique hm hn

/-! ### Equal blocks -/

/-- Bodies that compare equal are as many and compare equal one by one. -/
theorem forall₂_of_sameBodies {forms : List Bool} {as bs : List (List Action)}
    (h : sameBodies forms as bs = .ok true) :
  List.Forall₂ (fun a b => sameBlock a b = .ok true) as bs
  := by
  induction as generalizing forms bs with
  | nil =>
    cases forms <;> cases bs <;> first | exact .nil | simp [sameBodies] at h
  | cons a as ih =>
    cases bs with
    | nil => simp [sameBodies] at h
    | cons b bs =>
      obtain _ | ⟨_ | _, forms⟩ := forms
      · simp [sameBodies] at h
      · simp [sameBodies] at h
      · rw [sameBodies] at h
        split at h
        · rename_i hlength
          split at h
          · rename_i hactions
            exact .cons (by rw [sameBlock, if_pos hlength, hactions]) (ih h)
          · rename_i hother
            exact absurd h hother
        · cases h

theorem Operands.same_of_compare {a b : Operands} (h : a.compare b = .ok true) :
  a.same b = true
  := by
  obtain ⟨-, -, h⟩ := bind_eq_ok_iff.mp h
  obtain ⟨-, -, h⟩ := bind_eq_ok_iff.mp h
  exact Except.ok.inj h

/-- Actions that are equal are two occurrences of one action, or their records and bodies are equal.
-/
theorem Action.cases_of_same {a b : Action} (h : a.same b = .ok true) :
  (a.identity.isSome ∧ a.identity = b.identity)
    ∨ a.record.code.same b.record.code = true
      ∧ a.record.operands.same b.record.operands = true
      ∧ a.record.trailing.same b.record.trailing = true
      ∧ List.Forall₂ (fun x y => sameBlock x y = .ok true) a.bodies b.bodies
  := by
  obtain ⟨i, r, as⟩ := a
  obtain ⟨j, s, bs⟩ := b
  rw [Action.same] at h
  split at h
  · rename_i hidentity
    rw [Bool.and_eq_true, decide_eq_true_eq] at hidentity
    exact .inl hidentity
  split at h
  · rename_i hrecord
    split at h
    · rename_i hoperands
      split at h
      · rename_i hbodies
        rw [Bool.and_eq_true] at hrecord
        exact .inr ⟨hrecord.2, Operands.same_of_compare hoperands, Except.ok.inj h,
          forall₂_of_sameBodies hbodies⟩
      · rename_i hother
        exact absurd h hother
    · rename_i hother
      exact absurd h hother
  · cases h

/-- How actions can be alike: as two occurrences of one action, or because their codes, their
operands, the bytes after those and their bodies are. Two NaN of the same bits are alike. -/
inductive Action.Alike : Action → Action → Prop where
  | occurrence {a b : Action} (hsome : a.identity.isSome) (heq : a.identity = b.identity) :
      Alike a b
  | fields {a b : Action} (hcode : a.record.code.Alike b.record.code)
      (hoperands : a.record.operands.Alike b.record.operands)
      (htrailing : a.record.trailing.Alike b.record.trailing)
      (hbodies : List.Forall₂ (List.Forall₂ Alike) a.bodies b.bodies) : Alike a b

/-- Blocks whose actions are alike, one by one. -/
def BlockAlike (s t : List Action) : Prop := List.Forall₂ Action.Alike s t

/-- Equal blocks are alike. -/
theorem blockAlike_of_sameBlock {s t : List Action} (h : sameBlock s t = .ok true) :
  BlockAlike s t
  := by
  induction s using Action.block_induct generalizing t with
  | h s ih =>
    obtain ⟨hlength, hsame⟩ := List.forall₂_iff_get.mp (sameBlock_eq_ok_true_iff.mp h)
    apply List.forall₂_iff_get.mpr
    refine ⟨hlength, fun i hi hi' => ?_⟩
    obtain ⟨hsome, heq⟩ | ⟨hcode, hoperands, htrailing, hbodies⟩ :=
      Action.cases_of_same (hsame i hi hi')
    · exact .occurrence hsome heq
    · apply Action.Alike.fields (Value.alike_of_same _ hcode) (Operands.alike_of_same hoperands)
        (Value.alike_of_same _ htrailing)
      obtain ⟨hcount, hbody⟩ := List.forall₂_iff_get.mp hbodies
      apply List.forall₂_iff_get.mpr
      refine ⟨hcount, fun j hj hj' => ?_⟩
      exact ih _ (List.get_mem _ _) _ (List.get_mem _ _) (hbody j hj hj')

/-- Items that are written alike. -/
structure Item.Agrees (item item' : Item) : Prop where
  record : item.record.Agrees item'.record
  bodies : item.bodies = item'.bodies

/-- Items that agree are written alike for every displacement. -/
theorem Item.Agrees.serialize {item item' : Item} (h : item.Agrees item') (d : Int) :
  Agree (item.serialize d) (item'.serialize d)
  := by
  rw [Item.serialize, Item.serialize, h.bodies]
  exact h.record.serialize d _

/-- Items that agree are written to one chunk. -/
theorem Item.Agrees.eq_of_written {starts : Array Nat} {index : Nat} {item item' : Item}
    {chunk chunk' : Bytes} (h : item.Agrees item') (hitem : item.Written starts index chunk)
    (hitem' : item'.Written starts index chunk') :
  chunk = chunk'
  := by
  obtain ⟨d, hd, htarget⟩ := hitem
  obtain ⟨d', hd', htarget'⟩ := hitem'
  cases hbranch : item.record.operands.isBranch with
  | false =>
    have hbranch' : item'.record.operands.isBranch = false := h.record.isBranch ▸ hbranch
    rw [Item.serialize, Record.withDisplacement_of_not_branch hbranch'] at hd'
    apply h.serialize d chunk chunk' hd
    rw [Item.serialize, Record.withDisplacement_of_not_branch hbranch', hd']
  | true =>
    have hbranch' : item'.record.operands.isBranch = true := h.record.isBranch ▸ hbranch
    obtain ⟨target, old, hop⟩ := Operands.exists_branch_of_isBranch hbranch
    obtain ⟨target', old', hop'⟩ := Operands.exists_branch_of_isBranch hbranch'
    obtain ⟨t, ht, -, rfl, -⟩ := displacement_eq_ok_iff.mp (htarget target old hop)
    obtain ⟨t', ht', -, rfl, -⟩ := displacement_eq_ok_iff.mp (htarget' target' old' hop')
    obtain rfl : t = t' := Int.natCast_inj.mp (h.record.target hop hop' ht ht')
    exact h.serialize _ chunk chunk' hd hd'

/-- Runs of items that agree are linked into the same chunks. -/
theorem Linked.eq_of_agrees {starts : Array Nat} {index : Nat} {items items' : List Item}
    {chunks chunks' : List Bytes} (h : List.Forall₂ Item.Agrees items items')
    (hlinked : Linked starts index items chunks) (hlinked' : Linked starts index items' chunks') :
  chunks = chunks'
  := by
  induction h generalizing index chunks chunks' with
  | nil =>
    cases hlinked
    cases hlinked'
    rfl
  | cons hagrees _ ih =>
    obtain _ | ⟨hitem, hitems⟩ := hlinked
    obtain _ | ⟨hitem', hitems'⟩ := hlinked'
    rw [hagrees.eq_of_written hitem hitem', ih hitems hitems']

/-- The records of items that are written alike start at the same offsets. -/
theorem Linked.starts_eq_of_agrees {starts₁ starts₂ : Array Nat} {items items' : List Item}
    {chunks chunks' : List Bytes} (h : List.Forall₂ Item.Agrees items items')
    (hlinked : Linked starts₁ 0 items chunks) (hlinked' : Linked starts₂ 0 items' chunks') :
  starts chunks = starts chunks'
  := by
  obtain ⟨first, hfirst, hlengths⟩ := hlinked.forall₂_provisional
  obtain ⟨first', hfirst', hlengths'⟩ := hlinked'.forall₂_provisional
  obtain rfl : first = first' := by
    clear hlinked hlinked' hlengths hlengths'
    induction h generalizing first first' with
    | nil =>
      cases hfirst
      cases hfirst'
      rfl
    | cons hagrees _ ih =>
      obtain _ | ⟨hitem, hitems⟩ := hfirst
      obtain _ | ⟨hitem', hitems'⟩ := hfirst'
      rw [hagrees.serialize 0 _ _ hitem hitem', ih _ hitems _ hitems']
  rw [← starts_congr hlengths, ← starts_congr hlengths']

/-- Actions whose bodies are written alike have items with the same bodies. -/
theorem Action.Itemized.bodies_eq {a b : Action} {item item' : Item} (ha : a.Itemized item)
    (hb : b.Itemized item')
    (h : List.Forall₂ (fun x y => Agree (encodeBlock x) (encodeBlock y)) a.bodies b.bodies) :
  item.bodies = item'.bodies
  := by
  obtain ⟨-, ha⟩ := ha
  obtain ⟨-, hb⟩ := hb
  generalize a.bodies = as, b.bodies = bs, item.bodies = xs, item'.bodies = ys at h ha hb
  induction h generalizing xs ys with
  | nil =>
    cases ha
    cases hb
    rfl
  | cons hagree _ ih =>
    obtain _ | ⟨hx, hxs⟩ := ha
    obtain _ | ⟨hy, hys⟩ := hb
    rw [hagree _ _ hx hy, ih _ _ hxs hys]

/-- Actions of coherent blocks that are alike are written alike, if their bodies are. -/
theorem Action.Itemized.agrees {a b : Action} {item item' : Item} (ha : a.Itemized item)
    (hb : b.Itemized item') (h : a.Alike b)
    (hidentity : a.identity.isSome → a.identity = b.identity → a = b)
    (hpushed : ∀ p ∈ a.record.operands.pushValues, p.isNegativeZero = false)
    (hpushed' : ∀ q ∈ b.record.operands.pushValues, q.isNegativeZero = false)
    (hbodies : ∀ x ∈ a.bodies, ∀ y ∈ b.bodies, BlockAlike x y →
      Agree (encodeBlock x) (encodeBlock y)) :
  item.Agrees item'
  := by
  cases h with
  | occurrence hsome heq =>
    obtain rfl := hidentity hsome heq
    refine ⟨?_, ha.bodies_eq hb (List.forall₂_same.mpr fun _ _ => .refl _)⟩
    rw [ha.1, hb.1]
    apply Record.Agrees.refl
  | fields hcode hoperands htrailing halike =>
    refine ⟨?_, ha.bodies_eq hb ?_⟩
    · rw [ha.1, hb.1]
      exact Record.agrees_of_alike hcode hoperands htrailing hpushed hpushed'
    · obtain ⟨hlength, hget⟩ := List.forall₂_iff_get.mp halike
      apply List.forall₂_iff_get.mpr
      exact ⟨hlength, fun i hi hi' =>
        hbodies _ (List.get_mem _ _) _ (List.get_mem _ _) (hget i hi hi')⟩

/-- Blocks that are alike are written alike. -/
theorem encodeBlock_agree {s t : List Action} (h : BlockAlike s t)
    (hcoherent : Coherent s t) (hs : NoNegativeZero s) (ht : NoNegativeZero t) :
  Agree (encodeBlock s) (encodeBlock t)
  := by
  induction s using Action.block_induct generalizing t with
  | h s ih =>
    intro x y hx hy
    obtain ⟨items, chunks, hitems, hlinked, rfl⟩ := encodeBlock_eq_ok_iff_linked.mp hx
    obtain ⟨items', chunks', hitems', hlinked', rfl⟩ := encodeBlock_eq_ok_iff_linked.mp hy
    obtain ⟨hlength, halike⟩ := List.forall₂_iff_get.mp h
    obtain ⟨hcount, hitem⟩ := List.forall₂_iff_get.mp hitems
    obtain ⟨hcount', hitem'⟩ := List.forall₂_iff_get.mp hitems'
    have hagrees : List.Forall₂ Item.Agrees items items' := by
      apply List.forall₂_iff_get.mpr
      refine ⟨by omega, fun i hi hi' => ?_⟩
      have ha : s.get ⟨i, by omega⟩ ∈ s := List.get_mem _ _
      have hb : t.get ⟨i, by omega⟩ ∈ t := List.get_mem _ _
      apply (hitem i (by omega) hi).agrees (hitem' i (by omega) hi')
        (halike i (by omega) (by omega)) (hcoherent 0 _ ha _ hb) (hs 0 _ ha) (ht 0 _ hb)
      intro body hbody body' hbody' hbodies
      exact ih _ ha body hbody hbodies (hcoherent.body ha hb hbody hbody') (hs.body ha hbody)
        (ht.body hb hbody')
    rw [← Linked.starts_eq_of_agrees hagrees hlinked hlinked'] at hlinked'
    rw [Linked.eq_of_agrees hagrees hlinked hlinked']

/-! ### The theorem -/

/-- Blocks of a workspace are coherent, equal blocks are alike, and coherent blocks that are alike
have the same bytes, if both can be written and no pushed number in them is a negative zero. -/
theorem encode_eq_of_alike :
  (∀ (w : Workspace) (as bs : List Ref), Coherent (w.actions as) (w.actions bs))
    ∧ (∀ s t : List Action, sameBlock s t = .ok true → BlockAlike s t)
    ∧ ∀ (s t : List Action) (x y : Bytes), Coherent s t → BlockAlike s t →
      NoNegativeZero s → NoNegativeZero t → encode s = .ok x → encode t = .ok y → x = y
  := by
  refine ⟨Workspace.coherent_actions, fun s t => blockAlike_of_sameBlock, ?_⟩
  intro s t x y hcoherent halike hs ht hx hy
  obtain ⟨body, hbody, rfl⟩ := encode_eq_ok_iff.mp hx
  obtain ⟨body', hbody', rfl⟩ := encode_eq_ok_iff.mp hy
  rw [encodeBlock_agree halike hcoherent hs ht body body' hbody hbody']

/-- Two bodies, each with a push of two and of one and the same push of a NaN; after them a push of
each zero, and another push of the NaN. -/
def equalPushes : Workspace where
  cells := #[⟨.push [.pushed (.int 2) .double, .pushed (.bool true) .boolean], []⟩,
    ⟨.push [.tuple [.double ⟨0x4000000000000000⟩, .pushType .double],
      .pushed (.int 1) .boolean], []⟩,
    ⟨.push [.pushed (.double ⟨0x7FF8000000000000⟩) .double], []⟩,
    ⟨.withObject, [[0, 2]]⟩,
    ⟨.withObject, [[1, 2]]⟩,
    ⟨.push [.pushed (.double ⟨0⟩) .double], []⟩,
    ⟨.push [.pushed (.double ⟨0x8000000000000000⟩) .double], []⟩,
    ⟨.push [.pushed (.double ⟨0x7FF8000000000000⟩) .double], []⟩]
  root := [3]

theorem noNegativeZero_equalPushes :
  ∀ r ∈ [2, 3, 4, 7], NoNegativeZero (equalPushes.actions [r])
  := by
  intro r hr depth
  obtain _ | _ | depth := depth
  · revert r
    decide +kernel
  · revert r
    decide +kernel
  · have hnone : nested 2 (equalPushes.actions [r]) = [] := by
      revert r
      simp only [List.forall_mem_cons]
      exact ⟨rfl, rfl, rfl, rfl, by simp⟩
    rw [show nested (depth + 1 + 1) (equalPushes.actions [r])
      = nested depth (nested 2 (equalPushes.actions [r])) from rfl, hnone, nested_nil]
    simp

theorem encode_eq_of_alike_equalPushes :
  sameBlock (equalPushes.actions [3]) (equalPushes.actions [4]) = .ok true
    ∧ sameBlock (equalPushes.actions [2]) (equalPushes.actions [7]) = .ok false
    ∧ BlockAlike (equalPushes.actions [2]) (equalPushes.actions [7])
    ∧ (∀ r ∈ [2, 3, 4, 7], NoNegativeZero (equalPushes.actions [r]))
    ∧ encode (equalPushes.actions [3])
      = .ok [0x94, 2, 0, 26, 0, 0x96, 11, 0, 6, 0, 0, 0, 0x40, 0, 0, 0, 0, 5, 1,
          0x96, 9, 0, 6, 0, 0, 0xF8, 0x7F, 0, 0, 0, 0, 0]
    ∧ encode (equalPushes.actions [3]) = encode (equalPushes.actions [4])
    ∧ encode (equalPushes.actions [2]) = encode (equalPushes.actions [7])
  := by
  obtain ⟨hcoherent, halike, heq⟩ := encode_eq_of_alike
  have hzero := noNegativeZero_equalPushes
  have hsame : sameBlock (equalPushes.actions [3]) (equalPushes.actions [4]) = .ok true := by
    decide +kernel
  have hnan : BlockAlike (equalPushes.actions [2]) (equalPushes.actions [7]) := by
    apply List.Forall₂.cons _ .nil
    apply Action.Alike.fields
    · exact .refl _
    · exact .push ⟨_, _, rfl, rfl, .cons (.refl _) .nil⟩
    · exact .refl _
    · exact .nil
  have hwritten : ∀ r ∈ [2, 3, 4, 7], ∃ x, encode (equalPushes.actions [r]) = .ok x := by
    have hok : ∀ r ∈ [2, 3, 4, 7], (encode (equalPushes.actions [r])).isOk = true := by
      decide +kernel
    intro r hr
    cases hx : encode (equalPushes.actions [r]) with
    | ok x => exact ⟨x, rfl⟩
    | error e =>
      have hbad := hok r hr
      rw [hx] at hbad
      cases hbad
  have hencode : ∀ r ∈ [2, 3, 4, 7], ∀ r' ∈ [2, 3, 4, 7],
      BlockAlike (equalPushes.actions [r]) (equalPushes.actions [r']) →
        encode (equalPushes.actions [r]) = encode (equalPushes.actions [r']) := by
    intro r hr r' hr' halike
    obtain ⟨x, hx⟩ := hwritten r hr
    obtain ⟨y, hy⟩ := hwritten r' hr'
    rw [hx, hy, heq _ _ x y (hcoherent equalPushes [r] [r']) halike (hzero r hr) (hzero r' hr')
      hx hy]
  refine ⟨hsame, by decide +kernel, hnan, hzero, by decide +kernel, ?_, ?_⟩
  · exact hencode 3 (by simp) 4 (by simp) (halike _ _ hsame)
  · exact hencode 2 (by simp) 7 (by simp) hnan

-- The two zeros are equal, and are written differently.
example :
  sameBlock (equalPushes.actions [5]) (equalPushes.actions [6]) = .ok true
    ∧ encode (equalPushes.actions [5]) ≠ encode (equalPushes.actions [6])
  := by
  decide +kernel

end ActionBlock
