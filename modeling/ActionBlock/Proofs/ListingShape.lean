import ActionBlock.Proofs.LegibleLines

/-!
# A listing shows the shape of a block

The shape of a block is the tree of its actions: the codes, the bodies that go with them and the
targets of branches. A listing of a block that was read shows its shape, although only tabs, labels
and indices that begin anew tell where a body begins and ends, and a body without actions is not
shown at all.

The lines of a body are found by their rank. That of an action is odd, that of a label is even, and
both grow with the depth. All lines of a body have a greater rank than what follows it, which is a
label of the same depth or a line further out.
-/

namespace ActionBlock

/-! ### Shapes -/

/-- The shape of an action: its code, its target if it is a branch, and the shapes of its bodies. -/
inductive Shape where
  | node (code : Value) (target : Option Value) (bodies : List (List Shape))

mutual

/-- The shape of an action. -/
def Action.shape : Action → Shape
  | .mk _ record bodies => .node record.code record.operands.target? (bodyShapes bodies)

/-- The shapes of the actions of a block. -/
def blockShape : List Action → List Shape
  | [] => []
  | a :: actions => a.shape :: blockShape actions

/-- The shapes of bodies. -/
def bodyShapes : List (List Action) → List (List Shape)
  | [] => []
  | body :: bodies => blockShape body :: bodyShapes bodies

end

theorem blockShape_cons (a : Action) (actions : List Action) :
  blockShape (a :: actions)
    = .node a.record.code a.record.operands.target? (bodyShapes a.bodies) :: blockShape actions
  := by
  obtain ⟨identity, record, bodies⟩ := a
  rw [blockShape, Action.shape]
  rfl

/-- The number of labels in the bodies of an action: those of the bodies that are not empty, if
there is more than one body. -/
def Action.labelCount (a : Action) : Nat :=
  if 1 < a.bodies.length then a.bodies.countP (!·.isEmpty) else 0

namespace Listing

/-! ### Ranks -/

/-- The rank of a line: what ends a body is the first line after it of a lower rank than its
actions. -/
def Line.rank : Line → Nat
  | action _ outer _ => 2 * outer.length + 1
  | label depth _ => 2 * depth

/-- Lines that are alike have one rank. -/
theorem Line.Alike.rank_eq {l l' : Line} (h : l.Alike l') :
  l.rank = l'.rank
  := by
  cases h with
  | action hdepth => rw [rank, rank, hdepth]
  | label => rfl

/-- Lines that are alike split at the same place, if what follows it begins with a lower rank than
all that is before it. -/
theorem forall₂_append_of_rank {k : Nat} {xs ys xs' ys' : List Line}
    (h : List.Forall₂ Line.Alike (xs ++ ys) (xs' ++ ys')) (hxs : ∀ l ∈ xs, k < l.rank)
    (hys : ∀ l ∈ ys.head?, l.rank ≤ k) (hxs' : ∀ l ∈ xs', k < l.rank)
    (hys' : ∀ l ∈ ys'.head?, l.rank ≤ k) :
  List.Forall₂ Line.Alike xs xs' ∧ List.Forall₂ Line.Alike ys ys'
  :=
  forall₂_append_of_boundary (p := fun l => k < l.rank) (fun halike => by rw [halike.rank_eq]) h hxs
    (fun l hl => Nat.not_lt.mpr (hys l hl)) hxs' (fun l hl => Nat.not_lt.mpr (hys' l hl))

/-- Lines of actions that are alike have the same depth, code, body names and target. -/
theorem Line.Alike.of_action {before before' : List Record} {outer outer' : List (List Record)}
    {r r' : Record} (h : (Line.action before outer r).Alike (Line.action before' outer' r')) :
  outer.length = outer'.length ∧ r.code = r'.code ∧ r.operands.bodyNames = r'.operands.bodyNames
    ∧ r.operands.target? = r'.operands.target?
  := by
  cases h with
  | action hdepth hcode hnames htarget => exact ⟨hdepth, hcode, hnames, htarget⟩

theorem Line.Alike.name_eq {depth depth' : Nat} {name name' : String}
    (h : (Line.label depth name).Alike (Line.label depth' name')) :
  name = name'
  := by
  cases h
  rfl

theorem bodiesLines_nil_cons (outer : List (List Record)) (name : String) (names : List String)
    (bodies : List (List Action)) :
  bodiesLines outer (name :: names) ([] :: bodies) = bodiesLines outer names bodies
  := by
  rw [bodiesLines_cons, blockLines_nil]
  rfl

theorem bodiesLines_cons_cons (outer : List (List Record)) (name : String) (names : List String)
    (a : Action)
    (body : List Action) (bodies : List (List Action)) :
  bodiesLines outer (name :: names) ((a :: body) :: bodies)
    = .label outer.length name
      :: (blockLines outer [] (a :: body) ++ bodiesLines outer names bodies)
  := by
  rw [bodiesLines_cons]
  rfl

/-- No line of a block ranks below the lines of its own actions. -/
theorem le_rank_of_mem_blockLines {outer : List (List Record)} {before : List Record}
    {block : List Action}
    {l : Line} (h : l ∈ blockLines outer before block) :
  2 * outer.length + 1 ≤ l.rank
  := by
  induction block using Action.block_induct generalizing outer before with
  | h block ih =>
    obtain ⟨front, a, back, rfl, rfl | h⟩ := mem_blockLines_iff.mp h
    · exact Nat.le_refl _
    · obtain ⟨name, -, rfl⟩ | ⟨body, hbody, h⟩ := mem_bodiesLines h
      · rw [Line.rank, List.length_cons]
        omega
      · have hrank := ih a (by simp) body hbody h
        rw [List.length_cons] at hrank
        omega

/-- No line of some bodies ranks below their labels. -/
theorem le_rank_of_mem_bodiesLines {outer : List (List Record)} {names : List String}
    {bodies : List (List Action)} {l : Line} (h : l ∈ bodiesLines outer names bodies) :
  2 * outer.length ≤ l.rank
  := by
  obtain ⟨name, -, rfl⟩ | ⟨body, hbody, h⟩ := mem_bodiesLines h
  · exact Nat.le_refl _
  · exact Nat.le_of_succ_le (le_rank_of_mem_blockLines h)

/-- A block begins with the line of an action. -/
theorem rank_of_head_blockLines {outer : List (List Record)} {before : List Record}
    {block : List Action} :
  ∀ l ∈ (blockLines outer before block).head?, l.rank = 2 * outer.length + 1
  := by
  cases block with
  | nil => simp [blockLines_nil]
  | cons a block => simp [blockLines_cons, Line.rank]

/-- If all bodies have names, their lines begin with a label. -/
theorem exists_label_of_head_bodiesLines (outer : List (List Record)) {names : List String}
    {bodies : List (List Action)} (h : bodies.length = names.length) :
  ∀ l ∈ (bodiesLines outer names bodies).head?, ∃ name ∈ names, l = .label outer.length name
  := by
  induction bodies generalizing names with
  | nil => simp [bodiesLines_nil]
  | cons body bodies ih =>
    obtain ⟨name, names, rfl⟩ := List.exists_cons_of_length_eq_add_one h.symm
    intro l hl
    cases body with
    | nil =>
      rw [bodiesLines_nil_cons] at hl
      obtain ⟨name', hname', rfl⟩ := ih (Nat.succ.inj h) l hl
      exact ⟨name', List.mem_cons_of_mem _ hname', rfl⟩
    | cons a body =>
      rw [bodiesLines_cons_cons] at hl
      exact ⟨name, List.mem_cons_self, (Option.some.inj hl).symm⟩

/-- The lines of bodies begin with a label. -/
theorem rank_le_of_head_bodiesLines {outer : List (List Record)} {names : List String}
    {bodies : List (List Action)} (h : bodies.length = names.length) :
  ∀ l ∈ (bodiesLines outer names bodies).head?, l.rank ≤ 2 * outer.length
  := by
  intro l hl
  obtain ⟨name, -, rfl⟩ := exists_label_of_head_bodiesLines outer h l hl
  exact Nat.le_refl _

/-! ### Blocks that are alike -/

/-- Whether each action at any level of a block has as many bodies as its operands name. -/
def Counted (block : List Action) : Prop :=
  ∀ a ∈ allActions block, a.bodies.length = a.record.operands.bodyNames.length

/-- Whether a block has the shape of any other whose lines are like its own. -/
def Determined (block : List Action) : Prop :=
  ∀ {block' : List Action} {outer outer' : List (List Record)} {before before' : List Record},
  Counted block → Counted block' →
  List.Forall₂ Line.Alike (blockLines outer before block) (blockLines outer' before' block') →
  blockShape block = blockShape block'

/-- Bodies that have names have the same shapes if their lines are alike. A body without actions is
told by its label, which is missing. -/
theorem bodyShapes_eq_of_named {names : List String} {bodies bodies' : List (List Action)}
    {outer outer' : List (List Record)} (ih : ∀ body ∈ bodies, Determined body)
    (hcounted : ∀ body ∈ bodies, Counted body) (hcounted' : ∀ body ∈ bodies', Counted body)
    (hnames : names.Nodup) (hlength : bodies.length = names.length)
    (hlength' : bodies'.length = names.length)
    (hdepth : outer.length = outer'.length)
    (h : List.Forall₂ Line.Alike (bodiesLines outer names bodies)
      (bodiesLines outer' names bodies')) :
  bodyShapes bodies = bodyShapes bodies'
  := by
  induction names generalizing bodies bodies' with
  | nil =>
    obtain rfl := List.length_eq_zero_iff.mp hlength
    obtain rfl := List.length_eq_zero_iff.mp hlength'
    rfl
  | cons name names ihnames =>
    obtain ⟨body, bodies, rfl⟩ := List.exists_cons_of_length_eq_add_one hlength
    obtain ⟨body', bodies', rfl⟩ := List.exists_cons_of_length_eq_add_one hlength'
    obtain ⟨ihbody, ihbodies⟩ := List.forall_mem_cons.mp ih
    obtain ⟨hbody, hbodies⟩ := List.forall_mem_cons.mp hcounted
    obtain ⟨hbody', hbodies'⟩ := List.forall_mem_cons.mp hcounted'
    obtain ⟨hname, hnodup⟩ := List.nodup_cons.mp hnames
    have hrest := ihnames ihbodies hbodies hbodies' hnodup (Nat.succ.inj hlength)
      (Nat.succ.inj hlength')
    have hhead := exists_label_of_head_bodiesLines outer (Nat.succ.inj hlength)
    have hhead' := exists_label_of_head_bodiesLines outer' (Nat.succ.inj hlength')
    rw [bodyShapes, bodyShapes]
    cases body with
    | nil =>
      rw [bodiesLines_nil_cons] at h
      cases body' with
      | nil =>
        rw [bodiesLines_nil_cons] at h
        rw [hrest h]
      | cons a' body' =>
        rw [bodiesLines_cons_cons] at h
        obtain ⟨l, ls, hl, -, hlines⟩ := List.forall₂_cons_right_iff.mp h
        obtain ⟨other, hother, rfl⟩ := hhead l (by rw [hlines]; rfl)
        exact absurd (hl.name_eq ▸ hother) hname
    | cons a body =>
      rw [bodiesLines_cons_cons] at h
      cases body' with
      | nil =>
        rw [bodiesLines_nil_cons] at h
        obtain ⟨l, ls, hl, -, hlines⟩ := List.forall₂_cons_left_iff.mp h
        obtain ⟨other, hother, rfl⟩ := hhead' l (by rw [hlines]; rfl)
        exact absurd (hl.name_eq ▸ hother) hname
      | cons a' body' =>
        rw [bodiesLines_cons_cons] at h
        obtain ⟨-, h⟩ := List.forall₂_cons.mp h
        obtain ⟨hblock, hlines⟩ := forall₂_append_of_rank h (fun _ => le_rank_of_mem_blockLines)
          (rank_le_of_head_bodiesLines (Nat.succ.inj hlength))
          (fun _ => hdepth ▸ le_rank_of_mem_blockLines)
          (hdepth ▸ rank_le_of_head_bodiesLines (Nat.succ.inj hlength'))
        rw [ihbody hbody hbody' hblock, hrest hlines]

/-- A body without a name has the same shape if its lines are alike. -/
theorem bodyShapes_eq_of_unnamed {bodies bodies' : List (List Action)}
    {outer outer' : List (List Record)}
    (ih : ∀ body ∈ bodies, Determined body) (hcounted : ∀ body ∈ bodies, Counted body)
    (hcounted' : ∀ body ∈ bodies', Counted body) (hone : bodies.length ≤ 1)
    (hlength : bodies'.length = bodies.length)
    (h : List.Forall₂ Line.Alike (bodiesLines outer [] bodies) (bodiesLines outer' [] bodies')) :
  bodyShapes bodies = bodyShapes bodies'
  := by
  have hlines : ∀ (outer : List (List Record)) (body : List Action),
      bodiesLines outer [] [body] = blockLines outer [] body := by
    intro outer body
    rw [bodiesLines_cons, bodiesLines_nil, labelLines, List.append_nil]
    cases body.isEmpty <;> rfl
  cases bodies with
  | nil =>
    obtain rfl := List.length_eq_zero_iff.mp hlength
    rfl
  | cons body bodies =>
    obtain rfl := List.length_eq_zero_iff.mp (Nat.le_zero.mp (Nat.le_of_succ_le_succ hone))
    obtain ⟨body', rfl⟩ := List.length_eq_one_iff.mp hlength
    rw [hlines, hlines] at h
    have hshape := ih body List.mem_cons_self (hcounted body List.mem_cons_self)
      (hcounted' body' List.mem_cons_self) h
    rw [bodyShapes, bodyShapes, hshape]
    rfl

/-- The bodies of actions have the same shapes if their lines are alike. -/
theorem bodyShapes_eq_of_alike {a a' : Action} {outer outer' : List (List Record)}
    (ih : ∀ body ∈ a.bodies, Determined body) (hcounted : ∀ body ∈ a.bodies, Counted body)
    (hcounted' : ∀ body ∈ a'.bodies, Counted body)
    (hlength : a.bodies.length = a.record.operands.bodyNames.length)
    (hlength' : a'.bodies.length = a'.record.operands.bodyNames.length)
    (hnames : a.record.operands.bodyNames = a'.record.operands.bodyNames)
    (hdepth : outer.length = outer'.length)
    (h : List.Forall₂ Line.Alike (bodiesLines outer (bodyLabels a.record a.bodies) a.bodies)
      (bodiesLines outer' (bodyLabels a'.record a'.bodies) a'.bodies)) :
  bodyShapes a.bodies = bodyShapes a'.bodies
  := by
  have hsame : a'.bodies.length = a.bodies.length := by rw [hlength', hlength, hnames]
  by_cases hmany : a.bodies.length > 1
  · rw [bodyLabels, if_pos hmany, bodyLabels, if_pos (hsame ▸ hmany), ← hnames] at h
    exact bodyShapes_eq_of_named ih hcounted hcounted' (Operands.nodup_bodyNames _) hlength
      (hlength'.trans (by rw [hnames])) hdepth h
  · rw [bodyLabels, if_neg hmany, bodyLabels, if_neg (hsame ▸ hmany)] at h
    exact bodyShapes_eq_of_unnamed ih hcounted hcounted' (Nat.not_lt.mp hmany) hsame h

/-- The shape of a block can be told from its lines. -/
theorem determined (block : List Action) :
  Determined block
  := by
  induction block using Action.block_induct with
  | h block ih =>
    intro block' outer outer' before before' hcounted hcounted' h
    induction block generalizing block' before before' with
    | nil =>
      cases block' with
      | nil => rfl
      | cons a' block' =>
        rw [blockLines_nil, blockLines_cons] at h
        cases h
    | cons a block ihblock =>
      cases block' with
      | nil =>
        rw [blockLines_nil, blockLines_cons] at h
        cases h
      | cons a' block' =>
        rw [blockLines_cons, blockLines_cons] at h
        obtain ⟨hline, h⟩ := List.forall₂_cons.mp h
        obtain ⟨hdepth, hcode, hnames, htarget⟩ := hline.of_action
        obtain ⟨⟨hlength, hbodies⟩, hrest⟩ :=
          List.forall_mem_cons.mp (forall_mem_allActions_iff.mp hcounted)
        obtain ⟨⟨hlength', hbodies'⟩, hrest'⟩ :=
          List.forall_mem_cons.mp (forall_mem_allActions_iff.mp hcounted')
        obtain ⟨ihbodies, ihrest⟩ := List.forall_mem_cons.mp ih
        obtain ⟨halike, h⟩ := forall₂_append_of_rank (k := 2 * outer.length + 1) h
          (fun _ => le_rank_of_mem_bodiesLines) (fun l hl => (rank_of_head_blockLines l hl).le)
          (fun _ hl => hdepth ▸ le_rank_of_mem_bodiesLines hl)
          (fun l hl => hdepth ▸ (rank_of_head_blockLines l hl).le)
        have hshapes := bodyShapes_eq_of_alike ihbodies hbodies hbodies' hlength hlength' hnames
          (by rw [List.length_cons, List.length_cons, hdepth]) halike
        have hblock := ihblock ihrest (forall_mem_allActions_iff.mpr hrest)
          (forall_mem_allActions_iff.mpr hrest') h
        rw [blockShape_cons, blockShape_cons, hcode, htarget, hshapes, hblock]

/-! ### The number of lines -/

/-- The number of lines for actions: one for each, and one for each label in its bodies. -/
def lineCount (actions : List Action) : Nat :=
  actions.length + (actions.map Action.labelCount).sum

theorem lineCount_append (front back : List Action) :
  lineCount (front ++ back) = lineCount front + lineCount back
  := by
  simp only [lineCount, List.length_append, List.map_append, List.sum_append]
  omega

theorem lineCount_cons (a : Action) (actions : List Action) :
  lineCount (a :: actions) = 1 + a.labelCount + lineCount actions
  := by
  simp only [lineCount, List.length_cons, List.map_cons, List.sum_cons]
  omega

/-- The lines of bodies are those of their actions, and a label for each of the bodies that have a
name and are not empty. -/
theorem length_bodiesLines {bodies : List (List Action)} {outer : List (List Record)}
    (ih : ∀ body ∈ bodies, (blockLines outer [] body).length = lineCount (allActions body))
    (names : List String) :
  (bodiesLines outer names bodies).length
    = lineCount (bodiesActions bodies) + (bodies.take names.length).countP (!·.isEmpty)
  := by
  induction bodies generalizing names with
  | nil =>
    rw [bodiesLines_nil, bodiesActions_nil, List.take_nil]
    rfl
  | cons body bodies ihbodies =>
    obtain ⟨hbody, hbodies⟩ := List.forall_mem_cons.mp ih
    have hlabel : (labelLines outer.length names body).length
        = ([body].take names.length).countP (!·.isEmpty) := by
      cases body <;> cases names <;> simp [labelLines]
    rw [bodiesLines_cons, bodiesActions_cons, lineCount_append, List.length_append,
      List.length_append,
      hbody, ihbodies hbodies, hlabel]
    cases names with
    | nil => simp
    | cons name names =>
      simp only [List.length_cons, List.drop_one, List.tail_cons, List.take_succ_cons,
        List.countP_cons,
        List.take_nil, List.countP_nil]
      omega

/-- The lines of a block are its actions at all levels, and the labels of their bodies. -/
theorem length_blockLines {block : List Action} (h : Counted block) (outer : List (List Record))
    (before : List Record) :
  (blockLines outer before block).length = lineCount (allActions block)
  := by
  induction block using Action.block_induct generalizing outer before with
  | h block ih =>
    induction block generalizing before with
    | nil =>
      rw [blockLines_nil, allActions_nil]
      rfl
    | cons a block ihblock =>
      obtain ⟨⟨hlength, hbodies⟩, hrest⟩ := List.forall_mem_cons.mp (forall_mem_allActions_iff.mp h)
      obtain ⟨iha, ihrest⟩ := List.forall_mem_cons.mp ih
      have hlabels : (a.bodies.take (bodyLabels a.record a.bodies).length).countP (!·.isEmpty)
          = a.labelCount := by
        rw [bodyLabels, Action.labelCount]
        split
        · rw [← hlength, List.take_length]
        · rfl
      rw [blockLines_cons, allActions_cons, lineCount_cons, lineCount_append, List.length_cons,
        List.length_append, ihblock ihrest (forall_mem_allActions_iff.mpr hrest),
        length_bodiesLines (fun body hbody => iha body hbody (hbodies body hbody) _ _), hlabels]
      omega

/-- In a block as it is read every action has as many bodies as names for them. -/
theorem counted_of_asRead {table : OpcodeTable} {block : List Action}
    (h : BlockAsRead table block) :
  Counted block
  := fun a ha => (h a ha).length_bodies

/-- A block that was read can be listed, line by line. -/
theorem exists_listing {table : OpcodeTable} {block : List Action} (h : BlockAsRead table block) :
  ∃ ts, listing block = .ok ts ∧ List.Forall₂ (fun l t => l.text = .ok t) (lines block) ts
    ∧ ∀ l ∈ lines block, l.AsRead table
  := by
  have hread : ∀ l ∈ lines block, l.AsRead table := by
    intro l hl
    exact asRead_of_mem_blockLines h (by simp) hl
  obtain ⟨ts, hts⟩ := exists_mapM_eq_ok_iff.mpr fun l hl => (hread l hl).exists_text
  exact ⟨ts, (listing_eq block).trans hts, mapM_eq_ok_iff.mp hts, hread⟩

end Listing

/-! ### The theorem -/

/-- The blocks that decoders with a table read from bit streams, as outermost blocks or as bodies of
a size. -/
def OpcodeTable.Reads (table : OpcodeTable) (block : List Action) : Prop :=
  ∃ (strict : Bool) (s : BitStream) (size : Option Int) (cursor : Int),
    (Decoder.readBlock ⟨table, strict⟩ s size).result = .ok (block, cursor)

/-- Blocks that were read with one table have the same shape if they have the same listing. The
mnemonics of the table have to be told apart, as those of the standard table are. The listing has a
line for each action at any level, and one for each body that is not empty of an action with more
than one body. -/
theorem blockShape_eq_of_listing_eq :
  OpcodeTable.shared.Legible
    ∧ ∀ {table : OpcodeTable}, table.Legible → ∀ {block block' : List Action},
      table.Reads block → table.Reads block' →
      (∃ ts, listing block = .ok ts
        ∧ ts.length = (allActions block).length + ((allActions block).map Action.labelCount).sum)
      ∧ (listing block = listing block' → blockShape block = blockShape block')
  := by
  refine ⟨OpcodeTable.legible_shared, ?_⟩
  rintro table htable block block' ⟨strict, s, size, cursor, hread⟩
    ⟨strict', s', size', cursor', hread'⟩
  have hblock := Decoder.blockAsRead_of_readBlock hread
  have hblock' := Decoder.blockAsRead_of_readBlock hread'
  obtain ⟨ts, hts, htexts, hlines⟩ := Listing.exists_listing hblock
  obtain ⟨ts', hts', htexts', hlines'⟩ := Listing.exists_listing hblock'
  have hcounted := Listing.counted_of_asRead hblock
  refine ⟨⟨ts, hts, htexts.length_eq.symm.trans (Listing.length_blockLines hcounted [] [])⟩, ?_⟩
  intro heq
  obtain rfl : ts = ts' := Except.ok.inj (hts.symm.trans (heq.trans hts'))
  have halike := Listing.forall₂_alike_of_text htable htexts htexts' hlines hlines'
  exact Listing.determined block hcounted (Listing.counted_of_asRead hblock') halike

/-- The outermost block of a byte string, if it can be read with the standard table. -/
def standardBlock (data : Bytes) : List Action :=
  ((Decoder.readBlock ⟨.shared, true⟩ (.ofBytes data) none).result.toOption.map Prod.fst).getD []

theorem reads_standardBlock {data : Bytes}
    (h : (Decoder.readBlock ⟨.shared, true⟩ (.ofBytes data) none).result.toOption.isSome = true) :
  OpcodeTable.shared.Reads (standardBlock data)
  := by
  cases hread : (Decoder.readBlock ⟨.shared, true⟩ (.ofBytes data) none).result with
  | error e =>
    rw [hread] at h
    cases h
  | ok result =>
    refine ⟨true, .ofBytes data, none, result.2, ?_⟩
    rw [standardBlock, hread]
    rfl

/-- A `try` with the given flags, whose body is a `with` around a jump to itself and which has
another body that is executed at last, but none for what is caught. -/
def guardedJump (flags : UInt8) : Bytes :=
  [0x8F, 8, 0, flags, 10, 0, 0, 0, 1, 0, 1] ++ [0x94, 2, 0, 5, 0, 0x99, 2, 0, 0xFB, 0xFF] ++ [0x06]
    ++ [0x26, 0]

/-- Reserved bits are not listed, so blocks that differ in them have one listing, and one shape. -/
theorem blockShape_eq_of_listing_eq_guardedJump :
  listing (standardBlock (guardedJump 0x06)) = listing (standardBlock (guardedJump 0x16))
    ∧ blockShape (standardBlock (guardedJump 0x06)) = blockShape (standardBlock (guardedJump 0x16))
    ∧ ∃ ts, listing (standardBlock (guardedJump 0x06)) = .ok ts ∧ ts.length = 5 + 2
  := by
  have hlisting : listing (standardBlock (guardedJump 0x06))
      = listing (standardBlock (guardedJump 0x16)) := by
    decide +kernel
  have hread : OpcodeTable.shared.Reads (standardBlock (guardedJump 0x06)) :=
    reads_standardBlock (by decide +kernel)
  have hread' : OpcodeTable.shared.Reads (standardBlock (guardedJump 0x16)) :=
    reads_standardBlock (by decide +kernel)
  obtain ⟨⟨ts, hts, hlength⟩, hshape⟩ :=
    blockShape_eq_of_listing_eq.2 OpcodeTable.legible_shared hread hread'
  exact ⟨hlisting, hshape hlisting, ts, hts, hlength.trans (by decide +kernel)⟩

end ActionBlock
