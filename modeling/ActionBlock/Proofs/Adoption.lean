import ActionBlock.Proofs.Settling

/-!
# Blocks that become part of a workspace

The actions of a tree are added to a workspace one by one, those in the bodies of an action before
the action itself, each under the next reference. So what the references unfold to are the trees
that were added, and no action occurs in them twice. This stays so when the workspace grows further,
and the depth to which references are unfolded does not matter once it is as great as their number.
-/

namespace ActionBlock

/-! ### References that were given out -/

/-- References of a range, none of them given out twice. -/
structure Allotted (low high : Nat) (refs : List Nat) : Prop where
  le : low ≤ high
  range : ∀ r ∈ refs, low ≤ r ∧ r < high
  distinct : refs.Nodup

namespace Allotted

variable {low mid high : Nat} {refs refs' : List Nat}

theorem nil (low : Nat) :
  Allotted low low []
  := ⟨le_refl low, by simp, List.nodup_nil⟩

/-- What is allotted in one range and in the next is allotted in both together. -/
theorem append (h : Allotted low mid refs) (h' : Allotted mid high refs') :
  Allotted low high (refs ++ refs')
  where
  le := le_trans h.le h'.le
  range := by
    intro r hr
    obtain hr | hr := List.mem_append.mp hr
    · obtain ⟨hlow, hmid⟩ := h.range r hr
      exact ⟨hlow, lt_of_lt_of_le hmid h'.le⟩
    · obtain ⟨hmid, hhigh⟩ := h'.range r hr
      exact ⟨le_trans h.le hmid, hhigh⟩
  distinct := by
    rw [List.nodup_append']
    refine ⟨h.distinct, h'.distinct, ?_⟩
    intro r hr hr'
    have hmid := (h.range r hr).2
    have hmid' := (h'.range r hr').1
    omega

/-- The next reference is allotted after those of a range. -/
theorem next (h : Allotted low high refs) :
  Allotted low (high + 1) (high :: refs)
  where
  le := Nat.le_succ_of_le h.le
  range := by
    intro r hr
    obtain rfl | hr := List.mem_cons.mp hr
    · exact ⟨h.le, Nat.lt_succ_self _⟩
    · obtain ⟨hlow, hhigh⟩ := h.range r hr
      exact ⟨hlow, Nat.lt_succ_of_lt hhigh⟩
  distinct := by
    rw [List.nodup_cons]
    refine ⟨?_, h.distinct⟩
    intro hmem
    have hhigh := (h.range high hmem).2
    omega

end Allotted

/-! ### Workspaces that grow -/

namespace Workspace

/-- Whether a workspace has all actions of another, as they are there. -/
def Grown (w w' : Workspace) : Prop :=
  ∀ (r : Ref) (cell : Cell), w.cells[r]? = some cell → w'.cells[r]? = some cell

variable {w w' w'' : Workspace} {r : Ref} {refs : List Ref} {a : Action} {block : List Action}
  {rows : List (List Ref)} {bodies : List (List Action)}

theorem Grown.refl (w : Workspace) :
  w.Grown w
  := fun _ _ h => h

theorem Grown.trans (h : w.Grown w') (h' : w'.Grown w'') :
  w.Grown w''
  := by
  intro r cell hcell
  apply h' r cell
  apply h r cell hcell

/-- A workspace grows by an action, and keeps the others. -/
theorem grown_add (w : Workspace) (cell : Cell) :
  w.Grown (w.add cell).2
  := by
  intro r cell' hcell'
  apply cells_add hcell'

/-! ### What was added -/

/-- References stand for the actions of a block in one workspace and in all that grow from it, and
none of them, or of those in their bodies, was given out in another workspace before. -/
structure Adopted (w w' : Workspace) (refs : List Ref) (block : List Action) : Prop where
  grown : w.Grown w'
  records : ∀ v, w'.Grown v → refs.map v.recordOf = block.map Action.record
  trees : ∀ v depth, w'.Grown v → w'.cells.size ≤ depth →
    blockUnderived (refs.map (v.unfold depth)) = blockUnderived block
  allotted : ∀ v depth, w'.Grown v → w'.cells.size ≤ depth →
    Allotted w.cells.size w'.cells.size (blockIdentities (refs.map (v.unfold depth)))

/-- The same for bodies. -/
structure AdoptedBodies (w w' : Workspace) (rows : List (List Ref)) (bodies : List (List Action)) :
    Prop where
  grown : w.Grown w'
  trees : ∀ v depth, w'.Grown v → w'.cells.size ≤ depth →
    (rows.map (List.map (v.unfold depth))).map blockUnderived = bodies.map blockUnderived
  allotted : ∀ v depth, w'.Grown v → w'.cells.size ≤ depth →
    Allotted w.cells.size w'.cells.size (bodiesIdentities (rows.map (List.map (v.unfold depth))))

theorem Adopted.nil (w : Workspace) :
  Adopted w w [] []
  where
  grown := .refl w
  records := fun _ _ => rfl
  trees := fun _ _ _ _ => rfl
  allotted := by
    intro v depth _ _
    rw [List.map_nil, blockIdentities]
    apply Allotted.nil

/-- Workspaces do not get smaller when actions are added. -/
theorem Adopted.size_le (h : Adopted w w' refs block) :
  w.cells.size ≤ w'.cells.size
  := (h.allotted w' w'.cells.size (.refl w') (le_refl _)).le

theorem AdoptedBodies.size_le (h : AdoptedBodies w w' rows bodies) :
  w.cells.size ≤ w'.cells.size
  := (h.allotted w' w'.cells.size (.refl w') (le_refl _)).le

/-- Two blocks that are adopted one after the other are adopted as one. -/
theorem Adopted.append {refs' : List Ref} {block' : List Action} (h : Adopted w w' refs block)
    (h' : Adopted w' w'' refs' block') :
  Adopted w w'' (refs ++ refs') (block ++ block')
  where
  grown := h.grown.trans h'.grown
  records := by
    intro v hv
    rw [List.map_append, List.map_append, h.records v (h'.grown.trans hv), h'.records v hv]
  trees := by
    intro v depth hv hdepth
    have hfirst := h.trees v depth (h'.grown.trans hv) (le_trans h'.size_le hdepth)
    have hsecond := h'.trees v depth hv hdepth
    simp only [blockUnderived_eq_map] at hfirst hsecond ⊢
    rw [List.map_append, List.map_append, List.map_append, hfirst, hsecond]
  allotted := by
    intro v depth hv hdepth
    have hfirst := h.allotted v depth (h'.grown.trans hv) (le_trans h'.size_le hdepth)
    have hsecond := h'.allotted v depth hv hdepth
    rw [blockIdentities_eq_flatMap] at hfirst hsecond ⊢
    rw [List.map_append, List.flatMap_append]
    apply hfirst.append hsecond

theorem AdoptedBodies.nil (w : Workspace) :
  AdoptedBodies w w [] []
  where
  grown := .refl w
  trees := fun _ _ _ _ => rfl
  allotted := by
    intro v depth _ _
    rw [List.map_nil, bodiesIdentities]
    apply Allotted.nil

/-- A body and further bodies that are adopted after it are adopted as one row. -/
theorem AdoptedBodies.cons (h : Adopted w w' refs block) (h' : AdoptedBodies w' w'' rows bodies) :
  AdoptedBodies w w'' (refs :: rows) (block :: bodies)
  where
  grown := h.grown.trans h'.grown
  trees := by
    intro v depth hv hdepth
    rw [List.map_cons, List.map_cons, List.map_cons,
      h.trees v depth (h'.grown.trans hv) (le_trans h'.size_le hdepth), h'.trees v depth hv hdepth]
  allotted := by
    intro v depth hv hdepth
    rw [List.map_cons, bodiesIdentities]
    apply (h.allotted v depth (h'.grown.trans hv) (le_trans h'.size_le hdepth)).append
    apply h'.allotted v depth hv hdepth

/-- An action is added after the actions in its bodies. -/
theorem AdoptedBodies.add (h : AdoptedBodies w w' rows a.bodies) :
  Adopted w (w'.add ⟨a.record, rows⟩).2 [w'.cells.size] [a]
  := by
  have hcell : ∀ v, (w'.add ⟨a.record, rows⟩).2.Grown v →
      v.cells[w'.cells.size]? = some ⟨a.record, rows⟩ := by
    intro v hv
    apply hv
    apply Array.getElem?_push_size
  have hsize : (w'.add ⟨a.record, rows⟩).2.cells.size = w'.cells.size + 1 := Array.size_push _
  have hgrown := w'.grown_add ⟨a.record, rows⟩
  have hunfold : ∀ v depth, (w'.add ⟨a.record, rows⟩).2.Grown v →
      v.unfold (depth + 1) w'.cells.size
        = .mk (some w'.cells.size) a.record (rows.map (List.map (v.unfold depth))) := by
    intro v depth hv
    rw [unfold, hcell v hv]
  constructor
  · apply h.grown.trans hgrown
  · intro v hv
    rw [List.map_singleton, recordOf, record?, hcell v hv]
    rfl
  · intro v depth hv hdepth
    obtain ⟨depth, rfl⟩ := Nat.exists_eq_add_one_of_ne_zero (n := depth) (by omega)
    rw [List.map_singleton, hunfold v depth hv, blockUnderived_eq_map, blockUnderived_eq_map,
      List.map_singleton, List.map_singleton, Action.underived_eq, a.underived_eq]
    congr 2
    apply h.trees v depth (hgrown.trans hv) (by omega)
  · intro v depth hv hdepth
    obtain ⟨depth, rfl⟩ := Nat.exists_eq_add_one_of_ne_zero (n := depth) (by omega)
    rw [List.map_singleton, hunfold v depth hv, blockIdentities_eq_flatMap,
      List.flatMap_singleton, Action.identities_eq, hsize]
    apply Allotted.next
    apply h.allotted v depth (hgrown.trans hv) (by omega)

/-! ### Adding blocks -/

/-- Bodies are adopted if each of them is, after what is done already. -/
theorem exists_adoptBodies
    (h : ∀ body ∈ bodies, ∀ (w : Workspace) (done : List Ref), ∃ refs w',
      adoptBlock w body done = (done.reverse ++ refs, w') ∧ Adopted w w' refs body)
    (w : Workspace) (done : List (List Ref)) :
  ∃ rows w', adoptBodies w bodies done = (done.reverse ++ rows, w') ∧ AdoptedBodies w w' rows bodies
  := by
  induction bodies generalizing w done with
  | nil =>
    refine ⟨[], w, ?_, .nil w⟩
    rw [adoptBodies, List.append_nil]
  | cons body bodies ih =>
    rw [List.forall_mem_cons] at h
    obtain ⟨refs, w₁, hbody, hadopted⟩ := h.1 w []
    obtain ⟨rows, w₂, hbodies, hadopted'⟩ := ih h.2 w₁ (refs :: done)
    refine ⟨refs :: rows, w₂, ?_, .cons hadopted hadopted'⟩
    rw [adoptBodies, hbody]
    simpa using hbodies

/-- A block is adopted if each of its actions is, after what is done already. -/
theorem exists_adoptBlock_of
    (h : ∀ a ∈ block, ∀ w : Workspace, ∃ r w', adopt w a = (r, w') ∧ Adopted w w' [r] [a])
    (w : Workspace) (done : List Ref) :
  ∃ refs w', adoptBlock w block done = (done.reverse ++ refs, w') ∧ Adopted w w' refs block
  := by
  induction block generalizing w done with
  | nil =>
    refine ⟨[], w, ?_, .nil w⟩
    rw [adoptBlock, List.append_nil]
  | cons a actions ih =>
    rw [List.forall_mem_cons] at h
    obtain ⟨r, w₁, ha, hadopted⟩ := h.1 w
    obtain ⟨refs, w₂, hactions, hadopted'⟩ := ih h.2 w₁ (r :: done)
    refine ⟨r :: refs, w₂, ?_, hadopted.append hadopted'⟩
    rw [adoptBlock, ha]
    simpa using hactions

/-- A block that is added to a workspace is there. -/
theorem exists_adoptBlock (w : Workspace) (block : List Action) (done : List Ref) :
  ∃ refs w', adoptBlock w block done = (done.reverse ++ refs, w') ∧ Adopted w w' refs block
  := by
  induction block using Action.block_induct generalizing w done with
  | h block ih =>
    apply exists_adoptBlock_of
    intro a ha w
    obtain ⟨rows, w', hbodies, hadopted⟩ :=
      exists_adoptBodies (fun body hbody w done => ih a ha body hbody w done) w []
    refine ⟨w'.cells.size, (w'.add ⟨a.record, rows⟩).2, ?_, hadopted.add⟩
    obtain ⟨identity, record, bodies⟩ := a
    rw [adopt, show adoptBodies w bodies [] = (rows, w') from hbodies]
    rfl

/-- A block that is made the root is the root, up to derived fields; its records are as they were,
and no action occurs in it twice. -/
theorem load_spec (w : Workspace) (block : List Action) :
  (w.load block).root.map (w.load block).recordOf = block.map Action.record
    ∧ blockUnderived ((w.load block).block .root) = blockUnderived block
    ∧ (blockIdentities ((w.load block).block .root)).Nodup
  := by
  obtain ⟨refs, w', hadopt, hadopted⟩ := w.exists_adoptBlock block []
  have hload : w.load block = { w' with root := refs } := by
    rw [load, hadopt]
    rfl
  have hgrown : w'.Grown (w.load block) := by
    rw [hload]
    apply Grown.refl
  have hsize : (w.load block).cells.size = w'.cells.size := by rw [hload]
  have hroot : (w.load block).root = refs := by rw [hload]
  rw [Workspace.block, actions, contents, hroot]
  refine ⟨hadopted.records _ hgrown, ?_, ?_⟩
  · apply hadopted.trees _ _ hgrown hsize.ge
  · apply (hadopted.allotted _ _ hgrown hsize.ge).distinct

end Workspace

end ActionBlock
