import SysrepoAugeas.Store.Nested

/-!
# Places in the YANG data and in the Augeas tree

What a diff node changes is in one list of the tree.  The paths of the nodes
above it match the nodes that stand for them, so the rest of both trees stays
as it is.
-/

namespace SysrepoAugeas.Store

section Natural

variable {T S : Type} (change : T → S)

/-- What the store reads of an entry for its paths. -/
def Entry.header (entry : Entry T) : Nat × SchemaNode × String :=
  (entry.id, entry.schema, entry.term)

theorem Entry.label_of_header {first : Entry T} {second : Entry S}
    (same : first.header = second.header) :
    first.id = second.id ∧ first.schema = second.schema ∧ first.label = second.label := by
  obtain ⟨sameId, sameSchema, sameTerm⟩ : first.id = second.id ∧ first.schema = second.schema ∧
      first.term = second.term := by simpa [Entry.header] using same
  refine ⟨sameId, sameSchema, ?_⟩
  rw [Entry.label, Entry.label, sameSchema, sameTerm]

theorem Indexable.of_header {data : List (Entry T)} {other : List (Entry S)}
    (same : data.map Entry.header = other.map Entry.header) (indexable : Indexable data) :
    Indexable other := by
  have counterpart {entry : Entry S} (isIn : entry ∈ other) :
      ∃ source ∈ data, source.header = entry.header := by
    have inHeaders : entry.header ∈ data.map Entry.header := same ▸ List.mem_map_of_mem isIn
    obtain ⟨source, sourceIn, sameHeader⟩ := List.mem_map.mp inHeaders
    exact ⟨source, sourceIn, sameHeader⟩
  obtain ⟨⟨keys, schema⟩, unique⟩ := indexable
  refine ⟨⟨?_, ?_⟩, ?_⟩
  · have ids : data.map Entry.id = other.map Entry.id := by
      have firsts := congrArg (List.map Prod.fst) same
      simpa [List.map_map, Function.comp_def, Entry.header] using firsts
    rw [UniqueKeys, ← ids]
    exact keys
  · intro first firstIn second secondIn sameLabel
    obtain ⟨first', firstIn', firstSame⟩ := counterpart firstIn
    obtain ⟨second', secondIn', secondSame⟩ := counterpart secondIn
    obtain ⟨-, firstSchema, firstLabel⟩ := Entry.label_of_header firstSame
    obtain ⟨-, secondSchema, secondLabel⟩ := Entry.label_of_header secondSame
    rw [← firstSchema, ← secondSchema]
    apply schema first' firstIn' second' secondIn'
    rw [firstLabel, secondLabel, sameLabel]
  · intro first firstIn second secondIn sequential sameLabel
    obtain ⟨first', firstIn', firstSame⟩ := counterpart firstIn
    obtain ⟨second', secondIn', secondSame⟩ := counterpart secondIn
    obtain ⟨firstId, firstSchema, firstLabel⟩ := Entry.label_of_header firstSame
    obtain ⟨secondId, -, secondLabel⟩ := Entry.label_of_header secondSame
    rw [← firstId, ← secondId]
    apply unique first' firstIn' second' secondIn'
    · rw [Entry.isSequential, firstSchema]
      exact sequential
    · rw [firstLabel, secondLabel, sameLabel]

theorem neighbour_map (id : Nat) (previous : Option (Entry T)) (data : List (Entry T)) :
    neighbour id (previous.map (Entry.map change)) (data.map (Entry.map change)) =
      (neighbour id previous data).map fun found => (found.1.map change, found.2) := by
  induction data generalizing previous with
  | nil => rfl
  | cons node rest inductionHypothesis =>
      simp only [List.map_cons, neighbour]
      by_cases found : node.id = id
      · have mapped : (node.map change).id = id := found
        rw [if_pos mapped, if_pos found]
        cases previous with
        | some anchor => rfl
        | none => cases rest <;> rfl
      · have mapped : (node.map change).id ≠ id := found
        rw [if_neg mapped, if_neg found]
        exact inductionHypothesis (some node)

theorem insertBeside_map (anchor : Nat) (before : Bool) (node : Entry T) (data : List (Entry T)) :
    insertBeside anchor before (node.map change) (data.map (Entry.map change)) =
      (insertBeside anchor before node data).map (Entry.map change) := by
  induction data with
  | nil => rfl
  | cons head rest inductionHypothesis =>
      simp only [List.map_cons, insertBeside]
      by_cases found : head.id = anchor
      · have mapped : (head.map change).id = anchor := found
        rw [if_pos mapped, if_pos found]
        cases before <;> rfl
      · have mapped : (head.map change).id ≠ anchor := found
        rw [if_neg mapped, if_neg found, List.map_cons, inductionHypothesis]

theorem augdsStoreFindAnchor_map (keyMeta : KeyMeta) (id : Nat) (data : List (Entry T)) :
    augdsStoreFindAnchor keyMeta id (data.map (Entry.map change)) =
      (augdsStoreFindAnchor keyMeta id data).map fun found =>
        (found.1.map (Entry.map change), found.2) := by
  cases keyMeta with
  | absent =>
      have natural := neighbour_map change id none data
      rw [Option.map_none] at natural
      rw [augdsStoreFindAnchor, augdsStoreFindAnchor, natural]
      cases neighbour id none data <;> rfl
  | first => cases data <;> rfl
  | after key =>
      rw [augdsStoreFindAnchor, augdsStoreFindAnchor, List.find?_map]
      have sameTest : (fun node : Entry S => node.id == key) ∘ Entry.map change =
          fun node => node.id == key := rfl
      rw [sameTest]
      cases data.find? fun node => node.id == key <;> rfl

theorem placeInstance_map (keyMeta : KeyMeta) (node : Entry T) (data : List (Entry T)) :
    placeInstance keyMeta (node.map change) (data.map (Entry.map change)) =
      (placeInstance keyMeta node data).map (List.map (Entry.map change)) := by
  have natural := augdsStoreFindAnchor_map change keyMeta node.id data
  rw [placeInstance, placeInstance]
  change augdsStoreFindAnchor keyMeta (node.map change).id _ = _ at natural
  rw [natural]
  cases augdsStoreFindAnchor keyMeta node.id data with
  | none => rfl
  | some found =>
      obtain ⟨anchor, before⟩ := found
      cases anchor with
      | none => rfl
      | some anchor =>
          simp only [Option.map_some]
          by_cases same : anchor.id = node.id
          · have sameMapped : (anchor.map change).id = (node.map change).id := same
            rw [if_pos same, if_pos sameMapped]
            rfl
          · have otherMapped : (anchor.map change).id ≠ (node.map change).id := same
            rw [if_neg same, if_neg otherMapped, List.eraseP_map]
            exact congrArg some (insertBeside_map change anchor.id before node _)

theorem augdsStoreDiffDataUpdate_map (op : DiffOp T) (data : List (Entry T)) :
    augdsStoreDiffDataUpdate (data.map (Entry.map change)) (op.map change) =
      (augdsStoreDiffDataUpdate data op).map (List.map (Entry.map change)) := by
  have found (id : Nat) : (data.map (Entry.map change)).find? (fun node => node.id == id) =
      (data.find? fun node => node.id == id).map (Entry.map change) := List.find?_map
  cases op with
  | insert entry keyMeta =>
      have natural := placeInstance_map change keyMeta entry (data ++ [entry])
      rw [List.map_append, List.map_singleton] at natural
      exact natural
  | delete id =>
      simp only [augdsStoreDiffDataUpdate, DiffOp.map]
      rw [found, List.eraseP_map]
      cases data.find? fun node => node.id == id <;> rfl
  | rename id term =>
      simp only [augdsStoreDiffDataUpdate, DiffOp.map]
      rw [found]
      cases data.find? fun node => node.id == id with
      | none => rfl
      | some node =>
          simp only [Option.map_some, List.map_map]
          congr 1
          apply List.map_congr_left
          intro entry _
          by_cases same : entry.id = id
          · simp [Entry.map, same]
          · simp [Entry.map, same]
  | move id keyMeta =>
      simp only [augdsStoreDiffDataUpdate, DiffOp.map]
      rw [found]
      cases data.find? fun node => node.id == id with
      | none => rfl
      | some node => exact placeInstance_map change keyMeta node data

theorem DiffOp.Edits.map {op : DiffOp T} {data : List (Entry T)} (edits : op.Edits data) :
    (op.map change).Edits (data.map (Entry.map change)) := by
  have ids : (data.map (Entry.map change)).map Entry.id = data.map Entry.id := by
    rw [List.map_map]
    rfl
  cases op with
  | insert entry keyMeta =>
      change _ ∉ (data.map (Entry.map change)).map Entry.id ∧ _
      rw [ids]
      exact edits
  | delete id =>
      change _ ∈ (data.map (Entry.map change)).map Entry.id
      rw [ids]
      exact edits
  | rename id term =>
      obtain ⟨entry, isIn, hasId, isLabel⟩ := edits
      exact ⟨entry.map change, List.mem_map_of_mem isIn, hasId, isLabel⟩
  | move id keyMeta => exact False.elim edits

theorem Indexable.sublist {data other : List (Entry T)} (indexable : Indexable data)
    (within : other.Sublist data) : Indexable other where
  left := {
    keys := (within.map Entry.id).nodup indexable.1.keys
    schema := fun first firstIn second secondIn =>
      indexable.1.schema first (within.subset firstIn) second (within.subset secondIn) }
  right first firstIn second secondIn :=
    indexable.2 first (within.subset firstIn) second (within.subset secondIn)

end Natural

section Level

variable {items : List Item} {op : DiffOp Item}

theorem view_eq (items : List Item) :
    items.map Item.view = (items.map Item.entry).map (Entry.map Item.toAug) := by
  rw [List.map_map]
  rfl

theorem tops_eq (items : List Item) :
    (items.map Item.toAug).map AugTree.top = (items.map Item.view).map Entry.toAug := by
  rw [List.map_map, List.map_map]
  exact List.map_congr_left fun item _ => item.top_toAug

theorem ofTops_tops (trees : List AugTree) :
    (trees.map AugTree.top).map AugTree.ofTop = trees := by
  simp [Function.comp_def]

theorem Indexable.view (indexable : Indexable (items.map Item.entry)) :
    Indexable (items.map Item.view) := by
  apply indexable.of_header
  rw [List.map_map, List.map_map]
  rfl

/-- One change of a list reaches the Augeas siblings that stand for it. -/
theorem listUpdate_stored (edits : op.Edits (items.map Item.entry))
    (indexable : Indexable (items.map Item.entry))
    (indexableNext : ∀ next, listUpdate op items = some next →
      Indexable (next.map Item.entry)) :
    ∃ next, listUpdate op items = some next ∧
      (augdsStoreDiff ⟨items.map Item.view, (items.map Item.toAug).map AugTree.top⟩
        (op.map Item.toAug)).map StoreState.aug =
          some ((next.map Item.toAug).map AugTree.top) := by
  have natural := augdsStoreDiffDataUpdate_map Item.toAug op (items.map Item.entry)
  rw [← view_eq] at natural
  have viewEdits : (op.map Item.toAug).Edits (items.map Item.view) := by
    rw [view_eq]
    exact edits.map Item.toAug
  have viewNext : ∀ next, augdsStoreDiffDataUpdate (items.map Item.view) (op.map Item.toAug) =
      some next → Indexable next := by
    intro next updated
    rw [natural] at updated
    obtain ⟨entries, entriesUpdated, rfl⟩ := Option.map_eq_some_iff.mp updated
    have known := indexableNext (entries.map Item.ofEntry) (by
      rw [listUpdate, entriesUpdated]
      rfl)
    apply known.of_header
    rw [List.map_map, List.map_map, List.map_map]
    rfl
  obtain ⟨next, updated, stored⟩ := augdsStoreDiff_agree viewEdits indexable.view viewNext
  rw [natural] at updated
  obtain ⟨entries, entriesUpdated, rfl⟩ := Option.map_eq_some_iff.mp updated
  refine ⟨entries.map Item.ofEntry, ?_, ?_⟩
  · rw [listUpdate, entriesUpdated]
    rfl
  · have same : (entries.map Item.ofEntry).map Item.view = entries.map (Entry.map Item.toAug) := by
      rw [List.map_map]
      rfl
    rw [tops_eq, stored, Option.map_some, tops_eq, same]

end Level

section Focus

variable {keys : List Nat} {parentPath : List AugPath} {plugYang : List Item → List Item}
  {plugAug : List AugTree → List AugTree}

/-- A place in both trees: a list of entries and the Augeas siblings that stand for it. -/
structure Focus (keys : List Nat) (parentPath : List AugPath)
    (plugYang : List Item → List Item) (plugAug : List AugTree → List AugTree) : Prop where
  items : ∀ items, itemsAt keys (plugYang items) = some items
  update : ∀ change items, updateAt change keys (plugYang items) = (change items).map plugYang
  edit : ∀ edit trees, augAt edit parentPath (plugAug trees) =
    (edit (trees.map AugTree.top)).map fun tops => plugAug (tops.map AugTree.ofTop)

theorem Focus.root : Focus [] [] id id where
  items _ := rfl
  update change items := by
    rw [updateAt]
    exact Option.map_id'.symm
  edit _ _ := rfl

theorem itemsAt_append (keys more : List Nat) (items : List Item) :
    itemsAt (keys ++ more) items = (itemsAt keys items).bind (itemsAt more) := by
  induction keys generalizing items with
  | nil => rfl
  | cons key rest inductionHypothesis =>
      rw [List.cons_append, itemsAt, itemsAt, Option.bind_assoc]
      exact congrArg _ (funext fun item => inductionHypothesis item.nested)

theorem updateAt_append (change : List Item → Option (List Item)) (keys more : List Nat)
    (items : List Item) :
    updateAt change (keys ++ more) items = updateAt (updateAt change more) keys items := by
  induction keys generalizing items with
  | nil => rfl
  | cons key rest inductionHypothesis =>
      rw [List.cons_append, updateAt, updateAt]
      simp only [inductionHypothesis]

theorem augAt_append (edit : List (AugNode AugTree) → Option (List (AugNode AugTree)))
    (paths more : List AugPath) (trees : List AugTree) :
    augAt edit (paths ++ more) trees =
      augAt (fun tops => (augAt edit more (tops.map AugTree.ofTop)).map (List.map AugTree.top))
        paths trees := by
  induction paths generalizing trees with
  | nil =>
      have aroundTops : List.map AugTree.ofTop ∘ List.map AugTree.top = id :=
        funext ofTops_tops
      rw [List.nil_append, augAt.eq_1, ofTops_tops, Option.map_map, aroundTops, Option.map_id]
      rfl
  | cons path rest inductionHypothesis =>
      rw [List.cons_append, augAt.eq_2, augAt.eq_2]
      simp only [inductionHypothesis]

section Inside

variable {front back : List Item} {item : Item} {frontAug backAug : List AugTree} {tree : AugTree}
  {path : AugPath}

theorem find_ne (unique : UniqueKeys ((front ++ item :: back).map Item.entry)) :
    ∀ other ∈ front, (other.id == item.id) = false := by
  rw [List.map_append, List.map_cons] at unique
  intro other isIn
  exact beq_eq_false_iff_ne.mpr
    (unique.id_ne_of_mem_front other.entry (List.mem_map_of_mem isIn))

theorem itemsAt_inside (unique : UniqueKeys ((front ++ item :: back).map Item.entry))
    (nested : List Item) :
    itemsAt [item.id] (front ++ item.withNested nested :: back) = some nested := by
  have absent : front.find? (fun other => other.id == item.id) = none := by
    rw [List.find?_eq_none]
    exact fun other isIn same => absurd (find_ne unique other isIn) (by simp [same])
  have first : (item.withNested nested).id == item.id := beq_self_eq_true item.id
  rw [itemsAt, List.find?_append, absent, List.find?_cons, first]
  rfl

theorem updateAt_inside (unique : UniqueKeys ((front ++ item :: back).map Item.entry))
    (change : List Item → Option (List Item)) (nested : List Item) :
    updateAt change [item.id] (front ++ item.withNested nested :: back) =
      (change nested).map fun nested => front ++ item.withNested nested :: back := by
  have absent : front.findIdx? (fun other => other.id == item.id) = none :=
    List.findIdx?_eq_none_iff.mpr (find_ne unique)
  have first : (item.withNested nested).id == item.id := beq_self_eq_true item.id
  rw [updateAt, List.findIdx?_append, absent, List.findIdx?_cons, if_pos first]
  have here : (front ++ item.withNested nested :: back)[front.length]? =
      some (item.withNested nested) := by simp
  simp only [Option.none_or, Option.map_some, Option.bind_some, Nat.zero_add, here]
  apply congrArg (Option.map · (change nested))
  funext other
  rw [List.set_append_right _ _ (le_refl _), Nat.sub_self]
  rfl

theorem augAt_inside (located : ∀ children,
      path.locate ((frontAug ++ tree.withChildren children :: backAug).map AugTree.top) =
        [frontAug.length])
    (edit : List (AugNode AugTree) → Option (List (AugNode AugTree))) (children : List AugTree) :
    augAt edit [path] (frontAug ++ tree.withChildren children :: backAug) =
      (edit (children.map AugTree.top)).map fun tops =>
        frontAug ++ tree.withChildren (tops.map AugTree.ofTop) :: backAug := by
  have here : (frontAug ++ tree.withChildren children :: backAug)[frontAug.length]? =
      some (tree.withChildren children) := by simp
  have below (other : List AugTree) : (tree.withChildren other).children = other := by
    cases tree
    rfl
  rw [augAt.eq_2, located children]
  simp only [here, Option.bind_some, below, augAt, Option.map_map]
  apply congrArg (Option.map · (edit (children.map AugTree.top)))
  funext tops
  have twice : (tree.withChildren children).withChildren (tops.map AugTree.ofTop) =
      tree.withChildren (tops.map AugTree.ofTop) := by
    cases tree
    rfl
  rw [Function.comp_apply, List.set_append_right _ _ (le_refl _), Nat.sub_self, twice]
  rfl

/-- Going down to the list below one of the entries. -/
theorem Focus.inside (focus : Focus keys parentPath plugYang plugAug)
    (unique : UniqueKeys ((front ++ item :: back).map Item.entry))
    (located : ∀ children,
      path.locate ((frontAug ++ tree.withChildren children :: backAug).map AugTree.top) =
        [frontAug.length]) :
    Focus (keys ++ [item.id]) (parentPath ++ [path])
      (fun nested => plugYang (front ++ item.withNested nested :: back))
      fun children => plugAug (frontAug ++ tree.withChildren children :: backAug) where
  items nested := by
    rw [itemsAt_append, focus.items, Option.bind_some, itemsAt_inside unique]
  update change nested := by
    rw [updateAt_append, focus.update, updateAt_inside unique, Option.map_map]
    rfl
  edit edit children := by
    rw [augAt_append, focus.edit, ofTops_tops, augAt_inside located, Option.map_map, Option.map_map]
    apply congrArg (Option.map · (edit (children.map AugTree.top)))
    funext tops
    exact congrArg plugAug (ofTops_tops _)

end Inside

/-- A change at a place leaves everything else in both trees as it is. -/
theorem storeChange_focus (focus : Focus keys parentPath plugYang plugAug) {items : List Item}
    {op : DiffOp Item} (edits : op.Edits (items.map Item.entry))
    (indexable : Indexable (items.map Item.entry))
    (indexableNext : ∀ next, listUpdate op items = some next →
      Indexable (next.map Item.entry)) :
    ∃ next, listUpdate op items = some next ∧
      storeChange keys parentPath op ⟨plugYang items, plugAug (items.map Item.toAug)⟩ =
        some ⟨plugYang next, plugAug (next.map Item.toAug)⟩ := by
  obtain ⟨next, updated, stored⟩ := listUpdate_stored edits indexable indexableNext
  refine ⟨next, updated, ?_⟩
  rw [storeChange]
  simp only [Option.bind_eq_bind, storeAt, focus.items, focus.update, focus.edit, stored, updated,
    Option.bind_some, Option.map_some, ofTops_tops]

end Focus

end SysrepoAugeas.Store
