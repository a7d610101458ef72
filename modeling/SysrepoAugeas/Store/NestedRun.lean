import SysrepoAugeas.Store.Focus

/-!
# YANG and Augeas in step at every depth

A created node comes with everything below it, and a diff goes down to the
lists that have changes.  After each of its nodes the Augeas tree is the
counterpart of the diff data.
-/

namespace SysrepoAugeas.Store

section Create

mutual
/-- The lists of entries in the node of an entry. -/
def Item.lists : Item → List (List Item)
  | .item _ _ _ _ nested => nested :: listsBelow nested

def listsBelow : List Item → List (List Item)
  | [] => []
  | first :: rest => first.lists ++ listsBelow rest
end

theorem mem_listsBelow {list items : List Item} :
    list ∈ listsBelow items ↔ ∃ item ∈ items, list ∈ item.lists := by
  induction items with
  | nil => simp [listsBelow]
  | cons first rest inductionHypothesis => simp [listsBelow, inductionHypothesis]

theorem Item.lists_eq (item : Item) : item.lists = item.nested :: listsBelow item.nested := by
  cases item with
  | item id schema term value nested =>
      rw [Item.lists]
      rfl

/-- All lists of a tree are indexable. -/
def TreeIndexable (items : List Item) : Prop :=
  ∀ list ∈ items :: listsBelow items, Indexable (list.map Item.entry)

instance (items : List Item) : Decidable (TreeIndexable items) :=
  inferInstanceAs (Decidable (∀ list ∈ items :: listsBelow items, Indexable (list.map Item.entry)))

theorem treeIndexable_iff {items : List Item} :
    TreeIndexable items ↔ Indexable (items.map Item.entry) ∧
      ∀ item ∈ items, TreeIndexable item.nested := by
  rw [TreeIndexable, List.forall_mem_cons]
  apply and_congr_right
  intro _
  simp only [mem_listsBelow, Item.lists_eq, TreeIndexable]
  exact ⟨fun all item isIn list inLists => all list ⟨item, isIn, inLists⟩,
    fun all list ⟨item, isIn, inLists⟩ => all item isIn list inLists⟩

theorem TreeIndexable.level {items : List Item} (indexable : TreeIndexable items) :
    Indexable (items.map Item.entry) := (treeIndexable_iff.mp indexable).1

theorem TreeIndexable.nested {items : List Item} (indexable : TreeIndexable items) :
    ∀ item ∈ items, TreeIndexable item.nested := (treeIndexable_iff.mp indexable).2

theorem TreeIndexable.sublist {items other : List Item} (indexable : TreeIndexable items)
    (within : other.Sublist items) : TreeIndexable other :=
  treeIndexable_iff.mpr ⟨indexable.level.sublist (within.map Item.entry), fun item isIn =>
    indexable.nested item (within.subset isIn)⟩

/-- The place of a created node depends on its metadata and its key. -/
theorem listUpdate_insert {items : List Item} {id : Nat} {keyMeta : KeyMeta}
    (unique : UniqueKeys (items.map Item.entry)) (fresh : id ∉ items.map Item.id)
    (known : ∀ key, keyMeta = .after key → key ∈ items.map Item.id) :
    ∃ front back, items = front ++ back ∧ ∀ item : Item, item.id = id →
      listUpdate (.insert item.entry keyMeta) items = some (front ++ item :: back) := by
  have keys (item : Item) (hasId : item.id = id) :
      UniqueKeys (items.map Item.entry ++ item.entry :: []) := by
    have shifted : UniqueKeys (item.entry :: items.map Item.entry) := by
      refine List.nodup_cons.mpr ⟨?_, unique⟩
      rw [← hasId] at fresh
      rw [List.map_map]
      exact fresh
    exact shifted.of_perm (List.perm_append_singleton _ _)
  cases keyMeta with
  | absent =>
      refine ⟨items, [], (List.append_nil items).symm, fun item hasId => ?_⟩
      rw [listUpdate, augdsStoreDiffDataUpdate, placeInstance_absent (keys item hasId)]
      simp [Function.comp_def]
  | first =>
      refine ⟨[], items, rfl, fun item hasId => ?_⟩
      rw [listUpdate, augdsStoreDiffDataUpdate, placeInstance_first (keys item hasId)]
      simp [Function.comp_def]
  | after key =>
      obtain ⟨anchor, anchorIn, rfl⟩ := List.mem_map.mp (known key rfl)
      obtain ⟨front, back, rfl⟩ := List.append_of_mem anchorIn
      refine ⟨front ++ [anchor], back, by simp, fun item hasId => ?_⟩
      have others : (front ++ anchor :: back).map Item.entry ++ [] =
          front.map Item.entry ++ anchor.entry :: back.map Item.entry := by simp
      have placed := placeInstance_after (keys item hasId) others
      change placeInstance (.after anchor.id) _ _ = _ at placed
      rw [listUpdate, augdsStoreDiffDataUpdate, placed]
      simp [Function.comp_def]

/-- The path of an entry matches the node at its place, whatever is below that node. -/
theorem storePath_located {front back : List Item} {item : Item}
    (indexable : Indexable ((front ++ item :: back).map Item.entry)) :
    ∃ path, augdsStorePath item.entry ((front ++ item :: back).map Item.entry) = some path ∧
      ∀ children, path.locate ((front.map Item.toAug ++ item.toAug.withChildren children ::
        back.map Item.toAug).map AugTree.top) = [(front.map Item.toAug).length] := by
  have viewIndexable := indexable.view
  rw [List.map_append, List.map_cons] at indexable viewIndexable
  refine ⟨_, by rw [List.map_append, List.map_cons, augdsStorePath_split indexable.1], ?_⟩
  intro children
  have samePath : item.entry.pathAfter (front.map Item.entry) =
      item.view.pathAfter (front.map Item.view) := by
    have sameCount : (front.map Item.entry).countP item.entry.sameLabel =
        (front.map Item.view).countP item.view.sameLabel := by
      rw [List.countP_map, List.countP_map]
      rfl
    rw [Entry.pathAfter, Entry.pathAfter, sameCount]
    rfl
  have labelled : (item.toAug.withChildren children).top.label = item.view.label := by
    cases item with
    | item id schema term value nested =>
        rw [Item.toAug]
        rfl
  have located := locate_at_entry viewIndexable.1 viewIndexable.2 labelled
  rw [samePath, List.map_append, List.map_cons, tops_eq, tops_eq, located]
  simp

theorem storePathAt_focus {keys : List Nat} {parentPath : List AugPath}
    {plugYang : List Item → List Item} {plugAug : List AugTree → List AugTree}
    (focus : Focus keys parentPath plugYang plugAug) {front back : List Item} {item : Item}
    (indexable : Indexable ((front ++ item :: back).map Item.entry)) (aug : List AugTree) :
    ∃ path, storePathAt keys item.id ⟨plugYang (front ++ item :: back), aug⟩ = some path ∧
      Focus (keys ++ [item.id]) (parentPath ++ [path])
        (fun nested => plugYang (front ++ item.withNested nested :: back))
        fun children => plugAug (front.map Item.toAug ++ item.toAug.withChildren children ::
          back.map Item.toAug) := by
  obtain ⟨path, stored, located⟩ := storePath_located indexable
  refine ⟨path, ?_, focus.inside indexable.1.keys located⟩
  have absent : front.find? (fun other => other.id == item.id) = none := by
    rw [List.find?_eq_none]
    exact fun other isIn same => absurd (find_ne indexable.1.keys other isIn) (by simp [same])
  have found : (front ++ item :: back).find? (fun other => other.id == item.id) = some item := by
    rw [List.find?_append, absent, List.find?_cons, beq_self_eq_true]
    rfl
  simp only [storePathAt, Option.bind_eq_bind, focus.items, Option.bind_some, found, stored]

mutual
/-- A node is created with everything below it. -/
theorem storeCreate_focus : ∀ (item : Item) {keys : List Nat} {parentPath : List AugPath}
    {plugYang : List Item → List Item} {plugAug : List AugTree → List AugTree}
    {keyMeta : KeyMeta} {items : List Item}, Focus keys parentPath plugYang plugAug →
    (DiffOp.insert item.entry keyMeta).Edits (items.map Item.entry) →
    Indexable (items.map Item.entry) →
    (∀ next, listUpdate (.insert item.entry keyMeta) items = some next → TreeIndexable next) →
    ∃ next, listUpdate (.insert item.entry keyMeta) items = some next ∧
      storeCreate keys parentPath keyMeta item
        ⟨plugYang items, plugAug (items.map Item.toAug)⟩ =
          some ⟨plugYang next, plugAug (next.map Item.toAug)⟩
  | .item id schema term value nested, keys, parentPath, plugYang, plugAug, keyMeta, items, focus,
      edits, indexable, indexableNext => by
      have bareEdits : (DiffOp.insert (Item.item id schema term value []).entry keyMeta).Edits
          (items.map Item.entry) := edits
      obtain ⟨fresh, known⟩ := edits
      rw [List.map_map] at fresh known
      obtain ⟨front, back, rfl, placed⟩ := listUpdate_insert indexable.1.keys fresh known
      have updated := placed (.item id schema term value nested) rfl
      have tree := indexableNext _ updated
      have bareIndexable :
          Indexable ((front ++ .item id schema term value [] :: back).map Item.entry) :=
        tree.level.of_header (by simp [Entry.header, Item.entry])
      have bareUpdated := placed (.item id schema term value []) rfl
      obtain ⟨created, createdUpdated, stored⟩ := storeChange_focus focus bareEdits indexable
        fun next nextUpdated => by
          rw [bareUpdated] at nextUpdated
          exact Option.some.inj nextUpdated ▸ bareIndexable
      rw [bareUpdated] at createdUpdated
      obtain rfl := Option.some.inj createdUpdated
      obtain ⟨path, pathAt, inside⟩ := storePathAt_focus focus bareIndexable
        (plugAug ((front ++ .item id schema term value [] :: back).map Item.toAug))
      have below : TreeIndexable ([] ++ nested) :=
        tree.nested (.item id schema term value nested) (by simp)
      have all := storeCreateAll_focus nested inside below
      simp only [Item.withChildren_toAug] at all
      refine ⟨_, updated, ?_⟩
      have whole : front.map Item.toAug ++ (Item.item id schema term value nested).toAug ::
          back.map Item.toAug =
          (front ++ .item id schema term value nested :: back).map Item.toAug := by simp
      have bare : front.map Item.toAug ++ (Item.item id schema term value []).toAug ::
          back.map Item.toAug =
          (front ++ .item id schema term value [] :: back).map Item.toAug := by simp
      rw [← whole]
      rw [← bare] at stored pathAt
      change storeChange keys parentPath (.insert ⟨id, schema, term, ⟨value, []⟩⟩ keyMeta) _ = _
        at stored
      change storePathAt keys id _ = _ at pathAt
      rw [storeCreate]
      simp only [Option.bind_eq_bind, stored, Option.bind_some, pathAt]
      exact all

theorem storeCreateAll_focus : ∀ (rest : List Item) {keys : List Nat} {parentPath : List AugPath}
    {plugYang : List Item → List Item} {plugAug : List AugTree → List AugTree}
    {done : List Item}, Focus keys parentPath plugYang plugAug → TreeIndexable (done ++ rest) →
    storeCreateAll keys parentPath rest ⟨plugYang done, plugAug (done.map Item.toAug)⟩ =
      some ⟨plugYang (done ++ rest), plugAug ((done ++ rest).map Item.toAug)⟩
  | [], keys, parentPath, plugYang, plugAug, done, _, _ => by
      rw [storeCreateAll, List.append_nil]
  | item :: rest, keys, parentPath, plugYang, plugAug, done, focus, indexable => by
      have regroup : done ++ item :: rest = done ++ [item] ++ rest := by simp
      have doneIndexable := indexable.sublist (List.sublist_append_left done (item :: rest))
      rw [regroup] at indexable ⊢
      have next := indexable.sublist (List.sublist_append_left (done ++ [item]) rest)
      have keysNext := next.level.1.keys
      rw [List.map_append, List.map_cons, List.map_nil] at keysNext
      have edits : (DiffOp.insert item.entry .absent).Edits (done.map Item.entry) := by
        refine ⟨fun isIn => ?_, by simp⟩
        obtain ⟨other, otherIn, same⟩ := List.mem_map.mp isIn
        exact keysNext.id_ne_of_mem_front other otherIn same
      have appended : listUpdate (.insert item.entry .absent) done = some (done ++ [item]) := by
        rw [listUpdate, augdsStoreDiffDataUpdate, placeInstance_absent keysNext]
        simp [Function.comp_def]
      obtain ⟨reached, reachedIs, created⟩ := storeCreate_focus item focus edits
        doneIndexable.level fun reached reachedIs => by
          rw [appended] at reachedIs
          exact Option.some.inj reachedIs ▸ next
      rw [appended] at reachedIs
      obtain rfl := Option.some.inj reachedIs
      rw [storeCreateAll, created]
      exact storeCreateAll_focus rest focus indexable
end

end Create

section Runs

mutual
/-- What a diff means for the YANG data. -/
def DiffTree.apply : DiffTree → List Item → Option (List Item)
  | .create item keyMeta, items => listUpdate (.insert item.entry keyMeta) items
  | .delete id, items => listUpdate (.delete id) items
  | .rename id term, items => listUpdate (.rename id term) items
  | .inside id diffs, items => updateAt (applyAll diffs) [id] items

def applyAll : List DiffTree → List Item → Option (List Item)
  | [], items => some items
  | diff :: rest, items => (diff.apply items).bind (applyAll rest)
end

/-- A change that a list allows, and that leaves a tree with indexable lists. -/
structure Allowed (op : DiffOp Item) (items : List Item) : Prop where
  edits : op.Edits (items.map Item.entry)
  after : ∀ next, listUpdate op items = some next → TreeIndexable next

instance (op : DiffOp Item) (items : List Item) : Decidable (Allowed op items) :=
  have : Decidable (∀ next, listUpdate op items = some next → TreeIndexable next) :=
    match listUpdate op items with
    | none => isTrue (by simp)
    | some next => decidable_of_iff (TreeIndexable next) (by simp)
  decidable_of_iff (op.Edits (items.map Item.entry) ∧
    ∀ next, listUpdate op items = some next → TreeIndexable next)
    ⟨fun parts => ⟨parts.1, parts.2⟩, fun allowed => ⟨allowed.edits, allowed.after⟩⟩

mutual
/-- All changes of a diff are allowed where they are made. -/
def DiffTree.Fits : DiffTree → List Item → Prop
  | .create item keyMeta, items => Allowed (.insert item.entry keyMeta) items
  | .delete id, items => Allowed (.delete id) items
  | .rename id term, items => Allowed (.rename id term) items
  | .inside id diffs, items =>
      id ∈ items.map Item.id ∧ ∀ item ∈ items, item.id = id → FitAll diffs item.nested

def FitAll : List DiffTree → List Item → Prop
  | [], _ => True
  | diff :: rest, items => diff.Fits items ∧ ∀ next, diff.apply items = some next → FitAll rest next
end

mutual
def DiffTree.decideFits : (diff : DiffTree) → (items : List Item) → Decidable (diff.Fits items)
  | .create item keyMeta, items =>
      decidable_of_iff (Allowed (.insert item.entry keyMeta) items) (by rw [DiffTree.Fits])
  | .delete id, items => decidable_of_iff (Allowed (.delete id) items) (by rw [DiffTree.Fits])
  | .rename id term, items =>
      decidable_of_iff (Allowed (.rename id term) items) (by rw [DiffTree.Fits])
  | .inside id diffs, items =>
      have (item : Item) : Decidable (FitAll diffs item.nested) := decideFitAll diffs item.nested
      decidable_of_iff (id ∈ items.map Item.id ∧
        ∀ item ∈ items, item.id = id → FitAll diffs item.nested) (by rw [DiffTree.Fits])

def decideFitAll : (diffs : List DiffTree) → (items : List Item) → Decidable (FitAll diffs items)
  | [], items => isTrue (by rw [FitAll]; trivial)
  | diff :: rest, items =>
      have := diff.decideFits items
      have : Decidable (∀ next, diff.apply items = some next → FitAll rest next) :=
        match diff.apply items with
        | none => isTrue (by simp)
        | some next =>
            have := decideFitAll rest next
            decidable_of_iff (FitAll rest next) (by simp)
      decidable_of_iff (diff.Fits items ∧ ∀ next, diff.apply items = some next → FitAll rest next)
        (by rw [FitAll])
end

instance (diffs : List DiffTree) (items : List Item) : Decidable (FitAll diffs items) :=
  decideFitAll diffs items

theorem Allowed.stored {keys : List Nat} {parentPath : List AugPath}
    {plugYang : List Item → List Item} {plugAug : List AugTree → List AugTree}
    {op : DiffOp Item} {items : List Item} (allowed : Allowed op items)
    (focus : Focus keys parentPath plugYang plugAug) (tree : TreeIndexable items) :
    ∃ next, listUpdate op items = some next ∧ TreeIndexable next ∧
      storeChange keys parentPath op ⟨plugYang items, plugAug (items.map Item.toAug)⟩ =
        some ⟨plugYang next, plugAug (next.map Item.toAug)⟩ := by
  obtain ⟨next, updated, stored⟩ := storeChange_focus focus allowed.edits tree.level
    fun next updated => (allowed.after next updated).level
  exact ⟨next, updated, allowed.after next updated, stored⟩

theorem TreeIndexable.withNested {front back nested : List Item} {item : Item}
    (tree : TreeIndexable (front ++ item :: back)) (inside : TreeIndexable nested) :
    TreeIndexable (front ++ item.withNested nested :: back) := by
  refine treeIndexable_iff.mpr ⟨tree.level.of_header ?_, ?_⟩
  · rw [List.map_append, List.map_append, List.map_append, List.map_append]
    rfl
  · intro other isIn
    obtain inFront | isHere | inBack :
        other ∈ front ∨ other = item.withNested nested ∨ other ∈ back := by simpa using isIn
    · exact tree.nested other (by simp [inFront])
    · rw [isHere]
      exact inside
    · exact tree.nested other (by simp [inBack])

mutual
theorem DiffTree.Fits.stored : ∀ (diff : DiffTree) {keys : List Nat} {parentPath : List AugPath}
    {plugYang : List Item → List Item} {plugAug : List AugTree → List AugTree}
    {items : List Item}, diff.Fits items → Focus keys parentPath plugYang plugAug →
    TreeIndexable items →
    ∃ next, diff.apply items = some next ∧ TreeIndexable next ∧
      augdsStoreDiffR keys parentPath diff ⟨plugYang items, plugAug (items.map Item.toAug)⟩ =
        some ⟨plugYang next, plugAug (next.map Item.toAug)⟩
  | .create item keyMeta, _, _, _, _, _, fits, focus, tree => by
      rw [DiffTree.Fits] at fits
      obtain ⟨next, updated, stored⟩ :=
        storeCreate_focus item focus fits.edits tree.level fits.after
      refine ⟨next, ?_, fits.after next updated, ?_⟩
      · rw [DiffTree.apply, updated]
      · rw [augdsStoreDiffR, stored]
  | .delete id, _, _, _, _, _, fits, focus, tree => by
      rw [DiffTree.Fits] at fits
      obtain ⟨next, updated, after, stored⟩ := fits.stored focus tree
      refine ⟨next, ?_, after, ?_⟩
      · rw [DiffTree.apply, updated]
      · rw [augdsStoreDiffR, stored]
  | .rename id term, _, _, _, _, _, fits, focus, tree => by
      rw [DiffTree.Fits] at fits
      obtain ⟨next, updated, after, stored⟩ := fits.stored focus tree
      refine ⟨next, ?_, after, ?_⟩
      · rw [DiffTree.apply, updated]
      · rw [augdsStoreDiffR, stored]
  | .inside id diffs, keys, parentPath, plugYang, plugAug, items, fits, focus, tree => by
      rw [DiffTree.Fits] at fits
      obtain ⟨known, fitsBelow⟩ := fits
      obtain ⟨item, isIn, rfl⟩ := List.mem_map.mp known
      obtain ⟨front, back, rfl⟩ := List.append_of_mem isIn
      obtain ⟨path, pathAt, inside⟩ := storePathAt_focus focus tree.level
        (plugAug ((front ++ item :: back).map Item.toAug))
      obtain ⟨nested, applied, after, stored⟩ := FitAll.stored diffs (fitsBelow item isIn rfl)
        inside (tree.nested item isIn)
      refine ⟨front ++ item.withNested nested :: back, ?_, tree.withNested after, ?_⟩
      · have changed := updateAt_inside tree.level.1.keys (applyAll diffs) item.nested
        rw [applied, item.withNested_nested] at changed
        rw [DiffTree.apply, changed]
        rfl
      · simp only [Item.withChildren_toAug, Item.withNested_nested] at stored
        rw [augdsStoreDiffR, pathAt, Option.bind_eq_bind, Option.bind_some]
        simpa using stored

theorem FitAll.stored : ∀ (diffs : List DiffTree) {keys : List Nat} {parentPath : List AugPath}
    {plugYang : List Item → List Item} {plugAug : List AugTree → List AugTree}
    {items : List Item}, FitAll diffs items → Focus keys parentPath plugYang plugAug →
    TreeIndexable items →
    ∃ next, applyAll diffs items = some next ∧ TreeIndexable next ∧
      augdsStoreDiffs keys parentPath diffs ⟨plugYang items, plugAug (items.map Item.toAug)⟩ =
        some ⟨plugYang next, plugAug (next.map Item.toAug)⟩
  | [], _, _, _, _, items, _, _, tree => ⟨items, by rw [applyAll], tree, by rw [augdsStoreDiffs]⟩
  | diff :: rest, _, _, _, _, items, fits, focus, tree => by
      rw [FitAll] at fits
      obtain ⟨middle, applied, after, stored⟩ := DiffTree.Fits.stored diff fits.1 focus tree
      obtain ⟨next, appliedRest, afterRest, storedRest⟩ :=
        FitAll.stored rest (fits.2 middle applied) focus after
      refine ⟨next, ?_, afterRest, ?_⟩
      · rw [applyAll, applied, Option.bind_some, appliedRest]
      · rw [augdsStoreDiffs, stored, Option.bind_eq_bind, Option.bind_some, storedRest]
end

end Runs

end SysrepoAugeas.Store
