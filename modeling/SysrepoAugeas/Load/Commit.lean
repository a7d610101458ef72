import SysrepoAugeas.Load.Readback
import SysrepoAugeas.Store.NestedRun

/-!
# Commits and loads

A commit stores a diff of the data that the last load has read.  The keys of
implicit lists are not in the file: whatever a commit has made of them, the
next load numbers the entries from one on, and it reads the rest as it was
committed.
-/

namespace SysrepoAugeas.Load

open SysrepoAugeas.Data
open SysrepoAugeas.Label (Text)
open SysrepoAugeas.Store (Item Entry DiffTree TreeState TreeIndexable FitAll applyAll
  augdsStoreDiffs)

section Renumber

mutual
/-- The entry with another key, and new keys below. -/
def renumberItem (key : Nat) : Item → Item
  | .item _ schema term value nested => .item key schema term value (renumber 1 nested)

/-- Entries with new keys. -/
def renumber (key : Nat) : List Item → List Item
  | [] => []
  | item :: rest => renumberItem key item :: renumber (key + 1) rest
end

mutual
theorem toAug_renumberItem : ∀ (key : Nat) (item : Item),
    (renumberItem key item).toAug = item.toAug
  | key, .item id schema term value nested => by
      rw [renumberItem, Item.toAug, Item.toAug, toAugs_renumber 1 nested]
      rfl

/-- Keys have no counterpart in Augeas. -/
theorem toAugs_renumber : ∀ (key : Nat) (items : List Item),
    Item.toAugs (renumber key items) = Item.toAugs items
  | _, [] => rfl
  | key, item :: rest => by
      rw [renumber, Item.toAugs, Item.toAugs, toAug_renumberItem key item,
        toAugs_renumber (key + 1) rest]
end

mutual
theorem renumberItem_renumberItem : ∀ (key before : Nat) (item : Item),
    renumberItem key (renumberItem before item) = renumberItem key item
  | key, before, .item id schema term value nested => by
      rw [renumberItem, renumberItem, renumberItem, renumber_renumber 1 1 nested]

theorem renumber_renumber : ∀ (key before : Nat) (items : List Item),
    renumber key (renumber before items) = renumber key items
  | _, _, [] => rfl
  | key, before, item :: rest => by
      rw [renumber, renumber, renumber, renumberItem_renumberItem key before item,
        renumber_renumber (key + 1) (before + 1) rest]
end

mutual
theorem itemFits_renumberItem {libyang : Libyang} : ∀ {alternatives : Forest Augnode} (key : Nat)
    (item : Item), ItemFits libyang alternatives item →
    ItemFits libyang alternatives (renumberItem key item)
  | alternatives, key, .item id schema term value nested, fits => by
      obtain ⟨notComment, notScomment⟩ := not_comment_of_itemFits fits
      obtain ⟨augnode, children, found, valid, below, -⟩ := exists_of_itemFits fits
      rw [renumberItem]
      refine itemFits_of_choose notComment notScomment found
        ⟨valid.typed, valid.present, valid.accepted, valid.second⟩ ?_
      cases children with
      | nil =>
          obtain rfl : nested = [] := below
          rfl
      | cons list inner rest => exact itemsFit_renumber 1 nested below

theorem itemsFit_renumber {libyang : Libyang} : ∀ {alternatives : Forest Augnode} (key : Nat)
    (items : List Item), ItemsFit libyang alternatives items →
    ItemsFit libyang alternatives (renumber key items)
  | _, _, [], fits => fits
  | _, key, item :: rest, fits => by
      rw [ItemsFit] at fits
      rw [renumber, ItemsFit]
      exact ⟨itemFits_renumberItem key item fits.1, itemsFit_renumber (key + 1) rest fits.2⟩
end

end Renumber

section Indexable

theorem getElem?_renumber (key : Nat) (items : List Item) (position : Nat) :
    (renumber key items)[position]? = items[position]?.map (renumberItem (key + position)) := by
  induction items generalizing key position with
  | nil => rfl
  | cons item rest inductionHypothesis =>
      cases position with
      | zero => rfl
      | succ position =>
          rw [renumber, List.getElem?_cons_succ, List.getElem?_cons_succ, inductionHypothesis,
            Nat.add_right_comm, Nat.add_assoc]

/-- The entry that an entry with a new key comes from. -/
theorem exists_of_mem_renumber {key : Nat} {items : List Item} {entry : Entry Item}
    (isIn : entry ∈ (renumber key items).map Item.entry) :
    ∃ (position : Nat) (item : Item), items[position]? = some item ∧
      entry.id = key + position ∧ entry.schema = item.entry.schema ∧
      entry.label = item.entry.label := by
  obtain ⟨changed, changedIn, rfl⟩ := List.mem_map.mp isIn
  obtain ⟨position, found⟩ := List.mem_iff_getElem?.mp changedIn
  rw [getElem?_renumber] at found
  obtain ⟨item, isItem, rfl⟩ := Option.map_eq_some_iff.mp found
  refine ⟨position, item, isItem, ?_⟩
  cases item with
  | item id schema term value nested =>
      rw [renumberItem]
      exact ⟨rfl, rfl, rfl⟩

theorem ids_renumber (key : Nat) (items : List Item) :
    (renumber key items).map Item.id = List.range' key items.length := by
  induction items generalizing key with
  | nil => rfl
  | cons item rest inductionHypothesis =>
      rw [renumber, List.map_cons, inductionHypothesis, List.length_cons, List.range'_succ]
      cases item with
      | item id schema term value nested =>
          rw [renumberItem]
          rfl

theorem indexable_renumber {items : List Item}
    (indexable : Store.Indexable (items.map Item.entry)) (key : Nat) :
    Store.Indexable ((renumber key items).map Item.entry) := by
  obtain ⟨⟨keys, schema⟩, unique⟩ := indexable
  have entryIn {position : Nat} {item : Item} (found : items[position]? = some item) :
      item.entry ∈ items.map Item.entry :=
    List.mem_map_of_mem (List.mem_of_getElem? found)
  refine ⟨⟨?_, ?_⟩, ?_⟩
  · rw [Store.UniqueKeys, List.map_map]
    change ((renumber key items).map Item.id).Nodup
    rw [ids_renumber]
    exact List.nodup_range'
  · intro first firstIn second secondIn sameLabel
    obtain ⟨_, item, found, -, isSchema, isLabel⟩ := exists_of_mem_renumber firstIn
    obtain ⟨_, other, otherFound, -, otherSchema, otherLabel⟩ := exists_of_mem_renumber secondIn
    rw [isSchema, otherSchema]
    apply schema _ (entryIn found) _ (entryIn otherFound)
    rw [← isLabel, ← otherLabel, sameLabel]
  · intro first firstIn second secondIn sequential sameLabel
    obtain ⟨position, item, found, isId, isSchema, isLabel⟩ := exists_of_mem_renumber firstIn
    obtain ⟨place, other, otherFound, otherId, -, otherLabel⟩ := exists_of_mem_renumber secondIn
    have sameId : item.entry.id = other.entry.id := by
      apply unique _ (entryIn found) _ (entryIn otherFound)
      · rw [Entry.isSequential, ← isSchema]
        exact sequential
      · rw [← isLabel, ← otherLabel, sameLabel]
    -- unique keys: the two entries were at the same position
    have samePlace : position = place := by
      have bound : position < ((items.map Item.entry).map Entry.id).length := by
        simpa using (List.getElem?_eq_some_iff.mp found).1
      apply (List.getElem?_inj bound keys).mp
      simp [found, otherFound, sameId]
    rw [isId, otherId, samePlace]

mutual
theorem lists_renumberItem : ∀ (key : Nat) (item : Item),
    (∀ list ∈ item.lists, Store.Indexable (list.map Item.entry)) →
    ∀ list ∈ (renumberItem key item).lists, Store.Indexable (list.map Item.entry)
  | key, .item id schema term value nested, indexable => by
      rw [Item.lists, List.forall_mem_cons] at indexable
      rw [renumberItem, Item.lists, List.forall_mem_cons]
      exact ⟨indexable_renumber indexable.1 1, listsBelow_renumber 1 nested indexable.2⟩

theorem listsBelow_renumber : ∀ (key : Nat) (items : List Item),
    (∀ list ∈ Store.listsBelow items, Store.Indexable (list.map Item.entry)) →
    ∀ list ∈ Store.listsBelow (renumber key items), Store.Indexable (list.map Item.entry)
  | _, [], indexable => indexable
  | key, item :: rest, indexable => by
      rw [Store.listsBelow, List.forall_mem_append] at indexable
      rw [renumber, Store.listsBelow, List.forall_mem_append]
      exact ⟨lists_renumberItem key item indexable.1,
        listsBelow_renumber (key + 1) rest indexable.2⟩
end

theorem treeIndexable_renumber {items : List Item} (indexable : TreeIndexable items) (key : Nat) :
    TreeIndexable (renumber key items) := by
  rw [TreeIndexable, List.forall_mem_cons] at indexable ⊢
  exact ⟨indexable_renumber indexable.1 key, listsBelow_renumber key items indexable.2⟩

end Indexable

section Runs

/-- Data as they were loaded, and the Augeas tree of the file: at the start of the plugin, and after
each commit with the load behind it. -/
inductive Committed (libyang : Libyang) (alternatives : Forest Augnode) :
    List Item → List Store.AugTree → Prop where
  | start {items : List Item} (indexable : TreeIndexable items)
      (fits : ItemsFit libyang alternatives items) :
      Committed libyang alternatives (renumber 1 items) (items.map Item.toAug)
  | commit {items : List Item} {aug : List Store.AugTree} {diffs : List DiffTree}
      {stored : TreeState} (before : Committed libyang alternatives items aug)
      (allowed : FitAll diffs items)
      (isStored : augdsStoreDiffs [] [] diffs ⟨items, aug⟩ = some stored)
      (fits : ItemsFit libyang alternatives stored.yang) :
      Committed libyang alternatives (renumber 1 stored.yang) stored.aug

variable {libyang : Libyang} {file : Text} {top list : Augnode} {alternatives : Forest Augnode}
  {items : List Item} {aug : List Store.AugTree}

/-- What holds between commits. -/
structure InStep (libyang : Libyang) (alternatives : Forest Augnode) (items : List Item)
    (aug : List Store.AugTree) : Prop where
  counterpart : aug = items.map Item.toAug
  numbered : renumber 1 items = items
  indexable : TreeIndexable items
  fits : ItemsFit libyang alternatives items

theorem InStep.renumber {items : List Item} (indexable : TreeIndexable items)
    (fits : ItemsFit libyang alternatives items) :
    InStep libyang alternatives (Load.renumber 1 items) (items.map Item.toAug) where
  counterpart := by rw [← Item.toAugs_eq, ← Item.toAugs_eq, toAugs_renumber]
  numbered := renumber_renumber 1 1 items
  indexable := treeIndexable_renumber indexable 1
  fits := itemsFit_renumber 1 items fits

theorem InStep.stored (inStep : InStep libyang alternatives items aug) {diffs : List DiffTree}
    (allowed : FitAll diffs items) :
    ∃ next, applyAll diffs items = some next ∧ TreeIndexable next ∧
      augdsStoreDiffs [] [] diffs ⟨items, aug⟩ = some ⟨next, next.map Item.toAug⟩ := by
  rw [inStep.counterpart]
  exact FitAll.stored diffs allowed Store.Focus.root inStep.indexable

theorem Committed.inStep (committed : Committed libyang alternatives items aug) :
    InStep libyang alternatives items aug := by
  induction committed with
  | start indexable fits => exact InStep.renumber indexable fits
  | commit before allowed isStored fits beforeInStep =>
      obtain ⟨next, -, indexable, storedNext⟩ := beforeInStep.stored allowed
      rw [isStored, Option.some.injEq] at storedNext
      obtain rfl := storedNext
      exact InStep.renumber indexable fits

/-- After every run of commits the file is loaded as the data that were committed, keys without gaps
included, and the next commit succeeds. -/
theorem Committed.loaded (committed : Committed libyang alternatives items aug)
    (isFile : IsFileList libyang file top)
    (level : ListLevel libyang (.cons list alternatives .nil)) {depth : Nat}
    (enough : (Forest.cons top (.cons list alternatives .nil) .nil).size ≤ depth)
    {below : Forest Label} (contents : augTrees below = aug) :
    renumber 1 items = items ∧
      (∃ final, load libyang file depth (.cons top (.cons list alternatives .nil) .nil) below =
          some final ∧
        final.nodes.map DataNode.bare = nodesOf 0 none (fileYang file top list alternatives items) ∧
        ∀ report ∈ final.reports, report.nonProcessed = []) ∧
      ∀ diffs, FitAll diffs items → ∃ next, applyAll diffs items = some next ∧
        augdsStoreDiffs [] [] diffs ⟨items, aug⟩ = some ⟨next, next.map Item.toAug⟩ := by
  have inStep := committed.inStep
  refine ⟨inStep.numbered, ?_, fun diffs allowed => ?_⟩
  · obtain ⟨final, loaded, added⟩ :=
      load_added isFile level enough (contents.trans inStep.counterpart) inStep.fits
    exact ⟨final, loaded, added.nodes, added.reports fun report member => by cases member⟩
  · obtain ⟨next, applied, -, stored⟩ := inStep.stored allowed
    exact ⟨next, applied, stored⟩

/-- A record is put behind the first one, which loses an alias; the file is loaded again. -/
theorem Committed.loaded_records :
    let items := [recordItem 1 "a" [nickItem 1 "y"], recordItem 2 "c" [], recordItem 3 "b" []]
    let aug := items.map Item.toAug
    let below : Forest Label :=
      .cons ⟨0, "record".toList, some "a".toList⟩ (.cons ⟨1, "y".toList, none⟩ .nil .nil)
        (.cons ⟨2, "record".toList, some "c".toList⟩ .nil
          (.cons ⟨3, "record".toList, some "b".toList⟩ .nil .nil))
    renumber 1 items = items ∧
      (∃ final, load permissive [] 5
          (.cons fileList (.cons recordList recordAlternatives .nil) .nil) below = some final ∧
        final.nodes.map DataNode.bare =
          nodesOf 0 none (fileYang [] fileList recordList recordAlternatives items) ∧
        ∀ report ∈ final.reports, report.nonProcessed = []) ∧
      ∀ diffs, FitAll diffs items → ∃ next, applyAll diffs items = some next ∧
        augdsStoreDiffs [] [] diffs ⟨items, aug⟩ = some ⟨next, next.map Item.toAug⟩ := by
  let before := [recordItem 1 "a" [nickItem 1 "x", nickItem 2 "y"], recordItem 2 "b" []]
  let diffs : List DiffTree := [.create (recordItem 3 "c" []) (.after 1), .inside 1 [.delete 1]]
  let next := [recordItem 1 "a" [nickItem 2 "y"], recordItem 3 "c" [], recordItem 2 "b" []]
  have nicked (id : Nat) (name : String) (plain : name.toList.head? ≠ some '#') :
      ItemFits permissive (.cons nick .nil .nil) (nickItem id name) :=
    itemFits_nickItem (fun same => plain (by rw [same]; rfl)) fun same => plain (by rw [same]; rfl)
  have start : Committed permissive recordAlternatives (renumber 1 before)
      (before.map Item.toAug) :=
    .start (by decide) ⟨itemFits_recordItem ⟨nicked 1 "x" (by decide), nicked 2 "y" (by decide),
      trivial⟩, itemFits_recordItem trivial, trivial⟩
  have stored : augdsStoreDiffs [] [] diffs ⟨before, before.map Item.toAug⟩ =
      some ⟨next, next.map Item.toAug⟩ := rfl
  have reached : Committed permissive recordAlternatives (renumber 1 next) (next.map Item.toAug) :=
    .commit start (by decide) stored ⟨itemFits_recordItem ⟨nicked 2 "y" (by decide), trivial⟩,
      itemFits_recordItem trivial, itemFits_recordItem trivial, trivial⟩
  exact Committed.loaded reached (isFileList_fileList []) listLevel_records (by decide) rfl

end Runs

end SysrepoAugeas.Load
