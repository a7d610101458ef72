import SysrepoAugeas.Store.EditRun

/-!
# Storing a tree of implicit lists

The node in an entry of an implicit list may have an implicit list below it, to
any depth.  The store walks down the diff with the Augeas path of the parent,
and edits the Augeas siblings below the node that this path matches.
-/

namespace SysrepoAugeas.Store

/-- Tree of Augeas nodes. -/
inductive AugTree where
  | node (label : String) (value : Option String) (children : List AugTree)

/-- Entry of an implicit list, with the entries of the list below its node. -/
inductive Item where
  | item (id : Nat) (schema : SchemaNode) (term : String) (value : Option String)
      (nested : List Item)

/-- Diff data in YANG and the Augeas tree. -/
structure TreeState where
  yang : List Item
  aug : List AugTree

section Nodes

namespace AugTree

def top : AugTree → AugNode AugTree
  | node label value children => ⟨label, ⟨value, children⟩⟩

def ofTop (top : AugNode AugTree) : AugTree :=
  node top.label top.content.value top.content.subtree

def children : AugTree → List AugTree
  | node _ _ children => children

def withChildren : AugTree → List AugTree → AugTree
  | node label value _, children => node label value children

@[simp]
theorem top_ofTop (node : AugNode AugTree) : (ofTop node).top = node := rfl

@[simp]
theorem ofTop_top (tree : AugTree) : ofTop tree.top = tree := by
  cases tree
  rfl

end AugTree

def Content.map {T S : Type} (change : T → S) (content : Content T) : Content S :=
  ⟨content.value, content.subtree.map change⟩

def Entry.map {T S : Type} (change : T → S) (entry : Entry T) : Entry S :=
  ⟨entry.id, entry.schema, entry.term, entry.content.map change⟩

@[simp]
theorem Entry.map_id {T S : Type} (change : T → S) (entry : Entry T) :
    (entry.map change).id = entry.id := rfl

namespace Item

def entry : Item → Entry Item
  | item id schema term value nested => ⟨id, schema, term, ⟨value, nested⟩⟩

def ofEntry (entry : Entry Item) : Item :=
  item entry.id entry.schema entry.term entry.content.value entry.content.subtree

def id (item : Item) : Nat := item.entry.id

def nested (item : Item) : List Item := item.entry.content.subtree

def withNested (item : Item) (nested : List Item) : Item :=
  ofEntry { item.entry with content := ⟨item.entry.content.value, nested⟩ }

mutual
/-- Augeas node that an entry stands for, with everything below it. -/
def toAug : Item → AugTree
  | item id schema term value nested =>
      .node (Entry.label (T := Item) ⟨id, schema, term, ⟨value, nested⟩⟩) value (toAugs nested)

def toAugs : List Item → List AugTree
  | [] => []
  | first :: rest => first.toAug :: toAugs rest
end

/-- Entry with the Augeas nodes below it. -/
def view (item : Item) : Entry AugTree := item.entry.map toAug

@[simp]
theorem entry_ofEntry (entry : Entry Item) : (ofEntry entry).entry = entry := rfl

@[simp]
theorem ofEntry_entry (item : Item) : ofEntry item.entry = item := by
  cases item
  rfl

theorem toAugs_eq (items : List Item) : toAugs items = items.map toAug := by
  induction items with
  | nil => rfl
  | cons first rest inductionHypothesis => rw [toAugs, inductionHypothesis, List.map_cons]

theorem top_toAug (item : Item) : item.toAug.top = item.view.toAug := by
  cases item with
  | item id schema term value nested =>
      rw [toAug, toAugs_eq]
      rfl

theorem withChildren_toAug (item : Item) (nested : List Item) :
    item.toAug.withChildren (nested.map toAug) = (item.withNested nested).toAug := by
  cases item with
  | item id schema term value before =>
      rw [toAug, ← toAugs_eq]
      rfl

@[simp]
theorem withNested_nested (item : Item) : item.withNested item.nested = item := by
  cases item
  rfl

end Item

end Nodes

section Places

/-- Edit of the siblings below the only node that a path matches. -/
def augAt (edit : List (AugNode AugTree) → Option (List (AugNode AugTree))) :
    List AugPath → List AugTree → Option (List AugTree)
  | [], trees => (edit (trees.map AugTree.top)).map (List.map AugTree.ofTop)
  | path :: rest, trees =>
      match path.locate (trees.map AugTree.top) with
      | [position] =>
          trees[position]?.bind fun tree =>
            (augAt edit rest tree.children).map fun children =>
              trees.set position (tree.withChildren children)
      | _ => none

/-- `augds_store_find_inst`: the list below the node with the keys of a path. -/
def itemsAt : List Nat → List Item → Option (List Item)
  | [], items => some items
  | id :: rest, items => (items.find? fun item => item.id == id).bind fun item =>
      itemsAt rest item.nested

/-- Change of the list below a node. -/
def updateAt (change : List Item → Option (List Item)) : List Nat → List Item → Option (List Item)
  | [], items => change items
  | id :: rest, items =>
      (items.findIdx? fun item => item.id == id).bind fun position =>
        items[position]?.bind fun item =>
          (updateAt change rest item.nested).map fun nested =>
            items.set position (item.withNested nested)

def DiffOp.map {T S : Type} (change : T → S) : DiffOp T → DiffOp S
  | insert entry keyMeta => insert (entry.map change) keyMeta
  | delete id => delete id
  | rename id term => rename id term
  | move id keyMeta => move id keyMeta

/-- `augds_store_diff_data_update` for one list. -/
def listUpdate (op : DiffOp Item) (items : List Item) : Option (List Item) :=
  (augdsStoreDiffDataUpdate (items.map Item.entry) op).map (List.map Item.ofEntry)

/-- `augds_store_diff_r` for a diff node, with the Augeas path of its parent and the list that it is
in. -/
def storeAt (parentPath : List AugPath) (items : List Item) (op : DiffOp Item)
    (aug : List AugTree) : Option (List AugTree) :=
  augAt (fun siblings =>
    (augdsStoreDiff ⟨items.map Item.view, siblings⟩ (op.map Item.toAug)).map StoreState.aug)
    parentPath aug

end Places

section Diff

/-- Diff of one list: what is created is created with everything below. -/
inductive DiffTree where
  | create (item : Item) (keyMeta : KeyMeta)
  | delete (id : Nat)
  | rename (id : Nat) (term : String)
  /-- `AUGDS_OP_NONE`: only the list below the node has changes. -/
  | inside (id : Nat) (diffs : List DiffTree)

/-- Change of one node: diff data and Augeas, below the node with these keys and this path. -/
def storeChange (keys : List Nat) (parentPath : List AugPath) (op : DiffOp Item)
    (store : TreeState) : Option TreeState := do
  let items ← itemsAt keys store.yang
  let aug ← storeAt parentPath items op store.aug
  let yang ← updateAt (listUpdate op) keys store.yang
  some ⟨yang, aug⟩

/-- Augeas path of the node with a key, among the nodes below its parent. -/
def storePathAt (keys : List Nat) (id : Nat) (store : TreeState) : Option AugPath := do
  let items ← itemsAt keys store.yang
  let item ← items.find? fun item => item.id == id
  augdsStorePath item.entry (items.map Item.entry)

mutual
/-- `augds_store_diff_r` for a created node: the node itself, and then the nodes below it, which
inherit the operation. -/
def storeCreate (keys : List Nat) (parentPath : List AugPath) (keyMeta : KeyMeta) :
    Item → TreeState → Option TreeState
  | .item id schema term value nested, store => do
      let created ← storeChange keys parentPath
        (.insert ⟨id, schema, term, ⟨value, []⟩⟩ keyMeta) store
      let path ← storePathAt keys id created
      storeCreateAll (keys ++ [id]) (parentPath ++ [path]) nested created

def storeCreateAll (keys : List Nat) (parentPath : List AugPath) :
    List Item → TreeState → Option TreeState
  | [], store => some store
  | item :: rest, store => do
      let next ← storeCreate keys parentPath .absent item store
      storeCreateAll keys parentPath rest next
end

mutual
/-- `augds_store_diff_r` -/
def augdsStoreDiffR (keys : List Nat) (parentPath : List AugPath) :
    DiffTree → TreeState → Option TreeState
  | .create item keyMeta, store => storeCreate keys parentPath keyMeta item store
  | .delete id, store => storeChange keys parentPath (.delete id) store
  | .rename id term, store => storeChange keys parentPath (.rename id term) store
  | .inside id diffs, store => do
      let path ← storePathAt keys id store
      augdsStoreDiffs (keys ++ [id]) (parentPath ++ [path]) diffs store

def augdsStoreDiffs (keys : List Nat) (parentPath : List AugPath) :
    List DiffTree → TreeState → Option TreeState
  | [], store => some store
  | diff :: rest, store => do
      let next ← augdsStoreDiffR keys parentPath diff store
      augdsStoreDiffs keys parentPath rest next
end

end Diff

end SysrepoAugeas.Store
