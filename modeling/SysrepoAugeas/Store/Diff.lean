import SysrepoAugeas.Store.Augeas

/-!
# Storing one diff node of an implicit list

An implicit list (key `_id`, ordered by user) keeps the order of Augeas
siblings in YANG data: every entry nests one node with a data-path, and the
list itself has no counterpart in Augeas.  This module follows
`augds_store_diff_r` for the diff nodes of one such list: the diff data is
updated, the Augeas path `label[k]` and the anchor path are computed from it,
and `augds_store_diff_apply` edits the Augeas siblings.
-/

namespace SysrepoAugeas.Store

variable {T : Type}

/-- The `augds_ext_node_type`s that have a label in Augeas. -/
inductive ExtNodeType where
  /-- `AUGDS_EXT_NODE_VALUE`: the label is the data-path of the schema node. -/
  | value
  /-- `AUGDS_EXT_NODE_LABEL`: the label is the YANG value, the data-path is `$$`. -/
  | label
  deriving DecidableEq

/-- Schema node nested in the entries of an implicit list. -/
structure SchemaNode where
  name : String
  type : ExtNodeType
  dataPath : String
  /-- The first leaf below the node has type `uint64`. -/
  sequential : Bool
  deriving DecidableEq

/-- Entry of the implicit list together with its only node that has a data-path. -/
structure Entry (T : Type) where
  /-- Value of the key `_id`. -/
  id : Nat
  schema : SchemaNode
  /-- Value of the node, or of its first child if it is a container. -/
  term : String
  content : Content T
  deriving DecidableEq

/-- Augeas label of the node. -/
def Entry.label (entry : Entry T) : String :=
  match entry.schema.type with
  | .value => entry.schema.dataPath
  | .label => entry.term

/-- Augeas node that the entry stands for. -/
def Entry.toAug (entry : Entry T) : AugNode T := ⟨entry.label, entry.content⟩

@[simp]
theorem Entry.toAug_label (entry : Entry T) : entry.toAug.label = entry.label := rfl

/-- A preceding instance is passed over when it carries another label. -/
def Entry.differsFrom (augLabel : Option String) (node : Entry T) : Bool :=
  match augLabel with
  | some label => node.term != label
  | none => false

/-- Counting loop of `augds_store_label_index`. -/
def labelIndexLoop (id : Nat) (augLabel : Option String) :
    List (Entry T) → Nat → Option Nat
  | [], _ => none
  | node :: rest, index =>
      if node.id = id then some index
      else if node.differsFrom augLabel then labelIndexLoop id augLabel rest index
      else labelIndexLoop id augLabel rest (index + 1)

/-- `augds_store_label_index`; index 0 stands for a label without predicate. -/
def augdsStoreLabelIndex (diffNode : Entry T) (augLabel : Option String)
    (diffData : List (Entry T)) : Option Nat :=
  if augLabel.isSome && diffNode.schema.sequential then
    -- sequential Augeas type, has no index
    some 0
  else
    labelIndexLoop diffNode.id augLabel
      (diffData.filter fun node => node.schema == diffNode.schema) 1

def augPathOf (label : String) (index : Nat) : AugPath :=
  ⟨label, if index = 0 then none else some index⟩

/-- Last segment of `augds_store_path`. -/
def augdsStorePath (diffNode : Entry T) (diffData : List (Entry T)) : Option AugPath :=
  match diffNode.schema.type with
  | .value =>
      (augdsStoreLabelIndex diffNode none diffData).map
        (augPathOf diffNode.schema.dataPath)
  | .label =>
      (augdsStoreLabelIndex diffNode (some diffNode.term) diffData).map
        (augPathOf diffNode.term)

/-- Previous entry, else the next one, seen from the entry with key `id`; the
flag says that the entry itself stands before the one returned. -/
def neighbour (id : Nat) : Option (Entry T) → List (Entry T) → Option (Entry T × Bool)
  | _, [] => none
  | previous, node :: rest =>
      if node.id = id then
        match previous with
        | some anchor => some (anchor, false)
        | none => rest.head?.map fun anchor => (anchor, true)
      else
        neighbour id (some node) rest

/-- `augds_store_anchor` for the node nested in an entry of an implicit list. -/
def augdsStoreAnchor (id : Nat) (diffData : List (Entry T)) : Option (Entry T × Bool) :=
  neighbour id none diffData

/-- `augds_store_diff_insert_anchor_path` -/
def augdsStoreDiffInsertAnchorPath (anchor : Entry T) (augBefore : Bool)
    (diffData : List (Entry T)) (augPath : AugPath) : Option AugPath :=
  (augdsStorePath anchor diffData).map fun anchorPath =>
    -- labels are the same meaning the generated index is one higher than it should
    if augBefore && augPath.label == anchorPath.label then augPath else anchorPath

/-- Metadata `yang:key` of a diff node of a user-ordered list. -/
inductive KeyMeta where
  | absent
  | first
  | after (key : Nat)
  deriving DecidableEq

/-- `augds_store_find_anchor` -/
def augdsStoreFindAnchor (keyMeta : KeyMeta) (id : Nat) (diffData : List (Entry T)) :
    Option (Option (Entry T) × Bool) :=
  match keyMeta with
  | .absent =>
      match neighbour id none diffData with
      | some (anchor, before) => some (some anchor, before)
      | none => some (none, false)
  | .first => some (diffData.head?, true)
  | .after key =>
      (diffData.find? fun node => node.id == key).map fun anchor => (some anchor, false)

/-- `lyd_insert_before` and `lyd_insert_after` -/
def insertBeside (anchor : Nat) (before : Bool) (node : Entry T) :
    List (Entry T) → List (Entry T)
  | [] => []
  | head :: rest =>
      if head.id = anchor then
        if before then node :: head :: rest else head :: node :: rest
      else
        head :: insertBeside anchor before node rest

/-- Move an instance that is already in the data to the place its metadata names. -/
def placeInstance (keyMeta : KeyMeta) (node : Entry T) (diffData : List (Entry T)) :
    Option (List (Entry T)) :=
  match augdsStoreFindAnchor keyMeta node.id diffData with
  | some (some anchor, before) =>
      -- may already be at the right place
      if anchor.id = node.id then some diffData
      else
        some (insertBeside anchor.id before node
          (diffData.eraseP fun other => other.id == node.id))
  | some (none, _) => some diffData
  | none => none

/-- Change of one entry that a diff of the list describes. -/
inductive DiffOp (T : Type) where
  | insert (entry : Entry T) (keyMeta : KeyMeta)
  | delete (id : Nat)
  | rename (id : Nat) (term : String)
  | move (id : Nat) (keyMeta : KeyMeta)

/-- `augds_store_diff_data_update`; for a move the list instance is processed
(as `AUGDS_OP_REPLACE`) before its nested node. -/
def augdsStoreDiffDataUpdate (diffData : List (Entry T)) :
    DiffOp T → Option (List (Entry T))
  | .insert entry keyMeta => placeInstance keyMeta entry (diffData ++ [entry])
  | .delete id =>
      (diffData.find? fun node => node.id == id).map fun _ =>
        diffData.eraseP fun node => node.id == id
  | .rename id term =>
      (diffData.find? fun node => node.id == id).map fun _ =>
        diffData.map fun node => if node.id = id then { node with term := term } else node
  | .move id keyMeta =>
      (diffData.find? fun node => node.id == id).bind fun node =>
        placeInstance keyMeta node diffData

/-- `augds_store_move_direction`: the keys are compared as `uint32_t`. -/
def augdsStoreMoveDirection (node anchor : Entry T) : Option Bool :=
  if node.id % 2 ^ 32 = anchor.id % 2 ^ 32 then none
  else some (decide (anchor.id % 2 ^ 32 < node.id % 2 ^ 32))

/-- `augds_store_diff_path_next_idx` needs a path with a predicate. -/
def augdsStoreDiffPathNextIdx (path : AugPath) : Option AugPath :=
  path.index.map fun index => ⟨path.label, some (index + 1)⟩

/-- `enum augds_diff_op` -/
inductive AugdsDiffOp where
  | unknown
  | insert
  | delete
  | replace
  | rename
  | move
  | none
  deriving DecidableEq

/-- `augds_store_diff_apply` -/
def augdsStoreDiffApply (op : AugdsDiffOp) (augPath : AugPath) (anchorPath : Option AugPath)
    (augBefore : Bool) (augValue : Option String) (augMovedBack : Bool)
    (aug : List (AugNode T)) : Option (List (AugNode T)) :=
  match op with
  | .insert =>
      match anchorPath with
      | some anchor => (augInsert anchor augPath.label augBefore aug).bind (augSet augPath augValue)
      | none => augSet augPath augValue aug
  | .replace => augSet augPath augValue aug
  | .rename => anchorPath.map fun anchor => augRename anchor augPath.label aug
  | .move => do
      let anchor ← anchorPath
      let inserted ← augInsert anchor augPath.label augBefore aug
      let augPath2 ← augdsStoreDiffPathNextIdx augPath
      augMv (if augMovedBack then augPath2 else augPath)
        (if augMovedBack then augPath else augPath2) inserted
  | .delete =>
      match augRm augPath aug with
      | (0, _) => none
      | (_, remaining) => some remaining
  | .none => some aug
  | .unknown => none

/-- Diff data in YANG and the Augeas siblings it is stored to. -/
structure StoreState (T : Type) where
  yang : List (Entry T)
  aug : List (AugNode T)
  deriving DecidableEq

/-- `augds_store_diff_r` on one diff node of the list. -/
def augdsStoreDiff (store : StoreState T) (op : DiffOp T) : Option (StoreState T) :=
  match op with
  | .insert entry _ => do
      -- diff data is updated BEFORE the Augeas path (index) is generated
      let diffData ← augdsStoreDiffDataUpdate store.yang op
      let augPath ← augdsStorePath entry diffData
      let aug ←
        match augdsStoreAnchor entry.id diffData with
        | some (anchor, augBefore) => do
            let anchorPath ← augdsStoreDiffInsertAnchorPath anchor augBefore diffData augPath
            augdsStoreDiffApply .insert augPath (some anchorPath) augBefore
              entry.content.value false store.aug
        | none =>
            augdsStoreDiffApply .insert augPath none false entry.content.value false store.aug
      let aug ← augFill augPath entry.content.subtree aug
      some ⟨diffData, aug⟩
  | .delete id => do
      let diffNode ← store.yang.find? fun node => node.id == id
      let augPath ← augdsStorePath diffNode store.yang
      let aug ← augdsStoreDiffApply .delete augPath none false none false store.aug
      -- diff data is updated AFTER the Augeas path (index) is generated
      let diffData ← augdsStoreDiffDataUpdate store.yang op
      some ⟨diffData, aug⟩
  | .rename id term => do
      let dataNode ← store.yang.find? fun node => node.id == id
      let anchorPath ← augdsStorePath dataNode store.yang
      let diffData ← augdsStoreDiffDataUpdate store.yang op
      let augPath ← augdsStorePath { dataNode with term := term } diffData
      let aug ← augdsStoreDiffApply .rename augPath (some anchorPath) false none false store.aug
      some ⟨diffData, aug⟩
  | .move id _ => do
      let diffData ← augdsStoreDiffDataUpdate store.yang op
      let dataNode ← diffData.find? fun node => node.id == id
      let augPath ← augdsStorePath dataNode diffData
      let (anchor, augBefore) ← augdsStoreAnchor id diffData
      let anchorPath ← augdsStoreDiffInsertAnchorPath anchor augBefore diffData augPath
      let augMovedBack ← augdsStoreMoveDirection dataNode anchor
      let aug ← augdsStoreDiffApply .move augPath (some anchorPath) augBefore none
        augMovedBack store.aug
      some ⟨diffData, aug⟩

/-- The diff nodes are processed one by one. -/
def augdsStoreRun (store : StoreState T) : List (DiffOp T) → Option (StoreState T)
  | [] => some store
  | op :: rest => (augdsStoreDiff store op).bind fun next => augdsStoreRun next rest

end SysrepoAugeas.Store
