import SysrepoAugeas.Data.Runs
import SysrepoAugeas.Data.Uproot
import SysrepoAugeas.Ynode.Create

/-!
# Splitting nodes with several identifiers

`ay_ynode_node_split` goes through the array in preorder; a node whose key
pattern is a sequence of identifiers gets a copy behind it for every further
identifier, and node and copies become branches of one choice.  Here the tree
is the forest below the root, and the memory of the array is large enough.
-/

namespace SysrepoAugeas.Ynode

open SysrepoAugeas.Data

/-- `AY_YNODE_ROOT_LTREE` -/
def ayYnodeRootLtree : Lnode := 0

def ayChoiceCreated : Nat := 0x800

/-- What is read of the lens of a label, with the number of identifiers in its pattern
(`ay_lense_pattern_idents_count`). -/
structure LabelLens where
  tag : LensTag
  regexp : Option Nat
  identsCount : Nat
  deriving DecidableEq

section Plan

/-- First node of a type, if the siblings begin with one, and the others. -/
def skipType (type : YangType) : Forest AyYnode → Forest AyYnode × Forest AyYnode
  | .nil => (.nil, .nil)
  | .cons node kids rest =>
      if node.type = type then (.cons node kids .nil, rest) else (.nil, .cons node kids rest)

/-- The key and value of a node and its other children (`ay_ynode_inner_nodes`). -/
def innerNodes (children : Forest AyYnode) : Forest AyYnode × Forest AyYnode :=
  let key := skipType .ynKey children
  let value := skipType .ynValue key.2
  (key.1.append value.1, value.2)

/-- Whether the `when` of every node refers to an ancestor or to the child of an ancestor in
`scope`, or to one that the walk finds on the way down. -/
def whenPathsFound (scope : List YnodeId) : Forest AyYnode → Bool
  | .nil => true
  | .cons node kids rest =>
      (node.whenRef == 0 || scope.contains node.whenRef) &&
        whenPathsFound (node.id :: kids.roots.map AyYnode.id ++ scope) kids &&
        whenPathsFound scope rest

/-- `ay_ynode_when_paths_are_valid` with `path_to_root` unset; the children of the subtree
have no ancestor inside of it. -/
def ayYnodeWhenPathsAreValid (subtree : AyYnode) (children : Forest AyYnode) : Bool :=
  whenPathsFound [] children &&
    (children.labels.any (fun node => node.whenRef != 0) ||
      !(subtree :: children.labels).any fun node => node.flags &&& ayWhenTarget != 0)

/-- `ay_ynode_subtree_contains_type` -/
def ayYnodeSubtreeContainsType (children : Forest AyYnode) (type : YangType) : Bool :=
  children.labels.any fun node => node.type == type

/-- `ay_ynode_parent_has_child` -/
def ayYnodeParentHasChild (children : Forest AyYnode) (type : YangType) : Option AyYnode :=
  children.roots.find? fun node => node.type == type

/-- `ay_ynode_copy_data` to a node without data. -/
def ayYnodeCopyData (id : YnodeId) (src : AyYnode) : AyYnode :=
  { AyYnode.blank id with
    type := src.type
    snode := src.snode
    label := src.label
    value := src.value
    choice := src.choice
    ref := src.ref
    flags := src.flags
    minElems := src.minElems
    whenRef := src.whenRef
    whenVal := src.whenVal }

/-- The node in a copy of the subtree with the nodes `block`: its `when` refers to the target
in the subtree, else to the last node. -/
def redirectedIn (block : List AyYnode) (node : AyYnode) : AyYnode :=
  if node.whenRef = 0 then node
  else
    let isTarget : AyYnode → Bool := fun target =>
      target.id == node.whenRef && target.flags &&& ayWhenTarget != 0
    { node with
      whenRef := (((block.find? isTarget).or block.getLast?).map AyYnode.id).getD node.whenRef }

/-- Children with the grouping that their copies use. -/
structure Grouped where
  children : Forest AyYnode
  groupingId : YnodeId
  idcnt : YnodeId
  deriving DecidableEq

/-- The grouping among the inner nodes of a node, created from them if there is none. -/
def groupInner (idcnt : YnodeId) (node : AyYnode) (children : Forest AyYnode)
    (recForm validWhen : Bool) : Grouped :=
  let inner := innerNodes children
  match inner.2 with
  | .nil => ⟨children, 0, idcnt⟩
  | .cons first _ rest =>
      if first.type = .ynUses ∧ rest = .nil then ⟨children, first.ref, idcnt⟩
      else if first.type = .ynGrouping then ⟨children, first.id, idcnt⟩
      else if !recForm && validWhen then
        let grouping := { AyYnode.blank idcnt with type := .ynGrouping, snode := node.snode }
        let uses := { AyYnode.blank (advanceId idcnt 1) with type := .ynUses, ref := idcnt }
        ⟨inner.1.append (.cons grouping inner.2 (.cons uses .nil .nil)), idcnt, advanceId idcnt 2⟩
      else ⟨children, 0, idcnt⟩

/-- A new child in front of others, if it has data to copy. -/
def putFirst (data : Option AyYnode) (children : Forest AyYnode × YnodeId) :
    Forest AyYnode × YnodeId :=
  match data with
  | some data =>
      (.cons (ayYnodeCopyData children.2 data) .nil children.1, advanceId children.2 1)
  | none => children

/-- New siblings behind a node, the last one first. -/
def newSiblings (node : AyYnode) (uses key value : Option AyYnode) :
    Nat → Forest AyYnode → YnodeId → Forest AyYnode × YnodeId
  | 0, siblings, idcnt => (siblings, idcnt)
  | count + 1, siblings, idcnt =>
      let children := putFirst key (putFirst value (putFirst uses (.nil, advanceId idcnt 1)))
      newSiblings node uses key value count
        (.cons (ayYnodeCopyData idcnt node) children.1 siblings) children.2

/-- The same siblings over and over. -/
def copiedSiblings (node : AyYnode) (children : Forest AyYnode) : Nat → Forest AyYnode
  | 0 => .nil
  | count + 1 => .cons node children (copiedSiblings node children count)

/-- A node that was split, before its children are visited. -/
structure SplitNode where
  node : AyYnode
  children : Forest AyYnode
  copies : Forest AyYnode
  idcnt : YnodeId
  deriving DecidableEq

/-- The choice of the node, some value if it had none. -/
def withChoice (node : AyYnode) : AyYnode :=
  if node.choice.isNone then
    { node with choice := some ayYnodeRootLtree, flags := node.flags ||| ayChoiceCreated }
  else node

end Plan

section Pass

variable (lenses : Lnode → LabelLens)

/-- `AY_LABEL_LENS` -/
def ayLabelLens (node : AyYnode) : Option LabelLens := node.label.map lenses

/-- `ay_ynode_rule_node_is_splittable` -/
def ayYnodeRuleNodeIsSplittable (node : AyYnode) (descendants : Nat) : Nat :=
  if node.type = .ynRoot then 0
  else
    match ayLabelLens lenses node with
    | some label =>
        if label.tag = .lKey ∧ node.type ≠ .ynKey ∧ node.type ≠ .ynValue ∧
            1 < label.identsCount then
          (label.identsCount - 1) * descendants + 2 + (label.identsCount - 1)
        else 0
    | none => 0

/-- `ay_ynode_splitted_seq_index` of a node behind its siblings `earlier`. -/
def ayYnodeSplittedSeqIndex (earlier : List AyYnode) (node : AyYnode) : Nat :=
  earlier.countP fun iter =>
    match ayLabelLens lenses iter with
    | some label => some label.regexp == (ayLabelLens lenses node).map LabelLens.regexp
    | none => false

/-- Whether the pass splits the node. -/
def isSplit (earlier : List AyYnode) (node : AyYnode) (children : Forest AyYnode) : Bool :=
  ayYnodeRuleNodeIsSplittable lenses node children.size != 0 &&
    ayYnodeSplittedSeqIndex lenses earlier node == 0

/-- How many nodes the pass puts behind the node. -/
def copyCount (node : AyYnode) : Nat :=
  ((ayLabelLens lenses node).map LabelLens.identsCount).getD 0 - 1

/-- Body of the loop in `ay_ynode_node_split` for a node that it splits. -/
def splitNode (idcnt : YnodeId) (node : AyYnode) (children : Forest AyYnode) : SplitNode :=
  let node := withChoice node
  let recForm := ayYnodeSubtreeContainsType children .ynLeafref
  let validWhen := ayYnodeWhenPathsAreValid node children
  let grouped := groupInner idcnt node children recForm validWhen
  if recForm || !validWhen then
    let copied := children.map (redirectedIn (node :: children.labels))
    ⟨node, children, copiedSiblings node copied (copyCount lenses node), grouped.idcnt⟩
  else
    let uses : Option AyYnode :=
      if grouped.groupingId = 0 then none
      else some { AyYnode.blank 0 with type := .ynUses, ref := grouped.groupingId }
    let copies := newSiblings node uses (ayYnodeParentHasChild grouped.children .ynKey)
      (ayYnodeParentHasChild grouped.children .ynValue) (copyCount lenses node) .nil grouped.idcnt
    ⟨node, grouped.children, copies.1, copies.2⟩

variable (visit : YnodeId → Forest AyYnode → Forest AyYnode × YnodeId)

/-- The copies stand behind a node with their label, so the pass only visits what is below. -/
def visitBelow : YnodeId → Forest AyYnode → Forest AyYnode × YnodeId
  | idcnt, .nil => (.nil, idcnt)
  | idcnt, .cons node kids rest =>
      let kids := visit idcnt kids
      let rest := visitBelow kids.2 rest
      (.cons node kids.1 rest.1, rest.2)

/-- The pass over siblings, with `visit` for what is below each. -/
def splitSiblings : List AyYnode → YnodeId → Forest AyYnode → Forest AyYnode × YnodeId
  | _, idcnt, .nil => (.nil, idcnt)
  | earlier, idcnt, .cons node kids rest =>
      if isSplit lenses earlier node kids then
        let split := splitNode lenses idcnt node kids
        let kids := visit split.idcnt split.children
        let copies := visitBelow visit kids.2 split.copies
        let rest := splitSiblings (copies.1.roots.reverse ++ split.node :: earlier) copies.2 rest
        (.cons split.node kids.1 (copies.1.append rest.1), rest.2)
      else
        let kids := visit idcnt kids
        let rest := splitSiblings (node :: earlier) kids.2 rest
        (.cons node kids.1 rest.1, rest.2)

/-- The pass down to a depth. -/
def splitDown : Nat → YnodeId → Forest AyYnode → Forest AyYnode × YnodeId
  | 0, idcnt, forest => (forest, idcnt)
  | depth + 1, idcnt, forest => splitSiblings lenses (splitDown depth) [] idcnt forest

/-- `ay_ynode_node_split`; no tree is deeper than it has nodes, and a level can get a
grouping below it. -/
def ayYnodeNodeSplit (idcnt : YnodeId) (forest : Forest AyYnode) : Forest AyYnode × YnodeId :=
  splitDown lenses (2 * forest.size) idcnt forest

end Pass

end SysrepoAugeas.Ynode
