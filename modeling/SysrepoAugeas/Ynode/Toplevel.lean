import SysrepoAugeas.Data.Sharing
import SysrepoAugeas.Ynode.Delete
import SysrepoAugeas.Ynode.MergeCases

/-!
# Groupings for repeated subtrees

`ay_ynode_set_ref` marks subtrees that are equal with the id of the first one,
`ay_ynode_create_groupings_toplevel` puts a marked subtree into a grouping and
a uses in place of the others.  The tree is the ordinary tree of the array, an
index is the position in preorder, and the edit primitives do to the tree what
they stand for; the memory of the array is large enough.  `none` stands for a
failed assertion or for an access through a null pointer.
-/

namespace SysrepoAugeas.Ynode

open SysrepoAugeas.Data

def ayGroupingChildren : Nat := 0x040

section Access

/-- The node at an index. -/
def nodeAt (forest : Forest AyYnode) (index : Nat) : Option AyYnode :=
  (forest.treeAt index).roots.head?

/-- The children of the node at an index. -/
def childrenAt (forest : Forest AyYnode) (index : Nat) : Forest AyYnode :=
  (forest.treeAt index).rootKids.headD .nil

/-- Index of the parent. -/
def parentIndex (forest : Forest AyYnode) (index : Nat) : Option Nat :=
  ((forest.links 0 none)[index]?).bind Forest.Links.parent

/-- Change the node at an index. -/
def editAt (change : AyYnode → AyYnode) (index : Nat) (forest : Forest AyYnode) :
    Forest AyYnode :=
  forest.modifyAt (fun node kids rest => .cons (change node) kids rest) index

/-- `ay_ynode_inner_node_alone` -/
def ayYnodeInnerNodeAlone (forest : Forest AyYnode) (index : Nat) : Option Bool := do
  let parent ← parentIndex forest index
  let node ← nodeAt forest parent
  let kids := childrenAt forest parent
  let inner ← ayInnerNodes node kids
  some (inner.roots.length == 1 && parent + 1 + (kids.size - inner.size) == index)

/-- `ay_ynode_when_paths_are_valid` with `path_to_root` set -/
def ayYnodeWhenPathsAreValidToRoot (subtree : AyYnode) (children : Forest AyYnode) : Bool :=
  whenPathsFound (subtree.id :: children.roots.map AyYnode.id) children &&
    (children.labels.any (fun node => node.whenRef != 0) ||
      !(subtree :: children.labels).any fun node => node.flags &&& ayWhenTarget != 0)

end Access

section SetRef

variable (lenses : Lnode → LensText) (labels : Lnode → LabelLens) (bodies : Lnode → Nat)

/-- The node without its `when`. -/
def withoutWhen (node : AyYnode) : AyYnode := { node with whenRef := 0 }

/-- `ay_ynode_subtree_equal` with `compare_roots` and `ignore_when` set -/
def ayYnodeSubtreeEqualButWhen (tree1 : AyYnode) (kids1 : Forest AyYnode) (tree2 : AyYnode)
    (kids2 : Forest AyYnode) : Bool :=
  ayYnodeSubtreeEqual lenses (withoutWhen tree1) (kids1.map withoutWhen) (withoutWhen tree2)
    (kids2.map withoutWhen)

/-- `ay_ynode_subtree_equal` with `compare_roots` unset and `ignore_when` set -/
def ayYnodeInnerEqualButWhen (tree1 : AyYnode) (kids1 : Forest AyYnode) (tree2 : AyYnode)
    (kids2 : Forest AyYnode) : Option Bool :=
  ayYnodeInnerEqual lenses (withoutWhen tree1) (kids1.map withoutWhen) (withoutWhen tree2)
    (kids2.map withoutWhen)

/-- The nearest `YN_REC` above a node. -/
def externalRec (forest : Forest AyYnode) : Nat → Nat → Option AyYnode
  | 0, _ => none
  | fuel + 1, index => do
      let parent ← parentIndex forest index
      let node ← nodeAt forest parent
      if node.type = .ynRec then some node else externalRec forest fuel parent

/-- `ay_ynode_set_ref_leafref_restriction`; `bodies` are the bodies of the lenses. -/
def ayYnodeSetRefLeafrefRestriction (forest : Forest AyYnode) (subtree : Nat) : Option Bool :=
  match externalRec forest forest.size subtree with
  | none => some false
  | some lrecExternal =>
      lrecExternal.snode.bind fun exter =>
        some ((childrenAt forest subtree).labels.any fun iti =>
          iti.type == .ynLeafref && iti.snode.map bodies == some (bodies exter))

/-- What the inner loop of `ay_ynode_set_ref` has found so far. -/
structure Marking where
  forest : Forest AyYnode
  subtreeEq : Bool
  childrenEq : Nat
  splittable : Bool

/-- How a subtree matches the default one. -/
inductive Match where
  | subtree
  | children
  | nothing
  deriving DecidableEq

/-- Containers are compared as subtrees if both are the only inner node of their parent or the
container has no inner nodes. -/
def containerEqual (iti : AyYnode) (kids : Forest AyYnode) (alone : Bool) (forest : Forest AyYnode)
    (j : Nat) (itj : AyYnode) (itjKids : Forest AyYnode) : Option Bool :=
  if itj.type ≠ .ynContainer then some false
  else do
    let bothAlone ← if alone then ayYnodeInnerNodeAlone forest j else some false
    let comparable ← if bothAlone then some true
      else (ayInnerNodes itj itjKids).map fun inner => inner == .nil
    some (comparable && ayYnodeSubtreeEqualButWhen lenses iti kids itj itjKids)

/-- Compare the subtree at an index with the default subtree, and whether one of the matched ones
is splittable. -/
def matchSubtree (iti : AyYnode) (kids : Forest AyYnode) (alone : Bool) (inner : Forest AyYnode)
    (j : Nat) (marking : Marking) (itj : AyYnode) (itjKids : Forest AyYnode) :
    Option (Match × Bool) := do
  if itj.type = .ynList ∧ ayYnodeSubtreeEqualButWhen lenses iti kids itj itjKids = true then
    some (.subtree, marking.splittable)
  else if ← containerEqual lenses iti kids alone marking.forest j itj itjKids then
    some (.subtree, marking.splittable)
  else if inner = .nil then some (.nothing, marking.splittable)
  else if ← ayYnodeInnerEqualButWhen lenses iti kids itj itjKids then
    let splittable := marking.splittable ||
      ayYnodeRuleNodeIsSplittable labels itj itjKids.size != 0
    -- one inner node alone is too poor for a grouping
    if splittable = false ∧ inner.roots.length = 1 then some (.nothing, splittable)
    else some (.children, splittable)
  else some (.nothing, marking.splittable)

/-- Find subtrees which are the same. -/
def markFrom (iti : AyYnode) (kids : Forest AyYnode) (alone : Bool) (inner : Forest AyYnode) :
    Nat → Nat → Marking → Option Marking
  | 0, _, _ => none
  | fuel + 1, j, marking =>
      match nodeAt marking.forest j with
      | none => some marking
      | some itj => do
          let itjKids := childrenAt marking.forest j
          if itj.ref ≠ 0 then markFrom iti kids alone inner fuel (j + itjKids.size + 1) marking
          else if itj.whenRef ≠ 0 ∨ ayYnodeWhenPathsAreValidToRoot itj itjKids = false then
            markFrom iti kids alone inner fuel (j + 1) marking
          else
            let (found, splittable) ←
              matchSubtree lenses labels iti kids alone inner j marking itj itjKids
            match found with
            | .subtree =>
                markFrom iti kids alone inner fuel (j + itjKids.size + 1)
                  { marking with
                    forest := editAt (fun itj => { itj with ref := iti.id }) j marking.forest
                    subtreeEq := true }
            | .children =>
                markFrom iti kids alone inner fuel (j + itjKids.size + 1)
                  { marking with
                    forest := editAt (fun itj =>
                      addFlags ayGroupingChildren { itj with ref := iti.id }) j marking.forest
                    childrenEq := marking.childrenEq + 1
                    splittable := splittable }
            | .nothing =>
                markFrom iti kids alone inner fuel (j + 1)
                  { marking with splittable := splittable }

/-- The default subtree gets its mark if others were found. -/
def markDefault (iti : AyYnode) (i : Nat) (marking : Marking) : Forest AyYnode :=
  if marking.childrenEq ≠ 0 then
    editAt (fun node => addFlags ayGroupingChildren { node with ref := iti.id }) i marking.forest
  else if marking.subtreeEq then
    editAt (fun node => { node with ref := iti.id }) i marking.forest
  else marking.forest

/-- No grouping is looked for at the node. -/
def isSkipped (forest : Forest AyYnode) (i : Nat) (iti : AyYnode) (kids : Forest AyYnode)
    (parent : AyYnode) : Option Bool :=
  if (iti.type = .ynList ∧ parent.type = .ynRoot) ∨ (iti.type ≠ .ynContainer ∧ iti.type ≠ .ynList)
  then some true
  else
    (ayYnodeSetRefLeafrefRestriction bodies forest i).map fun restricted =>
      restricted || iti.whenRef != 0 || !ayYnodeWhenPathsAreValidToRoot iti kids

def setRefFrom : Nat → Nat → Forest AyYnode → Option (Forest AyYnode)
  | 0, _, _ => none
  | fuel + 1, i, forest =>
      match nodeAt forest i with
      | none => some forest
      | some iti => do
          let kids := childrenAt forest i
          let parent ← (parentIndex forest i).bind (nodeAt forest)
          if iti.ref ≠ 0 ∧ parent.type ≠ .ynRec then setRefFrom fuel (i + kids.size + 1) forest
          else if ← isSkipped bodies forest i iti kids parent then setRefFrom fuel (i + 1) forest
          else
            let alone ← ayYnodeInnerNodeAlone forest i
            let inner ← ayInnerNodes iti kids
            let marking ← markFrom lenses labels iti kids alone inner (forest.size + 1)
              (i + kids.size + 1) ⟨forest, false, 0, false⟩
            setRefFrom fuel (i + 1) (markDefault iti i marking)

/-- `ay_ynode_set_ref`; every step of a loop goes on in the array. -/
def ayYnodeSetRef (tree : Forest AyYnode) : Option (Forest AyYnode) :=
  setRefFrom lenses labels bodies (tree.size + 1) 1 tree

end SetRef

/-- The ordinary tree of an array with the counter of its root. -/
structure CountedForest where
  forest : Forest AyYnode
  idcnt : YnodeId
  deriving DecidableEq

section CreateGroupings

/-- Create `YN_USES` at the node with the index. -/
def createUses (grouping : YnodeId) (choiceMandFalse : Nat) (j : Nat) (itj : AyYnode)
    (tree : CountedForest) : Option CountedForest :=
  if itj.flags &&& ayGroupingChildren ≠ 0 then
    -- `YN_USES` for children
    (ayInnerNodes itj (childrenAt tree.forest j)).map fun _ =>
      let deleted := tree.forest.modifyAt (keepKids fun kids => (innerNodes kids).1) j
      let uses := { AyYnode.blank tree.idcnt with
        type := .ynUses, ref := grouping, flags := choiceMandFalse }
      ⟨editAt (fun itj => { itj with ref := 0 }) j
        (deleted.modifyAt (addLast (.cons uses .nil .nil)) j), advanceId tree.idcnt 1⟩
  else
    -- `YN_USES` for subtree
    let deleted := tree.forest.modifyAt (keepKids fun _ => .nil) j
    some { tree with
      forest := editAt (fun itj => { itj with
        snode := none, label := none, value := none, type := .ynUses
        ref := grouping, flags := choiceMandFalse }) j deleted }

/-- Find and remove duplicate subtrees and create `YN_USES`. -/
def replaceDuplicates (ref grouping : YnodeId) (choiceMandFalse : Nat) :
    Nat → Nat → CountedForest → Option CountedForest
  | 0, _, _ => none
  | fuel + 1, j, tree =>
      match nodeAt tree.forest j with
      | none => some tree
      | some itj =>
          if itj.ref ≠ ref ∨ itj.type = .ynUses then
            replaceDuplicates ref grouping choiceMandFalse fuel (j + 1) tree
          else
            (createUses grouping choiceMandFalse j itj tree).bind
              (replaceDuplicates ref grouping choiceMandFalse fuel (j + 1))

/-- The tree with a grouping at an index. -/
structure Outlined where
  tree : CountedForest
  grouping : Nat
  /-- Index of the node whose mark is processed. -/
  iti : Nat
  /-- The grouping has been there before. -/
  grUsed : Bool

def newGrouping (id : YnodeId) (snode : Option Lnode) : AyYnode :=
  { AyYnode.blank id with type := .ynGrouping, snode := snode }

/-- `iti->parent` is a grouping for the children of its parent, and these are just `iti`. -/
def definedGrouping (forest : Forest AyYnode) (i : Nat) : Option (Option Nat) := do
  let parent ← parentIndex forest i
  let node ← nodeAt forest parent
  if node.type ≠ .ynGrouping then some none
  else
    let above ← (parentIndex forest parent).bind (nodeAt forest)
    if above.flags &&& ayGroupingChildren = 0 then some none
    else if ← ayYnodeInnerNodeAlone forest i then some (some parent)
    else some none

/-- Insert `YN_GROUPING`, or use the one that is there. -/
def outline (i : Nat) (iti : AyYnode) (tree : CountedForest) : Option Outlined :=
  let kids := childrenAt tree.forest i
  if iti.flags &&& ayGroupingChildren ≠ 0 then
    if kids.size = 0 then none
    else
      (ayInnerNodes iti kids).map fun inner =>
        let child := if inner.size = 0 then i + 1 else i + 1 + (kids.size - inner.size)
        ⟨⟨tree.forest.modifyAt (wrapRest (newGrouping tree.idcnt iti.snode)) child,
          advanceId tree.idcnt 1⟩, child, i, false⟩
  else
    (definedGrouping tree.forest i).bind fun defined =>
      match defined with
      | some grouping => some ⟨tree, grouping, i, true⟩
      | none =>
          ((parentIndex tree.forest i).bind (nodeAt tree.forest)).map fun parent =>
            ⟨⟨tree.forest.modifyAt (wrapNode (newGrouping tree.idcnt parent.snode)) i,
              advanceId tree.idcnt 1⟩, i, i + 1, false⟩

/-- Insert `YN_USES` behind the grouping. -/
def usesBehind (choiceMandFalse : Nat) (outlined : Outlined) (tree : CountedForest) :
    Option CountedForest := do
  let grouping ← nodeAt tree.forest outlined.grouping
  let child ← nodeAt tree.forest (outlined.grouping + 1)
  let iti ← nodeAt tree.forest outlined.iti
  let choice :=
    if parentIndex tree.forest outlined.iti = some outlined.grouping then iti.choice else child.choice
  let uses := { AyYnode.blank tree.idcnt with
    type := .ynUses, ref := grouping.id, choice := choice, flags := choiceMandFalse }
  let lone := (childrenAt tree.forest outlined.grouping).roots.length == 1
  let inserted := tree.forest.modifyAt (addBehind (.cons uses .nil .nil)) outlined.grouping
  some ⟨editAt (fun child => { child with choice := if lone then none else child.choice })
    (outlined.grouping + 1) inserted, advanceId tree.idcnt 1⟩

/-- The grouping for a marked node, and a uses in place of all equal subtrees. -/
def createGrouping (i : Nat) (iti : AyYnode) (tree : CountedForest) : Option CountedForest := do
  let outlined ← outline i iti tree
  let grouping ← nodeAt outlined.tree.forest outlined.grouping
  let child ← nodeAt outlined.tree.forest (outlined.grouping + 1)
  let choiceMandFalse := child.flags &&& ayChoiceMandFalse
  let start :=
    outlined.grouping + (childrenAt outlined.tree.forest outlined.grouping).size + 1
  let tree ← replaceDuplicates iti.ref grouping.id choiceMandFalse
    (4 * outlined.tree.forest.size + 1) start outlined.tree
  -- `iti` node is processed
  let tree := { tree with forest := editAt (fun iti => { iti with ref := 0 }) outlined.iti tree.forest }
  if outlined.grUsed then some tree else usesBehind choiceMandFalse outlined tree

def createGroupingsFrom : Nat → Nat → CountedForest → Option CountedForest
  | 0, _, _ => none
  | fuel + 1, i, tree =>
      match nodeAt tree.forest i with
      | none => some tree
      | some iti =>
          if iti.ref = 0 ∨ iti.type = .ynUses ∨ iti.type = .ynLeafref then
            createGroupingsFrom fuel (i + 1) tree
          else if iti.type = .ynGrouping then
            createGroupingsFrom fuel (i + (childrenAt tree.forest i).size + 1) tree
          else if iti.id ≠ iti.ref then none
          else (createGrouping i iti tree).bind (createGroupingsFrom fuel (i + 1))

/-- `ay_ynode_create_groupings_toplevel`; a processed mark brings a grouping and a uses. -/
def ayYnodeCreateGroupingsToplevel (tree : CountedForest) : Option CountedForest :=
  createGroupingsFrom (4 * tree.forest.size + 1) 1 tree

end CreateGroupings

end SysrepoAugeas.Ynode
