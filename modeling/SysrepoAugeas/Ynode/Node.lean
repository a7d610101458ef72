import SysrepoAugeas.Data.Forest

/-!
# The ynode array and its edit primitives

All ynodes of a module stand in one Sized Array in preorder, every node with
the number of its descendants; `parent`, `next` and `child` are recomputed
from these numbers after an edit.  Pointers into the array are indices here.
`none` as a result stands for a failed assertion or for an access through a
null pointer or outside of the array.
-/

namespace SysrepoAugeas.Ynode

open SysrepoAugeas.Data

/-- `enum yang_type` -/
inductive YangType where
  | ynUnknown
  | ynLeaf
  | ynLeafref
  | ynList
  | ynContainer
  | ynCase
  | ynKey
  | ynValue
  | ynUses
  | ynGrouping
  | ynRec
  | ynRoot
  deriving DecidableEq

/-- Pointer to a lnode; null is `none`. -/
abbrev Lnode := Nat

/-- Numeric identifier of a ynode. -/
abbrev YnodeId := BitVec 32

def ayChildrenMandFalse : Nat := 0x008

def ayHintMandFalse : Nat := 0x400

def ayWhenTarget : Nat := 0x1000

/-- `struct ay_ynode` -/
structure AyYnode where
  parent : Option Nat
  next : Option Nat
  child : Option Nat
  descendants : Nat
  type : YangType
  snode : Option Lnode
  label : Option Lnode
  value : Option Lnode
  choice : Option Lnode
  ident : Option String
  ref : YnodeId
  id : YnodeId
  flags : Nat
  minElems : Nat
  whenRef : YnodeId
  whenVal : Option Lnode
  deriving DecidableEq

/-- Node after `memset` to zero. -/
def AyYnode.blank (id : YnodeId) : AyYnode where
  parent := none
  next := none
  child := none
  descendants := 0
  type := .ynUnknown
  snode := none
  label := none
  value := none
  choice := none
  ident := none
  ref := 0
  id := id
  flags := 0
  minElems := 0
  whenRef := 0
  whenVal := none

/-- The array with the counters that its root node holds. -/
structure YnodeTree where
  nodes : List AyYnode
  /-- `AY_YNODE_ROOT_IDCNT` -/
  idcnt : YnodeId
  /-- `AY_YNODE_ROOT_ARRSIZE` -/
  arrsize : Nat
  deriving DecidableEq

/-- The counter after a number of increments. -/
def advanceId (idcnt : YnodeId) (count : Nat) : YnodeId := idcnt + BitVec.ofNat 32 count

section Correction

/-- Inner loop of `ay_ynode_tree_correction` over the children of `parent`. -/
def correctChildren (parent descendants : Nat) :
    Nat → Option Nat → Nat → List AyYnode → List AyYnode
  | fuel + 1, some iter, sum, nodes =>
      match nodes[iter]? with
      | some node =>
          let sum := sum + node.descendants + 1
          let next := if sum ≠ descendants then some (iter + node.descendants + 1) else none
          correctChildren parent descendants fuel next sum
            (nodes.modify iter fun node =>
              { node with
                parent := some parent
                child := if node.descendants ≠ 0 then some (iter + 1) else none
                next := next })
      | none => nodes
  | _, _, _, nodes => nodes

/-- One round of the outer loop. -/
def correctParent (nodes : List AyYnode) (parent : Nat) : List AyYnode :=
  match nodes[parent]? with
  | some node =>
      let iter := if node.descendants ≠ 0 then some (parent + 1) else none
      correctChildren parent node.descendants nodes.length iter 0
        (nodes.modify parent fun node => { node with child := iter })
  | none => nodes

/-- `ay_ynode_tree_correction` -/
def ayYnodeTreeCorrection (nodes : List AyYnode) : List AyYnode :=
  (List.range nodes.length).foldl correctParent nodes

end Correction

/-- `for (iter = start; iter; iter = iter->parent) iter->descendants = ...` -/
def changeAncestors (change : Nat → Nat) : Nat → Option Nat → List AyYnode → List AyYnode
  | fuel + 1, some iter, nodes =>
      match nodes[iter]? with
      | some node =>
          changeAncestors change fuel node.parent
            (nodes.modify iter fun node => { node with descendants := change node.descendants })
      | none => nodes
  | _, _, nodes => nodes

/-- The loop never runs longer than the array. -/
def onAncestors (change : Nat → Nat) (start : Option Nat) (nodes : List AyYnode) : List AyYnode :=
  changeAncestors change nodes.length start nodes

section Gaps

/-! A gap can only be inserted up to the end of the array. -/

/-- `ay_ynode_insert_gap` -/
def ayYnodeInsertGap (tree : YnodeTree) (index : Nat) : Option YnodeTree :=
  if tree.nodes.length < tree.arrsize ∧ index ≤ tree.nodes.length then
    some { tree with
      nodes := tree.nodes.take index ++ AyYnode.blank tree.idcnt :: tree.nodes.drop index
      idcnt := advanceId tree.idcnt 1 }
  else none

/-- `ay_ynode_insert_gap_range`, with the items that the callers copy over the gap and its
fresh ids at once. -/
def ayYnodeInsertGapRange (tree : YnodeTree) (index : Nat) (items : List AyYnode) :
    Option YnodeTree :=
  if tree.nodes.length < tree.arrsize ∧ index ≤ tree.nodes.length then
    some { tree with
      nodes := tree.nodes.take index ++ items ++ tree.nodes.drop index
      idcnt := advanceId tree.idcnt items.length }
  else none

/-- `ay_ynode_delete_gap` -/
def ayYnodeDeleteGap (tree : YnodeTree) (index : Nat) : YnodeTree :=
  { tree with nodes := tree.nodes.take index ++ tree.nodes.drop (index + 1) }

/-- `ay_ynode_delete_gap_range` -/
def ayYnodeDeleteGapRange (tree : YnodeTree) (index items : Nat) : YnodeTree :=
  { tree with nodes := tree.nodes.take index ++ tree.nodes.drop (index + items) }

end Gaps

section Walks

/-- Indices visited by `for (iter = start; iter; iter = iter->next)`. -/
def siblings (nodes : List AyYnode) : Nat → Option Nat → List Nat
  | fuel + 1, some iter =>
      match nodes[iter]? with
      | some node => iter :: siblings nodes fuel node.next
      | none => []
  | _, _ => []

def siblingsFrom (start : Option Nat) (nodes : List AyYnode) : List Nat :=
  siblings nodes nodes.length start

/-- `ay_ynode_get_last`, also of no node at all. -/
def ayYnodeGetLast (start : Option Nat) (nodes : List AyYnode) : Option Nat :=
  (siblingsFrom start nodes).getLast?

/-- `ay_ynode_get_node` -/
def ayYnodeGetNode (nodes : List AyYnode) (startIndex : Nat) (id : YnodeId) : Option Nat :=
  ((nodes.drop startIndex).findIdx? fun node => node.id == id).map (startIndex + ·)

/-- `ay_ynode_get_first_in_choice` -/
def ayYnodeGetFirstInChoice (nodes : List AyYnode) (parent : AyYnode) (choice : Option Lnode) :
    Option Nat :=
  (siblingsFrom parent.child nodes).find? fun iter =>
    (nodes[iter]?.map AyYnode.choice) == some choice

/-- `ay_ynode_alone_in_choice` -/
def ayYnodeAloneInChoice (nodes : List AyYnode) (index : Nat) : Option Bool := do
  let node ← nodes[index]?
  if node.choice.isNone then some false
  else
    let parent ← node.parent.bind fun parent => nodes[parent]?
    if ayYnodeGetFirstInChoice nodes parent node.choice ≠ some index then some false
    else
      match node.next.bind fun next => nodes[next]? with
      | some next => some (next.choice != node.choice)
      | none => some true

/-- `ay_ynode_inner_nodes`; the outer `none` is its assertion. -/
def ayYnodeInnerNodes (nodes : List AyYnode) (root : AyYnode) : Option (Option Nat) :=
  let skipValue : Option Nat → Option Nat := fun iter =>
    match iter.bind fun index => nodes[index]? with
    | some node => if node.type = .ynValue then node.next else iter
    | none => iter
  match root.child.bind fun index => nodes[index]? with
  | none => some none
  | some first =>
      if first.type = .ynKey then
        if first.label = root.label then some (skipValue first.next) else none
      else some (skipValue root.child)

end Walks

section Insert

/-- `ay_ynode_insert_wrapper` -/
def ayYnodeInsertWrapper (tree : YnodeTree) (node : Nat) : Option YnodeTree := do
  let wrapped ← tree.nodes[node]?
  let tree ← ayYnodeInsertGap
    { tree with nodes := onAncestors (· + 1) wrapped.parent tree.nodes } node
  let nodes := tree.nodes.modify node fun wrapper =>
    { wrapper with descendants := wrapped.descendants + 1 }
  some { tree with nodes := ayYnodeTreeCorrection nodes }

/-- `ay_ynode_insert_parent` -/
def ayYnodeInsertParent (tree : YnodeTree) (child : Nat) : Option YnodeTree := do
  let childNode ← tree.nodes[child]?
  let oldParent ← childNode.parent
  let parentNode ← tree.nodes[oldParent]?
  let index ← parentNode.child
  let tree ← ayYnodeInsertGap
    { tree with nodes := onAncestors (· + 1) childNode.parent tree.nodes } index
  let before ← tree.nodes[index - 1]?
  let nodes := tree.nodes.modify index fun parent =>
    { parent with descendants := before.descendants - 1 }
  some { tree with nodes := ayYnodeTreeCorrection nodes }

/-- `ay_ynode_insert_parent_for_rest` -/
def ayYnodeInsertParentForRest (tree : YnodeTree) (child : Nat) : Option YnodeTree := do
  let childNode ← tree.nodes[child]?
  let descendants := ((siblingsFrom (some child) tree.nodes).map fun iter =>
    ((tree.nodes[iter]?.map AyYnode.descendants).getD 0) + 1).sum
  let tree ← ayYnodeInsertGap
    { tree with nodes := onAncestors (· + 1) childNode.parent tree.nodes } child
  let nodes := tree.nodes.modify child fun parent => { parent with descendants := descendants }
  some { tree with nodes := ayYnodeTreeCorrection nodes }

/-- `ay_ynode_insert_child` -/
def ayYnodeInsertChild (tree : YnodeTree) (parent : Nat) : Option YnodeTree := do
  let tree ← ayYnodeInsertGap
    { tree with nodes := onAncestors (· + 1) (some parent) tree.nodes } (parent + 1)
  some { tree with nodes := ayYnodeTreeCorrection tree.nodes }

/-- `ay_ynode_insert_sibling` -/
def ayYnodeInsertSibling (tree : YnodeTree) (node : Nat) : Option YnodeTree := do
  let before ← tree.nodes[node]?
  let tree ← ayYnodeInsertGap
    { tree with nodes := onAncestors (· + 1) before.parent tree.nodes }
    (node + before.descendants + 1)
  some { tree with nodes := ayYnodeTreeCorrection tree.nodes }

/-- `ay_ynode_insert_child_last` -/
def ayYnodeInsertChildLast (tree : YnodeTree) (parent : Nat) : Option YnodeTree := do
  let parentNode ← tree.nodes[parent]?
  match ayYnodeGetLast parentNode.child tree.nodes with
  | some last => ayYnodeInsertSibling tree last
  | none => ayYnodeInsertChild tree parent

end Insert

section Delete

/-- Choice settings on the children before `ay_ynode_delete_node` deletes their parent;
`none` inside the result says that the node is cast to `YN_CASE` instead. -/
def prepareDelete (nodes : List AyYnode) (index : Nat) : Option (Option (List AyYnode)) := do
  let node ← nodes[index]?
  let children := siblingsFrom node.child nodes
  let setChoice := fun (nodes : List AyYnode) iter =>
    nodes.modify iter fun child => { child with choice := node.choice }
  if node.type ≠ .ynCase then
    if node.choice.isSome && 1 < children.length then
      if children.any fun iter => (nodes[iter]?.bind AyYnode.choice).isNone then some none
      else some (some (children.foldl setChoice nodes))
    else if node.choice.isSome && children.length = 1 then
      some (some (children.foldl setChoice nodes))
    else some (some nodes)
  else
    match ayYnodeAloneInChoice nodes index with
    | some true => some (some nodes)
    | _ => none

/-- `ay_ynode_delete_node`; the flag is its return value. -/
def ayYnodeDeleteNode (tree : YnodeTree) (index : Nat) : Option (YnodeTree × Bool) := do
  let node ← tree.nodes[index]?
  match ← prepareDelete tree.nodes index with
  | none =>
      let nodes := tree.nodes.modify index fun node =>
        { node with
          type := .ynCase, snode := none, label := none, value := none, ref := 0, flags := 0 }
      some ({ tree with nodes := nodes }, true)
  | some nodes =>
      let nodes :=
        if node.flags &&& ayChildrenMandFalse ≠ 0 then
          (siblingsFrom node.child nodes).foldl (fun nodes iter =>
            nodes.modify iter fun child => { child with flags := child.flags ||| ayHintMandFalse })
            nodes
        else nodes
      let parent ← node.parent
      let tree := ayYnodeDeleteGap
        { tree with nodes := onAncestors (· - 1) node.parent nodes } index
      let nodes := ayYnodeTreeCorrection tree.nodes
      -- if parent has only one child, then set choice to NULL
      let parentNode ← nodes[parent]?
      let nodes :=
        match siblingsFrom parentNode.child nodes with
        | [only] => nodes.modify only fun child => { child with choice := none }
        | _ => nodes
      some ({ tree with nodes := nodes }, false)

/-- `ay_ynode_delete_subtree` -/
def ayYnodeDeleteSubtree (tree : YnodeTree) (subtree : Nat) : Option YnodeTree := do
  let node ← tree.nodes[subtree]?
  let deletedNodes := node.descendants + 1
  let tree := ayYnodeDeleteGapRange
    { tree with nodes := onAncestors (· - deletedNodes) node.parent tree.nodes } subtree deletedNodes
  some { tree with nodes := ayYnodeTreeCorrection tree.nodes }

/-- First node and number of nodes that `ay_ynode_delete_children` deletes. -/
def deletedChildren (nodes : List AyYnode) (subtree : Nat) (node : AyYnode) (keepKeyval : Bool) :
    Option (Nat × Nat) :=
  if keepKeyval then
    (ayYnodeInnerNodes nodes node).map fun
      -- `ay_ynode_inner_nodes_descendants`
      | some inner => (inner, node.descendants - (inner - 1 - subtree))
      | none => (subtree + 1, 0)
  else some (subtree + 1, node.descendants)

/-- `ay_ynode_delete_children` -/
def ayYnodeDeleteChildren (tree : YnodeTree) (subtree : Nat) (keepKeyval : Bool) :
    Option YnodeTree := do
  let node ← tree.nodes[subtree]?
  let (first, deletedNodes) ← deletedChildren tree.nodes subtree node keepKeyval
  if deletedNodes = 0 then some tree
  else
    let firstNode ← tree.nodes[first]?
    let tree := ayYnodeDeleteGapRange
      { tree with nodes := onAncestors (· - deletedNodes) firstNode.parent tree.nodes }
      first deletedNodes
    some { tree with nodes := ayYnodeTreeCorrection tree.nodes }

end Delete

section Move

/-- Moving one node after the other when the array has no room for a buffer. -/
def moveOneByOne : Nat → Nat → Nat → YnodeTree → Option YnodeTree
  | 0, _, _, tree => some tree
  | count + 1, dst, src, tree => do
      let node ← tree.nodes[src]?
      let tree := ayYnodeDeleteGap tree src
      let dst := if src < dst then dst - 1 else dst
      let tree ← ayYnodeInsertGap tree dst
      let src := if dst < src then src + 1 else src
      moveOneByOne count (dst + 1) src { tree with nodes := tree.nodes.set dst node }

/-- `ay_ynode_move_subtree` -/
def ayYnodeMoveSubtree (tree : YnodeTree) (dst src : Nat) : Option YnodeTree := do
  if dst = src then some tree
  else
    let root ← tree.nodes[src]?
    let subtreeSize := root.descendants + 1
    if subtreeSize < tree.arrsize - tree.nodes.length then
      let buffer := (tree.nodes.drop src).take subtreeSize
      let dst := if src < dst then dst - subtreeSize else dst
      ayYnodeInsertGapRange (ayYnodeDeleteGapRange tree src subtreeSize) dst buffer
    else moveOneByOne subtreeSize dst src tree

/-- `ay_ynode_move_subtree_as_sibling` -/
def ayYnodeMoveSubtreeAsSibling (tree : YnodeTree) (dst src : Nat) : Option YnodeTree := do
  let dstNode ← tree.nodes[dst]?
  let srcNode ← tree.nodes[src]?
  if dstNode.next = some src then some tree
  else
    let subtreeSize := srcNode.descendants + 1
    let index := dst + dstNode.descendants + 1
    let nodes := onAncestors (· - subtreeSize) srcNode.parent tree.nodes
    let nodes := onAncestors (· + subtreeSize) dstNode.parent nodes
    let tree ← ayYnodeMoveSubtree { tree with nodes := nodes } index src
    some { tree with nodes := ayYnodeTreeCorrection tree.nodes }

/-- `ay_ynode_move_subtree_as_child` -/
def ayYnodeMoveSubtreeAsChild (tree : YnodeTree) (dst src : Nat) : Option YnodeTree := do
  let dstNode ← tree.nodes[dst]?
  let srcNode ← tree.nodes[src]?
  if dstNode.child = some src then some tree
  else
    let subtreeSize := srcNode.descendants + 1
    let nodes := onAncestors (· - subtreeSize) srcNode.parent tree.nodes
    let nodes := onAncestors (· + subtreeSize) (some dst) nodes
    let tree ← ayYnodeMoveSubtree { tree with nodes := nodes } (dst + 1) src
    some { tree with nodes := ayYnodeTreeCorrection tree.nodes }

/-- `ay_ynode_move_subtree_as_last_child` -/
def ayYnodeMoveSubtreeAsLastChild (tree : YnodeTree) (dst src : Nat) : Option YnodeTree := do
  if dst = src then some tree
  else
    let dstNode ← tree.nodes[dst]?
    match ayYnodeGetLast dstNode.child tree.nodes with
    | some last => ayYnodeMoveSubtreeAsSibling tree last src
    | none => ayYnodeMoveSubtreeAsChild tree dst src

end Move

section Copy

/-- `ay_ynode_copy_subtree`; the subtree does not contain the place it is copied to. -/
def ayYnodeCopySubtree (tree : YnodeTree) (dst src : Nat) : Option YnodeTree := do
  let root ← tree.nodes[src]?
  ayYnodeInsertGapRange tree dst ((tree.nodes.drop src).take (root.descendants + 1))

/-- Index of the `when` target in the subtree, counted from its root; the last node stands
in when there is none. -/
def whenTarget (nodes : List AyYnode) (original descendants : Nat)
    (whenRef : YnodeId) : Nat :=
  (((nodes.drop original).take (descendants + 1)).findIdx? fun node =>
    node.id == whenRef && node.flags &&& ayWhenTarget != 0).getD descendants

/-- `ay_ynode_copy_subtree_when_ref_correction` -/
def ayYnodeCopySubtreeWhenRefCorrection (copied original : Nat) (nodes : List AyYnode) :
    List AyYnode :=
  let descendants := (nodes[original]?.map AyYnode.descendants).getD 0
  (List.range descendants).foldl (fun nodes i =>
    match nodes[original + i + 1]? with
    | some nodeRef =>
        if nodeRef.whenRef = 0 then nodes
        else
          let target := whenTarget nodes original descendants nodeRef.whenRef
          match nodes[copied + target]? with
          | some src => nodes.modify (copied + i + 1) fun dst => { dst with whenRef := src.id }
          | none => nodes
    | none => nodes) nodes

/-- Index behind the subtree of the last child, `dst + 1` when there is no child. -/
def behindLast (nodes : List AyYnode) (dst : Nat) : Option Nat → Nat
  | some last => last + ((nodes[last]?.map AyYnode.descendants).getD 0) + 1
  | none => dst + 1

/-- `ay_ynode_copy_subtree_as_last_child` -/
def ayYnodeCopySubtreeAsLastChild (tree : YnodeTree) (dst src : Nat) : Option YnodeTree := do
  let dstNode ← tree.nodes[dst]?
  let srcNode ← tree.nodes[src]?
  let subtreeSize := srcNode.descendants + 1
  if subtreeSize + tree.nodes.length ≤ tree.arrsize then
    let last := ayYnodeGetLast dstNode.child tree.nodes
    if last = some src then some tree
    else
      let nodes := onAncestors (· + subtreeSize) (some dst) tree.nodes
      let tree ← ayYnodeCopySubtree { tree with nodes := nodes } (behindLast nodes dst last) src
      let nodes := ayYnodeTreeCorrection tree.nodes
      let copied ← nodes[dst]?.bind fun dstNode => ayYnodeGetLast dstNode.child nodes
      let original ← ayYnodeGetNode nodes src srcNode.id
      some { tree with nodes := ayYnodeCopySubtreeWhenRefCorrection copied original nodes }
  else none

/-- `ay_ynode_copy_subtree_as_sibling` -/
def ayYnodeCopySubtreeAsSibling (tree : YnodeTree) (dst src : Nat) : Option YnodeTree := do
  let dstNode ← tree.nodes[dst]?
  let srcNode ← tree.nodes[src]?
  let subtreeSize := srcNode.descendants + 1
  if subtreeSize + tree.nodes.length ≤ tree.arrsize then
    let nodes := onAncestors (· + subtreeSize) dstNode.parent tree.nodes
    let tree ← ayYnodeCopySubtree { tree with nodes := nodes } (dst + dstNode.descendants + 1) src
    let nodes := ayYnodeTreeCorrection tree.nodes
    let copied ← nodes[dst]?.bind AyYnode.next
    let original ← ayYnodeGetNode nodes src srcNode.id
    some { tree with nodes := ayYnodeCopySubtreeWhenRefCorrection copied original nodes }
  else none

end Copy

end SysrepoAugeas.Ynode
