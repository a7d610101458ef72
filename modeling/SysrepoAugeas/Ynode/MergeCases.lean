import SysrepoAugeas.Ynode.Split

/-!
# Merging branches of a choice

Branches whose first nodes have the same label become one branch, again and
again until none are left.  As for splitting, the tree is the forest below the
root; a pointer to a node is the part of its siblings from there on.  `none`
stands for a failed assertion or for an access through a null pointer.

The dictionary of values in the root is only written, so it is left out.
-/

namespace SysrepoAugeas.Ynode

open SysrepoAugeas.Data

def ayChoiceMandFalse : Nat := 0x004

def ayValueMandFalse : Nat := 0x010

def ayValueInChoice : Nat := 0x020

def ayHintMandTrue : Nat := 0x200

def ayYnodeFlagsCmpMask : Nat := 0xFF

/-- What two lenses are compared by: the pattern or the string of a lens for labels and values,
else the tag. -/
structure LensText where
  tag : LensTag
  text : String
  deriving DecidableEq

/-- `ay_lnode_lense_equal` -/
def ayLnodeLenseEqual : Option LensText → Option LensText → Bool
  | some l1, some l2 =>
      if (ayTagIsLabel l1.tag || ayTagIsValue l1.tag) && (ayTagIsLabel l2.tag || ayTagIsValue l2.tag)
      then l1.text == l2.text
      else l1.tag == l2.tag
  | _, _ => false

section Siblings

/-- Change the node that a pointer points to. -/
def onFirst (change : AyYnode → AyYnode) : Forest AyYnode → Forest AyYnode
  | .nil => .nil
  | .cons node kids rest => .cons (change node) kids rest

/-- Change the node that a pointer points to, which must not be null. -/
def onFirst? (change : AyYnode → AyYnode) : Forest AyYnode → Option (Forest AyYnode)
  | .nil => none
  | .cons node kids rest => some (.cons (change node) kids rest)

def onRoots (change : AyYnode → AyYnode) : Forest AyYnode → Forest AyYnode
  | .nil => .nil
  | .cons node kids rest => .cons (change node) kids (onRoots change rest)

def addFlags (flags : Nat) (node : AyYnode) : AyYnode := { node with flags := node.flags ||| flags }

/-- `ay_ynode_nodes_in_choice` -/
def ayYnodeNodesInChoice (ns : Forest AyYnode) : Bool :=
  ns.roots.all fun iter => iter.choice.isSome && iter.choice == (ns.roots.head?.bind AyYnode.choice)

/-- `ay_ynode_alone_in_choice` between the siblings in front and those behind. -/
def aloneInChoice (front : Forest AyYnode) (node : AyYnode) (rest : Forest AyYnode) : Bool :=
  node.choice.isSome && !(front.roots.any fun iter => iter.choice == node.choice) &&
    (rest.roots.head?.map AyYnode.choice) != some node.choice

/-- If a parent has only one child, its choice is set to null. -/
def unsetLoneChoice : Forest AyYnode → Forest AyYnode
  | .cons node kids .nil => .cons { node with choice := none } kids .nil
  | children => children

/-- Whether `ay_ynode_delete_node` casts the node to `YN_CASE`. -/
def castsToCase (node : AyYnode) (kids : Forest AyYnode) : Bool :=
  node.type ≠ .ynCase && node.choice.isSome && decide (1 < kids.roots.length) &&
    kids.roots.any fun child => child.choice.isNone

/-- `ay_ynode_delete_node` with the siblings in front and those behind. -/
def deleteNode (front : Forest AyYnode) (node : AyYnode) (kids rest : Forest AyYnode) :
    Option (Forest AyYnode) :=
  if node.type = .ynCase ∧ aloneInChoice front node rest = false then none
  else if castsToCase node kids then
    some (front.append (.cons { node with
      type := .ynCase, snode := none, label := none, value := none, ref := 0, flags := 0 }
        kids rest))
  else
    let kids :=
      if node.type ≠ .ynCase ∧ node.choice.isSome then
        onRoots (fun child => { child with choice := node.choice }) kids
      else kids
    let kids :=
      if node.flags &&& ayChildrenMandFalse ≠ 0 then onRoots (addFlags ayHintMandFalse) kids
      else kids
    some (unsetLoneChoice (front.append (kids.append rest)))

end Siblings

/-- The counters of the array. -/
structure Meter where
  idcnt : YnodeId
  /-- Number of nodes below the root. -/
  now : Nat
  /-- The largest number of nodes so far. -/
  peak : Nat
  deriving DecidableEq

namespace Meter

def insert (meter : Meter) : Meter :=
  ⟨advanceId meter.idcnt 1, meter.now + 1, max meter.peak (meter.now + 1)⟩

/-- Every moved node draws an id. -/
def move (meter : Meter) (nodes : Nat) : Meter := { meter with idcnt := advanceId meter.idcnt nodes }

def delete (meter : Meter) (nodes : Nat) : Meter := { meter with now := meter.now - nodes }

end Meter

section Nodes

/-- `ay_ynode_case_insert` -/
def ayYnodeCaseInsert (meter : Meter) (choice : Option Lnode) :
    Forest AyYnode → Forest AyYnode × Meter
  | .nil => (.nil, meter)
  | .cons ns kids rest =>
      if ns.type = .ynCase then (.cons ns kids rest, meter)
      else
        let created := if choice.isNone || ns.choice.isNone then addFlags ayChoiceCreated ns else ns
        let choice := some (choice.getD ayYnodeRootLtree)
        if rest = .nil then
          (.cons (addFlags ayChoiceCreated { ns with choice := choice }) kids .nil, meter)
        else
          let cas := { AyYnode.blank meter.idcnt with
            choice := choice
            flags := ayChoiceCreated
            type := .ynCase
            whenRef := ns.whenRef
            whenVal := ns.whenVal }
          (.cons cas (.cons { created with whenRef := 0, whenVal := none } kids rest) .nil,
            meter.insert)

/-- Two groups of nodes after merging them: the first one, and what is left of the second. -/
structure Joined where
  nodes : Forest AyYnode
  left : Forest AyYnode
  meter : Meter
  deriving DecidableEq

/-- Trees that are wrapped, moved between others and unwrapped again. -/
def moveWrapped (meter : Meter) (front trees rest : Forest AyYnode) :
    Option (Forest AyYnode × Meter) :=
  let wrapper := AyYnode.blank meter.idcnt
  (deleteNode front wrapper trees rest).map fun nodes =>
    (nodes, (meter.insert.move (trees.size + 1)).delete (if castsToCase wrapper trees then 0 else 1))

/-- `ay_ynode_merge_nodes` with `merge_as_child` unset; what stands in front of the first group
has no part in it. -/
def ayYnodeMergeNodes (meter : Meter) (ns1 ns2 : Forest AyYnode) : Option Joined :=
  if ns2 = .nil then some ⟨ns1, .nil, meter⟩
  else if ns1 = .nil then none
  else if ayYnodeNodesInChoice ns1 && ayYnodeNodesInChoice ns2 then
    let choice := ns1.roots.head?.bind AyYnode.choice
    let unified := onRoots (fun iter => addFlags ayChoiceCreated { iter with choice := choice }) ns2
    (moveWrapped meter ns1 unified .nil).map fun moved => ⟨moved.1, .nil, moved.2⟩
  else if ayYnodeNodesInChoice ns1 then
    let cased := ayYnodeCaseInsert meter (ns1.roots.head?.bind AyYnode.choice) ns2
    let moved := cased.1.takeTrees 1
    some ⟨ns1.append moved, cased.1.dropTrees 1, cased.2.move moved.size⟩
  else if ayYnodeNodesInChoice ns2 then
    let cased := ayYnodeCaseInsert meter (ns2.roots.head?.bind AyYnode.choice) ns1
    (moveWrapped cased.2 (cased.1.takeTrees 1) ns2 (cased.1.dropTrees 1)).map fun moved =>
      ⟨moved.1, .nil, moved.2⟩
  else
    let cased1 := ayYnodeCaseInsert meter none ns1
    let cased2 := ayYnodeCaseInsert cased1.2 none ns2
    let moved := cased2.1.takeTrees 1
    some ⟨cased1.1.append moved, cased2.1.dropTrees 1, cased2.2.move moved.size⟩

/-- `ay_ynode_merge_nodes` with `merge_as_child` set: the parent and its children. -/
def ayYnodeMergeAsChild (meter : Meter) (ns1 : AyYnode) (children ns2 : Forest AyYnode) :
    Option (AyYnode × Forest AyYnode × Meter) :=
  match ns2 with
  | .nil => some (ns1, children, meter)
  | .cons node kids .nil =>
      some (addFlags ayChildrenMandFalse ns1,
        children.append (.cons { node with choice := none } kids .nil), meter.move (kids.size + 1))
  | .cons node kids rest =>
      let node := if node.choice.isSome then addFlags ayChoiceMandFalse node else node
      (moveWrapped meter children (.cons node kids rest) .nil).map fun moved => (ns1, moved.1, moved.2)

end Nodes

/-- Branch of a choice: its first node with the children, and, in a `YN_CASE`, this node and the
siblings behind the first one. -/
structure Branch where
  cas : Option AyYnode
  first : AyYnode
  kids : Forest AyYnode
  others : Forest AyYnode
  deriving DecidableEq

namespace Branch

/-- The branch with a node as root; a `YN_CASE` without children has no first node. -/
def ofTree (node : AyYnode) (kids : Forest AyYnode) : Option Branch :=
  if node.type = .ynCase then
    match kids with
    | .nil => none
    | .cons first firstKids others => some ⟨some node, first, firstKids, others⟩
  else some ⟨none, node, kids, .nil⟩

/-- The branch in front of siblings. -/
def toForest (branch : Branch) (rest : Forest AyYnode) : Forest AyYnode :=
  match branch.cas with
  | some cas => .cons cas (.cons branch.first branch.kids branch.others) rest
  | none => .cons branch.first branch.kids rest

/-- The root of the branch. -/
def root (branch : Branch) : AyYnode := branch.cas.getD branch.first

/-- Change the root. -/
def onRoot (change : AyYnode → AyYnode) (branch : Branch) : Branch :=
  match branch.cas with
  | some cas => { branch with cas := some (change cas) }
  | none => { branch with first := change branch.first }

end Branch

def setWhen (ref : YnodeId) (value : Option Lnode) (node : AyYnode) : AyYnode :=
  { node with whenRef := ref, whenVal := value }

/-- `ay_ynode_merge_cases_move_when` -/
def ayYnodeMergeCasesMoveWhen (br : Branch) : Option Branch :=
  let ref := br.root.whenRef
  let value := br.root.whenVal
  if ref = 0 then some (br.onRoot (setWhen 0 none))
  else
    let br := { br with kids := onFirst (setWhen ref value) br.kids }
    let others := if br.cas.isSome then onFirst? (setWhen ref value) br.others else some br.others
    others.map fun others => { br with others := others }.onRoot (setWhen 0 none)

section Merge

variable (lenses : Lnode → LensText)

/-- `AY_LABEL_LENS` -/
def labelText (node : AyYnode) : Option LensText := node.label.map lenses

/-- `AY_VALUE_LENS` -/
def valueText (node : AyYnode) : Option LensText := node.value.map lenses

/-- `ay_ynode_merge_choice_branches` -/
def ayYnodeMergeChoiceBranches (br1 br2 : AyYnode) : Bool :=
  ((labelText lenses br1).isNone && (labelText lenses br2).isNone) ||
    ayLnodeLenseEqual (labelText lenses br1) (labelText lenses br2)

/-- `ay_ynode_cmp_choice_branches` -/
def ayYnodeCmpChoiceBranches (br1 : AyYnode) (kids1 : Forest AyYnode) (br2 : AyYnode)
    (kids2 : Forest AyYnode) : Option Bool :=
  if br1.whenRef ≠ 0 ∨ br2.whenRef ≠ 0 then some false
  else do
    let br1 ← Branch.ofTree br1 kids1
    let br2 ← Branch.ofTree br2 kids2
    some (ayYnodeMergeChoiceBranches lenses br1.first br2.first)

/-- Both nodes have a value, and these are different. -/
def valuesDiffer (first1 first2 : AyYnode) : Bool :=
  first1.value.isSome && first2.value.isSome &&
    !ayLnodeLenseEqual (valueText lenses first1) (valueText lenses first2)

section Equal

/-- A node with what is read of its place. -/
structure Seen where
  node : AyYnode
  descendants : Nat
  /-- It is the only child of its parent. -/
  alone : Bool

/-- `ay_ynode_equal` with `ignore_when` unset; there is no root among the nodes. -/
def ayYnodeEqual (n1 n2 : Seen) (ignoreChoice : Bool) : Bool :=
  let sameLens : Option LensText → Option LensText → Bool := fun l1 l2 =>
    (l1.isNone && l2.isNone) || ayLnodeLenseEqual l1 l2
  let cmpMask :=
    if ignoreChoice then ayYnodeFlagsCmpMask - ayChoiceMandFalse else ayYnodeFlagsCmpMask
  n1.descendants == n2.descendants && n1.node.type == n2.node.type &&
    sameLens (labelText lenses n1.node) (labelText lenses n2.node) &&
    sameLens (valueText lenses n1.node) (valueText lenses n2.node) &&
    n1.node.snode.isSome == n2.node.snode.isSome &&
    (ignoreChoice || n1.alone || n2.alone || n1.node.choice.isSome == n2.node.choice.isSome) &&
    (n1.node.type == .ynLeafref || n1.node.ref == n2.node.ref) &&
    n1.node.flags &&& cmpMask == n2.node.flags &&& cmpMask &&
    (n1.node.type != .ynList || n1.node.minElems == n2.node.minElems) &&
    n1.node.whenRef == n2.node.whenRef

/-- The nodes in the order of the array. -/
def seen (alone : Bool) : Forest AyYnode → List Seen
  | .nil => []
  | .cons node kids rest =>
      ⟨node, kids.size, alone⟩ :: (seen (kids.roots.length == 1) kids ++ seen alone rest)

def allEqual (nodes1 nodes2 : List Seen) : Bool :=
  (nodes1.zip nodes2).all fun pair => ayYnodeEqual lenses pair.1 pair.2 false

/-- `ay_ynode_subtree_equal` with `compare_roots` set -/
def ayYnodeSubtreeEqual (tree1 : AyYnode) (kids1 : Forest AyYnode) (tree2 : AyYnode)
    (kids2 : Forest AyYnode) : Bool :=
  ayYnodeEqual lenses ⟨tree1, kids1.size, false⟩ ⟨tree2, kids2.size, false⟩ true &&
    allEqual lenses (seen (kids1.roots.length == 1) kids1) (seen (kids2.roots.length == 1) kids2)

/-- `ay_ynode_inner_nodes` -/
def ayInnerNodes (root : AyYnode) (kids : Forest AyYnode) : Option (Forest AyYnode) :=
  if kids.roots.head?.any fun iter => iter.type == .ynKey && iter.label != root.label then none
  else some (innerNodes kids).2

/-- `ay_ynode_subtree_equal` with `compare_roots` unset -/
def ayYnodeInnerEqual (tree1 : AyYnode) (kids1 : Forest AyYnode) (tree2 : AyYnode)
    (kids2 : Forest AyYnode) : Option Bool := do
  let inner1 ← ayInnerNodes tree1 kids1
  let inner2 ← ayInnerNodes tree2 kids2
  if inner1.size = 0 ∨ inner1.size ≠ inner2.size then some false
  else some (allEqual lenses (seen (kids1.roots.length == 1) inner1)
    (seen (kids2.roots.length == 1) inner2))

/-- All subtrees are equal, in the same order. -/
def sameSubtrees : Forest AyYnode → Forest AyYnode → Bool
  | .nil, .nil => true
  | .cons st1 kids1 rest1, .cons st2 kids2 rest2 =>
      ayYnodeSubtreeEqual lenses st1 kids1 st2 kids2 && sameSubtrees rest1 rest2
  | _, _ => false

end Equal

/-- `ay_ynode_merge_cases_only_by_repetition`: the first branch after merging, if it applies. -/
def ayYnodeMergeCasesOnlyByRepetition (br1 : AyYnode) (kids1 : Forest AyYnode) (br2 : AyYnode)
    (kids2 : Forest AyYnode) : Option AyYnode :=
  let isPair : YangType → YangType → Bool := fun type1 type2 =>
    type1 == .ynList && (type2 == .ynLeaf || type2 == .ynContainer)
  if kids1.size ≠ 0 ∨ kids2.size ≠ 0 ∨ br1.type = br2.type ∨ valuesDiffer lenses br1 br2 = true ∨
      (isPair br1.type br2.type || isPair br2.type br1.type) = false then none
  else if br2.type = .ynList then
    some { br1 with
      type := br2.type, snode := br2.snode, label := br2.label, value := br2.value
      choice := br2.choice, ref := br2.ref, flags := br2.flags, id := br2.id
      minElems := if br2.minElems ≠ 0 then 1 else 0
      whenRef := br2.whenRef, whenVal := br2.whenVal }
  else some { br1 with minElems := if br1.minElems ≠ 0 then 1 else 0 }

/-- The value of the first of two nodes that are otherwise equal. -/
def mergeValue (first1 first2 : AyYnode) : AyYnode :=
  if first1.value.isSome && first2.value.isNone then addFlags ayValueMandFalse first1
  else if first1.value.isNone && first2.value.isSome then
    addFlags ayValueMandFalse { first1 with value := first2.value }
  else first1

/-- The inner nodes of the first nodes are equal. -/
def sameInside (br1 br2 : Branch) : Option Bool :=
  if br1.kids = .nil then some (br2.kids = .nil : Bool)
  else if br2.kids = .nil then some false
  else ayYnodeInnerEqual lenses br1.first br1.kids br2.first br2.kids

/-- `ay_ynode_merge_cases_only_by_value`: the first branch after merging, if it applies. -/
def ayYnodeMergeCasesOnlyByValue (br1 br2 : Branch) : Option (Option Branch) :=
  if br1.cas.isSome ≠ br2.cas.isSome then some none
  else if br1.cas.isSome && !sameSubtrees lenses br1.others br2.others then some none
  else
    let first := mergeValue br1.first br2.first
    let minElems :=
      if br2.first.type = .ynList then min first.minElems br2.first.minElems else first.minElems
    (sameInside lenses br1 br2).map fun equal =>
      if equal then some { br1 with first := { first with minElems := minElems } } else none

/-- `ay_ynode_merge_cases_set_when` -/
def ayYnodeMergeCasesSetWhen (br1 br2 : Branch) : Option (Branch × Branch) :=
  if br1.root.whenRef ≠ 0 ∨ br2.root.whenRef ≠ 0 then do
    some (← ayYnodeMergeCasesMoveWhen br1, ← ayYnodeMergeCasesMoveWhen br2)
  else if br1.first.value.isSome && br2.first.value.isSome && !valuesDiffer lenses br1.first br2.first
  then some (br1, br2)
  else do
    -- the cases of the source come down to one condition for each branch
    let sets : Branch → Bool := fun br =>
      br.first.value.isSome && br.first.flags &&& ayValueInChoice == 0
    let setBelow : Branch → Option Branch := fun br =>
      let change := setWhen br1.first.id br.first.value
      if sets br then
        (if br.cas.isSome then onFirst? change br.others else some br.others).map fun others =>
          { br with kids := onFirst change br.kids, others := others }
      else some br
    let target := [br1, br2].any fun br => sets br && (br.kids ≠ .nil || br.cas.isSome)
    let set1 ← setBelow br1
    let set2 ← setBelow br2
    some ({ set1 with first := if target then addFlags ayWhenTarget set1.first else set1.first },
      set2)

/-- The value of the first node when only this one has children. -/
def mergeValueWithKids (first1 first2 : AyYnode) : AyYnode :=
  if valuesDiffer lenses first1 first2 then addFlags ayChildrenMandFalse first1
  else if first1.value.isSome && first2.value.isNone then
    addFlags (ayValueMandFalse ||| ayChildrenMandFalse) first1
  else if first1.value.isNone && first2.value.isSome then
    addFlags ayValueInChoice { first1 with value := first2.value }
  else first1

/-- The value of the first node when only the second one has children. -/
def mergeValueWithoutKids (first1 first2 : AyYnode) : AyYnode :=
  if valuesDiffer lenses first1 first2 then addFlags ayChildrenMandFalse first1
  else if first1.value.isSome && first2.value.isNone then addFlags ayValueInChoice first1
  else if first1.value.isNone && first2.value.isSome then
    addFlags (ayValueMandFalse ||| ayChildrenMandFalse) { first1 with value := first2.value }
  else first1

/-- A leaf that gets children becomes a container. -/
def withChildren (type : YangType) : YangType := if type = .ynList then .ynList else .ynContainer

/-- The first child, unless it is an alternative to the value. -/
def choiceMandFalse (first1 child : AyYnode) : AyYnode :=
  if first1.flags &&& ayValueInChoice ≠ 0 then child else addFlags ayChoiceMandFalse child

/-- "Merge nodes inside first node": both branches after it. -/
def mergeInside (meter : Meter) (br1 br2 : Branch) : Option (Branch × Branch × Meter) :=
  if br1.kids ≠ .nil ∧ br2.kids = .nil then
    let first1 := mergeValueWithKids lenses br1.first br2.first
    some ({ br1 with first := first1, kids := onFirst (choiceMandFalse first1) br1.kids }, br2, meter)
  else if br1.kids = .nil ∧ br2.kids ≠ .nil then do
    let first1 := mergeValueWithoutKids lenses br1.first br2.first
    let (first1, kids, meter) ←
      ayYnodeMergeAsChild meter { first1 with type := withChildren first1.type } .nil br2.kids
    some ({ br1 with first := first1, kids := onFirst (choiceMandFalse first1) kids },
      { br2 with kids := .nil }, meter)
  else
    let first1 := mergeValue br1.first br2.first
    if br1.kids = .nil then some ({ br1 with first := first1 }, br2, meter)
    else (ayYnodeMergeNodes meter br1.kids br2.kids).map fun joined =>
      ({ br1 with first := first1, kids := joined.nodes }, { br2 with kids := joined.left },
        joined.meter)

/-- Siblings up to the first one with an id, this one, and those behind it. -/
structure FoundBranch where
  front : Forest AyYnode
  node : AyYnode
  kids : Forest AyYnode
  back : Forest AyYnode
  deriving DecidableEq

/-- `for (iter = br1->next; iter && (iter->id != br2_id); iter = iter->next)` -/
def findId (id : YnodeId) : Forest AyYnode → Option FoundBranch
  | .nil => none
  | .cons node kids rest =>
      if node.id = id then some ⟨.nil, node, kids, rest⟩
      else (findId id rest).map fun found => { found with front := .cons node kids found.front }

/-- "Merge rest nodes" with the siblings between the branches: what is behind the first branch in
front of the second one, and what the second branch has left. -/
def mergeRest (meter : Meter) (br1 br2 : Branch) (front : Forest AyYnode) :
    Option (Branch × Branch × Forest AyYnode × Meter) :=
  match br1.cas, br2.cas with
  | some _, some _ =>
      (ayYnodeMergeNodes meter br1.others br2.others).map fun joined =>
        ({ br1 with others := joined.nodes }, { br2 with others := joined.left }, front, joined.meter)
  | some cas, none =>
      (onFirst? (addFlags ayChoiceMandFalse) br1.others).map fun others =>
        ({ br1 with cas := some (addFlags ayChildrenMandFalse cas), others := others }, br2, front,
          meter)
  | none, some _ =>
      let cas := { AyYnode.blank meter.idcnt with
        type := .ynCase
        flags := ayChildrenMandFalse ||| ayChoiceCreated
        choice := br1.first.choice }
      let first := { br1.first with choice := none }
      (ayYnodeMergeAsChild meter.insert cas (.cons first br1.kids .nil) br2.others).bind fun merged =>
        (Branch.ofTree merged.1 merged.2.1).map fun br1 =>
          -- `first1` still points to where the new `YN_CASE` is, so its sibling gets the flag
          (br1, { br2 with others := .nil }, onFirst (addFlags ayChoiceMandFalse) front,
            merged.2.2)
  | none, none => some (br1, br2, front, meter)

/-- `ay_ynode_merge_cases_` for a branch with the siblings between it and the second branch and
those behind: the siblings from the first branch on. -/
def ayYnodeMergeCases_ (meter : Meter) (br1 : Branch) (front : Forest AyYnode) (br2 : Branch)
    (back : Forest AyYnode) : Option (Forest AyYnode × Meter) := do
  let first1 := addFlags (br2.first.flags ||| ayHintMandTrue) br1.first
  let first1 := { first1 with minElems := min first1.minElems br2.first.minElems }
  let (br1, br2) ← ayYnodeMergeCasesSetWhen lenses { br1 with first := first1 } br2
  let (br1, br2, meter) ← mergeInside lenses meter br1 br2
  -- the search behind the rest nodes ends at the same node again
  let found ← findId br2.root.id (front.append (br2.toForest back))
  let br2 ← Branch.ofTree found.node found.kids
  let (br1, br2, front, meter) ← mergeRest meter br1 br2 found.front
  some (br1.toForest (front.append found.back), meter.delete (br2.toForest .nil).size)

end Merge

section Pass

/-- Why a run ends early. -/
inductive Stop where
  /-- An assertion fails or a null pointer is used. -/
  | failed
  /-- There were more merges than nodes. -/
  | endless
  deriving DecidableEq

/-- The siblings before and after a merge, with the first node of the first branch and the id of
the second one. -/
structure CaseMerge where
  first1 : AyYnode
  br2 : YnodeId
  before : Forest AyYnode
  after : Forest AyYnode
  deriving DecidableEq

/-- State of a run. -/
structure MergeRun where
  meter : Meter
  merges : List CaseMerge
  stop : Option Stop
  deriving DecidableEq

variable (lenses : Lnode → LensText)

/-- The first of the siblings in the same choice that is to be merged with the branch; the inner
`none` is no match. -/
def findMatch (chn1 : AyYnode) (kids1 : Forest AyYnode) :
    Forest AyYnode → Option (Option FoundBranch)
  | .nil => some none
  | .cons chn2 kids2 rest =>
      if chn2.choice = chn1.choice then do
        let isMatch ← ayYnodeCmpChoiceBranches lenses chn1 kids1 chn2 kids2
        if isMatch then some (some ⟨.nil, chn2, kids2, rest⟩)
        else
          let found ← findMatch chn1 kids1 rest
          some (found.map fun found => { found with front := .cons chn2 kids2 found.front })
      else some none

/-- The next sibling with a match and those in front of it. -/
structure NextMerge where
  passed : Forest AyYnode
  chn1 : AyYnode
  kids1 : Forest AyYnode
  chn2 : FoundBranch
  deriving DecidableEq

/-- The match of a node, which only a node in a choice has. -/
def matchOf (chn1 : AyYnode) (kids1 rest : Forest AyYnode) : Option (Option FoundBranch) :=
  if chn1.choice.isNone then some none else findMatch lenses chn1 kids1 rest

/-- Going through the siblings until one has a match. -/
def nextMerge : Forest AyYnode → Option (Option NextMerge)
  | .nil => some none
  | .cons chn1 kids1 rest =>
      match matchOf lenses chn1 kids1 rest with
      | none => none
      | some (some chn2) => some (some ⟨.nil, chn1, kids1, chn2⟩)
      | some none =>
          (nextMerge rest).map fun next =>
            next.map fun next => { next with passed := .cons chn1 kids1 next.passed }

/-- Merging two branches in one of the three ways: the siblings from the first branch on. -/
def mergeBranches (meter : Meter) (chn1 : AyYnode) (kids1 : Forest AyYnode) (chn2 : FoundBranch) :
    Option (Forest AyYnode × Meter) := do
  let deleted := meter.delete (chn2.kids.size + 1)
  if let some merged :=
      ayYnodeMergeCasesOnlyByRepetition lenses chn1 kids1 chn2.node chn2.kids then
    some (.cons merged kids1 (chn2.front.append chn2.back), deleted)
  else
    let br1 ← Branch.ofTree chn1 kids1
    let br2 ← Branch.ofTree chn2.node chn2.kids
    let byValue ← ayYnodeMergeCasesOnlyByValue lenses br1 br2
    if let some merged := byValue then
      some (merged.toForest (chn2.front.append chn2.back), deleted)
    else ayYnodeMergeCases_ lenses meter br1 chn2.front br2 chn2.back

/-- "The when reference is meaningless if the node is not in choice." -/
def unsetWhen (node : AyYnode) : AyYnode := if node.whenRef ≠ 0 then setWhen 0 none node else node

/-- A branch that is alone in its choice after a merge is in no choice any more. -/
def leaveChoice (front : Forest AyYnode) (chn1 : AyYnode) (kids1 rest : Forest AyYnode)
    (meter : Meter) : Option (Forest AyYnode × Forest AyYnode × Meter) :=
  if aloneInChoice front chn1 rest then
    if chn1.type = .ynCase then
      -- the children take the place of the useless `YN_CASE`
      (deleteNode front chn1 kids1 rest).map fun siblings =>
        (siblings.takeTrees front.roots.length,
          onFirst unsetWhen (siblings.dropTrees front.roots.length), meter.delete 1)
    else some (front, .cons (unsetWhen { chn1 with choice := none }) kids1 rest, meter)
  else some (front, .cons chn1 kids1 rest, meter)

/-- One merge at the first sibling that has a match: the siblings in front of it and from it on. -/
def mergeOnce (front : Forest AyYnode) (next : NextMerge) (meter : Meter) :
    Option (Forest AyYnode × Forest AyYnode × Meter) := do
  let (merged, meter) ← mergeBranches lenses meter next.chn1 next.kids1 next.chn2
  if let .cons chn1 kids1 rest := merged then
    leaveChoice (front.append next.passed) chn1 kids1 rest meter
  else none

/-- The first node of a branch, if it has one. -/
def firstOf (node : AyYnode) (kids : Forest AyYnode) : AyYnode :=
  ((Branch.ofTree node kids).map Branch.first).getD node

/-- Loop of `ay_ynode_merge_cases_r` over the siblings behind those in front; `fuel` bounds the
number of merges. -/
def mergeSiblings : Nat → MergeRun → Forest AyYnode → Forest AyYnode → Forest AyYnode × MergeRun
  | fuel, run, front, siblings =>
      let stopped : Stop → Forest AyYnode × MergeRun := fun stop =>
        (front.append siblings, { run with stop := some stop })
      match nextMerge lenses siblings with
      | none => stopped .failed
      | some none => (front.append siblings, run)
      | some (some next) =>
          match fuel, mergeOnce lenses front next run.meter with
          | 0, _ => stopped .endless
          | _, none => stopped .failed
          | fuel + 1, some (passed, merged, meter) =>
              let merge : CaseMerge :=
                ⟨firstOf next.chn1 next.kids1, next.chn2.node.id, front.append siblings,
                  passed.append merged⟩
              mergeSiblings fuel ⟨meter, run.merges ++ [merge], run.stop⟩ passed merged

/-- The siblings themselves, after what is below them. -/
def mergeLevel (below : Forest AyYnode × MergeRun) : Forest AyYnode × MergeRun :=
  if below.2.stop.isSome then below
  else mergeSiblings lenses (below.1.size + 1) below.2 .nil below.1

/-- The children of every node, from the bottom up. -/
def mergeBelow : MergeRun → Forest AyYnode → Forest AyYnode × MergeRun
  | run, .nil => (.nil, run)
  | run, .cons child kids rest =>
      let merged := mergeLevel lenses (mergeBelow run kids)
      let others := if merged.2.stop.isSome then (rest, merged.2) else mergeBelow merged.2 rest
      (.cons child merged.1 others.1, others.2)

/-- `ay_ynode_merge_cases_r` for the root of the tree -/
def ayYnodeMergeCasesR (run : MergeRun) (forest : Forest AyYnode) : Forest AyYnode × MergeRun :=
  mergeLevel lenses (mergeBelow lenses run forest)

/-- The do-while loop of `ay_ynode_merge_cases`; `fuel` bounds the number of repetitions. -/
def mergeCasesLoop : Nat → MergeRun → Forest AyYnode → Forest AyYnode × MergeRun
  | fuel, run, forest =>
      let passed := ayYnodeMergeCasesR lenses run forest
      if passed.2.stop.isSome ∨ passed.2.merges.length = run.merges.length then passed
      else
        match fuel with
        | 0 => (passed.1, { passed.2 with stop := some .endless })
        | fuel + 1 => mergeCasesLoop fuel passed.2 passed.1

/-- `ay_ynode_merge_cases` -/
def ayYnodeMergeCases (idcnt : YnodeId) (forest : Forest AyYnode) : Forest AyYnode × MergeRun :=
  mergeCasesLoop lenses forest.size ⟨⟨idcnt, forest.size, forest.size⟩, [], none⟩ forest

/-- The pairs that `ay_ynode_rule_merge_cases` counts for one branch. -/
def countMatches (chn1 : AyYnode) (kids1 : Forest AyYnode) : Forest AyYnode → Option Nat
  | .nil => some 0
  | .cons chn2 kids2 rest =>
      if chn2.choice = chn1.choice then do
        let isMatch ← ayYnodeCmpChoiceBranches lenses chn1 kids1 chn2 kids2
        let others ← countMatches chn1 kids1 rest
        some (others + if isMatch then 1 else 0)
      else some 0

/-- Loop of `ay_ynode_rule_merge_cases` -/
def matchingPairs : Forest AyYnode → Option Nat
  | .nil => some 0
  | .cons chn1 kids1 rest => do
      let here ← if chn1.choice.isNone then some 0 else countMatches lenses chn1 kids1 rest
      let below ← matchingPairs kids1
      let behind ← matchingPairs rest
      some (here + below + behind)

/-- `ay_ynode_rule_merge_cases` -/
def ayYnodeRuleMergeCases (forest : Forest AyYnode) : Option Nat :=
  (matchingPairs lenses forest).map (· * 4)

end Pass

end SysrepoAugeas.Ynode
