import SysrepoAugeas.Ynode.Node

/-!
# The ynode tree built from lnodes

Every subtree or recursive lens gives a ynode, comments apart; the ynodes are
numbered from one in the order of the lnodes.  The forest is linked and put
below a root, which holds the id counter.
-/

namespace SysrepoAugeas.Ynode

/-- `enum lens_tag` -/
inductive LensTag where
  | lDel
  | lStore
  | lValue
  | lKey
  | lLabel
  | lSeq
  | lCounter
  | lConcat
  | lUnion
  | lSubtree
  | lStar
  | lMaybe
  | lRec
  | lSquare
  deriving DecidableEq

/-- What the conversion reads of a `struct ay_lnode`. -/
structure AyLnode where
  parent : Option Lnode
  descendants : Nat
  tag : LensTag
  /-- `lens->string->str` of a label -/
  string : String
  deriving DecidableEq

def ayTagIsLabel (tag : LensTag) : Bool := tag = .lLabel || tag = .lKey || tag = .lSeq

def ayTagIsValue (tag : LensTag) : Bool := tag = .lStore || tag = .lValue

/-- Loop of `ay_ynode_find_label` and `ay_ynode_find_value`: subtrees are skipped. -/
def findLnode (wanted : LensTag → Bool) (ltree : List AyLnode) (snode descendants : Nat) :
    Nat → Nat → Option Lnode
  | fuel + 1, i =>
      if i < descendants then
        match ltree[snode + i + 1]? with
        | some lnode =>
            if lnode.tag = .lSubtree then
              findLnode wanted ltree snode descendants fuel (i + lnode.descendants + 1)
            else if wanted lnode.tag then some (snode + i + 1)
            else findLnode wanted ltree snode descendants fuel (i + 1)
        | none => none
      else none
  | 0, _ => none

/-- `ay_ynode_find_label` -/
def ayYnodeFindLabel (ltree : List AyLnode) (snode : Lnode) (lnode : AyLnode) : Option Lnode :=
  findLnode ayTagIsLabel ltree snode lnode.descendants lnode.descendants 0

/-- `ay_ynode_find_value` -/
def ayYnodeFindValue (ltree : List AyLnode) (snode : Lnode) (lnode : AyLnode) : Option Lnode :=
  findLnode ayTagIsValue ltree snode lnode.descendants lnode.descendants 0

/-- `ay_lense_is_comment` -/
def ayLenseIsComment (lens : AyLnode) : Bool :=
  lens.tag = .lLabel &&
    (lens.string = "#comment" || lens.string = "!comment" || lens.string = "#mcomment" ||
      lens.string = "#scomment")

/-- `ay_ynode_is_ignored` -/
def ayYnodeIsIgnored (ltree : List AyLnode) (snode : AyLnode) (label : Option Lnode) : Bool :=
  snode.tag = .lSubtree &&
    match label.bind fun label => ltree[label]? with
    | some lens => ayLenseIsComment lens
    | none => false

/-- The lens of a ynode. -/
def isSnode (tag : LensTag) : Bool := tag = .lSubtree || tag = .lRec

/-- Inner loop of `ay_ynode_create_forest_`: ynodes below a lnode. -/
def countDescendants (ltree : List AyLnode) (snode descendants : Nat) : Nat → Nat → Nat
  | fuel + 1, k =>
      if k < descendants then
        match ltree[snode + 1 + k]? with
        | some child =>
            if isSnode child.tag then
              if ayYnodeIsIgnored ltree child (ayYnodeFindLabel ltree (snode + 1 + k) child) then
                countDescendants ltree snode descendants fuel (k + child.descendants + 1)
              else countDescendants ltree snode descendants fuel (k + 1) + 1
            else countDescendants ltree snode descendants fuel (k + 1)
        | none => 0
      else 0
  | 0, _ => 0

/-- Loop of `ay_ynode_add_choice`. -/
def findChoice (ltree : List AyLnode) : Nat → Option Lnode → Option Lnode
  | fuel + 1, some iter =>
      match ltree[iter]? with
      | some lnode =>
          if isSnode lnode.tag then none
          else if lnode.tag = .lUnion then some iter
          else findChoice ltree fuel lnode.parent
      | none => none
  | _, _ => none

/-- Node that `ay_ynode_create_forest_` makes of a lnode; the choice, which
`ay_ynode_add_choice` sets later, is set at once. -/
def createNode (ltree : List AyLnode) (snode : Lnode) (lnode : AyLnode) (id : YnodeId) : AyYnode :=
  { AyYnode.blank id with
    label := ayYnodeFindLabel ltree snode lnode
    value := ayYnodeFindValue ltree snode lnode
    type := if lnode.tag = .lRec then .ynRec else .ynUnknown
    snode := some snode
    descendants := countDescendants ltree snode lnode.descendants lnode.descendants 0
    choice := findChoice ltree ltree.length lnode.parent }

/-- Outer loop of `ay_ynode_create_forest_`. -/
def createForestFrom (ltree : List AyLnode) (descendants : Nat) :
    Nat → Nat → YnodeId → List AyYnode
  | fuel + 1, i, id =>
      if i < descendants then
        match ltree[i]? with
        | some lnode =>
            if isSnode lnode.tag then
              if ayYnodeIsIgnored ltree lnode (ayYnodeFindLabel ltree i lnode) then
                createForestFrom ltree descendants fuel (i + lnode.descendants + 1) id
              else createNode ltree i lnode id ::
                createForestFrom ltree descendants fuel (i + 1) (id + 1)
            else createForestFrom ltree descendants fuel (i + 1) id
        | none => []
      else []
  | 0, _, _ => []

/-- `ay_ynode_create_forest_` -/
def ayYnodeCreateForest (ltree : List AyLnode) : List AyYnode :=
  let descendants := (ltree.head?.map AyLnode.descendants).getD 0
  createForestFrom ltree descendants descendants 0 1

/-- `ay_ynode_forest_connect_topnodes` -/
def ayYnodeForestConnectTopnodes (forest : List AyYnode) : List AyYnode :=
  let tops := (List.range forest.length).filter fun i =>
    (forest[i]?.bind AyYnode.parent).isNone
  let connected := tops.foldl (fun nodes i =>
    nodes.modify i fun node => { node with next := some (i + node.descendants + 1) }) forest
  match tops.getLast? with
  | some last => connected.modify last fun node => { node with next := none }
  | none => connected

/-- `ay_ynode_shift_right` -/
def ayYnodeShiftRight (nodes : List AyYnode) : List AyYnode :=
  AyYnode.blank 0 :: nodes.map fun node =>
    { node with
      parent := node.parent.map (· + 1)
      next := node.next.map (· + 1)
      child := node.child.map (· + 1) }

/-- The root above the top nodes. -/
def setRootNodes (nodes : List AyYnode) (tops : List Nat) (descendants : Nat) : List AyYnode :=
  (tops.foldl (fun nodes iter =>
      nodes.modify iter fun node => { node with parent := some 0 }) nodes).modify 0 fun root =>
    { root with
      type := .ynRoot
      child := if nodes.length ≠ 1 then some 1 else none
      descendants := descendants }

/-- `ay_ynode_set_root`, without the dictionaries and the pattern table. -/
def ayYnodeSetRoot (forest : List AyYnode) : Option YnodeTree :=
  let shifted := ayYnodeShiftRight forest
  let tops := siblingsFrom (if shifted.length ≠ 1 then some 1 else none) shifted
  let descendants := (tops.map fun iter =>
    ((shifted[iter]?.map AyYnode.descendants).getD 0) + 1).sum
  let nodes := setRootNodes shifted tops descendants
  if nodes.length = descendants + 1 then
    nodes[descendants]?.map fun last => ⟨nodes, last.id + 1, nodes.length⟩
  else none

/-- `ay_ynode_create_tree` -/
def ayYnodeCreateTree (ltree : List AyLnode) : Option YnodeTree :=
  ayYnodeSetRoot (ayYnodeForestConnectTopnodes (ayYnodeTreeCorrection (ayYnodeCreateForest ltree)))

end SysrepoAugeas.Ynode
