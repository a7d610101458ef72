import SysrepoAugeas.Data.Uproot
import SysrepoAugeas.Label.Path

/-!
# Loading Augeas data

The six functions that turn the labels below one Augeas node into YANG nodes.
Used labels are set to null in an array that the functions pass on in slices,
list instances are created first and freed again when nothing matched, and a
leafref creates instances of a list around it.  `none` as a result stands for
an error, a failed assertion or a recursion that does not end.
-/

namespace SysrepoAugeas.Load

open SysrepoAugeas.Data
open SysrepoAugeas.Label (Text)

inductive Nodetype where
  | leaf
  | leafList
  | list
  | container
  deriving DecidableEq

/-- `LYD_NODE_TERM` -/
def Nodetype.isTerm : Nodetype → Bool
  | .leaf | .leafList => true
  | .list | .container => false

/-- Name of the first child of a list. -/
inductive ListKey where
  | id
  | rId
  | configFile
  | other
  deriving DecidableEq

/-- What is read of a `struct lysc_node`; `id` stands for its address. -/
structure Schema where
  id : Nat
  nodetype : Nodetype
  /-- `LYS_MAND_TRUE` -/
  mandatory : Bool
  /-- `augds_leaf_is_empty` -/
  isEmpty : Bool
  hasParent : Bool
  key : ListKey
  firstChild : Nat
  /-- The list whose key the path of a leafref leads to. -/
  leafref : Option Nat
  deriving DecidableEq

structure CaseNode where
  dataPath : Text
  pattern : Text → Bool

/-- `struct augnode` without its children; the second schema is there with a value path. -/
structure Augnode where
  dataPath : Option Text
  pattern : Text → Bool
  schema : Schema
  schema2 : Option Schema
  caseNodes : List CaseNode

/-- Augeas node; `id` stands for its absolute path. -/
structure Label where
  id : Nat
  name : Text
  value : Option Text
  deriving DecidableEq

/-- `label_matches` with what is below each label. -/
abbrev Matches := List (Option (Label × Forest Label))

inductive Value where
  | text (text : Text)
  | index (index : Nat)
  deriving DecidableEq

/-- Why a node was created. -/
inductive Origin where
  | around
  /-- For a label that is used by it. -/
  | label (id : Nat)
  /-- As list instance for a label. -/
  | instance_ (label : Nat)
  /-- As reference to an instance of a list. -/
  | leafref (list : Nat)
  deriving DecidableEq

/-- Created YANG node. -/
structure DataNode where
  id : Nat
  parent : Option Nat
  schema : Nat
  value : Option Value
  origin : Origin
  deriving DecidableEq

/-- A label that was used by an augnode. -/
structure Used where
  augnode : Augnode
  label : Label

/-- What was there when a call of `augds_aug2yang_augnode_r` had used its labels. -/
structure Report where
  given : List Nat
  nonProcessed : List Nat
  nodes : List DataNode
  used : List Used

structure LoadState where
  nodes : List DataNode
  fresh : Nat
  /-- `next_idx` of the augnode with a schema node -/
  nextIdx : Nat → Nat
  used : List Used
  reports : List Report

/-- An augnode around the current ones, with the node that was created for it. -/
structure Frame where
  augnode : Augnode
  children : Forest Augnode
  node : Nat

/-- The data parent. -/
def parentOf (frames : List Frame) : Option Nat := frames.head?.map Frame.node

/-- `augds_aug2yang_augnode_labels_r` -/
abbrev LabelsR := List Frame → Forest Augnode → Matches → LoadState → Option (Matches × LoadState)

namespace LoadState

def addNode (parent : Option Nat) (schema : Nat) (value : Option Value) (origin : Origin)
    (state : LoadState) : LoadState :=
  { state with
    nodes := state.nodes ++ [⟨state.fresh, parent, schema, value, origin⟩]
    fresh := state.fresh + 1 }

/-- `lyd_free_tree` of a node without children. -/
def free (node : Nat) (state : LoadState) : LoadState :=
  { state with nodes := state.nodes.filter fun other => other.id != node }

/-- `lyd_child_no_keys`; keys are the values of their lists here. -/
def hasChild (node : Nat) (state : LoadState) : Bool :=
  state.nodes.any fun other => other.parent == some node

def setNextIdx (list index : Nat) (state : LoadState) : LoadState :=
  { state with nextIdx := fun other => if other = list then index else state.nextIdx other }

def use (augnode : Augnode) (label : Label) (state : LoadState) : LoadState :=
  { state with used := state.used ++ [⟨augnode, label⟩] }

end LoadState

/-- What libyang decides: whether a node with a value can be created, and whether all `when`
of a created node are true. -/
structure Libyang where
  accepts : Schema → Option Value → Bool
  whenTrue : Schema → LoadState → Bool

section Nodes

/-- `augds_ext_label_node_equal` -/
def augdsExtLabelNodeEqual (extNode labelNode : Text) : Bool :=
  ['$', '$'].isPrefixOf extNode || extNode == labelNode

variable (libyang : Libyang)

/-- The value of a container is for its first child. -/
def addFirstChild (schema : Schema) (value : Option Value) (node : Nat) (state : LoadState) :
    LoadState :=
  match value with
  | some value => state.addNode (some node) schema.firstChild (some value) .around
  | none => state

/-- `augds_aug2yang_augnode_create_node`; the created node is missing for an optional leaf
without value. -/
def augdsAug2yangAugnodeCreateNode (schema : Schema) (value : Option Value) (parent : Option Nat)
    (origin : Origin) (state : LoadState) : Option (Option Nat × LoadState) :=
  if schema.nodetype.isTerm && value.isNone && !schema.mandatory && !schema.isEmpty then
    some (none, state)
  else if !libyang.accepts schema value then none
  else if schema.nodetype = .container then
    some (some state.fresh,
      addFirstChild schema value state.fresh (state.addNode parent schema.id none origin))
  else some (some state.fresh, state.addNode parent schema.id value origin)

/-- Value of the primary node for a label; the pattern of a label path has to match. -/
def primaryValue (augnode : Augnode) (path : Text) (label : Label) : Option (Option Value) :=
  if ['$', '$'].isPrefixOf path then
    if augnode.pattern label.name then some (some (.text label.name)) else none
  else if augnode.schema.nodetype.isTerm then some (label.value.map .text)
  else some none

/-- The second node, when there is a value path. -/
def createSecond (augnode : Augnode) (label : Label) (frames : List Frame) (node : Option Nat)
    (state : LoadState) : Option LoadState :=
  match augnode.schema2 with
  | some schema2 =>
      let parent := if augnode.schema.nodetype.isTerm then parentOf frames else node
      (augdsAug2yangAugnodeCreateNode libyang schema2 (label.value.map .text) parent .around
        state).map Prod.snd
  | none => some state

end Nodes

section Level

/-- The trees of a forest. -/
def trees {Node : Type} : Forest Node → List (Node × Forest Node)
  | .nil => []
  | .cons node kids rest => (node, kids) :: trees rest

def commentName : Text := ['#', 'c', 'o', 'm', 'm', 'e', 'n', 't']

def scommentName : Text := ['#', 's', 'c', 'o', 'm', 'm', 'e', 'n', 't']

/-- `aug_match` for all labels below a node but comments. -/
def augMatch (below : Forest Label) : Matches :=
  ((trees below).filter fun tree => tree.1.name != commentName && tree.1.name != scommentName).map
    some

def labelIds (labels : Matches) : List Nat := labels.filterMap fun entry => entry.map (·.1.id)

variable (libyang : Libyang) (file : Text) (again : LabelsR)

/-- `augds_aug2yang_augnode_r` -/
def augdsAug2yangAugnodeR (frames : List Frame) (augnodes : Forest Augnode)
    (below : Forest Label) (state : LoadState) : Option LoadState :=
  match augnodes with
  | .nil => some state
  | augnodes => do
      let (labels, state) ← again frames augnodes (augMatch below) state
      some { state with
        reports := state.reports ++
          [⟨labelIds (augMatch below), labelIds labels, state.nodes, state.used⟩] }

/-- Children of the created node; a leaf without node has none. -/
def visitChildren (augnode : Augnode) (children : Forest Augnode) (frames : List Frame)
    (node : Option Nat) (below : Forest Label) (state : LoadState) : Option LoadState :=
  match children, node with
  | .nil, _ => some state
  | children, some node =>
      augdsAug2yangAugnodeR again (⟨augnode, children, node⟩ :: frames) children below state
  | _, none => none

/-- `augds_aug2yang_augnode_labels_value_r` -/
def augdsAug2yangAugnodeLabelsValueR (augnode : Augnode) (path : Text) (children : Forest Augnode)
    (frames : List Frame) : Matches → LoadState → Option (Matches × LoadState)
  | [], state => some ([], state)
  | none :: rest, state => do
      let (rest, state) ← augdsAug2yangAugnodeLabelsValueR augnode path children frames rest state
      some (none :: rest, state)
  | some (label, below) :: rest, state =>
      if !augdsExtLabelNodeEqual path label.name then some (some (label, below) :: rest, state)
      else
        match primaryValue augnode path label with
        | none => some (some (label, below) :: rest, state)
        | some value => do
            let (node, state) ← augdsAug2yangAugnodeCreateNode libyang augnode.schema value
              (parentOf frames) (.label label.id) state
            let state ← createSecond libyang augnode label frames node (state.use augnode label)
            let state ← visitChildren again augnode children frames node below state
            if augnode.schema.nodetype = .leaf then some (none :: rest, state)
            else
              let (rest, state) ←
                augdsAug2yangAugnodeLabelsValueR augnode path children frames rest state
              some (none :: rest, state)

/-- Loop of `augds_aug2yang_augnode_labels_list_r`; without a local index the augnode has the
counter. -/
def listLoop (augnode : Augnode) (children : Forest Augnode) (frames : List Frame)
    (childLabels : List Frame → Matches → LoadState → Option (Matches × LoadState)) :
    Option Nat → Matches → LoadState → Option (Matches × LoadState)
  | _, [], state => some ([], state)
  | index, none :: rest, state => do
      let (rest, state) ← listLoop augnode children frames childLabels index rest state
      some (none :: rest, state)
  | index, some (label, below) :: rest, state => do
      let list := augnode.schema.id
      let key := index.getD (state.nextIdx list)
      let state := if index.isNone then state.setNextIdx list (key + 1) else state
      let (node, state) ← augdsAug2yangAugnodeCreateNode libyang augnode.schema
        (some (.index key)) (parentOf frames) (.instance_ label.id) state
      let node ← node
      let (slice, state) ← childLabels (⟨augnode, children, node⟩ :: frames)
        [some (label, below)] state
      if state.hasChild node then
        let (rest, state) ← listLoop augnode children frames childLabels
          (index.map (· + 1)) rest state
        some (slice ++ rest, state)
      else
        let state := state.free node
        let state :=
          if index.isNone then state.setNextIdx list (state.nextIdx list - 1) else state
        let (rest, state) ← listLoop augnode children frames childLabels index rest state
        some (slice ++ rest, state)

/-- `augds_aug2yang_augnode_labels_list_r` -/
def augdsAug2yangAugnodeLabelsListR (augnode : Augnode) (children : Forest Augnode)
    (frames : List Frame)
    (childLabels : List Frame → Matches → LoadState → Option (Matches × LoadState))
    (labels : Matches) (state : LoadState) : Option (Matches × LoadState) :=
  match augnode.schema.key with
  | .id => listLoop libyang augnode children frames childLabels (some 1) labels state
  | .rId =>
      listLoop libyang augnode children frames childLabels none labels
        (state.setNextIdx augnode.schema.id 1)
  | _ => none

/-- Loop of `augds_aug2yang_augnode_labels_case_r` over the case nodes. -/
def caseLoop (augnode : Augnode) (children : Forest Augnode) (frames : List Frame)
    (childLabels : List Frame → Matches → LoadState → Option (Matches × LoadState))
    (label : Label) (labels : Matches) :
    List CaseNode → LoadState → Option (Matches × LoadState)
  | [], state => some (labels, state)
  | caseNode :: rest, state =>
      if !augdsExtLabelNodeEqual caseNode.dataPath label.name ||
          (['$', '$'].isPrefixOf caseNode.dataPath && !caseNode.pattern label.name) then
        caseLoop augnode children frames childLabels label labels rest state
      else if augnode.schema.nodetype ≠ .container ∧
          ¬(augnode.schema.nodetype = .list ∧ augnode.schema.key = .id) then none
      else do
        let value := if augnode.schema.nodetype = .list then some (Value.index 1) else none
        let (node, created) ← augdsAug2yangAugnodeCreateNode libyang augnode.schema value
          (parentOf frames) .around state
        let node ← node
        if !libyang.whenTrue augnode.schema created then
          caseLoop augnode children frames childLabels label labels rest (created.free node)
        else if augnode.schema.nodetype = .list then
          augdsAug2yangAugnodeLabelsListR libyang augnode children frames childLabels labels
            (created.free node)
        else childLabels (⟨augnode, children, node⟩ :: frames) labels created

/-- `augds_aug2yang_augnode_labels_case_r`; only the first label can match. -/
def augdsAug2yangAugnodeLabelsCaseR (augnode : Augnode) (children : Forest Augnode)
    (frames : List Frame)
    (childLabels : List Frame → Matches → LoadState → Option (Matches × LoadState))
    (labels : Matches) (state : LoadState) : Option (Matches × LoadState) :=
  match labels.findSome? id with
  | some (label, _) =>
      caseLoop libyang augnode children frames childLabels label labels augnode.caseNodes state
  | none => some (labels, state)

/-- `augds_aug2yang_augnode_leafref_parent`: the list around the leafref that its path leads
to, and what is around the list. -/
def augdsAug2yangAugnodeLeafrefParent (list : Nat) : List Frame → Option (Frame × List Frame)
  | [] => none
  | frame :: frames =>
      if frame.augnode.schema.id = list then some (frame, frames)
      else augdsAug2yangAugnodeLeafrefParent list frames

/-- Whether a child has the path of the label; every child up to it must have a path. -/
def childMatches (labelNode : Text) : Forest Augnode → Option Bool
  | .nil => some false
  | .cons augnode _ rest =>
      match augnode.dataPath with
      | none => none
      | some path =>
          if augdsExtLabelNodeEqual path labelNode then some true else childMatches labelNode rest

/-- Loop of `augds_aug2yang_augnode_recursive_labels_r`. -/
def recursiveLoop (leafref : Augnode) (list : Frame) (outer frames : List Frame) :
    Matches → LoadState → Option (Matches × LoadState)
  | [], state => some ([], state)
  | none :: rest, state => do
      let (rest, state) ← recursiveLoop leafref list outer frames rest state
      some (none :: rest, state)
  | some (label, below) :: rest, state => do
      if !(← childMatches label.name list.children) then
        let (rest, state) ← recursiveLoop leafref list outer frames rest state
        some (some (label, below) :: rest, state)
      else
        let id := list.augnode.schema.id
        let key := state.nextIdx id
        let (node, state) ← augdsAug2yangAugnodeCreateNode libyang list.augnode.schema
          (some (.index key)) (parentOf outer) (.instance_ label.id) (state.setNextIdx id (key + 1))
        let node ← node
        let (slice, state) ← again ({ list with node := node } :: outer) list.children
          [some (label, below)] state
        if !state.hasChild node then
          if slice.all Option.isNone then none
          else
            let state := state.free node
            let (rest, state) ← recursiveLoop leafref list outer frames rest
              (state.setNextIdx id (state.nextIdx id - 1))
            some (slice ++ rest, state)
        else if slice.any Option.isSome then none
        else
          let (_, state) ← augdsAug2yangAugnodeCreateNode libyang leafref.schema
            (some (.index key)) (parentOf frames) (.leafref id) state
          let (rest, state) ← recursiveLoop leafref list outer frames rest state
          some (slice ++ rest, state)

/-- `augds_aug2yang_augnode_recursive_labels_r` -/
def augdsAug2yangAugnodeRecursiveLabelsR (leafref : Augnode) (frames : List Frame)
    (labels : Matches) (state : LoadState) : Option (Matches × LoadState) := do
  let id ← leafref.schema.leafref
  let (list, outer) ← augdsAug2yangAugnodeLeafrefParent id frames
  if list.augnode.schema.nodetype = .list ∧ list.augnode.schema.hasParent = true ∧
      list.augnode.schema.key = .rId ∧ state.nextIdx id ≠ 0 then
    recursiveLoop libyang again leafref list outer frames labels state
  else none

/-- One round of the loop in `augds_aug2yang_augnode_labels_r`. -/
def labelsOf (augnode : Augnode) (children : Forest Augnode) (frames : List Frame)
    (childLabels : List Frame → Matches → LoadState → Option (Matches × LoadState))
    (labels : Matches) (state : LoadState) : Option (Matches × LoadState) :=
  match augnode.dataPath with
  | some path =>
      augdsAug2yangAugnodeLabelsValueR libyang again augnode path children frames labels state
  | none =>
      if augnode.schema.nodetype = .list ∧ augnode.schema.hasParent = false then
        if augnode.schema.key ≠ .configFile then none
        else do
          let (node, state) ← augdsAug2yangAugnodeCreateNode libyang augnode.schema
            (some (.text file)) (parentOf frames) .around state
          childLabels (⟨augnode, children, ← node⟩ :: frames) labels state
      else if augnode.caseNodes ≠ [] then
        augdsAug2yangAugnodeLabelsCaseR libyang augnode children frames childLabels labels state
      else
        match augnode.schema.nodetype with
        | .list =>
            augdsAug2yangAugnodeLabelsListR libyang augnode children frames childLabels labels state
        | .leaf =>
            augdsAug2yangAugnodeRecursiveLabelsR libyang again augnode frames labels state
        | .container => do
            let (node, state) ← augdsAug2yangAugnodeCreateNode libyang augnode.schema none
              (parentOf frames) .around state
            childLabels (⟨augnode, children, ← node⟩ :: frames) labels state
        | .leafList => none

/-- `augds_aug2yang_augnode_labels_r`, which `again` stands for where the recursion does not go
down in the augnodes. -/
def labelsLoop : List Frame → Forest Augnode → Matches → LoadState → Option (Matches × LoadState)
  | _, .nil, labels, state => some (labels, state)
  | frames, .cons augnode children rest, labels, state => do
      let (labels, state) ← labelsOf libyang file again augnode children frames
        (fun frames labels state => labelsLoop frames children labels state) labels state
      labelsLoop frames rest labels state

end Level

section Load

variable (libyang : Libyang) (file : Text)

/-- `augds_aug2yang_augnode_labels_r` with a bound for the depth of the recursion. -/
def augdsAug2yangAugnodeLabelsR : Nat → LabelsR
  | 0 => fun _ _ _ _ => none
  | depth + 1 => labelsLoop libyang file (augdsAug2yangAugnodeLabelsR depth)

def LoadState.initial : LoadState := ⟨[], 0, fun _ => 0, [], []⟩

/-- The data of a file. -/
def load (depth : Nat) (augnodes : Forest Augnode) (below : Forest Label) : Option LoadState :=
  augdsAug2yangAugnodeR (augdsAug2yangAugnodeLabelsR libyang file depth) [] augnodes below .initial

end Load

end SysrepoAugeas.Load
