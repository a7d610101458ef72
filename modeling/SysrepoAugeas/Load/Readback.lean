import SysrepoAugeas.Load.Aug2yang
import SysrepoAugeas.Store.Nested

/-!
# Loading what implicit lists stand for

The Augeas tree of nested implicit lists determines their YANG data up to the
keys: a load creates the entries in the order of the Augeas nodes and numbers
them from one on, and it uses every label.
-/

namespace SysrepoAugeas.Load

open SysrepoAugeas.Data
open SysrepoAugeas.Label (Text)
open SysrepoAugeas.Store (Item Entry ExtNodeType)

/-- Node of the YANG data. -/
structure YangNode where
  schema : Nat
  value : Option Value
  deriving DecidableEq

section Data

/-- The Augeas nodes without their absolute paths. -/
def augTrees : Forest Label → List Store.AugTree
  | .nil => []
  | .cons label below rest =>
      Store.AugTree.node (String.ofList label.name) (label.value.map String.ofList) (augTrees below) ::
        augTrees rest

/-- A node without the reason for its creation. -/
def DataNode.bare (node : DataNode) : DataNode := { node with origin := .around }

/-- Nodes in the order of their creation, the first one with the identifier `start`. -/
def nodesOf (start : Nat) (parent : Option Nat) : Forest YangNode → List DataNode
  | .nil => []
  | .cons node kids rest =>
      ⟨start, parent, node.schema, node.value, .around⟩ ::
        (nodesOf (start + 1) (some start) kids ++ nodesOf (start + kids.size + 1) parent rest)

theorem nodesOf_append (forest other : Forest YangNode) (start : Nat) (parent : Option Nat) :
    nodesOf start parent (forest.append other) =
      nodesOf start parent forest ++ nodesOf (start + forest.size) parent other := by
  induction forest generalizing start parent with
  | nil => rfl
  | cons node kids rest _ restHypothesis =>
      have place : start + kids.size + 1 + rest.size = start + (kids.size + rest.size + 1) := by
        omega
      rw [Forest.append, nodesOf, nodesOf, restHypothesis, place, Forest.size]
      simp

/-- The value of a container is for its first child. -/
def firstChildNodes (schema : Schema) : Option Value → Forest YangNode
  | some value => .cons ⟨schema.firstChild, some value⟩ .nil .nil
  | none => .nil

/-- An optional leaf without value is not there. -/
def Schema.skips (schema : Schema) (value : Option Value) : Bool :=
  schema.nodetype.isTerm && value.isNone && !schema.mandatory && !schema.isEmpty

/-- What a value creates. -/
def valueNodes (schema : Schema) (value : Option Value) (kids : Forest YangNode) :
    Forest YangNode :=
  if schema.skips value then .nil
  else if schema.nodetype = .container then
    .cons ⟨schema.id, none⟩ ((firstChildNodes schema value).append kids) .nil
  else .cons ⟨schema.id, value⟩ kids .nil

/-- Value of the schema node of an entry. -/
def entryValue (augnode : Augnode) (entry : Entry Item) : Option Value :=
  match entry.schema.type with
  | .label => some (.text entry.term.toList)
  | .value =>
      if augnode.schema.nodetype.isTerm then
        entry.content.value.map fun value => .text value.toList
      else none

/-- The node at the value path. -/
def secondNodes (augnode : Augnode) (entry : Entry Item) : Forest YangNode :=
  match augnode.schema2 with
  | some schema => valueNodes schema (entry.content.value.map fun value => .text value.toList) .nil
  | none => .nil

/-- What an entry contains besides its key. -/
def entryNodes (augnode : Augnode) (entry : Entry Item) (nested : Forest YangNode) :
    Forest YangNode :=
  if augnode.schema.nodetype.isTerm then
    (valueNodes augnode.schema (entryValue augnode entry) .nil).append (secondNodes augnode entry)
  else
    valueNodes augnode.schema (entryValue augnode entry)
      ((secondNodes augnode entry).append nested)

/-- The label has the path of the augnode and matches its pattern. -/
def Augnode.takes (augnode : Augnode) (name : Text) : Bool :=
  augnode.dataPath.any fun path =>
    if ['$', '$'].isPrefixOf path then augnode.pattern name else path == name

/-- The alternative for a label. -/
def choose (name : Text) : Forest Augnode → Option (Augnode × Forest Augnode)
  | .nil => none
  | .cons augnode children rest =>
      if augnode.takes name then some (augnode, children) else choose name rest

mutual
/-- YANG data in an entry with the nodes of a choice. -/
def itemYang (alternatives : Forest Augnode) : Item → Forest YangNode
  | .item id schema term value nested =>
      let entry : Entry Item := ⟨id, schema, term, ⟨value, nested⟩⟩
      match choose entry.label.toList alternatives with
      | some (augnode, .cons list inner _) =>
          entryNodes augnode entry (listYang list.schema.id inner 1 nested)
      | some (augnode, .nil) => entryNodes augnode entry .nil
      | none => .nil

/-- The entries of a list with their keys. -/
def listYang (list : Nat) (alternatives : Forest Augnode) (key : Nat) :
    List Item → Forest YangNode
  | [] => .nil
  | item :: rest =>
      .cons ⟨list, some (.index key)⟩ (itemYang alternatives item)
        (listYang list alternatives (key + 1) rest)
end

/-- YANG data of entries at a place that has an implicit list or nothing. -/
def levelYang (augnodes : Forest Augnode) (items : List Item) : Forest YangNode :=
  match augnodes with
  | .nil => .nil
  | .cons list alternatives _ => listYang list.schema.id alternatives 1 items

end Data

section Conform

/-- What the augnodes of implicit lists and the nodes in them look like. -/
structure IsImplicitList (libyang : Libyang) (list : Augnode) : Prop where
  noPath : list.dataPath = none
  noCases : list.caseNodes = []
  isList : list.schema.nodetype = .list
  hasParent : list.schema.hasParent = true
  key : list.schema.key = .id
  accepted : ∀ index, libyang.accepts list.schema (some (.index index)) = true

mutual
/-- At every place there is one implicit list or nothing. -/
def ListLevel (libyang : Libyang) : Forest Augnode → Prop
  | .nil => True
  | .cons list alternatives rest =>
      IsImplicitList libyang list ∧ Alternatives libyang alternatives ∧ rest = .nil

/-- The nodes of a choice have paths, and lists below them. -/
def Alternatives (libyang : Libyang) : Forest Augnode → Prop
  | .nil => True
  | .cons augnode children rest =>
      augnode.dataPath.isSome ∧ (augnode.schema.nodetype.isTerm = true → children = .nil) ∧
        ListLevel libyang children ∧ Alternatives libyang rest
end

/-- The entry is valid for its augnode. -/
structure Valid (libyang : Libyang) (augnode : Augnode) (entry : Entry Item) : Prop where
  typed : ∀ path ∈ augnode.dataPath,
    ['$', '$'].isPrefixOf path = decide (entry.schema.type = .label)
  present : augnode.schema.skips (entryValue augnode entry) = false
  accepted : libyang.accepts augnode.schema (entryValue augnode entry) = true
  second : ∀ schema ∈ augnode.schema2,
    libyang.accepts schema (entry.content.value.map fun value => .text value.toList) = true

mutual
/-- The entry is valid, with everything below, for the first augnode that takes its label. -/
def ItemFits (libyang : Libyang) (alternatives : Forest Augnode) : Item → Prop
  | .item id schema term value nested =>
      let entry : Entry Item := ⟨id, schema, term, ⟨value, nested⟩⟩
      entry.label.toList ≠ commentName ∧ entry.label.toList ≠ scommentName ∧
        match choose entry.label.toList alternatives with
        | some (augnode, .cons _ inner _) =>
            Valid libyang augnode entry ∧ ItemsFit libyang inner nested
        | some (augnode, .nil) => Valid libyang augnode entry ∧ nested = []
        | none => False

def ItemsFit (libyang : Libyang) (alternatives : Forest Augnode) : List Item → Prop
  | [] => True
  | item :: rest => ItemFits libyang alternatives item ∧ ItemsFit libyang alternatives rest
end

def LevelFits (libyang : Libyang) (augnodes : Forest Augnode) (items : List Item) : Prop :=
  match augnodes with
  | .nil => items = []
  | .cons _ alternatives _ => ItemsFit libyang alternatives items

variable {libyang : Libyang} {alternatives : Forest Augnode} {item : Item}

theorem itemFits_of_choose {augnode : Augnode} {children : Forest Augnode}
    (notComment : item.entry.label.toList ≠ commentName)
    (notScomment : item.entry.label.toList ≠ scommentName)
    (found : choose item.entry.label.toList alternatives = some (augnode, children))
    (valid : Valid libyang augnode item.entry) (below : LevelFits libyang children item.nested) :
    ItemFits libyang alternatives item := by
  cases item with
  | item id schema term value nested =>
      rw [ItemFits]
      refine ⟨notComment, notScomment, ?_⟩
      change choose (Entry.label (⟨id, schema, term, ⟨value, nested⟩⟩ : Entry Item)).toList
        alternatives = some (augnode, children) at found
      rw [found]
      cases children with
      | nil => exact ⟨valid, below⟩
      | cons list inner rest => exact ⟨valid, below⟩

/-- The augnode of a valid entry. -/
theorem exists_of_itemFits (fits : ItemFits libyang alternatives item) :
    ∃ augnode children, choose item.entry.label.toList alternatives = some (augnode, children) ∧
      Valid libyang augnode item.entry ∧ LevelFits libyang children item.nested ∧
      itemYang alternatives item = entryNodes augnode item.entry (levelYang children item.nested) := by
  cases item with
  | item id schema term value nested =>
      rw [ItemFits] at fits
      obtain ⟨-, -, fits⟩ := fits
      split at fits
      · rename_i augnode list inner rest found
        exact ⟨augnode, .cons list inner rest, found, fits.1, fits.2, by
          rw [itemYang, found]
          rfl⟩
      · rename_i augnode found
        exact ⟨augnode, .nil, found, fits.1, fits.2, by
          rw [itemYang, found]
          rfl⟩
      · cases fits

theorem not_comment_of_itemFits (fits : ItemFits libyang alternatives item) :
    item.entry.label.toList ≠ commentName ∧ item.entry.label.toList ≠ scommentName := by
  cases item with
  | item id schema term value nested =>
      rw [ItemFits] at fits
      exact ⟨fits.1, fits.2.1⟩

end Conform

section Nodes

/-- What a part of the load creates below a parent; no label of it is left over. -/
structure Added (state final : LoadState) (parent : Option Nat) (forest : Forest YangNode) : Prop where
  nodes : final.nodes.map DataNode.bare =
    state.nodes.map DataNode.bare ++ nodesOf state.fresh parent forest
  fresh : final.fresh = state.fresh + forest.size
  reports : (∀ report ∈ state.reports, report.nonProcessed = []) →
    ∀ report ∈ final.reports, report.nonProcessed = []

variable {libyang : Libyang} {schema : Schema} {value : Option Value} {parent : Option Nat}
  {origin : Origin} {state middle final : LoadState} {forest other kids : Forest YangNode}

theorem Added.refl (state : LoadState) (parent : Option Nat) : Added state state parent .nil where
  nodes := (List.append_nil _).symm
  fresh := rfl
  reports := id

theorem Added.append (first : Added state middle parent forest)
    (second : Added middle final parent other) : Added state final parent (forest.append other) where
  nodes := by
    rw [second.nodes, first.nodes, first.fresh, nodesOf_append, List.append_assoc]
  fresh := by
    rw [second.fresh, first.fresh, Forest.size_append, Nat.add_assoc]
  reports := fun none => second.reports (first.reports none)

/-- A node that is there has its first child in front of what is below it. -/
theorem valueNodes_present (present : schema.skips value = false) (kids : Forest YangNode) :
    valueNodes schema value kids =
      .cons ⟨schema.id, if schema.nodetype = .container then none else value⟩
        ((if schema.nodetype = .container then firstChildNodes schema value else .nil).append kids)
        .nil := by
  rw [valueNodes, if_neg (by simp [present])]
  split
  · rfl
  · rfl

theorem size_valueNodes (present : schema.skips value = false) (kids : Forest YangNode) :
    (valueNodes schema value kids).size = (valueNodes schema value .nil).size + kids.size := by
  rw [valueNodes_present present, valueNodes_present present]
  simp only [Forest.size, Forest.size_append]
  omega

/-- What is below a node comes behind it. -/
theorem nodesOf_valueNodes (present : schema.skips value = false) (kids : Forest YangNode)
    (start : Nat) :
    nodesOf start parent (valueNodes schema value kids) =
      nodesOf start parent (valueNodes schema value .nil) ++
        nodesOf (start + (valueNodes schema value .nil).size) (some start) kids := by
  rw [valueNodes_present present kids, valueNodes_present present .nil]
  simp [nodesOf, nodesOf_append, Forest.size, Nat.add_assoc, Nat.add_comm]

theorem Added.below (present : schema.skips value = false)
    (node : Added state middle parent (valueNodes schema value .nil))
    (inside : Added middle final (some state.fresh) kids) :
    Added state final parent (valueNodes schema value kids) where
  nodes := by
    rw [inside.nodes, node.nodes, node.fresh, nodesOf_valueNodes present kids, List.append_assoc]
  fresh := by
    rw [inside.fresh, node.fresh, size_valueNodes present kids, Nat.add_assoc]
  reports := fun none => inside.reports (node.reports none)

theorem Added.hasChild {node : Nat} (inside : Added state final (some node) forest)
    (nonempty : forest ≠ .nil) : final.hasChild node = true := by
  cases forest with
  | nil => exact absurd rfl nonempty
  | cons top kids rest =>
      have member : (⟨state.fresh, some node, top.schema, top.value, .around⟩ : DataNode) ∈
          final.nodes.map DataNode.bare := by
        rw [inside.nodes, nodesOf]
        apply List.mem_append_right
        exact List.mem_cons_self
      obtain ⟨child, isIn, same⟩ := List.mem_map.mp member
      apply List.any_eq_true.mpr
      refine ⟨child, isIn, ?_⟩
      have isChild := congrArg DataNode.parent same
      exact beq_iff_eq.mpr isChild

/-- A node is created unless it is an optional leaf without value. -/
theorem createNode_present (present : schema.skips value = false)
    (accepted : libyang.accepts schema value = true) :
    ∃ final, augdsAug2yangAugnodeCreateNode libyang schema value parent origin state =
        some (some state.fresh, final) ∧
      Added state final parent (valueNodes schema value .nil) := by
  have notSkipped : ¬(schema.nodetype.isTerm && value.isNone && !schema.mandatory &&
      !schema.isEmpty) = true := by
    rw [← Schema.skips, present]
    decide
  rw [augdsAug2yangAugnodeCreateNode, if_neg notSkipped, if_neg (by simp [accepted]),
    valueNodes_present present]
  by_cases isContainer : schema.nodetype = .container
  · rw [if_pos isContainer]
    refine ⟨_, rfl, ?_⟩
    cases value with
    | none =>
        refine ⟨?_, ?_, id⟩
        · simp [isContainer, addFirstChild, firstChildNodes, LoadState.addNode, nodesOf,
            DataNode.bare]
        · simp [isContainer, addFirstChild, firstChildNodes, LoadState.addNode, Forest.size]
    | some value =>
        refine ⟨?_, ?_, id⟩
        · simp [isContainer, addFirstChild, firstChildNodes, LoadState.addNode, nodesOf,
            DataNode.bare]
        · simp [isContainer, addFirstChild, firstChildNodes, LoadState.addNode, Forest.size,
            Nat.add_assoc]
  · rw [if_neg isContainer]
    refine ⟨_, rfl, ?_, ?_, id⟩
    · simp [isContainer, LoadState.addNode, nodesOf, DataNode.bare]
    · simp [isContainer, LoadState.addNode, Forest.size]

theorem createNode_valueNodes (accepted : libyang.accepts schema value = true) :
    ∃ node final, augdsAug2yangAugnodeCreateNode libyang schema value parent origin state =
        some (node, final) ∧
      Added state final parent (valueNodes schema value .nil) := by
  cases present : schema.skips value with
  | false =>
      obtain ⟨final, created, added⟩ := createNode_present present accepted
      exact ⟨_, final, created, added⟩
  | true =>
      refine ⟨none, state, ?_, ?_⟩
      · rw [augdsAug2yangAugnodeCreateNode, ← Schema.skips, if_pos present]
      · rw [valueNodes, if_pos present]
        exact Added.refl state parent

/-- A valid entry contains more than its key. -/
theorem itemYang_ne_nil {alternatives : Forest Augnode} {item : Item}
    (fits : ItemFits libyang alternatives item) : itemYang alternatives item ≠ .nil := by
  obtain ⟨augnode, children, -, valid, -, yang⟩ := exists_of_itemFits fits
  rw [yang, entryNodes]
  split
  · rw [valueNodes_present valid.present]
    intro same
    cases same
  · rw [valueNodes_present valid.present]
    intro same
    cases same

end Nodes

section Levels

variable {libyang : Libyang} {file : Text} {again : LabelsR} {frames : List Frame}
  {augnode : Augnode} {children alternatives : Forest Augnode} {label : Label}
  {below : Forest Label} {state final : LoadState} {item : Item} {parent : Option Nat}
  {forest : Forest YangNode}

/-- The label and what is below it stand for the entry. -/
structure Counterpart (item : Item) (label : Label) (below : Forest Label) : Prop where
  name : label.name = item.entry.label.toList
  value : label.value = item.entry.content.value.map String.toList
  nested : augTrees below = Item.toAugs item.nested

/-- The load below a node reads what the augnodes can have there. -/
def Reads (libyang : Libyang) (again : LabelsR) (augnodes : Forest Augnode) : Prop :=
  ∀ {frames : List Frame} {below : Forest Label} {items : List Item} {state : LoadState},
    augTrees below = Item.toAugs items → LevelFits libyang augnodes items →
    ∃ final, augdsAug2yangAugnodeR again frames augnodes below state = some final ∧
      Added state final (parentOf frames) (levelYang augnodes items)

/-- An augnode with a path leaves a label alone that it does not take. -/
theorem labelsOf_notTaken (hasPath : augnode.dataPath.isSome)
    (notTaken : augnode.takes label.name = false)
    (childLabels : List Frame → Matches → LoadState → Option (Matches × LoadState)) :
    labelsOf libyang file again augnode children frames childLabels [some (label, below)] state =
      some ([some (label, below)], state) := by
  obtain ⟨path, isPath⟩ := Option.isSome_iff_exists.mp hasPath
  rw [Augnode.takes, isPath, Option.any_some] at notTaken
  rw [labelsOf, isPath]
  simp only [augdsAug2yangAugnodeLabelsValueR]
  split
  · rfl
  · rename_i equal
    rw [Bool.not_eq_true', Bool.not_eq_false, augdsExtLabelNodeEqual] at equal
    split at notTaken
    · rename_i isLabel
      rw [primaryValue, if_pos isLabel, if_neg (by simp [notTaken])]
    · rename_i notLabel
      rw [Bool.or_eq_true] at equal
      rcases equal with isLabel | same
      · exact absurd isLabel notLabel
      · rw [same] at notTaken
        cases notTaken

theorem labelsOf_used (hasPath : augnode.dataPath.isSome)
    (childLabels : List Frame → Matches → LoadState → Option (Matches × LoadState)) :
    labelsOf libyang file again augnode children frames childLabels [none] state =
      some ([none], state) := by
  obtain ⟨path, isPath⟩ := Option.isSome_iff_exists.mp hasPath
  rw [labelsOf, isPath]
  rfl

theorem labelsLoop_used (level : Alternatives libyang alternatives) :
    labelsLoop libyang file again frames alternatives [none] state = some ([none], state) := by
  induction alternatives with
  | nil => rfl
  | cons augnode children rest _ restHypothesis =>
      rw [Alternatives] at level
      rw [labelsLoop, labelsOf_used level.1]
      exact restHypothesis level.2.2.2

/-- The value of the primary node. -/
theorem primaryValue_taken {path : Text} (isPath : augnode.dataPath = some path)
    (taken : augnode.takes label.name) (valid : Valid libyang augnode item.entry)
    (counterpart : Counterpart item label below) :
    augdsExtLabelNodeEqual path label.name = true ∧
      primaryValue augnode path label = some (entryValue augnode item.entry) := by
  have typed := valid.typed path isPath
  rw [Augnode.takes, isPath, Option.any_some] at taken
  rw [augdsExtLabelNodeEqual, primaryValue, entryValue, counterpart.value]
  cases type : item.entry.schema.type with
  | label =>
      have isLabel : ['$', '$'].isPrefixOf path = true := by rw [typed, type]; rfl
      have sameName : item.entry.label = item.entry.term := by rw [Entry.label, type]
      rw [if_pos isLabel] at taken
      rw [isLabel, taken, counterpart.name, sameName]
      exact ⟨rfl, rfl⟩
  | value =>
      have notLabel : ['$', '$'].isPrefixOf path = false := by rw [typed, type]; rfl
      rw [notLabel, if_neg Bool.false_ne_true] at taken
      rw [notLabel, taken]
      refine ⟨rfl, ?_⟩
      rw [if_neg Bool.false_ne_true]
      split
      · rw [Option.map_map]
        rfl
      · rfl

/-- The node at the value path comes behind the primary node. -/
theorem createSecond_added (valid : Valid libyang augnode item.entry)
    (counterpart : Counterpart item label below) (node : Option Nat) :
    ∃ final, createSecond libyang augnode label frames node state = some final ∧
      Added state final (if augnode.schema.nodetype.isTerm then parentOf frames else node)
        (secondNodes augnode item.entry) := by
  rw [createSecond, secondNodes, counterpart.value, Option.map_map]
  cases isSecond : augnode.schema2 with
  | none => exact ⟨state, rfl, Added.refl state _⟩
  | some schema2 =>
      obtain ⟨second, final, created, added⟩ := createNode_valueNodes (valid.second schema2 isSecond)
      refine ⟨final, ?_, added⟩
      change Option.map Prod.snd (augdsAug2yangAugnodeCreateNode libyang schema2
        (item.entry.content.value.map fun value => .text value.toList) _ .around state) = _
      rw [created]
      rfl

theorem visitChildren_reads (reads : Reads libyang again children) {node : Nat} {items : List Item}
    (counterpart : augTrees below = Item.toAugs items) (fits : LevelFits libyang children items) :
    ∃ final, visitChildren again augnode children frames (some node) below state = some final ∧
      Added state final (some node) (levelYang children items) := by
  obtain ⟨final, read, added⟩ :=
    @reads (⟨augnode, children, node⟩ :: frames) below items state counterpart fits
  refine ⟨final, ?_, added⟩
  cases children with
  | nil => exact read
  | cons list inner rest => exact read

theorem Added.use (added : Added (state.use augnode label) final parent forest) :
    Added state final parent forest := ⟨added.nodes, added.fresh, added.reports⟩

/-- The augnode that takes a label creates what the entry contains. -/
theorem labelsOf_taken (hasPath : augnode.dataPath.isSome) (taken : augnode.takes label.name)
    (valid : Valid libyang augnode item.entry) (counterpart : Counterpart item label below)
    (leaf : augnode.schema.nodetype.isTerm = true → children = .nil)
    (fits : LevelFits libyang children item.nested) (reads : Reads libyang again children)
    (childLabels : List Frame → Matches → LoadState → Option (Matches × LoadState)) :
    ∃ final, labelsOf libyang file again augnode children frames childLabels
        [some (label, below)] state = some ([none], final) ∧
      Added state final (parentOf frames)
        (entryNodes augnode item.entry (levelYang children item.nested)) := by
  obtain ⟨path, isPath⟩ := Option.isSome_iff_exists.mp hasPath
  obtain ⟨equal, primary⟩ := primaryValue_taken isPath taken valid counterpart
  obtain ⟨middle, created, node⟩ := @createNode_present libyang augnode.schema
    (entryValue augnode item.entry) (parentOf frames) (.label label.id) state valid.present
    valid.accepted
  obtain ⟨second, createdSecond, behind⟩ := @createSecond_added libyang frames augnode label below
    (middle.use augnode label) item valid counterpart (some state.fresh)
  obtain ⟨final, visited, inside⟩ := @visitChildren_reads libyang again frames augnode children
    below second reads state.fresh item.nested counterpart.nested fits
  refine ⟨final, ?_, ?_⟩
  · rw [labelsOf, isPath]
    simp only [augdsAug2yangAugnodeLabelsValueR, equal, Bool.not_true, Bool.false_eq_true, if_false,
      primary, Option.bind_eq_bind, created, Option.bind_some, createdSecond, visited]
    split
    · rfl
    · rfl
  · rw [entryNodes]
    by_cases isTerm : augnode.schema.nodetype.isTerm = true
    · rw [if_pos isTerm] at behind ⊢
      obtain rfl := leaf isTerm
      rw [visitChildren, Option.some.injEq] at visited
      exact visited ▸ node.append behind.use
    · rw [if_neg isTerm] at behind ⊢
      exact node.below valid.present (behind.use.append inside)

/-- One of the alternatives takes the label. -/
theorem labelsLoop_reads (level : Alternatives libyang alternatives)
    (fits : ItemFits libyang alternatives item) (counterpart : Counterpart item label below)
    (reads : ∀ augnode children, choose label.name alternatives = some (augnode, children) →
      Reads libyang again children) :
    ∃ final, labelsLoop libyang file again frames alternatives [some (label, below)] state =
        some ([none], final) ∧
      Added state final (parentOf frames) (itemYang alternatives item) := by
  obtain ⟨augnode, children, found, valid, fitsBelow, yang⟩ := exists_of_itemFits fits
  rw [← counterpart.name] at found
  rw [yang]
  clear fits yang
  induction alternatives with
  | nil => cases found
  | cons first inner rest _ restHypothesis =>
      rw [Alternatives] at level
      obtain ⟨hasPath, leaf, -, others⟩ := level
      rw [choose] at found
      by_cases taken : first.takes label.name = true
      · have here : choose label.name (.cons first inner rest) = some (augnode, children) := by
          rw [choose, if_pos taken]
          rw [if_pos taken] at found
          exact found
        rw [if_pos taken, Option.some.injEq, Prod.mk.injEq] at found
        obtain ⟨rfl, rfl⟩ := found
        obtain ⟨final, done, added⟩ := @labelsOf_taken libyang file again frames first inner label
          below state item hasPath taken valid counterpart leaf fitsBelow (reads first inner here)
          (fun frames labels state => labelsLoop libyang file again frames inner labels state)
        refine ⟨final, ?_, added⟩
        rw [labelsLoop, done]
        exact labelsLoop_used others
      · rw [if_neg taken] at found
        rw [labelsLoop, labelsOf_notTaken hasPath (by simpa using taken)]
        apply restHypothesis others ?_ found
        intro augnode children isFound
        apply reads augnode children
        rw [choose, if_neg taken, isFound]

end Levels

section Lists

variable {libyang : Libyang} {file : Text} {again : LabelsR} {list : Augnode}
  {augnodes alternatives : Forest Augnode}

theorem nil_of_augTrees {below : Forest Label} (counterpart : augTrees below = Item.toAugs []) :
    below = .nil := by
  cases below with
  | nil => rfl
  | cons label kids rest => cases counterpart

/-- The labels of entries are those of the trees. -/
theorem exists_of_augTrees {below : Forest Label} {item : Item} {items : List Item}
    (counterpart : augTrees below = Item.toAugs (item :: items)) :
    ∃ label kids rest, below = .cons label kids rest ∧ Counterpart item label kids ∧
      augTrees rest = Item.toAugs items := by
  cases below with
  | nil => cases counterpart
  | cons label kids rest =>
      cases item with
      | item id schema term value nested =>
          rw [augTrees, Item.toAugs, Item.toAug, List.cons.injEq, Store.AugTree.node.injEq]
            at counterpart
          obtain ⟨⟨name, isValue, isNested⟩, isRest⟩ := counterpart
          refine ⟨label, kids, rest, rfl, ⟨?_, ?_, isNested⟩, isRest⟩
          · have sameName := congrArg String.toList name
            rwa [String.toList_ofList] at sameName
          · change label.value = value.map String.toList
            rw [← isValue, Option.map_map]
            simp [Function.comp_def]

/-- No entry is a comment. -/
theorem augMatch_eq {below : Forest Label} {items : List Item}
    (counterpart : augTrees below = Item.toAugs items)
    (fits : ItemsFit libyang alternatives items) : augMatch below = (trees below).map some := by
  rw [augMatch, List.filter_eq_self.mpr]
  induction items generalizing below with
  | nil =>
      rw [nil_of_augTrees counterpart]
      exact fun tree member => absurd member List.not_mem_nil
  | cons item items itemsHypothesis =>
      obtain ⟨label, kids, rest, rfl, here, others⟩ := exists_of_augTrees counterpart
      rw [ItemsFit] at fits
      intro tree member
      rcases List.mem_cons.mp member with rfl | isBehind
      · obtain ⟨notComment, notScomment⟩ := not_comment_of_itemFits fits.1
        rw [← here.name] at notComment notScomment
        simp [notComment, notScomment]
      · exact itemsHypothesis others fits.2 tree isBehind

/-- Every label gets an entry with the next key. -/
theorem listLoop_reads (implicit : IsImplicitList libyang list)
    (level : Alternatives libyang alternatives)
    (reads : ∀ name augnode children, choose name alternatives = some (augnode, children) →
      Reads libyang again children) {frames : List Frame} (items : List Item) {below : Forest Label}
    {key : Nat} {state : LoadState} (counterpart : augTrees below = Item.toAugs items)
    (fits : ItemsFit libyang alternatives items) :
    ∃ slice final, listLoop libyang list alternatives frames
        (fun frames labels state => labelsLoop libyang file again frames alternatives labels state)
        (some key) ((trees below).map some) state = some (slice, final) ∧
      (∀ entry ∈ slice, entry = none) ∧
      Added state final (parentOf frames) (listYang list.schema.id alternatives key items) := by
  induction items generalizing below key state with
  | nil =>
      rw [nil_of_augTrees counterpart]
      exact ⟨[], state, rfl, fun entry member => absurd member List.not_mem_nil, Added.refl state _⟩
  | cons item items itemsHypothesis =>
      obtain ⟨label, kids, rest, rfl, here, others⟩ := exists_of_augTrees counterpart
      rw [ItemsFit] at fits
      have present : list.schema.skips (some (.index key)) = false := by
        rw [Schema.skips, implicit.isList]
        rfl
      obtain ⟨created, isCreated, entry⟩ := @createNode_present libyang list.schema
        (some (.index key)) (parentOf frames) (.instance_ label.id) state present
        (implicit.accepted key)
      obtain ⟨inner, isInner, inside⟩ := @labelsLoop_reads libyang file again
        (⟨list, alternatives, state.fresh⟩ :: frames) alternatives label kids created item level
        fits.1 here (reads label.name)
      obtain ⟨slice, final, isFinal, used, behind⟩ :=
        @itemsHypothesis rest (key + 1) inner others fits.2
      have hasChild : inner.hasChild state.fresh = true := by
        apply inside.hasChild
        exact itemYang_ne_nil fits.1
      refine ⟨none :: slice, final, ?_, ?_, ?_⟩
      · rw [trees, List.map_cons, listLoop]
        simp only [Option.getD_some, Option.isNone_some, Bool.false_eq_true, if_false,
          Option.bind_eq_bind, isCreated, Option.bind_some, isInner, hasChild, if_true,
          Option.map_some, isFinal]
        rfl
      · intro other member
        rcases List.mem_cons.mp member with rfl | isBehind
        · rfl
        · exact used other isBehind
      · have whole := (entry.below present inside).append behind
        rw [valueNodes_present present, implicit.isList] at whole
        exact whole

/-- A place with an implicit list uses every label. -/
theorem labelsLoop_list (implicit : IsImplicitList libyang list)
    (level : Alternatives libyang alternatives)
    (reads : ∀ name augnode children, choose name alternatives = some (augnode, children) →
      Reads libyang again children) {frames : List Frame} {items : List Item} {below : Forest Label}
    {state : LoadState} (counterpart : augTrees below = Item.toAugs items)
    (fits : ItemsFit libyang alternatives items) :
    ∃ slice final, labelsLoop libyang file again frames (.cons list alternatives .nil)
        (augMatch below) state = some (slice, final) ∧ labelIds slice = [] ∧
      Added state final (parentOf frames) (listYang list.schema.id alternatives 1 items) := by
  obtain ⟨slice, final, done, used, added⟩ := @listLoop_reads libyang file again list alternatives
    implicit level reads frames items below 1 state counterpart fits
  refine ⟨slice, final, ?_, ?_, added⟩
  · rw [labelsLoop, labelsOf, augMatch_eq counterpart fits]
    simp only [implicit.noPath, implicit.noCases, implicit.isList, implicit.hasParent,
      augdsAug2yangAugnodeLabelsListR, implicit.key, done]
    rfl
  · apply List.filterMap_eq_nil_iff.mpr
    intro entry member
    rw [used entry member]
    rfl

/-- What is below the chosen augnode is smaller. -/
theorem listLevel_of_choose {name : Text} {augnode : Augnode} {children : Forest Augnode}
    (level : Alternatives libyang alternatives)
    (found : choose name alternatives = some (augnode, children)) :
    ListLevel libyang children ∧ children.size < alternatives.size := by
  induction alternatives with
  | nil => cases found
  | cons first inner rest _ restHypothesis =>
      rw [Alternatives] at level
      rw [choose] at found
      rw [Forest.size]
      split at found
      · obtain ⟨rfl, rfl⟩ := Prod.mk.inj (Option.some.inj found)
        exact ⟨level.2.2.1, by omega⟩
      · obtain ⟨below, smaller⟩ := restHypothesis level.2.2.2 found
        exact ⟨below, by omega⟩

/-- The report of a call that used every label. -/
theorem augnodeR_added {frames : List Frame} {rest : Forest Augnode} {below : Forest Label}
    {slice : Matches} {state final : LoadState} {parent : Option Nat} {forest : Forest YangNode}
    (done : again frames (.cons list alternatives rest) (augMatch below) state =
      some (slice, final)) (used : labelIds slice = []) (added : Added state final parent forest) :
    ∃ reported, augdsAug2yangAugnodeR again frames (.cons list alternatives rest) below state =
        some reported ∧ Added state reported parent forest := by
  refine ⟨{ final with reports := final.reports ++
    [⟨labelIds (augMatch below), labelIds slice, final.nodes, final.used⟩] }, ?_, added.nodes,
    added.fresh, fun none report member => ?_⟩
  · change (again frames (.cons list alternatives rest) (augMatch below) state).bind _ = _
    rw [done]
    rfl
  · rcases List.mem_append.mp member with before | isNew
    · exact added.reports none report before
    · rw [List.mem_singleton.mp isNew]
      exact used

/-- A load reads everything that stands for valid entries. -/
theorem reads_of_listLevel {depth : Nat} (level : ListLevel libyang augnodes)
    (enough : augnodes.size ≤ depth) :
    Reads libyang (augdsAug2yangAugnodeLabelsR libyang file depth) augnodes := by
  induction depth generalizing augnodes with
  | zero =>
      cases augnodes with
      | nil => exact fun _ _ => ⟨_, rfl, Added.refl _ _⟩
      | cons list alternatives rest =>
          rw [Forest.size] at enough
          omega
  | succ depth depthHypothesis =>
      cases augnodes with
      | nil => exact fun _ _ => ⟨_, rfl, Added.refl _ _⟩
      | cons list alternatives rest =>
          intro frames below items state counterpart fits
          rw [ListLevel] at level
          obtain ⟨implicit, inner, rfl⟩ := level
          rw [Forest.size] at enough
          obtain ⟨slice, final, done, used, added⟩ := @labelsLoop_list libyang file
            (augdsAug2yangAugnodeLabelsR libyang file depth) list alternatives implicit inner
            (fun name augnode children found => by
              obtain ⟨below, smaller⟩ := listLevel_of_choose inner found
              exact depthHypothesis below (by omega))
            frames items below state counterpart fits
          exact augnodeR_added done used added

/-- The list of files. -/
structure IsFileList (libyang : Libyang) (file : Text) (top : Augnode) : Prop where
  noPath : top.dataPath = none
  isList : top.schema.nodetype = .list
  noParent : top.schema.hasParent = false
  key : top.schema.key = .configFile
  accepted : libyang.accepts top.schema (some (.text file)) = true

/-- The YANG data of a file. -/
def fileYang (file : Text) (top list : Augnode) (alternatives : Forest Augnode)
    (items : List Item) : Forest YangNode :=
  .cons ⟨top.schema.id, some (.text file)⟩ (listYang list.schema.id alternatives 1 items) .nil

/-- A load of the counterpart of valid entries creates them. -/
theorem load_added {top : Augnode} {depth : Nat} {below : Forest Label} {items : List Item}
    (isFile : IsFileList libyang file top)
    (level : ListLevel libyang (.cons list alternatives .nil))
    (enough : (Forest.cons top (.cons list alternatives .nil) .nil).size ≤ depth)
    (counterpart : augTrees below = items.map Item.toAug)
    (fits : ItemsFit libyang alternatives items) :
    ∃ final, load libyang file depth (.cons top (.cons list alternatives .nil) .nil) below =
        some final ∧
      Added .initial final none (fileYang file top list alternatives items) := by
  rw [← Item.toAugs_eq] at counterpart
  rw [ListLevel] at level
  obtain ⟨implicit, inner, -⟩ := level
  simp only [Forest.size] at enough
  obtain ⟨depth, rfl⟩ := Nat.exists_eq_succ_of_ne_zero (Nat.ne_zero_of_lt enough)
  have present : top.schema.skips (some (.text file)) = false := by
    rw [Schema.skips, isFile.isList]
    rfl
  obtain ⟨created, isCreated, node⟩ := @createNode_present libyang top.schema
    (some (.text file)) none .around .initial present isFile.accepted
  obtain ⟨slice, final, done, used, inside⟩ := @labelsLoop_list libyang file
    (augdsAug2yangAugnodeLabelsR libyang file depth) list alternatives implicit inner
    (fun name augnode children found => by
      obtain ⟨below, smaller⟩ := listLevel_of_choose inner found
      exact reads_of_listLevel below (by omega))
    [⟨top, .cons list alternatives .nil, LoadState.initial.fresh⟩] items below created counterpart
    fits
  have whole : augdsAug2yangAugnodeLabelsR libyang file (depth + 1) []
      (.cons top (.cons list alternatives .nil) .nil) (augMatch below) .initial =
        some (slice, final) := by
    rw [augdsAug2yangAugnodeLabelsR, labelsLoop, labelsOf]
    simp only [isFile.noPath, isFile.isList, isFile.noParent, isFile.key, ne_eq, not_true_eq_false,
      and_self, if_true, if_false, parentOf, List.head?_nil, Option.map_none, Option.bind_eq_bind,
      isCreated, Option.bind_some, done]
    rfl
  obtain ⟨reported, loaded, added⟩ := augnodeR_added whole used (node.below present inside)
  rw [valueNodes_present present, isFile.isList] at added
  exact ⟨reported, loaded, added⟩

end Lists

section Records

/-! Files of records, each with a name and any number of aliases. -/

def permissive : Libyang := ⟨fun _ _ => true, fun _ _ => true⟩

def fileList : Augnode :=
  ⟨none, fun _ => false, ⟨0, .list, false, false, false, .configFile, 0, none⟩, none, []⟩

def recordList : Augnode :=
  ⟨none, fun _ => false, ⟨1, .list, false, false, true, .id, 0, none⟩, none, []⟩

def record : Augnode :=
  ⟨some "record".toList, fun _ => false, ⟨2, .container, false, false, true, .other, 3, none⟩,
    some ⟨3, .leaf, true, false, true, .other, 0, none⟩, []⟩

def nickList : Augnode :=
  ⟨none, fun _ => false, ⟨4, .list, false, false, true, .id, 0, none⟩, none, []⟩

def nick : Augnode :=
  ⟨some "$$".toList, fun _ => true, ⟨5, .leaf, true, false, true, .other, 0, none⟩, none, []⟩

def recordAlternatives : Forest Augnode :=
  .cons record (.cons nickList (.cons nick .nil .nil) .nil) .nil

def nickItem (id : Nat) (name : String) : Item := .item id ⟨"alias", .label, "$$", false⟩ name none []

def recordItem (id : Nat) (name : String) (nicks : List Item) : Item :=
  .item id ⟨"record", .value, "record", false⟩ "" (some name) nicks

theorem listLevel_records : ListLevel permissive (.cons recordList recordAlternatives .nil) := by
  have nicks : ListLevel permissive (.cons nickList (.cons nick .nil .nil) .nil) :=
    ⟨⟨rfl, rfl, rfl, rfl, rfl, fun _ => rfl⟩, ⟨rfl, fun _ => rfl, trivial, trivial⟩, rfl⟩
  have container : record.schema.nodetype.isTerm = false := rfl
  refine ⟨⟨rfl, rfl, rfl, rfl, rfl, fun _ => rfl⟩, ⟨rfl, ?_, nicks, trivial⟩, rfl⟩
  rw [container]
  exact fun isTerm => absurd isTerm Bool.false_ne_true

theorem isFileList_fileList (file : Text) : IsFileList permissive file fileList :=
  ⟨rfl, rfl, rfl, rfl, rfl⟩

theorem itemFits_nickItem {id : Nat} {name : String} (notComment : name.toList ≠ commentName)
    (notScomment : name.toList ≠ scommentName) :
    ItemFits permissive (.cons nick .nil .nil) (nickItem id name) := by
  have found : choose (nickItem id name).entry.label.toList (.cons nick .nil .nil) =
      some (nick, .nil) := rfl
  refine itemFits_of_choose notComment notScomment found ⟨?_, rfl, rfl, ?_⟩ rfl
  · intro path isPath
    obtain rfl := Option.some.inj isPath
    rfl
  · intro schema isSecond
    cases isSecond

theorem itemFits_recordItem {id : Nat} {name : String} {nicks : List Item}
    (fits : ItemsFit permissive (.cons nick .nil .nil) nicks) :
    ItemFits permissive recordAlternatives (recordItem id name nicks) := by
  have found : choose (recordItem id name nicks).entry.label.toList recordAlternatives =
      some (record, .cons nickList (.cons nick .nil .nil) .nil) := by
    have taken : record.takes (recordItem id name nicks).entry.label.toList = true := by
      change record.takes "record".toList = true
      decide
    rw [recordAlternatives, choose, if_pos taken]
  refine itemFits_of_choose ?_ ?_ found ⟨?_, rfl, rfl, fun _ _ => rfl⟩ fits
  · change "record".toList ≠ commentName
    decide
  · change "record".toList ≠ scommentName
    decide
  · intro path isPath
    obtain rfl := Option.some.inj isPath
    rfl

end Records

end SysrepoAugeas.Load
