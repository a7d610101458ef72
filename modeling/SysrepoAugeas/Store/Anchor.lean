import SysrepoAugeas.Store.Index

/-!
# The anchor of a new node among mixed siblings

Below one parent, nodes with a data-path, leaves without one and instances of
implicit user-ordered lists stand side by side.  Only the first and the last
kind have a node in Augeas; an anchor is looked for in the two neighbours of
the new node only.
-/

namespace SysrepoAugeas.Anchor

open SysrepoAugeas.Data

/-- `enum augds_ext_node_type` -/
inductive ExtNodeType where
  | none
  | value
  | label
  | recList
  | recLref
  deriving DecidableEq

/-- The type of a schema node with a data-path. -/
def ExtNodeType.hasPath : ExtNodeType → Bool
  | value | label => true
  | none | recList | recLref => false

/-- Child of a sibling. -/
structure LydChild where
  id : Nat
  type : ExtNodeType
  isKey : Bool
  deriving DecidableEq

/-- What is read of a `struct lyd_node` and its schema. -/
structure LydNode where
  id : Nat
  type : ExtNodeType
  /-- `augds_store_is_userord_list` -/
  userordList : Bool
  children : List LydChild
  deriving DecidableEq

/-- `lyd_child_no_keys` -/
def lydChildNoKeys (node : LydNode) : Option LydChild := node.children.find? fun child => !child.isKey

/-- A data node that an anchor can be: a sibling or a child of one. -/
inductive NodeRef where
  | sibling (id : Nat)
  | child (parent id : Nat)
  deriving DecidableEq

/-- Anchor in a neighbour with its type; `none` is the access through a null pointer. -/
def anchorIn (anchorChild : Bool) (neighbour : LydNode) : Option (NodeRef × ExtNodeType) :=
  if anchorChild then
    (lydChildNoKeys neighbour).map fun child => (.child neighbour.id child.id, child.type)
  else some (.sibling neighbour.id, neighbour.type)

/-- Siblings in front of a node and behind it. -/
structure Place where
  before : List LydNode
  after : List LydNode

/-- A neighbour that is looked at. -/
def Place.usable (anchorChild : Bool) (neighbour : Option LydNode) : Option LydNode :=
  neighbour.filter fun node => !anchorChild || node.userordList

theorem Place.usable_some (anchorChild : Bool) (node : LydNode) :
    usable anchorChild (some node) =
      if !anchorChild || node.userordList then some node else none := by
  rw [usable, Option.filter]

/-- The next instance as anchor, else none; the flag says that the new node goes before it. -/
def nextAnchor (anchorChild : Bool) (place : Place) : Option (Option (NodeRef × Bool)) :=
  match Place.usable anchorChild place.after.head? with
  | some next => (anchorIn anchorChild next).map fun anchor =>
      if anchor.2.hasPath then some (anchor.1, true) else none
  | none => some none

/-- Second part of `augds_store_anchor`, once the node and `anchor_child` are known. -/
def neighbourAnchor (anchorChild : Bool) (place : Place) : Option (Option (NodeRef × Bool)) :=
  match Place.usable anchorChild place.before.getLast? with
  | some previous => (anchorIn anchorChild previous).bind fun anchor =>
      if anchor.2.hasPath then some (some (anchor.1, false)) else nextAnchor anchorChild place
  | none => nextAnchor anchorChild place

/-- `augds_store_anchor` of a node with its place, in a parent with its own place; `keyName` is
the name of the first sibling if the parent is a user-ordered list, and empty else. -/
def augdsStoreAnchor (keyName : String) (type : ExtNodeType) (own parent : Place) :
    Option (Option (NodeRef × Bool)) :=
  if keyName = "_id" ∨ keyName = "_r-id" then neighbourAnchor true parent
  else if type.hasPath then neighbourAnchor false own
  else some none

section Siblings

/-- Node below the parent, in one of the forms that a generated module has. -/
inductive Sibling where
  /-- Node with a data-path; it may be a user-ordered list with the key `_seq`. -/
  | path (id : Nat) (isLabel userordList : Bool) (children : List LydChild)
  /-- Leaf without a data-path. -/
  | leaf (id : Nat)
  /-- Instance of an implicit list with its key and the node with a data-path. -/
  | implicit (id key node : Nat) (isLabel : Bool)
  deriving DecidableEq

def pathType (isLabel : Bool) : ExtNodeType := if isLabel then .label else .value

@[simp]
theorem hasPath_none : ExtNodeType.none.hasPath = false := rfl

@[simp]
theorem hasPath_pathType (isLabel : Bool) : (pathType isLabel).hasPath = true := by
  cases isLabel <;> rfl

def Sibling.toLyd : Sibling → LydNode
  | path id isLabel userordList children => ⟨id, pathType isLabel, userordList, children⟩
  | leaf id => ⟨id, .none, false, []⟩
  | implicit id key node isLabel =>
      ⟨id, .none, true, [⟨key, .none, true⟩, ⟨node, pathType isLabel, false⟩]⟩

/-- The Augeas nodes of siblings, in their order. -/
def augChildren : List Sibling → List NodeRef
  | [] => []
  | .path id _ _ _ :: rest => .sibling id :: augChildren rest
  | .leaf _ :: rest => augChildren rest
  | .implicit id _ node _ :: rest => .child id node :: augChildren rest

/-- The new node is a sibling itself or the child of a new instance of an implicit list. -/
inductive NewNode where
  | direct (keyName : String) (isLabel : Bool)
  | nested (keyName : String)

/-- The key of the parent fits the kind of the node. -/
def NewNode.Fits : NewNode → Prop
  | direct keyName _ => keyName ≠ "_id" ∧ keyName ≠ "_r-id"
  | nested keyName => keyName = "_id" ∨ keyName = "_r-id"

def placeOf (before after : List Sibling) : Place :=
  ⟨before.map Sibling.toLyd, after.map Sibling.toLyd⟩

/-- The anchor that is chosen for a new node between siblings; `inside` is its place in the new
instance when it is nested in one, and `outside` that of the parent when it is not. -/
def anchorOf (new : NewNode) (inside outside : Place) (before after : List Sibling) :
    Option (Option (NodeRef × Bool)) :=
  match new with
  | .direct keyName isLabel =>
      augdsStoreAnchor keyName (pathType isLabel) (placeOf before after) outside
  | .nested keyName => augdsStoreAnchor keyName .value inside (placeOf before after)

/-- Augeas nodes after `aug_insert` beside the anchor, or after `aug_set` creates the node
last. -/
def insertAt {Node : Type} [DecidableEq Node] (new : Node) (anchor : Option (Node × Bool))
    (nodes : List Node) : List Node :=
  match anchor with
  | some (anchor, true) => nodes.insertIdx (nodes.idxOf anchor) new
  | some (anchor, false) => nodes.insertIdx (nodes.idxOf anchor + 1) new
  | none => nodes ++ [new]

/-- The anchor is the neighbour in Augeas, and without one nothing is behind the new node; so
the new node lands between the Augeas nodes of its siblings. -/
structure AnchorRight (before after : List Sibling) (anchor : Option (NodeRef × Bool)) : Prop where
  previous : ∀ node, anchor = some (node, false) → (augChildren before).getLast? = some node
  next : ∀ node, anchor = some (node, true) → (augChildren after).head? = some node
  last : anchor = none → augChildren after = []
  lands : ∀ new : NodeRef, insertAt new anchor (augChildren before ++ augChildren after) =
    augChildren before ++ new :: augChildren after

/-- The Augeas node of a sibling. -/
def Sibling.ref : Sibling → Option NodeRef
  | path id _ _ _ => some (.sibling id)
  | leaf _ => none
  | implicit id _ node _ => some (.child id node)

theorem augChildren_cons (first : Sibling) (rest : List Sibling) :
    augChildren (first :: rest) = first.ref.toList ++ augChildren rest := by
  cases first <;> rfl

theorem augChildren_append (before after : List Sibling) :
    augChildren (before ++ after) = augChildren before ++ augChildren after := by
  induction before with
  | nil => rfl
  | cons first rest inductionHypothesis =>
      rw [List.cons_append, augChildren_cons, augChildren_cons, inductionHypothesis,
        List.append_assoc]

theorem augChildren_concat (init : List Sibling) (last : Sibling) :
    augChildren (init ++ [last]) = augChildren init ++ last.ref.toList := by
  rw [augChildren_append, augChildren_cons]
  simp [augChildren]

end Siblings

section Landing

variable {Node : Type} [DecidableEq Node] {before after : List Node} {anchor : Node}

theorem insertAt_behind (distinct : (before ++ after).Nodup)
    (isLast : before.getLast? = some anchor) (new : Node) :
    insertAt new (some (anchor, false)) (before ++ after) = before ++ new :: after := by
  obtain ⟨init, rfl⟩ : ∃ init, before = init ++ [anchor] := List.getLast?_eq_some_iff.mp isLast
  have fresh : anchor ∉ init := by
    intro member
    rw [List.append_assoc, List.nodup_append] at distinct
    exact distinct.2.2 anchor member anchor (by simp) rfl
  have position : (init ++ [anchor] ++ after).idxOf anchor = init.length := by
    rw [List.append_assoc, List.idxOf_append_of_notMem fresh]
    simp
  have length : init.length + 1 = (init ++ [anchor]).length := by simp
  rw [insertAt, position, length, insertIdx_split]

theorem insertAt_front (distinct : (before ++ after).Nodup)
    (isFirst : after.head? = some anchor) (new : Node) :
    insertAt new (some (anchor, true)) (before ++ after) = before ++ new :: after := by
  obtain ⟨rest, rfl⟩ : ∃ rest, after = anchor :: rest := List.head?_eq_some_iff.mp isFirst
  have fresh : anchor ∉ before := by
    intro member
    rw [List.nodup_append] at distinct
    exact distinct.2.2 anchor member anchor (by simp) rfl
  have position : (before ++ anchor :: rest).idxOf anchor = before.length := by
    rw [List.idxOf_append_of_notMem fresh]
    simp
  rw [insertAt, position, insertIdx_split]

end Landing

section Right

variable {before after : List Sibling} {node : NodeRef}

theorem anchorRight_previous_iff (distinct : (augChildren before ++ augChildren after).Nodup) :
    AnchorRight before after (some (node, false)) ↔
      (augChildren before).getLast? = some node := by
  refine ⟨fun right => right.previous node rfl, fun isLast => ⟨?_, ?_, ?_, ?_⟩⟩
  · rintro other same
    cases same
    exact isLast
  · rintro other same
    cases same
  · intro same
    cases same
  · exact insertAt_behind distinct isLast

theorem anchorRight_next_iff (distinct : (augChildren before ++ augChildren after).Nodup) :
    AnchorRight before after (some (node, true)) ↔ (augChildren after).head? = some node := by
  refine ⟨fun right => right.next node rfl, fun isFirst => ⟨?_, ?_, ?_, ?_⟩⟩
  · rintro other same
    cases same
  · rintro other same
    cases same
    exact isFirst
  · intro same
    cases same
  · exact insertAt_front distinct isFirst

theorem anchorRight_none_iff :
    AnchorRight before after none ↔ augChildren after = [] := by
  refine ⟨fun right => right.last rfl, fun empty => ⟨?_, ?_, fun _ => empty, ?_⟩⟩
  · rintro other same
    cases same
  · rintro other same
    cases same
  · intro new
    rw [insertAt, empty, List.append_nil]

end Right

section Choice

/-- Result of looking at one neighbour: `some none` is a neighbour that is not suitable. -/
def pick (anchorChild : Bool) (neighbour : Option Sibling) : Option (Option NodeRef) :=
  match Place.usable anchorChild (neighbour.map Sibling.toLyd) with
  | some node => (anchorIn anchorChild node).map fun anchor =>
      if anchor.2.hasPath then some anchor.1 else none
  | none => some none

/-- The previous neighbour, else the next one. -/
def preferPrevious (previous : Option NodeRef) (next : Option (Option NodeRef)) :
    Option (Option (NodeRef × Bool)) :=
  match previous with
  | some anchor => some (some (anchor, false))
  | none => next.map (Option.map fun anchor => (anchor, true))

theorem nextAnchor_eq (anchorChild : Bool) (before after : List Sibling) :
    nextAnchor anchorChild (placeOf before after) =
      (pick anchorChild after.head?).map (Option.map fun anchor => (anchor, true)) := by
  rw [nextAnchor, pick, placeOf, List.head?_map]
  cases Place.usable anchorChild (after.head?.map Sibling.toLyd) with
  | none => rfl
  | some next =>
      dsimp only
      rw [Option.map_map]
      congr 1
      funext anchor
      by_cases suitable : anchor.2.hasPath <;> simp [suitable]

theorem neighbourAnchor_eq (anchorChild : Bool) (before after : List Sibling) :
    neighbourAnchor anchorChild (placeOf before after) =
      (pick anchorChild before.getLast?).bind fun previous =>
        preferPrevious previous (pick anchorChild after.head?) := by
  have next := nextAnchor_eq anchorChild before after
  generalize pick anchorChild after.head? = nextPick at next ⊢
  rw [neighbourAnchor, next, pick, placeOf, List.getLast?_map]
  cases Place.usable anchorChild (before.getLast?.map Sibling.toLyd) with
  | none => rfl
  | some previous =>
      dsimp only
      cases anchorIn anchorChild previous with
      | none => rfl
      | some anchor => by_cases suitable : anchor.2.hasPath <;> simp [suitable, preferPrevious]

def Sibling.isPath : Sibling → Bool
  | path .. => true
  | _ => false

def Sibling.isImplicit : Sibling → Bool
  | implicit .. => true
  | _ => false

/-- A user-ordered list with a data-path is taken for an instance of an implicit list: its first
child is the anchor, or is missing. -/
def Sibling.misleads : Sibling → Bool
  | path _ _ true children =>
      ((children.find? fun child => !child.isKey).map fun child => child.type.hasPath).getD true
  | _ => false

/-- A neighbour is a suitable anchor, or none is needed. -/
def AnchorFound (before after : List Sibling) : NewNode → Prop
  | .direct _ _ =>
      before.getLast?.any Sibling.isPath ∨ after.head?.any Sibling.isPath ∨ augChildren after = []
  | .nested _ =>
      before.getLast?.any Sibling.isImplicit ∨
        ¬ before.getLast?.any Sibling.misleads ∧
          (after.head?.any Sibling.isImplicit ∨ augChildren after = [])

instance (before after : List Sibling) (new : NewNode) : Decidable (AnchorFound before after new) :=
  match new with
  | .direct _ _ => inferInstanceAs (Decidable (_ ∨ _ ∨ _))
  | .nested _ => inferInstanceAs (Decidable (_ ∨ ¬ _ ∧ (_ ∨ _)))

theorem pick_direct (sibling : Sibling) :
    pick false (some sibling) = some (if sibling.isPath then sibling.ref else none) := by
  cases sibling <;>
    simp [pick, Place.usable_some, anchorIn, Sibling.toLyd, Sibling.isPath, Sibling.ref]

theorem pick_implicit (id key node : Nat) (isLabel : Bool) :
    pick true (some (.implicit id key node isLabel)) = some (some (.child id node)) := by
  simp [pick, Place.usable_some, anchorIn, Sibling.toLyd, lydChildNoKeys]

theorem pick_leaf (id : Nat) : pick true (some (.leaf id)) = some none := by
  simp [pick, Place.usable_some, Sibling.toLyd]

/-- What a node with a data-path gives to a nested node is never a node beside it. -/
theorem pick_path (id : Nat) (isLabel userordList : Bool) (children : List LydChild) :
    (pick true (some (.path id isLabel userordList children)) = some none ∧
      (Sibling.path id isLabel userordList children).misleads = false) ∨
    (Sibling.path id isLabel userordList children).misleads = true ∧
      (pick true (some (.path id isLabel userordList children)) = none ∨
        ∃ child, pick true (some (.path id isLabel userordList children)) =
          some (some (.child id child))) := by
  cases userordList with
  | false => simp [pick, Place.usable_some, Sibling.toLyd, Sibling.misleads]
  | true =>
      cases found : children.find? fun child => !child.isKey with
      | none =>
          simp [pick, Place.usable_some, Sibling.toLyd, Sibling.misleads, anchorIn, lydChildNoKeys, found]
      | some child =>
          by_cases suitable : child.type.hasPath <;>
            simp [pick, Place.usable_some, Sibling.toLyd, Sibling.misleads, anchorIn, lydChildNoKeys,
              found, suitable]

theorem pick_none (anchorChild : Bool) : pick anchorChild none = some none := rfl

/-- The anchor that is left to be taken behind the new node. -/
def nextChoice (anchorChild : Bool) (after : List Sibling) : Option (Option (NodeRef × Bool)) :=
  (pick anchorChild after.head?).map (Option.map fun anchor => (anchor, true))

variable {before after : List Sibling}

theorem nextChoice_right_iff_direct (distinct : (augChildren before ++ augChildren after).Nodup) :
    (∃ anchor, nextChoice false after = some anchor ∧ AnchorRight before after anchor) ↔
      after.head?.any Sibling.isPath ∨ augChildren after = [] := by
  cases after with
  | nil => simp [nextChoice, pick_none, anchorRight_none_iff, augChildren]
  | cons first rest =>
      by_cases isPath : first.isPath
      · obtain ⟨node, isRef⟩ : ∃ node, first.ref = some node := by
          cases first <;> simp_all [Sibling.isPath, Sibling.ref]
        have isFirst : (augChildren (first :: rest)).head? = some node := by
          simp [augChildren_cons, isRef]
        simp [nextChoice, pick_direct, isPath, isRef, anchorRight_next_iff distinct, isFirst]
      · simp [nextChoice, pick_direct, isPath, anchorRight_none_iff]

theorem nextChoice_right_iff_nested (distinct : (augChildren before ++ augChildren after).Nodup) :
    (∃ anchor, nextChoice true after = some anchor ∧ AnchorRight before after anchor) ↔
      after.head?.any Sibling.isImplicit ∨ augChildren after = [] := by
  cases after with
  | nil => simp [nextChoice, pick_none, anchorRight_none_iff, augChildren]
  | cons first rest =>
      cases first with
      | leaf id => simp [nextChoice, pick_leaf, anchorRight_none_iff, Sibling.isImplicit]
      | implicit id key node isLabel =>
          simp [nextChoice, pick_implicit, anchorRight_next_iff distinct, augChildren,
            Sibling.isImplicit]
      | path id isLabel userordList children =>
          rcases pick_path id isLabel userordList children with
            ⟨picked, -⟩ | ⟨-, picked | ⟨child, picked⟩⟩
          · simp [nextChoice, picked, anchorRight_none_iff, Sibling.isImplicit]
          · simp [nextChoice, picked, Sibling.isImplicit, augChildren]
          · simp [nextChoice, picked, Sibling.isImplicit, augChildren, anchorRight_next_iff distinct]

/-- The choice for a new node between its siblings. -/
theorem neighbourAnchor_concat (anchorChild : Bool) (init after : List Sibling) (last : Sibling) :
    neighbourAnchor anchorChild (placeOf (init ++ [last]) after) =
      (pick anchorChild (some last)).bind fun previous =>
        preferPrevious previous (pick anchorChild after.head?) := by
  rw [neighbourAnchor_eq, List.getLast?_concat]

theorem neighbourAnchor_nil (anchorChild : Bool) (after : List Sibling) :
    neighbourAnchor anchorChild (placeOf [] after) = nextChoice anchorChild after := by
  rw [neighbourAnchor_eq, List.getLast?_nil, pick_none]
  rfl

theorem neighbourAnchor_right_iff_direct
    (distinct : (augChildren before ++ augChildren after).Nodup) :
    (∃ anchor, neighbourAnchor false (placeOf before after) = some anchor ∧
        AnchorRight before after anchor) ↔
      before.getLast?.any Sibling.isPath ∨ after.head?.any Sibling.isPath ∨
        augChildren after = [] := by
  have next := nextChoice_right_iff_direct distinct
  rcases List.eq_nil_or_concat before with rfl | ⟨init, last, rfl⟩
  · rw [neighbourAnchor_nil, next]
    simp
  · rw [List.concat_eq_append] at distinct next ⊢
    rw [neighbourAnchor_concat, pick_direct, Option.bind_some, List.getLast?_concat]
    by_cases isPath : last.isPath
    · obtain ⟨node, isRef⟩ : ∃ node, last.ref = some node := by
        cases last <;> simp_all [Sibling.isPath, Sibling.ref]
      have isLast : (augChildren (init ++ [last])).getLast? = some node := by
        simp [augChildren_concat, isRef]
      simp [isPath, isRef, preferPrevious, anchorRight_previous_iff distinct, isLast]
    · rw [if_neg isPath, preferPrevious, ← nextChoice, next]
      simp [isPath]

theorem neighbourAnchor_right_iff_nested
    (distinct : (augChildren before ++ augChildren after).Nodup) :
    (∃ anchor, neighbourAnchor true (placeOf before after) = some anchor ∧
        AnchorRight before after anchor) ↔
      before.getLast?.any Sibling.isImplicit ∨ ¬ before.getLast?.any Sibling.misleads ∧
        (after.head?.any Sibling.isImplicit ∨ augChildren after = []) := by
  have next := nextChoice_right_iff_nested distinct
  rcases List.eq_nil_or_concat before with rfl | ⟨init, last, rfl⟩
  · rw [neighbourAnchor_nil, next]
    simp
  · rw [List.concat_eq_append] at distinct next ⊢
    rw [neighbourAnchor_concat, List.getLast?_concat]
    cases last with
    | leaf id =>
        rw [pick_leaf, Option.bind_some, preferPrevious, ← nextChoice, next]
        simp [Sibling.isImplicit, Sibling.misleads]
    | implicit id key node isLabel =>
        rw [pick_implicit, Option.bind_some, preferPrevious]
        simp [anchorRight_previous_iff distinct, augChildren_concat, Sibling.ref,
          Sibling.isImplicit]
    | path id isLabel userordList children =>
        rcases pick_path id isLabel userordList children with
          ⟨picked, straight⟩ | ⟨misled, picked | ⟨child, picked⟩⟩
        · rw [picked, Option.bind_some, preferPrevious, ← nextChoice, next]
          simp [Sibling.isImplicit, straight]
        · rw [picked]
          simp [Sibling.isImplicit, misled]
        · rw [picked, Option.bind_some, preferPrevious]
          simp [anchorRight_previous_iff distinct, augChildren_concat, Sibling.ref,
            Sibling.isImplicit, misled]

/-- The new node lands at its place exactly when a neighbour is a suitable anchor or nothing in
Augeas is behind it. -/
theorem anchorOf_right_iff {new : NewNode} {inside outside : Place} (fits : new.Fits)
    (distinct : (augChildren before ++ augChildren after).Nodup) :
    (∃ anchor, anchorOf new inside outside before after = some anchor ∧
        AnchorRight before after anchor) ↔ AnchorFound before after new := by
  cases new with
  | direct keyName isLabel =>
      rw [anchorOf, augdsStoreAnchor, if_neg (by simpa [NewNode.Fits] using fits),
        if_pos (hasPath_pathType isLabel), AnchorFound]
      exact neighbourAnchor_right_iff_direct distinct
  | nested keyName =>
      rw [NewNode.Fits] at fits
      rw [anchorOf, augdsStoreAnchor, if_pos fits, AnchorFound]
      exact neighbourAnchor_right_iff_nested distinct

/-- A new entry of an implicit list behind another one, and a leaf in front of a node with a
data-path. -/
theorem anchorOf_right_iff_entries :
    AnchorFound [.implicit 1 2 3 false] [.leaf 4, .path 5 false false []] (.nested "_id") ∧
      ∃ anchor, anchorOf (.nested "_id") ⟨[], []⟩ ⟨[], []⟩ [.implicit 1 2 3 false]
          [.leaf 4, .path 5 false false []] = some anchor ∧
        AnchorRight [.implicit 1 2 3 false] [.leaf 4, .path 5 false false []] anchor := by
  have found : AnchorFound [.implicit 1 2 3 false] [.leaf 4, .path 5 false false []]
      (.nested "_id") := by decide
  have fits : (NewNode.nested "_id").Fits := Or.inl rfl
  exact ⟨found, (anchorOf_right_iff fits (by decide)).mpr found⟩

/-- The first entry of an implicit list, in front of the value leaf of its parent and a node with
a data-path, gets no anchor and is stored behind that node. -/
theorem anchor_in_front_of_leaf_fails :
    ¬ ∀ (new : NewNode) (inside outside : Place) (before after : List Sibling), new.Fits →
      (augChildren before ++ augChildren after).Nodup →
      ∃ anchor, anchorOf new inside outside before after = some anchor ∧
        AnchorRight before after anchor := by
  intro holds
  obtain ⟨anchor, chosen, right⟩ := holds (.nested "_id") ⟨[], []⟩ ⟨[], []⟩ []
    [.leaf 1, .path 2 false false []] (Or.inl rfl) (by decide)
  have unanchored : anchorOf (.nested "_id") ⟨[], []⟩ ⟨[], []⟩ []
      [.leaf 1, .path 2 false false []] = some none := by decide
  obtain rfl : none = anchor := Option.some.inj (unanchored.symm.trans chosen)
  exact absurd (right.last rfl) (by decide)

end Choice

section Entries

open SysrepoAugeas.Store

variable {T : Type}

/-- Entry of an implicit list as a sibling; the nested node is told by its entry. -/
def ofEntry (entry : Entry T) : Sibling :=
  .implicit entry.id 0 0 (entry.schema.type = .label)

/-- Among the entries of one implicit list the anchor is the neighbour. -/
theorem neighbourAnchor_entries {front back : List (Entry T)} {entry : Entry T}
    (keys : UniqueKeys (front ++ entry :: back)) :
    neighbourAnchor true (placeOf (front.map ofEntry) (back.map ofEntry)) =
      some ((Store.augdsStoreAnchor entry.id (front ++ entry :: back)).map fun anchor =>
        (.child anchor.1.id 0, anchor.2)) := by
  have picked : ∀ found : Option (Entry T), pick true (found.map ofEntry) =
      some (found.map fun anchor => .child anchor.id 0) := by
    intro found
    cases found with
    | none => rfl
    | some anchor => rw [Option.map_some, ofEntry, pick_implicit, Option.map_some]
  rw [neighbourAnchor_eq, List.getLast?_map, List.head?_map, picked, picked, Option.bind_some,
    Store.augdsStoreAnchor, neighbour_split _ _ _ _ keys.id_ne_of_mem_front, Option.or_none]
  cases front.getLast? with
  | none => cases back.head? <;> rfl
  | some anchor => rfl

end Entries

end SysrepoAugeas.Anchor
