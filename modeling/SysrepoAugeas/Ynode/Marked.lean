import SysrepoAugeas.Ynode.Toplevel

/-!
# Marked subtrees and what becomes of them

In a marked tree the nodes with one mark have the same shape below; the first
of them in the array has its own id as mark.  A grouping stands for nothing, a
uses for the trees in its grouping, and replacing marked subtrees by a uses
leaves alone what the tree stands for.
-/

namespace SysrepoAugeas.Ynode

open SysrepoAugeas.Data
open Forest (Role Definitions Unfolds Extends)

section Shape

variable (lenses : Lnode → LensText)

/-- What `ay_lnode_lense_equal` compares of a lens. -/
def lensKey (lens : LensText) : String ⊕ LensTag :=
  if ayTagIsLabel lens.tag || ayTagIsValue lens.tag then .inl lens.text else .inr lens.tag

/-- What equal nodes have in common; the choice and the marks of groupings are no part of it. -/
structure NodeShape where
  type : YangType
  label : Option (String ⊕ LensTag)
  value : Option (String ⊕ LensTag)
  hasSnode : Bool
  flags : Nat
  minElems : Nat
  deriving DecidableEq

/-- The compared flags without `AY_CHOICE_MAND_FALSE` and `AY_GROUPING_CHILDREN`. -/
def ayShapeFlags : Nat := 0x0BB

def nodeShape (node : AyYnode) : NodeShape where
  type := node.type
  label := (labelText lenses node).map lensKey
  value := (valueText lenses node).map lensKey
  hasSnode := node.snode.isSome
  flags := node.flags &&& ayShapeFlags
  minElems := if node.type = .ynList then node.minElems else 0

/-- A uses is in place of the content of its grouping. -/
def nodeRole (node : AyYnode) : Role YnodeId :=
  match node.type with
  | .ynUses => .call node.ref
  | .ynGrouping => .define node.id
  | _ => .keep

/-- The nodes that the tree describes, with the content of groupings in place of every uses. -/
def expandUses (forest : Forest AyYnode) : Option (Forest NodeShape) :=
  (Forest.expand nodeRole (nodeShape lenses) [] forest).map Prod.fst

end Shape

section Marks

/-- The node is waiting for its grouping or for its uses. -/
def isMarked (node : AyYnode) : Bool := node.ref != 0 && node.type != .ynUses

/-- Only the nodes below the marked node go into the grouping. -/
def marksChildren (node : AyYnode) : Bool := node.flags &&& ayGroupingChildren != 0

/-- What goes into the grouping. -/
def content (node : AyYnode) (kids : Forest AyYnode) : Forest AyYnode :=
  if marksChildren node then (innerNodes kids).2 else .cons node kids .nil

def isKeyval (node : AyYnode) : Bool := node.type == .ynKey || node.type == .ynValue

/-- The node of a tree with groupings for a node of the tree without: its mark can be gone. -/
structure Kin (node origin : AyYnode) : Prop where
  same : node = { origin with ref := node.ref, choice := node.choice }
  mark : node.ref = 0 ∨ node.ref = origin.ref

/-- Marked nodes with the same mark have contents of one shape, and a node has at most one key and
one value, which come first. -/
structure Proper (lenses : Lnode → LensText) (trees : YnodeId → Forest NodeShape)
    (node : AyYnode) (kids : Forest AyYnode) : Prop where
  plain : node.type ≠ .ynUses ∧ node.type ≠ .ynGrouping ∧ node.type ≠ .ynLeafref
  keyval : isKeyval node = true → node.ref = 0 ∧ kids = .nil
  keyed : ∃ inner, ayInnerNodes node kids = some inner
  inner : ∀ root ∈ (innerNodes kids).2.roots, isKeyval root = false
  marked : node.ref ≠ 0 → (content node kids).map (nodeShape lenses) = trees node.ref
  nonempty : node.ref ≠ 0 → content node kids ≠ .nil

instance (lenses : Lnode → LensText) (trees : YnodeId → Forest NodeShape) (node : AyYnode)
    (kids : Forest AyYnode) : Decidable (Proper lenses trees node kids) :=
  decidable_of_iff ((node.type ≠ .ynUses ∧ node.type ≠ .ynGrouping ∧ node.type ≠ .ynLeafref) ∧
    (isKeyval node = true → node.ref = 0 ∧ kids = .nil) ∧
    (ayInnerNodes node kids).isSome = true ∧
    (∀ root ∈ (innerNodes kids).2.roots, isKeyval root = false) ∧
    (node.ref ≠ 0 → (content node kids).map (nodeShape lenses) = trees node.ref) ∧
    (node.ref ≠ 0 → content node kids ≠ .nil))
    ⟨fun ⟨plain, keyval, keyed, inner, marked, nonempty⟩ =>
      ⟨plain, keyval, Option.isSome_iff_exists.mp keyed, inner, marked, nonempty⟩,
    fun proper => ⟨proper.plain, proper.keyval, Option.isSome_iff_exists.mpr proper.keyed,
      proper.inner, proper.marked, proper.nonempty⟩⟩

/-- Trees that can be the content of a grouping. -/
structure Piece (lenses : Lnode → LensText) (trees : YnodeId → Forest NodeShape)
    (piece : Forest AyYnode) : Prop where
  proper : piece.All (Proper lenses trees)
  nonempty : piece ≠ .nil
  inner : ∀ root ∈ piece.roots, isKeyval root = false

end Marks

variable {lenses : Lnode → LensText} {trees : YnodeId → Forest NodeShape}

/-- A tree with groupings stands for a tree without. -/
abbrev Outlines (lenses : Lnode → LensText) (trees : YnodeId → Forest NodeShape) :=
  Unfolds nodeRole Kin (nodeShape lenses) (Piece lenses trees)

section Kin

variable {node origin : AyYnode} {known after : Definitions YnodeId NodeShape}
  {forest rest : Forest AyYnode} {origins : Forest AyYnode}

theorem Kin.type_eq (kin : Kin node origin) : node.type = origin.type := by
  rw [kin.same]

theorem Kin.shape_eq (kin : Kin node origin) : nodeShape lenses node = nodeShape lenses origin := by
  rw [kin.same]
  rfl

theorem Kin.marksChildren_eq (kin : Kin node origin) :
    marksChildren node = marksChildren origin := by
  rw [kin.same]
  rfl

theorem Kin.unmarked (kin : Kin node origin) : Kin { node with ref := 0 } origin := by
  refine ⟨?_, .inl rfl⟩
  rw [kin.same]

theorem Kin.otherChoice (kin : Kin node origin) (choice : Option Lnode) :
    Kin { node with choice := choice } origin := by
  refine ⟨?_, kin.mark⟩
  rw [kin.same]

theorem nodeRole_keep : nodeRole node = .keep ↔ node.type ≠ .ynUses ∧ node.type ≠ .ynGrouping := by
  rw [nodeRole]
  cases node.type <;> simp

theorem nodeRole_call {id : YnodeId} :
    nodeRole node = .call id ↔ node.type = .ynUses ∧ node.ref = id := by
  rw [nodeRole]
  cases node.type <;> simp

theorem nodeRole_define {id : YnodeId} :
    nodeRole node = .define id ↔ node.type = .ynGrouping ∧ node.id = id := by
  rw [nodeRole]
  cases node.type <;> simp

/-- There is no grouping in the forest. -/
def NoGroupings (forest : Forest AyYnode) : Prop :=
  ∀ node ∈ forest.labels, node.type ≠ .ynGrouping

theorem NoGroupings.cons {kids : Forest AyYnode} (none : NoGroupings (.cons node kids rest)) :
    node.type ≠ .ynGrouping ∧ NoGroupings kids ∧ NoGroupings rest := by
  rw [NoGroupings, Forest.labels_cons] at none
  refine ⟨none node List.mem_cons_self, fun inside member => ?_, fun inside member => ?_⟩
  · exact none inside (List.mem_cons_of_mem _ (List.mem_append_left _ member))
  · exact none inside (List.mem_cons_of_mem _ (List.mem_append_right _ member))

theorem Outlines.after_eq (outlines : Outlines lenses trees known forest origins after)
    (none : NoGroupings forest) : after = known :=
  Unfolds.after_eq outlines fun node member _ isDefinition =>
    none node member (nodeRole_define.mp isDefinition).1

end Kin

section Split

variable {known after : Definitions YnodeId NodeShape} {kids originKids : Forest AyYnode}

theorem append_skipType (type : YangType) (forest : Forest AyYnode) :
    (skipType type forest).1.append (skipType type forest).2 = forest := by
  cases forest with
  | nil => rfl
  | cons node kids rest =>
      by_cases isType : node.type = type <;> simp [skipType, isType, Forest.append]

theorem append_innerNodes (forest : Forest AyYnode) :
    (innerNodes forest).1.append (innerNodes forest).2 = forest := by
  rw [innerNodes, Forest.append_assoc, append_skipType, append_skipType]

theorem NoGroupings.append {forest other : Forest AyYnode} :
    NoGroupings (forest.append other) ↔ NoGroupings forest ∧ NoGroupings other := by
  rw [NoGroupings, NoGroupings, NoGroupings, Forest.labels_append]
  exact List.forall_mem_append

theorem Proper.children {node : AyYnode} {kids : Forest AyYnode}
    (proper : Proper lenses trees node kids) (below : kids.All (Proper lenses trees))
    (nonzero : node.ref ≠ 0) (ofChildren : marksChildren node = true) :
    Piece lenses trees (innerNodes kids).2 ∧
      (innerNodes kids).2.map (nodeShape lenses) = trees node.ref := by
  have contentIs : content node kids = (innerNodes kids).2 := by
    rw [content, if_pos ofChildren]
  have shape := proper.marked nonzero
  have nonempty := proper.nonempty nonzero
  rw [contentIs] at shape nonempty
  rw [← append_innerNodes kids] at below
  exact ⟨⟨(Forest.All.append.mp below).2, nonempty, proper.inner⟩, shape⟩

theorem Proper.subtree {node : AyYnode} {kids : Forest AyYnode}
    (proper : Proper lenses trees node kids) (below : kids.All (Proper lenses trees))
    (nonzero : node.ref ≠ 0) (ofSubtree : marksChildren node = false) :
    Piece lenses trees (.cons node kids .nil) ∧
      (Forest.cons node kids .nil).map (nodeShape lenses) = trees node.ref := by
  have contentIs : content node kids = .cons node kids .nil := by
    rw [content, ofSubtree]
    rfl
  have shape := proper.marked nonzero
  rw [contentIs] at shape
  refine ⟨⟨⟨proper, below, trivial⟩, (fun empty => by cases empty), ?_⟩, shape⟩
  intro root member
  obtain rfl := List.mem_singleton.mp member
  by_contra isKey
  exact nonzero (proper.keyval (Bool.eq_true_of_not_eq_false isKey)).1

/-- A key or a value is no uses, and no uses is in place of one that comes first. -/
theorem Outlines.skipType {type : YangType} (isType : type = .ynKey ∨ type = .ynValue)
    (outlines : Outlines lenses trees known kids originKids known) (none : NoGroupings kids) :
    Outlines lenses trees known (skipType type kids).1 (skipType type originKids).1 known ∧
      Outlines lenses trees known (skipType type kids).2 (skipType type originKids).2 known := by
  cases outlines with
  | nil => exact ⟨.nil, .nil⟩
  | @keep _ between _ node origin _ _ _ _ isKept isKin below behind =>
      obtain rfl : between = known := Outlines.after_eq below none.cons.2.1
      rw [Ynode.skipType, Ynode.skipType, ← isKin.type_eq]
      split
      · exact ⟨.keep isKept isKin below .nil, behind⟩
      · exact ⟨.nil, .keep isKept isKin below behind⟩
  | @call _ _ node _ rest piece originRest isCall defined isPiece behind =>
      have other : node.type ≠ type := by
        rw [(nodeRole_call.mp isCall).1]
        rintro rfl
        rcases isType with same | same <;> cases same
      cases piece with
      | nil => exact absurd rfl isPiece.nonempty
      | cons first firstKids others =>
          have notFirst : first.type ≠ type := by
            rintro rfl
            have notKeyval := isPiece.inner first List.mem_cons_self
            rw [isKeyval] at notKeyval
            rcases isType with same | same <;> simp [same] at notKeyval
          rw [Ynode.skipType, if_neg other, Forest.append, Ynode.skipType, if_neg notFirst]
          exact ⟨.nil, .call isCall defined isPiece behind⟩
  | define isDefinition _ _ _ =>
      exact absurd (nodeRole_define.mp isDefinition).1 none.cons.1

/-- Key and value stand for key and value, the inner nodes for the inner nodes. -/
theorem Outlines.innerNodes (outlines : Outlines lenses trees known kids originKids known)
    (none : NoGroupings kids) :
    Outlines lenses trees known (innerNodes kids).1 (innerNodes originKids).1 known ∧
      Outlines lenses trees known (innerNodes kids).2 (innerNodes originKids).2 known := by
  have noneBehind : NoGroupings (Ynode.skipType .ynKey kids).2 := by
    rw [← append_skipType .ynKey kids] at none
    exact (NoGroupings.append.mp none).2
  have key := Outlines.skipType (.inl rfl) outlines none
  have value := Outlines.skipType (.inr rfl) key.2 noneBehind
  exact ⟨Unfolds.append key.1 value.1, value.2⟩

/-- The assertion about the label of the key holds below a kept node. -/
theorem Outlines.ayInnerNodes {node origin : AyYnode} (kin : Kin node origin)
    (outlines : Outlines lenses trees known kids originKids after) (none : NoGroupings kids)
    {inner : Forest AyYnode} (keyed : ayInnerNodes origin originKids = some inner) :
    ayInnerNodes node kids = some (Ynode.innerNodes kids).2 := by
  have sameLabel : node.label = origin.label := by rw [kin.same]
  rw [Ynode.ayInnerNodes] at keyed ⊢
  split at keyed
  · cases keyed
  · next asserted =>
      rw [if_neg]
      cases outlines with
      | nil => simp [Forest.roots]
      | @keep _ _ _ first firstOrigin _ _ _ _ _ isKin _ _ =>
          have label : first.label = firstOrigin.label := by rw [isKin.same]
          simpa [Forest.roots, sameLabel, label, isKin.type_eq] using asserted
      | @call _ _ first _ _ _ _ isCall _ _ _ =>
          simp [Forest.roots, (nodeRole_call.mp isCall).1]
      | define isDefinition _ _ _ => exact absurd (nodeRole_define.mp isDefinition).1 none.cons.1

end Split

section Swept

/-- The nodes with a mark are replaced: one that marks its children keeps the key, the value and
gets a uses behind them, another one becomes a uses. -/
inductive Swept (ref grouping : YnodeId) : Forest AyYnode → Forest AyYnode → Prop
  | nil : Swept ref grouping .nil .nil
  | other {node : AyYnode} {kids rest newKids newRest : Forest AyYnode}
      (isOther : node.ref ≠ ref ∨ node.type = .ynUses) (below : Swept ref grouping kids newKids)
      (behind : Swept ref grouping rest newRest) :
      Swept ref grouping (.cons node kids rest) (.cons node newKids newRest)
  | children {node uses : AyYnode} {kids rest newKeyval newRest : Forest AyYnode}
      (isMarked : node.ref = ref ∧ node.type ≠ .ynUses) (ofChildren : marksChildren node = true)
      (isUses : uses.type = .ynUses ∧ uses.ref = grouping)
      (below : Swept ref grouping (innerNodes kids).1 newKeyval)
      (behind : Swept ref grouping rest newRest) :
      Swept ref grouping (.cons node kids rest)
        (.cons { node with ref := 0 } (newKeyval.append (.cons uses .nil .nil)) newRest)
  | subtree {node uses : AyYnode} {kids rest newRest : Forest AyYnode}
      (isMarked : node.ref = ref ∧ node.type ≠ .ynUses) (ofSubtree : marksChildren node = false)
      (isUses : uses.type = .ynUses ∧ uses.ref = grouping)
      (behind : Swept ref grouping rest newRest) :
      Swept ref grouping (.cons node kids rest) (.cons uses .nil newRest)

variable {ref grouping : YnodeId} {forest swept origins : Forest AyYnode}
  {known : Definitions YnodeId NodeShape}

theorem NoGroupings.of_cons {node : AyYnode} {kids rest : Forest AyYnode}
    (notGrouping : node.type ≠ .ynGrouping) (noneBelow : NoGroupings kids)
    (noneBehind : NoGroupings rest) : NoGroupings (.cons node kids rest) := by
  rw [NoGroupings, Forest.labels_cons]
  exact List.forall_mem_cons.mpr
    ⟨notGrouping, List.forall_mem_append.mpr ⟨noneBelow, noneBehind⟩⟩

theorem NoGroupings.nil : NoGroupings .nil := fun _ member => nomatch member

theorem NoGroupings.uses {uses : AyYnode} {rest : Forest AyYnode} (isUses : uses.type = .ynUses)
    (noneBehind : NoGroupings rest) : NoGroupings (.cons uses .nil rest) := by
  apply NoGroupings.of_cons _ .nil noneBehind
  rw [isUses]
  exact fun same => nomatch same

theorem Swept.noGroupings (isSwept : Swept ref grouping forest swept)
    (none : NoGroupings forest) : NoGroupings swept := by
  induction isSwept with
  | nil => exact none
  | other _ _ _ belowHypothesis behindHypothesis =>
      exact .of_cons none.cons.1 (belowHypothesis none.cons.2.1) (behindHypothesis none.cons.2.2)
  | @children _ _ kids _ _ _ _ _ isUses _ _ belowHypothesis behindHypothesis =>
      have split := none.cons.2.1
      rw [← append_innerNodes kids] at split
      have below := belowHypothesis (NoGroupings.append.mp split).1
      exact .of_cons none.cons.1 (NoGroupings.append.mpr ⟨below, .uses isUses.1 .nil⟩)
        (behindHypothesis none.cons.2.2)
  | subtree _ _ isUses _ behindHypothesis =>
      exact .uses isUses.1 (behindHypothesis none.cons.2.2)

/-- A uses stands for the content of every node with the mark, once it is the name of this
content. -/
theorem Swept.outlines (nonzero : ref ≠ 0) (named : known.lookup grouping = some (trees ref))
    (isSwept : Swept ref grouping forest swept) (none : NoGroupings forest)
    (proper : origins.All (Proper lenses trees))
    (outlines : Outlines lenses trees known forest origins known) :
    Outlines lenses trees known swept origins known := by
  induction isSwept generalizing origins with
  | nil => exact outlines
  | @other node _ _ _ _ _ below _ belowHypothesis behindHypothesis =>
      cases outlines with
      | keep isKept isKin standsBelow standsBehind =>
          obtain rfl := Outlines.after_eq standsBelow none.cons.2.1
          exact .keep isKept isKin (belowHypothesis none.cons.2.1 proper.2.1 standsBelow)
            (behindHypothesis none.cons.2.2 proper.2.2 standsBehind)
      | call isCall defined isPiece standsBehind =>
          cases below
          exact .call isCall defined isPiece
            (behindHypothesis none.cons.2.2 (Forest.All.append.mp proper).2 standsBehind)
      | define isDefinition _ _ _ =>
          exact absurd (nodeRole_define.mp isDefinition).1 none.cons.1
  | @children node uses kids rest newKeyval newRest isMarked ofChildren isUses _ _ belowHypothesis
      behindHypothesis =>
      cases outlines with
      | @keep _ between _ _ origin _ _ originKids originRest isKept isKin standsBelow standsBehind =>
          obtain rfl : known = between := (Outlines.after_eq standsBelow none.cons.2.1).symm
          have keeps := nodeRole_keep.mp isKept
          have sameRef : origin.ref = ref := by
            rcases isKin.mark with gone | same
            · exact absurd (isMarked.1.symm.trans gone) nonzero
            · exact same.symm.trans isMarked.1
          obtain ⟨isPiece, shape⟩ := proper.1.children proper.2.1 (sameRef ▸ nonzero)
            (isKin.marksChildren_eq ▸ ofChildren)
          rw [sameRef] at shape
          have split := Outlines.innerNodes standsBelow none.cons.2.1
          have noKids := none.cons.2.1
          have allKids := proper.2.1
          rw [← append_innerNodes kids] at noKids
          rw [← append_innerNodes originKids] at allKids ⊢
          have allSplit := Forest.All.append.mp allKids
          have usesStand : Outlines lenses trees known (.cons uses .nil .nil)
              ((Ynode.innerNodes originKids).2.append .nil) known :=
            .call (nodeRole_call.mpr isUses) (shape ▸ named) isPiece .nil
          rw [Forest.append_nil] at usesStand
          refine .keep (nodeRole_keep.mpr ⟨keeps.1, keeps.2⟩) isKin.unmarked
            (Unfolds.append ?_ usesStand) (behindHypothesis none.cons.2.2 proper.2.2 standsBehind)
          exact belowHypothesis (NoGroupings.append.mp noKids).1 allSplit.1 split.1
      | call isCall _ _ _ => exact absurd (nodeRole_call.mp isCall).1 isMarked.2
      | define isDefinition _ _ _ =>
          exact absurd (nodeRole_define.mp isDefinition).1 none.cons.1
  | @subtree node uses kids rest newRest isMarked ofSubtree isUses _ behindHypothesis =>
      cases outlines with
      | @keep _ between _ _ origin _ _ originKids originRest isKept isKin standsBelow standsBehind =>
          obtain rfl : known = between := (Outlines.after_eq standsBelow none.cons.2.1).symm
          have sameRef : origin.ref = ref := by
            rcases isKin.mark with gone | same
            · exact absurd (isMarked.1.symm.trans gone) nonzero
            · exact same.symm.trans isMarked.1
          obtain ⟨isPiece, shape⟩ := proper.1.subtree proper.2.1 (sameRef ▸ nonzero)
            (isKin.marksChildren_eq ▸ ofSubtree)
          rw [sameRef] at shape
          exact .call (nodeRole_call.mpr isUses) (shape ▸ named) isPiece
            (behindHypothesis none.cons.2.2 proper.2.2 standsBehind)
      | call isCall _ _ _ => exact absurd (nodeRole_call.mp isCall).1 isMarked.2
      | define isDefinition _ _ _ =>
          exact absurd (nodeRole_define.mp isDefinition).1 none.cons.1

end Swept

section Order

/-- The first node with its mark; the mark is its own id. -/
def isDefault (node : AyYnode) : Bool := isMarked node && node.id == node.ref

/-- Marks that begin in the forest. -/
def defaults (forest : Forest AyYnode) : List YnodeId :=
  (forest.labels.filter isDefault).map AyYnode.id

/-- Every mark begins before it is repeated, and in no subtree that a uses will replace. -/
def InOrder (seen : List YnodeId) : Forest AyYnode → Prop
  | .nil => True
  | .cons node kids rest =>
      (isMarked node = true → if node.id = node.ref then node.ref ∉ seen
        else node.ref ∈ seen ∧ defaults kids = []) ∧
      InOrder seen kids ∧ InOrder (seen ++ defaults (.cons node kids .nil)) rest

instance decidableInOrder : (seen : List YnodeId) → (forest : Forest AyYnode) →
    Decidable (InOrder seen forest)
  | _, .nil => inferInstanceAs (Decidable True)
  | seen, .cons node kids rest =>
      have := decidableInOrder seen kids
      have := decidableInOrder (seen ++ defaults (.cons node kids .nil)) rest
      inferInstanceAs (Decidable ((isMarked node = true → if node.id = node.ref then node.ref ∉ seen
        else node.ref ∈ seen ∧ defaults kids = []) ∧
        InOrder seen kids ∧ InOrder (seen ++ defaults (.cons node kids .nil)) rest))

/-- Steps and new nodes that a forest is good for. -/
def markWeight (forest : Forest AyYnode) : Nat := forest.size + 3 * forest.labels.countP isMarked

variable {ref grouping : YnodeId} {forest other swept kids rest : Forest AyYnode} {node : AyYnode}
  {seen left : List YnodeId}

theorem isMarked_eq_true : isMarked node = true ↔ node.ref ≠ 0 ∧ node.type ≠ .ynUses := by
  simp [isMarked]

theorem isMarked_uses (isUses : node.type = .ynUses) : isMarked node = false := by
  simp [isMarked, isUses]

theorem isMarked_zero (zero : node.ref = 0) : isMarked node = false := by
  simp [isMarked, zero]

theorem isDefault_of_not (notMarked : isMarked node = false) : isDefault node = false := by
  rw [isDefault, notMarked, Bool.false_and]

theorem defaults_nil : defaults .nil = [] := rfl

theorem defaults_append : defaults (forest.append other) = defaults forest ++ defaults other := by
  rw [defaults, Forest.labels_append, List.filter_append, List.map_append]
  rfl

theorem defaults_cons : defaults (.cons node kids rest) =
    (if isDefault node then [node.id] else []) ++ (defaults kids ++ defaults rest) := by
  rw [defaults, Forest.labels_cons, List.filter_cons]
  split
  · rw [List.map_cons, List.filter_append, List.map_append]
    rfl
  · rw [List.filter_append, List.map_append]
    rfl

theorem defaults_cons_eq_append :
    defaults (.cons node kids rest) = defaults (.cons node kids .nil) ++ defaults rest := by
  rw [← defaults_append]
  rfl

theorem defaults_eq_nil (unmarked : ∀ label ∈ forest.labels, isMarked label = false) :
    defaults forest = [] := by
  rw [defaults, List.filter_eq_nil_iff.mpr, List.map_nil]
  intro label member
  rw [isDefault_of_not (unmarked label member)]
  exact Bool.false_ne_true

theorem InOrder.append : InOrder seen (forest.append other) ↔
    InOrder seen forest ∧ InOrder (seen ++ defaults forest) other := by
  induction forest generalizing seen with
  | nil =>
      rw [Forest.append, defaults_nil, List.append_nil]
      exact ⟨fun ordered => ⟨trivial, ordered⟩, And.right⟩
  | cons node kids rest _ restHypothesis =>
      rw [Forest.append, InOrder, InOrder, restHypothesis, @defaults_cons_eq_append kids rest,
        List.append_assoc]
      simp only [and_assoc]

/-- No mark begins in a subtree with a mark that has been seen. -/
theorem InOrder.repeated (ordered : InOrder seen (.cons node kids rest))
    (marked : isMarked node = true) (isSeen : node.ref ∈ seen) :
    isDefault node = false ∧ defaults kids = [] := by
  have known := ordered.1 marked
  split at known
  · exact absurd isSeen known
  · next foreign =>
      refine ⟨?_, known.2⟩
      rw [isDefault, beq_false_of_ne foreign, Bool.and_false]

/-- The marks that have been seen matter only in so far as they are repeated. -/
theorem Swept.inOrder (isSwept : Swept ref grouping forest swept) (ordered : InOrder seen forest)
    (isSeen : ref ∈ seen) (nonzero : ref ≠ 0) (covers : ∀ id ∈ seen, id = ref ∨ id ∈ left)
    (within : ∀ id ∈ left, id ∈ seen) :
    InOrder left swept ∧ defaults swept = defaults forest := by
  induction isSwept generalizing seen left with
  | nil => exact ⟨trivial, rfl⟩
  | @other node kids rest newKids newRest isOther _ _ belowHypothesis behindHypothesis =>
      obtain ⟨here, below, behind⟩ := ordered
      obtain ⟨newBelow, sameBelow⟩ := belowHypothesis below isSeen covers within
      have same : defaults (.cons node newKids .nil) = defaults (.cons node kids .nil) := by
        rw [defaults_cons, defaults_cons, sameBelow]
      obtain ⟨newBehind, sameBehind⟩ := @behindHypothesis _
        (left ++ defaults (.cons node kids .nil)) behind (List.mem_append_left _ isSeen)
        (fun id member => by
          rcases List.mem_append.mp member with before | inside
          · exact (covers id before).imp_right (List.mem_append_left _)
          · exact .inr (List.mem_append_right _ inside))
        (fun id member => by
          rcases List.mem_append.mp member with before | inside
          · exact List.mem_append_left _ (within id before)
          · exact List.mem_append_right _ inside)
      refine ⟨⟨fun marked => ?_, newBelow, same ▸ newBehind⟩, ?_⟩
      · have known := here marked
        split at known
        · next own =>
            rw [if_pos own]
            exact fun member => known (within _ member)
        · next foreign =>
            rw [if_neg foreign, sameBelow]
            refine ⟨(covers _ known.1).resolve_left ?_, known.2⟩
            have isUses := isMarked_eq_true.mp marked
            exact isOther.resolve_right isUses.2
      · rw [defaults_cons, sameBelow, sameBehind, ← defaults_cons]
  | @children node uses kids rest newKeyval newRest isMarked ofChildren isUses _ _ belowHypothesis
      behindHypothesis =>
      have marked := isMarked_eq_true.mpr ⟨isMarked.1 ▸ nonzero, isMarked.2⟩
      obtain ⟨notDefault, noneBelow⟩ := ordered.repeated marked (isMarked.1 ▸ isSeen)
      have unmarked : Ynode.isMarked { node with ref := 0 } = false := isMarked_zero rfl
      have usesUnmarked := isMarked_uses isUses.1
      have below := ordered.2.1
      rw [← append_innerNodes kids] at below noneBelow
      rw [defaults_append, List.append_eq_nil_iff] at noneBelow
      obtain ⟨newBelow, sameBelow⟩ :=
        belowHypothesis (InOrder.append.mp below).1 isSeen covers within
      have noneHere : defaults (.cons node kids .nil) = [] := by
        rw [defaults_cons, notDefault, ← append_innerNodes kids, defaults_append, noneBelow.1,
          noneBelow.2]
        rfl
      have noneNew : defaults (.cons { node with ref := 0 }
          (newKeyval.append (.cons uses .nil .nil)) .nil) = [] := by
        rw [defaults_cons, isDefault_of_not unmarked, defaults_append, sameBelow, noneBelow.1,
          defaults_cons, isDefault_of_not usesUnmarked]
        rfl
      have behind := ordered.2.2
      rw [noneHere, List.append_nil] at behind
      obtain ⟨newBehind, sameBehind⟩ := behindHypothesis behind isSeen covers within
      refine ⟨⟨?_, ?_, ?_⟩, ?_⟩
      · intro isNow
        rw [unmarked] at isNow
        cases isNow
      · refine InOrder.append.mpr ⟨newBelow, ?_, trivial, trivial⟩
        intro isNow
        rw [usesUnmarked] at isNow
        cases isNow
      · rw [noneNew, List.append_nil]
        exact newBehind
      · rw [defaults_cons_eq_append, noneNew, @defaults_cons_eq_append kids rest, noneHere,
          sameBehind]
  | @subtree node uses kids rest newRest isMarked ofSubtree isUses _ behindHypothesis =>
      have marked := isMarked_eq_true.mpr ⟨isMarked.1 ▸ nonzero, isMarked.2⟩
      obtain ⟨notDefault, noneBelow⟩ := ordered.repeated marked (isMarked.1 ▸ isSeen)
      have usesUnmarked := isMarked_uses isUses.1
      have noneHere : defaults (.cons node kids .nil) = [] := by
        rw [defaults_cons, notDefault, noneBelow]
        rfl
      have noneNew : defaults (.cons uses .nil .nil) = [] := by
        rw [defaults_cons, isDefault_of_not usesUnmarked]
        rfl
      have behind := ordered.2.2
      rw [noneHere, List.append_nil] at behind
      obtain ⟨newBehind, sameBehind⟩ := behindHypothesis behind isSeen covers within
      refine ⟨⟨?_, trivial, ?_⟩, ?_⟩
      · intro isNow
        rw [usesUnmarked] at isNow
        cases isNow
      · rw [noneNew, List.append_nil]
        exact newBehind
      · rw [defaults_cons_eq_append, noneNew, @defaults_cons_eq_append kids rest, noneHere,
          sameBehind]

end Order

end SysrepoAugeas.Ynode
