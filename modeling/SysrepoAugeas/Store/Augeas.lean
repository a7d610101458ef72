import Mathlib.Data.List.Basic
import SysrepoAugeas.Data.Rank

/-!
# The Augeas siblings a store step edits

One level of the Augeas tree is the sequence of its nodes, each with a label
and the value and subtree below it.  The functions follow the documented
behaviour of the Augeas API on paths `label[n]` (the `n`-th sibling with that
label) and `label` (every sibling with that label); `none` is the error
return `-1`.
-/

namespace SysrepoAugeas.Store

open SysrepoAugeas.Data

variable {T : Type}

/-- Everything an Augeas node holds below its label. -/
structure Content (T : Type) where
  value : Option String
  subtree : List T
  deriving DecidableEq

/-- A node freshly made by `aug_insert` has neither a value nor children. -/
def Content.empty : Content T := ⟨none, []⟩

structure AugNode (T : Type) where
  label : String
  content : Content T
  deriving DecidableEq

/-- Last segment of an Augeas path; no index stands for a path without predicate. -/
structure AugPath where
  label : String
  index : Option Nat
  deriving DecidableEq

def AugNode.hasLabel (label : String) (node : AugNode T) : Bool :=
  node.label == label

@[simp]
theorem AugNode.hasLabel_eq_true (label : String) (node : AugNode T) :
    node.hasLabel label = true ↔ node.label = label := by
  simp [AugNode.hasLabel]

/-- Positions of the siblings a path matches. -/
def AugPath.locate (path : AugPath) (siblings : List (AugNode T)) : List Nat :=
  match path.index with
  | some rank => (nthPosition (AugNode.hasLabel path.label) rank siblings).toList
  | none => positions (AugNode.hasLabel path.label) siblings

/-- `aug_insert`: the anchor must match exactly one node. -/
def augInsert (anchor : AugPath) (label : String) (before : Bool)
    (siblings : List (AugNode T)) : Option (List (AugNode T)) :=
  match anchor.locate siblings with
  | [position] =>
      some (siblings.insertIdx (if before then position else position + 1)
        ⟨label, Content.empty⟩)
  | _ => none

/-- `aug_set`: sets the value of the only match, creates the node last when
nothing matches. -/
def augSet (path : AugPath) (value : Option String)
    (siblings : List (AugNode T)) : Option (List (AugNode T)) :=
  match path.locate siblings with
  | [] => some (siblings ++ [⟨path.label, ⟨value, []⟩⟩])
  | [position] =>
      some (siblings.modify position fun node =>
        { node with content := { node.content with value := value } })
  | _ => none

/-- Descendants of the diff node are stored under the path of the node itself,
so they only fill the subtree of the node that path matches. -/
def augFill (path : AugPath) (subtree : List T)
    (siblings : List (AugNode T)) : Option (List (AugNode T)) :=
  match path.locate siblings with
  | [position] =>
      some (siblings.modify position fun node =>
        { node with content := { node.content with subtree := subtree } })
  | _ => none

/-- `aug_rm`: number of removed matches and the remaining siblings. -/
def augRm (path : AugPath) (siblings : List (AugNode T)) : Nat × List (AugNode T) :=
  match path.index with
  | some rank =>
      match nthPosition (AugNode.hasLabel path.label) rank siblings with
      | some position => (1, siblings.eraseIdx position)
      | none => (0, siblings)
  | none =>
      (siblings.countP (AugNode.hasLabel path.label),
        siblings.filter fun node => !node.hasLabel path.label)

/-- `aug_rename`: every match gets the new label, in place. -/
def augRename (path : AugPath) (label : String)
    (siblings : List (AugNode T)) : List (AugNode T) :=
  (path.locate siblings).foldl
    (fun nodes position => nodes.modify position fun node => { node with label := label })
    siblings

/-- `aug_mv`: the destination takes over value and subtree of the source, which
disappears; a node cannot be moved onto itself. -/
def augMv (source destination : AugPath)
    (siblings : List (AugNode T)) : Option (List (AugNode T)) :=
  match source.locate siblings, destination.locate siblings with
  | [from_], [to_] =>
      if from_ = to_ then none
      else
        siblings[from_]?.map fun moved =>
          (siblings.modify to_ fun node => { node with content := moved.content }).eraseIdx from_
  | [from_], [] =>
      siblings[from_]?.map fun moved =>
        siblings.eraseIdx from_ ++ [⟨destination.label, moved.content⟩]
  | _, _ => none

section Split

/-! Effect of each call at a split of the siblings that the path selects. -/

variable {path : AugPath} {front back : List (AugNode T)} {node : AugNode T}

theorem AugPath.locate_ranked (label : String) (front : List (AugNode T))
    {node : AugNode T} (labelled : node.label = label) (back : List (AugNode T)) :
    (AugPath.mk label (some (front.countP (AugNode.hasLabel label) + 1))).locate
      (front ++ node :: back) = [front.length] := by
  have selected : node.hasLabel label = true := by simpa using labelled
  simp [AugPath.locate, nthPosition_middle _ front selected back]

theorem AugPath.locate_unique (label : String) (front : List (AugNode T))
    {node : AugNode T} (labelled : node.label = label) (back : List (AugNode T))
    (uniqueFront : ∀ other ∈ front, other.label ≠ label)
    (uniqueBack : ∀ other ∈ back, other.label ≠ label) :
    (AugPath.mk label none).locate (front ++ node :: back) = [front.length] := by
  have selected : node.hasLabel label = true := by simpa using labelled
  refine positions_middle_of_unique _ front selected back ?_ ?_
  · intro other membership
    simpa [AugNode.hasLabel] using uniqueFront other membership
  · intro other membership
    simpa [AugNode.hasLabel] using uniqueBack other membership

theorem augInsert_before (located : path.locate (front ++ node :: back) = [front.length])
    (label : String) :
    augInsert path label true (front ++ node :: back) =
      some (front ++ ⟨label, Content.empty⟩ :: node :: back) := by
  simp [augInsert, located, insertIdx_split]

theorem augInsert_after (located : path.locate (front ++ node :: back) = [front.length])
    (label : String) :
    augInsert path label false (front ++ node :: back) =
      some (front ++ node :: ⟨label, Content.empty⟩ :: back) := by
  have inserted := insertIdx_split (front ++ [node]) ⟨label, Content.empty⟩ back
  simp only [List.length_append, List.length_singleton, List.append_assoc,
    List.singleton_append] at inserted
  simp [augInsert, located, inserted]

theorem augSet_middle (located : path.locate (front ++ node :: back) = [front.length])
    (value : Option String) :
    augSet path value (front ++ node :: back) =
      some (front ++ ⟨node.label, ⟨value, node.content.subtree⟩⟩ :: back) := by
  simp [augSet, located, modify_split]

theorem augFill_middle (located : path.locate (front ++ node :: back) = [front.length])
    (subtree : List T) :
    augFill path subtree (front ++ node :: back) =
      some (front ++ ⟨node.label, ⟨node.content.value, subtree⟩⟩ :: back) := by
  simp [augFill, located, modify_split]

theorem augRename_middle (located : path.locate (front ++ node :: back) = [front.length])
    (label : String) :
    augRename path label (front ++ node :: back) =
      front ++ ⟨label, node.content⟩ :: back := by
  simp [augRename, located, modify_split]

/-- The source is the later one of two nodes: its content goes to the earlier one. -/
theorem augMv_back {source destination : AugPath} {middle : List (AugNode T)}
    {other : AugNode T}
    (sourceLocated : source.locate (front ++ node :: (middle ++ other :: back)) =
      [(front ++ node :: middle).length])
    (destinationLocated : destination.locate (front ++ node :: (middle ++ other :: back)) =
      [front.length]) :
    augMv source destination (front ++ node :: (middle ++ other :: back)) =
      some (front ++ ⟨node.label, other.content⟩ :: (middle ++ back)) := by
  have regroup : ∀ first : AugNode T, front ++ first :: (middle ++ other :: back) =
      (front ++ first :: middle) ++ other :: back := by simp
  have sameLength : (front ++ node :: middle).length =
      (front ++ (⟨node.label, other.content⟩ : AugNode T) :: middle).length := by simp
  have moved : (front ++ node :: (middle ++ other :: back))[(front ++ node :: middle).length]? =
      some other := by
    rw [regroup]
    simp
  have different : (front ++ node :: middle).length ≠ front.length := by simp
  simp only [augMv, sourceLocated, destinationLocated, different, if_false, moved,
    Option.map_some, modify_split]
  rw [sameLength, regroup, eraseIdx_split]
  simp

/-- The source is the earlier one of two nodes: its content goes to the later one. -/
theorem augMv_forth {source destination : AugPath} {middle : List (AugNode T)}
    {other : AugNode T}
    (sourceLocated : source.locate (front ++ node :: (middle ++ other :: back)) =
      [front.length])
    (destinationLocated : destination.locate (front ++ node :: (middle ++ other :: back)) =
      [(front ++ node :: middle).length]) :
    augMv source destination (front ++ node :: (middle ++ other :: back)) =
      some (front ++ (middle ++ ⟨other.label, node.content⟩ :: back)) := by
  have regroup : ∀ second : AugNode T, front ++ node :: (middle ++ second :: back) =
      (front ++ node :: middle) ++ second :: back := by simp
  have moved : (front ++ node :: (middle ++ other :: back))[front.length]? = some node := by
    simp
  have different : front.length ≠ (front ++ node :: middle).length := by simp
  simp only [augMv, sourceLocated, destinationLocated, different, if_false, moved,
    Option.map_some]
  rw [regroup other, modify_split, ← regroup, eraseIdx_split]

end Split

end SysrepoAugeas.Store
