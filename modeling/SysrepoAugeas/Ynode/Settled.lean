import SysrepoAugeas.Ynode.Settling

/-!
# Marking and creating groupings

The marked tree is what the creation of groupings relies on, if no grouping is
both for whole subtrees and for children; both passes together keep what the
tree describes.
-/

namespace SysrepoAugeas.Ynode

open SysrepoAugeas.Data
open Forest (Hole)

section Settled

variable {lenses : Lnode → LensText} {labels : Lnode → LabelLens} {bodies : Lnode → Nat}
  {wholeOf innerOf : YnodeId → Forest NodeShape} {root : AyYnode}
  {kids forest marked : Forest AyYnode} {idcnt : YnodeId}

theorem all_named_congr {otherWhole otherInner : YnodeId → Forest NodeShape}
    (named : forest.All (Named lenses wholeOf innerOf))
    (same : ∀ label ∈ forest.labels, otherWhole label.id = wholeOf label.id ∧
      otherInner label.id = innerOf label.id) :
    forest.All (Named lenses otherWhole otherInner) := by
  apply (Forest.All.and named (Forest.All.of_labels same)).mono
  rintro node kids ⟨isNamed, sameWhole, sameInner⟩
  exact ⟨isNamed.whole.trans sameWhole.symm, isNamed.inner.trans sameInner.symm⟩

/-- The id of a node names its shapes. -/
theorem exists_named (lenses : Lnode → LensText) (distinct : DistinctIds forest) :
    ∃ wholeOf innerOf, forest.All (Named lenses wholeOf innerOf) := by
  induction forest with
  | nil => exact ⟨fun _ => .nil, fun _ => .nil, trivial⟩
  | cons node kids rest kidsHypothesis restHypothesis =>
      obtain ⟨distinctKids, distinctRest, apart, notBelow, notBehind⟩ := distinct.of_cons
      obtain ⟨wholeBelow, innerBelow, namedBelow⟩ := kidsHypothesis distinctKids
      obtain ⟨wholeBehind, innerBehind, namedBehind⟩ := restHypothesis distinctRest
      let pick : Forest NodeShape → (YnodeId → Forest NodeShape) →
          (YnodeId → Forest NodeShape) → YnodeId → Forest NodeShape :=
        fun here below behind id =>
          if id = node.id then here
          else if id ∈ kids.labels.map AyYnode.id then below id else behind id
      have pickHere : ∀ here below behind, pick here below behind node.id = here :=
        fun _ _ _ => if_pos rfl
      have pickBelow : ∀ here below behind, ∀ label ∈ kids.labels,
          pick here below behind label.id = below label.id := by
        intro here below behind label member
        exact (if_neg (notBelow label member)).trans (if_pos (List.mem_map_of_mem member))
      have pickBehind : ∀ here below behind, ∀ label ∈ rest.labels,
          pick here below behind label.id = behind label.id := by
        intro here below behind label member
        refine (if_neg (notBehind label member)).trans (if_neg fun isBelow => ?_)
        obtain ⟨other, isOther, same⟩ := List.mem_map.mp isBelow
        exact apart other isOther label member same
      refine ⟨pick ((Forest.cons node kids .nil).map (nodeShape lenses)) wholeBelow wholeBehind,
        pick ((innerNodes kids).2.map (nodeShape lenses)) innerBelow innerBehind,
        ⟨(pickHere _ _ _).symm, (pickHere _ _ _).symm⟩, ?_, ?_⟩
      · exact all_named_congr namedBelow fun label member =>
          ⟨pickBelow _ _ _ label member, pickBelow _ _ _ label member⟩
      · exact all_named_congr namedBehind fun label member =>
          ⟨pickBehind _ _ _ label member, pickBehind _ _ _ label member⟩

/-- No grouping is both for whole subtrees and for children. -/
def Unmixed (forest : Forest AyYnode) : Prop :=
  ∀ node ∈ forest.labels, ∀ other ∈ forest.labels,
    node.ref ≠ 0 → node.ref = other.ref → marksChildren node = marksChildren other

instance (forest : Forest AyYnode) : Decidable (Unmixed forest) :=
  inferInstanceAs (Decidable (∀ node ∈ forest.labels, ∀ other ∈ forest.labels,
    node.ref ≠ 0 → node.ref = other.ref → marksChildren node = marksChildren other))

/-- What a mark is for. -/
def treesOf (wholeOf innerOf : YnodeId → Forest NodeShape) (forest : Forest AyYnode)
    (mark : YnodeId) : Forest NodeShape :=
  if forest.labels.any fun label => label.ref == mark && marksChildren label then innerOf mark
  else wholeOf mark

theorem proper_of_classified (clean : forest.All Clean)
    (named : forest.All (Named lenses wholeOf innerOf))
    (classified : ∀ label ∈ forest.labels, Classified wholeOf innerOf label)
    (unmixed : Unmixed forest) : forest.All (Proper lenses (treesOf wholeOf innerOf forest)) := by
  have inside : ∀ label ∈ forest.labels, label ∈ forest.labels := fun _ member => member
  apply (Forest.All.and (Forest.All.and clean named)
    (Forest.All.and (Forest.All.of_labels classified) (Forest.All.of_labels inside))).mono
  rintro node kids ⟨⟨isClean, isNamed⟩, isClassified, member⟩
  refine ⟨⟨isClean.plain.1, isClean.plain.2.1, isClean.plain.2.2.1⟩,
    fun isKey => ⟨isClassified.keyval isKey, isClean.keyval isKey⟩,
    Option.isSome_iff_exists.mp isClean.keyed, isClean.inner, fun nonzero => ?_, fun nonzero => ?_⟩
  · cases flagged : marksChildren node with
    | true =>
        have found : (forest.labels.any fun label =>
            label.ref == node.ref && marksChildren label) = true :=
          List.any_eq_true.mpr ⟨node, member, by simp [flagged]⟩
        rw [content, flagged, if_pos rfl, treesOf, if_pos found, isNamed.inner]
        exact (isClassified.inner nonzero flagged).1
    | false =>
        have notFound : ¬ (forest.labels.any fun label =>
            label.ref == node.ref && marksChildren label) = true := by
          intro found
          obtain ⟨other, isOther, both⟩ := List.any_eq_true.mp found
          rw [Bool.and_eq_true, beq_iff_eq] at both
          have sameFlag := unmixed node member other isOther nonzero both.1.symm
          rw [flagged, both.2] at sameFlag
          cases sameFlag
        rw [content, flagged, treesOf, if_neg notFound]
        exact isNamed.whole.trans (isClassified.whole nonzero flagged)
  · cases flagged : marksChildren node with
    | true =>
        rw [content, flagged, if_pos rfl]
        intro empty
        apply (isClassified.inner nonzero flagged).2
        rw [← isNamed.inner, empty]
        rfl
    | false =>
        rw [content, flagged]
        intro empty
        cases empty

/-- The nodes have no marks yet. -/
def Unmarked (forest : Forest AyYnode) : Prop :=
  ∀ label ∈ forest.labels, label.ref = 0 ∧ marksChildren label = false

instance (forest : Forest AyYnode) : Decidable (Unmarked forest) :=
  inferInstanceAs (Decidable (∀ label ∈ forest.labels,
    label.ref = 0 ∧ marksChildren label = false))

theorem exists_setRef (clean : (Forest.cons root kids .nil).All Clean)
    (unmarked : Unmarked (.cons root kids .nil)) (distinct : DistinctIds (.cons root kids .nil))
    (nonzero : ∀ label ∈ (Forest.cons root kids .nil).labels, label.id ≠ 0)
    (named : (Forest.cons root kids .nil).All (Named lenses wholeOf innerOf)) :
    ∃ newRoot below, ayYnodeSetRef lenses labels bodies (.cons root kids .nil) =
        some (.cons newRoot below .nil) ∧ InOrder [] below ∧
      (∀ label ∈ (Forest.cons newRoot below .nil).labels, Classified wholeOf innerOf label) ∧
      (Forest.cons newRoot below .nil).map unmark = (Forest.cons root kids .nil).map unmark := by
  have rootUnmarked := unmarked root List.mem_cons_self
  have settling : Settling wholeOf innerOf (.cons root kids .nil)
      (Hole.top.under root .nil) kids := by
    refine ⟨.inr ⟨rfl, rfl, clean.1.plain.2.1⟩, ⟨trivial, fun marked => ?_⟩,
      fun label member marked => ?_, ⟨fun _ member => (nomatch member), trivial⟩,
      fun label member => ?_, rfl⟩
    · rw [isMarked_zero rootUnmarked.1] at marked
      cases marked
    · have zero := (unmarked label (by
        rw [Forest.labels_cons]
        exact List.mem_cons_of_mem _ (List.mem_append_left _ member))).1
      rw [isMarked_zero zero] at marked
      cases marked
    · have isUnmarked := unmarked label member
      exact ⟨fun _ => isUnmarked.1, fun _ => isUnmarked.2,
        fun marked => absurd isUnmarked.1 marked, fun marked => absurd isUnmarked.1 marked⟩
  refine setRefFrom_settles clean named distinct nonzero settling ?_
  have place : (Hole.top.under root .nil).index = 1 := rfl
  rw [place, Hole.fill, Hole.fill]
  omega

/-- Lists with the same children behind a key of their own. -/
def listsTree (snodes : List Lnode) : Forest AyYnode :=
  let node : YnodeId → YangType → Lnode → AyYnode := fun id type snode =>
    { AyYnode.blank id with type := type, snode := some snode, label := some snode }
  let list : YnodeId → Lnode → Forest AyYnode → Forest AyYnode := fun id snode =>
    .cons (node id .ynList snode) (.cons (node (id + 1) .ynKey snode) .nil
      (.cons (node (id + 2) .ynLeaf 3) .nil (.cons (node (id + 3) .ynLeaf 3) .nil .nil)))
  let lists : Forest AyYnode := snodes.zipIdx.foldr
    (fun place => list (3 + 4 * BitVec.ofNat 32 place.2) place.1) .nil
  .cons (node 1 .ynRoot 0) (.cons (node 2 .ynContainer 5) lists .nil) .nil

def listsLenses (snode : Lnode) : LensText :=
  ⟨.lKey, if snode = 1 then "host" else if snode = 2 then "port" else "name"⟩

/-- The lists of the example have one grouping, for children only. -/
theorem unmixed_lists :
    (ayYnodeSetRef listsLenses (fun _ => ⟨.lKey, none, 1⟩) id (listsTree [1, 2])).all
      (fun marked => decide (Unmixed marked)) = true := by
  decide +kernel

-- The first two lists are equal, the third one shares their children only: the second is lost.
example : (listsTree [1, 1, 2]).size = 14 ∧
    ((ayYnodeSetRef listsLenses (fun _ => ⟨.lKey, none, 1⟩) id (listsTree [1, 1, 2])).bind
      fun marked => (ayYnodeCreateGroupingsToplevel ⟨marked, 20⟩).bind fun after =>
        (expandUses listsLenses after.forest).map Forest.size) = some 12 := by
  decide +kernel

end Settled

end SysrepoAugeas.Ynode
