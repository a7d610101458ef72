import SysrepoAugeas.Ynode.Round

/-!
# Equal subtrees have one shape

What `ay_ynode_subtree_equal` finds equal has the same nodes in the same
nesting, with the roots or without them.
-/

namespace SysrepoAugeas.Ynode

open SysrepoAugeas.Data

section Equal

variable {lenses : Lnode → LensText}

theorem lensKey_eq {text1 text2 : Option LensText}
    (same : ((text1.isNone && text2.isNone) || ayLnodeLenseEqual text1 text2) = true) :
    text1.map lensKey = text2.map lensKey := by
  cases text1 with
  | none =>
      cases text2 with
      | none => rfl
      | some lens2 => cases same
  | some lens1 =>
      cases text2 with
      | none => cases same
      | some lens2 =>
          have equal : ayLnodeLenseEqual (some lens1) (some lens2) = true := same
          rw [ayLnodeLenseEqual] at equal
          rw [Option.map_some, Option.map_some, lensKey, lensKey]
          split at equal
          · next both =>
              rw [Bool.and_eq_true] at both
              rw [both.1, both.2, if_pos rfl, if_pos rfl, beq_iff_eq.mp equal]
          · next notBoth =>
              rw [beq_iff_eq.mp equal, Bool.and_self, Bool.not_eq_true] at notBoth
              rw [beq_iff_eq.mp equal, notBoth]
              rfl

theorem and_shapeFlags {flags1 flags2 mask : Nat} (covers : mask &&& ayShapeFlags = ayShapeFlags)
    (same : flags1 &&& mask = flags2 &&& mask) :
    flags1 &&& ayShapeFlags = flags2 &&& ayShapeFlags := by
  rw [← covers, ← Nat.and_assoc, same, Nat.and_assoc]

/-- Equal nodes have one shape. -/
theorem ayYnodeEqual.shape_eq {seen1 seen2 : Seen} {ignoreChoice : Bool}
    (equal : ayYnodeEqual lenses seen1 seen2 ignoreChoice = true) :
    nodeShape lenses seen1.node = nodeShape lenses seen2.node ∧
      seen1.descendants = seen2.descendants := by
  simp only [ayYnodeEqual, Bool.and_eq_true] at equal
  obtain ⟨⟨⟨⟨⟨⟨⟨⟨⟨size, type⟩, label⟩, value⟩, snode⟩, -⟩, -⟩, flags⟩, minElems⟩, -⟩ := equal
  have sameType := beq_iff_eq.mp type
  have sameFlags : seen1.node.flags &&& ayShapeFlags = seen2.node.flags &&& ayShapeFlags := by
    refine and_shapeFlags ?_ (beq_iff_eq.mp flags)
    cases ignoreChoice <;> rfl
  have sameElems : (if seen1.node.type = .ynList then seen1.node.minElems else 0) =
      if seen2.node.type = .ynList then seen2.node.minElems else 0 := by
    rw [← sameType]
    split
    · next isList =>
        rw [isList] at minElems
        exact beq_iff_eq.mp (by simpa using minElems)
    · rfl
  refine ⟨?_, beq_iff_eq.mp size⟩
  simp only [nodeShape, sameType, lensKey_eq label, lensKey_eq value, beq_iff_eq.mp snode,
    sameFlags]
  rw [← sameType, sameElems, ← sameType]

theorem flat_of_seen (alone : Bool) (forest : Forest AyYnode) :
    (seen alone forest).map (fun entry => (nodeShape lenses entry.node, entry.descendants)) =
      (forest.map (nodeShape lenses)).flat := by
  induction forest generalizing alone with
  | nil => rfl
  | cons node kids rest kidsHypothesis restHypothesis =>
      rw [seen, List.map_cons, List.map_append, kidsHypothesis, restHypothesis, Forest.map,
        Forest.flat, Forest.size_map]

theorem allEqual.map_eq {list1 list2 : List Seen} (length : list1.length = list2.length)
    (equal : allEqual lenses list1 list2 = true) :
    list1.map (fun entry => (nodeShape lenses entry.node, entry.descendants)) =
      list2.map fun entry => (nodeShape lenses entry.node, entry.descendants) := by
  induction list1 generalizing list2 with
  | nil =>
      cases list2 with
      | nil => rfl
      | cons _ _ => cases length
  | cons first others inductionHypothesis =>
      cases list2 with
      | nil => cases length
      | cons second more =>
          rw [allEqual, List.zip_cons_cons, List.all_cons, Bool.and_eq_true] at equal
          obtain ⟨shape, size⟩ := ayYnodeEqual.shape_eq equal.1
          rw [List.map_cons, List.map_cons, shape, size,
            inductionHypothesis (Nat.succ.inj length) equal.2]

theorem length_seen (alone : Bool) (forest : Forest AyYnode) :
    (seen alone forest).length = forest.size := by
  induction forest generalizing alone with
  | nil => rfl
  | cons node kids rest kidsHypothesis restHypothesis =>
      rw [seen, List.length_cons, List.length_append, kidsHypothesis, restHypothesis, Forest.size]

theorem allEqual.shape_eq {alone1 alone2 : Bool} {forest1 forest2 : Forest AyYnode}
    (size : forest1.size = forest2.size)
    (equal : allEqual lenses (seen alone1 forest1) (seen alone2 forest2) = true) :
    forest1.map (nodeShape lenses) = forest2.map (nodeShape lenses) := by
  apply Forest.flat_injective
  rw [← flat_of_seen alone1, ← flat_of_seen alone2]
  refine allEqual.map_eq ?_ equal
  rw [length_seen, length_seen, size]

theorem map_withoutWhen (forest : Forest AyYnode) :
    (forest.map withoutWhen).map (nodeShape lenses) = forest.map (nodeShape lenses) := by
  induction forest with
  | nil => rfl
  | cons node kids rest kidsHypothesis restHypothesis =>
      rw [Forest.map, Forest.map, Forest.map, kidsHypothesis, restHypothesis]
      rfl

theorem subtree_shape {tree1 tree2 : AyYnode} {kids1 kids2 : Forest AyYnode}
    (equal : ayYnodeSubtreeEqualButWhen lenses tree1 kids1 tree2 kids2 = true) :
    (Forest.cons tree2 kids2 .nil).map (nodeShape lenses) =
      (Forest.cons tree1 kids1 .nil).map (nodeShape lenses) := by
  rw [ayYnodeSubtreeEqualButWhen, ayYnodeSubtreeEqual, Bool.and_eq_true] at equal
  obtain ⟨shape, size⟩ := ayYnodeEqual.shape_eq equal.1
  have below := allEqual.shape_eq size equal.2
  rw [map_withoutWhen, map_withoutWhen] at below
  have sameRoot : nodeShape lenses tree1 = nodeShape lenses tree2 := shape
  simp only [Forest.map, below, sameRoot]

/-- Changes of a node that leave its type alone leave alone what the inner nodes are. -/
theorem innerNodes_map {relabel : AyYnode → AyYnode}
    (sameType : ∀ node, (relabel node).type = node.type) (forest : Forest AyYnode) :
    innerNodes (forest.map relabel) =
      ((innerNodes forest).1.map relabel, (innerNodes forest).2.map relabel) := by
  have skipped : ∀ type (forest : Forest AyYnode), skipType type (forest.map relabel) =
      ((skipType type forest).1.map relabel, (skipType type forest).2.map relabel) := by
    intro type forest
    cases forest with
    | nil => rfl
    | cons node kids rest =>
        rw [Forest.map, skipType, skipType, sameType]
        split <;> rfl
  rw [innerNodes, innerNodes, skipped, skipped, Forest.map_append]

theorem inner_shape {tree1 tree2 : AyYnode} {kids1 kids2 : Forest AyYnode}
    (equal : ayYnodeInnerEqualButWhen lenses tree1 kids1 tree2 kids2 = some true) :
    (innerNodes kids2).2.map (nodeShape lenses) = (innerNodes kids1).2.map (nodeShape lenses) ∧
      (innerNodes kids2).2 ≠ .nil := by
  rw [ayYnodeInnerEqualButWhen, ayYnodeInnerEqual] at equal
  obtain ⟨inner1, isInner1, equal⟩ := Option.bind_eq_some_iff.mp equal
  obtain ⟨inner2, isInner2, equal⟩ := Option.bind_eq_some_iff.mp equal
  rw [ayInnerNodes_eq isInner1, ayInnerNodes_eq isInner2,
    @innerNodes_map withoutWhen (fun _ => rfl), @innerNodes_map withoutWhen (fun _ => rfl),
    Forest.size_map, Forest.size_map] at equal
  split at equal
  · cases equal
  · next counted =>
      rw [not_or, not_not] at counted
      have shape := allEqual.shape_eq (by rw [Forest.size_map, Forest.size_map, counted.2])
        (Option.some.inj equal)
      rw [map_withoutWhen, map_withoutWhen] at shape
      refine ⟨shape.symm, fun empty => counted.1 ?_⟩
      rw [counted.2, empty]
      rfl

end Equal

end SysrepoAugeas.Ynode
