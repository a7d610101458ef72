import Mathlib.Tactic.Linarith
import SysrepoAugeas.Ynode.SplitChoice

/-!
# Room for split nodes

The array gets as many free places as `ay_ynode_rule_node_split` counts before
the pass.  A node that is split repeats the split nodes below it, so the places
below it are counted as often as the node itself needs places.
-/

namespace SysrepoAugeas.Ynode

open SysrepoAugeas.Data

section Rule

variable (lenses : Lnode → LabelLens)

/-- End of `ay_ynode_rule_node_split`. -/
def placesOf (childrenTotal count : Nat) : Nat :=
  if count ≠ 0 ∧ childrenTotal ≠ 0 then childrenTotal * count
  else if count ≠ 0 then count
  else childrenTotal

/-- Loop of `ay_ynode_rule_node_split` over the children. -/
def childrenTotal : Forest AyYnode → Nat
  | .nil => 0
  | .cons node kids rest =>
      (if kids.size ≠ 0 then
        placesOf (childrenTotal kids) (ayYnodeRuleNodeIsSplittable lenses node kids.size)
      else ayYnodeRuleNodeIsSplittable lenses node kids.size) + childrenTotal rest

/-- `ay_ynode_rule_node_split` -/
def ayYnodeRuleNodeSplit (subtree : AyYnode) (children : Forest AyYnode) : Nat :=
  placesOf (childrenTotal lenses children)
    (ayYnodeRuleNodeIsSplittable lenses subtree children.size)

/-- Places below the topmost nodes. -/
def totalBelow : Forest AyYnode → Nat
  | .nil => 0
  | .cons _ kids rest => childrenTotal lenses kids + totalBelow rest

end Rule

section Total

variable {lenses : Lnode → LabelLens} {node : AyYnode} {kids rest forest other : Forest AyYnode}

theorem childrenTotal_cons (node : AyYnode) (kids rest : Forest AyYnode) :
    childrenTotal lenses (.cons node kids rest) =
      placesOf (childrenTotal lenses kids) (ayYnodeRuleNodeIsSplittable lenses node kids.size) +
        childrenTotal lenses rest := by
  rw [childrenTotal]
  split
  · rfl
  · rename_i empty
    have isNil := Forest.eq_nil_of_size (not_not.mp empty)
    rw [isNil]
    simp [placesOf, childrenTotal]

theorem childrenTotal_append (forest other : Forest AyYnode) :
    childrenTotal lenses (forest.append other) =
      childrenTotal lenses forest + childrenTotal lenses other := by
  induction forest with
  | nil => simp [Forest.append, childrenTotal]
  | cons node kids rest _ inductionHypothesis =>
      rw [Forest.append, childrenTotal_cons, childrenTotal_cons, inductionHypothesis,
        Nat.add_assoc]

theorem le_placesOf (total count : Nat) : total ≤ placesOf total count := by
  unfold placesOf
  split
  · rename_i both
    exact Nat.le_mul_of_pos_right _ (Nat.pos_of_ne_zero both.1)
  · split
    · rename_i notBoth counts
      have : total = 0 := by
        by_contra positive
        exact notBoth ⟨counts, positive⟩
      omega
    · exact Nat.le_refl _

theorem splittable_of_label (noLabel : node.label = none) (descendants : Nat) :
    ayYnodeRuleNodeIsSplittable lenses node descendants = 0 := by
  unfold ayYnodeRuleNodeIsSplittable ayLabelLens
  rw [noLabel]
  split <;> rfl

theorem splittable_of_keyOrValue (keyOrValue : node.type = .ynKey ∨ node.type = .ynValue)
    (descendants : Nat) : ayYnodeRuleNodeIsSplittable lenses node descendants = 0 := by
  unfold ayYnodeRuleNodeIsSplittable
  split
  · rfl
  · split
    · exact if_neg fun all => keyOrValue.elim all.2.1 all.2.2.1
    · rfl

theorem splittable_congr {other : AyYnode} (type : other.type = node.type)
    (label : other.label = node.label) (descendants : Nat) :
    ayYnodeRuleNodeIsSplittable lenses other descendants =
      ayYnodeRuleNodeIsSplittable lenses node descendants := by
  unfold ayYnodeRuleNodeIsSplittable ayLabelLens
  rw [type, label]

/-- A node that is split. -/
theorem splittable_eq {earlier : List AyYnode} (split : isSplit lenses earlier node kids = true) :
    ayYnodeRuleNodeIsSplittable lenses node kids.size =
      copyCount lenses node * kids.size + 2 + copyCount lenses node := by
  unfold isSplit at split
  have splittable : ayYnodeRuleNodeIsSplittable lenses node kids.size ≠ 0 := by
    simpa using (Bool.and_eq_true_iff.mp split).1
  unfold ayYnodeRuleNodeIsSplittable at splittable ⊢
  unfold copyCount
  by_cases isRoot : node.type = .ynRoot
  · exact absurd (if_pos isRoot) splittable
  · rw [if_neg isRoot] at splittable ⊢
    cases found : ayLabelLens lenses node with
    | none =>
        rw [found] at splittable
        exact absurd rfl splittable
    | some label =>
        simp only [found] at splittable ⊢
        by_cases counts : label.tag = .lKey ∧ node.type ≠ .ynKey ∧ node.type ≠ .ynValue ∧
            1 < label.identsCount
        · rw [if_pos counts]
          rfl
        · exact absurd (if_neg counts) splittable

theorem type_redirectedIn (block : List AyYnode) (node : AyYnode) :
    (redirectedIn block node).type = node.type := by
  unfold redirectedIn
  split <;> rfl

theorem childrenTotal_redirected (block : List AyYnode) (forest : Forest AyYnode) :
    childrenTotal lenses (forest.map (redirectedIn block)) = childrenTotal lenses forest := by
  induction forest with
  | nil => rfl
  | cons node kids rest kidsHypothesis restHypothesis =>
      rw [Forest.map, childrenTotal_cons, childrenTotal_cons, kidsHypothesis, restHypothesis,
        Forest.size_map, splittable_congr (type_redirectedIn block node)
          (label_redirectedIn block node)]

end Total

section Inner

variable {lenses : Lnode → LabelLens} {children : Forest AyYnode} {idcnt : YnodeId} {node : AyYnode}
  {recForm validWhen : Bool}

theorem length_find_le (chosen : AyYnode → Bool) (roots : List AyYnode) :
    (roots.find? chosen).toList.length ≤ roots.countP chosen := by
  cases found : roots.find? chosen with
  | none => exact Nat.zero_le _
  | some root =>
      have holds := List.find?_some found
      exact List.countP_pos_iff.mpr ⟨root, List.mem_of_find?_eq_some found, holds⟩

/-- Different nodes are used for the children of a copy. -/
theorem childSlots_le (roots : List AyYnode) (third : AyYnode → Bool)
    (notKey : ∀ root, third root = true → root.type ≠ .ynKey)
    (notValue : ∀ root, third root = true → root.type ≠ .ynValue) :
    (roots.find? fun root => root.type == .ynKey).toList.length +
        (roots.find? fun root => root.type == .ynValue).toList.length +
        (roots.find? third).toList.length ≤ roots.length := by
  have counted : (roots.countP fun root => root.type == .ynKey) +
      (roots.countP fun root => root.type == .ynValue) + roots.countP third ≤ roots.length := by
    induction roots with
    | nil => exact Nat.le_refl 0
    | cons root roots inductionHypothesis =>
        have one : (if root.type == .ynKey then 1 else 0) +
            (if root.type == .ynValue then 1 else 0) + (if third root then 1 else 0) ≤ 1 := by
          have notKey := notKey root
          have notValue := notValue root
          cases type : root.type <;> cases isThird : third root <;> simp_all
        rw [List.countP_cons, List.countP_cons, List.countP_cons, List.length_cons]
        omega
  have key := length_find_le (fun root => root.type == .ynKey) roots
  have value := length_find_le (fun root => root.type == .ynValue) roots
  have other := length_find_le third roots
  omega

/-- The grouping is new, or a node stands for it that is neither key nor value. -/
theorem groupInner_room (idcnt : YnodeId) (node : AyYnode) (children : Forest AyYnode)
    (recForm validWhen : Bool) :
    ((groupInner idcnt node children recForm validWhen).children = children ∧
        ((groupInner idcnt node children recForm validWhen).groupingId = 0 ∨
          ∃ root ∈ children.roots, root.type = .ynUses ∨ root.type = .ynGrouping)) ∨
      ∃ (front inner : Forest AyYnode) (grouping uses : AyYnode), children = front.append inner ∧
        inner.size ≠ 0 ∧ grouping.type = .ynGrouping ∧ grouping.label = none ∧
        uses.type = .ynUses ∧ uses.label = none ∧
        (groupInner idcnt node children recForm validWhen).children =
          front.append (.cons grouping inner (.cons uses .nil .nil)) := by
  have whole := innerNodes_append children
  unfold groupInner
  cases found : (innerNodes children).2 with
  | nil =>
      simp only [found]
      exact Or.inl ⟨trivial, Or.inl trivial⟩
  | cons first kids rest =>
      have isRoot : first ∈ children.roots := by
        rw [← whole, found, Forest.roots_append]
        exact List.mem_append_right _ List.mem_cons_self
      simp only [found]
      by_cases isUses : first.type = .ynUses ∧ rest = .nil
      · rw [if_pos isUses]
        exact Or.inl ⟨rfl, Or.inr ⟨first, isRoot, Or.inl isUses.1⟩⟩
      · rw [if_neg isUses]
        by_cases isGrouping : first.type = .ynGrouping
        · rw [if_pos isGrouping]
          exact Or.inl ⟨rfl, Or.inr ⟨first, isRoot, Or.inr isGrouping⟩⟩
        · rw [if_neg isGrouping]
          by_cases creates : !recForm && validWhen
          · rw [if_pos creates]
            rw [found] at whole
            refine Or.inr ⟨_, _, _, _, whole.symm, ?_, ?_, ?_, ?_, ?_, rfl⟩
            · rw [Forest.size]
              omega
            all_goals rfl
          · rw [if_neg creates]
            exact Or.inl ⟨rfl, Or.inl rfl⟩

/-- What a node with a grouping needs: two places in it, and its copies are not larger. -/
theorem grouped_room (idcnt : YnodeId) (node : AyYnode) (children : Forest AyYnode)
    (recForm validWhen : Bool) :
    let grouped := groupInner idcnt node children recForm validWhen
    grouped.children.size ≤ children.size + 2 ∧
      childrenTotal lenses grouped.children = childrenTotal lenses children ∧
      (usesOf grouped.groupingId).toList.length +
          (ayYnodeParentHasChild grouped.children .ynKey).toList.length +
          (ayYnodeParentHasChild grouped.children .ynValue).toList.length ≤ children.size := by
  have rootsLength (forest : Forest AyYnode) : forest.roots.length ≤ forest.size := by
    rw [← Forest.length_labels]
    exact forest.roots_sublist.length_le
  have usesLength (groupingId : YnodeId) : (usesOf groupingId).toList.length ≤ 1 := by
    unfold usesOf
    split <;> simp
  unfold ayYnodeParentHasChild
  rcases groupInner_room idcnt node children recForm validWhen with ⟨same, uses⟩ |
    ⟨front, inner, grouping, uses, rfl, nonempty, groupingType, groupingLabel, usesType, usesLabel,
      grouped⟩
  · refine ⟨same.symm ▸ Nat.le_add_right _ _, same.symm ▸ rfl, ?_⟩
    rw [same]
    refine le_trans ?_ (rootsLength children)
    rcases uses with noGrouping | ⟨root, isRoot, isThird⟩
    · rw [noGrouping]
      have slots := childSlots_le children.roots (fun _ => false) (by simp) (by simp)
      simp only [usesOf, if_pos, Option.toList_none, List.length_nil]
      omega
    · have slots := childSlots_le children.roots
        (fun root => root.type == .ynUses || root.type == .ynGrouping) (by grind) (by grind)
      have present : (children.roots.find? fun root =>
          root.type == .ynUses || root.type == .ynGrouping).toList.length = 1 := by
        cases found : children.roots.find? fun root =>
            root.type == .ynUses || root.type == .ynGrouping with
        | none =>
            have absent := List.find?_eq_none.mp found root isRoot
            grind
        | some root => rfl
      have one := usesLength (groupInner idcnt node children recForm validWhen).groupingId
      omega
  · have slots := childSlots_le front.roots (fun _ => false) (by simp) (by simp)
    have ofFront := rootsLength front
    have one := usesLength
      (groupInner idcnt node (front.append inner) recForm validWhen).groupingId
    have behind (type : YangType) (notGrouping : type ≠ .ynGrouping) (notUses : type ≠ .ynUses) :
        (front.append (.cons grouping inner (.cons uses .nil .nil))).roots.find?
          (fun root => root.type == type) = front.roots.find? fun root => root.type == type := by
      rw [Forest.roots_append, List.find?_append]
      simp [Forest.roots, groupingType, usesType, Ne.symm notGrouping, Ne.symm notUses]
    refine ⟨?_, ?_, ?_⟩
    · rw [grouped, Forest.size_append, Forest.size_append]
      simp only [Forest.size]
      omega
    · rw [grouped, childrenTotal_append, childrenTotal_append, childrenTotal_cons,
        childrenTotal_cons, splittable_of_label groupingLabel, splittable_of_label usesLabel]
      simp [placesOf, childrenTotal]
    · rw [grouped, behind .ynKey (by decide) (by decide), behind .ynValue (by decide) (by decide),
        Forest.size_append]
      omega

end Inner

section Copies

variable {lenses : Lnode → LabelLens}

theorem size_copiedSiblings (node : AyYnode) (children : Forest AyYnode) (count : Nat) :
    (copiedSiblings node children count).size = count * (children.size + 1) := by
  induction count with
  | zero => rw [copiedSiblings, Forest.size, Nat.zero_mul]
  | succ count inductionHypothesis =>
      rw [copiedSiblings, Forest.size, inductionHypothesis, Nat.succ_mul]
      omega

theorem totalBelow_copiedSiblings (node : AyYnode) (children : Forest AyYnode) (count : Nat) :
    totalBelow lenses (copiedSiblings node children count) =
      count * childrenTotal lenses children := by
  induction count with
  | zero => rw [copiedSiblings, totalBelow, Nat.zero_mul]
  | succ count inductionHypothesis =>
      rw [copiedSiblings, totalBelow, inductionHypothesis, Nat.succ_mul, Nat.add_comm]

theorem size_putFirst (data : Option AyYnode) (children : Forest AyYnode × YnodeId) :
    (putFirst data children).1.size = data.toList.length + children.1.size := by
  cases data with
  | none => exact (Nat.zero_add _).symm
  | some data =>
      rw [putFirst, Forest.size, Forest.size]
      simp only [Option.toList_some, List.length_singleton]
      omega

theorem size_newSiblings (node : AyYnode) (uses key value : Option AyYnode) (count : Nat)
    (siblings : Forest AyYnode) (idcnt : YnodeId) :
    (newSiblings node uses key value count siblings idcnt).1.size =
      count * (uses.toList.length + key.toList.length + value.toList.length + 1) +
        siblings.size := by
  induction count generalizing siblings idcnt with
  | zero => rw [newSiblings, Nat.zero_mul, Nat.zero_add]
  | succ count inductionHypothesis =>
      simp only [newSiblings]
      rw [inductionHypothesis, Forest.size, size_putFirst, size_putFirst, size_putFirst,
        Forest.size, Nat.succ_mul]
      omega

theorem childrenTotal_putFirst {data : Option AyYnode} {children : Forest AyYnode × YnodeId}
    (never : ∀ node ∈ data, ∀ descendants,
      ayYnodeRuleNodeIsSplittable lenses node descendants = 0) :
    childrenTotal lenses (putFirst data children).1 = childrenTotal lenses children.1 := by
  cases data with
  | none => rfl
  | some data =>
      have copy := @splittable_congr lenses data (ayYnodeCopyData children.2 data) rfl rfl 0
      rw [putFirst, childrenTotal_cons, Forest.size, copy, never data rfl]
      simp [placesOf, childrenTotal]

theorem totalBelow_newSiblings {uses key value : Option AyYnode}
    (neverUses : ∀ node ∈ uses, ∀ descendants,
      ayYnodeRuleNodeIsSplittable lenses node descendants = 0)
    (neverKey : ∀ node ∈ key, ∀ descendants,
      ayYnodeRuleNodeIsSplittable lenses node descendants = 0)
    (neverValue : ∀ node ∈ value, ∀ descendants,
      ayYnodeRuleNodeIsSplittable lenses node descendants = 0) (node : AyYnode) (count : Nat)
    (siblings : Forest AyYnode) (idcnt : YnodeId) :
    totalBelow lenses (newSiblings node uses key value count siblings idcnt).1 =
      totalBelow lenses siblings := by
  induction count generalizing siblings idcnt with
  | zero => rfl
  | succ count inductionHypothesis =>
      simp only [newSiblings]
      rw [inductionHypothesis, totalBelow, childrenTotal_putFirst neverKey,
        childrenTotal_putFirst neverValue, childrenTotal_putFirst neverUses, childrenTotal,
        Nat.zero_add]

end Copies

section Pass

variable {lenses : Lnode → LabelLens} {node : AyYnode} {kids : Forest AyYnode}
  {earlier : List AyYnode} {visit : YnodeId → Forest AyYnode → Forest AyYnode × YnodeId}

/-- A node that is split needs two places at least. -/
theorem childrenTotal_cases (forest : Forest AyYnode) :
    childrenTotal lenses forest = 0 ∨ 2 ≤ childrenTotal lenses forest ∧ forest.size ≠ 0 := by
  induction forest with
  | nil => exact Or.inl rfl
  | cons node kids rest kidsHypothesis restHypothesis =>
      have count (descendants : Nat) :
          ayYnodeRuleNodeIsSplittable lenses node descendants = 0 ∨
            2 ≤ ayYnodeRuleNodeIsSplittable lenses node descendants := by
        unfold ayYnodeRuleNodeIsSplittable
        split
        · exact Or.inl rfl
        · split
          · split
            · refine Or.inr ?_
              omega
            · exact Or.inl rfl
          · exact Or.inl rfl
      have ofKids := le_placesOf (childrenTotal lenses kids)
        (ayYnodeRuleNodeIsSplittable lenses node kids.size)
      rw [childrenTotal_cons, Forest.size]
      rcases kidsHypothesis with noKids | ⟨someKids, -⟩
      · rw [noKids] at ofKids ⊢
        rcases count kids.size with zero | two
        · rw [zero]
          rcases restHypothesis with noRest | ⟨someRest, -⟩
          · exact Or.inl (by simp [placesOf, noRest])
          · exact Or.inr ⟨someRest.trans (Nat.le_add_left _ _), by omega⟩
        · have places : placesOf 0 (ayYnodeRuleNodeIsSplittable lenses node kids.size) =
              ayYnodeRuleNodeIsSplittable lenses node kids.size := by
            rw [placesOf, if_neg (by simp), if_pos (by omega)]
          exact Or.inr ⟨by omega, by omega⟩
      · exact Or.inr ⟨by omega, by omega⟩

/-- Places for copies of a whole subtree, in which everything is split again. -/
theorem copied_le {total copies descendants : Nat}
    (some : total = 0 ∨ 2 ≤ total ∧ descendants ≠ 0) :
    total + copies * (descendants + 1) + copies * total ≤
      placesOf total (copies * descendants + 2 + copies) := by
  have whole : copies * (descendants + 1) = copies * descendants + copies := Nat.mul_succ _ _
  rcases some with rfl | ⟨two, inside⟩
  · simp only [placesOf]
    simp
    omega
  · obtain ⟨more, rfl⟩ := Nat.exists_eq_add_of_le two
    obtain ⟨below, rfl⟩ := Nat.exists_eq_succ_of_ne_zero inside
    rw [placesOf, if_pos ⟨by omega, by omega⟩]
    have kept : 0 ≤ more * (copies * below) := Nat.zero_le _
    nlinarith

/-- Places for a grouping and the nodes that use it. -/
theorem grouped_le {total copies descendants : Nat}
    (some : total = 0 ∨ 2 ≤ total ∧ descendants ≠ 0) :
    total + 2 + copies * (descendants + 1) ≤
      placesOf total (copies * descendants + 2 + copies) := by
  have whole : copies * (descendants + 1) = copies * descendants + copies := Nat.mul_succ _ _
  rcases some with rfl | ⟨two, -⟩
  · simp only [placesOf]
    simp
    omega
  · obtain ⟨more, rfl⟩ := Nat.exists_eq_add_of_le two
    rw [placesOf, if_pos ⟨by omega, by omega⟩]
    nlinarith [Nat.zero_le (more * (copies * descendants)), Nat.zero_le (more * copies)]

theorem splitNode_room (split : isSplit lenses earlier node kids = true) (idcnt : YnodeId) :
    (splitNode lenses idcnt node kids).children.size +
        childrenTotal lenses (splitNode lenses idcnt node kids).children +
        ((splitNode lenses idcnt node kids).copies.size +
          totalBelow lenses (splitNode lenses idcnt node kids).copies) ≤
      kids.size + placesOf (childrenTotal lenses kids)
        (ayYnodeRuleNodeIsSplittable lenses node kids.size) := by
  have some := @childrenTotal_cases lenses kids
  rw [splittable_eq split]
  unfold splitNode
  dsimp only
  split
  · have room := @copied_le _ (copyCount lenses node) _ some
    dsimp only
    rw [size_copiedSiblings, totalBelow_copiedSiblings, childrenTotal_redirected,
      Forest.size_map, copyCount_withChoice]
    omega
  · obtain ⟨size, total, slots⟩ := @grouped_room lenses idcnt (withChoice node) kids
      (ayYnodeSubtreeContainsType kids .ynLeafref)
      (ayYnodeWhenPathsAreValid (withChoice node) kids)
    generalize groupInner idcnt (withChoice node) kids (ayYnodeSubtreeContainsType kids .ynLeafref)
      (ayYnodeWhenPathsAreValid (withChoice node) kids) = grouped at size total slots ⊢
    have never {type : YangType} (keyOrValue : type = .ynKey ∨ type = .ynValue) :
        ∀ child ∈ ayYnodeParentHasChild grouped.children type, ∀ descendants,
          ayYnodeRuleNodeIsSplittable lenses child descendants = 0 := by
      intro child isChild descendants
      have isType : child.type = type := by
        simpa using List.find?_some isChild
      exact splittable_of_keyOrValue (isType ▸ keyOrValue) descendants
    have neverUses : ∀ uses ∈ usesOf grouped.groupingId, ∀ descendants,
        ayYnodeRuleNodeIsSplittable lenses uses descendants = 0 := by
      intro uses isUses descendants
      unfold usesOf at isUses
      split at isUses
      · cases isUses
      · obtain rfl := Option.some.inj isUses
        exact splittable_of_label rfl descendants
    have below := totalBelow_newSiblings neverUses (never (Or.inl rfl)) (never (Or.inr rfl))
      (withChoice node) (copyCount lenses (withChoice node)) .nil grouped.idcnt
    have newSize := size_newSiblings (withChoice node) (usesOf grouped.groupingId)
      (ayYnodeParentHasChild grouped.children .ynKey)
      (ayYnodeParentHasChild grouped.children .ynValue) (copyCount lenses (withChoice node)) .nil
      grouped.idcnt
    have room := @grouped_le _ (copyCount lenses node) _ some
    have perCopy := Nat.mul_le_mul_left (copyCount lenses node) (Nat.add_le_add_right slots 1)
    rw [copyCount_withChoice] at below newSize ⊢
    unfold usesOf at below newSize perCopy
    dsimp only
    rw [below, newSize, total, totalBelow, Forest.size]
    omega

theorem size_visitBelow (bounded : ∀ idcnt forest,
      (visit idcnt forest).1.size ≤ forest.size + childrenTotal lenses forest)
    (idcnt : YnodeId) (forest : Forest AyYnode) :
    (visitBelow visit idcnt forest).1.size ≤ forest.size + totalBelow lenses forest := by
  induction forest generalizing idcnt with
  | nil => exact Nat.zero_le _
  | cons node kids rest _ restHypothesis =>
      have ofKids := bounded idcnt kids
      have ofRest := restHypothesis (visit idcnt kids).2
      simp only [visitBelow, Forest.size, totalBelow]
      omega

theorem size_splitSiblings (bounded : ∀ idcnt forest,
      (visit idcnt forest).1.size ≤ forest.size + childrenTotal lenses forest)
    (earlier : List AyYnode) (idcnt : YnodeId) (forest : Forest AyYnode) :
    (splitSiblings lenses visit earlier idcnt forest).1.size ≤
      forest.size + childrenTotal lenses forest := by
  induction forest generalizing earlier idcnt with
  | nil => exact Nat.zero_le _
  | cons node kids rest _ restHypothesis =>
      rw [childrenTotal_cons, Forest.size, splitSiblings]
      split
      · rename_i split
        have room := splitNode_room split idcnt
        have ofKids := bounded (splitNode lenses idcnt node kids).idcnt
          (splitNode lenses idcnt node kids).children
        have ofCopies := size_visitBelow bounded
          (visit (splitNode lenses idcnt node kids).idcnt
            (splitNode lenses idcnt node kids).children).2
          (splitNode lenses idcnt node kids).copies
        have ofRest := restHypothesis (((visitBelow visit
          (visit (splitNode lenses idcnt node kids).idcnt
            (splitNode lenses idcnt node kids).children).2
          (splitNode lenses idcnt node kids).copies).1.roots.reverse ++
            (splitNode lenses idcnt node kids).node :: earlier))
          (visitBelow visit (visit (splitNode lenses idcnt node kids).idcnt
            (splitNode lenses idcnt node kids).children).2
          (splitNode lenses idcnt node kids).copies).2
        simp only [Forest.size, Forest.size_append]
        omega
      · have ofKids := bounded idcnt kids
        have ofRest := restHypothesis (node :: earlier) (visit idcnt kids).2
        have places := le_placesOf (childrenTotal lenses kids)
          (ayYnodeRuleNodeIsSplittable lenses node kids.size)
        simp only [Forest.size]
        omega

theorem size_splitDown (depth : Nat) (idcnt : YnodeId) (forest : Forest AyYnode) :
    (splitDown lenses depth idcnt forest).1.size ≤ forest.size + childrenTotal lenses forest := by
  induction depth generalizing idcnt forest with
  | zero => exact Nat.le_add_right _ _
  | succ depth inductionHypothesis =>
      exact size_splitSiblings inductionHypothesis [] idcnt forest

end Pass

/-- The pass inserts at most as many nodes as the rule counts for the root. -/
theorem ayYnodeNodeSplit_room (lenses : Lnode → LabelLens) (idcnt : YnodeId) (root : AyYnode)
    (forest : Forest AyYnode) :
    (ayYnodeNodeSplit lenses idcnt forest).1.size ≤
      forest.size + ayYnodeRuleNodeSplit lenses root forest := by
  have bounded := @size_splitDown lenses (2 * forest.size) idcnt forest
  exact bounded.trans (Nat.add_le_add_left (le_placesOf _ _) _)

end SysrepoAugeas.Ynode
