import SysrepoAugeas.Ynode.Split

/-!
# Choices after splitting

Every list of siblings that the pass meets stands in the result with the split
nodes repeated.  A split node without a choice gets the root of the ltree as
choice, so two such siblings share it.
-/

namespace SysrepoAugeas.Ynode

open SysrepoAugeas.Data

/-- Choices of siblings. -/
def choices (siblings : Forest AyYnode) : List (Option Lnode) := siblings.roots.map AyYnode.choice

/-- All lists of siblings. -/
def siblingLists (forest : Forest AyYnode) : List (Forest AyYnode) := forest :: forest.childLists

/-- Under every parent the nodes with one choice are consecutive. -/
def ChoicesConsecutive (forest : Forest AyYnode) : Prop :=
  ∀ siblings ∈ siblingLists forest, Consecutive (choices siblings)

instance (forest : Forest AyYnode) : Decidable (ChoicesConsecutive forest) :=
  inferInstanceAs (Decidable (∀ siblings ∈ siblingLists forest, Consecutive (choices siblings)))

/-- What the pass makes of one sibling: the choice it had and has, and the number of copies. -/
structure Entry where
  original : Option Lnode
  choice : Option Lnode
  copies : Nat
  deriving DecidableEq

/-- The node was split, and its choice is made up. -/
def Entry.Invented (entry : Entry) : Prop := entry.original = none ∧ entry.copies ≠ 0

instance (entry : Entry) : Decidable entry.Invented :=
  inferInstanceAs (Decidable (entry.original = none ∧ entry.copies ≠ 0))

section Entries

variable (lenses : Lnode → LabelLens)

def splitEntry (earlier : List AyYnode) (node : AyYnode) (kids : Forest AyYnode) : Entry :=
  if isSplit lenses earlier node kids then
    ⟨node.choice, (withChoice node).choice, copyCount lenses node⟩
  else ⟨node.choice, node.choice, 0⟩

def splitEntries : List AyYnode → Forest AyYnode → List Entry
  | _, .nil => []
  | earlier, .cons node kids rest =>
      splitEntry lenses earlier node kids :: splitEntries (node :: earlier) rest

/-- Choices of the siblings after the pass. -/
def choicesAfter (siblings : Forest AyYnode) : List (Option Lnode) :=
  repeated ((splitEntries lenses [] siblings).map fun entry => (entry.choice, entry.copies))

end Entries

section Labels

variable {lenses : Lnode → LabelLens} {earlier others : List AyYnode} {node other : AyYnode}
  {kids : Forest AyYnode}

@[simp]
theorem label_withChoice (node : AyYnode) : (withChoice node).label = node.label := by
  unfold withChoice
  split <;> rfl

theorem ayLabelLens_congr (same : node.label = other.label) :
    ayLabelLens lenses node = ayLabelLens lenses other := by
  unfold ayLabelLens
  rw [same]

/-- Only the labels in front of a node decide whether it is split. -/
theorem isSplit_congr (front : earlier.map AyYnode.label ⊆ others.map AyYnode.label)
    (behind : others.map AyYnode.label ⊆ earlier.map AyYnode.label) :
    isSplit lenses earlier node kids = isSplit lenses others node kids := by
  have none_of {first second : List AyYnode}
      (sub : first.map AyYnode.label ⊆ second.map AyYnode.label)
      (zero : ayYnodeSplittedSeqIndex lenses second node = 0) :
      ayYnodeSplittedSeqIndex lenses first node = 0 := by
    unfold ayYnodeSplittedSeqIndex at zero ⊢
    rw [List.countP_eq_zero] at zero ⊢
    intro iter member
    obtain ⟨twin, twinMember, sameLabel⟩ :=
      List.mem_map.mp (sub (List.mem_map_of_mem (f := AyYnode.label) member))
    rw [ayLabelLens_congr sameLabel.symm]
    exact zero twin twinMember
  have same : ayYnodeSplittedSeqIndex lenses earlier node = 0 ↔
      ayYnodeSplittedSeqIndex lenses others node = 0 := ⟨none_of behind, none_of front⟩
  unfold isSplit
  congr 1
  rw [Bool.eq_iff_iff, beq_iff_eq, beq_iff_eq, same]

/-- A split node has a label, with more than one identifier. -/
theorem copyCount_pos (split : isSplit lenses earlier node kids) : 0 < copyCount lenses node := by
  unfold isSplit ayYnodeRuleNodeIsSplittable at split
  unfold copyCount
  cases found : ayLabelLens lenses node with
  | none => simp [found] at split
  | some label =>
      simp only [Option.map_some, Option.getD_some]
      by_cases splittable : label.tag = .lKey ∧ node.type ≠ .ynKey ∧ node.type ≠ .ynValue ∧
          1 < label.identsCount
      · have := splittable.2.2.2
        omega
      · simp [found, splittable] at split

end Labels

section Roots

variable {lenses : Lnode → LabelLens} {Value : Type} {view : AyYnode → Value}
  {visit : YnodeId → Forest AyYnode → Forest AyYnode × YnodeId}

theorem roots_visitBelow (idcnt : YnodeId) (forest : Forest AyYnode) :
    (visitBelow visit idcnt forest).1.roots = forest.roots := by
  induction forest generalizing idcnt with
  | nil => rfl
  | cons node kids rest _ inductionHypothesis =>
      simp only [visitBelow, Forest.roots]
      rw [inductionHypothesis]

theorem roots_copiedSiblings (node : AyYnode) (children : Forest AyYnode) (count : Nat) :
    (copiedSiblings node children count).roots = List.replicate count node := by
  induction count with
  | zero => rfl
  | succ count inductionHypothesis =>
      rw [copiedSiblings, Forest.roots, inductionHypothesis, List.replicate_succ]

theorem roots_newSiblings (node : AyYnode) (uses key value : Option AyYnode) (count : Nat)
    (siblings : Forest AyYnode) (idcnt : YnodeId)
    (same : ∀ id, view (ayYnodeCopyData id node) = view node) :
    (newSiblings node uses key value count siblings idcnt).1.roots.map view =
      List.replicate count (view node) ++ siblings.roots.map view := by
  induction count generalizing siblings idcnt with
  | zero => rfl
  | succ count inductionHypothesis =>
      simp only [newSiblings]
      rw [inductionHypothesis, Forest.roots, List.map_cons, same, List.replicate_succ',
        List.append_assoc, List.singleton_append]

theorem node_splitNode (idcnt : YnodeId) (node : AyYnode) (children : Forest AyYnode) :
    (splitNode lenses idcnt node children).node = withChoice node := by
  simp only [splitNode]
  split <;> rfl

theorem copyCount_withChoice (node : AyYnode) :
    copyCount lenses (withChoice node) = copyCount lenses node := by
  unfold copyCount
  rw [ayLabelLens_congr (label_withChoice node)]

/-- The copies look like the node. -/
theorem roots_copies_splitNode (idcnt : YnodeId) (node : AyYnode) (children : Forest AyYnode)
    (same : ∀ id node, view (ayYnodeCopyData id node) = view node) :
    (splitNode lenses idcnt node children).copies.roots.map view =
      List.replicate (copyCount lenses node) (view (withChoice node)) := by
  unfold splitNode
  simp only
  split
  · simp only
    rw [roots_copiedSiblings, List.map_replicate, copyCount_withChoice]
  · simp only
    rw [roots_newSiblings _ _ _ _ _ _ _ fun id => same id _, copyCount_withChoice]
    simp [Forest.roots]

/-- A copy is not split again. -/
theorem isSplit_copy (earlier : List AyYnode) (node : AyYnode) {copy : AyYnode}
    (kids : Forest AyYnode) (sameLabel : copy.label = node.label) :
    isSplit lenses (node :: earlier) copy kids = false := by
  unfold isSplit ayYnodeSplittedSeqIndex
  cases found : ayLabelLens lenses node with
  | none =>
      have : ayLabelLens lenses copy = none := by rw [ayLabelLens_congr sameLabel, found]
      simp [ayYnodeRuleNodeIsSplittable, this]
  | some label =>
      have : ayLabelLens lenses copy = some label := by rw [ayLabelLens_congr sameLabel, found]
      simp [found, this]

/-- The siblings after the pass are those before it, repeated. -/
theorem choices_splitSiblings (earlier others : List AyYnode) (idcnt : YnodeId)
    (siblings : Forest AyYnode)
    (front : earlier.map AyYnode.label ⊆ others.map AyYnode.label)
    (behind : others.map AyYnode.label ⊆ earlier.map AyYnode.label) :
    choices (splitSiblings lenses visit earlier idcnt siblings).1 =
      repeated ((splitEntries lenses others siblings).map fun entry =>
        (entry.choice, entry.copies)) := by
  induction siblings generalizing earlier others idcnt with
  | nil => rfl
  | cons node kids rest _ inductionHypothesis =>
      rw [splitSiblings, splitEntries, splitEntry, ← isSplit_congr front behind, List.map_cons,
        repeated_cons]
      unfold choices at inductionHypothesis ⊢
      by_cases split : isSplit lenses earlier node kids
      · simp only [if_pos split, Forest.roots, List.map_cons, Forest.roots_append, List.map_append]
        have labels := @roots_copies_splitNode lenses _ AyYnode.label idcnt node kids
          fun _ _ => rfl
        rw [inductionHypothesis _ (node :: others), roots_visitBelow,
          roots_copies_splitNode _ _ _ fun _ _ => rfl, node_splitNode, List.replicate_succ,
          List.cons_append]
        -- the copies repeat the label of the node
        · rw [List.map_append, List.map_reverse, roots_visitBelow, labels, List.reverse_replicate,
            List.map_cons, List.map_cons, node_splitNode, label_withChoice]
          refine List.append_subset.mpr ⟨?_, List.cons_subset_cons _ front⟩
          intro label member
          rw [List.eq_of_mem_replicate member]
          exact List.mem_cons_self
        · rw [List.map_append, List.map_cons, List.map_cons, node_splitNode, label_withChoice]
          exact List.subset_append_of_subset_right _ (List.cons_subset_cons _ behind)
      · simp only [if_neg split, Forest.roots, List.map_cons]
        rw [inductionHypothesis _ (node :: others)]
        · rfl
        · exact List.cons_subset_cons _ front
        · exact List.cons_subset_cons _ behind

end Roots

section Met

variable (lenses : Lnode → LabelLens)
  (visit : YnodeId → Forest AyYnode → Forest AyYnode × YnodeId)
  (meet : YnodeId → Forest AyYnode → List (Forest AyYnode))

/-- Lists of siblings that are met below the copies. -/
def meetBelow : YnodeId → Forest AyYnode → List (Forest AyYnode)
  | _, .nil => []
  | idcnt, .cons _ kids rest => meet idcnt kids ++ meetBelow (visit idcnt kids).2 rest

/-- Lists of siblings that are met below siblings. -/
def meetSiblings : List AyYnode → YnodeId → Forest AyYnode → List (Forest AyYnode)
  | _, _, .nil => []
  | earlier, idcnt, .cons node kids rest =>
      if isSplit lenses earlier node kids then
        let split := splitNode lenses idcnt node kids
        let kids := visit split.idcnt split.children
        let copies := visitBelow visit kids.2 split.copies
        meet split.idcnt split.children ++ meetBelow visit meet kids.2 split.copies ++
          meetSiblings (copies.1.roots.reverse ++ split.node :: earlier) copies.2 rest
      else meet idcnt kids ++ meetSiblings (node :: earlier) (visit idcnt kids).2 rest

/-- Lists of siblings as the pass comes to them. -/
def metDown : Nat → YnodeId → Forest AyYnode → List (Forest AyYnode)
  | 0, _, forest => [forest]
  | depth + 1, idcnt, forest =>
      forest :: meetSiblings lenses (splitDown lenses depth) (metDown depth) [] idcnt forest

end Met

section Depth

/-- Depth that the pass needs; what has no label is not split. -/
def need : Forest AyYnode → Nat
  | .nil => 0
  | .cons node kids rest => max (need kids + if node.label.isSome then 2 else 1) (need rest)

theorem need_append (forest other : Forest AyYnode) :
    need (forest.append other) = max (need forest) (need other) := by
  induction forest with
  | nil => simp [Forest.append, need]
  | cons node kids rest _ inductionHypothesis =>
      rw [Forest.append, need, need, inductionHypothesis, Nat.max_assoc]

theorem need_map {relabel : AyYnode → AyYnode}
    (same : ∀ node, (relabel node).label = node.label) (forest : Forest AyYnode) :
    need (forest.map relabel) = need forest := by
  induction forest with
  | nil => rfl
  | cons node kids rest kidsHypothesis restHypothesis =>
      rw [Forest.map, need, need, kidsHypothesis, restHypothesis, same]

theorem need_le_size (forest : Forest AyYnode) : need forest ≤ 2 * forest.size := by
  induction forest with
  | nil => exact Nat.le_refl 0
  | cons node kids rest kidsHypothesis restHypothesis =>
      rw [need, Forest.size]
      have : (if node.label.isSome then 2 else 1) ≤ 2 := by split <;> decide
      omega

theorem need_pos {forest : Forest AyYnode} (nonempty : forest ≠ .nil) : 0 < need forest := by
  cases forest with
  | nil => exact absurd rfl nonempty
  | cons node kids rest =>
      rw [need]
      have : 1 ≤ if node.label.isSome then 2 else 1 := by split <;> decide
      omega

theorem need_root {forest : Forest AyYnode} {node : AyYnode} (member : node ∈ forest.roots) :
    (if node.label.isSome then 2 else 1) ≤ need forest := by
  induction forest with
  | nil => cases member
  | cons first kids rest _ inductionHypothesis =>
      rw [need]
      rcases List.mem_cons.mp member with rfl | inRest
      · omega
      · have := inductionHypothesis inRest
        omega

end Depth

section Inner

theorem skipType_append (type : YangType) (forest : Forest AyYnode) :
    (skipType type forest).1.append (skipType type forest).2 = forest := by
  cases forest with
  | nil => rfl
  | cons node kids rest =>
      rw [skipType]
      split <;> rfl

theorem innerNodes_append (children : Forest AyYnode) :
    (innerNodes children).1.append (innerNodes children).2 = children := by
  simp only [innerNodes]
  rw [Forest.append_assoc, skipType_append, skipType_append]

/-- The children of a split node, in which a grouping may have been put around the inner ones. -/
theorem groupInner_cases (idcnt : YnodeId) (node : AyYnode) (children : Forest AyYnode)
    (recForm validWhen : Bool) :
    (groupInner idcnt node children recForm validWhen).children = children ∨
      ∃ (front inner : Forest AyYnode) (grouping uses : AyYnode), children = front.append inner ∧ grouping.label = none ∧
        grouping.choice = none ∧ uses.label = none ∧ uses.choice = none ∧
        (groupInner idcnt node children recForm validWhen).children =
          front.append (.cons grouping inner (.cons uses .nil .nil)) := by
  unfold groupInner
  cases found : (innerNodes children).2 with
  | nil => exact Or.inl (by simp only [found])
  | cons first kids rest =>
      simp only [found]
      by_cases isUses : first.type = .ynUses ∧ rest = .nil
      · exact Or.inl (by rw [if_pos isUses])
      · rw [if_neg isUses]
        by_cases isGrouping : first.type = .ynGrouping
        · exact Or.inl (by rw [if_pos isGrouping])
        · rw [if_neg isGrouping]
          by_cases creates : !recForm && validWhen
          · rw [if_pos creates]
            refine Or.inr ⟨_, (innerNodes children).2, _, _, (innerNodes_append children).symm,
              ?_, ?_, ?_, ?_, by rw [found]⟩ <;> rfl
          · exact Or.inl (by rw [if_neg creates])

end Inner

section Copies

variable {lenses : Lnode → LabelLens}

theorem mem_rootKids_copiedSiblings {node : AyYnode} {children kids : Forest AyYnode} {count : Nat}
    (member : kids ∈ (copiedSiblings node children count).rootKids) : kids = children := by
  induction count with
  | zero => cases member
  | succ count inductionHypothesis =>
      rcases List.mem_cons.mp member with same | inRest
      · exact same
      · exact inductionHypothesis inRest

/-- New children, as far as there is data for them. -/
def newChildren (uses key value : Option AyYnode) (idcnt : YnodeId) : Forest AyYnode :=
  (putFirst key (putFirst value (putFirst uses (.nil, idcnt)))).1

theorem mem_rootKids_newSiblings {node : AyYnode} {uses key value : Option AyYnode} {count : Nat}
    {siblings kids : Forest AyYnode} {idcnt : YnodeId}
    (member : kids ∈ (newSiblings node uses key value count siblings idcnt).1.rootKids) :
    (∃ idcnt, kids = newChildren uses key value idcnt) ∨ kids ∈ siblings.rootKids := by
  induction count generalizing siblings idcnt with
  | zero => exact Or.inr member
  | succ count inductionHypothesis =>
      simp only [newSiblings] at member
      rcases inductionHypothesis member with new | inSiblings
      · exact Or.inl new
      · rcases List.mem_cons.mp inSiblings with same | old
        · exact Or.inl ⟨_, same⟩
        · exact Or.inr old

/-- The data of a `uses` of the grouping. -/
def usesOf (groupingId : YnodeId) : Option AyYnode :=
  if groupingId = 0 then none
  else some { AyYnode.blank 0 with type := .ynUses, ref := groupingId }

/-- What the children of a copy look like. -/
theorem mem_rootKids_copies {idcnt : YnodeId} {node : AyYnode} {children kids : Forest AyYnode}
    (member : kids ∈ (splitNode lenses idcnt node children).copies.rootKids) :
    (∃ block, kids = children.map (redirectedIn block)) ∨
      ∃ recForm validWhen newId, kids = newChildren
        (usesOf (groupInner idcnt (withChoice node) children recForm validWhen).groupingId)
        (ayYnodeParentHasChild (splitNode lenses idcnt node children).children .ynKey)
        (ayYnodeParentHasChild (splitNode lenses idcnt node children).children .ynValue) newId := by
  simp only [splitNode] at member ⊢
  split at member
  · exact Or.inl ⟨_, mem_rootKids_copiedSiblings member⟩
  · rename_i plain
    rw [if_neg plain]
    rcases mem_rootKids_newSiblings member with ⟨newId, new⟩ | nothing
    · exact Or.inr ⟨_, _, newId, new⟩
    · cases nothing

theorem children_splitNode (idcnt : YnodeId) (node : AyYnode) (children : Forest AyYnode) :
    (splitNode lenses idcnt node children).children = children ∨
      ∃ recForm validWhen, (splitNode lenses idcnt node children).children =
        (groupInner idcnt (withChoice node) children recForm validWhen).children := by
  simp only [splitNode]
  split
  · exact Or.inl rfl
  · exact Or.inr ⟨_, _, rfl⟩

theorem label_redirectedIn (block : List AyYnode) (node : AyYnode) :
    (redirectedIn block node).label = node.label := by
  unfold redirectedIn
  split <;> rfl

theorem choice_redirectedIn (block : List AyYnode) (node : AyYnode) :
    (redirectedIn block node).choice = node.choice := by
  unfold redirectedIn
  split <;> rfl

theorem need_groupInner (idcnt : YnodeId) (node : AyYnode) (children : Forest AyYnode)
    (recForm validWhen : Bool) :
    need (groupInner idcnt node children recForm validWhen).children ≤ need children + 1 := by
  rcases groupInner_cases idcnt node children recForm validWhen with same |
    ⟨front, inner, grouping, uses, split, groupingLabel, -, usesLabel, -, grouped⟩
  · rw [same]
    exact Nat.le_succ _
  · rw [grouped, split, need_append, need_append, need, need, groupingLabel, usesLabel]
    simp only [need, Option.isSome_none]
    grind

theorem need_children_splitNode (idcnt : YnodeId) (node : AyYnode) (children : Forest AyYnode) :
    need (splitNode lenses idcnt node children).children ≤ need children + 1 := by
  rcases children_splitNode idcnt node children with same | ⟨recForm, validWhen, grouped⟩
  · rw [same]
    exact Nat.le_succ _
  · rw [grouped]
    exact need_groupInner idcnt _ children recForm validWhen

theorem need_newChildren {uses key value : Option AyYnode} {bound : Nat} (idcnt : YnodeId)
    (usesBound : ∀ node ∈ uses, (if node.label.isSome then 2 else 1) ≤ bound)
    (keyBound : ∀ node ∈ key, (if node.label.isSome then 2 else 1) ≤ bound)
    (valueBound : ∀ node ∈ value, (if node.label.isSome then 2 else 1) ≤ bound) :
    need (newChildren uses key value idcnt) ≤ bound := by
  have step {data : Option AyYnode} {children : Forest AyYnode × YnodeId}
      (dataBound : ∀ node ∈ data, (if node.label.isSome then 2 else 1) ≤ bound)
      (bounded : need children.1 ≤ bound) : need (putFirst data children).1 ≤ bound := by
    cases data with
    | none => exact bounded
    | some node =>
        have ofNode := dataBound node rfl
        simp only [putFirst, need, ayYnodeCopyData]
        omega
  exact step keyBound (step valueBound (step usesBound (Nat.zero_le bound)))

theorem mem_roots_of_child {children : Forest AyYnode} {type : YangType} {node : AyYnode}
    (found : node ∈ ayYnodeParentHasChild children type) : node ∈ children.roots :=
  List.mem_of_find?_eq_some found

theorem need_rootKids_copies {idcnt : YnodeId} {node : AyYnode} {children kids : Forest AyYnode}
    (member : kids ∈ (splitNode lenses idcnt node children).copies.rootKids) :
    need kids ≤ need children + 1 := by
  have bound := @need_children_splitNode lenses idcnt node children
  rcases mem_rootKids_copies member with ⟨block, rfl⟩ | ⟨recForm, validWhen, newId, rfl⟩
  · rw [need_map (label_redirectedIn block)]
    exact Nat.le_succ _
  · refine need_newChildren newId ?_ ?_ ?_
    · intro uses isUses
      unfold usesOf at isUses
      split at isUses
      · cases isUses
      · obtain rfl := Option.some.inj isUses
        exact Nat.succ_le_succ (Nat.zero_le _)
    · exact fun key isKey => (need_root (mem_roots_of_child isKey)).trans bound
    · exact fun value isValue => (need_root (mem_roots_of_child isValue)).trans bound

end Copies

section Result

variable {lenses : Lnode → LabelLens}
  {visit : YnodeId → Forest AyYnode → Forest AyYnode × YnodeId}
  {meet : YnodeId → Forest AyYnode → List (Forest AyYnode)} {bound : Nat}

/-- A visit leaves the lists of siblings that it meets with their choices after the pass. -/
def Leaves (lenses : Lnode → LabelLens)
    (visit : YnodeId → Forest AyYnode → Forest AyYnode × YnodeId)
    (meet : YnodeId → Forest AyYnode → List (Forest AyYnode)) (bound : Nat) : Prop :=
  ∀ idcnt kids, need kids ≤ bound →
    (siblingLists (visit idcnt kids).1).map choices = (meet idcnt kids).map (choicesAfter lenses)

theorem childLists_visitBelow (leaves : Leaves lenses visit meet bound) (idcnt : YnodeId)
    {forest : Forest AyYnode} (deep : ∀ kids ∈ forest.rootKids, need kids ≤ bound) :
    (visitBelow visit idcnt forest).1.childLists.map choices =
      (meetBelow visit meet idcnt forest).map (choicesAfter lenses) := by
  induction forest generalizing idcnt with
  | nil => rfl
  | cons node kids rest _ inductionHypothesis =>
      have ofKids := leaves idcnt kids (deep kids List.mem_cons_self)
      have ofRest := inductionHypothesis (visit idcnt kids).2 fun others member =>
        deep others (List.mem_cons_of_mem kids member)
      simp only [visitBelow, meetBelow, Forest.childLists]
      rw [← List.cons_append, List.map_append, List.map_append, ofRest]
      exact congrArg (· ++ _) ofKids

theorem childLists_splitSiblings (leaves : Leaves lenses visit meet bound) (earlier : List AyYnode)
    (idcnt : YnodeId) {siblings : Forest AyYnode} (deep : need siblings ≤ bound + 1) :
    (splitSiblings lenses visit earlier idcnt siblings).1.childLists.map choices =
      (meetSiblings lenses visit meet earlier idcnt siblings).map (choicesAfter lenses) := by
  induction siblings generalizing earlier idcnt with
  | nil => rfl
  | cons node kids rest _ inductionHypothesis =>
      rw [need] at deep
      have ofRest (earlier : List AyYnode) (idcnt : YnodeId) :=
        inductionHypothesis earlier idcnt (by omega)
      rw [splitSiblings, meetSiblings]
      by_cases split : isSplit lenses earlier node kids
      · have labelled : node.label.isSome := by
          by_contra unlabelled
          rw [Option.not_isSome_iff_eq_none] at unlabelled
          simp [isSplit, ayYnodeRuleNodeIsSplittable, ayLabelLens, unlabelled] at split
        rw [labelled, if_pos rfl] at deep
        have children := @need_children_splitNode lenses idcnt node kids
        have ofKids := leaves (splitNode lenses idcnt node kids).idcnt
          (splitNode lenses idcnt node kids).children (by omega)
        have deepCopies : ∀ others ∈ (splitNode lenses idcnt node kids).copies.rootKids,
            need others ≤ bound := by
          intro others member
          have := need_rootKids_copies member
          omega
        have ofCopies := childLists_visitBelow leaves
          (visit (splitNode lenses idcnt node kids).idcnt
            (splitNode lenses idcnt node kids).children).2 deepCopies
        simp only [if_pos split, Forest.childLists, Forest.childLists_append]
        rw [← List.cons_append, List.map_append, List.map_append, List.map_append, List.map_append,
          ofRest, ofCopies, List.append_assoc]
        exact congrArg (· ++ _) ofKids
      · have ofKids := leaves idcnt kids (by split at deep <;> omega)
        simp only [if_neg split, Forest.childLists]
        rw [← List.cons_append, List.map_append, List.map_append, ofRest]
        exact congrArg (· ++ _) ofKids

/-- Every list of siblings of the result is one that the pass met. -/
theorem siblingLists_splitDown (depth : Nat) :
    Leaves lenses (splitDown lenses depth) (metDown lenses depth) depth := by
  induction depth with
  | zero =>
      intro idcnt kids deep
      cases kids with
      | nil => rfl
      | cons node kids rest =>
          have := @need_pos (.cons node kids rest) (by simp)
          omega
  | succ depth inductionHypothesis =>
      intro idcnt kids deep
      have siblings := @choices_splitSiblings lenses (splitDown lenses depth) [] [] idcnt kids
        (by simp) (by simp)
      have below := childLists_splitSiblings inductionHypothesis [] idcnt deep
      simp only [siblingLists, splitDown, metDown, List.map_cons]
      rw [siblings, below]
      rfl

end Result

section Input

variable {lenses : Lnode → LabelLens}
  {visit : YnodeId → Forest AyYnode → Forest AyYnode × YnodeId}
  {meet : YnodeId → Forest AyYnode → List (Forest AyYnode)}

theorem ChoicesConsecutive.kids {node : AyYnode} {kids rest : Forest AyYnode}
    (consecutive : ChoicesConsecutive (.cons node kids rest)) : ChoicesConsecutive kids := by
  intro siblings member
  apply consecutive
  exact List.mem_cons_of_mem _ (List.mem_append_left rest.childLists member)

theorem ChoicesConsecutive.rest {node : AyYnode} {kids rest : Forest AyYnode}
    (consecutive : ChoicesConsecutive (.cons node kids rest)) : ChoicesConsecutive rest := by
  intro siblings member
  rcases List.mem_cons.mp member with rfl | below
  · exact (consecutive _ List.mem_cons_self).tail
  · apply consecutive
    exact List.mem_cons_of_mem _ (List.mem_cons_of_mem _ (List.mem_append_right _ below))

theorem choices_map {relabel : AyYnode → AyYnode}
    (same : ∀ node, (relabel node).choice = node.choice) (siblings : Forest AyYnode) :
    choices (siblings.map relabel) = choices siblings := by
  unfold choices
  rw [Forest.roots_map, List.map_map]
  exact List.map_congr_left fun node _ => same node

theorem ChoicesConsecutive.map {relabel : AyYnode → AyYnode} {forest : Forest AyYnode}
    (consecutive : ChoicesConsecutive forest)
    (same : ∀ node, (relabel node).choice = node.choice) :
    ChoicesConsecutive (forest.map relabel) := by
  have below : (forest.map relabel).childLists = forest.childLists.map (Forest.map relabel) := by
    clear consecutive
    induction forest with
    | nil => rfl
    | cons node kids rest kidsHypothesis restHypothesis =>
        simp [Forest.map, Forest.childLists, kidsHypothesis, restHypothesis]
  intro siblings member
  rw [siblingLists, below, ← List.map_cons, List.mem_map] at member
  obtain ⟨before, beforeMember, rfl⟩ := member
  rw [choices_map same]
  exact consecutive before beforeMember

theorem consecutive_append_none {keys : List (Option Lnode)} (consecutive : Consecutive keys) :
    Consecutive (keys ++ [none]) := by
  induction keys with
  | nil => trivial
  | cons first rest inductionHypothesis =>
      have ofRest := inductionHypothesis consecutive.tail
      cases first with
      | none => exact ofRest
      | some key =>
          refine ⟨fun member => consecutive.1 ?_, ofRest⟩
          exact (mem_dropWhile_concat (by simp) rest).mp member

/-- The grouping and its `uses` have no choice. -/
theorem ChoicesConsecutive.grouped {front inner : Forest AyYnode} {grouping uses : AyYnode}
    (consecutive : ChoicesConsecutive (front.append inner)) (groupingChoice : grouping.choice = none)
    (usesChoice : uses.choice = none) :
    ChoicesConsecutive (front.append (.cons grouping inner (.cons uses .nil .nil))) := by
  have both : Consecutive (choices front ++ choices inner) := by
    have := consecutive _ List.mem_cons_self
    rwa [choices, Forest.roots_append, List.map_append] at this
  intro siblings member
  rcases List.mem_cons.mp member with rfl | below
  · have shape : choices (front.append (.cons grouping inner (.cons uses .nil .nil))) =
        choices front ++ [none] ++ [none] := by
      simp [choices, Forest.roots, groupingChoice, usesChoice]
    rw [shape]
    exact consecutive_append_none (consecutive_append_none both.append_left)
  · rw [Forest.childLists_append, List.mem_append] at below
    rcases below with inFront | inGrouping
    · apply consecutive
      rw [siblingLists, Forest.childLists_append]
      exact List.mem_cons_of_mem _ (List.mem_append_left _ inFront)
    · simp only [Forest.childLists, List.mem_cons, List.mem_append, List.append_nil,
        List.not_mem_nil, or_false] at inGrouping
      rcases inGrouping with rfl | inInner | rfl
      · exact both.of_append
      · apply consecutive
        rw [siblingLists, Forest.childLists_append]
        exact List.mem_cons_of_mem _ (List.mem_append_right _ inInner)
      · trivial

theorem ChoicesConsecutive.splitNode {children : Forest AyYnode}
    (consecutive : ChoicesConsecutive children) (idcnt : YnodeId) (node : AyYnode) :
    ChoicesConsecutive (splitNode lenses idcnt node children).children := by
  rcases @children_splitNode lenses idcnt node children with same | ⟨recForm, validWhen, grouped⟩
  · rw [same]
    exact consecutive
  · rw [grouped]
    rcases groupInner_cases idcnt (withChoice node) children recForm validWhen with same |
      ⟨front, inner, grouping, uses, split, -, groupingChoice, -, usesChoice, shape⟩
    · rw [same]
      exact consecutive
    · rw [shape]
      rw [split] at consecutive
      exact consecutive.grouped groupingChoice usesChoice

theorem consecutive_pair (first second : Option Lnode) (rest : List (Option Lnode))
    (none_rest : ∀ key ∈ rest, key = none) : Consecutive (first :: second :: rest) := by
  have ofRest : Consecutive rest := by
    induction rest with
    | nil => trivial
    | cons key rest inductionHypothesis =>
        obtain rfl := none_rest key List.mem_cons_self
        exact inductionHypothesis fun other member => none_rest other (List.mem_cons_of_mem _ member)
  have fresh (key : Lnode) : some key ∉ rest.dropWhile (· == some key) := fun member => by
    have := none_rest _ ((List.dropWhile_suffix _).subset member)
    cases this
  have ofSecond : Consecutive (second :: rest) := by
    cases second with
    | none => exact ofRest
    | some key => exact ⟨fresh key, ofRest⟩
  cases first with
  | none => exact ofSecond
  | some key =>
      refine ⟨?_, ofSecond⟩
      by_cases same : second = some key
      · rw [List.dropWhile_cons_of_pos (by simpa using same)]
        exact fresh key
      · rw [List.dropWhile_cons_of_neg (by simpa using same)]
        intro member
        rcases List.mem_cons.mp member with isSecond | inRest
        · exact same isSecond.symm
        · cases none_rest _ inRest

theorem consecutive_newChildren {uses key value : Option AyYnode} (idcnt : YnodeId)
    (usesChoice : ∀ node ∈ uses, node.choice = none) :
    ChoicesConsecutive (newChildren uses key value idcnt) := by
  have none_uses : ∀ choice ∈ uses.toList.map AyYnode.choice, choice = none := by
    intro choice member
    obtain ⟨node, isUses, rfl⟩ := List.mem_map.mp member
    exact usesChoice node (Option.mem_toList.mp isUses)
  have shape : choices (newChildren uses key value idcnt) =
      key.toList.map AyYnode.choice ++ value.toList.map AyYnode.choice ++
        uses.toList.map AyYnode.choice := by
    cases key <;> cases value <;> cases uses <;> rfl
  have flat : ∀ siblings ∈ (newChildren uses key value idcnt).childLists, siblings = .nil := by
    cases key <;> cases value <;> cases uses <;>
      simp [newChildren, putFirst, Forest.childLists]
  intro siblings member
  rcases List.mem_cons.mp member with rfl | below
  · rw [shape]
    cases key with
    | none =>
        cases value with
        | none => exact (consecutive_pair none none _ none_uses).tail.tail
        | some value => exact (consecutive_pair none value.choice _ none_uses).tail
    | some key =>
        cases value with
        | none => exact (consecutive_pair none key.choice _ none_uses).tail
        | some value => exact consecutive_pair key.choice value.choice _ none_uses
  · rw [flat siblings below]
    trivial

theorem ChoicesConsecutive.copies {children : Forest AyYnode}
    (consecutive : ChoicesConsecutive children) (idcnt : YnodeId) (node : AyYnode) :
    ∀ kids ∈ (Ynode.splitNode lenses idcnt node children).copies.rootKids,
      ChoicesConsecutive kids := by
  intro kids member
  rcases mem_rootKids_copies member with ⟨block, rfl⟩ | ⟨recForm, validWhen, newId, rfl⟩
  · exact consecutive.map (choice_redirectedIn block)
  · refine consecutive_newChildren newId fun uses isUses => ?_
    unfold usesOf at isUses
    split at isUses
    · cases isUses
    · obtain rfl := Option.some.inj isUses
      rfl

/-- A walk meets only consecutive choices when it is given such. -/
def MeetsConsecutive (meet : YnodeId → Forest AyYnode → List (Forest AyYnode)) : Prop :=
  ∀ idcnt forest, ChoicesConsecutive forest →
    ∀ siblings ∈ meet idcnt forest, Consecutive (choices siblings)

theorem meetBelow_consecutive (meets : MeetsConsecutive meet) (idcnt : YnodeId)
    {forest : Forest AyYnode} (given : ∀ kids ∈ forest.rootKids, ChoicesConsecutive kids) :
    ∀ siblings ∈ meetBelow visit meet idcnt forest, Consecutive (choices siblings) := by
  induction forest generalizing idcnt with
  | nil => exact fun siblings member => absurd member List.not_mem_nil
  | cons node kids rest _ inductionHypothesis =>
      intro siblings member
      rcases List.mem_append.mp member with inKids | inRest
      · exact meets idcnt kids (given kids List.mem_cons_self) siblings inKids
      · exact inductionHypothesis _ (fun others inOthers =>
          given others (List.mem_cons_of_mem kids inOthers)) siblings inRest

theorem meetSiblings_consecutive (meets : MeetsConsecutive meet) (earlier : List AyYnode)
    (idcnt : YnodeId) {forest : Forest AyYnode} (consecutive : ChoicesConsecutive forest) :
    ∀ siblings ∈ meetSiblings lenses visit meet earlier idcnt forest,
      Consecutive (choices siblings) := by
  induction forest generalizing earlier idcnt with
  | nil => exact fun siblings member => absurd member List.not_mem_nil
  | cons node kids rest _ inductionHypothesis =>
      have ofRest (earlier : List AyYnode) (idcnt : YnodeId) :=
        inductionHypothesis earlier idcnt consecutive.rest
      intro siblings member
      rw [meetSiblings] at member
      by_cases split : isSplit lenses earlier node kids
      · simp only [if_pos split, List.mem_append] at member
        rcases member with (inKids | inCopies) | inRest
        · exact meets _ _ (consecutive.kids.splitNode idcnt node) siblings inKids
        · exact meetBelow_consecutive meets _ (consecutive.kids.copies idcnt node) siblings inCopies
        · exact ofRest _ _ siblings inRest
      · rw [if_neg split, List.mem_append] at member
        rcases member with inKids | inRest
        · exact meets idcnt kids consecutive.kids siblings inKids
        · exact ofRest _ _ siblings inRest

theorem metDown_consecutive (depth : Nat) : MeetsConsecutive (metDown lenses depth) := by
  induction depth with
  | zero =>
      intro idcnt forest consecutive siblings member
      obtain rfl := List.mem_singleton.mp member
      exact consecutive _ List.mem_cons_self
  | succ depth inductionHypothesis =>
      intro idcnt forest consecutive siblings member
      rcases List.mem_cons.mp member with rfl | below
      · exact consecutive _ List.mem_cons_self
      · exact meetSiblings_consecutive inductionHypothesis [] idcnt consecutive siblings below

end Input

section Apart

/-- Two different siblings whose choice is made up do not share it. -/
def InventedDiffer (entries : List Entry) : Prop :=
  entries.Pairwise fun entry other =>
    entry.Invented → other.Invented → entry.choice ≠ other.choice

/-- At most one sibling has a made up choice, and the siblings that already have the root of
the ltree as choice stand right next to it. -/
def InventedApart (entries : List Entry) : Prop :=
  ∀ front entry back, entries = front ++ entry :: back → entry.Invented →
    (∀ other ∈ front ++ back, ¬other.Invented) ∧
      some ayYnodeRootLtree ∉
        (front.map Entry.original).reverse.dropWhile (· == some ayYnodeRootLtree) ∧
      some ayYnodeRootLtree ∉
        (back.map Entry.original).dropWhile (· == some ayYnodeRootLtree)

/-- Entries as the pass makes them. -/
def Entry.Proper (entry : Entry) : Prop :=
  entry.choice = if entry.Invented then some ayYnodeRootLtree else entry.original

variable {lenses : Lnode → LabelLens} {entries : List Entry}

theorem splitEntry_proper (earlier : List AyYnode) (node : AyYnode) (kids : Forest AyYnode) :
    (splitEntry lenses earlier node kids).Proper := by
  unfold splitEntry
  by_cases split : isSplit lenses earlier node kids
  · rw [if_pos split]
    have := copyCount_pos split
    unfold Entry.Proper Entry.Invented withChoice
    cases chosen : node.choice with
    | none => simp [Nat.ne_of_gt this]
    | some choice => simp [chosen]
  · rw [if_neg split]
    unfold Entry.Proper Entry.Invented
    simp

theorem splitEntries_proper (earlier : List AyYnode) (siblings : Forest AyYnode) :
    ∀ entry ∈ splitEntries lenses earlier siblings, entry.Proper := by
  induction siblings generalizing earlier with
  | nil => exact fun entry member => absurd member List.not_mem_nil
  | cons node kids rest _ inductionHypothesis =>
      intro entry member
      rcases List.mem_cons.mp member with rfl | inRest
      · exact splitEntry_proper earlier node kids
      · exact inductionHypothesis _ entry inRest

theorem original_splitEntries (earlier : List AyYnode) (siblings : Forest AyYnode) :
    (splitEntries lenses earlier siblings).map Entry.original = choices siblings := by
  induction siblings generalizing earlier with
  | nil => rfl
  | cons node kids rest _ inductionHypothesis =>
      rw [splitEntries, List.map_cons, inductionHypothesis, splitEntry]
      split <;> rfl

theorem map_choice_of_none (proper : ∀ entry ∈ entries, entry.Proper)
    (none_invented : ∀ entry ∈ entries, ¬entry.Invented) :
    entries.map Entry.choice = entries.map Entry.original := by
  refine List.map_congr_left fun entry member => ?_
  rw [proper entry member, if_neg (none_invented entry member)]

theorem inventedDiffer_of_one {front back : List Entry} {entry : Entry}
    (alone : ∀ other ∈ front ++ back, ¬other.Invented) :
    InventedDiffer (front ++ entry :: back) := by
  have plainFront : ∀ other ∈ front, ¬other.Invented :=
    fun other member => alone other (List.mem_append_left back member)
  have plainBack : ∀ other ∈ back, ¬other.Invented :=
    fun other member => alone other (List.mem_append_right front member)
  unfold InventedDiffer
  rw [List.pairwise_append, List.pairwise_cons]
  refine ⟨?_, ⟨?_, ?_⟩, ?_⟩
  · exact List.pairwise_of_forall_mem_list fun first member _ _ invented _ =>
      absurd invented (plainFront first member)
  · exact fun other member _ invented => absurd invented (plainBack other member)
  · exact List.pairwise_of_forall_mem_list fun first member _ _ invented _ =>
      absurd invented (plainBack first member)
  · exact fun first member _ _ invented _ => absurd invented (plainFront first member)

theorem eq_of_one_invented {front back otherFront otherBack : List Entry} {entry other : Entry}
    (alone : ∀ other ∈ front ++ back, ¬other.Invented)
    (same : front ++ entry :: back = otherFront ++ other :: otherBack)
    (invented : other.Invented) : front = otherFront ∧ back = otherBack := by
  rcases List.append_eq_append_iff.mp same with ⟨between, rfl, behind⟩ | ⟨between, rfl, behind⟩
  · cases between with
    | nil =>
        rw [List.nil_append, List.cons.injEq] at behind
        exact ⟨(List.append_nil front).symm, behind.2⟩
    | cons first rest =>
        rw [List.cons_append, List.cons.injEq] at behind
        refine absurd invented (alone other ?_)
        rw [behind.2]
        simp
  · cases between with
    | nil =>
        rw [List.nil_append, List.cons.injEq] at behind
        exact ⟨List.append_nil otherFront, behind.2.symm⟩
    | cons first rest =>
        rw [List.cons_append, List.cons.injEq] at behind
        refine absurd invented (alone other ?_)
        rw [behind.1]
        simp

/-- The choices stay consecutive and apart exactly when the made up ones are apart. -/
theorem consecutive_and_differ_iff (proper : ∀ entry ∈ entries, entry.Proper)
    (consecutive : Consecutive (entries.map Entry.original)) :
    Consecutive (entries.map Entry.choice) ∧ InventedDiffer entries ↔ InventedApart entries := by
  by_cases exists_invented : ∃ entry ∈ entries, entry.Invented
  · obtain ⟨entry, member, invented⟩ := exists_invented
    obtain ⟨front, back, rfl⟩ := List.append_of_mem member
    have ofEntry : entry.choice = some ayYnodeRootLtree := by
      rw [proper entry member, if_pos invented]
    by_cases alone : ∀ other ∈ front ++ back, ¬other.Invented
    · -- one made up choice is filled in between choices that stay as they are
      have ofFront : front.map Entry.choice = front.map Entry.original :=
        map_choice_of_none (fun other inFront => proper other (List.mem_append_left _ inFront))
          fun other inFront => alone other (List.mem_append_left back inFront)
      have ofBack : back.map Entry.choice = back.map Entry.original :=
        map_choice_of_none
          (fun other inBack => proper other
            (List.mem_append_right front (List.mem_cons_of_mem entry inBack)))
          fun other inBack => alone other (List.mem_append_right front inBack)
      rw [List.map_append, List.map_cons, invented.1] at consecutive
      rw [List.map_append, List.map_cons, ofFront, ofBack, ofEntry,
        consecutive_fill_iff consecutive]
      constructor
      · rintro ⟨nextTo, -⟩ otherFront other otherBack same otherInvented
        obtain ⟨rfl, rfl⟩ := eq_of_one_invented alone same otherInvented
        exact ⟨alone, nextTo⟩
      · exact fun apart =>
          ⟨(apart front entry back rfl invented).2, inventedDiffer_of_one alone⟩
    · refine ⟨fun ⟨_, differ⟩ => absurd differ ?_,
        fun apart => absurd (apart front entry back rfl invented).1 alone⟩
      -- both are the root of the ltree
      obtain ⟨other, otherMember, otherInvented⟩ : ∃ other ∈ front ++ back, other.Invented := by
        by_contra nothing
        exact alone fun other inOthers isInvented => nothing ⟨other, inOthers, isInvented⟩
      have ofOther (inEntries : other ∈ front ++ entry :: back) :
          other.choice = some ayYnodeRootLtree := by
        rw [proper other inEntries, if_pos otherInvented]
      intro differ
      unfold InventedDiffer at differ
      rw [List.pairwise_append, List.pairwise_cons] at differ
      rcases List.mem_append.mp otherMember with inFront | inBack
      · exact differ.2.2 other inFront entry List.mem_cons_self otherInvented invented
          ((ofOther (List.mem_append_left _ inFront)).trans ofEntry.symm)
      · exact differ.2.1.1 other inBack invented otherInvented (ofEntry.trans
          (ofOther (List.mem_append_right _ (List.mem_cons_of_mem _ inBack))).symm)
  · have plain : ∀ entry ∈ entries, ¬entry.Invented :=
      fun entry member invented => exists_invented ⟨entry, member, invented⟩
    rw [map_choice_of_none proper plain]
    refine ⟨fun _ front entry back same invented => ?_, fun _ => ⟨consecutive, ?_⟩⟩
    · refine absurd invented (plain entry ?_)
      rw [same]
      exact List.mem_append_right front List.mem_cons_self
    · exact List.pairwise_of_forall_mem_list fun first member _ _ invented _ =>
        absurd invented (plain first member)

end Apart

end SysrepoAugeas.Ynode
