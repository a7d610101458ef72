import SysrepoAugeas.Ynode.Ids
import SysrepoAugeas.Ynode.Marked

/-!
# Creating groupings keeps what the tree describes

The inner loop sweeps over everything behind the grouping, level by level.
Behind the outer loop no mark is left, in front of it every mark is still to
begin; each round stands for the same tree as before.
-/

namespace SysrepoAugeas.Ynode

open SysrepoAugeas.Data
open Forest (Hole Role Definitions Unfolds Extends)

section Access

variable (hole : Hole AyYnode) (node : AyYnode) (kids rest : Forest AyYnode)

theorem nodeAt_fill : nodeAt (hole.fill (.cons node kids rest)) hole.index = some node := by
  rw [nodeAt, Hole.treeAt_fill]
  rfl

theorem childrenAt_fill : childrenAt (hole.fill (.cons node kids rest)) hole.index = kids := by
  rw [childrenAt, Hole.treeAt_fill]
  rfl

theorem parentIndex_fill :
    parentIndex (hole.fill (.cons node kids rest)) hole.index = hole.parent := by
  rw [parentIndex, Hole.getElem_links_fill]
  rfl

theorem editAt_fill (change : AyYnode → AyYnode) :
    editAt change hole.index (hole.fill (.cons node kids rest)) =
      hole.fill (.cons (change node) kids rest) := by
  rw [editAt, Hole.modifyAt_fill]

theorem treeAt_of_ge {forest : Forest AyYnode} {index : Nat} (outside : forest.size ≤ index) :
    forest.treeAt index = .nil := by
  induction forest generalizing index with
  | nil => cases index <;> rfl
  | cons node kids rest _ restHypothesis =>
      rw [Forest.size] at outside
      cases index with
      | zero => omega
      | succ index =>
          rw [Forest.treeAt, if_neg (by omega)]
          exact restHypothesis (by omega)

theorem nodeAt_of_ge {forest : Forest AyYnode} {index : Nat} (outside : forest.size ≤ index) :
    nodeAt forest index = none := by
  rw [nodeAt, treeAt_of_ge outside]
  rfl

end Access

section Sweep

/-- The label of the key is that of the node. -/
def KeyLabelled (node : AyYnode) (kids : Forest AyYnode) : Prop :=
  ∃ inner, ayInnerNodes node kids = some inner

/-- Steps that are left behind a place. -/
def holeWeight : Hole AyYnode → Nat
  | .top => 0
  | .behind _ _ outer => holeWeight outer
  | .under _ rest outer => markWeight rest + holeWeight outer

variable {ref grouping : YnodeId} {choiceMandFalse : Nat} {forest kids rest : Forest AyYnode}
  {node : AyYnode}

theorem markWeight_cons : markWeight (.cons node kids rest) =
    markWeight kids + markWeight rest + (if isMarked node then 4 else 1) := by
  simp only [markWeight, Forest.size, Forest.labels_cons, List.countP_cons, List.countP_append]
  split <;> omega

theorem markWeight_append {other : Forest AyYnode} :
    markWeight (forest.append other) = markWeight forest + markWeight other := by
  simp only [markWeight, Forest.size_append, Forest.labels_append, List.countP_append]
  omega

theorem size_le_markWeight : forest.size ≤ markWeight forest := Nat.le_add_right _ _

theorem Swept.of_append {front back swept : Forest AyYnode}
    (isSwept : Swept ref grouping (front.append back) swept) :
    ∃ newFront newBack, swept = newFront.append newBack ∧ Swept ref grouping front newFront ∧
      Swept ref grouping back newBack := by
  induction front generalizing swept with
  | nil => exact ⟨.nil, swept, rfl, .nil, isSwept⟩
  | cons node kids rest _ restHypothesis =>
      rw [Forest.append] at isSwept
      cases isSwept with
      | other isOther below behind =>
          obtain ⟨newFront, newBack, rfl, sweptFront, sweptBack⟩ := restHypothesis behind
          exact ⟨_, newBack, rfl, .other isOther below sweptFront, sweptBack⟩
      | children isMarked ofChildren isUses below behind =>
          obtain ⟨newFront, newBack, rfl, sweptFront, sweptBack⟩ := restHypothesis behind
          exact ⟨_, newBack, rfl, .children isMarked ofChildren isUses below sweptFront, sweptBack⟩
      | subtree isMarked ofSubtree isUses behind =>
          obtain ⟨newFront, newBack, rfl, sweptFront, sweptBack⟩ := restHypothesis behind
          exact ⟨_, newBack, rfl, .subtree isMarked ofSubtree isUses sweptFront, sweptBack⟩

/-- Nothing is left to sweep at a new uses. -/
theorem Swept.uses_eq {uses : AyYnode} {swept : Forest AyYnode}
    (isSwept : Swept ref grouping (.cons uses .nil .nil) swept) (isUses : uses.type = .ynUses) :
    swept = .cons uses .nil .nil := by
  cases isSwept with
  | other _ below behind =>
      cases below
      cases behind
      rfl
  | children isMarked _ _ _ _ => exact absurd isUses isMarked.2
  | subtree isMarked _ _ _ => exact absurd isUses isMarked.2

theorem advanceId_zero (idcnt : YnodeId) : advanceId idcnt 0 = idcnt := BitVec.add_zero idcnt

theorem createUses_children {hole : Hole AyYnode} {idcnt : YnodeId}
    (ofChildren : marksChildren node = true) (keyed : KeyLabelled node kids) :
    ∃ uses : AyYnode, (uses.type = .ynUses ∧ uses.ref = grouping) ∧
      createUses grouping choiceMandFalse hole.index node ⟨hole.fill (.cons node kids rest), idcnt⟩ =
        some ⟨hole.fill (.cons { node with ref := 0 }
          ((innerNodes kids).1.append (.cons uses .nil .nil)) rest), advanceId idcnt 1⟩ := by
  have flagged : node.flags &&& ayGroupingChildren ≠ 0 := by
    simpa [marksChildren] using ofChildren
  obtain ⟨inner, isInner⟩ := keyed
  refine ⟨{ AyYnode.blank idcnt with
    type := .ynUses, ref := grouping, flags := choiceMandFalse }, ⟨rfl, rfl⟩, ?_⟩
  simp only [createUses, if_pos flagged, childrenAt_fill, isInner, Option.map_some,
    Hole.modifyAt_fill, keepKids, addLast, editAt_fill]

theorem createUses_subtree {hole : Hole AyYnode} {idcnt : YnodeId}
    (ofSubtree : marksChildren node = false) :
    ∃ uses : AyYnode, (uses.type = .ynUses ∧ uses.ref = grouping) ∧
      createUses grouping choiceMandFalse hole.index node ⟨hole.fill (.cons node kids rest), idcnt⟩ =
        some ⟨hole.fill (.cons uses .nil rest), idcnt⟩ := by
  have unflagged : ¬ node.flags &&& ayGroupingChildren ≠ 0 := by
    simpa [marksChildren] using ofSubtree
  refine ⟨{ node with
    snode := none, label := none, value := none, type := .ynUses
    ref := grouping, flags := choiceMandFalse }, ⟨rfl, rfl⟩, ?_⟩
  simp only [createUses, if_neg unflagged, Hole.modifyAt_fill, keepKids, editAt_fill]

/-- The inner loop over the nodes of a forest makes it another one. -/
def SweepRuns (ref grouping : YnodeId) (choiceMandFalse : Nat) (hole : Hole AyYnode)
    (forest swept : Forest AyYnode) (idcnt after : YnodeId) : Prop :=
  ∀ fuel, replaceDuplicates ref grouping choiceMandFalse (swept.size + fuel) hole.index
      ⟨hole.fill forest, idcnt⟩ =
    replaceDuplicates ref grouping choiceMandFalse fuel (hole.index + swept.size)
      ⟨hole.fill swept, after⟩

/-- A node, what is below it, and what is behind it. -/
theorem SweepRuns.cons {hole : Hole AyYnode} {newNode : AyYnode}
    {keptKids newKids newRest : Forest AyYnode} {idcnt first second after : YnodeId}
    (here : ∀ fuel, replaceDuplicates ref grouping choiceMandFalse (fuel + 1) hole.index
        ⟨hole.fill (.cons node kids rest), idcnt⟩ =
      replaceDuplicates ref grouping choiceMandFalse fuel (hole.index + 1)
        ⟨hole.fill (.cons newNode keptKids rest), first⟩)
    (below : SweepRuns ref grouping choiceMandFalse (hole.under newNode rest) keptKids newKids first
      second)
    (behind : SweepRuns ref grouping choiceMandFalse (hole.behind newNode newKids) rest newRest
      second after) :
    SweepRuns ref grouping choiceMandFalse hole (.cons node kids rest)
      (.cons newNode newKids newRest) idcnt after := by
  intro fuel
  have step := below (newRest.size + fuel)
  have next := behind fuel
  have enough : (Forest.cons newNode newKids newRest).size + fuel =
      (newKids.size + (newRest.size + fuel)) + 1 := by
    rw [Forest.size]
    omega
  have place : (hole.under newNode rest).index + newKids.size =
      (hole.behind newNode newKids).index := Nat.add_right_comm _ _ _
  have last : (hole.behind newNode newKids).index + newRest.size =
      hole.index + (Forest.cons newNode newKids newRest).size := by
    rw [Hole.index, Forest.size]
    omega
  rw [enough, here]
  apply step.trans
  rw [place]
  apply next.trans
  rw [last]
  rfl

theorem SweepRuns.nil (hole : Hole AyYnode) (idcnt : YnodeId) :
    SweepRuns ref grouping choiceMandFalse hole .nil .nil idcnt idcnt := by
  intro fuel
  rw [Forest.size, Nat.zero_add, Nat.add_zero]

/-- The inner loop sweeps over the nodes of a forest. -/
theorem exists_sweepRuns (nonzero : ref ≠ 0) (hole : Hole AyYnode) (idcnt : YnodeId)
    (keyed : forest.All KeyLabelled) :
    ∃ swept fresh, Swept ref grouping forest swept ∧
      fresh + markWeight swept ≤ markWeight forest ∧
      SweepRuns ref grouping choiceMandFalse hole forest swept idcnt (advanceId idcnt fresh) := by
  induction weight : markWeight forest using Nat.strong_induction_on generalizing forest hole
    idcnt with
  | _ weight inductionHypothesis =>
      subst weight
      cases forest with
      | nil =>
          refine ⟨.nil, 0, .nil, Nat.le_refl _, ?_⟩
          rw [advanceId_zero]
          exact .nil hole idcnt
      | cons node kids rest =>
          have weighs := @markWeight_cons kids rest node
          by_cases isOther : node.ref ≠ ref ∨ node.type = .ynUses
          · have lighter : markWeight kids + markWeight rest <
                markWeight (.cons node kids rest) := by
              rw [weighs]
              split <;> omega
            obtain ⟨newKids, kidsFresh, sweptKids, kidsWeight, kidsRun⟩ :=
              inductionHypothesis (markWeight kids) (by omega) (hole.under node rest) idcnt
                keyed.2.1 rfl
            obtain ⟨newRest, restFresh, sweptRest, restWeight, restRuns⟩ :=
              inductionHypothesis (markWeight rest) (by omega) (hole.behind node newKids)
                (advanceId idcnt kidsFresh) keyed.2.2 rfl
            refine ⟨.cons node newKids newRest, kidsFresh + restFresh,
              .other isOther sweptKids sweptRest, ?_, ?_⟩
            · rw [weighs, markWeight_cons]
              omega
            · rw [← advanceId_add]
              refine .cons (fun fuel => ?_) kidsRun restRuns
              rw [replaceDuplicates, nodeAt_fill]
              exact if_pos isOther
          · rw [not_or, not_not] at isOther
            have marked : isMarked node = true :=
              isMarked_eq_true.mpr ⟨isOther.1 ▸ nonzero, isOther.2⟩
            have isSwept : ¬ (node.ref ≠ ref ∨ node.type = .ynUses) := by
              rintro (other | isUses)
              · exact other isOther.1
              · exact isOther.2 isUses
            rw [marked, if_pos rfl] at weighs
            cases ofChildren : marksChildren node with
            | true =>
                obtain ⟨uses, isUses, created⟩ :=
                  @createUses_children grouping choiceMandFalse kids rest node hole idcnt ofChildren
                    keyed.1
                have keyedSplit := keyed.2.1
                rw [← append_innerNodes kids] at keyedSplit
                have usesKeyed : (Forest.cons uses .nil .nil).All KeyLabelled :=
                  ⟨⟨.nil, rfl⟩, trivial, trivial⟩
                have usesWeigh : markWeight (.cons uses .nil .nil) = 1 := by
                  rw [markWeight_cons, isMarked_uses isUses.1]
                  rfl
                have kidsWeigh := @markWeight_append (innerNodes kids).1 (innerNodes kids).2
                rw [append_innerNodes] at kidsWeigh
                obtain ⟨newKids, kidsFresh, sweptKids, kidsWeight, kidsRun⟩ :=
                  @inductionHypothesis _ (by rw [markWeight_append, usesWeigh]; omega)
                    ((innerNodes kids).1.append (.cons uses .nil .nil))
                    (hole.under { node with ref := 0 } rest) (advanceId idcnt 1)
                    (Forest.All.append.mpr ⟨(Forest.All.append.mp keyedSplit).1, usesKeyed⟩) rfl
                obtain ⟨newKeyval, newUses, rfl, sweptKeyval, sweptUses⟩ := sweptKids.of_append
                obtain rfl := sweptUses.uses_eq isUses.1
                obtain ⟨newRest, restFresh, sweptRest, restWeight, restRuns⟩ :=
                  inductionHypothesis (markWeight rest) (by omega)
                    (hole.behind { node with ref := 0 } (newKeyval.append (.cons uses .nil .nil)))
                    (advanceId (advanceId idcnt 1) kidsFresh) keyed.2.2 rfl
                refine ⟨_, 1 + kidsFresh + restFresh,
                  .children isOther ofChildren isUses sweptKeyval sweptRest, ?_, ?_⟩
                · have unmarked : isMarked { node with ref := 0 } = false := isMarked_zero rfl
                  simp only [markWeight_append, usesWeigh] at kidsWeight
                  rw [markWeight_cons, unmarked, weighs]
                  simp only [markWeight_append, usesWeigh, Bool.false_eq_true, if_false]
                  omega
                · rw [← advanceId_add, ← advanceId_add]
                  refine .cons (fun fuel => ?_) kidsRun restRuns
                  rw [replaceDuplicates, nodeAt_fill]
                  simp only [if_neg isSwept, created, Option.bind_some]
            | false =>
                obtain ⟨uses, isUses, created⟩ :=
                  @createUses_subtree grouping choiceMandFalse kids rest node hole idcnt ofChildren
                obtain ⟨newRest, restFresh, sweptRest, restWeight, restRuns⟩ :=
                  inductionHypothesis (markWeight rest) (by omega) (hole.behind uses .nil) idcnt
                    keyed.2.2 rfl
                refine ⟨.cons uses .nil newRest, restFresh,
                  .subtree isOther ofChildren isUses sweptRest, ?_, ?_⟩
                · have empty : markWeight .nil = 0 := rfl
                  rw [markWeight_cons, isMarked_uses isUses.1, weighs, empty]
                  simp only [Bool.false_eq_true, if_false]
                  omega
                · refine .cons (fun fuel => ?_) (.nil _ _) restRuns
                  rw [replaceDuplicates, nodeAt_fill]
                  simp only [if_neg isSwept, created, Option.bind_some]

/-- The inner loop behind a filling, up to the end of the array. -/
theorem replaceDuplicates_behind (nonzero : ref ≠ 0) (hole : Hole AyYnode)
    (filling : Forest AyYnode) (idcnt : YnodeId) {fuel : Nat} (enough : holeWeight hole < fuel)
    (keyed : hole.Rests fun rest => rest.All KeyLabelled) :
    ∃ other fresh, hole.Pairs (Swept ref grouping) other ∧
      fresh + holeWeight other ≤ holeWeight hole ∧
      replaceDuplicates ref grouping choiceMandFalse fuel (hole.index + filling.size)
          ⟨hole.fill filling, idcnt⟩ =
        some ⟨other.fill filling, advanceId idcnt fresh⟩ := by
  induction hole generalizing filling idcnt fuel with
  | top =>
      refine ⟨.top, 0, .top, Nat.le_refl _, ?_⟩
      obtain ⟨fuel, rfl⟩ := Nat.exists_eq_add_of_lt enough
      have outside : nodeAt filling ((Hole.top : Hole AyYnode).index + filling.size) = none :=
        nodeAt_of_ge (Nat.le_add_left _ _)
      rw [replaceDuplicates, Hole.fill, outside, advanceId_zero]
  | behind label kids outer inductionHypothesis =>
      obtain ⟨other, fresh, pairs, weight, runs⟩ :=
        inductionHypothesis (.cons label kids filling) idcnt enough keyed
      refine ⟨.behind label kids other, fresh, .behind label kids pairs, weight, ?_⟩
      have place : (outer.behind label kids).index + filling.size =
          outer.index + (Forest.cons label kids filling).size := by
        rw [Hole.index, Forest.size]
        omega
      rw [place]
      exact runs
  | under label rest outer inductionHypothesis =>
      obtain ⟨newRest, restFresh, sweptRest, restWeight, restRuns⟩ :=
        @exists_sweepRuns ref grouping choiceMandFalse rest nonzero (outer.behind label filling)
          idcnt keyed.1
      rw [holeWeight] at enough
      have short := @size_le_markWeight newRest
      obtain ⟨left, rfl⟩ : ∃ left, fuel = newRest.size + left := ⟨fuel - newRest.size, by omega⟩
      obtain ⟨other, fresh, pairs, weight, runs⟩ :=
        @inductionHypothesis (.cons label filling newRest) (advanceId idcnt restFresh) left
          (by omega) keyed.2
      refine ⟨.under label newRest other, restFresh + fresh, .under label sweptRest pairs, ?_, ?_⟩
      · rw [holeWeight, holeWeight]
        omega
      · have place : (outer.under label rest).index + filling.size =
            (outer.behind label filling).index := Nat.add_right_comm _ _ _
        have last : (outer.behind label filling).index + newRest.size =
            outer.index + (Forest.cons label filling newRest).size := by
          rw [Hole.index, Forest.size]
          omega
        rw [place, ← advanceId_add]
        apply (restRuns left).trans
        rw [last]
        exact runs

end Sweep

end SysrepoAugeas.Ynode
