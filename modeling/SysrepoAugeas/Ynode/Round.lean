import SysrepoAugeas.Ynode.Outlined

/-!
# Rounds of the outer loop

A round makes the grouping of the next mark and ends in front of what is below
the marked node; the loop has one round for every mark that is left.
-/

namespace SysrepoAugeas.Ynode

open SysrepoAugeas.Data
open Forest (Hole Definitions Unfolds)

section Outline

variable {hole place : Hole AyYnode} {node parent gr child : AyYnode} {idcnt : YnodeId}
  {kids rest others childKids : Forest AyYnode}

theorem ayInnerNodes_eq {inner : Forest AyYnode} (isInner : ayInnerNodes node kids = some inner) :
    inner = (innerNodes kids).2 := by
  rw [ayInnerNodes] at isInner
  split at isInner
  · cases isInner
  · exact (Option.some.inj isInner).symm

theorem eq_nil_of_roots {forest : Forest AyYnode} (empty : forest.roots.length = 0) :
    forest = .nil := by
  cases forest with
  | nil => rfl
  | cons _ _ _ => cases empty

/-- Without key and value all children are inner nodes. -/
theorem ayInnerNodes_of_inner (inner : ∀ root ∈ kids.roots, isKeyval root = false) :
    ayInnerNodes node kids = some kids := by
  cases kids with
  | nil => rfl
  | cons first firstKids others =>
      have notKeyval := inner first List.mem_cons_self
      rw [isKeyval, Bool.or_eq_false_iff, beq_eq_false_iff_ne, beq_eq_false_iff_ne] at notKeyval
      simp [ayInnerNodes, innerNodes, skipType, Forest.roots, notKeyval]

theorem outline_children (ofChildren : marksChildren node = true) (keyed : KeyLabelled node kids)
    (split : (innerNodes kids).2 = .cons child childKids others)
    (isPlace : place = (hole.under node rest).past (innerNodes kids).1) :
    outline hole.index node ⟨hole.fill (.cons node kids rest), idcnt⟩ =
      some ⟨⟨place.fill (.cons (newGrouping idcnt node.snode) (.cons child childKids others) .nil),
        advanceId idcnt 1⟩, place.index, hole.index, false⟩ := by
  have flagged : node.flags &&& ayGroupingChildren ≠ 0 := by
    simpa [marksChildren] using ofChildren
  obtain ⟨inner, isInner⟩ := keyed
  obtain rfl := ayInnerNodes_eq isInner
  have parts := append_innerNodes kids
  rw [split] at parts
  have size : kids.size = (innerNodes kids).1.size + (Forest.cons child childKids others).size := by
    rw [← Forest.size_append, parts]
  have nonempty : ¬ (Forest.cons child childKids others).size = 0 := by
    rw [Forest.size]
    omega
  have sameFill : hole.fill (.cons node kids rest) =
      place.fill (.cons child childKids others) := by
    rw [isPlace, Hole.fill_past, parts]
    rfl
  have sameIndex : hole.index + 1 + (kids.size - (Forest.cons child childKids others).size) =
      place.index := by
    rw [isPlace, Hole.index_past, size, Hole.index]
    omega
  rw [outline, childrenAt_fill, if_pos flagged, if_neg (by omega), isInner, Option.map_some, split,
    if_neg nonempty, sameIndex, sameFill]
  simp only [Hole.modifyAt_fill]
  rfl

theorem outline_subtree (ofSubtree : marksChildren node = false)
    (undefined : definedGrouping (hole.fill (.cons node kids rest)) hole.index = some none)
    (isParent : (parentIndex (hole.fill (.cons node kids rest)) hole.index).bind
      (nodeAt (hole.fill (.cons node kids rest))) = some parent) :
    outline hole.index node ⟨hole.fill (.cons node kids rest), idcnt⟩ =
      some ⟨⟨hole.fill (.cons (newGrouping idcnt parent.snode) (.cons node kids .nil) rest),
        advanceId idcnt 1⟩, hole.index, hole.index + 1, false⟩ := by
  have unflagged : ¬ node.flags &&& ayGroupingChildren ≠ 0 := by
    simpa [marksChildren] using ofSubtree
  rw [outline, if_neg unflagged, undefined, Option.bind_some, isParent, Option.map_some,
    Hole.modifyAt_fill]
  rfl

theorem outline_defined {tree : CountedForest} {index grouping : Nat}
    (ofSubtree : marksChildren node = false)
    (defined : definedGrouping tree.forest index = some (some grouping)) :
    outline index node tree = some ⟨tree, grouping, index, true⟩ := by
  have unflagged : ¬ node.flags &&& ayGroupingChildren ≠ 0 := by
    simpa [marksChildren] using ofSubtree
  rw [outline, if_neg unflagged, defined]
  rfl

/-- The place of the uses is behind the grouping, and the only node in it is in no choice. -/
theorem usesBehind_fill {choiceMandFalse : Nat} {outlined : Outlined} {iti : AyYnode}
    (isPlace : outlined.grouping = place.index)
    (isIti : nodeAt (place.fill (.cons gr (.cons child childKids others) rest)) outlined.iti =
      some iti) :
    ∃ (choice : Option Lnode) (uses : AyYnode), (uses.type = .ynUses ∧ uses.ref = gr.id) ∧
      usesBehind choiceMandFalse outlined
          ⟨place.fill (.cons gr (.cons child childKids others) rest), idcnt⟩ =
        some ⟨place.fill (.cons gr (.cons { child with choice := choice } childKids others)
          (.cons uses .nil rest)), advanceId idcnt 1⟩ := by
  have below : ∀ behind, place.fill (.cons gr (.cons child childKids others) behind) =
      (place.under gr behind).fill (.cons child childKids others) := fun _ => rfl
  have isChild : nodeAt (place.fill (.cons gr (.cons child childKids others) rest))
      (place.index + 1) = some child := by
    rw [below]
    exact nodeAt_fill _ _ _ _
  have edited : ∀ change behind, editAt change (place.index + 1)
      (place.fill (.cons gr (.cons child childKids others) behind)) =
        place.fill (.cons gr (.cons (change child) childKids others) behind) := by
    intro change behind
    exact editAt_fill (place.under gr behind) child childKids others change
  refine ⟨if (Forest.cons child childKids others).roots.length == 1 then none else child.choice,
    { AyYnode.blank idcnt with
      type := .ynUses, ref := gr.id, flags := choiceMandFalse
      choice :=
        if parentIndex (place.fill (.cons gr (.cons child childKids others) rest)) outlined.iti =
          some place.index then iti.choice else child.choice }, ⟨rfl, rfl⟩, ?_⟩
  simp only [usesBehind, isPlace, nodeAt_fill, isChild, isIti, childrenAt_fill, Option.bind_eq_bind,
    Option.bind_some, Hole.modifyAt_fill, addBehind, edited]
  rfl

/-- What a round does once the grouping is there. -/
theorem createGrouping_of {i : Nat} {tree : CountedForest} {outlined : Outlined}
    {swept : CountedForest}
    (isOutlined : outline i node tree = some outlined)
    (isGrouping : nodeAt outlined.tree.forest outlined.grouping = some gr)
    (isChild : nodeAt outlined.tree.forest (outlined.grouping + 1) = some child)
    (runs : replaceDuplicates node.ref gr.id (child.flags &&& ayChoiceMandFalse)
      (4 * outlined.tree.forest.size + 1)
      (outlined.grouping + (childrenAt outlined.tree.forest outlined.grouping).size + 1)
      outlined.tree = some swept) :
    createGrouping i node tree =
      if outlined.grUsed then
        some { swept with
          forest := editAt (fun iti => { iti with ref := 0 }) outlined.iti swept.forest }
      else usesBehind (child.flags &&& ayChoiceMandFalse) outlined { swept with
        forest := editAt (fun iti => { iti with ref := 0 }) outlined.iti swept.forest } := by
  simp only [createGrouping, isOutlined, isGrouping, isChild, runs, Option.bind_eq_bind,
    Option.bind_some]

end Outline

section Defined

variable {lenses : Lnode → LensText} {trees : YnodeId → Forest NodeShape} {hole : Hole AyYnode}
  {node : AyYnode} {kids rest origins : Forest AyYnode} {idcnt : YnodeId}
  {after : Definitions YnodeId NodeShape}

/-- The content of a grouping has no key and no value. -/
theorem Outlines.contentInner {outer : Hole AyYnode} {gr : AyYnode}
    (outlines : Outlines lenses trees [] (outer.fill (.cons gr kids rest)) origins after)
    (proper : origins.All (Proper lenses trees)) (isGrouping : gr.type = .ynGrouping) :
    ∀ root ∈ kids.roots, isKeyval root = false := by
  obtain ⟨here, part, behind, standsHere, -⟩ :=
    Unfolds.at_hole (fun piece isPiece => isPiece.proper) (fun empty => by cases empty) outlines
      proper
  cases standsHere with
  | keep isKept _ _ _ => exact absurd isGrouping (nodeRole_keep.mp isKept).2
  | call isCall _ _ _ =>
      rw [(nodeRole_call.mp isCall).1] at isGrouping
      cases isGrouping
  | define _ isPiece below _ => exact Outlines.inner below isPiece.inner

/-- A grouping that is there already is just around the marked node. -/
theorem Pending.definedGrouping (pending : Pending hole (.cons node kids rest) idcnt)
    (outlines : Outlines lenses trees [] (hole.fill (.cons node kids rest)) origins after)
    (proper : origins.All (Proper lenses trees)) :
    (Ynode.definedGrouping (hole.fill (.cons node kids rest)) hole.index = some none ∧
      ∃ parent, (parentIndex (hole.fill (.cons node kids rest)) hole.index).bind
        (nodeAt (hole.fill (.cons node kids rest))) = some parent) ∨
    ∃ gr restBehind outer, hole = Hole.under gr restBehind outer ∧ rest = .nil ∧
      gr.type = .ynGrouping ∧
      Ynode.definedGrouping (hole.fill (.cons node kids rest)) hole.index =
        some (some outer.index) := by
  obtain ⟨front, gr, restBehind, outer, rfl, rooted⟩ := pending.around.rooted.exists_parent
  have isParent := @parentIndex_past front kids restBehind rest outer gr node
  have sameFill : ((Hole.under gr restBehind outer).past front).fill (.cons node kids rest) =
      outer.fill (.cons gr (front.append (.cons node kids rest)) restBehind) := by
    rw [Hole.fill_past]
    rfl
  have sameIndex : ((Hole.under gr restBehind outer).past front).index =
      outer.index + 1 + front.size := Hole.index_past _ _
  generalize position : ((Hole.under gr restBehind outer).past front).index = index at *
  generalize whole : ((Hole.under gr restBehind outer).past front).fill (.cons node kids rest) =
    tree at *
  have isNode : nodeAt tree outer.index = some gr := by
    rw [sameFill]
    exact nodeAt_fill _ _ _ _
  have hasParent : ∃ parent, (parentIndex tree index).bind (nodeAt tree) = some parent :=
    ⟨gr, by rw [isParent, Option.bind_some, isNode]⟩
  by_cases isGrouping : gr.type = .ynGrouping
  · rw [sameFill] at outlines
    have inner := Outlines.contentInner outlines proper isGrouping
    have isContent : childrenAt tree outer.index = front.append (.cons node kids rest) := by
      rw [sameFill]
      exact childrenAt_fill _ _ _ _
    have isAlone : ayYnodeInnerNodeAlone tree index =
        some ((front.append (.cons node kids rest)).roots.length == 1 &&
          outer.index + 1 == index) := by
      simp only [ayYnodeInnerNodeAlone, isParent, isNode, isContent, ayInnerNodes_of_inner inner,
        Option.bind_eq_bind, Option.bind_some, Nat.sub_self, Nat.add_zero]
    have rootedOuter : Rooted outer := by
      rcases rooted with rootedOuter | ⟨-, -, plain⟩
      · exact rootedOuter
      · exact absurd isGrouping plain
    obtain ⟨upperFront, above, behind, upper, isOuter, -⟩ := rootedOuter.exists_parent
    have isUpper : (parentIndex tree outer.index).bind (nodeAt tree) = some above := by
      rw [sameFill, isOuter, parentIndex_past, Option.bind_some, Hole.fill_past]
      exact nodeAt_fill _ _ _ _
    by_cases unflagged : above.flags &&& ayGroupingChildren = 0
    · left
      refine ⟨?_, hasParent⟩
      simp only [Ynode.definedGrouping, isParent, isNode, isUpper, Option.bind_eq_bind,
        Option.bind_some, isGrouping, ne_eq, not_true_eq_false, if_false, unflagged, if_true]
    · by_cases alone : (front.append (.cons node kids rest)).roots.length = 1
      · right
        rw [Forest.roots_append, List.length_append, Forest.roots, List.length_cons] at alone
        obtain rfl : front = .nil := eq_nil_of_roots (by omega)
        obtain rfl : rest = .nil := eq_nil_of_roots (by omega)
        refine ⟨gr, restBehind, outer, rfl, rfl, isGrouping, ?_⟩
        have next : outer.index + 1 = index := sameIndex.symm
        simp only [Ynode.definedGrouping, isParent, isNode, isUpper, isAlone, Option.bind_eq_bind,
          Option.bind_some, isGrouping, ne_eq, not_true_eq_false, if_false, unflagged, next,
          Forest.append, Forest.roots, List.length_cons, List.length_nil, beq_self_eq_true,
          Bool.and_self, if_true]
      · left
        refine ⟨?_, hasParent⟩
        simp only [Ynode.definedGrouping, isParent, isNode, isUpper, isAlone, Option.bind_eq_bind,
          Option.bind_some, isGrouping, ne_eq, not_true_eq_false, if_false, unflagged,
          beq_false_of_ne alone, Bool.false_and, Bool.false_eq_true]
  · left
    refine ⟨?_, hasParent⟩
    simp only [Ynode.definedGrouping, isParent, isNode, Option.bind_eq_bind, Option.bind_some,
      if_pos isGrouping]

end Defined

section Round

variable {lenses : Lnode → LensText} {trees : YnodeId → Forest NodeShape} {hole : Hole AyYnode}
  {node : AyYnode} {kids rest filling origins : Forest AyYnode} {idcnt : YnodeId}
  {after : Definitions YnodeId NodeShape}

/-- From a place the loop comes to a position where less is left. -/
inductive GoesOn (lenses : Lnode → LensText) (trees : YnodeId → Forest NodeShape)
    (origins : Forest AyYnode) (place weight : Nat) : CountedForest → Prop
  | on {next : Hole AyYnode} {behind : Forest AyYnode} {idcnt : YnodeId} {steps : Nat}
      {after : Definitions YnodeId NodeShape} (pending : Pending next behind idcnt)
      (outlines : Outlines lenses trees [] (next.fill behind) origins after)
      (runs : ∀ fuel, createGroupingsFrom (fuel + steps) place ⟨next.fill behind, idcnt⟩ =
        createGroupingsFrom fuel next.index ⟨next.fill behind, idcnt⟩)
      (lighter : markWeight behind + holeWeight next + steps < weight) :
      GoesOn lenses trees origins place weight ⟨next.fill behind, idcnt⟩

theorem markWeight_le (forest : Forest AyYnode) : markWeight forest ≤ 4 * forest.size := by
  have marks := @List.countP_le_length _ isMarked forest.labels
  rw [Forest.length_labels] at marks
  rw [markWeight]
  omega

/-- The fuel of the loops is enough for what is left. -/
theorem weight_fill (hole : Hole AyYnode) (filling : Forest AyYnode) :
    markWeight filling + holeWeight hole ≤ 4 * (hole.fill filling).size := by
  induction hole generalizing filling with
  | top => exact markWeight_le filling
  | behind label kids outer inductionHypothesis =>
      have whole := inductionHypothesis (.cons label kids filling)
      rw [markWeight_cons] at whole
      rw [holeWeight, Hole.fill]
      omega
  | under label rest outer inductionHypothesis =>
      have whole := inductionHypothesis (.cons label filling rest)
      rw [markWeight_cons] at whole
      rw [holeWeight, Hole.fill]
      omega

theorem Pending.keyLabelled (pending : Pending hole (.cons node kids rest) idcnt)
    (outlines : Outlines lenses trees [] (hole.fill (.cons node kids rest)) origins after)
    (proper : origins.All (Proper lenses trees)) :
    (Forest.cons node kids rest).All KeyLabelled ∧ hole.Rests fun rest => rest.All KeyLabelled := by
  have nonempty : Forest.cons node kids rest ≠ .nil := fun empty => by cases empty
  obtain ⟨here, part, behind, standsHere, properHere⟩ :=
    Unfolds.at_hole (fun piece isPiece => isPiece.proper) nonempty outlines proper
  exact ⟨Outlines.keyLabelled standsHere pending.unnamed properHere,
    Outlines.restsKeyLabelled outlines proper nonempty pending.around.unnamed⟩

theorem uses_cons {uses : AyYnode} (isUses : uses.type = .ynUses) :
    defaults (.cons uses .nil rest) = defaults rest ∧
      markWeight (.cons uses .nil rest) = markWeight rest + 1 := by
  refine ⟨defaults_unmarked (isMarked_uses isUses), ?_⟩
  rw [markWeight_cons, isMarked_uses isUses]
  exact congrArg (· + 1) (Nat.zero_add _)

/-- Below a new grouping, with its uses behind it. -/
theorem Around.grouping {seen : List YnodeId} {gr uses : AyYnode}
    (around : Around (seen ++ defaults rest) hole idcnt) (unnamed : NoGroupings rest)
    (ordered : InOrder seen rest) (isUses : uses.type = .ynUses)
    (older : gr.id.toNat < idcnt.toNat) (isNew : gr.id ∉ groupingsAbove hole) :
    Around seen (hole.under gr (.cons uses .nil rest)) idcnt := by
  rw [← (@uses_cons rest uses isUses).1] at around
  apply around.under (.uses isUses unnamed)
  · refine ⟨fun marked => ?_, trivial, ?_⟩
    · rw [isMarked_uses isUses] at marked
      cases marked
    · rw [(@uses_cons .nil uses isUses).1, defaults_nil, List.append_nil]
      exact ordered
  · exact fun _ => older
  · exact fun _ => isNew

/-- Below the new grouping the node has no mark. -/
theorem Pending.nextSubtree {other : Hole AyYnode} {gr uses : AyYnode} {newRest : Forest AyYnode}
    {fresh : Nat} (pending : Pending hole (.cons node kids rest) idcnt)
    (marked : isMarked node = true) (isNamed : gr.id = idcnt) (isUses : uses.type = .ynUses)
    (isSwept : Swept node.ref idcnt rest newRest) (pairs : hole.Pairs (Swept node.ref idcnt) other)
    (weight : fresh + (markWeight newRest + holeWeight other) ≤ markWeight rest + holeWeight hole)
    (choice : Option Lnode) :
    Pending (other.under gr (.cons uses .nil newRest))
      (.cons { node with ref := 0, choice := choice } kids .nil)
      (advanceId idcnt (1 + fresh + 1)) := by
  have room := pending.room
  rw [markWeight_cons, marked, if_pos rfl] at room
  have more : (advanceId idcnt (1 + fresh + 1)).toNat = idcnt.toNat + (1 + fresh + 1) :=
    toNat_advanceId (by omega)
  have later : idcnt.toNat ≤ (advanceId idcnt (1 + fresh + 1)).toNat := by omega
  obtain ⟨around, unnamed, ordered⟩ := pending.swept marked isSwept pairs later
  have unmarked : isMarked { node with ref := 0, choice := choice } = false := isMarked_zero rfl
  have isNew : gr.id ∉ groupingsAbove other := by
    rw [groupingsAbove, pairs.above_eq, isNamed]
    exact pending.around.isNew (Nat.le_refl _)
  refine ⟨?_, .of_cons pending.unnamed.cons.1 pending.unnamed.cons.2.1 .nil,
    ⟨fun marked => ?_, pending.ordered.2.1, trivial⟩, ?_⟩
  · rw [defaults_unmarked unmarked, defaults_nil, List.append_nil]
    apply around.grouping unnamed ordered isUses _ isNew
    rw [isNamed, more]
    omega
  · rw [unmarked] at marked
    cases marked
  · rw [markWeight_cons, unmarked, holeWeight, (uses_cons isUses).2, more]
    have empty : markWeight .nil = 0 := rfl
    simp only [Bool.false_eq_true, if_false, empty]
    omega

/-- A new grouping around the marked node. -/
theorem Pending.roundSubtree (pending : Pending hole (.cons node kids rest) idcnt)
    (outlines : Outlines lenses trees [] (hole.fill (.cons node kids rest)) origins after)
    (proper : origins.All (Proper lenses trees)) (marked : isMarked node = true)
    (ofSubtree : marksChildren node = false)
    (undefined : Ynode.definedGrouping (hole.fill (.cons node kids rest)) hole.index = some none)
    {parent : AyYnode} (isParent : (parentIndex (hole.fill (.cons node kids rest)) hole.index).bind
      (nodeAt (hole.fill (.cons node kids rest))) = some parent) :
    ∃ tree, createGrouping hole.index node ⟨hole.fill (.cons node kids rest), idcnt⟩ = some tree ∧
      GoesOn lenses trees origins (hole.index + 1)
        (markWeight (.cons node kids rest) + holeWeight hole) tree := by
  have nonzero := (isMarked_eq_true.mp marked).1
  have keyed := pending.keyLabelled outlines proper
  have outlined := @outline_subtree hole node parent idcnt kids rest ofSubtree undefined isParent
  generalize isGr : newGrouping idcnt parent.snode = gr at outlined
  have isGrouping : gr.type = .ynGrouping := isGr ▸ rfl
  have isNamed : gr.id = idcnt := isGr ▸ rfl
  have zeroRef : gr.ref = 0 := isGr ▸ rfl
  have room := weight_fill hole (.cons gr (.cons node kids .nil) rest)
  rw [markWeight_cons] at room
  obtain ⟨_, fresh, pairs, weight, runs⟩ :=
    @replaceDuplicates_behind node.ref gr.id (node.flags &&& ayChoiceMandFalse) nonzero
      (hole.under gr rest) (.cons node kids .nil) (advanceId idcnt 1)
      (4 * (hole.fill (.cons gr (.cons node kids .nil) rest)).size + 1)
      (by
        rw [holeWeight]
        omega)
      ⟨keyed.1.2.2, keyed.2⟩
  cases pairs with
  | @under _ other _ newRest _ isSwept pairs =>
      rw [isNamed] at isSwept pairs
      have isChild : nodeAt (hole.fill (.cons gr (.cons node kids .nil) rest)) (hole.index + 1) =
          some node := nodeAt_fill (hole.under gr rest) node kids .nil
      have start : hole.index + (childrenAt (hole.fill (.cons gr (.cons node kids .nil) rest))
          hole.index).size + 1 =
            (hole.under gr rest).index + (Forest.cons node kids .nil).size := by
        rw [childrenAt_fill, Hole.index]
        omega
      rw [← start] at runs
      have created := createGrouping_of outlined (nodeAt_fill _ _ _ _) isChild runs
      have unmarkedAt : editAt (fun iti => { iti with ref := 0 }) (hole.index + 1)
          ((Hole.under gr newRest other).fill (.cons node kids .nil)) =
          other.fill (.cons gr (.cons { node with ref := 0 } kids .nil) newRest) := by
        rw [← pairs.index_eq]
        exact editAt_fill (other.under gr newRest) node kids .nil _
      have isIti : nodeAt (other.fill (.cons gr (.cons { node with ref := 0 } kids .nil) newRest))
          (hole.index + 1) = some { node with ref := 0 } := by
        rw [← pairs.index_eq]
        exact nodeAt_fill (other.under gr newRest) _ kids .nil
      obtain ⟨choice, uses, isUses, inserted⟩ :=
        @usesBehind_fill other gr { node with ref := 0 } (advanceId (advanceId idcnt 1) fresh)
          newRest .nil kids (node.flags &&& ayChoiceMandFalse)
          ⟨⟨hole.fill (.cons gr (.cons node kids .nil) rest), advanceId idcnt 1⟩, hole.index,
            hole.index + 1, false⟩ _ pairs.index_eq.symm isIti
      simp only [unmarkedAt, Bool.false_eq_true, if_false] at created
      rw [isNamed] at isUses
      obtain ⟨newAfter, outlinesNext⟩ := pending.outlinesSubtree outlines proper marked ofSubtree
        pairs isSwept isGrouping isNamed isUses choice
      rw [holeWeight, holeWeight] at weight
      have next := pending.nextSubtree marked isNamed isUses.1 isSwept pairs weight choice
      have replaced := created.trans inserted
      rw [advanceId_add, advanceId_add] at replaced
      have goesOn : GoesOn lenses trees origins (hole.index + 1)
          (markWeight (.cons node kids rest) + holeWeight hole)
          ⟨(other.under gr (.cons uses .nil newRest)).fill
            (.cons { node with ref := 0, choice := choice } kids .nil),
            advanceId idcnt (1 + fresh + 1)⟩ := by
        refine @GoesOn.on _ _ _ _ _ _ _ _ 0 newAfter next outlinesNext (fun fuel => ?_) ?_
        · rw [Hole.index, pairs.index_eq]
          rfl
        · have unmarked : isMarked { node with ref := 0, choice := choice } = false :=
            isMarked_zero rfl
          have empty : markWeight .nil = 0 := rfl
          rw [markWeight_cons, unmarked, markWeight_cons, marked, holeWeight,
            (uses_cons isUses.1).2]
          simp only [Bool.false_eq_true, if_false, if_true, empty]
          omega
      exact ⟨_, replaced, goesOn⟩

/-- In the grouping that is there the node has no mark. -/
theorem Pending.nextDefined {other : Hole AyYnode} {grouping : YnodeId} {fresh : Nat}
    (pending : Pending hole (.cons node kids .nil) idcnt) (marked : isMarked node = true)
    (pairs : hole.Pairs (Swept node.ref grouping) other)
    (weight : fresh + holeWeight other ≤ holeWeight hole) :
    Pending (other.under { node with ref := 0 } .nil) kids (advanceId idcnt fresh) := by
  have room := pending.room
  have empty : markWeight .nil = 0 := rfl
  rw [markWeight_cons, marked, if_pos rfl, empty] at room
  have more : (advanceId idcnt fresh).toNat = idcnt.toNat + fresh := toNat_advanceId (by omega)
  have later : idcnt.toNat ≤ (advanceId idcnt fresh).toNat := by omega
  obtain ⟨around, -, -⟩ := pending.swept marked (@Swept.nil node.ref grouping) pairs later
  have plain := pending.unnamed.cons.1
  refine ⟨around.under .nil trivial (fun isGrouping => absurd isGrouping plain)
    fun isGrouping => absurd isGrouping plain, pending.unnamed.cons.2.1, pending.ordered.2.1, ?_⟩
  rw [holeWeight, empty, more]
  omega

/-- The grouping around the marked node is used. -/
theorem Pending.roundDefined {gr : AyYnode}
    (pending : Pending (hole.under gr rest) (.cons node kids .nil) idcnt)
    (outlines : Outlines lenses trees [] ((hole.under gr rest).fill (.cons node kids .nil)) origins
      after)
    (proper : origins.All (Proper lenses trees)) (marked : isMarked node = true)
    (ofSubtree : marksChildren node = false) (isGrouping : gr.type = .ynGrouping)
    (defined : Ynode.definedGrouping ((hole.under gr rest).fill (.cons node kids .nil))
      (hole.under gr rest).index = some (some hole.index)) :
    ∃ tree, createGrouping (hole.under gr rest).index node
        ⟨(hole.under gr rest).fill (.cons node kids .nil), idcnt⟩ = some tree ∧
      GoesOn lenses trees origins ((hole.under gr rest).index + 1)
        (markWeight (.cons node kids .nil) + holeWeight (hole.under gr rest)) tree := by
  have nonzero := (isMarked_eq_true.mp marked).1
  have keyed := pending.keyLabelled outlines proper
  have room := weight_fill (hole.under gr rest) (.cons node kids .nil)
  rw [markWeight_cons] at room
  have empty : markWeight .nil = 0 := rfl
  obtain ⟨_, fresh, pairs, weight, runs⟩ :=
    @replaceDuplicates_behind node.ref gr.id (node.flags &&& ayChoiceMandFalse) nonzero
      ((hole.under gr rest).under node .nil) kids idcnt
      (4 * ((hole.under gr rest).fill (.cons node kids .nil)).size + 1)
      (by
        rw [holeWeight]
        omega)
      ⟨trivial, keyed.2⟩
  cases pairs with
  | @under _ grown _ newNil _ isNil pairs =>
      cases isNil
      have next := pending.nextDefined marked pairs (by simpa [holeWeight, empty] using weight)
      have sameIndex := pairs.index_eq
      cases pairs with
      | @under _ other _ newRest _ isSwept pairs =>
          have isGr : nodeAt ((hole.under gr rest).fill (.cons node kids .nil)) hole.index =
              some gr := nodeAt_fill hole gr (.cons node kids .nil) rest
          have isChild : nodeAt ((hole.under gr rest).fill (.cons node kids .nil))
              (hole.index + 1) = some node := nodeAt_fill (hole.under gr rest) node kids .nil
          have start : hole.index + (childrenAt ((hole.under gr rest).fill (.cons node kids .nil))
              hole.index).size + 1 = ((hole.under gr rest).under node .nil).index + kids.size := by
            have isContent : childrenAt ((hole.under gr rest).fill (.cons node kids .nil))
                hole.index = .cons node kids .nil :=
              childrenAt_fill hole gr (.cons node kids .nil) rest
            rw [isContent, Hole.index, Hole.index, Forest.size, Forest.size]
            omega
          rw [← start] at runs
          have outlined : outline (hole.under gr rest).index node
              ⟨(hole.under gr rest).fill (.cons node kids .nil), idcnt⟩ =
              some ⟨⟨(hole.under gr rest).fill (.cons node kids .nil), idcnt⟩, hole.index,
                (hole.under gr rest).index, true⟩ := outline_defined ofSubtree defined
          have created := createGrouping_of outlined isGr isChild runs
          have unmarkedAt : editAt (fun iti => { iti with ref := 0 }) (hole.under gr rest).index
              (((Hole.under gr newRest other).under node .nil).fill kids) =
              ((Hole.under gr newRest other).under { node with ref := 0 } .nil).fill kids := by
            rw [← sameIndex]
            exact editAt_fill (other.under gr newRest) node kids .nil _
          simp only [unmarkedAt, if_true] at created
          obtain ⟨newAfter, outlinesNext⟩ := pending.outlinesDefined outlines proper marked
            ofSubtree isGrouping pairs isSwept
          refine ⟨_, created, @GoesOn.on _ _ _ _ _ _ _ _ 0 newAfter next outlinesNext
            (fun fuel => ?_) ?_⟩
          · rw [← sameIndex]
            rfl
          · simp only [holeWeight, empty] at weight ⊢
            rw [markWeight_cons, marked, if_pos rfl, empty]
            omega

/-- The loop runs past nodes without marks. -/
theorem createGroupingsFrom_past {front : Forest AyYnode} (behind : Forest AyYnode)
    (unmarked : ∀ label ∈ front.labels, isMarked label = false) (fuel : Nat) :
    createGroupingsFrom (fuel + front.size) hole.index ⟨hole.fill (front.append behind), idcnt⟩ =
      createGroupingsFrom fuel (hole.index + front.size)
        ⟨hole.fill (front.append behind), idcnt⟩ := by
  induction front generalizing hole behind fuel with
  | nil => rfl
  | cons label kids others kidsHypothesis othersHypothesis =>
      rw [Forest.labels_cons] at unmarked
      obtain ⟨unmarkedHere, unmarkedInside⟩ := List.forall_mem_cons.mp unmarked
      obtain ⟨unmarkedBelow, unmarkedBehind⟩ := List.forall_mem_append.mp unmarkedInside
      have skipped : label.ref = 0 ∨ label.type = .ynUses ∨ label.type = .ynLeafref := by
        by_contra notSkipped
        rw [not_or, not_or] at notSkipped
        rw [isMarked_eq_true.mpr ⟨notSkipped.1, notSkipped.2.1⟩] at unmarkedHere
        cases unmarkedHere
      have below := @kidsHypothesis (hole.under label (others.append behind)) .nil unmarkedBelow
        (fuel + others.size)
      have after := @othersHypothesis (hole.behind label kids) behind unmarkedBehind fuel
      rw [Forest.append_nil] at below
      have enough : fuel + (Forest.cons label kids others).size =
          fuel + others.size + kids.size + 1 := by
        rw [Forest.size]
        omega
      have place : (hole.under label (others.append behind)).index + kids.size =
          (hole.behind label kids).index := Nat.add_right_comm _ _ _
      have last : (hole.behind label kids).index + others.size =
          hole.index + (Forest.cons label kids others).size := by
        rw [Hole.index, Forest.size]
        omega
      rw [place] at below
      rw [last] at after
      rw [enough, createGroupingsFrom, Forest.append, nodeAt_fill]
      simp only [if_pos skipped]
      exact below.trans after

/-- The children that go into the grouping, and what stays in front of it. -/
theorem Pending.split (pending : Pending hole (.cons node kids rest) idcnt)
    (outlines : Outlines lenses trees [] (hole.fill (.cons node kids rest)) origins after)
    (proper : origins.All (Proper lenses trees)) (marked : isMarked node = true)
    (ofChildren : marksChildren node = true) :
    (∃ child childKids others, (innerNodes kids).2 = .cons child childKids others) ∧
      ∀ label ∈ (innerNodes kids).1.labels, isMarked label = false := by
  obtain ⟨here, part, behind, standsHere, properHere⟩ :=
    Unfolds.at_hole (fun piece isPiece => isPiece.proper) (fun empty => by cases empty) outlines
      proper
  obtain ⟨origin, originKids, originRest, rfl, plain, isKin, sameRef, below, -, -⟩ :=
    Outlines.marked standsHere pending.unnamed marked
  have nonzero : origin.ref ≠ 0 := sameRef ▸ (isMarked_eq_true.mp marked).1
  obtain ⟨isPiece, -⟩ := properHere.1.children properHere.2.1 nonzero
    (isKin.marksChildren_eq ▸ ofChildren)
  have unnamed := pending.unnamed.cons.2.1
  obtain ⟨-, inner⟩ := Outlines.innerNodes below unnamed
  refine ⟨?_, Outlines.keyvalUnmarked below unnamed properHere.2.1⟩
  cases split : (innerNodes kids).2 with
  | nil =>
      rw [split] at inner
      generalize isInner : (innerNodes originKids).2 = originInner at inner
      cases inner
      exact absurd isInner isPiece.nonempty
  | cons child childKids others => exact ⟨child, childKids, others, rfl⟩

theorem defaults_otherChoice (choice : Option Lnode) :
    defaults (.cons { node with choice := choice } kids rest) =
      defaults (.cons node kids rest) := by
  rw [defaults_cons, defaults_cons]
  rfl

theorem InOrder.otherChoice {seen : List YnodeId} (choice : Option Lnode)
    (ordered : InOrder seen (.cons node kids rest)) :
    InOrder seen (.cons { node with choice := choice } kids rest) := by
  refine ⟨ordered.1, ordered.2.1, ?_⟩
  rw [defaults_otherChoice]
  exact ordered.2.2

theorem markWeight_otherChoice (choice : Option Lnode) :
    markWeight (.cons { node with choice := choice } kids rest) =
      markWeight (.cons node kids rest) := by
  rw [markWeight_cons, markWeight_cons]
  rfl

/-- Below the new grouping are the inner nodes of the node. -/
theorem Pending.nextChildren {other : Hole AyYnode} {gr uses child : AyYnode}
    {newRest childKids others : Forest AyYnode} {fresh : Nat}
    (pending : Pending hole (.cons node kids rest) idcnt)
    (marked : isMarked node = true) (isNamed : gr.id = idcnt) (isUses : uses.type = .ynUses)
    (isSwept : Swept node.ref idcnt rest newRest) (pairs : hole.Pairs (Swept node.ref idcnt) other)
    (weight : fresh + (markWeight newRest + holeWeight other) ≤ markWeight rest + holeWeight hole)
    (split : (innerNodes kids).2 = .cons child childKids others)
    (unmarked : ∀ label ∈ (innerNodes kids).1.labels, isMarked label = false)
    (choice : Option Lnode) :
    Pending (((other.under { node with ref := 0 } newRest).past (innerNodes kids).1).under gr
      (.cons uses .nil .nil)) (.cons { child with choice := choice } childKids others)
      (advanceId idcnt (1 + fresh + 1)) := by
  have parts := append_innerNodes kids
  rw [split] at parts
  have room := pending.room
  rw [markWeight_cons, marked, if_pos rfl, ← parts, markWeight_append] at room
  have more : (advanceId idcnt (1 + fresh + 1)).toNat = idcnt.toNat + (1 + fresh + 1) :=
    toNat_advanceId (by omega)
  have later : idcnt.toNat ≤ (advanceId idcnt (1 + fresh + 1)).toNat := by omega
  obtain ⟨around, unnamedRest, orderedRest⟩ := pending.swept marked isSwept pairs later
  have sameDefaults : defaults kids = defaults (.cons child childKids others) := by
    rw [← parts, defaults_append, defaults_eq_nil unmarked, List.nil_append]
  rw [sameDefaults] at around orderedRest
  obtain ⟨plain, unnamed, -⟩ := pending.unnamed.cons
  rw [← parts] at unnamed
  obtain ⟨unnamedKeyval, unnamedInner⟩ := NoGroupings.append.mp unnamed
  have ordered := pending.ordered.2.1
  rw [← parts, InOrder.append, defaults_eq_nil unmarked] at ordered
  have aroundNode : Around (defaults (.cons child childKids others) ++ defaults .nil)
      (other.under { node with ref := 0 } newRest) (advanceId idcnt (1 + fresh + 1)) := by
    rw [defaults_nil, List.append_nil]
    exact around.under unnamedRest orderedRest (fun isGrouping => absurd isGrouping plain)
      fun isGrouping => absurd isGrouping plain
  have aroundKeyval := @Around.past _ _ (innerNodes kids).1 _ aroundNode
    fun label member isGrouping => absurd isGrouping (unnamedKeyval label member)
  have isNew : gr.id ∉ groupingsAbove
      ((other.under { node with ref := 0 } newRest).past (innerNodes kids).1) := by
    have sameAbove : groupingsAbove (other.under { node with ref := 0 } newRest) =
        groupingsAbove other := groupingsAbove_under plain
    rw [groupingsAbove, above_past, ← groupingsAbove, sameAbove, groupingsAbove, pairs.above_eq,
      isNamed]
    exact pending.around.isNew (Nat.le_refl _)
  refine ⟨?_, .of_cons unnamedInner.cons.1 unnamedInner.cons.2.1 unnamedInner.cons.2.2,
    ordered.2.otherChoice choice, ?_⟩
  · rw [defaults_otherChoice]
    apply aroundKeyval.grouping .nil trivial isUses _ isNew
    rw [isNamed, more]
    omega
  · have empty : markWeight .nil = 0 := rfl
    rw [markWeight_otherChoice, holeWeight, holeWeight_past, holeWeight, (uses_cons isUses).2, more,
      empty]
    omega

/-- The loop goes past the key and the value to the new grouping and into it. -/
theorem GoesOn.children {other : Hole AyYnode} {gr uses child : AyYnode}
    {newRest childKids others : Forest AyYnode} {newAfter : Definitions YnodeId NodeShape}
    {choice : Option Lnode} {more : YnodeId}
    (marked : isMarked node = true) (zeroRef : gr.ref = 0) (isUses : uses.type = .ynUses)
    (sameIndex : other.index = hole.index)
    (weight : markWeight newRest + holeWeight other ≤ markWeight rest + holeWeight hole)
    (split : (innerNodes kids).2 = .cons child childKids others)
    (unmarked : ∀ label ∈ (innerNodes kids).1.labels, isMarked label = false)
    (pending : Pending (((other.under { node with ref := 0 } newRest).past (innerNodes kids).1).under
      gr (.cons uses .nil .nil)) (.cons { child with choice := choice } childKids others) more)
    (outlines : Outlines lenses trees []
      ((((other.under { node with ref := 0 } newRest).past (innerNodes kids).1).under gr
        (.cons uses .nil .nil)).fill (.cons { child with choice := choice } childKids others))
      origins newAfter) :
    GoesOn lenses trees origins (hole.index + 1)
      (markWeight (.cons node kids rest) + holeWeight hole)
      ⟨(((other.under { node with ref := 0 } newRest).past (innerNodes kids).1).under gr
        (.cons uses .nil .nil)).fill (.cons { child with choice := choice } childKids others),
        more⟩ := by
  refine @GoesOn.on _ _ _ _ _ _ _ _ ((innerNodes kids).1.size + 1) newAfter pending outlines
    (fun fuel => ?_) ?_
  · have pastKeyval := @createGroupingsFrom_past (other.under { node with ref := 0 } newRest) more
      (innerNodes kids).1 (.cons gr (.cons { child with choice := choice } childKids others)
        (.cons uses .nil .nil)) unmarked (fuel + 1)
    have place : (other.under { node with ref := 0 } newRest).index + (innerNodes kids).1.size =
        ((other.under { node with ref := 0 } newRest).past (innerNodes kids).1).index := by
      rw [Hole.index_past]
    rw [← Hole.fill_past, place, Hole.index, sameIndex] at pastKeyval
    have enough : fuel + ((innerNodes kids).1.size + 1) =
        fuel + 1 + (innerNodes kids).1.size := by omega
    rw [enough]
    apply pastKeyval.trans
    rw [createGroupingsFrom, nodeAt_fill]
    exact if_pos (.inl zeroRef)
  · have parts := append_innerNodes kids
    rw [split] at parts
    have short := @size_le_markWeight (innerNodes kids).1
    have empty : markWeight .nil = 0 := rfl
    have sum : markWeight kids =
        markWeight (innerNodes kids).1 + markWeight (.cons child childKids others) := by
      rw [← markWeight_append, parts]
    rw [markWeight_otherChoice, holeWeight, holeWeight_past, holeWeight, (uses_cons isUses).2, empty,
      @markWeight_cons kids rest node, marked, if_pos rfl]
    omega

/-- A new grouping for the children of the marked node. -/
theorem Pending.roundChildren (pending : Pending hole (.cons node kids rest) idcnt)
    (outlines : Outlines lenses trees [] (hole.fill (.cons node kids rest)) origins after)
    (proper : origins.All (Proper lenses trees)) (marked : isMarked node = true)
    (ofChildren : marksChildren node = true) :
    ∃ tree, createGrouping hole.index node ⟨hole.fill (.cons node kids rest), idcnt⟩ = some tree ∧
      GoesOn lenses trees origins (hole.index + 1)
        (markWeight (.cons node kids rest) + holeWeight hole) tree := by
  have nonzero := (isMarked_eq_true.mp marked).1
  have keyed := pending.keyLabelled outlines proper
  obtain ⟨⟨child, childKids, others, split⟩, unmarked⟩ :=
    pending.split outlines proper marked ofChildren
  generalize isPlace : (hole.under node rest).past (innerNodes kids).1 = place
  have outlined := @outline_children hole place node child idcnt kids rest others childKids
    ofChildren keyed.1.1 split isPlace.symm
  generalize isGr : newGrouping idcnt node.snode = gr at outlined
  have isGrouping : gr.type = .ynGrouping := isGr ▸ rfl
  have isNamed : gr.id = idcnt := isGr ▸ rfl
  have zeroRef : gr.ref = 0 := isGr ▸ rfl
  have filled : place.fill (.cons gr (.cons child childKids others) .nil) =
      (hole.under node rest).fill
        ((innerNodes kids).1.append (.cons gr (.cons child childKids others) .nil)) := by
    rw [← isPlace, Hole.fill_past]
  have room := weight_fill place (.cons gr (.cons child childKids others) .nil)
  rw [← isPlace, holeWeight_past, isPlace] at room
  obtain ⟨_, fresh, pairs, weight, runs⟩ :=
    @replaceDuplicates_behind node.ref gr.id (child.flags &&& ayChoiceMandFalse) nonzero
      (hole.under node rest)
      ((innerNodes kids).1.append (.cons gr (.cons child childKids others) .nil))
      (advanceId idcnt 1)
      (4 * (place.fill (.cons gr (.cons child childKids others) .nil)).size + 1)
      (by omega) ⟨keyed.1.2.2, keyed.2⟩
  cases pairs with
  | @under _ other _ newRest _ isSwept pairs =>
      rw [isNamed] at isSwept pairs
      generalize isNext : (other.under { node with ref := 0 } newRest).past (innerNodes kids).1 =
        next
      have sameIndex : next.index = place.index := by
        rw [← isNext, ← isPlace, Hole.index_past, Hole.index_past, Hole.index, Hole.index,
          pairs.index_eq]
      have isChild : nodeAt (place.fill (.cons gr (.cons child childKids others) .nil))
          (place.index + 1) = some child := nodeAt_fill (place.under gr .nil) child childKids others
      have start : place.index + (childrenAt (place.fill
            (.cons gr (.cons child childKids others) .nil)) place.index).size + 1 =
          (hole.under node rest).index + ((innerNodes kids).1.append
            (.cons gr (.cons child childKids others) .nil)).size := by
        rw [childrenAt_fill, Forest.size_append, ← isPlace, Hole.index_past]
        simp only [Forest.size]
        omega
      rw [← start, ← filled] at runs
      have created := createGrouping_of outlined (nodeAt_fill _ _ _ _) isChild runs
      have refilled : ∀ behind, other.fill (.cons { node with ref := 0 }
          ((innerNodes kids).1.append behind) newRest) = next.fill behind := by
        intro behind
        rw [← isNext, Hole.fill_past]
        rfl
      have unmarkedAt : editAt (fun iti => { iti with ref := 0 }) hole.index
          ((Hole.under node newRest other).fill ((innerNodes kids).1.append
            (.cons gr (.cons child childKids others) .nil))) =
          next.fill (.cons gr (.cons child childKids others) .nil) := by
        rw [← refilled, ← pairs.index_eq]
        exact editAt_fill other node _ newRest _
      have isIti : nodeAt (next.fill (.cons gr (.cons child childKids others) .nil)) hole.index =
          some { node with ref := 0 } := by
        rw [← refilled, ← pairs.index_eq]
        exact nodeAt_fill other _ _ newRest
      obtain ⟨choice, uses, isUses, inserted⟩ :=
        @usesBehind_fill next gr child (advanceId (advanceId idcnt 1) fresh) .nil others childKids
          (child.flags &&& ayChoiceMandFalse)
          ⟨⟨place.fill (.cons gr (.cons child childKids others) .nil), advanceId idcnt 1⟩,
            place.index, hole.index, false⟩ _ sameIndex.symm isIti
      simp only [unmarkedAt, Bool.false_eq_true, if_false] at created
      rw [isNamed] at isUses
      obtain ⟨newAfter, outlinesNext⟩ := pending.outlinesChildren outlines proper marked ofChildren
        pairs isSwept isGrouping isNamed isUses split choice
      rw [refilled] at outlinesNext
      rw [holeWeight, holeWeight] at weight
      have pendingNext := pending.nextChildren marked isNamed isUses.1 isSwept pairs weight split
        unmarked choice
      rw [isNext] at pendingNext
      have replaced := created.trans inserted
      rw [advanceId_add, advanceId_add] at replaced
      generalize advanceId idcnt (1 + fresh + 1) = more at replaced pendingNext
      subst isNext
      exact ⟨_, replaced, .children marked zeroRef isUses.1 pairs.index_eq (by omega) split unmarked
        pendingNext outlinesNext⟩

/-- The grouping of a marked node and its uses. -/
theorem Pending.round (pending : Pending hole (.cons node kids rest) idcnt)
    (outlines : Outlines lenses trees [] (hole.fill (.cons node kids rest)) origins after)
    (proper : origins.All (Proper lenses trees)) (marked : isMarked node = true) :
    ∃ tree, createGrouping hole.index node ⟨hole.fill (.cons node kids rest), idcnt⟩ = some tree ∧
      GoesOn lenses trees origins (hole.index + 1)
        (markWeight (.cons node kids rest) + holeWeight hole) tree := by
  cases ofChildren : marksChildren node with
  | true => exact pending.roundChildren outlines proper marked ofChildren
  | false =>
      rcases pending.definedGrouping outlines proper with
        ⟨undefined, parent, isParent⟩ | ⟨gr, restBehind, outer, rfl, rfl, isGrouping, defined⟩
      · exact pending.roundSubtree outlines proper marked ofChildren undefined isParent
      · exact pending.roundDefined outlines proper marked ofChildren isGrouping defined

/-- One iteration at a node that is no grouping. -/
theorem Pending.step (pending : Pending hole (.cons node kids rest) idcnt)
    (outlines : Outlines lenses trees [] (hole.fill (.cons node kids rest)) origins after)
    (proper : origins.All (Proper lenses trees)) :
    ∃ tree, (∀ fuel, createGroupingsFrom (fuel + 1) hole.index
        ⟨hole.fill (.cons node kids rest), idcnt⟩ =
          createGroupingsFrom fuel (hole.index + 1) tree) ∧
      GoesOn lenses trees origins (hole.index + 1)
        (markWeight (.cons node kids rest) + holeWeight hole) tree := by
  cases marked : isMarked node with
  | false =>
      have skipped : node.ref = 0 ∨ node.type = .ynUses ∨ node.type = .ynLeafref := by
        by_contra notSkipped
        rw [not_or, not_or] at notSkipped
        rw [isMarked_eq_true.mpr ⟨notSkipped.1, notSkipped.2.1⟩] at marked
        cases marked
      refine ⟨_, fun fuel => ?_, @GoesOn.on _ _ _ _ _ _ _ _ 0 after (pending.down marked) outlines
        (fun fuel => rfl) ?_⟩
      · rw [createGroupingsFrom, nodeAt_fill]
        exact if_pos skipped
      · rw [holeWeight, markWeight_cons, marked]
        simp only [Bool.false_eq_true, if_false]
        omega
  | true =>
      obtain ⟨tree, created, goesOn⟩ := pending.round outlines proper marked
      obtain ⟨here, part, behind, standsHere, properHere⟩ :=
        Unfolds.at_hole (fun piece isPiece => isPiece.proper) (fun empty => by cases empty) outlines
          proper
      obtain ⟨origin, originKids, originRest, rfl, plain, isKin, -⟩ :=
        Outlines.marked standsHere pending.unnamed marked
      have notSkipped : ¬ (node.ref = 0 ∨ node.type = .ynUses ∨ node.type = .ynLeafref) := by
        rintro (zero | isUses | isLeafref)
        · exact (isMarked_eq_true.mp marked).1 zero
        · exact plain.1 isUses
        · rw [isKin.type_eq] at isLeafref
          exact properHere.1.plain.2.2 isLeafref
      refine ⟨tree, fun fuel => ?_, goesOn⟩
      rw [createGroupingsFrom, nodeAt_fill]
      simp only [if_neg notSkipped, if_neg plain.2, pending.own marked, ne_eq, not_true_eq_false,
        if_false, created, Option.bind_some]

/-- Every round comes nearer to the end of the array. -/
theorem createGroupingsFrom_outlines (proper : origins.All (Proper lenses trees)) {fuel : Nat}
    (pending : Pending hole filling idcnt)
    (outlines : Outlines lenses trees [] (hole.fill filling) origins after)
    (enough : markWeight filling + holeWeight hole < fuel) :
    ∃ tree newAfter, createGroupingsFrom fuel hole.index ⟨hole.fill filling, idcnt⟩ = some tree ∧
      Outlines lenses trees [] tree.forest origins newAfter := by
  induction fuel using Nat.strong_induction_on generalizing hole filling idcnt after with
  | _ fuel inductionHypothesis =>
      obtain ⟨left, rfl⟩ : ∃ left, fuel = left + 1 := ⟨fuel - 1, by omega⟩
      -- one iteration, and the rest by the induction hypothesis
      have next : ∀ {hole : Hole AyYnode} {node : AyYnode} {kids rest : Forest AyYnode},
          Pending hole (.cons node kids rest) idcnt →
          Outlines lenses trees [] (hole.fill (.cons node kids rest)) origins after →
          markWeight (.cons node kids rest) + holeWeight hole < left + 1 →
          ∃ tree newAfter, createGroupingsFrom (left + 1) hole.index
              ⟨hole.fill (.cons node kids rest), idcnt⟩ = some tree ∧
            Outlines lenses trees [] tree.forest origins newAfter := by
        intro hole node kids rest pending outlines enough
        obtain ⟨tree, runs, goesOn⟩ := pending.step outlines proper
        rw [runs]
        cases goesOn with
        | @on _ _ _ steps _ pendingNext outlinesNext runsOn lighter =>
            have remains : left = left - steps + steps := by omega
            rw [remains, runsOn]
            exact inductionHypothesis (left - steps) (by omega) pendingNext outlinesNext (by omega)
      cases filling with
      | nil =>
          rcases pending.resume with ends | ⟨behind, node, kids, rest, sameFill, sameIndex,
            pendingBehind, sameWeight⟩
          · have outside : nodeAt (hole.fill .nil) hole.index = none :=
              nodeAt_of_ge (Nat.le_of_eq ends)
            refine ⟨⟨hole.fill .nil, idcnt⟩, after, ?_, outlines⟩
            rw [createGroupingsFrom, outside]
          · have empty : markWeight .nil = 0 := rfl
            rw [← sameFill] at outlines ⊢
            rw [← sameIndex]
            exact next pendingBehind outlines (by omega)
      | cons node kids rest => exact next pending outlines enough

end Round

section Toplevel

variable {lenses : Lnode → LensText} {trees : YnodeId → Forest NodeShape} {root : AyYnode}
  {kids forest : Forest AyYnode} {idcnt : YnodeId}

/-- A tree without groupings stands for itself. -/
theorem Outlines.self {known : Definitions YnodeId NodeShape}
    (proper : forest.All (Proper lenses trees)) :
    Outlines lenses trees known forest forest known := by
  induction forest with
  | nil => exact .nil
  | cons node kids rest kidsHypothesis restHypothesis =>
      have plain := proper.1.plain
      exact .keep (nodeRole_keep.mpr ⟨plain.1, plain.2.1⟩) ⟨rfl, .inr rfl⟩
        (kidsHypothesis proper.2.1) (restHypothesis proper.2.2)

theorem Proper.noGroupings (proper : forest.All (Proper lenses trees)) : NoGroupings forest := by
  induction forest with
  | nil => exact .nil
  | cons node kids rest kidsHypothesis restHypothesis =>
      exact .of_cons proper.1.plain.2.1 (kidsHypothesis proper.2.1) (restHypothesis proper.2.2)

theorem exists_toplevelOutlines (proper : (Forest.cons root kids .nil).All (Proper lenses trees))
    (ordered : InOrder [] kids) (room : idcnt.toNat + 4 * kids.size < 2 ^ 32) :
    ∃ after known, ayYnodeCreateGroupingsToplevel ⟨.cons root kids .nil, idcnt⟩ = some after ∧
      Outlines lenses trees [] after.forest (.cons root kids .nil) known := by
  have plain := proper.1.plain.2.1
  have light := markWeight_le kids
  have empty : holeWeight (Hole.top.under root .nil) = 0 := rfl
  have pending : Pending (Hole.top.under root .nil) kids idcnt := by
    refine ⟨⟨.inr ⟨rfl, rfl, plain⟩, ⟨.nil, trivial⟩, ⟨trivial, trivial⟩,
      ⟨fun isGrouping => absurd isGrouping plain, trivial⟩, ?_⟩, Proper.noGroupings proper.2.1,
      ordered, ?_⟩
    · rw [groupingsAbove_under plain]
      exact List.nodup_nil
    · omega
  apply createGroupingsFrom_outlines proper pending (Outlines.self proper)
  rw [empty, Forest.size]
  omega

/-- Two lists with the same children, and a container that is in both and behind them. -/
def markedTree : Forest AyYnode :=
  let node : YnodeId → YangType → Lnode → AyYnode := fun id type snode =>
    { AyYnode.blank id with type := type, snode := some snode, label := some snode }
  let leaf : YnodeId → Forest AyYnode → Forest AyYnode := fun id =>
    .cons (node id .ynLeaf 3) .nil
  .cons (node 1 .ynRoot 0)
    (.cons { node 2 .ynList 1 with ref := 2, flags := ayGroupingChildren }
      (.cons (node 3 .ynKey 1) .nil
        (.cons { node 4 .ynContainer 2 with ref := 4 } (leaf 5 .nil) (leaf 6 .nil)))
      (.cons { node 7 .ynList 4 with ref := 2, flags := ayGroupingChildren }
        (.cons (node 8 .ynKey 4) .nil (.cons (node 9 .ynContainer 2) (leaf 10 .nil) (leaf 11 .nil)))
        (.cons { node 12 .ynContainer 2 with ref := 4 } (leaf 13 .nil) .nil))) .nil

def markedLenses (snode : Lnode) : LensText := ⟨.lKey, if snode = 2 then "port" else "name"⟩

/-- What the marks of the example are for. -/
def markedTrees (mark : YnodeId) : Forest NodeShape :=
  if mark = 2 then (innerNodes (childrenAt markedTree 1)).2.map (nodeShape markedLenses)
  else (Forest.treeAt 11 markedTree).map (nodeShape markedLenses)

end Toplevel

end SysrepoAugeas.Ynode
