import SysrepoAugeas.Ynode.Outline

/-!
# Position of the outer loop

Behind the position the marks are still to be processed and there are no
groupings; the groupings above it are older than the next id.
-/

namespace SysrepoAugeas.Ynode

open SysrepoAugeas.Data
open Forest (Hole)

section Places

variable {forest filling : Forest AyYnode} {hole : Hole AyYnode}

/-- Place below the root of a tree that is no grouping. -/
def Rooted : Hole AyYnode → Prop
  | .top => False
  | .behind _ _ outer => Rooted outer
  | .under label rest outer =>
      Rooted outer ∨ (outer = .top ∧ rest = .nil ∧ label.type ≠ .ynGrouping)

/-- Marks in the order level by level behind a place. -/
def RestsInOrder : List YnodeId → Hole AyYnode → Prop
  | _, .top => True
  | seen, .behind _ _ outer => RestsInOrder seen outer
  | seen, .under _ rest outer => InOrder seen rest ∧ RestsInOrder (seen ++ defaults rest) outer

/-- A grouping has an older id than the next node. -/
def Older (idcnt : YnodeId) (node : AyYnode) : Prop :=
  node.type = .ynGrouping → node.id.toNat < idcnt.toNat

/-- The ids of the groupings above a place. -/
def groupingsAbove (hole : Hole AyYnode) : List YnodeId :=
  (hole.above.filter fun node => node.type == .ynGrouping).map AyYnode.id

/-- What is in front of a position of the outer loop, above it and behind it. -/
structure Around (seen : List YnodeId) (hole : Hole AyYnode) (idcnt : YnodeId) : Prop where
  rooted : Rooted hole
  unnamed : hole.Rests NoGroupings
  ordered : RestsInOrder seen hole
  older : hole.Fronts (Older idcnt)
  distinct : (groupingsAbove hole).Nodup

/-- State at a position of the outer loop. -/
structure Pending (hole : Hole AyYnode) (forest : Forest AyYnode) (idcnt : YnodeId) : Prop where
  around : Around (defaults forest) hole idcnt
  unnamed : NoGroupings forest
  ordered : InOrder [] forest
  room : idcnt.toNat + (markWeight forest + holeWeight hole) < 2 ^ 32

theorem Rooted.exists_parent (rooted : Rooted hole) :
    ∃ front label rest outer, hole = (Hole.under label rest outer).past front ∧
      (Rooted outer ∨ (outer = .top ∧ rest = .nil ∧ label.type ≠ .ynGrouping)) := by
  have general : ∀ behind : Forest AyYnode, ∃ front label rest outer,
      hole.past behind = (Hole.under label rest outer).past front ∧
        (Rooted outer ∨ (outer = .top ∧ rest = .nil ∧ label.type ≠ .ynGrouping)) := by
    induction hole with
    | top => exact rooted.elim
    | behind label kids outer inductionHypothesis =>
        intro behind
        exact inductionHypothesis rooted (.cons label kids behind)
    | under label rest outer _ =>
        intro behind
        exact ⟨behind, label, rest, outer, rfl, rooted⟩
  exact general .nil

theorem parentIndex_past {front kids rest others : Forest AyYnode} {outer : Hole AyYnode}
    {label node : AyYnode} :
    parentIndex (((Hole.under label rest outer).past front).fill (.cons node kids others))
      ((Hole.under label rest outer).past front).index = some outer.index := by
  rw [parentIndex_fill, Hole.parent_past]
  rfl

theorem Rooted.past {front : Forest AyYnode} (rooted : Rooted hole) : Rooted (hole.past front) := by
  induction front generalizing hole with
  | nil => exact rooted
  | cons label kids rest _ restHypothesis =>
      exact @restHypothesis (hole.behind label kids) rooted

theorem RestsInOrder.past {front : Forest AyYnode} {seen : List YnodeId} :
    RestsInOrder seen (hole.past front) ↔ RestsInOrder seen hole := by
  induction front generalizing hole with
  | nil => exact Iff.rfl
  | cons label kids rest _ restHypothesis => exact @restHypothesis (hole.behind label kids)

theorem rests_past {holds : Forest AyYnode → Prop} {front : Forest AyYnode} :
    (hole.past front).Rests holds ↔ hole.Rests holds := by
  induction front generalizing hole with
  | nil => exact Iff.rfl
  | cons label kids rest _ restHypothesis => exact @restHypothesis (hole.behind label kids)

theorem above_past {front : Forest AyYnode} : (hole.past front).above = hole.above := by
  induction front generalizing hole with
  | nil => rfl
  | cons label kids rest _ restHypothesis => exact @restHypothesis (hole.behind label kids)

theorem holeWeight_past {front : Forest AyYnode} :
    holeWeight (hole.past front) = holeWeight hole := by
  induction front generalizing hole with
  | nil => rfl
  | cons label kids rest _ restHypothesis => exact @restHypothesis (hole.behind label kids)

theorem fronts_past {holds : AyYnode → Prop} {front : Forest AyYnode} :
    (hole.past front).Fronts holds ↔ hole.Fronts holds ∧ ∀ label ∈ front.labels, holds label := by
  induction front generalizing hole with
  | nil => exact ⟨fun fronts => ⟨fronts, fun _ member => nomatch member⟩, And.left⟩
  | cons label kids rest _ restHypothesis =>
      have rest := @restHypothesis (hole.behind label kids)
      rw [Hole.past, rest, Hole.Fronts, Forest.labels_cons, List.forall_mem_cons,
        List.forall_mem_append]
      constructor
      · rintro ⟨⟨here, below, fronts⟩, behind⟩
        exact ⟨fronts, here, below, behind⟩
      · rintro ⟨fronts, here, below, behind⟩
        exact ⟨⟨here, below, fronts⟩, behind⟩

theorem groupingsAbove_sublist {label : AyYnode} {rest : Forest AyYnode} {outer : Hole AyYnode} :
    (groupingsAbove outer).Sublist (groupingsAbove (.under label rest outer)) :=
  ((List.sublist_cons_self label outer.above).filter _).map _

end Places

section Steps

variable {ref grouping idcnt more : YnodeId} {hole other : Hole AyYnode} {node : AyYnode}
  {front kids rest newRest : Forest AyYnode} {seen left : List YnodeId}

theorem groupingsAbove_under (plain : node.type ≠ .ynGrouping) :
    groupingsAbove (hole.under node rest) = groupingsAbove hole := by
  rw [groupingsAbove, Hole.above, List.filter_cons_of_neg (by simpa using plain)]
  rfl

theorem Around.isNew (around : Around seen hole idcnt) {id : YnodeId}
    (later : idcnt.toNat ≤ id.toNat) : id ∉ groupingsAbove hole := by
  intro member
  obtain ⟨label, isAbove, rfl⟩ := List.mem_map.mp member
  have isGrouping := List.mem_filter.mp isAbove
  have older := around.older.above label isGrouping.1 (by simpa using isGrouping.2)
  omega

theorem Around.under (around : Around (seen ++ defaults rest) hole idcnt)
    (unnamed : NoGroupings rest) (ordered : InOrder seen rest) (older : Older idcnt node)
    (isNew : node.type = .ynGrouping → node.id ∉ groupingsAbove hole) :
    Around seen (hole.under node rest) idcnt := by
  refine ⟨.inl around.rooted, ⟨unnamed, around.unnamed⟩, ⟨ordered, around.ordered⟩,
    ⟨older, around.older⟩, ?_⟩
  by_cases isGrouping : node.type = .ynGrouping
  · rw [groupingsAbove, Hole.above, List.filter_cons_of_pos (by simpa using isGrouping),
      List.map_cons, List.nodup_cons]
    exact ⟨isNew isGrouping, around.distinct⟩
  · rw [groupingsAbove_under isGrouping]
    exact around.distinct

theorem Around.past (around : Around seen hole idcnt)
    (older : ∀ label ∈ front.labels, Older idcnt label) : Around seen (hole.past front) idcnt := by
  refine ⟨around.rooted.past, rests_past.mpr around.unnamed, RestsInOrder.past.mpr around.ordered,
    fronts_past.mpr ⟨around.older, older⟩, ?_⟩
  rw [groupingsAbove, above_past]
  exact around.distinct

/-- The order level by level is kept as the order in one level is. -/
theorem RestsInOrder.swept (pairs : hole.Pairs (Swept ref grouping) other)
    (ordered : RestsInOrder seen hole) (isSeen : ref ∈ seen) (nonzero : ref ≠ 0)
    (covers : ∀ id ∈ seen, id = ref ∨ id ∈ left) (within : ∀ id ∈ left, id ∈ seen) :
    RestsInOrder left other := by
  induction pairs generalizing seen left with
  | top => exact trivial
  | behind _ _ _ inductionHypothesis => exact inductionHypothesis ordered isSeen covers within
  | @under _ _ rest otherRest _ isSwept _ inductionHypothesis =>
      obtain ⟨newOrder, same⟩ := isSwept.inOrder ordered.1 isSeen nonzero covers within
      refine ⟨newOrder, @inductionHypothesis _ (left ++ defaults otherRest) ordered.2
        (List.mem_append_left _ isSeen) ?_ ?_⟩
      · intro id member
        rw [same]
        rcases List.mem_append.mp member with before | inside
        · exact (covers id before).imp_right (List.mem_append_left _)
        · exact .inr (List.mem_append_right _ inside)
      · intro id member
        rw [same] at member
        rcases List.mem_append.mp member with before | inside
        · exact List.mem_append_left _ (within id before)
        · exact List.mem_append_right _ inside

theorem Rooted.swept (rooted : Rooted hole) (pairs : hole.Pairs (Swept ref grouping) other) :
    Rooted other := by
  induction pairs with
  | top => exact rooted.elim
  | behind _ _ _ inductionHypothesis => exact inductionHypothesis rooted
  | under _ isSwept pairs inductionHypothesis =>
      rcases rooted with rootedOuter | ⟨rfl, rfl, plain⟩
      · exact .inl (inductionHypothesis rootedOuter)
      · cases pairs
        cases isSwept
        exact .inr ⟨rfl, rfl, plain⟩

/-- The inner loop leaves alone what is in front of the position. -/
theorem Around.swept (around : Around seen hole idcnt)
    (pairs : hole.Pairs (Swept ref grouping) other) (isSeen : ref ∈ seen) (nonzero : ref ≠ 0)
    (covers : ∀ id ∈ seen, id = ref ∨ id ∈ left) (within : ∀ id ∈ left, id ∈ seen)
    (later : idcnt.toNat ≤ more.toNat) : Around left other more := by
  refine ⟨around.rooted.swept pairs, ?_, RestsInOrder.swept pairs around.ordered isSeen nonzero
    covers within, ?_, ?_⟩
  · apply pairs.rests around.unnamed
    exact fun rest newRest isSwept unnamed => isSwept.noGroupings unnamed
  · apply (pairs.fronts around.older).mono
    intro label older isGrouping
    exact Nat.lt_of_lt_of_le (older isGrouping) later
  · rw [groupingsAbove, pairs.above_eq]
    exact around.distinct

end Steps

section Rounds

variable {ref grouping idcnt more : YnodeId} {hole other : Hole AyYnode} {node : AyYnode}
  {kids rest newRest : Forest AyYnode}

theorem defaults_unmarked (unmarked : isMarked node = false) :
    defaults (.cons node kids rest) = defaults kids ++ defaults rest := by
  rw [defaults_cons, isDefault_of_not unmarked]
  rfl

/-- Past a node without a mark. -/
theorem Pending.down (pending : Pending hole (.cons node kids rest) idcnt)
    (unmarked : isMarked node = false) : Pending (hole.under node rest) kids idcnt := by
  have around := pending.around
  rw [defaults_unmarked unmarked] at around
  have ordered := pending.ordered.2.2
  rw [defaults_unmarked unmarked, defaults_nil, List.append_nil, List.nil_append] at ordered
  have plain := pending.unnamed.cons.1
  have room := pending.room
  rw [markWeight_cons, unmarked] at room
  refine ⟨around.under pending.unnamed.cons.2.2 ordered (fun isGrouping => absurd isGrouping plain)
    fun isGrouping => absurd isGrouping plain, pending.unnamed.cons.2.1, pending.ordered.2.1, ?_⟩
  rw [holeWeight]
  simp only [Bool.false_eq_true, if_false] at room
  omega

/-- The first mark behind the position is the id of its node. -/
theorem Pending.own (pending : Pending hole (.cons node kids rest) idcnt)
    (marked : isMarked node = true) : node.id = node.ref := by
  have first := pending.ordered.1 marked
  split at first
  · assumption
  · exact absurd first.1 List.not_mem_nil

theorem defaults_own (marked : isMarked node = true) (own : node.id = node.ref) :
    defaults (.cons node kids rest) = node.ref :: (defaults kids ++ defaults rest) := by
  rw [defaults_cons, isDefault, marked, own, beq_self_eq_true]
  rfl

/-- The mark of the node is gone behind the inner loop. -/
theorem Pending.swept (pending : Pending hole (.cons node kids rest) idcnt)
    (marked : isMarked node = true) (isSwept : Swept node.ref grouping rest newRest)
    (pairs : hole.Pairs (Swept node.ref grouping) other) (later : idcnt.toNat ≤ more.toNat) :
    Around (defaults kids ++ defaults newRest) other more ∧ NoGroupings newRest ∧
      InOrder (defaults kids) newRest := by
  have own := pending.own marked
  have nonzero := (isMarked_eq_true.mp marked).1
  have ordered := pending.ordered.2.2
  rw [defaults_own marked own, defaults_nil, List.append_nil, List.nil_append] at ordered
  obtain ⟨newOrder, same⟩ := isSwept.inOrder ordered List.mem_cons_self nonzero
    (fun id member => List.mem_cons.mp member) fun id member => List.mem_cons_of_mem _ member
  have around := pending.around
  rw [defaults_own marked own] at around
  refine ⟨?_, isSwept.noGroupings pending.unnamed.cons.2.2, newOrder⟩
  rw [same]
  exact around.swept pairs List.mem_cons_self nonzero (fun id member => List.mem_cons.mp member)
    (fun id member => List.mem_cons_of_mem _ member) later

/-- From the end of a level the loop goes on at the next level with something left, or it ends. -/
theorem Pending.resume {idcnt : YnodeId} (pending : Pending hole .nil idcnt) :
    (hole.fill .nil).size = hole.index ∨
      ∃ next node kids rest, next.fill (.cons node kids rest) = hole.fill .nil ∧
        next.index = hole.index ∧ Pending next (.cons node kids rest) idcnt ∧
        markWeight (.cons node kids rest) + holeWeight next = holeWeight hole := by
  induction depth : hole.above.length using Nat.strong_induction_on generalizing hole with
  | _ depth inductionHypothesis =>
      subst depth
      obtain ⟨front, label, rest, outer, rfl, rooted⟩ := pending.around.rooted.exists_parent
      have sameFill : ((Hole.under label rest outer).past front).fill .nil =
          (outer.behind label front).fill rest := by
        rw [Hole.fill_past, Forest.append_nil]
        rfl
      have sameIndex : ((Hole.under label rest outer).past front).index =
          (outer.behind label front).index := by
        rw [Hole.index_past]
        exact Nat.add_right_comm _ _ _
      have rests := rests_past.mp pending.around.unnamed
      have order := RestsInOrder.past.mp pending.around.ordered
      have older := fronts_past.mp pending.around.older
      have distinct := pending.around.distinct
      rw [groupingsAbove, above_past] at distinct
      have room := pending.room
      have empty : markWeight .nil = 0 := rfl
      rw [holeWeight_past, holeWeight, empty] at room
      have next : Rooted outer → Pending (outer.behind label front) rest idcnt := by
        intro rootedOuter
        refine ⟨⟨rootedOuter, rests.2, order.2, ⟨older.1.1, older.2, older.1.2⟩, ?_⟩, rests.1,
          order.1, ?_⟩
        · exact distinct.sublist (@groupingsAbove_sublist label rest outer)
        · rw [holeWeight]
          omega
      rcases rooted with rootedOuter | ⟨rfl, rfl, -⟩
      · cases rest with
        | nil =>
            have lower : (outer.behind label front).above.length <
                ((Hole.under label .nil outer).past front).above.length := by
              rw [above_past]
              exact Nat.lt_succ_self _
            have resumed := inductionHypothesis _ lower (next rootedOuter) rfl
            rw [sameFill, sameIndex, holeWeight_past, holeWeight, empty, Nat.zero_add]
            exact resumed
        | cons node kids rest =>
            refine .inr ⟨_, node, kids, rest, sameFill.symm, sameIndex.symm, next rootedOuter, ?_⟩
            rw [holeWeight_past]
            rfl
      · left
        rw [sameFill, sameIndex, Hole.size_fill]
        rfl

end Rounds

end SysrepoAugeas.Ynode
