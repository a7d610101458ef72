import SysrepoAugeas.Ynode.Found

/-!
# Marks in order

In front of the position of the outer loop of `ay_ynode_set_ref` every mark
begins before it is repeated, behind it marks only repeat those in front.
-/

namespace SysrepoAugeas.Ynode

open SysrepoAugeas.Data
open Forest (Hole)

section Order

variable {lenses : Lnode → LensText} {id : YnodeId} {whole inner : Forest NodeShape}
  {hole other : Hole AyYnode} {node : AyYnode} {front kids forest found : Forest AyYnode}
  {seen more : List YnodeId}

/-- Marks that begin in front of a place and not above it. -/
def seenAt : Hole AyYnode → List YnodeId
  | .top => []
  | .behind label kids outer => seenAt outer ++ defaults (.cons label kids .nil)
  | .under _ _ outer => seenAt outer

/-- What is in front of a place is in order, and no subtree above it repeats another one. -/
def FrontInOrder : Hole AyYnode → Prop
  | .top => True
  | .behind label kids outer =>
      FrontInOrder outer ∧ InOrder (seenAt outer) (.cons label kids .nil)
  | .under label _ outer =>
      FrontInOrder outer ∧ (isMarked label = true → label.id = label.ref ∧ label.ref ∉ seenAt outer)

/-- All marks repeat those that have been seen. -/
def Repeats (seen : List YnodeId) (forest : Forest AyYnode) : Prop :=
  ∀ node ∈ forest.labels, isMarked node = true → node.id ≠ node.ref ∧ node.ref ∈ seen

def RestsRepeat : List YnodeId → Hole AyYnode → Prop
  | _, .top => True
  | seen, .behind _ _ outer => RestsRepeat seen outer
  | seen, .under label rest outer =>
      Repeats (seen ++ defaults (.cons label .nil .nil)) rest ∧
        RestsRepeat (seen ++ defaults (.cons label .nil .nil)) outer

theorem Repeats.mono (repeats : Repeats seen forest) (within : ∀ id ∈ seen, id ∈ more) :
    Repeats more forest :=
  fun node member marked =>
    ⟨(repeats node member marked).1, within _ (repeats node member marked).2⟩

theorem RestsRepeat.mono (repeats : RestsRepeat seen hole) (within : ∀ id ∈ seen, id ∈ more) :
    RestsRepeat more hole := by
  induction hole generalizing seen more with
  | top => exact trivial
  | behind label kids outer inductionHypothesis => exact inductionHypothesis repeats within
  | under label rest outer inductionHypothesis =>
      have withinBoth : ∀ id ∈ seen ++ defaults (.cons label .nil .nil),
          id ∈ more ++ defaults (.cons label .nil .nil) := by
        intro id member
        rcases List.mem_append.mp member with before | here
        · exact List.mem_append_left _ (within id before)
        · exact List.mem_append_right _ here
      exact ⟨repeats.1.mono withinBoth, inductionHypothesis repeats.2 withinBoth⟩

theorem Repeats.cons {rest : Forest AyYnode} (repeats : Repeats seen (.cons node kids rest)) :
    (isMarked node = true → node.id ≠ node.ref ∧ node.ref ∈ seen) ∧ Repeats seen kids ∧
      Repeats seen rest := by
  rw [Repeats, Forest.labels_cons] at repeats
  obtain ⟨here, inside⟩ := List.forall_mem_cons.mp repeats
  obtain ⟨below, behind⟩ := List.forall_mem_append.mp inside
  exact ⟨here, below, behind⟩

theorem Repeats.of_cons {rest : Forest AyYnode}
    (here : isMarked node = true → node.id ≠ node.ref ∧ node.ref ∈ seen)
    (below : Repeats seen kids) (behind : Repeats seen rest) :
    Repeats seen (.cons node kids rest) := by
  rw [Repeats, Forest.labels_cons]
  exact List.forall_mem_cons.mpr ⟨here, List.forall_mem_append.mpr ⟨below, behind⟩⟩

theorem Repeats.defaults_eq_nil (repeats : Repeats seen forest) : defaults forest = [] := by
  rw [defaults, List.filter_eq_nil_iff.mpr, List.map_nil]
  intro node member isDefault
  rw [Ynode.isDefault, Bool.and_eq_true, beq_iff_eq] at isDefault
  exact (repeats node member isDefault.1).1 isDefault.2

theorem Repeats.inOrder (repeats : Repeats seen forest) : InOrder seen forest := by
  induction forest with
  | nil => exact trivial
  | cons node kids rest kidsHypothesis restHypothesis =>
      obtain ⟨here, below, behind⟩ := repeats.cons
      refine ⟨fun marked => ?_, kidsHypothesis below, ?_⟩
      · rw [if_neg (here marked).1]
        exact ⟨(here marked).2, below.defaults_eq_nil⟩
      · have none : defaults (.cons node kids .nil) = [] :=
          Repeats.defaults_eq_nil (.of_cons here below fun _ member => nomatch member)
        rw [none, List.append_nil]
        exact restHypothesis behind

theorem seenAt_past : seenAt (hole.past front) = seenAt hole ++ defaults front := by
  induction front generalizing hole with
  | nil => rw [Hole.past, defaults_nil, List.append_nil]
  | cons label kids rest _ restHypothesis =>
      rw [Hole.past, restHypothesis, seenAt, List.append_assoc, ← defaults_cons_eq_append]

theorem frontInOrder_past : FrontInOrder (hole.past front) ↔
    FrontInOrder hole ∧ InOrder (seenAt hole) front := by
  induction front generalizing hole with
  | nil => exact ⟨fun inOrder => ⟨inOrder, trivial⟩, And.left⟩
  | cons label kids rest _ restHypothesis =>
      rw [Hole.past, restHypothesis, FrontInOrder, seenAt, and_assoc,
        show Forest.cons label kids rest = (Forest.cons label kids .nil).append rest from rfl,
        InOrder.append]

theorem restsRepeat_past : RestsRepeat seen (hole.past front) ↔ RestsRepeat seen hole := by
  induction front generalizing hole with
  | nil => exact Iff.rfl
  | cons label kids rest _ restHypothesis => exact @restHypothesis (hole.behind label kids)

/-- What is found repeats the mark of the default subtree. -/
theorem Found.repeats (isFound : Found lenses id whole inner forest found)
    (repeats : Repeats seen forest) (within : ∀ other ∈ seen, other ∈ more) (isSeen : id ∈ more)
    (foreign : ∀ node ∈ forest.labels, node.id ≠ id) : Repeats more found := by
  induction isFound with
  | nil => exact repeats.mono within
  | seen _ _ behindHypothesis =>
      have keeps := (repeats.mono within).cons
      exact .of_cons keeps.1 keeps.2.1 (behindHypothesis repeats.cons.2.2 fun node member =>
        foreign node (by
          rw [Forest.labels_cons]
          exact List.mem_cons_of_mem _ (List.mem_append_right _ member)))
  | passed _ _ belowHypothesis behindHypothesis =>
      have keeps := (repeats.mono within).cons
      refine .of_cons keeps.1 (belowHypothesis repeats.cons.2.1 fun node member => ?_)
        (behindHypothesis repeats.cons.2.2 fun node member => ?_)
      · apply foreign node
        rw [Forest.labels_cons]
        exact List.mem_cons_of_mem _ (List.mem_append_left _ member)
      · apply foreign node
        rw [Forest.labels_cons]
        exact List.mem_cons_of_mem _ (List.mem_append_right _ member)
  | subtree _ _ _ _ behindHypothesis =>
      have keeps := (repeats.mono within).cons
      rw [Forest.labels_cons] at foreign
      have here := foreign _ List.mem_cons_self
      exact .of_cons (fun _ => ⟨here, isSeen⟩) keeps.2.1
        (behindHypothesis repeats.cons.2.2 fun node member =>
          foreign node (List.mem_cons_of_mem _ (List.mem_append_right _ member)))
  | children _ _ _ _ _ behindHypothesis =>
      have keeps := (repeats.mono within).cons
      rw [Forest.labels_cons] at foreign
      have here := foreign _ List.mem_cons_self
      exact .of_cons (fun _ => ⟨here, isSeen⟩) keeps.2.1
        (behindHypothesis repeats.cons.2.2 fun node member =>
          foreign node (List.mem_cons_of_mem _ (List.mem_append_right _ member)))

theorem RestsRepeat.ofFound (pairs : hole.Pairs (Found lenses id whole inner) other)
    (repeats : RestsRepeat seen hole) (within : ∀ other ∈ seen, other ∈ more) (isSeen : id ∈ more)
    (foreign : hole.Rests fun rest => ∀ node ∈ rest.labels, node.id ≠ id) :
    RestsRepeat more other := by
  induction pairs generalizing seen more with
  | top => exact trivial
  | behind _ _ _ inductionHypothesis => exact inductionHypothesis repeats within isSeen foreign
  | @under _ _ rest otherRest label isFound _ inductionHypothesis =>
      have withinBoth : ∀ other ∈ seen ++ defaults (.cons label .nil .nil),
          other ∈ more ++ defaults (.cons label .nil .nil) := by
        intro other member
        rcases List.mem_append.mp member with before | here
        · exact List.mem_append_left _ (within other before)
        · exact List.mem_append_right _ here
      exact ⟨isFound.repeats repeats.1 withinBoth (List.mem_append_left _ isSeen) foreign.1,
        inductionHypothesis repeats.2 withinBoth (List.mem_append_left _ isSeen) foreign.2⟩

theorem seenAt_found (pairs : hole.Pairs (Found lenses id whole inner) other) :
    seenAt other = seenAt hole := by
  induction pairs with
  | top => rfl
  | behind _ _ _ inductionHypothesis => rw [seenAt, seenAt, inductionHypothesis]
  | under _ _ _ inductionHypothesis => exact inductionHypothesis

theorem frontInOrder_found (pairs : hole.Pairs (Found lenses id whole inner) other)
    (inOrder : FrontInOrder hole) : FrontInOrder other := by
  induction pairs with
  | top => exact trivial
  | behind _ _ pairs inductionHypothesis =>
      rw [FrontInOrder, seenAt_found pairs]
      exact ⟨inductionHypothesis inOrder.1, inOrder.2⟩
  | under _ _ pairs inductionHypothesis =>
      rw [FrontInOrder, seenAt_found pairs]
      exact ⟨inductionHypothesis inOrder.1, inOrder.2⟩

end Order

section Shapes

variable {lenses : Lnode → LensText} {wholeOf innerOf : YnodeId → Forest NodeShape}
  {id : YnodeId} {hole other : Hole AyYnode} {node : AyYnode}
  {kids forest found filling : Forest AyYnode}

/-- The shapes that belong to the id of a node. -/
structure Named (lenses : Lnode → LensText) (wholeOf innerOf : YnodeId → Forest NodeShape)
    (node : AyYnode) (kids : Forest AyYnode) : Prop where
  whole : (Forest.cons node kids .nil).map (nodeShape lenses) = wholeOf node.id
  inner : (innerNodes kids).2.map (nodeShape lenses) = innerOf node.id

/-- A marked node has the shape that its mark is for. -/
structure Classified (wholeOf innerOf : YnodeId → Forest NodeShape) (node : AyYnode) : Prop where
  keyval : isKeyval node = true → node.ref = 0
  unflagged : node.ref = 0 → marksChildren node = false
  whole : node.ref ≠ 0 → marksChildren node = false → wholeOf node.id = wholeOf node.ref
  inner : node.ref ≠ 0 → marksChildren node = true →
    innerOf node.id = innerOf node.ref ∧ innerOf node.id ≠ .nil

theorem map_map_unmark :
    (forest.map unmark).map (nodeShape lenses) = forest.map (nodeShape lenses) := by
  induction forest with
  | nil => rfl
  | cons node kids rest kidsHypothesis restHypothesis =>
      have same : nodeShape lenses (unmark node) = nodeShape lenses node := by
        have flags : node.flags &&& ayShapeFlags &&& ayShapeFlags =
            node.flags &&& ayShapeFlags := by
          rw [Nat.and_assoc, Nat.and_self]
        simp only [nodeShape, unmark, flags]
        rfl
      rw [Forest.map, Forest.map, Forest.map, kidsHypothesis, restHypothesis, same]

theorem named_unmark : Named lenses wholeOf innerOf (unmark node) (kids.map unmark) ↔
    Named lenses wholeOf innerOf node kids := by
  have whole : (Forest.cons (unmark node) (kids.map unmark) .nil).map (nodeShape lenses) =
      (Forest.cons node kids .nil).map (nodeShape lenses) :=
    @map_map_unmark lenses (.cons node kids .nil)
  have inner : (innerNodes (kids.map unmark)).2.map (nodeShape lenses) =
      (innerNodes kids).2.map (nodeShape lenses) := by
    rw [@innerNodes_map unmark fun _ => rfl]
    exact map_map_unmark
  constructor
  · intro named
    exact ⟨whole.symm.trans named.whole, inner.symm.trans named.inner⟩
  · intro named
    exact ⟨whole.trans named.whole, inner.trans named.inner⟩

theorem all_named_of_unmark (same : found.map unmark = forest.map unmark)
    (named : forest.All (Named lenses wholeOf innerOf)) :
    found.All (Named lenses wholeOf innerOf) := by
  have general : ∀ forest : Forest AyYnode, (forest.map unmark).All (Named lenses wholeOf innerOf) ↔
      forest.All (Named lenses wholeOf innerOf) := by
    intro forest
    induction forest with
    | nil => exact Iff.rfl
    | cons node kids rest kidsHypothesis restHypothesis =>
        rw [Forest.map, Forest.All, Forest.All, kidsHypothesis, restHypothesis, named_unmark]
  rw [← general, same, general]
  exact named

theorem ids_of_unmark (same : found.map unmark = forest.map unmark) :
    found.labels.map AyYnode.id = forest.labels.map AyYnode.id := by
  have labels := congrArg (fun forest => forest.labels.map AyYnode.id) same
  simp only [Forest.labels_map, List.map_map] at labels
  exact labels

theorem marksChildren_addFlags : marksChildren (addFlags ayGroupingChildren node) = true := by
  have bits : (node.flags ||| ayGroupingChildren) &&& ayGroupingChildren ≠ 0 := by
    rw [Nat.and_or_distrib_right]
    intro zero
    have bound : ayGroupingChildren &&& ayGroupingChildren ≤
        node.flags &&& ayGroupingChildren ||| ayGroupingChildren &&& ayGroupingChildren :=
      Nat.right_le_or
    rw [zero] at bound
    exact absurd bound (by decide)
  exact bne_iff_ne.mpr bits

/-- What is found has the shape that the mark is for. -/
theorem Found.classified (isFound : Found lenses id (wholeOf id) (innerOf id) forest found)
    (named : forest.All (Named lenses wholeOf innerOf)) (nonzero : id ≠ 0)
    (classified : ∀ node ∈ forest.labels, Classified wholeOf innerOf node) :
    ∀ node ∈ found.labels, Classified wholeOf innerOf node := by
  induction isFound with
  | nil => exact classified
  | seen _ _ behindHypothesis =>
      rw [Forest.labels_cons, List.forall_mem_cons, List.forall_mem_append] at classified ⊢
      exact ⟨classified.1, classified.2.1, behindHypothesis named.2.2 classified.2.2⟩
  | passed _ _ belowHypothesis behindHypothesis =>
      rw [Forest.labels_cons, List.forall_mem_cons, List.forall_mem_append] at classified ⊢
      exact ⟨classified.1, belowHypothesis named.2.1 classified.2.1,
        behindHypothesis named.2.2 classified.2.2⟩
  | @subtree node _ _ _ unmarked notKeyval shape _ behindHypothesis =>
      rw [Forest.labels_cons, List.forall_mem_cons, List.forall_mem_append] at classified ⊢
      have unflagged : marksChildren { node with ref := id } = false :=
        classified.1.unflagged unmarked
      refine ⟨⟨fun isKey => absurd (notKeyval.symm.trans isKey) Bool.false_ne_true,
        fun zero => absurd zero nonzero, fun _ _ => named.1.whole.symm.trans shape,
        fun _ flagged => ?_⟩, classified.2.1, behindHypothesis named.2.2 classified.2.2⟩
      rw [unflagged] at flagged
      cases flagged
  | @children node _ _ _ unmarked notKeyval shape nonempty _ behindHypothesis =>
      rw [Forest.labels_cons, List.forall_mem_cons, List.forall_mem_append] at classified ⊢
      refine ⟨⟨fun isKey => absurd (notKeyval.symm.trans isKey) Bool.false_ne_true,
        fun zero => absurd zero nonzero, fun _ unflagged => ?_,
        fun _ _ => ⟨named.1.inner.symm.trans shape, fun empty => ?_⟩⟩, classified.2.1,
        behindHypothesis named.2.2 classified.2.2⟩
      · rw [marksChildren_addFlags] at unflagged
        cases unflagged
      · exact nonempty (Forest.eq_nil_of_map (named.1.inner.trans empty))

end Shapes

section Places

variable {hole : Hole AyYnode} {node : AyYnode} {kids rest filling forest : Forest AyYnode}

theorem mem_defaults {id : YnodeId} (member : id ∈ defaults forest) :
    ∃ label ∈ forest.labels, label.id = id := by
  obtain ⟨label, isDefault, rfl⟩ := List.mem_map.mp member
  exact ⟨label, (List.mem_filter.mp isDefault).1, rfl⟩

/-- Every id belongs to one node. -/
def DistinctIds (forest : Forest AyYnode) : Prop := (forest.labels.map AyYnode.id).Nodup

instance (forest : Forest AyYnode) : Decidable (DistinctIds forest) :=
  inferInstanceAs (Decidable (forest.labels.map AyYnode.id).Nodup)

theorem DistinctIds.of_cons (distinct : DistinctIds (.cons node kids rest)) :
    DistinctIds kids ∧ DistinctIds rest ∧
      (∀ label ∈ kids.labels, ∀ other ∈ rest.labels, label.id ≠ other.id) ∧
      (∀ label ∈ kids.labels, label.id ≠ node.id) ∧ ∀ label ∈ rest.labels, label.id ≠ node.id := by
  rw [DistinctIds, Forest.labels_cons, List.map_cons, List.map_append, List.nodup_cons,
    List.nodup_append] at distinct
  obtain ⟨notInside, below, behind, apart⟩ := distinct
  refine ⟨below, behind, fun label isBelow other isBehind => ?_, fun label isBelow same => ?_,
    fun label isBehind same => ?_⟩
  · exact apart _ (List.mem_map_of_mem isBelow) _ (List.mem_map_of_mem isBehind)
  · apply notInside
    rw [← same]
    exact List.mem_append_left _ (List.mem_map_of_mem isBelow)
  · apply notInside
    rw [← same]
    exact List.mem_append_right _ (List.mem_map_of_mem isBehind)

/-- Nodes at a place have other ids than the nodes in front of it and behind it. -/
theorem DistinctIds.of_fill (distinct : DistinctIds (hole.fill filling)) :
    DistinctIds filling ∧ (∀ label ∈ filling.labels, label.id ∉ seenAt hole) ∧
      hole.Rests fun rest =>
        ∀ other ∈ rest.labels, ∀ label ∈ filling.labels, other.id ≠ label.id := by
  induction hole generalizing filling with
  | top => exact ⟨distinct, fun label _ member => (nomatch member), trivial⟩
  | behind label inside outer inductionHypothesis =>
      obtain ⟨here, notSeen, foreign⟩ := inductionHypothesis distinct
      obtain ⟨below, behind, apart, notBelow, notBehind⟩ := here.of_cons
      have within : ∀ other ∈ filling.labels,
          other ∈ (Forest.cons label inside filling).labels := by
        intro other member
        rw [Forest.labels_cons]
        exact List.mem_cons_of_mem _ (List.mem_append_right _ member)
      refine ⟨behind, fun other member isSeen => ?_, ?_⟩
      · rcases List.mem_append.mp isSeen with before | inFront
        · exact notSeen other (within other member) before
        · obtain ⟨earlier, isEarlier, same⟩ := mem_defaults inFront
          rw [Forest.labels_cons, Forest.labels_nil, List.append_nil] at isEarlier
          rcases List.mem_cons.mp isEarlier with rfl | isEarlier
          · exact notBehind other member same.symm
          · exact apart earlier isEarlier other member same
      · apply foreign.mono
        exact fun rest foreign other isOther label member =>
          foreign other isOther label (within label member)
  | under label behindIt outer inductionHypothesis =>
      obtain ⟨here, notSeen, foreign⟩ := inductionHypothesis distinct
      obtain ⟨below, behind, apart, notBelow, notBehind⟩ := here.of_cons
      have within : ∀ other ∈ filling.labels,
          other ∈ (Forest.cons label filling behindIt).labels := by
        intro other member
        rw [Forest.labels_cons]
        exact List.mem_cons_of_mem _ (List.mem_append_left _ member)
      refine ⟨below, fun other member => notSeen other (within other member),
        fun other isOther label member same => apart label member other isOther same.symm, ?_⟩
      apply foreign.mono
      exact fun rest foreign other isOther label member =>
        foreign other isOther label (within label member)

theorem map_fill_pairs {lenses : Lnode → LensText} {id : YnodeId} {whole inner : Forest NodeShape}
    {other : Hole AyYnode} (pairs : hole.Pairs (Found lenses id whole inner) other)
    (same : forest.map unmark = filling.map unmark) :
    (other.fill forest).map unmark = (hole.fill filling).map unmark := by
  induction pairs generalizing forest filling with
  | top => exact same
  | behind label inside _ inductionHypothesis =>
      apply inductionHypothesis
      rw [Forest.map, Forest.map, same]
  | under label isFound _ inductionHypothesis =>
      apply inductionHypothesis
      rw [Forest.map, Forest.map, same, isFound.map_unmark]

theorem mem_of_nodeAt {index : Nat} (isNode : nodeAt forest index = some node) :
    node ∈ forest.labels := by
  by_cases inside : index < forest.size
  · obtain ⟨hole, label, kids, rest, rfl, rfl⟩ := Hole.exists_of_lt_size inside
    rw [nodeAt_fill] at isNode
    obtain rfl := Option.some.inj isNode
    exact hole.mem_labels_fill List.mem_cons_self
  · rw [nodeAt_of_ge (Nat.le_of_not_lt inside)] at isNode
    cases isNode

theorem plain_of_mem (clean : forest.All Clean) {label : AyYnode} (member : label ∈ forest.labels) :
    label.type ≠ .ynRec := by
  induction forest with
  | nil => cases member
  | cons node kids rest kidsHypothesis restHypothesis =>
      rw [Forest.labels_cons] at member
      rcases List.mem_cons.mp member with rfl | member
      · exact clean.1.plain.2.2.2
      · rcases List.mem_append.mp member with below | behind
        · exact kidsHypothesis clean.2.1 below
        · exact restHypothesis clean.2.2 behind

/-- No recursion, no restriction. -/
theorem ayYnodeSetRefLeafrefRestriction_clean {bodies : Lnode → Nat} (clean : forest.All Clean)
    (index : Nat) : ayYnodeSetRefLeafrefRestriction bodies forest index = some false := by
  have noRec : ∀ fuel index, externalRec forest fuel index = none := by
    intro fuel
    induction fuel with
    | zero => exact fun _ => rfl
    | succ fuel inductionHypothesis =>
        intro index
        rw [externalRec]
        cases parentIndex forest index with
        | none => rfl
        | some parent =>
            cases isNode : nodeAt forest parent with
            | none => simp only [Option.bind_eq_bind, Option.bind_some, isNode, Option.bind_none]
            | some node =>
                have plain := plain_of_mem clean (mem_of_nodeAt isNode)
                simp only [Option.bind_eq_bind, Option.bind_some, isNode, if_neg plain,
                  inductionHypothesis]
  rw [ayYnodeSetRefLeafrefRestriction, noRec]

end Places

section Settling

variable {lenses : Lnode → LensText} {labels : Lnode → LabelLens} {bodies : Lnode → Nat}
  {wholeOf innerOf : YnodeId → Forest NodeShape} {tree : Forest AyYnode} {hole : Hole AyYnode}
  {node : AyYnode} {kids rest forest : Forest AyYnode}

/-- State at a position of the outer loop: in front of it the marks are in order, behind it they
repeat those in front. -/
structure Settling (wholeOf innerOf : YnodeId → Forest NodeShape) (tree : Forest AyYnode)
    (hole : Hole AyYnode) (forest : Forest AyYnode) : Prop where
  rooted : Rooted hole
  front : FrontInOrder hole
  repeats : Repeats (seenAt hole) forest
  rests : RestsRepeat (seenAt hole) hole
  classified : ∀ label ∈ (hole.fill forest).labels, Classified wholeOf innerOf label
  same : (hole.fill forest).map unmark = tree.map unmark

/-- From the end of a level the loop goes on at the next level with something left, or it ends. -/
theorem Settling.resume (settling : Settling wholeOf innerOf tree hole .nil) :
    ((hole.fill .nil).size = hole.index ∧
      ∃ root below, hole.fill .nil = .cons root below .nil ∧ InOrder [] below) ∨
    ∃ next node kids rest, next.fill (.cons node kids rest) = hole.fill .nil ∧
      next.index = hole.index ∧ Settling wholeOf innerOf tree next (.cons node kids rest) := by
  induction depth : hole.above.length using Nat.strong_induction_on generalizing hole with
  | _ depth inductionHypothesis =>
      subst depth
      obtain ⟨front, label, rest, outer, rfl, rooted⟩ := settling.rooted.exists_parent
      have sameFill : ((Hole.under label rest outer).past front).fill .nil =
          (outer.behind label front).fill rest := by
        rw [Hole.fill_past, Forest.append_nil]
        rfl
      have sameIndex : ((Hole.under label rest outer).past front).index =
          (outer.behind label front).index := by
        rw [Hole.index_past]
        exact Nat.add_right_comm _ _ _
      obtain ⟨⟨outerFront, own⟩, inOrder⟩ := frontInOrder_past.mp settling.front
      have rests := restsRepeat_past.mp settling.rests
      rw [seenAt_past] at rests
      have within : ∀ id ∈ seenAt (Hole.under label rest outer) ++ defaults front ++
          defaults (.cons label .nil .nil), id ∈ seenAt (outer.behind label front) := by
        intro id member
        simp only [seenAt, defaults_cons, defaults_nil, List.mem_append, List.append_nil]
          at member ⊢
        rcases member with (before | inside) | here
        · exact .inl before
        · exact .inr (.inr inside)
        · exact .inr (.inl here)
      have next : Rooted outer → Settling wholeOf innerOf tree (outer.behind label front) rest := by
        intro rootedOuter
        refine ⟨rootedOuter, ⟨outerFront, fun marked => ?_, inOrder, trivial⟩,
          rests.1.mono within, rests.2.mono within, ?_, ?_⟩
        · rw [if_pos (own marked).1]
          exact (own marked).2
        · rw [← sameFill]
          exact settling.classified
        · rw [← sameFill]
          exact settling.same
      rcases rooted with rootedOuter | ⟨rfl, rfl, -⟩
      · cases rest with
        | nil =>
            have lower : (outer.behind label front).above.length <
                ((Hole.under label .nil outer).past front).above.length := by
              rw [above_past]
              exact Nat.lt_succ_self _
            rw [sameFill, sameIndex]
            exact inductionHypothesis _ lower (next rootedOuter) rfl
        | cons node kids rest =>
            exact .inr ⟨_, node, kids, rest, sameFill.symm, sameIndex.symm, next rootedOuter⟩
      · left
        refine ⟨?_, label, front, sameFill, inOrder⟩
        rw [sameFill, sameIndex, Hole.size_fill]
        rfl

/-- The subtree of a marked node is left alone. -/
theorem Settling.past (settling : Settling wholeOf innerOf tree hole (.cons node kids rest)) :
    Settling wholeOf innerOf tree (hole.behind node kids) rest := by
  obtain ⟨here, below, behind⟩ := settling.repeats.cons
  have repeatsHere : Repeats (seenAt hole) (.cons node kids .nil) :=
    .of_cons here below fun _ member => nomatch member
  have seenSame : seenAt (hole.behind node kids) = seenAt hole := by
    rw [seenAt, repeatsHere.defaults_eq_nil, List.append_nil]
  refine ⟨settling.rooted, ⟨settling.front, repeatsHere.inOrder⟩, ?_, ?_, settling.classified,
    settling.same⟩
  · rw [seenSame]
    exact behind
  · rw [seenSame]
    exact settling.rests

theorem Settling.down (settling : Settling wholeOf innerOf tree hole (.cons node kids rest))
    (unmarked : node.ref = 0) :
    Settling wholeOf innerOf tree (hole.under node rest) kids := by
  obtain ⟨here, below, behind⟩ := settling.repeats.cons
  have none : defaults (.cons node .nil .nil) = [] := by
    rw [defaults_unmarked (isMarked_zero unmarked)]
    rfl
  refine ⟨.inl settling.rooted, ⟨settling.front, fun marked => ?_⟩, below, ?_,
    settling.classified, settling.same⟩
  · rw [isMarked_zero unmarked] at marked
    cases marked
  · rw [RestsRepeat, none, List.append_nil]
    exact ⟨behind, settling.rests⟩

theorem rooted_found {id : YnodeId} {whole inner : Forest NodeShape} {other : Hole AyYnode}
    (pairs : hole.Pairs (Found lenses id whole inner) other) (rooted : Rooted hole) :
    Rooted other := by
  induction pairs with
  | top => exact rooted.elim
  | behind _ _ _ inductionHypothesis => exact inductionHypothesis rooted
  | under _ isFound pairs inductionHypothesis =>
      rcases rooted with rootedOuter | ⟨rfl, rfl, plain⟩
      · exact .inl (inductionHypothesis rootedOuter)
      · cases pairs
        cases isFound
        exact .inr ⟨rfl, rfl, plain⟩

theorem Settling.id_ne_zero (settling : Settling wholeOf innerOf tree hole (.cons node kids rest))
    (nonzeroTree : ∀ label ∈ tree.labels, label.id ≠ 0) : node.id ≠ 0 := by
  have member : node.id ∈ (hole.fill (.cons node kids rest)).labels.map AyYnode.id :=
    List.mem_map_of_mem (hole.mem_labels_fill List.mem_cons_self)
  rw [ids_of_unmark settling.same] at member
  obtain ⟨label, isLabel, same⟩ := List.mem_map.mp member
  rw [← same]
  exact nonzeroTree label isLabel

/-- A new mark begins at the node. -/
theorem Settling.begin {other : Hole AyYnode} {newNode : AyYnode} {newRest : Forest AyYnode}
    (settling : Settling wholeOf innerOf tree hole (.cons node kids rest))
    (distinctTree : DistinctIds tree) (nonzeroTree : ∀ label ∈ tree.labels, label.id ≠ 0)
    (namedTree : tree.All (Named lenses wholeOf innerOf))
    (isBegun : newNode.id = node.id ∧ newNode.ref = node.id)
    (sameNode : unmark newNode = unmark node) (notUses : node.type ≠ .ynUses)
    (classifiedNode : Classified wholeOf innerOf newNode)
    (isFound : Found lenses node.id (wholeOf node.id) (innerOf node.id) rest newRest)
    (pairs : hole.Pairs (Found lenses node.id (wholeOf node.id) (innerOf node.id)) other) :
    Settling wholeOf innerOf tree (other.under newNode newRest) kids := by
  have sameIds := ids_of_unmark settling.same
  have distinct : DistinctIds (hole.fill (.cons node kids rest)) := by
    rw [DistinctIds, sameIds]
    exact distinctTree
  have nonzero : node.id ≠ 0 := settling.id_ne_zero nonzeroTree
  have named := all_named_of_unmark settling.same namedTree
  obtain ⟨here, below, behind⟩ := settling.repeats.cons
  obtain ⟨distinctHere, notSeen, foreign⟩ := distinct.of_fill
  obtain ⟨-, -, -, -, foreignRest⟩ := distinctHere.of_cons
  have isNode : node ∈ (Forest.cons node kids rest).labels := List.mem_cons_self
  have marked : isMarked newNode = true := by
    refine isMarked_eq_true.mpr ⟨isBegun.2 ▸ nonzero, ?_⟩
    have sameType := congrArg AyYnode.type sameNode
    intro isUses
    exact notUses (sameType.symm.trans isUses)
  have own : newNode.id = newNode.ref := isBegun.1.trans isBegun.2.symm
  have begins : node.id ∈ seenAt hole ++ defaults (.cons newNode .nil .nil) := by
    rw [defaults_own marked own, isBegun.2]
    exact List.mem_append_right _ List.mem_cons_self
  have within : ∀ id ∈ seenAt hole, id ∈ seenAt hole ++ defaults (.cons newNode .nil .nil) :=
    fun id member => List.mem_append_left _ member
  refine ⟨.inl (rooted_found pairs settling.rooted),
    ⟨frontInOrder_found pairs settling.front, fun _ => ⟨own, ?_⟩⟩, ?_, ⟨?_, ?_⟩, ?_, ?_⟩
  · rw [isBegun.2, seenAt_found pairs]
    exact notSeen node isNode
  · rw [seenAt, seenAt_found pairs]
    exact below
  · rw [seenAt, seenAt_found pairs]
    exact isFound.repeats behind within begins foreignRest
  · rw [seenAt, seenAt_found pairs]
    apply settling.rests.ofFound pairs within begins
    exact foreign.mono fun rest foreign label isLabel => foreign label isLabel node isNode
  · obtain ⟨fronts, rests, inside⟩ := Hole.forall_labels_of_fill settling.classified
    obtain ⟨namedHere, namedRests⟩ := Forest.All.of_fill hole (fun empty => by cases empty) named
    rw [Forest.labels_cons, List.forall_mem_cons, List.forall_mem_append] at inside
    have newInside : ∀ label ∈ (Forest.cons newNode kids newRest).labels,
        Classified wholeOf innerOf label := by
      rw [Forest.labels_cons, List.forall_mem_cons, List.forall_mem_append]
      exact ⟨classifiedNode, inside.2.1, isFound.classified namedHere.2.2 nonzero inside.2.2⟩
    apply Hole.forall_labels_fill (pairs.fronts fronts) _ newInside
    apply pairs.rests (rests.and namedRests)
    exact fun rest newRest isFound both => isFound.classified both.2 nonzero both.1
  · have sameHere : (Forest.cons newNode kids newRest).map unmark =
        (Forest.cons node kids rest).map unmark := by
      rw [Forest.map, Forest.map, sameNode, isFound.map_unmark]
    exact (map_fill_pairs pairs sameHere).trans settling.same

theorem isSkipped_clean (clean : forest.All Clean) (index : Nat) (iti parent : AyYnode)
    (itiKids : Forest AyYnode) :
    ∃ skipped, isSkipped bodies forest index iti itiKids parent = some skipped := by
  rw [isSkipped]
  split
  · exact ⟨true, rfl⟩
  · rw [ayYnodeSetRefLeafrefRestriction_clean clean]
    exact ⟨_, rfl⟩

theorem notKeyval_of_isSkipped {iti parent : AyYnode} {itiKids : Forest AyYnode} {index : Nat}
    (looked : isSkipped bodies forest index iti itiKids parent = some false) :
    isKeyval iti = false := by
  rw [isSkipped] at looked
  split at looked
  · cases looked
  · next candidate =>
      rw [isKeyval]
      cases type : iti.type <;> simp [type] at candidate ⊢

theorem classified_whole {id : YnodeId} (isId : node.id = id) (nonzero : id ≠ 0)
    (notKeyval : isKeyval node = false) (unflagged : marksChildren node = false) :
    Classified wholeOf innerOf { node with ref := id } := by
  refine ⟨fun isKey => absurd (notKeyval.symm.trans isKey) Bool.false_ne_true,
    fun zero => absurd zero nonzero, fun _ _ => congrArg wholeOf isId, fun _ flagged => ?_⟩
  have sameFlag : marksChildren { node with ref := id } = false := unflagged
  rw [sameFlag] at flagged
  cases flagged

theorem classified_children {id : YnodeId} (isId : node.id = id) (nonzero : id ≠ 0)
    (notKeyval : isKeyval node = false) (rich : innerOf id ≠ .nil) :
    Classified wholeOf innerOf (addFlags ayGroupingChildren { node with ref := id }) := by
  refine ⟨fun isKey => absurd (notKeyval.symm.trans isKey) Bool.false_ne_true,
    fun zero => absurd zero nonzero, fun _ unflagged => ?_, fun _ _ => ⟨congrArg innerOf isId, ?_⟩⟩
  · rw [marksChildren_addFlags] at unflagged
    cases unflagged
  · exact fun empty => rich ((congrArg innerOf isId).symm.trans empty)

/-- What the inner loop has found decides on the mark of the default subtree. -/
theorem Settling.mark {other : Hole AyYnode} {newRest : Forest AyYnode} {after : Marking}
    (settling : Settling wholeOf innerOf tree hole (.cons node kids rest))
    (cleanTree : tree.All Clean) (namedTree : tree.All (Named lenses wholeOf innerOf))
    (distinctTree : DistinctIds tree) (nonzeroTree : ∀ label ∈ tree.labels, label.id ≠ 0)
    (unmarked : node.ref = 0) (notKeyval : isKeyval node = false)
    (isFound : Found lenses node.id ((Forest.cons node kids .nil).map (nodeShape lenses))
      ((innerNodes kids).2.map (nodeShape lenses)) rest newRest)
    (pairs : hole.Pairs (Found lenses node.id ((Forest.cons node kids .nil).map (nodeShape lenses))
      ((innerNodes kids).2.map (nodeShape lenses))) other)
    (afterForest : after.forest = other.fill (.cons node kids newRest))
    (rich : after.childrenEq ≠ 0 → (innerNodes kids).2 ≠ .nil)
    (hits : after.Hit ∨ Hole.under node newRest other = Hole.under node rest hole) :
    ∃ next left, Settling wholeOf innerOf tree next left ∧ next.index = hole.index + 1 ∧
      markDefault node hole.index after = next.fill left := by
  have clean := all_clean_of_unmark settling.same cleanTree
  have named := all_named_of_unmark settling.same namedTree
  have cleanHere := (Forest.All.of_fill hole (fun empty => by cases empty) clean).1.1
  have namedHere := (Forest.All.of_fill hole (fun empty => by cases empty) named).1.1
  have nonzero : node.id ≠ 0 := settling.id_ne_zero nonzeroTree
  have unflagged : marksChildren node = false :=
    (settling.classified node (hole.mem_labels_fill List.mem_cons_self)).unflagged unmarked
  have place : other.index + 1 = hole.index + 1 := congrArg (· + 1) pairs.index_eq
  have edited : ∀ change : AyYnode → AyYnode, editAt change hole.index after.forest =
      other.fill (.cons (change node) kids newRest) := by
    intro change
    rw [afterForest, ← pairs.index_eq]
    exact editAt_fill other node kids newRest change
  rw [namedHere.whole, namedHere.inner] at isFound pairs
  by_cases byChildren : after.childrenEq ≠ 0
  · have isRich : innerOf node.id ≠ .nil := fun empty =>
      rich byChildren (Forest.eq_nil_of_map (namedHere.inner.trans empty))
    have begun : Settling wholeOf innerOf tree
        (other.under (addFlags ayGroupingChildren { node with ref := node.id }) newRest) kids :=
      settling.begin distinctTree nonzeroTree namedTree ⟨rfl, rfl⟩ (unmark_addFlags node)
        cleanHere.plain.1 (classified_children rfl nonzero notKeyval isRich) isFound pairs
    refine ⟨_, _, begun, place, ?_⟩
    rw [markDefault, if_pos byChildren, edited]
    rfl
  · by_cases bySubtree : after.subtreeEq = true
    · have begun : Settling wholeOf innerOf tree
          (other.under { node with ref := node.id } newRest) kids :=
        settling.begin distinctTree nonzeroTree namedTree ⟨rfl, rfl⟩ rfl cleanHere.plain.1
          (classified_whole rfl nonzero notKeyval unflagged) isFound pairs
      refine ⟨_, _, begun, place, ?_⟩
      rw [markDefault, if_neg byChildren, if_pos bySubtree, edited]
      rfl
    · have unchanged : Hole.under node newRest other = Hole.under node rest hole := by
        rcases hits with (isSubtree | isChildren) | same
        · exact absurd isSubtree bySubtree
        · exact absurd isChildren byChildren
        · exact same
      have sameForest : (other.under node newRest).fill kids =
          (hole.under node rest).fill kids := by
        rw [unchanged]
      refine ⟨_, _, settling.down unmarked, rfl, ?_⟩
      rw [markDefault, if_neg byChildren, if_neg bySubtree, afterForest]
      exact sameForest

/-- One iteration of the outer loop. -/
theorem Settling.step (settling : Settling wholeOf innerOf tree hole (.cons node kids rest))
    (cleanTree : tree.All Clean) (namedTree : tree.All (Named lenses wholeOf innerOf))
    (distinctTree : DistinctIds tree) (nonzeroTree : ∀ label ∈ tree.labels, label.id ≠ 0) :
    ∃ next left, Settling wholeOf innerOf tree next left ∧ hole.index < next.index ∧
      ∀ fuel, setRefFrom lenses labels bodies (fuel + 1) hole.index
          (hole.fill (.cons node kids rest)) =
        setRefFrom lenses labels bodies fuel next.index (next.fill left) := by
  have clean := all_clean_of_unmark settling.same cleanTree
  obtain ⟨parent, only, isParent, isAlone⟩ := exists_innerNodeAlone settling.rooted clean
  have plainParent : parent.type ≠ .ynRec := by
    obtain ⟨index, -, isNode⟩ := Option.bind_eq_some_iff.mp isParent
    exact plain_of_mem clean (mem_of_nodeAt isNode)
  have cleanHere := (Forest.All.of_fill hole (fun empty => by cases empty) clean).1.1
  obtain ⟨inner, hasInner⟩ := Option.isSome_iff_exists.mp cleanHere.keyed
  obtain rfl := ayInnerNodes_eq hasInner
  by_cases marked : node.ref ≠ 0
  · refine ⟨_, _, settling.past, ?_, fun fuel => ?_⟩
    · rw [Hole.index]
      omega
    · rw [setRefFrom, nodeAt_fill]
      simp only [childrenAt_fill, isParent, Option.bind_eq_bind, Option.bind_some,
        if_pos (And.intro marked plainParent)]
      rfl
  · have notSkipped : ¬ (node.ref ≠ 0 ∧ parent.type ≠ .ynRec) := fun both => marked both.1
    rw [ne_eq, not_not] at marked
    obtain ⟨skipped, isSkip⟩ := @isSkipped_clean bodies _ clean hole.index node parent kids
    cases skipped with
    | true =>
        refine ⟨_, _, settling.down marked, Nat.lt_succ_self _, fun fuel => ?_⟩
        rw [setRefFrom, nodeAt_fill]
        simp only [childrenAt_fill, isParent, Option.bind_eq_bind, Option.bind_some,
          if_neg notSkipped, isSkip, if_true]
        rfl
    | false =>
        have notKeyval := notKeyval_of_isSkipped isSkip
        have enough : (hole.under node rest).back.length <
            (hole.fill (.cons node kids rest)).size + 1 := by
          have size := Hole.size_fill (hole.under node rest) kids
          rw [Hole.fill] at size
          omega
        obtain ⟨_, after, pairs, afterForest, rich, -, hits, runs⟩ :=
          @markFrom_behind lenses labels node kids (innerNodes kids).2 only (hole.under node rest)
            rfl cleanHere notKeyval (.inl (.inl settling.rooted)) kids clean
            ⟨hole.fill (.cons node kids rest), false, 0, false⟩ rfl (fun impossible =>
              absurd rfl impossible) _ enough
        cases pairs with
        | @under _ other _ newRest _ isFound pairs =>
            have place : (hole.under node rest).index + kids.size = hole.index + kids.size + 1 :=
              Nat.add_right_comm _ _ _
            rw [place] at runs
            have goesOn : ∀ fuel, setRefFrom lenses labels bodies (fuel + 1) hole.index
                (hole.fill (.cons node kids rest)) =
                setRefFrom lenses labels bodies fuel (hole.index + 1)
                  (markDefault node hole.index after) := by
              intro fuel
              rw [setRefFrom, nodeAt_fill]
              simp only [childrenAt_fill, isParent, Option.bind_eq_bind, Option.bind_some,
                if_neg notSkipped, isSkip, Bool.false_eq_true, if_false, isAlone, hasInner, runs]
            obtain ⟨next, left, settlingNext, place, isNext⟩ :=
              settling.mark cleanTree namedTree distinctTree nonzeroTree marked notKeyval
                isFound pairs afterForest rich hits
            refine ⟨next, left, settlingNext, place ▸ Nat.lt_succ_self _, fun fuel => ?_⟩
            rw [goesOn, isNext, place]

/-- The outer loop ends with all marks in order. -/
theorem setRefFrom_settles (cleanTree : tree.All Clean)
    (namedTree : tree.All (Named lenses wholeOf innerOf)) (distinctTree : DistinctIds tree)
    (nonzeroTree : ∀ label ∈ tree.labels, label.id ≠ 0) {fuel : Nat}
    (settling : Settling wholeOf innerOf tree hole forest)
    (enough : (hole.fill forest).size < fuel + hole.index) :
    ∃ root below, setRefFrom lenses labels bodies fuel hole.index (hole.fill forest) =
        some (.cons root below .nil) ∧ InOrder [] below ∧
      (∀ label ∈ (Forest.cons root below .nil).labels, Classified wholeOf innerOf label) ∧
      (Forest.cons root below .nil).map unmark = tree.map unmark := by
  induction fuel generalizing hole forest with
  | zero =>
      rw [Hole.size_fill] at enough
      omega
  | succ fuel inductionHypothesis =>
      have next : ∀ {hole : Hole AyYnode} {node : AyYnode} {kids rest : Forest AyYnode},
          Settling wholeOf innerOf tree hole (.cons node kids rest) →
          (hole.fill (.cons node kids rest)).size < fuel + 1 + hole.index →
          ∃ root below, setRefFrom lenses labels bodies (fuel + 1) hole.index
              (hole.fill (.cons node kids rest)) = some (.cons root below .nil) ∧
            InOrder [] below ∧
            (∀ label ∈ (Forest.cons root below .nil).labels, Classified wholeOf innerOf label) ∧
            (Forest.cons root below .nil).map unmark = tree.map unmark := by
        intro hole node kids rest settling enough
        obtain ⟨next, left, settlingNext, later, runs⟩ :=
          @Settling.step lenses labels bodies wholeOf innerOf tree hole node kids rest settling
            cleanTree namedTree distinctTree nonzeroTree
        rw [runs]
        apply inductionHypothesis settlingNext
        rw [size_of_map_unmark (settlingNext.same.trans settling.same.symm)]
        omega
      cases forest with
      | nil =>
          rcases settling.resume with ⟨ends, root, below, isWhole, inOrder⟩ |
            ⟨behind, node, kids, rest, sameFill, sameIndex, settlingBehind⟩
          · have outside : nodeAt (hole.fill .nil) hole.index = none :=
              nodeAt_of_ge (Nat.le_of_eq ends)
            have classified := settling.classified
            have same := settling.same
            rw [isWhole] at classified same outside
            refine ⟨root, below, ?_, inOrder, classified, same⟩
            rw [isWhole, setRefFrom, outside]
          · rw [← sameFill] at enough ⊢
            rw [← sameIndex] at enough ⊢
            exact next settlingBehind enough
      | cons node kids rest => exact next settling enough

end Settling

end SysrepoAugeas.Ynode
