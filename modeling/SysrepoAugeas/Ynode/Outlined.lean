import SysrepoAugeas.Ynode.Pending

/-!
# Groupings keep what the tree describes

A round puts a marked subtree into a grouping and goes on below; the whole
tree stands for the same tree as before.
-/

namespace SysrepoAugeas.Ynode

open SysrepoAugeas.Data
open Forest (Hole Role Definitions Unfolds Extends)

section Replace

variable {lenses : Lnode → LensText} {trees : YnodeId → Forest NodeShape} {ref grouping : YnodeId}
  {hole other : Hole AyYnode} {filling rest newRest origins originRest : Forest AyYnode}
  {known after : Definitions YnodeId NodeShape} {seen left : List YnodeId}

theorem Outlines.mono (outlines : Outlines lenses trees known rest originRest known)
    {more : Definitions YnodeId NodeShape} (extend : Extends known more)
    (unnamed : NoGroupings rest) : Outlines lenses trees more rest originRest more := by
  obtain ⟨moreAfter, moved, -⟩ := Unfolds.mono outlines extend
  have same := Outlines.after_eq moved unnamed
  rwa [same] at moved

/-- What is behind a new grouping is read with its name. -/
theorem Outlines.sweptBehind (outlines : Outlines lenses trees known rest originRest known)
    (isSwept : Swept ref grouping rest newRest) (nonzero : ref ≠ 0)
    (isFresh : known.lookup grouping = none) (unnamed : NoGroupings rest)
    (proper : originRest.All (Proper lenses trees)) :
    Outlines lenses trees ((grouping, trees ref) :: known) newRest originRest
      ((grouping, trees ref) :: known) :=
  isSwept.outlines nonzero (Forest.lookup_cons_self _ _ _) unnamed proper
    (outlines.mono (Extends.fresh _ isFresh) unnamed)

/-- A part of the tree is replaced while everything behind it is swept. -/
theorem Outlines.replace (nonzero : ref ≠ 0) (proper : origins.All (Proper lenses trees))
    (nonempty : filling ≠ .nil)
    (outlines : Outlines lenses trees [] (hole.fill filling) origins after)
    (pairs : hole.Pairs (Swept ref grouping) other) (unnamed : hole.Rests NoGroupings)
    (notAbove : grouping ∉ groupingsAbove hole) :
    ∃ here part behind, Outlines lenses trees here filling part behind ∧
      part.All (Proper lenses trees) ∧
      (∀ id, here.lookup id ≠ none → ∃ node ∈ (hole.fill filling).labels,
        node.type = .ynGrouping ∧ node.id = id) ∧
      ∀ otherFilling otherBehind, Outlines lenses trees here otherFilling part otherBehind →
        Extends behind otherBehind → otherBehind.lookup grouping = some (trees ref) →
        ∃ otherAfter, Outlines lenses trees [] (other.fill otherFilling) origins otherAfter := by
  have stays : ∀ (known : Definitions YnodeId NodeShape) (name : YnodeId)
      (body : Forest NodeShape),
      (∃ label ∈ hole.above, nodeRole label = .define name) →
      known.lookup grouping = some (trees ref) →
      ((name, body) :: known).lookup grouping = some (trees ref) := by
    rintro known name body ⟨label, member, isDefinition⟩ named
    obtain ⟨isGrouping, rfl⟩ := nodeRole_define.mp isDefinition
    rw [Forest.lookup_cons_ne, named]
    rintro rfl
    exact notAbove (List.mem_map_of_mem (List.mem_filter.mpr ⟨member, by simp [isGrouping]⟩))
  obtain ⟨here, part, behind, standsHere, allHere, names, replace⟩ :=
    @Unfolds.of_fill _ _ _ _ _ nodeRole Kin (nodeShape lenses) (Piece lenses trees) [] after filling
      origins (fun rest newRest => Swept ref grouping rest newRest ∧ NoGroupings rest)
      (fun known => known.lookup grouping = some (trees ref)) (Proper lenses trees)
      (fun {_ _ _ _ _} named isSwept properRest stands => by
        obtain rfl := Outlines.after_eq stands isSwept.2
        exact ⟨_, isSwept.1.outlines nonzero named isSwept.2 properRest stands,
          Extends.refl _, named⟩)
      (fun piece isPiece => isPiece.proper) hole nonempty stays outlines proper
  refine ⟨here, part, behind, standsHere, allHere, ?_, ?_⟩
  · intro id isDefined
    rcases names id isDefined with impossible | ⟨node, member, isDefinition⟩
    · exact absurd rfl impossible
    · exact ⟨node, member, nodeRole_define.mp isDefinition⟩
  · intro otherFilling otherBehind standsToo extend named
    exact replace other otherFilling otherBehind (pairs.and unnamed) standsToo extend named

/-- The label of a key is that of its node, also behind the position. -/
theorem Outlines.keyLabelled (outlines : Outlines lenses trees known rest originRest after)
    (unnamed : NoGroupings rest) (proper : originRest.All (Proper lenses trees)) :
    rest.All KeyLabelled := by
  induction outlines with
  | nil => exact trivial
  | keep _ isKin below _ belowHypothesis behindHypothesis =>
      obtain ⟨_, isInner⟩ := proper.1.keyed
      exact ⟨⟨_, Outlines.ayInnerNodes isKin below unnamed.cons.2.1 isInner⟩,
        belowHypothesis unnamed.cons.2.1 proper.2.1, behindHypothesis unnamed.cons.2.2 proper.2.2⟩
  | call _ _ _ _ behindHypothesis =>
      exact ⟨⟨_, rfl⟩, trivial,
        behindHypothesis unnamed.cons.2.2 (Forest.All.append.mp proper).2⟩
  | define isDefinition _ _ _ =>
      exact absurd (nodeRole_define.mp isDefinition).1 unnamed.cons.1

theorem Outlines.restsKeyLabelled (outlines : Outlines lenses trees [] (hole.fill filling) origins
    after) (proper : origins.All (Proper lenses trees)) (nonempty : filling ≠ .nil)
    (unnamed : hole.Rests NoGroupings) : hole.Rests fun rest => rest.All KeyLabelled := by
  have rests := Unfolds.rests (fun piece isPiece => isPiece.proper) nonempty outlines proper
  apply (rests.and unnamed).mono
  rintro rest ⟨⟨here, part, behind, standsHere, properPart⟩, noneHere⟩
  exact Outlines.keyLabelled standsHere noneHere properPart

/-- No key or value comes from a grouping. -/
theorem Outlines.inner (outlines : Outlines lenses trees known filling origins after)
    (inner : ∀ root ∈ origins.roots, isKeyval root = false) :
    ∀ root ∈ filling.roots, isKeyval root = false := by
  induction outlines with
  | nil => exact inner
  | keep _ isKin _ _ _ behindHypothesis =>
      rw [Forest.roots] at inner ⊢
      have here := (List.forall_mem_cons.mp inner).1
      rw [isKeyval, ← isKin.type_eq] at here
      exact List.forall_mem_cons.mpr ⟨here, behindHypothesis (List.forall_mem_cons.mp inner).2⟩
  | call isCall _ _ _ behindHypothesis =>
      rw [Forest.roots_append] at inner
      refine List.forall_mem_cons.mpr ⟨?_, behindHypothesis (List.forall_mem_append.mp inner).2⟩
      rw [isKeyval, (nodeRole_call.mp isCall).1]
      rfl
  | define isDefinition _ _ _ _ behindHypothesis =>
      refine List.forall_mem_cons.mpr ⟨?_, behindHypothesis inner⟩
      rw [isKeyval, (nodeRole_define.mp isDefinition).1]
      rfl

theorem Outlines.eq_nil (outlines : Outlines lenses trees known filling .nil after)
    (unnamed : NoGroupings filling) : filling = .nil := by
  generalize isNil : Forest.nil = none at outlines
  cases outlines with
  | nil => rfl
  | keep _ _ _ _ => cases isNil
  | @call _ _ _ _ _ piece _ _ _ isPiece _ =>
      cases piece with
      | nil => exact absurd rfl isPiece.nonempty
      | cons _ _ _ => cases isNil
  | define isDefinition _ _ _ => exact absurd (nodeRole_define.mp isDefinition).1 unnamed.cons.1

theorem Outlines.skipTypeUnmarked {type : YangType} (isType : type = .ynKey ∨ type = .ynValue)
    (outlines : Outlines lenses trees known filling origins known) (unnamed : NoGroupings filling)
    (proper : origins.All (Proper lenses trees)) :
    ∀ label ∈ (Ynode.skipType type filling).1.labels, isMarked label = false := by
  have noLabels : ∀ label ∈ (Forest.nil : Forest AyYnode).labels, isMarked label = false :=
    fun _ member => nomatch member
  cases outlines with
  | nil => exact noLabels
  | @keep _ _ _ label origin kids _ _ _ _ isKin below _ =>
      rw [Ynode.skipType]
      split
      · next same =>
          have isKey : isKeyval origin = true := by
            rw [isKeyval, ← isKin.type_eq, same]
            rcases isType with rfl | rfl <;> rfl
          obtain ⟨zero, rfl⟩ := proper.1.keyval isKey
          obtain rfl := Outlines.eq_nil below unnamed.cons.2.1
          refine List.forall_mem_cons.mpr ⟨isMarked_zero ?_, noLabels⟩
          exact isKin.mark.elim id fun sameRef => sameRef.trans zero
      · exact noLabels
  | @call _ _ label _ _ _ _ isCall _ _ _ =>
      rw [Ynode.skipType]
      split
      · exact List.forall_mem_cons.mpr ⟨isMarked_uses (nodeRole_call.mp isCall).1, noLabels⟩
      · exact noLabels
  | define isDefinition _ _ _ => exact absurd (nodeRole_define.mp isDefinition).1 unnamed.cons.1

/-- A key and a value have no mark. -/
theorem Outlines.keyvalUnmarked
    (outlines : Outlines lenses trees known filling origins known) (unnamed : NoGroupings filling)
    (proper : origins.All (Proper lenses trees)) :
    ∀ label ∈ (Ynode.innerNodes filling).1.labels, isMarked label = false := by
  have key := Outlines.skipType (.inl rfl) outlines unnamed
  have unnamedBehind := unnamed
  have properBehind := proper
  rw [← append_skipType .ynKey filling] at unnamedBehind
  rw [← append_skipType .ynKey origins] at properBehind
  rw [Ynode.innerNodes, Forest.labels_append]
  refine List.forall_mem_append.mpr
    ⟨Outlines.skipTypeUnmarked (.inl rfl) outlines unnamed proper, ?_⟩
  exact Outlines.skipTypeUnmarked (.inr rfl) key.2 (NoGroupings.append.mp unnamedBehind).2
    (Forest.All.append.mp properBehind).2

/-- The choice of a node is no part of what it stands for. -/
theorem Outlines.otherChoice {node : AyYnode} {kids : Forest AyYnode} (choice : Option Lnode)
    (outlines : Outlines lenses trees known (.cons node kids rest) origins after) :
    Outlines lenses trees known (.cons { node with choice := choice } kids rest) origins after := by
  cases outlines with
  | keep isKept isKin below behind => exact .keep isKept (isKin.otherChoice choice) below behind
  | call isCall defined isPiece behind => exact .call isCall defined isPiece behind
  | define isDefinition isPiece below behind => exact .define isDefinition isPiece below behind

/-- A marked node stands for a node with its mark. -/
theorem Outlines.marked {node : AyYnode} {kids : Forest AyYnode}
    (outlines : Outlines lenses trees known (.cons node kids rest) origins after)
    (unnamed : NoGroupings (.cons node kids rest)) (marked : isMarked node = true) :
    ∃ origin originKids originRest, origins = .cons origin originKids originRest ∧
      (node.type ≠ .ynUses ∧ node.type ≠ .ynGrouping) ∧ Kin node origin ∧ origin.ref = node.ref ∧
      Outlines lenses trees known kids originKids known ∧
      Outlines lenses trees known rest originRest known ∧ after = known := by
  have mark := isMarked_eq_true.mp marked
  cases outlines with
  | @keep _ between _ _ origin _ _ originKids originRest isKept isKin below behind =>
      obtain rfl : between = known := Outlines.after_eq below unnamed.cons.2.1
      obtain rfl : after = between := Outlines.after_eq behind unnamed.cons.2.2
      have sameRef := isKin.mark.resolve_left mark.1
      exact ⟨origin, originKids, originRest, rfl, nodeRole_keep.mp isKept, isKin, sameRef.symm,
        below, behind, rfl⟩
  | call isCall _ _ _ => exact absurd (nodeRole_call.mp isCall).1 mark.2
  | define isDefinition _ _ _ => exact absurd (nodeRole_define.mp isDefinition).1 unnamed.cons.1

end Replace

section Rounds

variable {lenses : Lnode → LensText} {trees : YnodeId → Forest NodeShape} {idcnt : YnodeId}
  {hole other : Hole AyYnode} {node gr uses : AyYnode}
  {kids rest newRest forest origins : Forest AyYnode}
  {known after : Definitions YnodeId NodeShape}

/-- The next id is no name yet. -/
theorem Pending.isFresh (pending : Pending hole forest idcnt)
    (names : ∀ id, known.lookup id ≠ none → ∃ node ∈ (hole.fill forest).labels,
      node.type = .ynGrouping ∧ node.id = id) : known.lookup idcnt = none := by
  by_contra isDefined
  obtain ⟨label, member, isGrouping, sameId⟩ := names idcnt isDefined
  have older : ∀ label ∈ (hole.fill forest).labels, Older idcnt label := by
    apply Hole.forall_labels_fill pending.around.older
    · apply pending.around.unnamed.mono
      exact fun rest unnamed label member isGrouping => absurd isGrouping (unnamed label member)
    · exact fun label member isGrouping => absurd isGrouping (pending.unnamed label member)
  have younger := older label member isGrouping
  rw [sameId] at younger
  exact Nat.lt_irrefl _ younger

/-- The subtree goes into a grouping in front of its uses. -/
theorem Pending.outlinesSubtree (pending : Pending hole (.cons node kids rest) idcnt)
    (outlines : Outlines lenses trees [] (hole.fill (.cons node kids rest)) origins after)
    (proper : origins.All (Proper lenses trees)) (marked : isMarked node = true)
    (ofSubtree : marksChildren node = false) (pairs : hole.Pairs (Swept node.ref idcnt) other)
    (isSwept : Swept node.ref idcnt rest newRest) (isGrouping : gr.type = .ynGrouping)
    (isNamed : gr.id = idcnt) (isUses : uses.type = .ynUses ∧ uses.ref = idcnt)
    (choice : Option Lnode) :
    ∃ newAfter, Outlines lenses trees [] (other.fill (.cons gr
      (.cons { node with ref := 0, choice := choice } kids .nil) (.cons uses .nil newRest))) origins
      newAfter := by
  have nonzero := (isMarked_eq_true.mp marked).1
  have notAbove := pending.around.isNew (Nat.le_refl _)
  obtain ⟨here, part, behind, standsHere, properHere, names, replace⟩ :=
    Outlines.replace nonzero proper (fun empty => by cases empty) outlines pairs
      pending.around.unnamed notAbove
  have isFresh := pending.isFresh names
  obtain ⟨origin, originKids, originRest, rfl, plain, isKin, sameRef, below, standsRest, rfl⟩ :=
    Outlines.marked standsHere pending.unnamed marked
  obtain ⟨isPiece, shape⟩ := properHere.1.subtree properHere.2.1 (sameRef ▸ nonzero)
    (isKin.marksChildren_eq ▸ ofSubtree)
  rw [sameRef] at shape
  have standsNode : Outlines lenses trees behind
      (.cons { node with ref := 0, choice := choice } kids .nil) (.cons origin originKids .nil)
      behind :=
    .keep (nodeRole_keep.mpr plain) (isKin.unmarked.otherChoice choice) below .nil
  have sweptRest := Outlines.sweptBehind standsRest isSwept nonzero isFresh pending.unnamed.cons.2.2
    properHere.2.2
  have standsUses : Outlines lenses trees ((idcnt, trees node.ref) :: behind)
      (.cons uses .nil newRest) ((Forest.cons origin originKids .nil).append originRest)
      ((idcnt, trees node.ref) :: behind) := by
    refine .call (nodeRole_call.mpr isUses) ?_ isPiece sweptRest
    rw [shape]
    exact Forest.lookup_cons_self _ _ _
  refine replace _ _ (.define (nodeRole_define.mpr ⟨isGrouping, isNamed⟩) isPiece standsNode ?_)
    (Extends.fresh _ isFresh) (Forest.lookup_cons_self _ _ _)
  rw [shape]
  exact standsUses

/-- The children go into a grouping between the key, the value and its uses. -/
theorem Pending.outlinesChildren (pending : Pending hole (.cons node kids rest) idcnt)
    (outlines : Outlines lenses trees [] (hole.fill (.cons node kids rest)) origins after)
    (proper : origins.All (Proper lenses trees)) (marked : isMarked node = true)
    (ofChildren : marksChildren node = true) (pairs : hole.Pairs (Swept node.ref idcnt) other)
    (isSwept : Swept node.ref idcnt rest newRest) (isGrouping : gr.type = .ynGrouping)
    (isNamed : gr.id = idcnt) (isUses : uses.type = .ynUses ∧ uses.ref = idcnt)
    {first : AyYnode} {firstKids others : Forest AyYnode}
    (split : (innerNodes kids).2 = .cons first firstKids others) (choice : Option Lnode) :
    ∃ newAfter, Outlines lenses trees [] (other.fill (.cons { node with ref := 0 }
      ((innerNodes kids).1.append (.cons gr
        (.cons { first with choice := choice } firstKids others) (.cons uses .nil .nil)))
      newRest)) origins newAfter := by
  have nonzero := (isMarked_eq_true.mp marked).1
  have notAbove := pending.around.isNew (Nat.le_refl _)
  obtain ⟨here, part, behind, standsHere, properHere, names, replace⟩ :=
    Outlines.replace nonzero proper (fun empty => by cases empty) outlines pairs
      pending.around.unnamed notAbove
  have isFresh := pending.isFresh names
  obtain ⟨origin, originKids, originRest, rfl, plain, isKin, sameRef, below, standsRest, rfl⟩ :=
    Outlines.marked standsHere pending.unnamed marked
  obtain ⟨isPiece, shape⟩ := properHere.1.children properHere.2.1 (sameRef ▸ nonzero)
    (isKin.marksChildren_eq ▸ ofChildren)
  rw [sameRef] at shape
  obtain ⟨standsKeyval, standsInner⟩ := Outlines.innerNodes below pending.unnamed.cons.2.1
  rw [split] at standsInner
  have named := Forest.lookup_cons_self behind idcnt (trees node.ref)
  have standsUses : Outlines lenses trees ((idcnt, trees node.ref) :: behind)
      (.cons uses .nil .nil) ((innerNodes originKids).2.append .nil)
      ((idcnt, trees node.ref) :: behind) :=
    .call (nodeRole_call.mpr isUses) (shape ▸ named) isPiece .nil
  rw [Forest.append_nil] at standsUses
  have standsGrouping : Outlines lenses trees behind (.cons gr
      (.cons { first with choice := choice } firstKids others) (.cons uses .nil .nil))
      (innerNodes originKids).2 ((idcnt, trees node.ref) :: behind) := by
    refine .define (nodeRole_define.mpr ⟨isGrouping, isNamed⟩) isPiece
      (standsInner.otherChoice choice) ?_
    rw [shape]
    exact standsUses
  have standsKids := Unfolds.append standsKeyval standsGrouping
  rw [append_innerNodes] at standsKids
  have sweptRest := Outlines.sweptBehind standsRest isSwept nonzero isFresh pending.unnamed.cons.2.2
    properHere.2.2
  exact replace _ _ (.keep (nodeRole_keep.mpr plain) isKin.unmarked standsKids sweptRest)
    (Extends.fresh _ isFresh) named

/-- The grouping is there; only its uses are new. -/
theorem Pending.outlinesDefined
    (pending : Pending (hole.under gr rest) (.cons node kids .nil) idcnt)
    (outlines : Outlines lenses trees []
      ((hole.under gr rest).fill (.cons node kids .nil)) origins after)
    (proper : origins.All (Proper lenses trees)) (marked : isMarked node = true)
    (ofSubtree : marksChildren node = false) (isGrouping : gr.type = .ynGrouping)
    (pairs : hole.Pairs (Swept node.ref gr.id) other)
    (isSwept : Swept node.ref gr.id rest newRest) : ∃ newAfter, Outlines lenses trees []
      ((other.under gr newRest).fill (.cons { node with ref := 0 } kids .nil)) origins newAfter := by
  have nonzero := (isMarked_eq_true.mp marked).1
  have notAbove : gr.id ∉ groupingsAbove hole := by
    have distinct := pending.around.distinct
    rw [groupingsAbove, Hole.above, List.filter_cons_of_pos (by simpa using isGrouping),
      List.map_cons, List.nodup_cons] at distinct
    exact distinct.1
  obtain ⟨unnamedRest, unnamedHole⟩ := pending.around.unnamed
  obtain ⟨here, part, behind, standsHere, properHere, names, replace⟩ :=
    @Outlines.replace lenses trees node.ref gr.id hole other (.cons gr (.cons node kids .nil) rest)
      origins after nonzero proper (fun empty => by cases empty) outlines pairs unnamedHole notAbove
  cases standsHere with
  | keep isKept _ _ _ => exact absurd isGrouping (nodeRole_keep.mp isKept).2
  | @define _ between _ _ _ _ _ body _ isDefinition isPiece below standsRest =>
      obtain ⟨-, rfl⟩ := nodeRole_define.mp isDefinition
      obtain ⟨origin, originKids, originRest, rfl, plain, isKin, sameRef, standsKids, standsNil,
        rfl⟩ := Outlines.marked below pending.unnamed marked
      cases standsNil
      obtain ⟨-, shape⟩ := isPiece.proper.1.subtree isPiece.proper.2.1 (sameRef ▸ nonzero)
        (isKin.marksChildren_eq ▸ ofSubtree)
      rw [sameRef] at shape
      rw [shape] at standsRest
      have same := Outlines.after_eq standsRest unnamedRest
      subst same
      have named := Forest.lookup_cons_self between gr.id (trees node.ref)
      have sweptRest := isSwept.outlines nonzero named unnamedRest properHere standsRest
      have standsNode : Outlines lenses trees between (.cons { node with ref := 0 } kids .nil)
          (.cons origin originKids .nil) between :=
        .keep (nodeRole_keep.mpr plain) isKin.unmarked standsKids .nil
      refine replace _ _ (.define isDefinition isPiece standsNode ?_) (Extends.refl _) named
      rw [shape]
      exact sweptRest

end Rounds

end SysrepoAugeas.Ynode
