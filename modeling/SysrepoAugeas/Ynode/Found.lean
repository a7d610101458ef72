import SysrepoAugeas.Ynode.Equal

/-!
# Search for equal subtrees

The inner loop of `ay_ynode_set_ref` marks subtrees behind the default one that
have its shape, below their roots or with them; nothing but marks is changed.
-/

namespace SysrepoAugeas.Ynode

open SysrepoAugeas.Data
open Forest (Hole)

section Found

/-- What is left of a node without its mark. -/
def unmark (node : AyYnode) : AyYnode :=
  { node with ref := 0, flags := node.flags &&& ayShapeFlags }

/-- What the inner loop does to the nodes behind the default subtree, which has the id and these
shapes with its root and without it. -/
inductive Found (lenses : Lnode → LensText) (id : YnodeId) (whole inner : Forest NodeShape) :
    Forest AyYnode → Forest AyYnode → Prop
  | nil : Found lenses id whole inner .nil .nil
  | seen {node : AyYnode} {kids rest newRest : Forest AyYnode} (isMarked : node.ref ≠ 0)
      (behind : Found lenses id whole inner rest newRest) :
      Found lenses id whole inner (.cons node kids rest) (.cons node kids newRest)
  | passed {node : AyYnode} {kids rest newKids newRest : Forest AyYnode}
      (below : Found lenses id whole inner kids newKids)
      (behind : Found lenses id whole inner rest newRest) :
      Found lenses id whole inner (.cons node kids rest) (.cons node newKids newRest)
  | subtree {node : AyYnode} {kids rest newRest : Forest AyYnode} (unmarked : node.ref = 0)
      (notKeyval : isKeyval node = false)
      (shape : (Forest.cons node kids .nil).map (nodeShape lenses) = whole)
      (behind : Found lenses id whole inner rest newRest) :
      Found lenses id whole inner (.cons node kids rest)
        (.cons { node with ref := id } kids newRest)
  | children {node : AyYnode} {kids rest newRest : Forest AyYnode} (unmarked : node.ref = 0)
      (notKeyval : isKeyval node = false)
      (shape : (innerNodes kids).2.map (nodeShape lenses) = inner)
      (nonempty : (innerNodes kids).2 ≠ .nil)
      (behind : Found lenses id whole inner rest newRest) :
      Found lenses id whole inner (.cons node kids rest)
        (.cons (addFlags ayGroupingChildren { node with ref := id }) kids newRest)

variable {lenses : Lnode → LensText} {id : YnodeId} {whole inner : Forest NodeShape}
  {forest found : Forest AyYnode}

theorem unmark_addFlags (node : AyYnode) :
    unmark (addFlags ayGroupingChildren { node with ref := id }) = unmark node := by
  have bits : (node.flags ||| ayGroupingChildren) &&& ayShapeFlags =
      node.flags &&& ayShapeFlags := by
    rw [Nat.and_or_distrib_right]
    exact Nat.or_zero _
  simp only [unmark, addFlags, bits]

theorem Found.map_unmark (isFound : Found lenses id whole inner forest found) :
    found.map unmark = forest.map unmark := by
  induction isFound with
  | nil => rfl
  | seen _ _ behindHypothesis => rw [Forest.map, Forest.map, behindHypothesis]
  | passed _ _ belowHypothesis behindHypothesis =>
      rw [Forest.map, Forest.map, belowHypothesis, behindHypothesis]
  | subtree _ _ _ _ behindHypothesis =>
      rw [Forest.map, Forest.map, behindHypothesis]
      rfl
  | children _ _ _ _ _ behindHypothesis =>
      rw [Forest.map, Forest.map, behindHypothesis, unmark_addFlags]

theorem size_of_map_unmark (same : found.map unmark = forest.map unmark) :
    found.size = forest.size := by
  have sizes := congrArg Forest.size same
  rwa [Forest.size_map, Forest.size_map] at sizes

end Found

section Clean

/-- A node of a tree without recursion and groupings, with what the pass relies on. -/
structure Clean (node : AyYnode) (kids : Forest AyYnode) : Prop where
  plain : node.type ≠ .ynUses ∧ node.type ≠ .ynGrouping ∧ node.type ≠ .ynLeafref ∧
    node.type ≠ .ynRec
  keyval : isKeyval node = true → kids = .nil
  keyed : (ayInnerNodes node kids).isSome = true
  inner : ∀ root ∈ (innerNodes kids).2.roots, isKeyval root = false

instance (node : AyYnode) (kids : Forest AyYnode) : Decidable (Clean node kids) :=
  decidable_of_iff ((node.type ≠ .ynUses ∧ node.type ≠ .ynGrouping ∧ node.type ≠ .ynLeafref ∧
      node.type ≠ .ynRec) ∧ (isKeyval node = true → kids = .nil) ∧
    (ayInnerNodes node kids).isSome = true ∧
    ∀ root ∈ (innerNodes kids).2.roots, isKeyval root = false)
    ⟨fun ⟨plain, keyval, keyed, inner⟩ => ⟨plain, keyval, keyed, inner⟩,
    fun clean => ⟨clean.plain, clean.keyval, clean.keyed, clean.inner⟩⟩

variable {node : AyYnode} {kids forest other : Forest AyYnode}

theorem isSome_ayInnerNodes : (ayInnerNodes node kids).isSome =
    !(kids.roots.head?.any fun iter => iter.type == .ynKey && iter.label != node.label) := by
  rw [ayInnerNodes]
  split <;> simp [*]

theorem isSome_ayInnerNodes_map {relabel : AyYnode → AyYnode}
    (sameType : ∀ node, (relabel node).type = node.type)
    (sameLabel : ∀ node, (relabel node).label = node.label) :
    (ayInnerNodes (relabel node) (kids.map relabel)).isSome = (ayInnerNodes node kids).isSome := by
  rw [isSome_ayInnerNodes, isSome_ayInnerNodes]
  cases kids with
  | nil => rfl
  | cons first firstKids others =>
      simp only [Forest.map, Forest.roots, List.head?_cons, Option.any_some, sameType, sameLabel]

theorem clean_unmark : Clean (unmark node) (kids.map unmark) ↔ Clean node kids := by
  have roots : (∀ root ∈ (innerNodes (kids.map unmark)).2.roots, isKeyval root = false) ↔
      ∀ root ∈ (innerNodes kids).2.roots, isKeyval root = false := by
    rw [@innerNodes_map unmark (fun _ => rfl), Forest.roots_map, List.forall_mem_map]
    exact Iff.rfl
  have sameKeyed := @isSome_ayInnerNodes_map node kids unmark (fun _ => rfl) fun _ => rfl
  have noKids : kids.map unmark = .nil ↔ kids = .nil := by
    cases kids with
    | nil => exact ⟨fun _ => rfl, fun _ => rfl⟩
    | cons _ _ _ => exact ⟨(fun empty => nomatch empty), (fun empty => nomatch empty)⟩
  constructor
  · intro clean
    exact ⟨clean.plain, fun isKey => noKids.mp (clean.keyval isKey),
      sameKeyed ▸ clean.keyed, roots.mp clean.inner⟩
  · intro clean
    exact ⟨clean.plain, fun isKey => noKids.mpr (clean.keyval isKey),
      sameKeyed.symm ▸ clean.keyed, roots.mpr clean.inner⟩

theorem all_clean_unmark : (forest.map unmark).All Clean ↔ forest.All Clean := by
  induction forest with
  | nil => exact Iff.rfl
  | cons node kids rest kidsHypothesis restHypothesis =>
      rw [Forest.map, Forest.All, Forest.All, kidsHypothesis, restHypothesis, clean_unmark]

/-- Marks leave a tree clean. -/
theorem all_clean_of_unmark (same : other.map unmark = forest.map unmark)
    (clean : forest.All Clean) : other.All Clean := by
  rw [← all_clean_unmark, same, all_clean_unmark]
  exact clean

end Clean

section Search

variable {lenses : Lnode → LensText} {labels : Lnode → LabelLens} {iti : AyYnode}
  {itiKids itiInner : Forest AyYnode} {alone : Bool} {hole : Hole AyYnode} {node : AyYnode}
  {kids rest forest : Forest AyYnode}

theorem exists_innerNodeAlone (rooted : Rooted hole)
    (clean : (hole.fill (.cons node kids rest)).All Clean) :
    ∃ parent only, (parentIndex (hole.fill (.cons node kids rest)) hole.index).bind
        (nodeAt (hole.fill (.cons node kids rest))) = some parent ∧
      ayYnodeInnerNodeAlone (hole.fill (.cons node kids rest)) hole.index = some only := by
  obtain ⟨front, label, behind, outer, rfl, -⟩ := rooted.exists_parent
  have isParent := @parentIndex_past front kids behind rest outer label node
  have sameFill : ((Hole.under label behind outer).past front).fill (.cons node kids rest) =
      outer.fill (.cons label (front.append (.cons node kids rest)) behind) := by
    rw [Hole.fill_past]
    rfl
  rw [sameFill] at clean isParent ⊢
  have cleanHere := (Forest.All.of_fill outer (fun empty => by cases empty) clean).1.1
  obtain ⟨inner, isInner⟩ := Option.isSome_iff_exists.mp cleanHere.keyed
  refine ⟨label, inner.roots.length == 1 && outer.index + 1 +
    ((front.append (.cons node kids rest)).size - inner.size) ==
      ((Hole.under label behind outer).past front).index, ?_, ?_⟩
  · rw [isParent, Option.bind_some]
    exact nodeAt_fill _ _ _ _
  · simp only [ayYnodeInnerNodeAlone, isParent, nodeAt_fill, childrenAt_fill, isInner,
      Option.bind_eq_bind, Option.bind_some]

theorem exists_ayInnerNodes_withoutWhen (keyed : (ayInnerNodes node kids).isSome = true) :
    ∃ inner, ayInnerNodes (withoutWhen node) (kids.map withoutWhen) = some inner := by
  rw [← Option.isSome_iff_exists]
  rw [@isSome_ayInnerNodes_map node kids withoutWhen (fun _ => rfl) fun _ => rfl]
  exact keyed

/-- A match is a match of shapes. -/
theorem exists_matchSubtree (marking : Marking) (isInner : itiInner = (innerNodes itiKids).2)
    (cleanIti : Clean iti itiKids) (rooted : Rooted hole)
    (clean : (hole.fill (.cons node kids rest)).All Clean)
    (isForest : marking.forest = hole.fill (.cons node kids rest)) :
    ∃ found splittable, matchSubtree lenses labels iti itiKids alone itiInner hole.index marking
        node kids = some (found, splittable) ∧
      (found = .subtree → (Forest.cons node kids .nil).map (nodeShape lenses) =
        (Forest.cons iti itiKids .nil).map (nodeShape lenses)) ∧
      (found = .children → (innerNodes kids).2.map (nodeShape lenses) =
          itiInner.map (nodeShape lenses) ∧ (innerNodes kids).2 ≠ .nil ∧ itiInner ≠ .nil) := by
  obtain ⟨-, only, -, isAlone⟩ := exists_innerNodeAlone rooted clean
  rw [← isForest] at isAlone
  have cleanHere := (Forest.All.of_fill hole (fun empty => by cases empty) clean).1.1
  obtain ⟨inner, hasInner⟩ := Option.isSome_iff_exists.mp cleanHere.keyed
  obtain ⟨innerWhen, hasInnerWhen⟩ := exists_ayInnerNodes_withoutWhen cleanHere.keyed
  obtain ⟨itiWhen, hasItiWhen⟩ := exists_ayInnerNodes_withoutWhen cleanIti.keyed
  obtain ⟨equal, isEqual, equalShape⟩ : ∃ equal, containerEqual lenses iti itiKids alone
      marking.forest hole.index node kids = some equal ∧ (equal = true →
        ayYnodeSubtreeEqualButWhen lenses iti itiKids node kids = true) := by
    rw [containerEqual]
    split
    · exact ⟨false, rfl, fun impossible => by cases impossible⟩
    · cases alone with
      | false =>
          simp only [Bool.false_eq_true, if_false, hasInner, Option.map_some, Option.bind_eq_bind,
            Option.bind_some]
          exact ⟨_, rfl, fun both => (Bool.and_eq_true _ _ ▸ both).2⟩
      | true =>
          simp only [if_true, isAlone, Option.bind_eq_bind, Option.bind_some]
          cases only with
          | true => exact ⟨_, rfl, fun both => (Bool.and_eq_true _ _ ▸ both).2⟩
          | false =>
              simp only [Bool.false_eq_true, if_false, hasInner, Option.map_some, Option.bind_some]
              exact ⟨_, rfl, fun both => (Bool.and_eq_true _ _ ▸ both).2⟩
  obtain ⟨same, isSame⟩ : ∃ same,
      ayYnodeInnerEqualButWhen lenses iti itiKids node kids = some same := by
    simp only [ayYnodeInnerEqualButWhen, ayYnodeInnerEqual, hasItiWhen, hasInnerWhen,
      Option.bind_eq_bind, Option.bind_some]
    split
    · exact ⟨false, rfl⟩
    · exact ⟨_, rfl⟩
  rw [matchSubtree]
  by_cases listEqual : node.type = .ynList ∧
      ayYnodeSubtreeEqualButWhen lenses iti itiKids node kids = true
  · rw [if_pos listEqual]
    exact ⟨.subtree, _, rfl, fun _ => subtree_shape listEqual.2, fun found => by cases found⟩
  · simp only [if_neg listEqual, isEqual, isSame, Option.bind_eq_bind, Option.bind_some]
    cases equal with
    | true =>
        simp only [if_true]
        exact ⟨.subtree, _, rfl, fun _ => subtree_shape (equalShape rfl),
          fun found => by cases found⟩
    | false =>
        simp only [Bool.false_eq_true, if_false]
        by_cases empty : itiInner = .nil
        · rw [if_pos empty]
          exact ⟨.nothing, _, rfl, (fun found => by cases found), fun found => by cases found⟩
        · rw [if_neg empty]
          cases same with
          | false =>
              simp only [Bool.false_eq_true, if_false]
              exact ⟨.nothing, _, rfl, (fun found => by cases found), fun found => by cases found⟩
          | true =>
              simp only [if_true]
              obtain ⟨shape, nonempty⟩ := inner_shape isSame
              rw [← isInner] at shape
              split
              · exact ⟨.nothing, _, rfl, (fun found => by cases found), fun found => by cases found⟩
              · exact ⟨.children, _, rfl, (fun found => by cases found),
                  fun _ => ⟨shape, nonempty, empty⟩⟩

/-- Something has been found. -/
def Marking.Hit (marking : Marking) : Prop :=
  marking.subtreeEq = true ∨ marking.childrenEq ≠ 0

/-- The inner loop finds what has the shape of the default subtree among the nodes of a forest. -/
def Searches (lenses : Lnode → LensText) (labels : Lnode → LabelLens) (iti : AyYnode)
    (itiKids itiInner : Forest AyYnode) (alone : Bool) (hole : Hole AyYnode)
    (forest : Forest AyYnode) (marking : Marking) : Prop :=
  ∃ found after steps, Found lenses iti.id ((Forest.cons iti itiKids .nil).map (nodeShape lenses))
      (itiInner.map (nodeShape lenses)) forest found ∧ steps ≤ forest.size ∧
    after.forest = hole.fill found ∧ (after.childrenEq ≠ 0 → itiInner ≠ .nil) ∧
    (marking.Hit → after.Hit) ∧ (after.Hit ∨ found = forest) ∧
    ∀ fuel, markFrom lenses labels iti itiKids alone itiInner (fuel + steps) hole.index marking =
      markFrom lenses labels iti itiKids alone itiInner fuel (hole.index + forest.size) after

/-- The subtree of the node is not looked into. -/
theorem Searches.skip {newNode : AyYnode} {marking next : Marking}
    (extend : ∀ {found : Forest AyYnode},
      Found lenses iti.id ((Forest.cons iti itiKids .nil).map (nodeShape lenses))
        (itiInner.map (nodeShape lenses)) rest found →
      Found lenses iti.id ((Forest.cons iti itiKids .nil).map (nodeShape lenses))
        (itiInner.map (nodeShape lenses)) (.cons node kids rest) (.cons newNode kids found))
    (keeps : marking.Hit → next.Hit) (hits : next.Hit ∨ newNode = node)
    (runs : ∀ fuel,
      markFrom lenses labels iti itiKids alone itiInner (fuel + 1) hole.index marking =
        markFrom lenses labels iti itiKids alone itiInner fuel (hole.index + kids.size + 1) next)
    (behind : Searches lenses labels iti itiKids itiInner alone (hole.behind newNode kids) rest
      next) :
    Searches lenses labels iti itiKids itiInner alone hole (.cons node kids rest) marking := by
  obtain ⟨found, after, steps, isFound, bound, afterForest, rich, keepsBehind, hitsBehind,
    runsBehind⟩ := behind
  refine ⟨.cons newNode kids found, after, steps + 1, extend isFound, ?_, afterForest, rich,
    fun hit => keepsBehind (keeps hit), ?_, fun fuel => ?_⟩
  · rw [Forest.size]
    omega
  · rcases hits with hit | rfl
    · exact .inl (keepsBehind hit)
    · rcases hitsBehind with hit | same
      · exact .inl hit
      · exact .inr (by rw [same])
  · have last : (hole.behind newNode kids).index + rest.size =
        hole.index + (Forest.cons node kids rest).size := by
      rw [Hole.index, Forest.size]
      omega
    have first : hole.index + kids.size + 1 = (hole.behind newNode kids).index := rfl
    rw [← Nat.add_assoc, runs, first, runsBehind, last]

/-- The loop goes on below the node. -/
theorem Searches.into {marking next : Marking} (keeps : marking.Hit → next.Hit)
    (runs : ∀ fuel,
      markFrom lenses labels iti itiKids alone itiInner (fuel + 1) hole.index marking =
        markFrom lenses labels iti itiKids alone itiInner fuel (hole.index + 1) next)
    (below : Searches lenses labels iti itiKids itiInner alone (hole.under node rest) kids next)
    (behind : ∀ {newKids : Forest AyYnode} {after : Marking},
      newKids.map unmark = kids.map unmark →
      after.forest = (hole.behind node newKids).fill rest →
      (after.childrenEq ≠ 0 → itiInner ≠ .nil) →
      Searches lenses labels iti itiKids itiInner alone (hole.behind node newKids) rest after) :
    Searches lenses labels iti itiKids itiInner alone hole (.cons node kids rest) marking := by
  obtain ⟨newKids, between, steps, isFound, bound, betweenForest, rich, keepsBelow, hitsBelow,
    runsBelow⟩ := below
  have same := isFound.map_unmark
  obtain ⟨newRest, after, more, isFoundBehind, boundBehind, afterForest, richBehind, keepsBehind,
    hitsBehind, runsBehind⟩ := behind same betweenForest rich
  refine ⟨.cons node newKids newRest, after, more + steps + 1, .passed isFound isFoundBehind, ?_,
    afterForest, richBehind, fun hit => keepsBehind (keepsBelow (keeps hit)), ?_, fun fuel => ?_⟩
  · rw [Forest.size]
    omega
  · rcases hitsBelow with hit | rfl
    · exact .inl (keepsBehind hit)
    · rcases hitsBehind with hit | same
      · exact .inl hit
      · exact .inr (by rw [same])
  · have middle : (hole.under node rest).index + kids.size = (hole.behind node newKids).index := by
      rw [Hole.index, Hole.index, size_of_map_unmark same]
      omega
    have last : (hole.behind node newKids).index + rest.size =
        hole.index + (Forest.cons node kids rest).size := by
      rw [Hole.index, Forest.size, size_of_map_unmark same]
      omega
    have first : hole.index + 1 = (hole.under node rest).index := rfl
    rw [← Nat.add_assoc, runs, first, ← Nat.add_assoc, runsBelow, middle, runsBehind, last]

theorem Searches.nil {marking : Marking} (isForest : marking.forest = hole.fill .nil)
    (rich : marking.childrenEq ≠ 0 → itiInner ≠ .nil) :
    Searches lenses labels iti itiKids itiInner alone hole .nil marking :=
  ⟨.nil, marking, 0, .nil, Nat.le_refl _, isForest, rich, fun hit => hit, .inr rfl, fun _ => rfl⟩

/-- The node is compared with the default subtree. -/
theorem Searches.compared {marking : Marking} (isInner : itiInner = (innerNodes itiKids).2)
    (cleanIti : Clean iti itiKids) (notKeyval : isKeyval iti = false) (rooted : Rooted hole)
    (clean : (hole.fill (.cons node kids rest)).All Clean)
    (isForest : marking.forest = hole.fill (.cons node kids rest)) (unmarked : node.ref = 0)
    (free : ¬ (node.whenRef ≠ 0 ∨ ayYnodeWhenPathsAreValidToRoot node kids = false))
    (rich : marking.childrenEq ≠ 0 → itiInner ≠ .nil)
    (passed : ∀ next : Marking, next.forest = hole.fill (.cons node kids rest) →
      (next.childrenEq ≠ 0 → itiInner ≠ .nil) → (marking.Hit → next.Hit) →
      (∀ fuel, markFrom lenses labels iti itiKids alone itiInner (fuel + 1) hole.index marking =
        markFrom lenses labels iti itiKids alone itiInner fuel (hole.index + 1) next) →
      Searches lenses labels iti itiKids itiInner alone hole (.cons node kids rest) marking)
    (behind : ∀ (newNode : AyYnode) (next : Marking), unmark newNode = unmark node →
      next.forest = hole.fill (.cons newNode kids rest) →
      (next.childrenEq ≠ 0 → itiInner ≠ .nil) →
      Searches lenses labels iti itiKids itiInner alone (hole.behind newNode kids) rest next) :
    Searches lenses labels iti itiKids itiInner alone hole (.cons node kids rest) marking := by
  have isNode : nodeAt marking.forest hole.index = some node := by
    rw [isForest]
    exact nodeAt_fill _ _ _ _
  have isKids : childrenAt marking.forest hole.index = kids := by
    rw [isForest]
    exact childrenAt_fill _ _ _ _
  have edited : ∀ change : AyYnode → AyYnode, editAt change hole.index marking.forest =
      hole.fill (.cons (change node) kids rest) := by
    intro change
    rw [isForest]
    exact editAt_fill _ _ _ _ _
  have notSeen : ¬ node.ref ≠ 0 := not_not.mpr unmarked
  have cleanHere := (Forest.All.of_fill hole (fun empty => by cases empty) clean).1.1
  obtain ⟨found, splittable, isMatch, whole, inner⟩ :=
    @exists_matchSubtree lenses labels iti itiKids itiInner alone hole node kids rest marking
      isInner cleanIti rooted clean isForest
  cases found with
  | subtree =>
      have sameType : node.type = iti.type := by
        have shape := whole rfl
        rw [Forest.map, Forest.map] at shape
        injection shape with shape _ _
        exact congrArg NodeShape.type shape
      have notKey : isKeyval node = false := by
        rw [isKeyval, sameType]
        exact notKeyval
      refine .skip (.subtree unmarked notKey (whole rfl)) (fun _ => .inl rfl) (.inl (.inl rfl))
        (fun fuel => ?_) (behind { node with ref := iti.id } { marking with
          forest := hole.fill (.cons { node with ref := iti.id } kids rest)
          subtreeEq := true } rfl rfl rich)
      rw [markFrom, isNode]
      simp only [isKids, if_neg notSeen, if_neg free, isMatch, Option.bind_eq_bind,
        Option.bind_some, edited]
  | children =>
      obtain ⟨shape, nonempty, isRich⟩ := inner rfl
      have notKey : isKeyval node = false := by
        apply Bool.eq_false_of_not_eq_true
        intro isKey
        rw [cleanHere.keyval isKey] at nonempty
        exact nonempty rfl
      refine .skip (.children unmarked notKey shape nonempty) (fun _ => .inr (Nat.succ_ne_zero _))
        (.inl (.inr (Nat.succ_ne_zero _))) (fun fuel => ?_)
        (behind (addFlags ayGroupingChildren { node with ref := iti.id }) { marking with
          forest := hole.fill
            (.cons (addFlags ayGroupingChildren { node with ref := iti.id }) kids rest)
          childrenEq := marking.childrenEq + 1
          splittable := splittable } (unmark_addFlags node) rfl fun _ => isRich)
      rw [markFrom, isNode]
      simp only [isKids, if_neg notSeen, if_neg free, isMatch, Option.bind_eq_bind,
        Option.bind_some, edited]
  | nothing =>
      refine passed { marking with splittable := splittable } isForest rich (fun hit => hit)
        fun fuel => ?_
      rw [markFrom, isNode]
      simp only [isKids, if_neg notSeen, if_neg free, isMatch, Option.bind_eq_bind,
        Option.bind_some]

theorem searches (isInner : itiInner = (innerNodes itiKids).2) (cleanIti : Clean iti itiKids)
    (notKeyval : isKeyval iti = false)
    (rooted : Rooted hole) (clean : (hole.fill forest).All Clean) (marking : Marking)
    (isForest : marking.forest = hole.fill forest)
    (rich : marking.childrenEq ≠ 0 → itiInner ≠ .nil) :
    Searches lenses labels iti itiKids itiInner alone hole forest marking := by
  induction forest generalizing hole marking with
  | nil => exact .nil isForest rich
  | cons node kids rest kidsHypothesis restHypothesis =>
      have cleanAs : ∀ {filling : Forest AyYnode},
          filling.map unmark = (Forest.cons node kids rest).map unmark →
          (hole.fill filling).All Clean := fun same =>
        all_clean_of_unmark (Hole.map_fill_congr unmark hole same) clean
      have isNode : nodeAt marking.forest hole.index = some node := by
        rw [isForest]
        exact nodeAt_fill _ _ _ _
      have isKids : childrenAt marking.forest hole.index = kids := by
        rw [isForest]
        exact childrenAt_fill _ _ _ _
      -- the subtree is not what is looked for
      have passed : ∀ next : Marking, next.forest = hole.fill (.cons node kids rest) →
          (next.childrenEq ≠ 0 → itiInner ≠ .nil) → (marking.Hit → next.Hit) →
          (∀ fuel,
            markFrom lenses labels iti itiKids alone itiInner (fuel + 1) hole.index marking =
              markFrom lenses labels iti itiKids alone itiInner fuel (hole.index + 1) next) →
          Searches lenses labels iti itiKids itiInner alone hole (.cons node kids rest)
            marking := by
        intro next nextForest nextRich keeps runs
        refine .into keeps runs (@kidsHypothesis (hole.under node rest) (.inl rooted) clean next
          nextForest nextRich) ?_
        intro newKids after same afterForest afterRich
        refine @restHypothesis (hole.behind node newKids) rooted ?_ after afterForest afterRich
        exact cleanAs (by rw [Forest.map, Forest.map, same])
      by_cases seen : node.ref ≠ 0
      · refine .skip (.seen seen) (fun hit => hit) (.inr rfl) (fun fuel => ?_)
          (@restHypothesis (hole.behind node kids) rooted clean marking isForest rich)
        rw [markFrom, isNode]
        simp only [isKids, if_pos seen]
      · by_cases restricted : node.whenRef ≠ 0 ∨ ayYnodeWhenPathsAreValidToRoot node kids = false
        · refine passed marking isForest rich (fun hit => hit) fun fuel => ?_
          rw [markFrom, isNode]
          simp only [isKids, if_neg seen, if_pos restricted]
        · refine .compared isInner cleanIti notKeyval rooted clean isForest (not_not.mp seen)
            restricted rich passed fun newNode next same nextForest nextRich => ?_
          apply restHypothesis _ _ next nextForest nextRich
          · exact rooted
          · exact @cleanAs (.cons newNode kids rest) (by rw [Forest.map, Forest.map, same])

/-- The inner loop up to the end of the array. -/
theorem markFrom_behind (isInner : itiInner = (innerNodes itiKids).2) (cleanIti : Clean iti itiKids)
    (notKeyval : isKeyval iti = false)
    (rooted : Rooted hole ∨ hole = .top) {filling : Forest AyYnode}
    (clean : (hole.fill filling).All Clean) (marking : Marking)
    (isForest : marking.forest = hole.fill filling)
    (rich : marking.childrenEq ≠ 0 → itiInner ≠ .nil) {fuel : Nat}
    (enough : hole.back.length < fuel) :
    ∃ other after, hole.Pairs (Found lenses iti.id
        ((Forest.cons iti itiKids .nil).map (nodeShape lenses)) (itiInner.map (nodeShape lenses)))
        other ∧
      after.forest = other.fill filling ∧ (after.childrenEq ≠ 0 → itiInner ≠ .nil) ∧
      (marking.Hit → after.Hit) ∧ (after.Hit ∨ other = hole) ∧
      markFrom lenses labels iti itiKids alone itiInner fuel (hole.index + filling.size) marking =
        some after := by
  induction hole generalizing filling marking fuel with
  | top =>
      refine ⟨.top, marking, .top, isForest, rich, (fun hit => hit), .inr rfl, ?_⟩
      obtain ⟨left, rfl⟩ : ∃ left, fuel = left + 1 := ⟨fuel - 1, by omega⟩
      have outside : nodeAt marking.forest ((Hole.top : Hole AyYnode).index + filling.size) =
          none := by
        rw [isForest]
        exact nodeAt_of_ge (Nat.le_add_left _ _)
      rw [markFrom, outside]
  | behind label inside outer inductionHypothesis =>
      have rootedOuter : Rooted outer := rooted.elim id fun same => by cases same
      obtain ⟨other, after, pairs, afterForest, afterRich, keeps, hits, runs⟩ :=
        @inductionHypothesis (.inl rootedOuter) (.cons label inside filling) clean marking isForest
          rich fuel enough
      refine ⟨.behind label inside other, after, .behind label inside pairs, afterForest, afterRich,
        keeps, hits.imp_right (congrArg (Hole.behind label inside)), ?_⟩
      have place : (outer.behind label inside).index + filling.size =
          outer.index + (Forest.cons label inside filling).size := by
        rw [Hole.index, Forest.size]
        omega
      rw [place]
      exact runs
  | under label rest outer inductionHypothesis =>
      have below : Rooted outer ∨ (outer = .top ∧ rest = .nil) := by
        rcases rooted with (rootedOuter | ⟨isTop, isNil, -⟩) | same
        · exact .inl rootedOuter
        · exact .inr ⟨isTop, isNil⟩
        · cases same
      have searched : Searches lenses labels iti itiKids itiInner alone
          (outer.behind label filling) rest marking := by
        rcases below with rootedOuter | ⟨-, rfl⟩
        · have rootedPlace : Rooted (outer.behind label filling) := rootedOuter
          exact searches isInner cleanIti notKeyval rootedPlace clean marking isForest rich
        · exact .nil isForest rich
      obtain ⟨newRest, between, steps, isFound, bound, betweenForest, betweenRich, keepsHere,
        hitsHere, runsHere⟩ := searched
      have same := isFound.map_unmark
      have backLength : (outer.under label rest).back.length = rest.size + outer.back.length := by
        rw [Hole.back, List.length_append, Forest.length_flat]
      obtain ⟨left, rfl⟩ : ∃ left, fuel = left + steps := ⟨fuel - steps, by omega⟩
      obtain ⟨other, after, pairs, afterForest, afterRich, keeps, hits, runs⟩ :=
        @inductionHypothesis (below.imp_right And.left) (.cons label filling newRest)
          (all_clean_of_unmark (Hole.map_fill_congr unmark outer
            (by rw [Forest.map, Forest.map, same])) clean) between betweenForest betweenRich left
          (by omega)
      refine ⟨.under label newRest other, after, .under label isFound pairs, afterForest, afterRich,
        fun hit => keeps (keepsHere hit), ?_, ?_⟩
      · rcases hitsHere with hit | rfl
        · exact .inl (keeps hit)
        · exact hits.imp_right (congrArg (Hole.under label _))
      · have place : (outer.under label rest).index + filling.size =
            (outer.behind label filling).index := Nat.add_right_comm _ _ _
        have last : (outer.behind label filling).index + rest.size =
            outer.index + (Forest.cons label filling newRest).size := by
          rw [Hole.index, Forest.size, size_of_map_unmark same]
          omega
        rw [place, runsHere, last]
        exact runs

end Search

end SysrepoAugeas.Ynode
