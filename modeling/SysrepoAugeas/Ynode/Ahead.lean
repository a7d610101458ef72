import SysrepoAugeas.Ynode.Groupings

/-!
# Groupings moved ahead

One grouping after the other becomes the last child of the root.  A grouping is
not seen from the node it is taken from, so every other node keeps its parent,
its siblings and the uses below it.
-/

namespace SysrepoAugeas.Ynode

open SysrepoAugeas.Data

section Contents

/-! Moves change only links and counts of descendants. -/

/-- A node without its place in the tree. -/
def AyYnode.contents (node : AyYnode) : AyYnode :=
  { node with parent := none, next := none, child := none, descendants := 0 }

def contents (nodes : List AyYnode) : List AyYnode := nodes.map AyYnode.contents

variable {tree after : YnodeTree} {dst src : Nat}

theorem contents_move {moved : YnodeTree} {lower raised : Nat → Nat} {start parent : Option Nat}
    (ran : ayYnodeMoveSubtree { tree with
        nodes := onAncestors raised start (onAncestors lower parent tree.nodes) } dst src =
      some moved) :
    (contents (ayYnodeTreeCorrection moved.nodes)).Perm (contents tree.nodes) := by
  have perm := (ayYnodeMoveSubtree_perm ran).1.map AyYnode.contents
  have told : ∀ change start nodes, contents (onAncestors change start nodes) = contents nodes :=
    onAncestors_same fun _ _ => rfl
  rw [contents, treeCorrection_same fun _ _ _ _ => rfl]
  apply perm.trans
  rw [← contents, told, told]

theorem contents_moveAsSibling (ran : ayYnodeMoveSubtreeAsSibling tree dst src = some after) :
    (contents after.nodes).Perm (contents tree.nodes) := by
  simp only [ayYnodeMoveSubtreeAsSibling, Option.bind_eq_bind, Option.bind_eq_some_iff] at ran
  obtain ⟨dstNode, -, srcNode, -, ran⟩ := ran
  split at ran
  · rw [← Option.some.inj ran]
  · obtain ⟨moved, ran, equality⟩ := Option.bind_eq_some_iff.mp ran
    rw [← Option.some.inj equality]
    exact contents_move ran

theorem contents_moveAsChild (ran : ayYnodeMoveSubtreeAsChild tree dst src = some after) :
    (contents after.nodes).Perm (contents tree.nodes) := by
  simp only [ayYnodeMoveSubtreeAsChild, Option.bind_eq_bind, Option.bind_eq_some_iff] at ran
  obtain ⟨dstNode, -, srcNode, -, ran⟩ := ran
  split at ran
  · rw [← Option.some.inj ran]
  · obtain ⟨moved, ran, equality⟩ := Option.bind_eq_some_iff.mp ran
    rw [← Option.some.inj equality]
    exact contents_move ran

theorem contents_moveAsLastChild (ran : ayYnodeMoveSubtreeAsLastChild tree dst src = some after) :
    (contents after.nodes).Perm (contents tree.nodes) := by
  simp only [ayYnodeMoveSubtreeAsLastChild, Option.bind_eq_bind] at ran
  split at ran
  · rw [← Option.some.inj ran]
  · obtain ⟨dstNode, -, ran⟩ := Option.bind_eq_some_iff.mp ran
    split at ran
    · exact contents_moveAsSibling ran
    · exact contents_moveAsChild ran

end Contents

section Moves

variable {tree : YnodeTree} {root : Core} {kids : Forest Core} {id : YnodeId}

theorem nodup_of_fill {hole : Forest.Hole Core} {filling : Forest Core}
    (distinct : (hole.fill filling).labels.Nodup) : filling.labels.Nodup := by
  rw [Forest.labels, Forest.Hole.flat_fill, List.map_append, List.map_append] at distinct
  exact (List.nodup_append.mp (List.nodup_append.mp distinct).2.1).1

/-- A label below a hole is missing among the roots at most. -/
theorem roots_fill_erase {label : Core} {filling left : Forest Core} (hole : Forest.Hole Core)
    (distinct : (hole.fill filling).labels.Nodup) (isBelow : label ∈ filling.labels)
    (erased : left.roots = filling.roots.erase label) :
    (hole.fill left).roots = (hole.fill filling).roots.erase label := by
  induction hole generalizing filling left with
  | top => exact erased
  | behind other kids outer inductionHypothesis =>
      have here := @nodup_of_fill outer _ distinct
      rw [Forest.labels_cons, List.nodup_cons, List.mem_append] at here
      apply inductionHypothesis distinct
      · simp [isBelow]
      · have differs : other ≠ label := by
          rintro rfl
          exact here.1 (.inr isBelow)
        rw [Forest.roots, Forest.roots, erased, List.erase_cons_tail (by simpa using differs)]
  | under other rest outer inductionHypothesis =>
      have here := @nodup_of_fill outer _ distinct
      rw [Forest.labels_cons, List.nodup_cons, List.mem_append, List.nodup_append] at here
      apply inductionHypothesis distinct
      · simp [isBelow]
      · rw [Forest.roots, Forest.roots, List.erase_of_not_mem]
        intro member
        rcases List.mem_cons.mp member with rfl | inRest
        · exact here.1 (.inl isBelow)
        · exact here.2.2.2 label isBelow label (rest.roots_sublist.subset inRest) rfl

/-- The tree at an index below the root becomes its last child. -/
theorem relocate_below_root {hole : Forest.Hole Core} {label : Core} {grKids rest : Forest Core} :
    relocate addLast 0 (hole.index + 1)
        (.cons root (hole.fill (.cons label grKids rest)) .nil) =
      .cons root ((hole.fill rest).append (.cons label grKids .nil)) .nil := by
  have bound : hole.index < (hole.fill (.cons label grKids rest)).size := by
    rw [Forest.Hole.size_fill, Forest.size]
    omega
  have ahead : Forest.unshift (hole.index + 1) (Forest.cons label grKids .nil).size 0 = 0 := by
    rw [Forest.unshift, if_pos (by omega)]
  rw [relocate, Forest.treeAt, if_pos bound, Forest.Hole.treeAt_fill, Forest.modifyAt,
    if_pos bound, Forest.Hole.modifyAt_fill, ahead, Forest.modifyAt, addLast, Forest.cut]

theorem Encodes.below_root {nodes : List AyYnode} (encodes : Encodes nodes (.cons root kids .nil)) :
    ∃ rootNode below, nodes = rootNode :: below ∧ rootNode.core = root ∧
      Ynode.cells below = kids.flat := by
  obtain ⟨rootNode, below, rest, rfl, rootCell, kidCells, restCells⟩ :=
    exists_split_of_cells encodes.cells
  obtain rfl : rest = [] := by simpa [Ynode.cells, Forest.flat] using restCells
  exact ⟨rootNode, below, by simp, congrArg Prod.fst rootCell, kidCells⟩

theorem mem_labels_iff {nodes : List AyYnode} (encoded : cells nodes = kids.flat) {core : Core} :
    core ∈ kids.labels ↔ ∃ node ∈ nodes, node.core = core := by
  rw [Forest.labels, ← encoded, cells, List.map_map, List.mem_map]
  rfl

/-- The node that a grouping is searched by. -/
theorem exists_found {nodes : List AyYnode} (encodes : Encodes nodes (.cons root kids .nil))
    (distinct : (kids.labels.map Core.id).Nodup) {gr : Core} (isLabel : gr ∈ kids.labels) :
    ∃ (hole : Forest.Hole Core) (grKids rest : Forest Core),
      kids = hole.fill (.cons gr grKids rest) ∧
      ((List.range nodes.length).drop 1).find? (fun j =>
        nodes[j]?.any fun node => node.id == gr.id) = some (hole.index + 1) := by
  obtain ⟨rootNode, below, rfl, -, belowCells⟩ := encodes.below_root
  obtain ⟨node, isBelow, rfl⟩ := (mem_labels_iff belowCells).mp isLabel
  cases found : ((List.range (rootNode :: below).length).drop 1).find? fun j =>
      (rootNode :: below)[j]?.any fun other => other.id == node.core.id with
  | none =>
      obtain ⟨position, bound, isNode⟩ := List.mem_iff_getElem.mp isBelow
      have inRange : position + 1 ∈ (List.range (rootNode :: below).length).drop 1 :=
        mem_indices.mpr ⟨Nat.succ_pos _, by simpa using bound⟩
      have differs := List.find?_eq_none.mp found _ inRange
      simp [isNode, List.getElem?_eq_getElem bound, AyYnode.core] at differs
  | some j =>
      have isId := List.find?_some found
      obtain ⟨positive, bound⟩ := mem_indices.mp (List.mem_of_find?_eq_some found)
      obtain ⟨position, rfl⟩ : ∃ position, j = position + 1 := ⟨j - 1, by omega⟩
      have inKids : position < kids.size := by
        rw [List.length_cons, length_of_cells belowCells] at bound
        omega
      obtain ⟨hole, label, grKids, rest, rfl, rfl⟩ := Forest.Hole.exists_of_lt_size inKids
      have cell := Forest.Hole.getElem_flat_fill hole label grKids rest
      rw [← belowCells, cells, List.getElem?_map, Option.map_eq_some_iff] at cell
      obtain ⟨other, otherAt, isCell⟩ := cell
      have core : other.core = label := congrArg Prod.fst isCell
      have sameId : other.core.id = node.core.id := by
        rw [List.getElem?_cons_succ, otherAt, Option.any_some, beq_iff_eq] at isId
        exact isId
      have isOther := (mem_labels_iff belowCells).mpr ⟨other, List.mem_of_getElem? otherAt, rfl⟩
      have same := List.inj_on_of_nodup_map distinct isOther isLabel sameId
      rw [← core, same]
      exact ⟨hole, grKids, rest, rfl, rfl⟩

/-- What holds while the groupings `done` have been moved. -/
structure Moved (tree : YnodeTree) (root : Core) (kids : Forest Core) (done : List YnodeId)
    (after : YnodeTree) (left : Forest Core) : Prop where
  encodes : Encodes after.nodes (.cons root left .nil)
  room : after.nodes.length ≤ after.arrsize
  same : (contents after.nodes).Perm (contents tree.nodes)
  plain : plainRoots left = plainRoots kids
  kept : (places left).Perm (places kids)
  atEnd : ∃ others last, left.roots = others ++ last ∧ last.map Core.id = done

theorem Moved.labels {after : YnodeTree} {left : Forest Core} {done : List YnodeId}
    (moved : Moved tree root kids done after left) : left.labels.Perm kids.labels := by
  rw [← map_node_places, ← map_node_places]
  exact moved.kept.map _

theorem moveGrouping_moved {after : YnodeTree} {left : Forest Core} {done : List YnodeId}
    (distinct : (kids.labels.map Core.id).Nodup) (moved : Moved tree root kids done after left)
    {gr : Core} (grouping : isGrouping gr = true) (isLabel : gr ∈ kids.labels)
    (notDone : gr.id ∉ done) :
    ∃ next nextKids, moveGrouping after gr.id = some next ∧
      Moved tree root kids (done ++ [gr.id]) next nextKids := by
  have leftDistinct := (moved.labels.map Core.id).nodup_iff.mpr distinct
  obtain ⟨hole, grKids, rest, rfl, found⟩ :=
    exists_found moved.encodes leftDistinct (moved.labels.mem_iff.mpr isLabel)
  have takes := (takes_grouping grouping grKids rest).fill hole
  have bound : hole.index < (hole.fill (.cons gr grKids rest)).size := by
    rw [Forest.Hole.size_fill, Forest.size]
    omega
  obtain ⟨next, fresh, -, ran, edited⟩ := @ayYnodeMoveSubtreeAsLastChild_moves _ _ 0
    (hole.index + 1) moved.encodes ⟨root, _, rfl⟩ moved.room (by omega)
    (by rw [Forest.size]; omega) (by rw [Forest.size]; omega) (.inl (by omega))
  rw [relocate_below_root] at edited
  have permuted := contents_moveAsLastChild ran
  refine ⟨next, _, ?_, edited.encodes, ?_, permuted.trans moved.same, ?_, ?_, ?_⟩
  · rw [moveGrouping, found, Option.elim_some, ran]
  · have sameLength := permuted.length_eq
    rw [contents, contents, List.length_map, List.length_map] at sameLength
    rw [sameLength, edited.arrsize]
    exact moved.room
  · rw [plainRoots_append, ← takes.roots, moved.plain]
    simp [plainRoots, Forest.roots, grouping]
  · rw [places_append]
    exact takes.places.symm.trans moved.kept
  · obtain ⟨others, last, rootsEq, rfl⟩ := moved.atEnd
    refine ⟨others.erase gr, last ++ [gr], ?_, by simp⟩
    have notLast : gr ∉ last := fun isLast => notDone (List.mem_map_of_mem isLast)
    have erased := @roots_fill_erase gr _ rest hole leftDistinct.of_map
      (by simp) (by simp [Forest.roots])
    rw [Forest.roots_append, erased, rootsEq, Forest.roots, Forest.roots, ← List.append_assoc]
    congr 1
    rw [List.erase_append]
    split
    · rfl
    · rename_i notOther
      rw [List.erase_of_not_mem notLast, List.erase_of_not_mem notOther]

theorem moveGroupings_moved {after : YnodeTree} {left : Forest Core} {done : List YnodeId}
    (distinct : (kids.labels.map Core.id).Nodup) (moved : Moved tree root kids done after left)
    (todo : List YnodeId)
    (groupings : ∀ id ∈ todo, ∃ gr ∈ kids.labels, isGrouping gr = true ∧ gr.id = id)
    (once : (done ++ todo).Nodup) :
    ∃ next nextKids, todo.foldlM moveGrouping after = some next ∧
      Moved tree root kids (done ++ todo) next nextKids := by
  induction todo generalizing after left done with
  | nil => exact ⟨after, left, rfl, by rwa [List.append_nil]⟩
  | cons id todo inductionHypothesis =>
      obtain ⟨gr, isLabel, grouping, rfl⟩ := groupings id (.head _)
      have notDone : gr.id ∉ done := fun isDone =>
        (List.nodup_append.mp once).2.2 gr.id isDone gr.id (.head _) rfl
      obtain ⟨next, nextKids, ran, nextMoved⟩ := moveGrouping_moved distinct moved grouping isLabel
        notDone
      rw [List.append_cons] at once ⊢
      obtain ⟨final, finalKids, rest, finalMoved⟩ := inductionHypothesis nextMoved
        (fun id member => groupings id (.tail _ member)) once
      refine ⟨final, finalKids, ?_, finalMoved⟩
      rw [List.foldlM_cons, ran]
      exact rest

theorem exists_concat {forest : Forest Core} (nonempty : forest ≠ .nil) :
    ∃ (front : Forest Core) (label : Core) (kids : Forest Core),
      forest = front.append (.cons label kids .nil) := by
  induction forest with
  | nil => exact absurd rfl nonempty
  | cons label kids rest _ inductionHypothesis =>
      cases rest with
      | nil => exact ⟨.nil, label, kids, rfl⟩
      | cons next nextKids others =>
          obtain ⟨front, last, lastKids, split⟩ := inductionHypothesis (by simp)
          exact ⟨.cons label kids front, last, lastKids, by rw [split, Forest.append]⟩

/-- The main list goes behind the groupings. -/
theorem moveMainList_runs {main : Core} {mainKids ahead : Forest Core}
    (encodes : Encodes tree.nodes (.cons root (.cons main mainKids ahead) .nil))
    (room : tree.nodes.length ≤ tree.arrsize) (mainType : main.type = .ynList)
    (groupings : ∀ core ∈ ahead.roots, isGrouping core = true) :
    ∃ after, moveMainList tree = some after ∧
      Encodes after.nodes (.cons root (ahead.append (.cons main mainKids .nil)) .nil) ∧
      (contents after.nodes).Perm (contents tree.nodes) := by
  obtain ⟨rootNode, rootAt, -, -, -, -, child⟩ := @Encodes.node_in _ .top _ _ _ encodes
  obtain ⟨mainNode, mainAt, mainCore, -⟩ :=
    @Encodes.node_in _ (.under root .nil .top) _ _ _ encodes
  have mainList : mainNode.type = .ynList := by rw [← mainType, ← mainCore]; rfl
  have visited := @siblingsFrom_eq _ (.cons main mainKids ahead) (.under root .nil .top) encodes
  simp only [Forest.Hole.index, Nat.zero_add] at rootAt mainAt child visited
  rw [if_neg (by simp [Forest.size])] at child visited
  by_cases alone : ahead = .nil
  · subst alone
    refine ⟨tree, ?_, encodes, List.Perm.refl _⟩
    simp [moveMainList, rootAt, child, mainAt, mainList, ayYnodeGetLast, visited, rootIndices]
  · obtain ⟨front, label, kids, rfl⟩ := exists_concat alone
    have isLast := getLast_rootIndices_append (.cons main mainKids front) label kids 1
    rw [Forest.append, ← visited, ← ayYnodeGetLast] at isLast
    have atLast : Encodes tree.nodes ((Forest.Hole.past front
        (.behind main mainKids (.under root .nil .top))).fill (.cons label kids .nil)) := by
      rw [Forest.Hole.fill_past]
      exact encodes
    obtain ⟨lastNode, lastAt, lastCore, -⟩ := atLast.node_in
    have notList : lastNode.type ≠ .ynList := by
      have grouping := groupings label (by simp [Forest.roots])
      rw [isGrouping, decide_eq_true_eq, ← lastCore] at grouping
      rw [show lastNode.type = .ynGrouping from grouping]
      decide
    have lastIndex : (Forest.Hole.past front
        (.behind main mainKids (.under root .nil .top))).index =
          1 + (Forest.cons main mainKids front).size := by
      simp [Forest.Hole.index, Forest.size]
      omega
    rw [lastIndex] at lastAt
    have outside : Outside (.cons root (.cons main mainKids (front.append (.cons label kids .nil)))
        .nil) (1 + (Forest.cons main mainKids front).size) 1 := by
      have size := congrArg Forest.size (@Forest.Hole.treeAt_fill _ (.under root .nil .top) main
        mainKids (front.append (.cons label kids .nil)))
      simp only [Forest.Hole.index, Forest.Hole.fill, Forest.size, Nat.zero_add] at size
      apply Or.inr
      rw [size, Forest.size]
      omega
    obtain ⟨after, fresh, -, ran, edited⟩ := ayYnodeMoveSubtreeAsSibling_moves encodes
      ⟨root, _, rfl⟩ room Nat.one_ne_zero (by simp [Forest.size]) (by simp [Forest.size])
      (by simp only [Forest.size, Forest.size_append]; omega) outside
    have relocated := @relocate_fill (1 + (Forest.cons main mainKids front).size)
      (.under root .nil .top) (Forest.Hole.past front (.under root .nil .top)) main label mainKids
      (front.append (.cons label kids .nil)) kids .nil addBehind (by rw [Forest.Hole.fill_past]) (by
        simp [Forest.Hole.index, Forest.size, Forest.unshift]
        omega)
    refine ⟨after, ?_, ?_, contents_moveAsSibling ran⟩
    · simp [moveMainList, rootAt, child, mainAt, mainList, isLast, lastAt, notList, ran]
    · have moved := edited.encodes
      rw [Forest.Hole.fill_past] at relocated
      simp only [Forest.Hole.index, Forest.Hole.fill, Nat.zero_add, addBehind,
        Forest.append] at relocated
      rw [relocated] at moved
      rw [Forest.append_assoc]
      exact moved

/-- When all groupings have been moved, they follow the other children of the root. -/
theorem Moved.roots {sorted : List YnodeId} {after : YnodeTree} {left : Forest Core}
    (distinct : (kids.labels.map Core.id).Nodup) (moved : Moved tree root kids sorted after left)
    (all : ∀ id, id ∈ sorted ↔ ∃ gr ∈ kids.labels, isGrouping gr = true ∧ gr.id = id) :
    ∃ last, left.roots = plainRoots kids ++ last ∧ last.map Core.id = sorted ∧
      ∀ core ∈ left.labels, isGrouping core = true ↔ core ∈ last := by
  obtain ⟨others, last, rootsEq, rfl⟩ := moved.atEnd
  have leftDistinct := (moved.labels.map Core.id).nodup_iff.mpr distinct
  have isLabel : ∀ core ∈ others ++ last, core ∈ left.labels := fun core member =>
    left.roots_sublist.subset (rootsEq ▸ member)
  have rootsDistinct : ((others ++ last).map Core.id).Nodup :=
    leftDistinct.sublist (rootsEq ▸ left.roots_sublist.map Core.id)
  have isLast : ∀ core ∈ left.labels, isGrouping core = true ↔ core ∈ last := by
    intro core member
    constructor
    · intro grouping
      have isId := (all core.id).mpr ⟨core, moved.labels.mem_iff.mp member, grouping, rfl⟩
      obtain ⟨other, inLast, sameId⟩ := List.mem_map.mp isId
      rwa [← List.inj_on_of_nodup_map leftDistinct (isLabel other (List.mem_append_right _ inLast))
        member sameId]
    · intro inLast
      obtain ⟨gr, grLabel, grouping, sameId⟩ := (all core.id).mp (List.mem_map_of_mem inLast)
      rwa [← List.inj_on_of_nodup_map leftDistinct (moved.labels.mem_iff.mpr grLabel) member sameId]
  have notLast : ∀ core ∈ others, core ∉ last := by
    intro core inOthers inLast
    rw [List.map_append, List.nodup_append] at rootsDistinct
    exact rootsDistinct.2.2 core.id (List.mem_map_of_mem inOthers) core.id
      (List.mem_map_of_mem inLast) rfl
  have plainOthers : plainRoots left = others := by
    rw [plainRoots, rootsEq, List.filter_append, List.filter_eq_self.mpr,
      List.filter_eq_nil_iff.mpr, List.append_nil]
    · intro core inLast
      simp [(isLast core (isLabel core (List.mem_append_right _ inLast))).mpr inLast]
    · intro core inOthers
      have notGrouping := mt (isLast core (isLabel core (List.mem_append_left _ inOthers))).mp
        (notLast core inOthers)
      simpa using notGrouping
  rw [← moved.plain, plainOthers]
  exact ⟨last, rootsEq, rfl, isLast⟩

end Moves

section Sorting

variable {tree : YnodeTree} {root main : Core} {kids : Forest Core}

/-- The tree with its groupings in order, in front of the main list. -/
structure Sorted (tree : YnodeTree) (root main : Core) (kids : Forest Core) (after : YnodeTree)
    (ahead mainKids : Forest Core) : Prop where
  encodes : Encodes after.nodes (.cons root (ahead.append (.cons main mainKids .nil)) .nil)
  same : (contents after.nodes).Perm (contents tree.nodes)
  groupings : ∀ core ∈ (ahead.append (.cons main mainKids .nil)).labels,
    isGrouping core = true ↔ core ∈ ahead.roots
  kept : (places (ahead.append (.cons main mainKids .nil))).Perm (places kids)
  inOrder : Backwards (Refers after.nodes.tail (ahead.append (.cons main mainKids .nil)))
    (ahead.roots.map Core.id)

theorem mem_groupingIds_iff {nodes : List AyYnode} (encoded : cells nodes = kids.flat)
    {id : YnodeId} :
    id ∈ groupingIds nodes ↔ ∃ gr ∈ kids.labels, isGrouping gr = true ∧ gr.id = id := by
  rw [mem_groupingIds]
  constructor
  · rintro ⟨gr, isNode, grouping, rfl⟩
    exact ⟨gr.core, (mem_labels_iff encoded).mpr ⟨gr, isNode, rfl⟩, decide_eq_true grouping, rfl⟩
  · rintro ⟨core, isLabel, grouping, rfl⟩
    obtain ⟨gr, isNode, rfl⟩ := (mem_labels_iff encoded).mp isLabel
    exact ⟨gr, isNode, of_decide_eq_true grouping, rfl⟩

/-- What refers to what depends on the contents of the nodes and on the places only. -/
theorem Refers.of_same {nodes others : List AyYnode} {rootNode : AyYnode} {left : Forest Core}
    (rootType : rootNode.type = .ynRoot)
    (same : (contents others).Perm (contents (rootNode :: nodes)))
    (kept : (places left).Perm (places kids)) {id other : YnodeId}
    (refers : Refers others.tail left id other) : Refers nodes kids id other := by
  obtain ⟨place, isPlace, grouping, sameId, us, isNode, isUse, rfl⟩ := refers
  have isContents := same.mem_iff.mp (List.mem_map_of_mem (List.mem_of_mem_tail isNode))
  obtain ⟨found, isFound, sameContents⟩ := List.mem_map.mp isContents
  have sameCore : found.contents.core = us.contents.core := congrArg AyYnode.core sameContents
  have sameRef : found.contents.ref = us.contents.ref := congrArg AyYnode.ref sameContents
  change found.core = us.core at sameCore
  change found.ref = us.ref at sameRef
  refine ⟨place, kept.mem_iff.mp isPlace, grouping, sameId, found, ?_, by rwa [sameCore], sameRef⟩
  refine (List.mem_cons.mp isFound).resolve_left ?_
  rintro rfl
  have isUses : us.core.type = .ynUses := type_of_mem_uses isPlace isUse
  rw [← sameCore] at isUses
  rw [show found.core.type = .ynRoot from rootType] at isUses
  cases isUses

theorem forest_of_roots {forest : Forest Core} {last : List Core}
    (rootsEq : forest.roots = main :: last) :
    ∃ mainKids rest, forest = .cons main mainKids rest ∧ rest.roots = last := by
  cases forest with
  | nil => cases rootsEq
  | cons label mainKids rest =>
      obtain ⟨rfl, rfl⟩ := List.cons.inj rootsEq
      exact ⟨mainKids, rest, rfl, rfl⟩

theorem Sorted.of_moved {sorted : List YnodeId} {after final : YnodeTree} {rootNode : AyYnode}
    {below : List AyYnode} {ahead mainKids : Forest Core}
    (nodesEq : tree.nodes = rootNode :: below) (rootType : rootNode.type = .ynRoot)
    (moved : Moved tree root kids sorted after (.cons main mainKids ahead))
    (groupings : ∀ core ∈ (Forest.cons main mainKids ahead).labels,
      isGrouping core = true ↔ core ∈ ahead.roots)
    (inOrder : Backwards (Refers below kids) (ahead.roots.map Core.id))
    (encodes : Encodes final.nodes (.cons root (ahead.append (.cons main mainKids .nil)) .nil))
    (same : (contents final.nodes).Perm (contents after.nodes)) :
    Sorted tree root main kids final ahead mainKids := by
  have split : Forest.cons main mainKids ahead =
      (Forest.cons main mainKids .nil).append ahead := rfl
  have kept : (places (ahead.append (.cons main mainKids .nil))).Perm (places kids) := by
    refine List.Perm.trans ?_ moved.kept
    rw [split, places_append, places_append]
    exact List.perm_append_comm
  constructor
  · exact encodes
  · exact same.trans moved.same
  · intro core member
    apply groupings core
    rw [split, Forest.labels_append]
    rw [Forest.labels_append] at member
    exact List.perm_append_comm.mem_iff.mp member
  · exact kept
  · have allSame := same.trans moved.same
    rw [nodesEq] at allSame
    exact inOrder.mono fun _ _ => Refers.of_same rootType allSame kept

/-- Groupings come in an order in which each one only uses those in front of it, and everything
else stays where it is. -/
theorem ayYnodeGroupingsAhead_sorts (encodes : Encodes tree.nodes (.cons root kids .nil))
    (rootType : root.type = .ynRoot) (room : tree.nodes.length ≤ tree.arrsize)
    (distinct : (ids tree.nodes.tail).Nodup) (only : plainRoots kids = [main])
    (mainType : main.type = .ynList)
    (resolved : ∀ us ∈ tree.nodes.tail, us.type = .ynUses → us.ref ∈ groupingIds tree.nodes.tail)
    (acyclic : Acyclic (Refers tree.nodes.tail kids)) :
    ∃ after ahead mainKids, ayYnodeGroupingsAhead tree = some after ∧
      Sorted tree root main kids after ahead mainKids := by
  obtain ⟨rootNode, below, nodesEq, rootCore, belowCells⟩ := encodes.below_root
  rw [nodesEq, List.tail_cons] at distinct resolved acyclic
  have labelsDistinct : (kids.labels.map Core.id).Nodup := ids_of_cells belowCells ▸ distinct
  have referTo : ∀ id other, Refers below kids id other → other ∈ groupingIds below := by
    rintro id other ⟨place, isPlace, -, -, us, isNode, isUse, rfl⟩
    exact resolved us isNode (type_of_mem_uses isPlace isUse)
  obtain ⟨sorted, ran, inOrder, sortedPerm⟩ := @fillSort_sorts _ (fillDict (rootNode :: below)) []
    acyclic (keyed_fillDict belowCells distinct) backwards_nil
    (by
      rw [List.nil_append, pending_fillDict]
      exact distinct.sublist (groupingIds_sublist below))
    (by
      rw [List.nil_append, pending_fillDict]
      exact referTo) _ (Nat.le_of_eq (Nat.zero_add _).symm)
  rw [List.nil_append, pending_fillDict] at ran sortedPerm
  have all : ∀ id, id ∈ sorted ↔ ∃ gr ∈ kids.labels, isGrouping gr = true ∧ gr.id = id := by
    intro id
    rw [sortedPerm.mem_iff, mem_groupingIds_iff belowCells]
  have unmoved : Moved tree root kids [] tree kids :=
    ⟨encodes, room, List.Perm.refl _, rfl, List.Perm.refl _, kids.roots, [], by simp, rfl⟩
  obtain ⟨next, left, moves, moved⟩ := moveGroupings_moved labelsDistinct unmoved sorted
    (fun id member => (all id).mp member)
    (sortedPerm.nodup_iff.mpr (distinct.sublist (groupingIds_sublist below)))
  rw [List.nil_append] at moved
  obtain ⟨last, rootsEq, rfl, isLast⟩ := moved.roots labelsDistinct all
  rw [only] at rootsEq
  obtain ⟨mainKids, ahead, rfl, rfl⟩ := forest_of_roots rootsEq
  have isRoot : rootNode.type = .ynRoot := by
    rw [← rootType, ← rootCore]
    rfl
  have keys : (tree.nodes.drop 1).countP (fun node => node.type = .ynGrouping) =
      (groupingIds below).length := by
    rw [nodesEq, List.drop_one, List.tail_cons, length_groupingIds]
  rw [← nodesEq] at ran
  by_cases noKeys : groupingIds below = []
  · -- without groupings there is nothing to refer to
    have noUses : (tree.nodes.drop 1).countP (fun node => node.type = .ynUses) = 0 := by
      rw [nodesEq, List.drop_one, List.tail_cons, List.countP_eq_zero]
      intro us isNode isUses
      have isId := resolved us isNode (of_decide_eq_true isUses)
      rw [noKeys] at isId
      cases isId
    have noAhead : ahead = .nil := by
      rw [noKeys] at sortedPerm
      have empty := List.map_eq_nil_iff.mp sortedPerm.eq_nil
      cases ahead with
      | nil => rfl
      | cons label grKids rest => cases empty
    subst noAhead
    cases moves
    refine ⟨tree, .nil, mainKids, ?_,
      .of_moved nodesEq isRoot moved isLast inOrder moved.encodes (List.Perm.refl _)⟩
    simp only [ayYnodeGroupingsAhead, keys, noKeys, noUses]
    rfl
  · have isGroupingRoot : ∀ core ∈ ahead.roots, isGrouping core = true := by
      intro core member
      refine (isLast core ?_).mpr member
      rw [Forest.labels_cons]
      exact .tail _ (List.mem_append_right _ (ahead.roots_sublist.subset member))
    obtain ⟨after, finished, afterEncodes, same⟩ := moveMainList_runs moved.encodes moved.room
      mainType isGroupingRoot
    refine ⟨after, ahead, mainKids, ?_,
      .of_moved nodesEq isRoot moved isLast inOrder afterEncodes same⟩
    simp only [ayYnodeGroupingsAhead, keys]
    rw [if_neg (by simpa using noKeys), ran, Option.bind_some, moves, Option.bind_some, finished]

def typedNode (type : YangType) (id ref : YnodeId) (descendants : Nat) : AyYnode :=
  { AyYnode.blank id with type := type, ref := ref, descendants := descendants }

/-- A grouping that uses one behind it, which in turn uses one inside the first. -/
def groupingTree : YnodeTree where
  nodes := ayYnodeTreeCorrection [
    typedNode .ynRoot 0 0 8,
    typedNode .ynList 1 0 1, typedNode .ynUses 2 10 0,
    typedNode .ynGrouping 10 0 3, typedNode .ynUses 3 11 0,
    typedNode .ynGrouping 12 0 1, typedNode .ynLeaf 4 0 0,
    typedNode .ynGrouping 11 0 1, typedNode .ynUses 5 12 0]
  idcnt := 13
  arrsize := 9

def groupingKids : Forest Core :=
  let core (type : YangType) (id : YnodeId) : Core := ⟨type, none, none, none, id⟩
  .cons (core .ynList 1) (.cons (core .ynUses 2) .nil .nil)
    (.cons (core .ynGrouping 10)
      (.cons (core .ynUses 3) .nil
        (.cons (core .ynGrouping 12) (.cons (core .ynLeaf 4) .nil .nil) .nil))
      (.cons (core .ynGrouping 11) (.cons (core .ynUses 5) .nil .nil) .nil))

theorem ayYnodeGroupingsAhead_sorts_nested :
    ∃ after ahead mainKids, ayYnodeGroupingsAhead groupingTree = some after ∧
      Sorted groupingTree ⟨.ynRoot, none, none, none, 0⟩ ⟨.ynList, none, none, none, 1⟩ groupingKids
        after ahead mainKids := by
  have ranked : ∀ place ∈ places groupingKids, isGrouping place.node = true →
      ∀ us ∈ groupingTree.nodes.tail, us.core ∈ place.uses →
        ([12, 11, 10] : List YnodeId).idxOf us.ref < [12, 11, 10].idxOf place.node.id := by
    decide
  refine ayYnodeGroupingsAhead_sorts ⟨by decide, by decide⟩ rfl (by decide) (by decide)
    (by decide) rfl (by decide) (acyclic_of_rank (List.idxOf · [12, 11, 10]) ?_)
  rintro id other ⟨place, isPlace, grouping, rfl, us, isNode, isUse, rfl⟩
  exact ranked place isPlace grouping us isNode isUse

end Sorting

end SysrepoAugeas.Ynode
