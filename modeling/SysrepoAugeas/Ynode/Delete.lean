import SysrepoAugeas.Data.Uproot
import SysrepoAugeas.Ynode.Insert

/-!
# Deleting nodes

The cells of a deleted range are those of whole subtrees, or of one node whose
children take its place; the ancestors lose as many descendants.
-/

namespace SysrepoAugeas.Ynode

open SysrepoAugeas.Data

section Shapes

variable {Label : Type}

/-- The children take the place of the node. -/
def dissolve (_ : Label) (kids rest : Forest Label) : Forest Label := kids.append rest

/-- The node becomes a case. -/
def recast (label : Core) (kids rest : Forest Core) : Forest Core :=
  .cons { label with type := .ynCase, snode := none, label := none, value := none } kids rest

/-- Only some of the first children stay. -/
def keepKids (kept : Forest Label → Forest Label) (label : Label) (kids rest : Forest Label) :
    Forest Label :=
  .cons label (kept kids) rest

/-- `YN_VALUE` node at the front, and what follows it. -/
def splitValue : Forest Core → Forest Core × Forest Core
  | .cons label kids rest =>
      if label.type = .ynValue then (.cons label kids .nil, rest) else (.nil, .cons label kids rest)
  | .nil => (.nil, .nil)

/-- `YN_KEY` and `YN_VALUE` nodes at the front, and the inner nodes. -/
def splitKeyval : Forest Core → Forest Core × Forest Core
  | .cons label kids rest =>
      if label.type = .ynKey then (.cons label kids (splitValue rest).1, (splitValue rest).2)
      else splitValue (.cons label kids rest)
  | .nil => (.nil, .nil)

theorem append_splitValue (forest : Forest Core) :
    (splitValue forest).1.append (splitValue forest).2 = forest := by
  cases forest with
  | nil => rfl
  | cons label kids rest =>
      by_cases isValue : label.type = .ynValue <;> simp [splitValue, isValue, Forest.append]

theorem append_splitKeyval (forest : Forest Core) :
    (splitKeyval forest).1.append (splitKeyval forest).2 = forest := by
  cases forest with
  | nil => rfl
  | cons label kids rest =>
      by_cases isKey : label.type = .ynKey
      · simp [splitKeyval, isKey, Forest.append, append_splitValue]
      · simp [splitKeyval, isKey, append_splitValue]

end Shapes

section Range

variable {tree : YnodeTree} {hole : Forest.Hole Core} {filling newFilling : Forest Core}
  {nodes : List AyYnode}

/-- Deleting the cells in the middle. -/
theorem cells_delete {front middle back : List (Core × Nat)}
    (split : cells nodes = front ++ (middle ++ back)) :
    cells (nodes.take front.length ++ nodes.drop (front.length + middle.length)) =
      front ++ back := by
  obtain ⟨frontNodes, restNodes, rfl, rfl, restCells⟩ := List.map_eq_append_iff.mp split
  obtain ⟨middleNodes, backNodes, rfl, rfl, rfl⟩ := List.map_eq_append_iff.mp restCells
  simp only [List.length_map]
  rw [List.take_left' rfl, ← List.append_assoc, List.drop_left' (by simp)]
  simp [cells]

/-- Deleting a range of the filling of a hole below the root. -/
theorem edited_delete {left middle right : List (Core × Nat)} {index items : Nat}
    (encodes : Encodes nodes (hole.fill filling)) (isTree : IsTree (hole.fill filling))
    (inside : hole.parent ≠ none) (old : filling.flat = left ++ (middle ++ right))
    (new : newFilling.flat = left ++ right) (place : index = hole.index + left.length)
    (count : items = middle.length) :
    Edited tree (hole.fill newFilling) 0
      ⟨ayYnodeTreeCorrection ((onAncestors (· - items) hole.parent nodes).take index ++
        (onAncestors (· - items) hole.parent nodes).drop (index + items)),
        tree.idcnt, tree.arrsize⟩ := by
  have sizes : filling.size = newFilling.size + items := by
    rw [← Forest.length_flat, ← Forest.length_flat, new, old, count]
    simp only [List.length_append]
    omega
  have counted := @cells_onAncestors _ _ (· - items) newFilling.size _ encodes fun more => by omega
  rw [old] at counted
  have newTree := isTree_fill isTree inside newFilling
  refine ⟨encodes_of_cells ?_ newTree ?_, newTree, by simp [advanceId], rfl⟩
  · have deleted := @cells_delete _ (hole.front newFilling.size ++ left) middle
        (right ++ hole.back) (by simpa using counted)
    simp only [List.length_append, Forest.Hole.length_front, ← place, ← count] at deleted
    rw [deleted, Forest.Hole.flat_fill, new]
    simp
  · have positive : 0 < hole.index := by
      cases hole with
      | top => exact absurd rfl inside
      | behind label kids outer => simp [Forest.Hole.index]
      | under label rest outer => simp [Forest.Hole.index]
    refine (rootAlone_onAncestors encodes isTree).take_append (by omega) ?_ _
    intro empty
    have := congrArg List.length counted
    rw [empty] at this
    simp [cells] at this
    omega

end Range

section Primitives

variable {tree : YnodeTree} {forest : Forest Core} {node : Nat}

theorem ayYnodeDeleteSubtree_edited (encodes : Encodes tree.nodes forest) (isTree : IsTree forest)
    (notRoot : node ≠ 0) (bound : node < forest.size) :
    ∃ after, ayYnodeDeleteSubtree tree node = some after ∧
      Edited tree (forest.modifyAt Forest.cut node) 0 after := by
  obtain ⟨hole, label, kids, rest, found, rfl, rfl, foundAt, count, parentEq, -, -⟩ :=
    encodes.node_at bound
  have inside := parent_ne_none isTree (by simp [Forest.size]) notRoot
  rw [Forest.Hole.modifyAt_fill]
  refine ⟨_, ?_, @edited_delete _ _ _ _ _ [] ((label, kids.size) :: kids.flat) rest.flat
      hole.index (kids.size + 1) encodes isTree inside ?_ rfl (by simp) (by simp)⟩
  · simp only [ayYnodeDeleteSubtree, foundAt, Option.bind_eq_bind, Option.bind_some, parentEq,
      count, ayYnodeDeleteGapRange]
  · simp [Forest.flat]

theorem mem_ancestors_of_parent {hole : Forest.Hole Core} {parent : Nat}
    (isParent : hole.parent = some parent) : parent ∈ hole.ancestors := by
  induction hole with
  | top => simp [Forest.Hole.parent] at isParent
  | behind label kids outer inductionHypothesis => exact inductionHypothesis isParent
  | under label rest outer _ =>
      simp only [Forest.Hole.parent, Option.some.injEq] at isParent
      simp [Forest.Hole.ancestors, isParent]

/-- The settings on the children before the deletion concern neither cores nor links. -/
theorem prepareDelete_same {nodes prepared : List AyYnode} {index : Nat}
    (done : prepareDelete nodes index = some (some prepared)) :
    prepared.map (fun node => (node.cell, node.links)) =
      nodes.map fun node => (node.cell, node.links) := by
  simp only [prepareDelete, Option.bind_eq_bind, Option.bind_eq_some_iff] at done
  obtain ⟨node, -, done⟩ := done
  split at done
  · split at done
    · split at done
      · simp at done
      · simp only [Option.some.injEq] at done
        rw [← done]
        exact foldl_modify_same (by intro _ _; rfl) _ _
    · split at done
      · simp only [Option.some.injEq] at done
        rw [← done]
        exact foldl_modify_same (by intro _ _; rfl) _ _
      · simp only [Option.some.injEq] at done
        rw [← done]
  · split at done
    · simp only [Option.some.injEq] at done
      rw [← done]
    · simp at done

/-- `ay_ynode_delete_node` when it does not cast the node. -/
theorem ayYnodeDeleteNode_edited (encodes : Encodes tree.nodes forest) (isTree : IsTree forest)
    (notRoot : node ≠ 0) (bound : node < forest.size) {prepared : List AyYnode}
    (deletes : prepareDelete tree.nodes node = some (some prepared)) :
    ∃ after, ayYnodeDeleteNode tree node = some (after, false) ∧
      Edited tree (forest.modifyAt dissolve node) 0 after := by
  obtain ⟨hole, label, kids, rest, found, rfl, rfl, foundAt, count, parentEq, -, -⟩ :=
    encodes.node_at bound
  have inside := parent_ne_none isTree (by simp [Forest.size]) notRoot
  obtain ⟨parent, isParent⟩ := Option.ne_none_iff_exists'.mp inside
  have preparedEncodes := encodes.of_same (prepareDelete_same deletes)
  -- the children also take over a hint
  let hinted :=
    if found.flags &&& ayChildrenMandFalse ≠ 0 then
      (siblingsFrom found.child prepared).foldl (fun nodes iter =>
        nodes.modify iter fun child => { child with flags := child.flags ||| ayHintMandFalse })
        prepared
    else prepared
  have hintedEncodes : Encodes hinted (hole.fill (.cons label kids rest)) := by
    by_cases flagged : found.flags &&& ayChildrenMandFalse ≠ 0
    · rw [show hinted = _ from if_pos flagged]
      exact preparedEncodes.of_same (foldl_modify_same (by intro _ _; rfl) _ _)
    · rw [show hinted = _ from if_neg flagged]
      exact preparedEncodes
  have edited := @edited_delete tree _ _ (kids.append rest) _ [] ([(label, kids.size)])
      (kids.flat ++ rest.flat) hole.index 1 hintedEncodes isTree inside (by simp [Forest.flat])
      (by simp) (by simp) (by simp)
  rw [isParent] at edited
  rw [Forest.Hole.modifyAt_fill]
  let corrected := ayYnodeTreeCorrection ((onAncestors (· - 1) (some parent) hinted).take hole.index ++
    (onAncestors (· - 1) (some parent) hinted).drop (hole.index + 1))
  have correctedEncodes : Encodes corrected (hole.fill (kids.append rest)) := edited.encodes
  obtain ⟨parentNode, parentFound⟩ : ∃ parentNode, corrected[parent]? = some parentNode := by
    have := Forest.Hole.lt_index_of_mem_ancestors (mem_ancestors_of_parent isParent)
    have length := length_of_cells correctedEncodes.cells
    rw [Forest.Hole.size_fill] at length
    exact ⟨_, List.getElem?_eq_getElem (by omega)⟩
  obtain ⟨final, ran, finalEncodes⟩ : ∃ final,
      ayYnodeDeleteNode tree hole.index = some (⟨final, tree.idcnt, tree.arrsize⟩, false) ∧
        Encodes final (hole.fill (kids.append rest)) := by
    refine ⟨?final, ?ran, ?encodes⟩
    case ran =>
      simp only [ayYnodeDeleteNode, foundAt, Option.bind_eq_bind, Option.bind_some, deletes,
        parentEq, isParent, ayYnodeDeleteGap]
      change (corrected[parent]?.bind fun parentNode => _) = _
      exact congrArg (fun found => Option.bind found _) parentFound
    case encodes =>
      -- an only child leaves its choice
      split
      · exact correctedEncodes.of_same (map_modify_same fun _ => rfl)
      · exact correctedEncodes
  exact ⟨_, ran, finalEncodes, edited.isTree, edited.idcnt, rfl⟩

/-- `ay_ynode_delete_node` when it casts the node. -/
theorem ayYnodeDeleteNode_recast (encodes : Encodes tree.nodes forest) (isTree : IsTree forest)
    (notRoot : node ≠ 0) (bound : node < forest.size)
    (casts : prepareDelete tree.nodes node = some none) :
    ∃ after, ayYnodeDeleteNode tree node = some (after, true) ∧
      Edited tree (forest.modifyAt recast node) 0 after := by
  obtain ⟨hole, label, kids, rest, rfl, rfl⟩ := Forest.Hole.exists_of_lt_size bound
  obtain ⟨found, foundAt, -⟩ := encodes.node_in
  have inside := parent_ne_none isTree (by simp [Forest.size]) notRoot
  rw [Forest.Hole.modifyAt_fill]
  refine ⟨⟨tree.nodes.modify hole.index fun node =>
    { node with type := .ynCase, snode := none, label := none, value := none, ref := 0, flags := 0 },
      tree.idcnt, tree.arrsize⟩, ?_, ⟨?_, ?_⟩, isTree_fill isTree inside _, by simp [advanceId], rfl⟩
  · simp only [ayYnodeDeleteNode, foundAt, Option.bind_eq_bind, Option.bind_some, casts]
  · have split := encodes.cells
    rw [Forest.Hole.flat_fill] at split
    obtain ⟨frontNodes, restNodes, nodesEq, frontCells, restCells⟩ :=
      List.map_eq_append_iff.mp split
    obtain ⟨itself, backNodes, rfl, itsCell, backCells⟩ := List.map_eq_cons_iff.mp restCells
    have length : hole.index = frontNodes.length := by
      rw [← List.length_map (f := AyYnode.cell), frontCells, Forest.Hole.length_front]
    have coreEq : itself.core = label := congrArg Prod.fst itsCell
    have countEq : itself.descendants = kids.size := congrArg Prod.snd itsCell
    simp only [nodesEq, length, modify_split, cells_append, cells_cons, Forest.Hole.flat_fill, recast]
    rw [cells, cells, frontCells, backCells, ← coreEq]
    simp [AyYnode.cell, AyYnode.core, countEq, Forest.flat, Forest.size]
  · have same : (tree.nodes.modify hole.index fun node =>
        { node with
          type := .ynCase, snode := none, label := none, value := none, ref := 0,
          flags := 0 }).map AyYnode.links = tree.nodes.map AyYnode.links := by
      refine List.ext_getElem? fun position => ?_
      simp only [List.getElem?_map, List.getElem?_modify]
      cases tree.nodes[position]? with
      | none => rfl
      | some node => by_cases here : hole.index = position <;> simp [here, AyYnode.links]
    rw [same, encodes.links]
    exact @Forest.Hole.links_fill_congr _ hole (.cons label kids rest) (recast label kids rest)
        rfl (fun _ _ => rfl) 0 none

theorem skipValue_eq {nodes : List AyYnode} (filling : Forest Core) {hole : Forest.Hole Core}
    (encodes : Encodes nodes (hole.fill filling)) {start : Option Nat}
    (begins : start = if filling.size = 0 then none else some hole.index) :
    (match start.bind fun index => nodes[index]? with
      | some node => if node.type = .ynValue then node.next else start
      | none => start) =
      if (splitValue filling).2.size = 0 then none
      else some (hole.index + (splitValue filling).1.size) := by
  cases filling with
  | nil =>
      subst begins
      simp [splitValue, Forest.size]
  | cons label kids rest =>
      obtain ⟨found, foundAt, coreEq, -, -, nextEq, -⟩ := encodes.node_in
      have typeEq : found.type = label.type := congrArg Core.type coreEq
      rw [if_neg (by simp [Forest.size])] at begins
      subst begins
      by_cases isValue : label.type = .ynValue
      · simp [foundAt, typeEq, isValue, nextEq, splitValue, Forest.size,
          Nat.add_assoc]
      · simp [foundAt, typeEq, isValue, splitValue, Forest.size]

/-- The inner nodes begin behind the `YN_KEY` and `YN_VALUE` nodes. -/
theorem ayYnodeInnerNodes_eq {nodes : List AyYnode} {hole : Forest.Hole Core} {label : Core}
    {kids rest : Forest Core} {found : AyYnode} {inner : Option Nat}
    (encodes : Encodes nodes (hole.fill (.cons label kids rest)))
    (childEq : found.child = if kids.size = 0 then none else some (hole.index + 1))
    (asserted : ayYnodeInnerNodes nodes found = some inner) :
    inner = if (splitKeyval kids).2.size = 0 then none
      else some (hole.index + 1 + (splitKeyval kids).1.size) := by
  cases kids with
  | nil =>
      have noChild : found.child = none := by simpa [Forest.size] using childEq
      simp only [ayYnodeInnerNodes, noChild, Option.bind_none, Option.some.injEq] at asserted
      simp [← asserted, splitKeyval, Forest.size]
  | cons first firstKids others =>
      -- the children stand in the hole below the node
      obtain ⟨firstNode, firstAt, coreEq, -, -, nextEq, -⟩ :=
        @Encodes.node_in _ (.under label rest hole) _ _ _ encodes
      have typeEq : firstNode.type = first.type := congrArg Core.type coreEq
      rw [Forest.Hole.index] at firstAt
      have child := childEq
      rw [if_neg (by simp [Forest.size])] at child
      by_cases isKey : first.type = .ynKey
      · have skipped := @skipValue_eq _ others (.behind first firstKids (.under label rest hole))
            encodes _ nextEq
        simp only [ayYnodeInnerNodes, child, Option.bind_some, firstAt, typeEq, isKey,
          if_true] at asserted
        split at asserted
        · rw [Option.some.injEq] at asserted
          refine asserted.symm.trans (skipped.trans ?_)
          simp only [splitKeyval, isKey, if_true, Forest.Hole.index, Forest.size]
          congr 2
          omega
        · simp at asserted
      · have skipped := @skipValue_eq _ (.cons first firstKids others) (.under label rest hole)
            encodes _ childEq
        simp only [ayYnodeInnerNodes, child, Option.bind_some, firstAt, typeEq, isKey,
          if_false, Option.some.injEq] at asserted
        simp only [child, Option.bind_some, firstAt, typeEq] at skipped
        rw [← asserted, skipped]
        simp [splitKeyval, isKey, Forest.Hole.index]

/-- The children that `ay_ynode_delete_children` leaves. -/
def keptKids (keepKeyval : Bool) (kids : Forest Core) : Forest Core :=
  if keepKeyval then (splitKeyval kids).1 else .nil

/-- The deleted range are the last children of the node. -/
theorem deletedChildren_eq {nodes : List AyYnode} {hole : Forest.Hole Core} {label : Core}
    {kids rest : Forest Core} {found : AyYnode} {keepKeyval : Bool}
    (encodes : Encodes nodes (hole.fill (.cons label kids rest)))
    (count : found.descendants = kids.size)
    (childEq : found.child = if kids.size = 0 then none else some (hole.index + 1))
    (asserted : (deletedChildren nodes hole.index found keepKeyval).isSome) :
    ∃ gone first, kids = (keptKids keepKeyval kids).append gone ∧
      deletedChildren nodes hole.index found keepKeyval = some (first, gone.size) ∧
      (gone.size ≠ 0 → first = hole.index + 1 + (keptKids keepKeyval kids).size) := by
  cases keepKeyval with
  | false => exact ⟨kids, hole.index + 1, rfl, by simp [deletedChildren, count], fun _ => rfl⟩
  | true =>
      simp only [deletedChildren, if_true, Option.isSome_map] at asserted
      obtain ⟨inner, isInner⟩ := Option.isSome_iff_exists.mp asserted
      have innerEq := ayYnodeInnerNodes_eq encodes childEq isInner
      have sizes := congrArg Forest.size (append_splitKeyval kids)
      rw [Forest.size_append] at sizes
      refine ⟨(splitKeyval kids).2, hole.index + 1 + (if (splitKeyval kids).2.size = 0 then 0
        else (splitKeyval kids).1.size), (append_splitKeyval kids).symm, ?_, ?_⟩
      · by_cases nothing : (splitKeyval kids).2.size = 0
        · simp [deletedChildren, isInner, innerEq, nothing]
        · simp only [deletedChildren, isInner, innerEq, nothing, if_false, if_true,
            Option.map_some, Option.some.injEq, Prod.mk.injEq, true_and, count]
          omega
      · intro something
        simp [something, keptKids]

theorem ayYnodeDeleteChildren_edited (encodes : Encodes tree.nodes forest)
    (isTree : IsTree forest) (bound : node < forest.size) {keepKeyval : Bool}
    (asserted : (tree.nodes[node]?.bind fun found =>
      deletedChildren tree.nodes node found keepKeyval).isSome) :
    ∃ after, ayYnodeDeleteChildren tree node keepKeyval = some after ∧
      Edited tree (forest.modifyAt (keepKids (keptKids keepKeyval)) node) 0 after := by
  obtain ⟨hole, label, kids, rest, found, rfl, rfl, foundAt, count, -, -, childEq⟩ :=
    encodes.node_at bound
  rw [foundAt, Option.bind_some] at asserted
  obtain ⟨gone, first, split, chosen, behind⟩ := deletedChildren_eq encodes count childEq asserted
  have refill : hole.fill (.cons label kids rest) =
      (Forest.Hole.under label rest hole).fill kids := rfl
  rw [Forest.Hole.modifyAt_fill]
  simp only [ayYnodeDeleteChildren, foundAt, Option.bind_eq_bind, Option.bind_some, chosen]
  by_cases nothing : gone.size = 0
  · have noneGone := Forest.eq_nil_of_size nothing
    subst noneGone
    rw [Forest.append_nil] at split
    refine ⟨tree, by simp [Forest.size], ?_⟩
    rw [keepKids, ← split]
    exact ⟨encodes, isTree, by simp [advanceId], rfl⟩
  · -- the first node that goes stands behind the kept ones
    obtain ⟨goneLabel, goneKids, goneRest, rfl⟩ : ∃ label kids rest, gone = .cons label kids rest := by
      cases gone with
      | nil => simp [Forest.size] at nothing
      | cons label kids rest => exact ⟨label, kids, rest, rfl⟩
    have atFirst := encodes.links
    rw [refill, split, ← Forest.Hole.fill_past] at atFirst
    obtain ⟨firstNode, firstAt, parentEq, -⟩ := getElem_parent atFirst
    simp only [Forest.Hole.index_past, Forest.Hole.index, ← behind nothing] at firstAt
    simp only [Forest.Hole.parent_past, Forest.Hole.parent] at parentEq
    rw [refill] at encodes isTree
    have edited := @edited_delete tree _ _ (keptKids keepKeyval kids) _
        ((keptKids keepKeyval kids).flat) ((Forest.cons goneLabel goneKids goneRest).flat) []
        first ((Forest.cons goneLabel goneKids goneRest).size) encodes isTree
        (by simp [Forest.Hole.parent]) (by rw [List.append_nil, ← Forest.flat_append, ← split])
        (by simp) (by rw [behind nothing, Forest.length_flat, Forest.Hole.index]) (by simp)
    refine ⟨_, ?_, edited⟩
    simp only [nothing, if_false, firstAt, Option.bind_some, parentEq, ayYnodeDeleteGapRange,
      Forest.Hole.parent]

end Primitives

end SysrepoAugeas.Ynode
