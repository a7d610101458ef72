import SysrepoAugeas.Ynode.Move

/-!
# Copying subtrees

The gap for a copy is filled with the images of the nodes, ids included; only
`when_ref` is directed to the copy afterwards.
-/

namespace SysrepoAugeas.Ynode

open SysrepoAugeas.Data

section Block

/-- Nodes that are not chosen stay as they are. -/
theorem getElem_changeAt {change : Nat → Nat} {chosen : List Nat} {index : Nat}
    (notChosen : index ∉ chosen) (nodes : List AyYnode) :
    (changeAt change chosen nodes)[index]? = nodes[index]? := by
  simp [changeAt, List.getElem?_mapIdx, notChosen]

variable {tree : YnodeTree} {source place : Forest.Hole Core} {label : Core}
  {kids rest filling : Forest Core}

/-- The cells of a subtree in the array. -/
theorem cells_block {nodes : List AyYnode}
    (encodes : Encodes nodes (source.fill (.cons label kids rest))) :
    cells ((nodes.drop source.index).take (kids.size + 1)) = (label, kids.size) :: kids.flat := by
  have split : (Forest.cons label kids rest).flat ++ source.back =
      ((label, kids.size) :: kids.flat) ++ (rest.flat ++ source.back) := by
    simp [Forest.flat]
  rw [cells, List.map_take, List.map_drop, ← cells, encodes.cells, Forest.Hole.flat_fill, split,
    List.drop_left' (by simp), List.take_left' (by simp)]

/-- A subtree below none of the changed nodes is copied as it is. -/
theorem block_changeAt {nodes : List AyYnode} {change : Nat → Nat} {chosen : List Nat}
    {start count : Nat}
    (apart : ∀ position ∈ chosen, position < start ∨ start + count ≤ position) :
    ((changeAt change chosen nodes).drop start).take count = (nodes.drop start).take count := by
  refine List.ext_getElem? fun offset => ?_
  simp only [List.getElem?_take, List.getElem?_drop]
  split
  · refine getElem_changeAt (fun membership => ?_) nodes
    have := apart _ membership
    omega
  · rfl

/-- The array once the block at `src` is copied to `place` and the `chosen` nodes count it. -/
def withCopy (chosen : List Nat) (src size place : Nat) (nodes : List AyYnode) : List AyYnode :=
  (changeAt (· + size) chosen nodes).take place ++ (nodes.drop src).take size ++
    (changeAt (· + size) chosen nodes).drop place

/-- The copied block is put into the place of the new tree and the links are corrected. -/
theorem edited_copy (encodes : Encodes tree.nodes (source.fill (.cons label kids rest)))
    (isTree : IsTree (source.fill (.cons label kids rest)))
    (room : kids.size + 1 + tree.nodes.length ≤ tree.arrsize)
    (refilled : source.fill (.cons label kids rest) = place.fill filling)
    (inside : place.parent ≠ none)
    (apart : ∀ position ∈ place.ancestors,
      position < source.index ∨ source.index + (kids.size + 1) ≤ position) :
    ∃ copied,
      ayYnodeCopySubtree { tree with
          nodes := onAncestors (· + (kids.size + 1)) place.parent tree.nodes }
        place.index source.index = some copied ∧
      copied.nodes =
        withCopy place.ancestors source.index (kids.size + 1) place.index tree.nodes ∧
      (∃ position, source.index ≤ position ∧
        (place.fill (.cons label kids filling)).flat[position]? = some (label, kids.size)) ∧
      Edited tree (place.fill (.cons label kids filling)) (kids.size + 1)
        { copied with nodes := ayYnodeTreeCorrection copied.nodes } := by
  have newTree := isTree_fill (refilled ▸ isTree) inside (.cons label kids filling)
  obtain ⟨root, rootAt, rootCore, rootCount, -⟩ := encodes.node_in
  have told := @cells_onAncestors place _ (· + (kids.size + 1)) (filling.size + (kids.size + 1)) _
      (refilled ▸ encodes) fun more => by omega
  have alone := @rootAlone_onAncestors place filling (· + (kids.size + 1)) _ (refilled ▸ encodes)
      (refilled ▸ isTree)
  rw [@onAncestors_eq _ place filling _ (refilled ▸ encodes.links)] at told alone ⊢
  have sourceApart : source.index ∉ place.ancestors := fun membership => by
    have := apart _ membership
    omega
  have block := @block_changeAt tree.nodes (· + (kids.size + 1)) _ _ _ apart
  have blockCells := cells_block encodes
  have rootStays := @getElem_changeAt (· + (kids.size + 1)) _ _ sourceApart tree.nodes
  rw [rootAt] at rootStays
  have blockLength := congrArg List.length blockCells
  simp only [length_cells, List.length_cons, Forest.length_flat] at blockLength
  have sourceCell : (cells (changeAt (· + (kids.size + 1)) place.ancestors tree.nodes))[
      source.index]? = some (label, kids.size) := by
    rw [cells, List.getElem?_map, rootStays, Option.map_some, AyYnode.cell, rootCore, rootCount]
  have sameLength := length_changeAt (· + (kids.size + 1)) place.ancestors tree.nodes
  rw [withCopy]
  generalize changeAt (· + (kids.size + 1)) place.ancestors tree.nodes = nodes at *
  have parts : cells (nodes.take place.index) = place.front (filling.size + (kids.size + 1)) ∧
      cells (nodes.drop place.index) = filling.flat ++ place.back := by
    rw [cells, cells, List.map_take, List.map_drop, ← cells, told,
      ← Forest.Hole.length_front place (filling.size + (kids.size + 1))]
    exact ⟨List.take_left' rfl, List.drop_left' rfl⟩
  have copiedCells : cells (nodes.take place.index ++
      (nodes.drop source.index).take (kids.size + 1) ++ nodes.drop place.index) =
      (place.fill (.cons label kids filling)).flat := by
    have sizes : (Forest.cons label kids filling).size = filling.size + (kids.size + 1) := by
      rw [Forest.size]
      omega
    rw [cells_append, cells_append, parts.1, parts.2, block, blockCells, Forest.Hole.flat_fill,
      sizes]
    simp [Forest.flat]
  have placeLength := congrArg List.length parts.1
  rw [length_cells, Forest.Hole.length_front, List.length_take] at placeLength
  refine ⟨⟨nodes.take place.index ++ (nodes.drop source.index).take (kids.size + 1) ++
    nodes.drop place.index, advanceId tree.idcnt (kids.size + 1), tree.arrsize⟩, ?_, ?_, ?_, ?_,
    newTree, rfl, rfl⟩
  · simp only [ayYnodeCopySubtree, rootStays, Option.bind_eq_bind, Option.bind_some, rootCount,
      ayYnodeInsertGapRange, block, blockLength]
    rw [if_pos (by omega)]
  · rw [block]
  · rw [← List.length_take] at placeLength
    rw [← copiedCells, cells_append, cells_append, block, blockCells]
    rcases Nat.lt_or_ge source.index place.index with ahead | behindIt
    · refine ⟨place.index, by omega, ?_⟩
      rw [List.append_assoc, List.getElem?_append_right (by simp [placeLength])]
      simp [placeLength]
    · refine ⟨source.index + (kids.size + 1), by omega, ?_⟩
      rw [List.getElem?_append_right (by simp [placeLength]; omega), cells, List.map_drop, ← cells,
        List.getElem?_drop, ← sourceCell]
      congr 1
      simp [placeLength]
      omega
  · refine encodes_of_cells copiedCells newTree ?_
    rw [List.append_assoc]
    refine alone.take_append (index_pos_of_parent inside) (fun empty => ?_) _
    simp [empty] at rootStays

end Block

section Primitives

variable {tree : YnodeTree} {forest : Forest Core} {dst src : Nat}

/-- Put a copy of the tree at `src` in at `dst` in the way of `put`. -/
def duplicate (put : Forest Core → Core → Forest Core → Forest Core → Forest Core) (dst src : Nat)
    (forest : Forest Core) : Forest Core :=
  forest.modifyAt (put (forest.treeAt src)) dst

theorem whenRefCorrection_same (copied original : Nat) (nodes : List AyYnode) :
    (ayYnodeCopySubtreeWhenRefCorrection copied original nodes).map
        (fun node => (node.cell, node.links)) =
      nodes.map fun node => (node.cell, node.links) := by
  rw [ayYnodeCopySubtreeWhenRefCorrection]
  generalize (nodes[original]?.map AyYnode.descendants).getD 0 = descendants
  induction List.range descendants generalizing nodes with
  | nil => rfl
  | cons offset rest inductionHypothesis =>
      rw [List.foldl_cons, inductionHypothesis]
      split
      · split
        · rfl
        · dsimp only
          split
          · exact map_modify_same fun _ => rfl
          · rfl
      · rfl

/-- A node with the id is found from the source on. -/
theorem ayYnodeGetNode_isSome {nodes : List AyYnode} {label : Core} {descendants : Nat}
    (found : ∃ position, src ≤ position ∧ (cells nodes)[position]? = some (label, descendants)) :
    ∃ original, ayYnodeGetNode nodes src label.id = some original := by
  obtain ⟨position, behindIt, cell⟩ := found
  rw [cells, List.getElem?_map, Option.map_eq_some_iff] at cell
  obtain ⟨node, nodeAt, nodeCell⟩ := cell
  have sameId : node.id = label.id := congrArg (fun cell => cell.1.id) nodeCell
  have member : node ∈ nodes.drop src := by
    refine List.mem_of_getElem? (i := position - src) ?_
    rw [List.getElem?_drop, Nat.add_sub_cancel' behindIt, nodeAt]
  have isSome : ((nodes.drop src).findIdx? fun node => node.id == label.id).isSome := by
    rw [List.findIdx?_isSome, List.any_eq_true]
    exact ⟨node, member, by simp [sameId]⟩
  obtain ⟨offset, offsetEq⟩ := Option.isSome_iff_exists.mp isSome
  exact ⟨src + offset, by rw [ayYnodeGetNode, offsetEq, Option.map_some]⟩

theorem Edited.whenRefCorrection {after : YnodeTree} {fresh : Nat}
    (edited : Edited tree forest fresh after) (copied original : Nat) :
    Edited tree forest fresh
      { after with
        nodes := ayYnodeCopySubtreeWhenRefCorrection copied original after.nodes } :=
  ⟨edited.encodes.of_same (whenRefCorrection_same copied original after.nodes), edited.isTree,
    edited.idcnt, edited.arrsize⟩

theorem duplicate_fill {source node : Forest.Hole Core} {label nodeLabel : Core}
    {kids rest nodeKids nodeRest : Forest Core}
    {put : Forest Core → Core → Forest Core → Forest Core → Forest Core}
    (same : source.fill (.cons label kids rest) = node.fill (.cons nodeLabel nodeKids nodeRest)) :
    duplicate put node.index source.index (source.fill (.cons label kids rest)) =
      node.fill (put (.cons label kids .nil) nodeLabel nodeKids nodeRest) := by
  rw [duplicate, Forest.Hole.treeAt_fill, same, Forest.Hole.modifyAt_fill]

/-- No ancestor of a node outside of a tree lies in that tree. -/
theorem ancestors_apart {source node : Forest.Hole Core} {label nodeLabel : Core}
    {kids rest nodeKids nodeRest : Forest Core}
    (same : source.fill (.cons label kids rest) = node.fill (.cons nodeLabel nodeKids nodeRest))
    (outside : node.index = source.index ∨
      Outside (source.fill (.cons label kids rest)) node.index source.index) :
    ∀ position ∈ node.ancestors,
      position < source.index ∨ source.index + (kids.size + 1) ≤ position := by
  intro position membership
  rcases outside with sameIndex | outside
  · have := Forest.Hole.lt_index_of_mem_ancestors membership
    exact .inl (by omega)
  · obtain ⟨left, leftKids, leftRest, -, -, shifted, -⟩ :=
      Forest.Hole.exists_of_cut same outside.of_fill
    rcases (shifted position).mp membership with ⟨ahead, -⟩ | ⟨behindIt, -⟩
    · exact .inl ahead
    · exact .inr behindIt

/-- What the call of a copy primitive amounts to: the block is copied to `place`, and references
are corrected by the `original` found from `src` on. -/
def Copies (tree : YnodeTree) (result : Option YnodeTree) (forest : Forest Core)
    (src size place : Nat) : Prop :=
  ∃ (chosen : List Nat) (copied : YnodeTree) (original : Nat) (srcNode : AyYnode),
    (∀ position ∈ chosen, position < src ∨ src + size ≤ position) ∧
    copied.nodes = withCopy chosen src size place tree.nodes ∧
    tree.nodes[src]? = some srcNode ∧
    ayYnodeGetNode (ayYnodeTreeCorrection copied.nodes) src srcNode.id = some original ∧
    result = some { copied with
      nodes := ayYnodeCopySubtreeWhenRefCorrection place original
        (ayYnodeTreeCorrection copied.nodes) } ∧
    Edited tree forest size { copied with nodes := ayYnodeTreeCorrection copied.nodes }

theorem Copies.edited {result : Option YnodeTree} {size place : Nat}
    (copies : Copies tree result forest src size place) :
    ∃ after, result = some after ∧ Edited tree forest size after := by
  obtain ⟨-, copied, original, -, -, -, -, -, ran, edited⟩ := copies
  exact ⟨_, ran, edited.whenRefCorrection place original⟩

/-- Index behind a subtree. -/
def behindTree (forest : Forest Core) (node : Nat) : Nat := node + (forest.treeAt node).size

/-- `dst` may also be the node that is copied. -/
theorem ayYnodeCopySubtreeAsSibling_copies (encodes : Encodes tree.nodes forest)
    (isTree : IsTree forest) (srcBound : src < forest.size)
    (room : (forest.treeAt src).size + tree.nodes.length ≤ tree.arrsize)
    (dstNotRoot : dst ≠ 0) (dstBound : dst < forest.size)
    (outside : dst = src ∨ Outside forest dst src) :
    Copies tree (ayYnodeCopySubtreeAsSibling tree dst src) (duplicate addBehind dst src forest) src
      (forest.treeAt src).size (behindTree forest dst) := by
  obtain ⟨node, nodeLabel, nodeKids, nodeRest, same, rfl⟩ := Forest.Hole.exists_of_lt_size dstBound
  obtain ⟨source, label, kids, rest, rfl, rfl⟩ := Forest.Hole.exists_of_lt_size srcBound
  obtain ⟨dstNode, dstAt, -, dstCount, dstParent, -⟩ := (same ▸ encodes).node_in
  obtain ⟨srcNode, srcAt, srcCore, srcCount, -⟩ := encodes.node_in
  have inside := parent_ne_none (same ▸ isTree) (by simp [Forest.size]) dstNotRoot
  have sizes : (Forest.cons label kids .nil).size = kids.size + 1 := by simp [Forest.size]
  have behindDst : behindTree (source.fill (.cons label kids rest)) node.index =
      node.index + nodeKids.size + 1 := by
    rw [behindTree, same, Forest.Hole.treeAt_fill, Forest.size, Forest.size]
    omega
  rw [duplicate_fill same, behindDst]
  rw [Forest.Hole.treeAt_fill, sizes] at room ⊢
  have apart := ancestors_apart same outside
  obtain ⟨copied, ran, shape, found, edited⟩ := @edited_copy _ _ (.behind nodeLabel nodeKids node) _ _ _
      _ encodes isTree room same inside apart
  obtain ⟨dstAfter, dstAfterAt, -, -, -, dstNext, -⟩ :=
    @Encodes.node_in _ node _ _ _ edited.encodes
  rw [if_neg (by simp [Forest.size])] at dstNext
  have srcId : srcNode.id = label.id := congrArg Core.id srcCore
  obtain ⟨original, isOriginal⟩ := ayYnodeGetNode_isSome (by rwa [← edited.encodes.cells] at found)
  refine ⟨_, copied, original, srcNode, apart, shape, srcAt, by rw [srcId, isOriginal], ?_, edited⟩
  simp only [Forest.Hole.parent, Forest.Hole.index] at ran
  simp only [ayYnodeCopySubtreeAsSibling, dstAt, srcAt, Option.bind_eq_bind, Option.bind_some,
    srcCount, if_pos room, dstParent, dstCount, ran, dstAfterAt, dstNext, srcId, isOriginal]

/-- Last child of a node. -/
theorem ayYnodeGetLast_eq {nodes : List AyYnode} {node : Forest.Hole Core} {label : Core}
    {kids rest : Forest Core} {found : AyYnode}
    (encodes : Encodes nodes (node.fill (.cons label kids rest)))
    (childEq : found.child = if kids.size = 0 then none else some (node.index + 1)) :
    ayYnodeGetLast found.child nodes = (rootIndices (node.index + 1) kids).getLast? := by
  have visited := @siblingsFrom_eq _ kids (.under label rest node) encodes
  rw [Forest.Hole.index, ← childEq] at visited
  rw [ayYnodeGetLast, visited]

/-- Telling the ancestors leaves the last child alone, so the copy goes behind its subtree. -/
theorem behindLast_eq {nodes : List AyYnode} {node : Forest.Hole Core} {label : Core}
    {kids rest : Forest Core} {change : Nat → Nat}
    (encodes : Encodes nodes (node.fill (.cons label kids rest))) :
    behindLast (onAncestors change (some node.index) nodes) node.index
        (rootIndices (node.index + 1) kids).getLast? = node.index + 1 + kids.size := by
  by_cases leaf : kids.size = 0
  · rw [Forest.eq_nil_of_size leaf]
    rfl
  · obtain ⟨last, lastLabel, lastKids, isLast, -, -, behindIt, ends, appended⟩ :=
      exists_last_root kids leaf (.under label rest node)
    rw [Forest.Hole.index] at isLast behindIt ends
    have atLast := appended .nil
    rw [Forest.append_nil, Forest.Hole.fill] at atLast
    obtain ⟨lastNode, lastAt, -, lastCount, -⟩ := (atLast ▸ encodes).node_in
    have told := @onAncestors_eq change (.under label rest node) kids _ encodes.links
    have notAbove : last.index ∉ (Forest.Hole.under label rest node).ancestors := fun above => by
      have := Forest.Hole.lt_index_of_mem_ancestors above
      rw [Forest.Hole.index] at this
      omega
    rw [Forest.Hole.parent] at told
    simp only [behindLast, isLast, told, getElem_changeAt notAbove, lastAt, Option.map_some, Option.getD_some,
      lastCount]
    omega

/-- A tree appended to others is the last of them. -/
theorem getLast_rootIndices_append (others : Forest Core) (label : Core) (kids : Forest Core)
    (start : Nat) :
    (rootIndices start (others.append (.cons label kids .nil))).getLast? =
      some (start + others.size) := by
  induction others generalizing start with
  | nil => rfl
  | cons _ otherKids rest _ restHypothesis =>
      rw [Forest.append, rootIndices, List.getLast?_cons, restHypothesis, Option.getD_some,
        Forest.size]
      congr 1
      omega

theorem ayYnodeCopySubtreeAsLastChild_copies (encodes : Encodes tree.nodes forest)
    (isTree : IsTree forest) (srcBound : src < forest.size)
    (room : (forest.treeAt src).size + tree.nodes.length ≤ tree.arrsize)
    (dstBound : dst < forest.size) (outside : Outside forest dst src)
    (notLast : ∀ dstNode, tree.nodes[dst]? = some dstNode →
      ayYnodeGetLast dstNode.child tree.nodes ≠ some src) :
    Copies tree (ayYnodeCopySubtreeAsLastChild tree dst src) (duplicate addLast dst src forest) src
      (forest.treeAt src).size (behindTree forest dst) := by
  obtain ⟨node, nodeLabel, nodeKids, nodeRest, same, rfl⟩ := Forest.Hole.exists_of_lt_size dstBound
  obtain ⟨source, label, kids, rest, rfl, rfl⟩ := Forest.Hole.exists_of_lt_size srcBound
  obtain ⟨dstNode, dstAt, -, -, -, -, dstChild⟩ := (same ▸ encodes).node_in
  obtain ⟨srcNode, srcAt, srcCore, srcCount, -⟩ := encodes.node_in
  have sizes : (Forest.cons label kids .nil).size = kids.size + 1 := by simp [Forest.size]
  have behindDst : behindTree (source.fill (.cons label kids rest)) node.index =
      node.index + 1 + nodeKids.size := by
    rw [behindTree, same, Forest.Hole.treeAt_fill, Forest.size, Forest.size]
    omega
  rw [duplicate_fill same, behindDst]
  rw [Forest.Hole.treeAt_fill, sizes] at room ⊢
  have apart := ancestors_apart same (.inr outside)
  have outsideIt := outside.of_fill
  have apartLast : ∀ position ∈ ((Forest.Hole.under nodeLabel nodeRest node).past nodeKids).ancestors,
      position < source.index ∨ source.index + (kids.size + 1) ≤ position := by
    intro position membership
    rw [Forest.Hole.ancestors_past, Forest.Hole.ancestors, List.mem_cons] at membership
    rcases membership with rfl | above
    · omega
    · exact apart position above
  obtain ⟨copied, ran, shape, found, edited⟩ := @edited_copy _ _
      ((Forest.Hole.under nodeLabel nodeRest node).past nodeKids) _ _ _ .nil encodes isTree room
      (by rw [Forest.Hole.fill_past, Forest.append_nil, Forest.Hole.fill, same])
      (by simp [Forest.Hole.parent]) apartLast
  rw [Forest.Hole.fill_past] at edited found
  have lastEq := ayYnodeGetLast_eq (same ▸ encodes) dstChild
  have behindIt := @behindLast_eq _ _ _ _ _ (· + (kids.size + 1)) (same ▸ encodes)
  have notGuarded := notLast dstNode dstAt
  rw [lastEq] at notGuarded
  -- the copy is found as the last child
  obtain ⟨dstAfter, dstAfterAt, -, -, -, -, afterChild⟩ :=
    @Encodes.node_in _ node _ _ _ edited.encodes
  have lastAfter := @ayYnodeGetLast_eq _ node _ _ _ _ edited.encodes afterChild
  rw [getLast_rootIndices_append] at lastAfter
  have srcId : srcNode.id = label.id := congrArg Core.id srcCore
  obtain ⟨original, isOriginal⟩ := ayYnodeGetNode_isSome (by rwa [← edited.encodes.cells] at found)
  simp only [Forest.Hole.parent_past, Forest.Hole.parent, Forest.Hole.index_past,
    Forest.Hole.index] at ran shape
  refine ⟨_, copied, original, srcNode, apartLast, shape, srcAt, by rw [srcId, isOriginal], ?_,
    edited⟩
  simp only [ayYnodeCopySubtreeAsLastChild, dstAt, srcAt, Option.bind_eq_bind, Option.bind_some,
    srcCount, if_pos room, lastEq, if_neg notGuarded, behindIt, ran, dstAfterAt, lastAfter, srcId,
    isOriginal]

end Primitives

end SysrepoAugeas.Ynode
