import SysrepoAugeas.Ynode.Delete

/-!
# Moving subtrees

A block of nodes is taken out of the array and put in at another place, in one
piece or node by node.  The ancestors of both places have been told before, so
that the cells are those of the forest with the tree relocated.
-/

namespace SysrepoAugeas.Ynode

open SysrepoAugeas.Data

section Blocks

variable {arrsize : Nat}

theorem advanceId_add (idcnt : YnodeId) (count more : Nat) :
    advanceId (advanceId idcnt count) more = advanceId idcnt (count + more) := by
  simp [advanceId, BitVec.ofNat_add, BitVec.add_assoc]

/-- One node goes from behind `front` to behind `newFront` in what is left. -/
theorem moveOneByOne_step {front back newFront newBack : List AyYnode} {node : AyYnode}
    {idcnt : YnodeId} {dst count : Nat} (same : front ++ back = newFront ++ newBack)
    (place : newFront.length = if front.length < dst then dst - 1 else dst)
    (room : front.length + back.length < arrsize) :
    moveOneByOne (count + 1) dst front.length ⟨front ++ node :: back, idcnt, arrsize⟩ =
      moveOneByOne count (newFront.length + 1)
        (if newFront.length < front.length then front.length + 1 else front.length)
        ⟨newFront ++ node :: newBack, advanceId idcnt 1, arrsize⟩ := by
  have found : (front ++ node :: back)[front.length]? = some node := by simp
  have left : (front ++ node :: back).take front.length ++
      (front ++ node :: back).drop (front.length + 1) = newFront ++ newBack := by
    rw [List.take_left' rfl, ← same, List.append_cons, List.drop_left' (by simp)]
  have lengths := congrArg List.length same
  simp only [List.length_append] at lengths
  have gap : ayYnodeInsertGap ⟨newFront ++ newBack, idcnt, arrsize⟩ newFront.length =
      some ⟨newFront ++ AyYnode.blank idcnt :: newBack, advanceId idcnt 1, arrsize⟩ := by
    rw [ayYnodeInsertGap, if_pos (by simp only [List.length_append]; omega),
      List.take_left' rfl, List.drop_left' rfl]
  simp only [moveOneByOne, found, Option.bind_eq_bind, Option.bind_some, ayYnodeDeleteGap, left,
    ← place, gap]
  simp

/-- Node by node towards the front. -/
theorem moveOneByOne_ahead (block : List AyYnode) {front middle back : List AyYnode}
    (nonempty : middle ≠ []) (idcnt : YnodeId)
    (room : front.length + middle.length + block.length + back.length ≤ arrsize) :
    moveOneByOne block.length front.length (front.length + middle.length)
        ⟨front ++ (middle ++ (block ++ back)), idcnt, arrsize⟩ =
      some ⟨front ++ (block ++ (middle ++ back)), advanceId idcnt block.length, arrsize⟩ := by
  induction block generalizing front idcnt with
  | nil => simp [moveOneByOne, advanceId]
  | cons node block inductionHypothesis =>
      have positive := List.length_pos_iff.mpr nonempty
      simp only [List.length_cons] at room
      have step := @moveOneByOne_step arrsize (front ++ middle) (block ++ back) front
          (middle ++ (block ++ back)) node idcnt front.length block.length (by simp)
          (by rw [if_neg (by simp)]) (by simp only [List.length_append]; omega)
      have next := @inductionHypothesis (front ++ [node]) (advanceId idcnt 1)
        (by simp only [List.length_append, List.length_cons, List.length_nil]; omega)
      simp only [List.length_append, List.length_cons, List.length_nil, List.append_assoc,
        List.cons_append, List.nil_append, advanceId_add, Nat.zero_add] at next step ⊢
      rw [step, if_pos (by omega), show front.length + middle.length + 1 =
        front.length + 1 + middle.length by omega, next, Nat.add_comm 1]

/-- Node by node towards the back. -/
theorem moveOneByOne_back (block : List AyYnode) {front middle back : List AyYnode}
    (idcnt : YnodeId)
    (room : front.length + middle.length + block.length + back.length ≤ arrsize) :
    moveOneByOne block.length (front.length + block.length + middle.length) front.length
        ⟨front ++ (block ++ (middle ++ back)), idcnt, arrsize⟩ =
      some ⟨front ++ (middle ++ (block ++ back)), advanceId idcnt block.length, arrsize⟩ := by
  induction block generalizing middle idcnt with
  | nil => simp [moveOneByOne, advanceId]
  | cons node block inductionHypothesis =>
      simp only [List.length_cons] at room
      have step := @moveOneByOne_step arrsize front (block ++ (middle ++ back))
          (front ++ (block ++ middle)) back node idcnt
          (front.length + (block.length + 1) + middle.length) block.length (by simp)
          (by rw [if_pos (by omega)]; simp only [List.length_append]; omega)
          (by simp only [List.length_append]; omega)
      have next := @inductionHypothesis (middle ++ [node]) (advanceId idcnt 1)
        (by simp only [List.length_append, List.length_cons, List.length_nil]; omega)
      simp only [List.length_append, List.length_cons, List.length_nil, List.append_assoc,
        List.cons_append, List.nil_append, advanceId_add, Nat.zero_add] at next step ⊢
      rw [step, if_neg (by omega), show front.length + (block.length + middle.length) + 1 =
        front.length + block.length + (middle.length + 1) by omega, next, Nat.add_comm 1]

/-- `dst` is where `place` is among the rest once the block at `start` is gone. -/
def Lands (start count dst place : Nat) : Prop :=
  (dst ≤ start ∧ place = dst) ∨ (start + count ≤ dst ∧ place + count = dst)

/-- `ay_ynode_move_subtree` on an array split at the block. -/
theorem ayYnodeMoveSubtree_eq {front block back : List AyYnode} {root : AyYnode}
    {idcnt : YnodeId} {dst place : Nat} (first : block.head? = some root)
    (count : root.descendants + 1 = block.length)
    (room : front.length + block.length + back.length ≤ arrsize)
    (bound : place ≤ front.length + back.length)
    (lands : Lands front.length block.length dst place) :
    ∃ fresh, fresh ≤ block.length ∧
      ayYnodeMoveSubtree ⟨front ++ (block ++ back), idcnt, arrsize⟩ dst front.length =
        some ⟨(front ++ back).take place ++ (block ++ (front ++ back).drop place),
          advanceId idcnt fresh, arrsize⟩ := by
  have positive : 0 < block.length := by omega
  by_cases stays : dst = front.length
  · refine ⟨0, Nat.zero_le _, ?_⟩
    have placeEq : place = front.length := by
      rcases lands with ⟨-, there⟩ | ⟨behindIt, there⟩ <;> omega
    rw [ayYnodeMoveSubtree, if_pos stays, placeEq, List.take_left' rfl, List.drop_left' rfl]
    simp [advanceId]
  refine ⟨block.length, Nat.le_refl _, ?_⟩
  have found : (front ++ (block ++ back))[front.length]? = some root := by
    rw [List.getElem?_append_right (Nat.le_refl _), Nat.sub_self,
      List.getElem?_append_left positive, ← List.head?_eq_getElem?, first]
  simp only [ayYnodeMoveSubtree, if_neg stays, found, Option.bind_eq_bind, Option.bind_some, count]
  split
  · -- in one piece through the free end of the array
    have buffered : ((front ++ (block ++ back)).drop front.length).take block.length = block := by
      rw [List.drop_left' rfl, List.take_left' rfl]
    have left : (front ++ (block ++ back)).take front.length ++
        (front ++ (block ++ back)).drop (front.length + block.length) = front ++ back := by
      rw [List.take_left' rfl, ← List.append_assoc, List.drop_left' (by simp)]
    have placeEq : (if front.length < dst then dst - block.length else dst) = place := by
      rcases lands with ⟨ahead, there⟩ | ⟨behindIt, there⟩
      · rw [if_neg (by omega), there]
      · rw [if_pos (by omega), ← there, Nat.add_sub_cancel]
    rw [buffered, placeEq, ayYnodeDeleteGapRange, left, ayYnodeInsertGapRange,
      if_pos (by simp only [List.length_append]; omega)]
    simp
  · rcases lands with ⟨ahead, rfl⟩ | ⟨behindIt, there⟩
    · -- the nodes between the places, which are passed
      have moved := @moveOneByOne_ahead arrsize block (front.take place) (front.drop place) back
          (by simp only [ne_eq, List.drop_eq_nil_iff]; omega) idcnt
          (by simp only [List.length_take, List.length_drop]; omega)
      simp only [List.length_take, List.length_drop, Nat.min_eq_left ahead,
        Nat.add_sub_cancel' ahead, ← List.append_assoc, List.take_append_drop] at moved
      rw [← List.append_assoc, moved, List.take_append_of_le_length ahead,
        List.drop_append_of_le_length ahead]
      simp
    · have moved := @moveOneByOne_back arrsize block front (back.take (place - front.length))
          (back.drop (place - front.length)) idcnt
          (by simp only [List.length_take, List.length_drop]; omega)
      rw [List.take_append_drop, List.length_take, Nat.min_eq_left (by omega),
        show front.length + block.length + (place - front.length) = dst by omega] at moved
      have passed : front.length ≤ place := by omega
      rw [moved, List.take_append, List.drop_append, List.take_of_length_le passed,
        List.drop_of_length_le passed]
      simp

end Blocks

section Relocation

variable {tree : YnodeTree} {source place start : Forest.Hole Core} {label : Core}
  {kids rest filling startFilling : Forest Core}

theorem index_pos_of_parent {hole : Forest.Hole Core} (inside : hole.parent ≠ none) :
    0 < hole.index := by
  cases hole with
  | top => exact absurd rfl inside
  | behind label kids outer => simp [Forest.Hole.index]
  | under label rest outer => simp [Forest.Hole.index]

/-- Both walks over ancestors change the counts where the links lead. -/
theorem onAncestors_twice {lower raised : Nat → Nat}
    (encodes : Encodes tree.nodes (source.fill (.cons label kids rest)))
    (started : source.fill (.cons label kids rest) = start.fill startFilling) :
    onAncestors raised start.parent (onAncestors lower source.parent tree.nodes) =
      changeAt raised start.ancestors (changeAt lower source.ancestors tree.nodes) := by
  have links : (changeAt lower source.ancestors tree.nodes).map AyYnode.links =
      (start.fill startFilling).links 0 none := by
    rw [links_changeAt, ← started, encodes.links]
  rw [onAncestors_eq encodes.links, onAncestors_eq links]

/-- Cells once the tree has been taken off its ancestors and put on those of its new place:
around its block they are the cells in front of and behind the place. -/
theorem cells_told (encodes : Encodes tree.nodes (source.fill (.cons label kids rest)))
    (refilled : source.fill rest = place.fill filling)
    (shifted : Forest.Shifted source.index (kids.size + 1) start.ancestors place.ancestors) :
    ∃ front back, front.length = source.index ∧
      cells (changeAt (· + (kids.size + 1)) start.ancestors
          (changeAt (· - (kids.size + 1)) source.ancestors tree.nodes)) =
        front ++ (((label, kids.size) :: kids.flat) ++ back) ∧
      front ++ back = place.front (filling.size + (kids.size + 1)) ++
        (filling.flat ++ place.back) := by
  have lowered := @cells_onAncestors _ _ (· - (kids.size + 1)) rest.size _ encodes fun more => by simp only [Forest.size]; omega
  rw [onAncestors_eq encodes.links] at lowered
  have split : (Forest.cons label kids rest).flat ++ source.back =
      ((label, kids.size) :: kids.flat) ++ (rest.flat ++ source.back) := by
    simp [Forest.flat]
  have blockLength : ((label, kids.size) :: kids.flat).length = kids.size + 1 := by simp
  rw [← Forest.Hole.length_front source rest.size, ← blockLength] at shifted
  obtain ⟨front, back, told, frontLength, joined⟩ :=
    @Forest.raise_shifted _ (· + (kids.size + 1)) _ _ _ _ (rest.flat ++ source.back) shifted
  refine ⟨front, back, by rw [frontLength, Forest.Hole.length_front], ?_, ?_⟩
  · rw [cells_changeAt, lowered, split, told]
  · rw [joined, ← Forest.Hole.flat_fill, refilled, Forest.Hole.flat_fill,
      @Forest.Hole.raise_front _ _ _ (filling.size + (kids.size + 1)) fun more => by omega]

/-- The block is moved to its new place and the links are corrected. -/
theorem edited_move {dst : Nat}
    (encodes : Encodes tree.nodes (source.fill (.cons label kids rest)))
    (isTree : IsTree (source.fill (.cons label kids rest))) (notRoot : source.index ≠ 0)
    (room : tree.nodes.length ≤ tree.arrsize)
    (refilled : source.fill rest = place.fill filling) (inside : place.parent ≠ none)
    (started : source.fill (.cons label kids rest) = start.fill startFilling)
    (shifted : Forest.Shifted source.index (kids.size + 1) start.ancestors place.ancestors)
    (lands : Lands source.index (kids.size + 1) dst place.index) :
    ∃ moved fresh, fresh ≤ kids.size + 1 ∧
      ayYnodeMoveSubtree { tree with
          nodes := onAncestors (· + (kids.size + 1)) start.parent
            (onAncestors (· - (kids.size + 1)) source.parent tree.nodes) } dst source.index =
        some moved ∧
      Edited tree (place.fill (.cons label kids filling)) fresh
        { moved with nodes := ayYnodeTreeCorrection moved.nodes } := by
  have sourceInside := parent_ne_none isTree (by simp [Forest.size]) notRoot
  have smaller := isTree_fill isTree sourceInside rest
  rw [refilled] at smaller
  have newTree := isTree_fill smaller inside (.cons label kids filling)
  obtain ⟨front, back, frontLength, told, joined⟩ := cells_told encodes refilled shifted
  rw [onAncestors_twice encodes started]
  have alone : RootAlone (changeAt (· + (kids.size + 1)) start.ancestors
      (changeAt (· - (kids.size + 1)) source.ancestors tree.nodes)) := by
    refine (encodes.rootAlone isTree).of_links ?_
    rw [links_changeAt, links_changeAt]
  have sameLength : (changeAt (· + (kids.size + 1)) start.ancestors
      (changeAt (· - (kids.size + 1)) source.ancestors tree.nodes)).length =
      tree.nodes.length := by
    rw [length_changeAt, length_changeAt]
  generalize changeAt (· + (kids.size + 1)) start.ancestors
    (changeAt (· - (kids.size + 1)) source.ancestors tree.nodes) = nodes at told alone sameLength ⊢
  -- the nodes split like the cells
  obtain ⟨frontNodes, restNodes, rfl, frontCells, restCells⟩ := List.map_eq_append_iff.mp told
  obtain ⟨blockNodes, backNodes, rfl, blockCells, backCells⟩ := List.map_eq_append_iff.mp restCells
  have frontNodesLength : frontNodes.length = source.index := by
    rw [← frontLength, ← frontCells, List.length_map]
  have blockLength : blockNodes.length = kids.size + 1 := by
    rw [← List.length_map (f := AyYnode.cell), blockCells]
    simp
  obtain ⟨root, isFirst, rootCount⟩ : ∃ root, blockNodes.head? = some root ∧
      root.descendants + 1 = blockNodes.length := by
    obtain ⟨root, kidNodes, rfl, rootCell, -⟩ := List.map_eq_cons_iff.mp blockCells
    exact ⟨root, rfl, by rw [blockLength, show root.descendants = kids.size from
      congrArg Prod.snd rootCell]⟩
  have outerCells : cells (frontNodes ++ backNodes) =
      place.front (filling.size + (kids.size + 1)) ++ (filling.flat ++ place.back) := by
    rw [cells_append, cells, cells, frontCells, backCells, joined]
  have outerLength := congrArg List.length outerCells
  simp only [List.length_append, length_cells, Forest.Hole.length_front,
    Forest.length_flat] at outerLength
  simp only [List.length_append] at sameLength
  rw [← frontNodesLength, ← blockLength] at lands
  obtain ⟨fresh, few, moved⟩ := @ayYnodeMoveSubtree_eq tree.arrsize frontNodes _ backNodes _
      tree.idcnt _ _ isFirst rootCount (by omega) (by omega) lands
  rw [frontNodesLength] at moved
  refine ⟨_, fresh, by omega, moved, encodes_of_cells ?_ newTree ?_, newTree, rfl, rfl⟩
  · have parts : cells ((frontNodes ++ backNodes).take place.index) =
          place.front (filling.size + (kids.size + 1)) ∧
        cells ((frontNodes ++ backNodes).drop place.index) = filling.flat ++ place.back := by
      rw [cells, cells, List.map_take, List.map_drop, ← cells, outerCells,
        ← Forest.Hole.length_front place (filling.size + (kids.size + 1))]
      exact ⟨List.take_left' rfl, List.drop_left' rfl⟩
    have sizes : (Forest.cons label kids filling).size = filling.size + (kids.size + 1) := by
      rw [Forest.size]
      omega
    rw [cells_append, cells_append, parts.1, parts.2, cells, blockCells, Forest.Hole.flat_fill,
      sizes]
    simp [Forest.flat]
  · have sourcePositive := index_pos_of_parent sourceInside
    have nonempty : frontNodes ++ backNodes ≠ [] := by
      intro empty
      simp only [List.append_eq_nil_iff] at empty
      simp [empty.1] at frontNodesLength
      omega
    have outerAlone : RootAlone (frontNodes ++ backNodes) := by
      have shorter := @RootAlone.take_append _ alone frontNodes.length (by omega)
          (fun empty => nonempty (by simp only [List.append_eq_nil_iff] at empty ⊢; simp [empty]))
          backNodes
      rwa [List.take_left' rfl] at shorter
    exact outerAlone.take_append (index_pos_of_parent inside) nonempty _

end Relocation

section Primitives

variable {tree : YnodeTree} {forest : Forest Core} {dst src : Nat}

/-- Take the tree at `src` out and put it in at `dst` in the way of `put`. -/
def relocate (put : Forest Core → Core → Forest Core → Forest Core → Forest Core) (dst src : Nat)
    (forest : Forest Core) : Forest Core :=
  (forest.modifyAt Forest.cut src).modifyAt (put (forest.treeAt src))
    (Forest.unshift src (forest.treeAt src).size dst)

theorem relocate_fill {source place : Forest.Hole Core} {label placeLabel : Core}
    {kids rest placeKids placeRest : Forest Core}
    {put : Forest Core → Core → Forest Core → Forest Core → Forest Core}
    (refilled : source.fill rest = place.fill (.cons placeLabel placeKids placeRest))
    (indexEq : place.index = Forest.unshift source.index (kids.size + 1) dst) :
    relocate put dst source.index (source.fill (.cons label kids rest)) =
      place.fill (put (.cons label kids .nil) placeLabel placeKids placeRest) := by
  have sizes : (Forest.cons label kids .nil).size = kids.size + 1 := by simp [Forest.size]
  rw [relocate, Forest.Hole.treeAt_fill, sizes, ← indexEq, Forest.Hole.modifyAt_fill, Forest.cut,
    refilled, Forest.Hole.modifyAt_fill]

/-- `dst` is not in the subtree of `src`. -/
def Outside (forest : Forest Core) (dst src : Nat) : Prop :=
  dst < src ∨ src + (forest.treeAt src).size ≤ dst

instance : Decidable (Outside forest dst src) := inferInstanceAs (Decidable (_ ∨ _))

theorem Outside.of_fill {source : Forest.Hole Core} {label : Core} {kids rest : Forest Core}
    (outside : Outside (source.fill (.cons label kids rest)) dst source.index) :
    dst < source.index ∨ source.index + kids.size + 1 ≤ dst := by
  rw [Outside, Forest.Hole.treeAt_fill, Forest.size, Forest.size] at outside
  omega

/-- A moved tree: the move runs and gives the forest with the tree relocated. -/
def Moves (tree : YnodeTree) (result : Option YnodeTree) (forest : Forest Core) (size : Nat) :
    Prop :=
  ∃ after fresh, fresh ≤ size ∧ result = some after ∧ Edited tree forest fresh after

theorem Moves.stays (encodes : Encodes tree.nodes forest) (isTree : IsTree forest) (size : Nat) :
    Moves tree (some tree) forest size :=
  ⟨tree, 0, Nat.zero_le _, rfl, encodes, isTree, by simp [advanceId], rfl⟩

/-- The next sibling already stands behind the node. -/
theorem relocate_next (node : Forest.Hole Core) (label nextLabel : Core)
    (kids nextKids rest : Forest Core) :
    relocate addBehind node.index (node.index + kids.size + 1)
        (node.fill (.cons label kids (.cons nextLabel nextKids rest))) =
      node.fill (.cons label kids (.cons nextLabel nextKids rest)) :=
  @relocate_fill _ (.behind label kids node) node _ _ _ _ _ _ _ rfl
      (by rw [Forest.unshift, Forest.Hole.index, if_pos (by omega)])

/-- The first child already stands first. -/
theorem relocate_child (node : Forest.Hole Core) (label childLabel : Core)
    (childKids kids rest : Forest Core) :
    relocate addFirst node.index (node.index + 1)
        (node.fill (.cons label (.cons childLabel childKids kids) rest)) =
      node.fill (.cons label (.cons childLabel childKids kids) rest) :=
  @relocate_fill _ (.under label rest node) node _ _ _ _ _ _ _ rfl
      (by rw [Forest.unshift, Forest.Hole.index, if_pos (by omega)])

theorem exists_cons_of_size {some : Forest Core} (nonempty : some.size ≠ 0) :
    ∃ label kids rest, some = .cons label kids rest := by
  cases some with
  | nil => simp [Forest.size] at nonempty
  | cons label kids rest => exact ⟨label, kids, rest, rfl⟩

theorem ayYnodeMoveSubtreeAsSibling_moves (encodes : Encodes tree.nodes forest)
    (isTree : IsTree forest) (room : tree.nodes.length ≤ tree.arrsize)
    (srcNotRoot : src ≠ 0) (srcBound : src < forest.size)
    (dstNotRoot : dst ≠ 0) (dstBound : dst < forest.size) (outside : Outside forest dst src) :
    Moves tree (ayYnodeMoveSubtreeAsSibling tree dst src) (relocate addBehind dst src forest)
      (forest.treeAt src).size := by
  obtain ⟨node, nodeLabel, nodeKids, nodeRest, dstNode, same, rfl, dstAt, dstCount, dstParent,
    dstNext, -⟩ := encodes.node_at dstBound
  obtain ⟨source, label, kids, rest, srcNode, rfl, rfl, srcAt, srcCount, srcParent, -, -⟩ :=
    encodes.node_at srcBound
  simp only [ayYnodeMoveSubtreeAsSibling, dstAt, srcAt, Option.bind_eq_bind, Option.bind_some,
    dstParent, srcParent, dstCount, srcCount]
  by_cases stays : dstNode.next = some source.index
  · have nonempty : nodeRest.size ≠ 0 := fun empty => by simp [dstNext, empty] at stays
    obtain ⟨nextLabel, nextKids, rest', rfl⟩ := exists_cons_of_size nonempty
    have place : node.index + nodeKids.size + 1 = source.index := by
      simpa [dstNext, nonempty] using stays
    rw [if_pos stays, same, ← place, relocate_next]
    exact .stays (same ▸ encodes) (same ▸ isTree) _
  · obtain ⟨left, leftKids, leftRest, refilled, indexEq, shifted, ends⟩ :=
      Forest.Hole.exists_of_cut same outside.of_fill
    have leftInside : left.parent ≠ none := by
      have sourceInside := parent_ne_none isTree (by simp [Forest.size]) srcNotRoot
      have smaller := isTree_fill isTree sourceInside rest
      rw [refilled] at smaller
      refine parent_ne_none smaller (by simp [Forest.size]) ?_
      have := outside.of_fill
      rw [indexEq, Forest.unshift]
      split <;> omega
    obtain ⟨moved, fresh, few, ran, edited⟩ := @edited_move _ _ (.behind nodeLabel leftKids left)
        node _ _ _ _ _ (node.index + nodeKids.size + 1) encodes isTree srcNotRoot room refilled
        leftInside same shifted (by
        simp only [Lands, Forest.Hole.index]
        rcases ends with ⟨ahead, there⟩ | ⟨behindIt, there⟩
        · exact .inl ⟨by omega, by omega⟩
        · exact .inr ⟨by omega, by omega⟩)
    rw [if_neg stays, relocate_fill refilled indexEq, Forest.Hole.treeAt_fill]
    refine ⟨_, fresh, ?_, ?_, edited⟩
    · simpa [Forest.size] using few
    · rw [ran, Option.bind_some]

theorem ayYnodeMoveSubtreeAsChild_moves (encodes : Encodes tree.nodes forest)
    (isTree : IsTree forest) (room : tree.nodes.length ≤ tree.arrsize)
    (srcNotRoot : src ≠ 0) (srcBound : src < forest.size) (dstBound : dst < forest.size)
    (outside : Outside forest dst src) :
    Moves tree (ayYnodeMoveSubtreeAsChild tree dst src) (relocate addFirst dst src forest)
      (forest.treeAt src).size := by
  obtain ⟨node, nodeLabel, nodeKids, nodeRest, dstNode, same, rfl, dstAt, -, -, -, dstChild⟩ :=
    encodes.node_at dstBound
  obtain ⟨source, label, kids, rest, srcNode, rfl, rfl, srcAt, srcCount, srcParent, -, -⟩ :=
    encodes.node_at srcBound
  simp only [ayYnodeMoveSubtreeAsChild, dstAt, srcAt, Option.bind_eq_bind, Option.bind_some,
    srcParent, srcCount]
  by_cases stays : dstNode.child = some source.index
  · have nonempty : nodeKids.size ≠ 0 := fun empty => by simp [dstChild, empty] at stays
    obtain ⟨childLabel, childKids, kids', rfl⟩ := exists_cons_of_size nonempty
    have place : node.index + 1 = source.index := by
      simpa [dstChild, nonempty] using stays
    rw [if_pos stays, same, ← place, relocate_child]
    exact .stays (same ▸ encodes) (same ▸ isTree) _
  · have outsideIt := outside.of_fill
    obtain ⟨left, leftKids, leftRest, refilled, indexEq, shifted, -⟩ :=
      Forest.Hole.exists_of_cut same outsideIt
    have belowShifted := shifted.cons outsideIt
    rw [← indexEq] at belowShifted
    obtain ⟨moved, fresh, few, ran, edited⟩ := @edited_move _ _ (.under nodeLabel leftRest left)
        (.under nodeLabel nodeRest node) _ _ _ _ nodeKids (node.index + 1) encodes isTree
        srcNotRoot room refilled (by simp [Forest.Hole.parent]) same belowShifted (by
        simp only [Lands, Forest.Hole.index, indexEq, Forest.unshift]
        split
        · exact .inl ⟨by omega, rfl⟩
        · exact .inr ⟨by omega, by omega⟩)
    rw [if_neg stays, relocate_fill refilled indexEq, Forest.Hole.treeAt_fill]
    refine ⟨_, fresh, ?_, ?_, edited⟩
    · simpa [Forest.size] using few
    · rw [Forest.Hole.parent] at ran
      rw [ran, Option.bind_some]

theorem ayYnodeMoveSubtreeAsLastChild_moves (encodes : Encodes tree.nodes forest)
    (isTree : IsTree forest) (room : tree.nodes.length ≤ tree.arrsize)
    (srcNotRoot : src ≠ 0) (srcBound : src < forest.size) (dstBound : dst < forest.size)
    (outside : Outside forest dst src) :
    Moves tree (ayYnodeMoveSubtreeAsLastChild tree dst src) (relocate addLast dst src forest)
      (forest.treeAt src).size := by
  have asChild := ayYnodeMoveSubtreeAsChild_moves encodes isTree room srcNotRoot srcBound dstBound
    outside
  obtain ⟨node, nodeLabel, nodeKids, nodeRest, dstNode, same, rfl, dstAt, -, -, -, dstChild⟩ :=
    encodes.node_at dstBound
  obtain ⟨source, label, kids, rest, srcNode, rfl, rfl, srcAt, srcCount, srcParent, -, -⟩ :=
    encodes.node_at srcBound
  have outsideIt := outside.of_fill
  obtain ⟨left, leftKids, leftRest, refilled, indexEq, shifted, ends⟩ :=
    Forest.Hole.exists_of_cut same outsideIt
  have visited := @siblingsFrom_eq _ nodeKids (.under nodeLabel nodeRest node) (same ▸ encodes)
  rw [Forest.Hole.index, ← dstChild] at visited
  have lastEq : ayYnodeGetLast dstNode.child tree.nodes =
      (rootIndices (node.index + 1) nodeKids).getLast? := by rw [ayYnodeGetLast, visited]
  have different : node.index ≠ source.index := by omega
  simp only [ayYnodeMoveSubtreeAsLastChild, if_neg different, dstAt, Option.bind_eq_bind,
    Option.bind_some, lastEq]
  rw [relocate_fill refilled indexEq] at asChild ⊢
  rw [Forest.Hole.treeAt_fill] at asChild ⊢
  by_cases leaf : nodeKids.size = 0
  · have noKids := Forest.eq_nil_of_size leaf
    have noLeftKids : leftKids.size = 0 := by
      rw [indexEq, Forest.unshift] at ends
      split at ends <;> omega
    rw [Forest.eq_nil_of_size noLeftKids] at asChild ⊢
    simpa [noKids, rootIndices, addFirst, addLast, Forest.append] using asChild
  · obtain ⟨last, lastLabel, lastKids, isLast, lastParent, -, -, lastEnds, appended⟩ :=
      exists_last_root nodeKids leaf (.under nodeLabel nodeRest node)
    rw [Forest.Hole.index] at isLast lastEnds
    rw [Forest.Hole.parent] at lastParent
    have atLast := appended .nil
    rw [Forest.append_nil, Forest.Hole.fill, ← same] at atLast
    obtain ⟨lastNode, lastAt, -, lastCount, parentEq, nextEq, -⟩ := (atLast ▸ encodes).node_in
    rw [if_pos (by simp [Forest.size])] at nextEq
    have belowShifted := shifted.cons outsideIt
    rw [← indexEq] at belowShifted
    obtain ⟨moved, fresh, few, ran, edited⟩ := @edited_move _ _
        ((Forest.Hole.under nodeLabel leftRest left).past leftKids)
        (.under nodeLabel nodeRest node) _ _ _ .nil nodeKids (last.index + lastKids.size + 1)
        encodes isTree srcNotRoot room
        (by rw [Forest.Hole.fill_past, Forest.append_nil, Forest.Hole.fill, refilled])
        (by simp [Forest.Hole.parent]) same (by simpa [Forest.Hole.ancestors] using belowShifted)
        (by
        simp only [Lands, Forest.Hole.index_past, Forest.Hole.index]
        rcases ends with ⟨ahead, there⟩ | ⟨behindIt, there⟩
        · exact .inl ⟨by omega, by omega⟩
        · exact .inr ⟨by omega, by omega⟩)
    simp only [isLast, ayYnodeMoveSubtreeAsSibling, lastAt, srcAt, Option.bind_eq_bind,
      Option.bind_some, lastCount, srcCount, parentEq, srcParent, nextEq, lastParent]
    rw [if_neg (by simp)]
    rw [Forest.Hole.fill_past] at edited
    refine ⟨_, fresh, ?_, ?_, edited⟩
    · simpa [Forest.size] using few
    · rw [Forest.Hole.parent] at ran
      rw [ran, Option.bind_some]

end Primitives

end SysrepoAugeas.Ynode
