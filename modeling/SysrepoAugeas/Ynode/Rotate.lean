import SysrepoAugeas.Ynode.Run

/-!
# Both ways to move a block

`ay_ynode_move_subtree` copies the block behind the array if there is free
space, and moves it node by node else.  Both put the block in front of the
node that was at the destination.
-/

namespace SysrepoAugeas.Ynode

open SysrepoAugeas.Data

/-- Where the destination is once the block is gone. -/
theorem landing_eq {start count dst place : Nat} (positive : 0 < count)
    (lands : Lands start count dst place) :
    (if start < dst then dst - count else dst) = place := by
  rcases lands with ⟨ahead, there⟩ | ⟨behindIt, there⟩
  · rw [if_neg (by omega), there]
  · rw [if_pos (by omega), ← there, Nat.add_sub_cancel]

section Memory

/-! The branch through the free space, on all the nodes that are allocated. -/

/-- `memcpy` or `memmove` between nodes of the array. -/
def moveCells (dst src items : Nat) (cells : List AyYnode) : List AyYnode :=
  cells.take dst ++ ((cells.drop src).take items ++ cells.drop (dst + items))

/-- `memset` -/
def clearCells (start items : Nat) (cells : List AyYnode) : List AyYnode :=
  cells.take start ++ (List.replicate items (AyYnode.blank 0) ++ cells.drop (start + items))

/-- Loop of `ay_ynode_insert_gap_range`. -/
def numberCells : Nat → Nat → YnodeId → List AyYnode → List AyYnode
  | _, 0, _, cells => cells
  | index, items + 1, idcnt, cells =>
      numberCells (index + 1) items (advanceId idcnt 1)
        (cells.modify index fun node => { node with id := idcnt })

/-- The array and the counter after the branch of `ay_ynode_move_subtree` with a buffer. -/
def moveBuffered (count dst src subtreeSize : Nat) (idcnt : YnodeId) (cells : List AyYnode) :
    List AyYnode × YnodeId :=
  -- the buffer begins behind the array
  let cells := moveCells count src subtreeSize cells
  -- `ay_ynode_delete_gap_range`
  let cells := moveCells src (src + subtreeSize) (count - src - subtreeSize) cells
  let cells := clearCells (count - subtreeSize) subtreeSize cells
  let dst := if src < dst then dst - subtreeSize else dst
  -- `ay_ynode_insert_gap_range`
  let cells := moveCells (dst + subtreeSize) dst (count - subtreeSize - dst) cells
  let cells := numberCells dst subtreeSize idcnt cells
  let cells := moveCells dst count subtreeSize cells
  (cells.take count, advanceId idcnt subtreeSize)

theorem moveCells_eq {front old new back : List AyYnode} {src : Nat}
    (lengths : old.length = new.length)
    (source : ((front ++ (old ++ back)).drop src).take new.length = new) :
    moveCells front.length src new.length (front ++ (old ++ back)) = front ++ (new ++ back) := by
  rw [moveCells, source, List.take_left' rfl, ← List.append_assoc front old,
    List.drop_left' (by rw [List.length_append, lengths])]

theorem numberCells_eq (gap : List AyYnode) (front back : List AyYnode) (idcnt : YnodeId) :
    ∃ numbered, numbered.length = gap.length ∧
      numberCells front.length gap.length idcnt (front ++ (gap ++ back)) =
        front ++ (numbered ++ back) := by
  induction gap generalizing front idcnt with
  | nil => exact ⟨[], rfl, rfl⟩
  | cons node gap inductionHypothesis =>
      obtain ⟨numbered, lengths, numberedEq⟩ :=
        inductionHypothesis (front ++ [{ node with id := idcnt }]) (advanceId idcnt 1)
      refine ⟨{ node with id := idcnt } :: numbered, by simp [lengths], ?_⟩
      rw [List.length_cons, numberCells, List.cons_append, modify_split]
      simpa using numberedEq

/-- The block comes to stand between the parts of what is left. -/
theorem moveBuffered_eq {front block back left right free : List AyYnode} {idcnt : YnodeId}
    {dst : Nat} (positive : 0 < block.length) (rest : front ++ back = left ++ right)
    (lands : Lands front.length block.length dst left.length) (space : block.length < free.length) :
    moveBuffered (front ++ (block ++ back)).length dst front.length block.length idcnt
        (front ++ (block ++ back) ++ free) =
      (left ++ (block ++ right), advanceId idcnt block.length) := by
  have lengths := congrArg List.length rest
  rw [List.length_append, List.length_append] at lengths
  have count : (front ++ (block ++ back)).length = front.length + (block.length + back.length) := by
    simp
  obtain ⟨used, unused, freeEq, usedLength⟩ : ∃ used unused, free = used ++ unused ∧
      used.length = block.length :=
    ⟨free.take block.length, free.drop block.length, (List.take_append_drop _ _).symm,
      by rw [List.length_take]; omega⟩
  subst freeEq
  have buffered : moveCells (front ++ (block ++ back)).length front.length block.length
      (front ++ (block ++ back) ++ (used ++ unused)) =
        front ++ (block ++ back) ++ (block ++ unused) := by
    refine moveCells_eq usedLength ?_
    rw [List.append_assoc, List.drop_left' rfl, List.append_assoc, List.take_left' rfl]
  -- the nodes behind the block go forward, and what they leave is cleared
  have closed : moveCells front.length (front.length + block.length) back.length
      (front ++ (block ++ back) ++ (block ++ unused)) =
        front ++ (back ++ ((block ++ back).drop back.length ++ (block ++ unused))) := by
    have regroup : front ++ (block ++ back) ++ (block ++ unused) = front ++
        ((block ++ back).take back.length ++ ((block ++ back).drop back.length ++ (block ++ unused))) := by
      rw [← List.append_assoc ((block ++ back).take _), List.take_append_drop]
      simp
    rw [regroup]
    refine moveCells_eq (by rw [List.length_take, List.length_append]; omega) ?_
    rw [← regroup, List.append_assoc, ← List.drop_drop, List.drop_left' rfl, List.append_assoc,
      List.drop_left' rfl, List.take_left' rfl]
  have cleared : clearCells (front.length + back.length) block.length
      (front ++ (back ++ ((block ++ back).drop back.length ++ (block ++ unused)))) =
        left ++ (right ++ (List.replicate block.length (AyYnode.blank 0) ++ (block ++ unused))) := by
    rw [clearCells, ← List.append_assoc front back, List.take_left' (by rw [List.length_append]),
      ← List.drop_drop, List.drop_left' (by rw [List.length_append]),
      List.drop_left' (by rw [List.length_drop, List.length_append]; omega), rest]
    simp
  -- the gap is opened at the place and filled from the buffer
  have opened (zeros : List AyYnode) (zerosLength : zeros.length = block.length) :
      moveCells (left.length + block.length) left.length right.length
        (left ++ (right ++ (zeros ++ (block ++ unused)))) =
          left ++ ((right ++ zeros).take block.length ++ (right ++ (block ++ unused))) := by
    have regroup : left ++ (right ++ (zeros ++ (block ++ unused))) =
        left ++ (right ++ zeros).take block.length ++
          ((right ++ zeros).drop block.length ++ (block ++ unused)) := by
      rw [List.append_assoc, ← List.append_assoc ((right ++ zeros).take _), List.take_append_drop]
      simp
    have place : left.length + block.length = (left ++ (right ++ zeros).take block.length).length := by
      rw [List.length_append, List.length_take, List.length_append]
      omega
    rw [regroup, place, moveCells_eq (by rw [List.length_drop, List.length_append]; omega),
      List.append_assoc]
    rw [← regroup, List.drop_left' rfl, List.take_left' rfl]
  obtain ⟨numbered, numberedLength, numberedEq⟩ := numberCells_eq
    ((right ++ List.replicate block.length (AyYnode.blank 0)).take block.length) left
    (right ++ (block ++ unused)) idcnt
  have gapLength : ((right ++ List.replicate block.length (AyYnode.blank 0)).take
      block.length).length = block.length := by
    rw [List.length_take, List.length_append, List.length_replicate]
    omega
  rw [gapLength] at numberedLength numberedEq
  have filled : moveCells left.length (front ++ (block ++ back)).length block.length
      (left ++ (numbered ++ (right ++ (block ++ unused)))) =
        left ++ (block ++ (right ++ (block ++ unused))) := by
    refine moveCells_eq numberedLength ?_
    have source : left ++ (numbered ++ (right ++ (block ++ unused))) =
        left ++ (numbered ++ right) ++ (block ++ unused) := by simp
    rw [source, List.drop_left' (by simp only [List.length_append]; omega), List.take_left' rfl]
  have placeEq := landing_eq positive lands
  simp only [moveBuffered, buffered, placeEq]
  rw [show (front ++ (block ++ back)).length - front.length - block.length = back.length by omega,
    closed, show (front ++ (block ++ back)).length - block.length = front.length + back.length by
      omega, cleared, lengths, Nat.add_sub_cancel_left, opened _ (by simp), numberedEq, filled,
    ← List.append_assoc block right, ← List.append_assoc left,
    List.take_left' (by simp only [List.length_append]; omega)]

end Memory

section Branches

variable {arrsize : Nat}

/-- A block that goes to its own place stays there. -/
theorem moveOneByOne_here (count : Nat) {front back : List AyYnode} {node : AyYnode}
    (idcnt : YnodeId) (room : front.length + back.length < arrsize) {dst : Nat}
    (near : dst = front.length ∨ dst = front.length + 1) :
    moveOneByOne count dst front.length ⟨front ++ node :: back, idcnt, arrsize⟩ =
      some ⟨front ++ node :: back, advanceId idcnt count, arrsize⟩ := by
  induction count generalizing idcnt dst with
  | zero => simp [moveOneByOne, advanceId]
  | succ count inductionHypothesis =>
      have place : front.length = if front.length < dst then dst - 1 else dst := by
        rcases near with rfl | rfl <;> simp
      rw [moveOneByOne_step rfl place room, if_neg (by omega),
        inductionHypothesis (advanceId idcnt 1) (.inr rfl), advanceId_add, Nat.add_comm 1]

/-- Node by node to any place outside of the block. -/
theorem moveOneByOne_eq {front block back left right : List AyYnode} {idcnt : YnodeId} {dst : Nat}
    (nonempty : block ≠ []) (rest : front ++ back = left ++ right)
    (lands : Lands front.length block.length dst left.length)
    (room : front.length + block.length + back.length ≤ arrsize) :
    moveOneByOne block.length dst front.length ⟨front ++ (block ++ back), idcnt, arrsize⟩ =
      some ⟨left ++ (block ++ right), advanceId idcnt block.length, arrsize⟩ := by
  rcases lands with ⟨ahead, rfl⟩ | ⟨behindIt, there⟩
  · obtain ⟨middle, rfl, rfl⟩ : ∃ middle, front = left ++ middle ∧ right = middle ++ back := by
      rcases List.append_eq_append_iff.mp rest with ⟨more, leftEq, backEq⟩ | other
      · have : more = [] := by
          rw [leftEq, List.length_append] at ahead
          exact List.length_eq_zero_iff.mp (by omega)
        exact ⟨[], by simp [leftEq, this], by simp [backEq, this]⟩
      · exact other
    by_cases stays : middle = []
    · obtain ⟨node, others, rfl⟩ := List.exists_cons_of_ne_nil nonempty
      subst stays
      have here := @moveOneByOne_here arrsize (node :: others).length (left ++ []) (others ++ back)
        node idcnt (by simp at room ⊢; omega) left.length (.inl (by simp))
      simpa using here
    · have moved := @moveOneByOne_ahead arrsize block left middle back stays idcnt
        (by simp only [List.length_append] at room; omega)
      rw [List.length_append, List.append_assoc]
      exact moved
  · obtain ⟨middle, rfl, rfl⟩ : ∃ middle, left = front ++ middle ∧ back = middle ++ right := by
      rcases List.append_eq_append_iff.mp rest with other | ⟨more, frontEq, rightEq⟩
      · exact other
      · have : more = [] := by
          rw [frontEq, List.length_append] at behindIt
          exact List.length_eq_zero_iff.mp (by omega)
        exact ⟨[], by simp [frontEq, this], by simp [rightEq, this]⟩
    have moved := @moveOneByOne_back arrsize block front middle right idcnt
      (by simp only [List.length_append] at room; omega)
    rw [List.length_append] at there
    rw [← there, show front.length + middle.length + block.length =
      front.length + block.length + middle.length by omega, List.append_assoc]
    exact moved

/-- The block of the given length at `src` in front of the node at `dst`. -/
def rotateBlock (dst src subtreeSize : Nat) (nodes : List AyYnode) : List AyYnode :=
  let block := (nodes.drop src).take subtreeSize
  if dst ≤ src then
    nodes.take dst ++ block ++ (nodes.take src).drop dst ++ nodes.drop (src + subtreeSize)
  else
    nodes.take src ++ (nodes.take dst).drop (src + subtreeSize) ++ block ++ nodes.drop dst

theorem rotateBlock_eq {front block back : List AyYnode} {dst : Nat}
    (outside : dst ≤ front.length ∨ front.length + block.length ≤ dst)
    (bound : dst ≤ (front ++ (block ++ back)).length) :
    ∃ left right, front ++ back = left ++ right ∧
      Lands front.length block.length dst left.length ∧
      rotateBlock dst front.length block.length (front ++ (block ++ back)) =
        left ++ (block ++ right) := by
  have taken : ((front ++ (block ++ back)).drop front.length).take block.length = block := by
    rw [List.drop_left' rfl, List.take_left' rfl]
  have behind : (front ++ (block ++ back)).drop (front.length + block.length) = back := by
    rw [← List.drop_drop, List.drop_left' rfl, List.drop_left' rfl]
  rw [rotateBlock, taken, behind]
  by_cases ahead : dst ≤ front.length
  · refine ⟨front.take dst, front.drop dst ++ back, ?_, .inl ⟨ahead, ?_⟩, ?_⟩
    · rw [← List.append_assoc, List.take_append_drop]
    · rw [List.length_take, Nat.min_eq_left ahead]
    · rw [if_pos ahead, List.take_append_of_le_length ahead, List.take_left' rfl]
      simp
  · have further : front.length + block.length ≤ dst := outside.resolve_left ahead
    rw [List.length_append, List.length_append] at bound
    obtain ⟨passed, rfl⟩ := Nat.exists_eq_add_of_le further
    refine ⟨front ++ back.take passed, back.drop passed, ?_, .inr ⟨further, ?_⟩, ?_⟩
    · rw [List.append_assoc, List.take_append_drop]
    · rw [List.length_append, List.length_take, Nat.min_eq_left (by omega)]
      omega
    · have tookBehind : ((front ++ (block ++ back)).take (front.length + block.length + passed)).drop
          (front.length + block.length) = back.take passed := by
        rw [← List.append_assoc, List.take_append, List.take_of_length_le (by simp),
          List.drop_left' (by simp)]
        simp
      rw [if_neg ahead, List.take_left' rfl, tookBehind, ← List.drop_drop, behind]
      simp

end Branches

section Array

variable {tree : YnodeTree} {forest : Forest Core} {src dst : Nat} {root : AyYnode}

/-- The nodes of a subtree are a block of the array. -/
theorem exists_block (encodes : Encodes tree.nodes forest) (srcAt : tree.nodes[src]? = some root) :
    ∃ front block back, tree.nodes = front ++ (block ++ back) ∧ front.length = src ∧
      block.length = root.descendants + 1 := by
  have length := length_of_cells encodes.cells
  have bound : src < forest.size := by
    rw [← length]
    exact (List.getElem?_eq_some_iff.mp srcAt).1
  obtain ⟨hole, label, kids, rest, found, rfl, rfl, foundAt, count, -⟩ := encodes.node_at bound
  obtain rfl := Option.some.inj (srcAt.symm.trans foundAt)
  rw [Forest.Hole.size_fill, Forest.size] at length
  refine ⟨tree.nodes.take hole.index, (tree.nodes.drop hole.index).take (root.descendants + 1),
    tree.nodes.drop (hole.index + (root.descendants + 1)), ?_, ?_, ?_⟩
  · rw [← List.drop_drop, List.take_append_drop, List.take_append_drop]
  · rw [List.length_take]
    omega
  · rw [List.length_take, List.length_drop]
    omega

/-- Both branches of `ay_ynode_move_subtree` rotate the block to its place and draw as many ids,
so the free space of the array does not matter.  The root, which holds the counters, stays where
it is. -/
theorem ayYnodeMoveSubtree_rotates (encodes : Encodes tree.nodes forest)
    (room : tree.nodes.length ≤ tree.arrsize) (srcAt : tree.nodes[src]? = some root)
    (srcBelow : 0 < src) (dstBelow : 0 < dst) (dstBound : dst ≤ tree.nodes.length)
    (outside : dst ≤ src ∨ src + (root.descendants + 1) ≤ dst) :
    let rotated := rotateBlock dst src (root.descendants + 1) tree.nodes
    let drawn := advanceId tree.idcnt (root.descendants + 1)
    (∀ free : List AyYnode, root.descendants + 1 < free.length →
      moveBuffered tree.nodes.length dst src (root.descendants + 1) tree.idcnt
        (tree.nodes ++ free) = (rotated, drawn)) ∧
    moveOneByOne (root.descendants + 1) dst src tree = some ⟨rotated, drawn, tree.arrsize⟩ ∧
    (∀ arrsize, tree.nodes.length ≤ arrsize →
      ayYnodeMoveSubtree { tree with arrsize := arrsize } dst src =
        some ⟨rotated, if dst = src then tree.idcnt else drawn, arrsize⟩) ∧
    rotated.head? = tree.nodes.head? := by
  obtain ⟨front, block, back, nodesEq, rfl, blockLength⟩ := exists_block encodes srcAt
  rw [nodesEq] at dstBound
  rw [← blockLength] at outside ⊢
  obtain ⟨left, right, rest, lands, rotatedEq⟩ := rotateBlock_eq outside dstBound
  have positive : 0 < block.length := by omega
  have lengths : front.length + block.length + back.length = tree.nodes.length := by
    rw [nodesEq, List.length_append, List.length_append]
    omega
  have oneByOne (arrsize : Nat) (fits : tree.nodes.length ≤ arrsize) :=
    @moveOneByOne_eq arrsize front block back left right tree.idcnt dst
      (List.length_pos_iff.mp positive) rest lands (by omega)
  rw [nodesEq, rotatedEq]
  refine ⟨fun free space => moveBuffered_eq positive rest lands space, ?_, ?_, ?_⟩
  · have moved := oneByOne tree.arrsize room
    rw [← nodesEq] at moved
    exact moved
  · intro arrsize fits
    rw [← nodesEq] at fits
    by_cases stays : dst = front.length
    · have same : left ++ (block ++ right) = front ++ (block ++ back) := by
        have leftLength : left.length = front.length := by
          have := landing_eq positive lands
          rw [if_neg (by omega)] at this
          omega
        obtain ⟨rfl, rfl⟩ := List.append_inj rest leftLength.symm
        rfl
      rw [ayYnodeMoveSubtree, if_pos stays, if_pos stays, same]
    · have found : (front ++ (block ++ back))[front.length]? = some root := by
        rw [← nodesEq]
        exact srcAt
      rw [ayYnodeMoveSubtree, if_neg stays, if_neg stays]
      simp only [found, Option.bind_eq_bind, Option.bind_some, ← blockLength]
      split
      · have closed : (front ++ (block ++ back)).take front.length ++
            (front ++ (block ++ back)).drop (front.length + block.length) = left ++ right := by
          rw [List.take_left' rfl, ← List.drop_drop, List.drop_left' rfl, List.drop_left' rfl, rest]
        have restLength := congrArg List.length rest
        rw [List.length_append, List.length_append] at restLength
        rw [landing_eq positive lands, ayYnodeDeleteGapRange]
        simp only [closed]
        rw [List.drop_left' rfl, List.take_left' rfl, ayYnodeInsertGapRange,
          if_pos (by simp only [List.length_append]; omega)]
        simp
      · exact oneByOne arrsize fits
  · -- the first node is the root
    obtain ⟨first, others, rfl⟩ := List.exists_cons_of_ne_nil (List.length_pos_iff.mp srcBelow)
    have leftPositive : 0 < left.length := by
      rcases lands with ⟨-, there⟩ | ⟨behindIt, there⟩ <;> omega
    obtain ⟨head, tail, rfl⟩ := List.exists_cons_of_ne_nil (List.length_pos_iff.mp leftPositive)
    rw [List.cons_append, List.cons_append, List.cons.injEq] at rest
    rw [rest.1]
    rfl

end Array

/-- The first child with its own child, behind the second one in a full array. -/
theorem ayYnodeMoveSubtree_rotates_small :
    moveOneByOne 2 4 1 smallTree =
      some ⟨rotateBlock 4 1 2 smallTree.nodes, advanceId smallTree.idcnt 2, smallTree.arrsize⟩ :=
  (@ayYnodeMoveSubtree_rotates smallTree smallForest 1 4 _ wellFormed_smallTree.encodes
    (by decide) rfl (by decide) (by decide) (by decide) (by decide)).2.1

end SysrepoAugeas.Ynode
