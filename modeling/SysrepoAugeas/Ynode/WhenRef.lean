import SysrepoAugeas.Ynode.Ids

/-!
# References of a copied subtree

A copy keeps the ids of its nodes, so a `when_ref` inside of it already names
the copy of its target.  The correction writes it again with the id of what
the search ended at: the target, or the last node of the subtree if no node
is the target.
-/

namespace SysrepoAugeas.Ynode

open SysrepoAugeas.Data

/-- A node without its links. -/
def AyYnode.data (node : AyYnode) : AyYnode :=
  { node with parent := none, next := none, child := none }

/-- The nodes of the subtree at `root`. -/
def subtreeNodes (nodes : List AyYnode) (root descendants : Nat) : List AyYnode :=
  (nodes.drop root).take (descendants + 1)

section Correction

/-- One round of the loop in `ay_ynode_copy_subtree_when_ref_correction`. -/
def redirectStep (copied original descendants : Nat) (nodes : List AyYnode) (i : Nat) :
    List AyYnode :=
  match nodes[original + i + 1]? with
  | some nodeRef =>
      if nodeRef.whenRef = 0 then nodes
      else
        match nodes[copied + whenTarget nodes original descendants nodeRef.whenRef]? with
        | some src => nodes.modify (copied + i + 1) fun dst => { dst with whenRef := src.id }
        | none => nodes
  | none => nodes

/-- Id of the node that the search for the target of a reference ends at. -/
def searchedId (nodes : List AyYnode) (original descendants : Nat) (whenRef : YnodeId) :
    Option YnodeId :=
  nodes[original + whenTarget nodes original descendants whenRef]?.map AyYnode.id

/-- A node of the copy with its reference corrected. -/
def redirected (nodes : List AyYnode) (original descendants : Nat) (node : AyYnode) : AyYnode :=
  if node.whenRef = 0 then node
  else { node with
    whenRef := (searchedId nodes original descendants node.whenRef).getD node.whenRef }

variable {nodes others : List AyYnode} {copied original descendants : Nat}

theorem whenTarget_le (whenRef : YnodeId) :
    whenTarget nodes original descendants whenRef ≤ descendants := by
  rw [whenTarget]
  cases found : ((nodes.drop original).take (descendants + 1)).findIdx? fun node =>
      node.id == whenRef && node.flags &&& ayWhenTarget != 0 with
  | none => exact Nat.le_refl _
  | some target =>
      obtain ⟨bound, -⟩ := List.findIdx?_eq_some_iff_getElem.mp found
      rw [List.length_take] at bound
      rw [Option.getD_some]
      omega

/-- The search reads ids and flags only. -/
theorem whenTarget_congr
    (same : nodes.map (fun node => (node.id, node.flags)) =
      others.map fun node => (node.id, node.flags)) (whenRef : YnodeId) :
    whenTarget nodes original descendants whenRef =
      whenTarget others original descendants whenRef := by
  have viewed : ∀ list : List AyYnode,
      ((list.drop original).take (descendants + 1)).findIdx? (fun node =>
          node.id == whenRef && node.flags &&& ayWhenTarget != 0) =
        (((list.map fun node => (node.id, node.flags)).drop original).take
          (descendants + 1)).findIdx? fun node =>
            node.1 == whenRef && node.2 &&& ayWhenTarget != 0 := by
    intro list
    rw [← List.map_drop, ← List.map_take, List.findIdx?_map]
    rfl
  rw [whenTarget, whenTarget, viewed, viewed, same]

/-- Array in which the nodes behind the root of the copy, up to the number `done`, are
corrected. -/
def Redirected (nodes : List AyYnode) (copied original descendants done : Nat)
    (others : List AyYnode) : Prop :=
  ∀ index, others[index]? =
    if copied < index ∧ index ≤ copied + done then
      nodes[index]?.map (redirected nodes original descendants)
    else nodes[index]?

theorem Redirected.view {done : Nat}
    (corrected : Redirected nodes copied original descendants done others) :
    others.map (fun node => (node.id, node.flags)) =
      nodes.map fun node => (node.id, node.flags) := by
  refine List.ext_getElem? fun index => ?_
  rw [List.getElem?_map, List.getElem?_map, corrected index]
  split
  · cases nodes[index]? with
    | none => rfl
    | some node =>
        simp only [Option.map_some, redirected]
        split <;> rfl
  · rfl

/-- The copy and the original are the same but for their links, and share no part of the array
unless they are one. -/
structure SameBlocks (nodes : List AyYnode) (copied original descendants : Nat) : Prop where
  data : ∀ offset ≤ descendants,
    nodes[copied + offset]?.map AyYnode.data = nodes[original + offset]?.map AyYnode.data
  apart : copied = original ∨ copied + descendants < original ∨ original + descendants < copied
  bound : original + descendants < nodes.length

theorem SameBlocks.exists_of_le (blocks : SameBlocks nodes copied original descendants)
    {offset : Nat} (few : offset ≤ descendants) :
    ∃ node copy, nodes[original + offset]? = some node ∧ nodes[copied + offset]? = some copy ∧
      copy.data = node.data := by
  have bound := blocks.bound
  obtain ⟨node, nodeAt⟩ : ∃ node, nodes[original + offset]? = some node :=
    ⟨_, List.getElem?_eq_getElem (by omega)⟩
  have data := blocks.data offset few
  rw [nodeAt, Option.map_some, Option.map_eq_some_iff] at data
  obtain ⟨copy, copyAt, same⟩ := data
  exact ⟨node, copy, nodeAt, copyAt, same⟩

theorem redirectStep_redirected (blocks : SameBlocks nodes copied original descendants)
    {done : Nat} (more : done < descendants)
    (corrected : Redirected nodes copied original descendants done others) :
    Redirected nodes copied original descendants (done + 1)
      (redirectStep copied original descendants others done) := by
  obtain ⟨node, copy, nodeAt, copyAt, same⟩ := blocks.exists_of_le more
  have sameRef : copy.whenRef = node.whenRef := congrArg (fun data => data.whenRef) same
  -- neither the reference nor the copied node is corrected so far
  have unread : others[original + done + 1]? = some node := by
    rw [corrected, if_neg, Nat.add_assoc, nodeAt]
    rcases blocks.apart with one | ahead | behindIt <;> omega
  have unwritten : others[copied + done + 1]? = some copy := by
    rw [corrected, if_neg (by omega), Nat.add_assoc, copyAt]
  have others_of_ne : ∀ index, index ≠ copied + done + 1 → others[index]? =
      if copied < index ∧ index ≤ copied + (done + 1) then
        nodes[index]?.map (redirected nodes original descendants)
      else nodes[index]? := by
    intro index elsewhere
    rw [corrected index]
    by_cases inside : copied < index ∧ index ≤ copied + done
    · rw [if_pos inside, if_pos ⟨inside.1, by omega⟩]
    · rw [if_neg inside, if_neg (by omega)]
  intro index
  simp only [redirectStep, unread]
  by_cases noRef : node.whenRef = 0
  · rw [if_pos noRef]
    by_cases here : index = copied + done + 1
    · rw [here, unwritten, if_pos (by omega), Nat.add_assoc, copyAt, Option.map_some, redirected,
        if_pos (sameRef.trans noRef)]
    · exact others_of_ne index here
  · rw [if_neg noRef, whenTarget_congr corrected.view]
    obtain ⟨target, copiedTarget, targetAt, copiedTargetAt, sameTarget⟩ :=
      blocks.exists_of_le (@whenTarget_le nodes original descendants node.whenRef)
    have found := congrArg (List.map Prod.fst) corrected.view
    rw [List.map_map, List.map_map] at found
    have targetFound :
        (others[copied + whenTarget nodes original descendants node.whenRef]?).map AyYnode.id =
          some target.id := by
      have at_target := congrArg
        (fun list => list[copied + whenTarget nodes original descendants node.whenRef]?) found
      simp only [List.getElem?_map, copiedTargetAt, Option.map_some] at at_target
      have sameId : copiedTarget.id = target.id := congrArg (fun data => data.id) sameTarget
      rw [← sameId]
      exact at_target
    rw [Option.map_eq_some_iff] at targetFound
    obtain ⟨src, srcAt, srcId⟩ := targetFound
    simp only [srcAt]
    by_cases here : index = copied + done + 1
    · rw [here, List.getElem?_modify_eq, unwritten, if_pos (by omega), Nat.add_assoc, copyAt,
        Option.map_some, redirected, if_neg (sameRef ▸ noRef), searchedId, sameRef, targetAt, srcId]
      rfl
    · rw [List.getElem?_modify_ne _ _ (Ne.symm here)]
      exact others_of_ne index here

/-- The whole loop. -/
theorem whenRefCorrection_redirected (blocks : SameBlocks nodes copied original descendants)
    (counted : nodes[original]?.map AyYnode.descendants = some descendants) :
    Redirected nodes copied original descendants descendants
      (ayYnodeCopySubtreeWhenRefCorrection copied original nodes) := by
  have loop : ∀ done ≤ descendants, Redirected nodes copied original descendants done
      ((List.range done).foldl (redirectStep copied original descendants) nodes) := by
    intro done few
    induction done with
    | zero =>
        intro index
        rw [if_neg (by omega)]
        rfl
    | succ done inductionHypothesis =>
        rw [List.range_succ, List.foldl_append]
        exact redirectStep_redirected blocks few (inductionHypothesis (by omega))
  have whole := loop descendants (Nat.le_refl _)
  rw [ayYnodeCopySubtreeWhenRefCorrection, counted, Option.getD_some]
  exact whole

end Correction

section Resolved

/-- A node of the subtree is marked as the target, or the last node is the target. -/
def Resolved (block : List AyYnode) (whenRef : YnodeId) : Prop :=
  (∃ node ∈ block, node.id = whenRef ∧ node.flags &&& ayWhenTarget ≠ 0) ∨
    block.getLast?.map AyYnode.id = some whenRef

instance (block : List AyYnode) (whenRef : YnodeId) : Decidable (Resolved block whenRef) :=
  inferInstanceAs (Decidable (_ ∨ _))

theorem resolved_data (block : List AyYnode) (whenRef : YnodeId) :
    Resolved (block.map AyYnode.data) whenRef ↔ Resolved block whenRef := by
  simp only [Resolved, List.mem_map, exists_exists_and_eq_and, List.getLast?_map, Option.map_map]
  rfl

variable {nodes : List AyYnode} {original descendants : Nat}

theorem getLast_subtreeNodes (bound : original + descendants < nodes.length) :
    (subtreeNodes nodes original descendants).getLast? = nodes[original + descendants]? := by
  rw [subtreeNodes, List.getLast?_take, if_neg (Nat.succ_ne_zero _), Nat.add_sub_cancel,
    List.getElem?_drop, List.getElem?_eq_getElem bound]
  rfl

/-- The search ends at the id it was for exactly when the reference resolves. -/
theorem searchedId_eq_iff (bound : original + descendants < nodes.length) (whenRef : YnodeId) :
    searchedId nodes original descendants whenRef = some whenRef ↔
      Resolved (subtreeNodes nodes original descendants) whenRef := by
  rw [searchedId, whenTarget, Resolved, getLast_subtreeNodes bound, ← subtreeNodes]
  cases found : (subtreeNodes nodes original descendants).findIdx? fun node =>
      node.id == whenRef && node.flags &&& ayWhenTarget != 0 with
  | none =>
      have unmarked : ¬ ∃ node ∈ subtreeNodes nodes original descendants,
          node.id = whenRef ∧ node.flags &&& ayWhenTarget ≠ 0 := by
        rintro ⟨node, member, sameId, marked⟩
        have := List.findIdx?_eq_none_iff.mp found node member
        simp [sameId, marked] at this
      rw [Option.getD_none, or_iff_right unmarked]
  | some target =>
      obtain ⟨inside, marked, -⟩ := List.findIdx?_eq_some_iff_getElem.mp found
      rw [Bool.and_eq_true, beq_iff_eq, bne_iff_ne] at marked
      have isTarget : nodes[original + target]? =
          some (subtreeNodes nodes original descendants)[target] := by
        rw [← List.getElem?_eq_getElem inside, subtreeNodes, List.getElem?_take_of_lt,
          List.getElem?_drop]
        rw [subtreeNodes, List.length_take] at inside
        omega
      rw [Option.getD_some, isTarget, Option.map_some, marked.1]
      exact iff_of_true rfl (.inl ⟨_, List.getElem_mem inside, marked⟩)

end Resolved

section Placement

variable {chosen : List Nat} {nodes : List AyYnode} {src size place : Nat}

/-- Where the root of the original stands after the block is copied to `place`. -/
def shiftedBy (size place src : Nat) : Nat := if place ≤ src then src + size else src

theorem getElem_withCopy_copy (bound : src + size ≤ nodes.length) (placeBound : place ≤ nodes.length)
    {offset : Nat} (few : offset < size) :
    (withCopy chosen src size place nodes)[place + offset]? = nodes[src + offset]? := by
  have front : ((changeAt (· + size) chosen nodes).take place).length = place := by
    rw [List.length_take, length_changeAt]
    omega
  rw [withCopy, List.append_assoc, List.getElem?_append_right (by omega), front,
    Nat.add_sub_cancel_left, List.getElem?_append_left (by rw [List.length_take, List.length_drop]; omega),
    List.getElem?_take_of_lt few, List.getElem?_drop]

theorem getElem_withCopy_ahead {index : Nat} (placeBound : place ≤ nodes.length)
    (ahead : index < place) :
    (withCopy chosen src size place nodes)[index]? = (changeAt (· + size) chosen nodes)[index]? := by
  rw [withCopy, List.append_assoc, List.getElem?_append_left, List.getElem?_take_of_lt ahead]
  rw [List.length_take, length_changeAt]
  omega

theorem getElem_withCopy_behind {index : Nat} (bound : src + size ≤ nodes.length)
    (placeBound : place ≤ nodes.length) (behindIt : place ≤ index) :
    (withCopy chosen src size place nodes)[index + size]? =
      (changeAt (· + size) chosen nodes)[index]? := by
  have front : ((changeAt (· + size) chosen nodes).take place ++
      (nodes.drop src).take size).length = place + size := by
    rw [List.length_append, List.length_take, length_changeAt, List.length_take, List.length_drop]
    omega
  rw [withCopy, List.getElem?_append_right (by omega), front, List.getElem?_drop]
  congr 1
  omega

theorem getElem_withCopy_original (bound : src + size ≤ nodes.length)
    (placeBound : place ≤ nodes.length) (apart : place ≤ src ∨ src + size ≤ place)
    (chosenApart : ∀ position ∈ chosen, position < src ∨ src + size ≤ position) {offset : Nat}
    (few : offset < size) :
    (withCopy chosen src size place nodes)[shiftedBy size place src + offset]? =
      nodes[src + offset]? := by
  have stays : (changeAt (· + size) chosen nodes)[src + offset]? = nodes[src + offset]? := by
    refine getElem_changeAt (fun membership => ?_) nodes
    have := chosenApart _ membership
    omega
  rw [← stays, shiftedBy]
  by_cases ahead : place ≤ src
  · rw [if_pos ahead, Nat.add_right_comm, getElem_withCopy_behind bound placeBound (by omega)]
  · rw [if_neg ahead, getElem_withCopy_ahead placeBound (by omega)]

theorem map_id_changeAt (change : Nat → Nat) (index : Nat) :
    (changeAt change chosen nodes)[index]?.map AyYnode.id = nodes[index]?.map AyYnode.id := by
  rw [changeAt, List.getElem?_mapIdx]
  cases nodes[index]? with
  | none => rfl
  | some node =>
      simp only [Option.map_some]
      split <;> rfl

theorem eq_of_sameId (distinct : (ids nodes.tail).Nodup) {index other : Nat} {id : YnodeId}
    (indexNotRoot : index ≠ 0) (otherNotRoot : other ≠ 0)
    (indexId : nodes[index]?.map AyYnode.id = some id)
    (otherId : nodes[other]?.map AyYnode.id = some id) : index = other := by
  have inTail : ∀ position, position ≠ 0 →
      (ids nodes.tail)[position - 1]? = nodes[position]?.map AyYnode.id := by
    intro position notRoot
    rw [ids, List.getElem?_map, List.getElem?_tail, Nat.sub_add_cancel (by omega)]
  have first := (inTail index indexNotRoot).trans indexId
  have second := (inTail other otherNotRoot).trans otherId
  obtain ⟨bound, -⟩ := List.getElem?_eq_some_iff.mp first
  have := (List.getElem?_inj bound distinct).mp (first.trans second.symm)
  omega

/-- Only the two roots have the id of the source. -/
theorem index_of_sameId (distinct : (ids nodes.tail).Nodup) (bound : src + size ≤ nodes.length)
    (placeBound : place ≤ nodes.length) (srcNotRoot : src ≠ 0) (placeNotRoot : place ≠ 0)
    {index : Nat} {id : YnodeId} (notRoot : index ≠ 0)
    (srcId : nodes[src]?.map AyYnode.id = some id)
    (sameId : (withCopy chosen src size place nodes)[index]?.map AyYnode.id = some id) :
    index = place ∨ index = shiftedBy size place src := by
  by_cases ahead : index < place
  · rw [getElem_withCopy_ahead placeBound ahead, map_id_changeAt] at sameId
    have := eq_of_sameId distinct notRoot srcNotRoot sameId srcId
    rw [shiftedBy, if_neg (by omega)]
    exact .inr this
  · by_cases inside : index < place + size
    · have split : index = place + (index - place) := by omega
      rw [split, getElem_withCopy_copy bound placeBound (by omega)] at sameId
      have := eq_of_sameId distinct (by omega) srcNotRoot sameId srcId
      exact .inl (by omega)
    · have split : index = index - size + size := by omega
      rw [split, getElem_withCopy_behind bound placeBound (by omega), map_id_changeAt] at sameId
      have := eq_of_sameId distinct (by omega) srcNotRoot sameId srcId
      rw [shiftedBy, if_pos (by omega)]
      exact .inr (by omega)

end Placement

section Copies

/-- References of the copy at `place` of the subtree at `src`: each names the copy of its target
if that is in the subtree, and is the original reference else.  The original subtree stays as
it is. -/
structure RefsFollow (before after : List AyYnode) (src descendants place : Nat) : Prop where
  refs : ∀ offset ref, 0 < offset → offset ≤ descendants → before[src + offset]? = some ref →
    ref.whenRef ≠ 0 → ∃ copy, after[place + offset]? = some copy ∧
      (∀ target node, target ≤ descendants → before[src + target]? = some node →
        node.id = ref.whenRef → ∃ copiedTarget, after[place + target]? = some copiedTarget ∧
          copy.whenRef = copiedTarget.id) ∧
      ((∀ target node, target ≤ descendants → before[src + target]? = some node →
        node.id ≠ ref.whenRef) → copy.whenRef = ref.whenRef)
  original : ∀ offset ≤ descendants,
    after[shiftedBy (descendants + 1) place src + offset]?.map AyYnode.data =
      before[src + offset]?.map AyYnode.data

/-- Every reference below the root of a subtree resolves. -/
def RefsResolved (block : List AyYnode) : Prop :=
  ∀ ref ∈ block.tail, ref.whenRef ≠ 0 → Resolved block ref.whenRef

instance (block : List AyYnode) : Decidable (RefsResolved block) :=
  inferInstanceAs (Decidable (∀ ref ∈ block.tail, ref.whenRef ≠ 0 → Resolved block ref.whenRef))

variable {tree : YnodeTree} {result : Option YnodeTree} {forest : Forest Core}
  {src descendants place : Nat}

theorem mem_tail_subtreeNodes {nodes : List AyYnode} {ref : AyYnode} :
    ref ∈ (subtreeNodes nodes src descendants).tail ↔
      ∃ offset, 0 < offset ∧ offset ≤ descendants ∧ nodes[src + offset]? = some ref := by
  rw [List.mem_iff_getElem?]
  simp only [subtreeNodes, List.getElem?_tail, List.getElem?_take, List.getElem?_drop]
  constructor
  · rintro ⟨offset, found⟩
    by_cases few : offset + 1 < descendants + 1
    · rw [if_pos few] at found
      exact ⟨offset + 1, by omega, by omega, found⟩
    · rw [if_neg few] at found
      exact absurd found (by simp)
  · rintro ⟨offset, positive, few, found⟩
    refine ⟨offset - 1, ?_⟩
    rw [Nat.sub_add_cancel positive, if_pos (by omega), found]

/-- What a copy leaves in the array: the data of the source in both places, but for the
references of the copy. -/
theorem Copies.blocks (copies : Copies tree result forest src (descendants + 1) place)
    (distinct : (ids tree.nodes.tail).Nodup)
    (counted : tree.nodes[src]?.map AyYnode.descendants = some descendants)
    (bound : src + descendants < tree.nodes.length) (placeBound : place ≤ tree.nodes.length)
    (srcNotRoot : src ≠ 0) (placeNotRoot : place ≠ 0)
    (apart : place ≤ src ∨ src + (descendants + 1) ≤ place) :
    ∃ after nodes original, result = some after ∧
      (∀ offset ≤ descendants, nodes[place + offset]?.map AyYnode.data =
        tree.nodes[src + offset]?.map AyYnode.data) ∧
      (∀ offset ≤ descendants,
        nodes[shiftedBy (descendants + 1) place src + offset]?.map AyYnode.data =
          tree.nodes[src + offset]?.map AyYnode.data) ∧
      (original = place ∨ original = shiftedBy (descendants + 1) place src) ∧
      SameBlocks nodes place original descendants ∧
      Redirected nodes place original descendants descendants after.nodes := by
  obtain ⟨chosen, copied, original, srcNode, chosenApart, shape, srcAt, found, ran, -⟩ := copies
  have dataAt : ∀ index : Nat, (ayYnodeTreeCorrection copied.nodes)[index]?.map AyYnode.data =
      (withCopy chosen src (descendants + 1) place tree.nodes)[index]?.map AyYnode.data := by
    intro index
    rw [← List.getElem?_map, treeCorrection_same (fun _ _ _ _ => rfl), List.getElem?_map, shape]
  have copyData : ∀ offset ≤ descendants,
      (ayYnodeTreeCorrection copied.nodes)[place + offset]?.map AyYnode.data =
        tree.nodes[src + offset]?.map AyYnode.data := by
    intro offset few
    rw [dataAt, getElem_withCopy_copy (by omega) placeBound (by omega)]
  have originalData : ∀ offset ≤ descendants,
      (ayYnodeTreeCorrection copied.nodes)[shiftedBy (descendants + 1) place src + offset]?.map
          AyYnode.data = tree.nodes[src + offset]?.map AyYnode.data := by
    intro offset few
    rw [dataAt, getElem_withCopy_original (by omega) placeBound apart chosenApart (by omega)]
  -- the search from `src` on ends at one of the two roots
  have isRoot : original = place ∨ original = shiftedBy (descendants + 1) place src := by
    rw [ayYnodeGetNode, Option.map_eq_some_iff] at found
    obtain ⟨offset, isOffset, rfl⟩ := found
    obtain ⟨inside, sameId, -⟩ := List.findIdx?_eq_some_iff_getElem.mp isOffset
    rw [beq_iff_eq] at sameId
    refine @index_of_sameId chosen _ _ _ _ distinct (by omega) placeBound srcNotRoot placeNotRoot _
      srcNode.id (by omega) (by rw [srcAt, Option.map_some]) ?_
    have ids := congrArg (Option.map AyYnode.id) (dataAt (src + offset))
    rw [Option.map_map, Option.map_map, ← List.getElem?_drop, List.getElem?_eq_getElem inside,
      Option.map_some] at ids
    exact ids.symm.trans (congrArg some sameId)
  have sameBlocks : SameBlocks (ayYnodeTreeCorrection copied.nodes) place original descendants := by
    refine ⟨fun offset few => ?_, ?_, ?_⟩
    · rw [copyData offset few]
      rcases isRoot with rfl | rfl
      · rw [copyData offset few]
      · rw [originalData offset few]
    · rcases isRoot with rfl | rfl
      · exact .inl rfl
      · rw [shiftedBy]
        split
        · exact .inr (.inl (by omega))
        · exact .inr (.inr (by omega))
    · have length := congrArg List.length (@treeCorrection_same _ AyYnode.data
        (fun _ _ _ _ => rfl) copied.nodes)
      rw [List.length_map, List.length_map] at length
      rw [length, shape, withCopy, List.length_append, List.length_append, List.length_take,
        List.length_take, List.length_drop, List.length_drop, length_changeAt]
      rcases isRoot with rfl | rfl
      · omega
      · rw [shiftedBy]
        split <;> omega
  refine ⟨_, _, original, ran, copyData, originalData, isRoot, sameBlocks,
    whenRefCorrection_redirected sameBlocks ?_⟩
  have rootData : (ayYnodeTreeCorrection copied.nodes)[original]?.map AyYnode.data =
      tree.nodes[src]?.map AyYnode.data := by
    rcases isRoot with rfl | rfl
    · exact copyData 0 (Nat.zero_le _)
    · exact originalData 0 (Nat.zero_le _)
  have descendantsEq := congrArg (Option.map AyYnode.descendants) rootData
  rw [Option.map_map, Option.map_map] at descendantsEq
  exact descendantsEq.trans counted

/-- The references follow the copy exactly when they all resolve in the subtree. -/
theorem Copies.refsFollow_iff (copies : Copies tree result forest src (descendants + 1) place)
    (distinct : (ids tree.nodes.tail).Nodup)
    (counted : tree.nodes[src]?.map AyYnode.descendants = some descendants)
    (bound : src + descendants < tree.nodes.length) (placeBound : place ≤ tree.nodes.length)
    (srcNotRoot : src ≠ 0) (placeNotRoot : place ≠ 0)
    (apart : place ≤ src ∨ src + (descendants + 1) ≤ place) :
    ∃ after, result = some after ∧
      (RefsFollow tree.nodes after.nodes src descendants place ↔
        RefsResolved (subtreeNodes tree.nodes src descendants)) := by
  obtain ⟨after, nodes, original, ran, copyData, originalData, isRoot, sameBlocks, corrected⟩ :=
    copies.blocks distinct counted bound placeBound srcNotRoot placeNotRoot apart
  have sameSubtree : (subtreeNodes nodes original descendants).map AyYnode.data =
      (subtreeNodes tree.nodes src descendants).map AyYnode.data := by
    refine List.ext_getElem? fun offset => ?_
    simp only [subtreeNodes, List.getElem?_map, List.getElem?_take, List.getElem?_drop]
    by_cases few : offset < descendants + 1
    · rw [if_pos few, if_pos few, ← sameBlocks.data offset (by omega),
        copyData offset (by omega)]
    · rw [if_neg few, if_neg few]
  have resolves : ∀ whenRef, searchedId nodes original descendants whenRef = some whenRef ↔
      Resolved (subtreeNodes tree.nodes src descendants) whenRef := by
    intro whenRef
    rw [searchedId_eq_iff sameBlocks.bound, ← resolved_data, sameSubtree, resolved_data]
  have copyOf : ∀ offset ref, offset ≤ descendants → tree.nodes[src + offset]? = some ref →
      ∃ copy, nodes[place + offset]? = some copy ∧ copy.data = ref.data := by
    intro offset ref few refAt
    have data := copyData offset few
    rwa [refAt, Option.map_some, Option.map_eq_some_iff] at data
  have copyRef : ∀ offset ref, 0 < offset → offset ≤ descendants →
      tree.nodes[src + offset]? = some ref → ref.whenRef ≠ 0 →
      ∃ copy, after.nodes[place + offset]? = some copy ∧
        (copy.whenRef = ref.whenRef ↔
          Resolved (subtreeNodes tree.nodes src descendants) ref.whenRef) := by
    intro offset ref positive few refAt hasRef
    obtain ⟨copy, copyAt, same⟩ := copyOf offset ref few refAt
    have sameRef : copy.whenRef = ref.whenRef := congrArg (fun data => data.whenRef) same
    obtain ⟨target, -, targetAt, -⟩ :=
      sameBlocks.exists_of_le (@whenTarget_le nodes original descendants ref.whenRef)
    refine ⟨redirected nodes original descendants copy, ?_, ?_⟩
    · rw [corrected, if_pos (by omega), copyAt, Option.map_some]
    · rw [← resolves, redirected, if_neg (sameRef ▸ hasRef), sameRef, searchedId, targetAt,
        Option.map_some, Option.getD_some, Option.some.injEq]
  have copyId : ∀ target node, target ≤ descendants → tree.nodes[src + target]? = some node →
      ∃ copiedTarget, after.nodes[place + target]? = some copiedTarget ∧
        copiedTarget.id = node.id := by
    intro target node few nodeAt
    obtain ⟨copy, copyAt, same⟩ := copyOf target node few nodeAt
    have sameId : copy.id = node.id := congrArg (fun data => data.id) same
    by_cases isFirst : target = 0
    · refine ⟨copy, ?_, sameId⟩
      rw [corrected, if_neg (by omega), copyAt]
    · refine ⟨redirected nodes original descendants copy, ?_, ?_⟩
      · rw [corrected, if_pos (by omega), copyAt, Option.map_some]
      · rw [redirected]
        split <;> exact sameId
  refine ⟨after, ran, fun follows ref member hasRef => ?_, fun resolved => ⟨?_, ?_⟩⟩
  · obtain ⟨offset, positive, few, refAt⟩ := mem_tail_subtreeNodes.mp member
    obtain ⟨copy, copyAt, inside, outside⟩ := follows.refs offset ref positive few refAt hasRef
    obtain ⟨written, writtenAt, writtenRef⟩ := copyRef offset ref positive few refAt hasRef
    obtain rfl : copy = written := Option.some.inj (copyAt.symm.trans writtenAt)
    refine writtenRef.mp ?_
    by_cases targetInside : ∃ target node, target ≤ descendants ∧
        tree.nodes[src + target]? = some node ∧ node.id = ref.whenRef
    · obtain ⟨target, node, targetFew, nodeAt, sameId⟩ := targetInside
      obtain ⟨copiedTarget, copiedAt, refEq⟩ := inside target node targetFew nodeAt sameId
      obtain ⟨other, otherAt, otherId⟩ := copyId target node targetFew nodeAt
      obtain rfl : copiedTarget = other := Option.some.inj (copiedAt.symm.trans otherAt)
      rw [refEq, otherId, sameId]
    · exact outside fun target node targetFew nodeAt sameId =>
        targetInside ⟨target, node, targetFew, nodeAt, sameId⟩
  · intro offset ref positive few refAt hasRef
    obtain ⟨copy, copyAt, refIff⟩ := copyRef offset ref positive few refAt hasRef
    have refEq := refIff.mpr
      (resolved ref (mem_tail_subtreeNodes.mpr ⟨offset, positive, few, refAt⟩) hasRef)
    refine ⟨copy, copyAt, fun target node targetFew nodeAt sameId => ?_, fun _ => refEq⟩
    obtain ⟨copiedTarget, copiedAt, copiedId⟩ := copyId target node targetFew nodeAt
    exact ⟨copiedTarget, copiedAt, by rw [refEq, copiedId, sameId]⟩
  · intro offset few
    rw [corrected, if_neg, originalData offset few]
    rw [shiftedBy]
    split <;> omega

end Copies

section Primitives

variable {tree : YnodeTree} {forest : Forest Core} {op : YnodeOp} {dst src : Nat}
  {dstNode srcNode : AyYnode}

/-- The call copies the subtree at `src` next to or below `dst`; the last child is not copied
below its own parent. -/
def YnodeOp.CopiesTo (forest : Forest Core) (dst src : Nat) : YnodeOp → Prop
  | .copySubtreeAsLastChild parent subtree =>
      parent = dst ∧ subtree = src ∧ YnodeOp.lastChildAt forest dst ≠ some src
  | .copySubtreeAsSibling sibling subtree => sibling = dst ∧ subtree = src
  | _ => False

/-- The place behind `dst` is not inside of the copied subtree. -/
theorem behindTree_apart (srcBound : src < forest.size) (dstBound : dst < forest.size)
    (outside : dst = src ∨ Outside forest dst src) :
    behindTree forest dst ≤ src ∨ src + (forest.treeAt src).size ≤ behindTree forest dst := by
  rcases outside with rfl | outside
  · exact .inr (Nat.le_refl _)
  · obtain ⟨node, nodeLabel, nodeKids, nodeRest, same, rfl⟩ :=
      Forest.Hole.exists_of_lt_size dstBound
    obtain ⟨source, label, kids, rest, rfl, rfl⟩ := Forest.Hole.exists_of_lt_size srcBound
    obtain ⟨left, leftKids, leftRest, -, -, -, ends⟩ :=
      Forest.Hole.exists_of_cut same outside.of_fill
    rw [behindTree, Forest.Hole.treeAt_fill, same, Forest.Hole.treeAt_fill]
    simp only [Forest.size]
    rcases ends with ⟨ahead, -⟩ | ⟨behindIt, -⟩
    · exact .inl (by omega)
    · exact .inr (by omega)

theorem Encodes.size_treeAt (encodes : Encodes tree.nodes forest)
    (nodeAt : tree.nodes[src]? = some srcNode) :
    (forest.treeAt src).size = srcNode.descendants + 1 ∧
      src + srcNode.descendants < tree.nodes.length := by
  obtain ⟨bound, -⟩ := List.getElem?_eq_some_iff.mp nodeAt
  rw [length_of_cells encodes.cells] at bound
  obtain ⟨hole, label, kids, rest, found, rfl, rfl, foundAt, count, -⟩ := encodes.node_at bound
  obtain rfl : found = srcNode := Option.some.inj (foundAt.symm.trans nodeAt)
  have whole := length_of_cells encodes.cells
  rw [Forest.Hole.size_fill, Forest.size] at whole
  rw [Forest.Hole.treeAt_fill, Forest.size, Forest.size, count]
  omega

/-- After a copy, as last child or as sibling, the references of the copy are right exactly when
every reference below the root of the subtree is to a marked target in the subtree or to its
last node. -/
theorem exec_refsFollow_iff (encodes : Encodes tree.nodes forest) (isTree : IsTree forest)
    (distinct : (ids tree.nodes.tail).Nodup) (valid : op.Valid tree forest)
    (copying : op.CopiesTo forest dst src) (dstAt : tree.nodes[dst]? = some dstNode)
    (srcAt : tree.nodes[src]? = some srcNode) :
    ∃ after, op.exec tree = some after ∧
      (RefsFollow tree.nodes after.nodes src srcNode.descendants
          (dst + dstNode.descendants + 1) ↔
        RefsResolved (subtreeNodes tree.nodes src srcNode.descendants)) := by
  obtain ⟨srcSize, srcEnd⟩ := encodes.size_treeAt srcAt
  obtain ⟨dstSize, dstEnd⟩ := encodes.size_treeAt dstAt
  have behindDst : behindTree forest dst = dst + dstNode.descendants + 1 := by
    rw [behindTree, dstSize]
    omega
  have counted : tree.nodes[src]?.map AyYnode.descendants = some srcNode.descendants := by
    rw [srcAt, Option.map_some]
  -- the subtree of the root has no place outside
  have srcNotRoot : ∀ outside : dst = src ∨ Outside forest dst src, dst ≠ 0 ∨ dst ≠ src →
      src ≠ 0 := by
    intro outside notRoot isRoot
    subst isRoot
    obtain ⟨label, kids, rfl⟩ := isTree
    have length := length_of_cells encodes.cells
    rcases outside with rfl | below | behindIt
    · simp at notRoot
    · omega
    · rw [srcSize] at behindIt
      obtain ⟨found, foundAt, -, count, -⟩ := @Encodes.node_in _ .top _ _ _ encodes
      obtain rfl : found = srcNode := Option.some.inj (foundAt.symm.trans srcAt)
      rw [Forest.size, Forest.size] at length
      omega
  cases op with
  | copySubtreeAsLastChild parent subtree =>
      obtain ⟨rfl, rfl, notLast⟩ := copying
      obtain ⟨dstBound, srcBound, outside, room⟩ := valid
      have copies := ayYnodeCopySubtreeAsLastChild_copies encodes isTree srcBound room dstBound
        outside fun found foundAt => by
          obtain ⟨other, otherAt, isLast⟩ := YnodeOp.ayYnodeGetLast_lastChildAt encodes dstBound
          obtain rfl : other = found := Option.some.inj (otherAt.symm.trans foundAt)
          rwa [isLast]
      have apart := behindTree_apart srcBound dstBound (.inr outside)
      have differ : parent ≠ subtree := fun same => by
        rcases outside with below | behindIt
        · omega
        · omega
      rw [srcSize, behindDst] at copies apart
      exact copies.refsFollow_iff distinct counted srcEnd (by omega)
        (srcNotRoot (.inr outside) (.inr differ)) (Nat.succ_ne_zero _) apart
  | copySubtreeAsSibling sibling subtree =>
      obtain ⟨rfl, rfl⟩ := copying
      obtain ⟨dstNotRoot, dstBound, srcBound, outside, room⟩ := valid
      have copies := ayYnodeCopySubtreeAsSibling_copies encodes isTree srcBound room dstNotRoot
        dstBound outside
      have apart := behindTree_apart srcBound dstBound outside
      rw [srcSize, behindDst] at copies apart
      exact copies.refsFollow_iff distinct counted srcEnd (by omega)
        (srcNotRoot outside (.inl dstNotRoot)) (Nat.succ_ne_zero _) apart
  | _ => exact False.elim copying

/-- A marked node, and a marked node with two children, the first of which has a reference. -/
def refTree (whenRef : YnodeId) : YnodeTree where
  nodes := [
    plainNode 0 none 4 none none (some 1),
    { plainNode 1 (some 10) 0 (some 0) (some 2) none with flags := ayWhenTarget },
    { plainNode 2 (some 20) 2 (some 0) none (some 3) with flags := ayWhenTarget },
    { plainNode 3 (some 30) 0 (some 2) (some 4) none with whenRef := whenRef },
    plainNode 4 (some 40) 0 (some 2) none none]
  idcnt := 5
  arrsize := 8

def refForest : Forest Core :=
  let core (id : YnodeId) (label : Option Lnode) : Core := { Core.blank id with label := label }
  .cons (core 0 none)
    (.cons (core 1 (some 10)) .nil
      (.cons (core 2 (some 20))
        (.cons (core 3 (some 30)) .nil (.cons (core 4 (some 40)) .nil .nil)) .nil)) .nil

/-- A reference to the root of the copied subtree. -/
theorem exec_refsFollow_iff_small :
    RefsResolved (subtreeNodes (refTree 2).nodes 2 2) ∧
      ∃ after, YnodeOp.exec (refTree 2) (.copySubtreeAsLastChild 1 2) = some after ∧
        RefsFollow (refTree 2).nodes after.nodes 2 2 2 := by
  have resolved : RefsResolved (subtreeNodes (refTree 2).nodes 2 2) := by decide
  obtain ⟨after, ran, follows⟩ := @exec_refsFollow_iff (refTree 2) refForest
    (.copySubtreeAsLastChild 1 2) 1 2 _ _ ⟨by decide, by decide⟩ ⟨_, _, rfl⟩ (by decide)
    (by decide) ⟨rfl, rfl, by decide⟩ rfl rfl
  exact ⟨resolved, after, ran, follows.mpr resolved⟩

/-- A reference to a node outside of the copied subtree is directed to the last node of it. -/
theorem copied_refs_fail :
    ¬ ∀ (tree : YnodeTree) (forest : Forest Core) (op : YnodeOp) (dst src : Nat)
      (dstNode srcNode : AyYnode), Encodes tree.nodes forest → IsTree forest →
      (ids tree.nodes.tail).Nodup → op.Valid tree forest → op.CopiesTo forest dst src →
      tree.nodes[dst]? = some dstNode → tree.nodes[src]? = some srcNode →
      ∃ after, op.exec tree = some after ∧
        RefsFollow tree.nodes after.nodes src srcNode.descendants
          (dst + dstNode.descendants + 1) := by
  intro holds
  obtain ⟨after, ran, follows⟩ := holds (refTree 1) refForest (.copySubtreeAsSibling 2 2) 2 2 _ _
    ⟨by decide, by decide⟩ ⟨_, _, rfl⟩ (by decide) (by decide) ⟨rfl, rfl⟩ rfl rfl
  have copied : RefsFollow (refTree 1).nodes after.nodes 2 2 5 := follows
  obtain ⟨copy, copyAt, -, outside⟩ := copied.refs 1 _ (by decide) (by decide) rfl (by decide)
  have kept : copy.whenRef = 1 := by
    refine outside fun target node few nodeAt => ?_
    have ids : ∀ offset ≤ 2, ((refTree 1).nodes[2 + offset]?.map AyYnode.id) ≠ some 1 := by decide
    intro sameId
    exact ids target few (by rw [nodeAt, Option.map_some, sameId])
  have written : (YnodeOp.exec (refTree 1) (.copySubtreeAsSibling 2 2)).bind (fun after =>
      after.nodes[6]?.map AyYnode.whenRef) = some 4 := by decide
  rw [ran, Option.bind_some, copyAt, Option.map_some, kept] at written
  exact absurd written (by decide)

end Primitives

end SysrepoAugeas.Ynode
