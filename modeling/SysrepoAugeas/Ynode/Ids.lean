import Mathlib.Data.List.Nodup
import Mathlib.Data.List.Perm.Subperm
import SysrepoAugeas.Ynode.Create
import SysrepoAugeas.Ynode.Run

/-!
# Ids of ynodes

The id of a new node comes from the counter of the root.  As long as no
subtree is copied, ids stay distinct and below the counter, whatever the
operations do to the tree.
-/

namespace SysrepoAugeas.Ynode

def ids (nodes : List AyYnode) : List YnodeId := nodes.map AyYnode.id

section Unchanged

/-! Links and counts are corrected without touching the ids. -/

theorem ids_modify {nodes : List AyYnode} {index : Nat} {change : AyYnode → AyYnode}
    (same : ∀ node, (change node).id = node.id) : ids (nodes.modify index change) = ids nodes :=
  map_modify_same same

theorem ids_foldl_modify {change : Nat → AyYnode → AyYnode}
    (same : ∀ index node, (change index node).id = node.id) (indices : List Nat)
    (nodes : List AyYnode) :
    ids (indices.foldl (fun nodes index => nodes.modify index (change index)) nodes) =
      ids nodes :=
  foldl_modify_same same indices nodes

@[simp]
theorem ids_correction (nodes : List AyYnode) : ids (ayYnodeTreeCorrection nodes) = ids nodes :=
  treeCorrection_same (fun _ _ _ _ => rfl) nodes

theorem onAncestors_same {View : Type} {view : AyYnode → View}
    (countAside : ∀ node descendants, view { node with descendants := descendants } = view node)
    (change : Nat → Nat) (start : Option Nat) (nodes : List AyYnode) :
    (onAncestors change start nodes).map view = nodes.map view := by
  rw [onAncestors]
  generalize nodes.length = fuel
  induction fuel generalizing start nodes with
  | zero => rfl
  | succ fuel inductionHypothesis =>
      cases start with
      | none => rfl
      | some iter =>
          simp only [changeAncestors]
          split
          · rw [inductionHypothesis]
            exact map_modify_same fun node => countAside node _
          · rfl

@[simp]
theorem ids_onAncestors (change : Nat → Nat) (start : Option Nat) (nodes : List AyYnode) :
    ids (onAncestors change start nodes) = ids nodes :=
  onAncestors_same (fun _ _ => rfl) change start nodes

end Unchanged

/-- Ids are distinct and below the counter. -/
structure Numbered (tree : YnodeTree) : Prop where
  distinct : (ids tree.nodes).Nodup
  below : ∀ id ∈ ids tree.nodes, id.toNat < tree.idcnt.toNat

/-- A step that draws `count` ids from the counter; the first of them may be given to a new
node, all other nodes keep theirs. -/
def Draws (tree : YnodeTree) (count : Nat) (after : YnodeTree) : Prop :=
  after.idcnt = advanceId tree.idcnt count ∧
    ((ids after.nodes).Subperm (ids tree.nodes) ∨
      (0 < count ∧ (ids after.nodes).Subperm (tree.idcnt :: ids tree.nodes)))

theorem nodup_of_subperm {list larger : List YnodeId} (subperm : list.Subperm larger)
    (distinct : larger.Nodup) : list.Nodup := by
  obtain ⟨part, perm, sublist⟩ := subperm
  exact perm.nodup_iff.mp (distinct.sublist sublist)

theorem toNat_advanceId {idcnt : YnodeId} {count : Nat} (bound : idcnt.toNat + count < 2 ^ 32) :
    (advanceId idcnt count).toNat = idcnt.toNat + count := by
  rw [advanceId, BitVec.toNat_add, BitVec.toNat_ofNat, Nat.mod_eq_of_lt (a := count) (by omega),
    Nat.mod_eq_of_lt bound]

/-- As long as the counter does not overflow, ids stay distinct and below it. -/
theorem Numbered.of_draws {tree after : YnodeTree} {count : Nat} (numbered : Numbered tree)
    (draws : Draws tree count after) (bound : tree.idcnt.toNat + count < 2 ^ 32) :
    Numbered after := by
  obtain ⟨counter, given⟩ := draws
  have counted := toNat_advanceId bound
  rcases given with kept | ⟨positive, drawn⟩
  · refine ⟨nodup_of_subperm kept numbered.distinct, fun id membership => ?_⟩
    have := numbered.below id (kept.subset membership)
    rw [counter, counted]
    omega
  · have fresh : tree.idcnt ∉ ids tree.nodes := fun membership =>
      Nat.lt_irrefl _ (numbered.below _ membership)
    refine ⟨nodup_of_subperm drawn (List.nodup_cons.mpr ⟨fresh, numbered.distinct⟩),
      fun id membership => ?_⟩
    rw [counter, counted]
    rcases List.mem_cons.mp (drawn.subset membership) with rfl | old
    · omega
    · have := numbered.below id old
      omega

section Steps

variable {tree after : YnodeTree}

theorem ids_append (nodes others : List AyYnode) : ids (nodes ++ others) = ids nodes ++ ids others := by
  simp [ids]

theorem sublist_of_ids {nodes others : List AyYnode} (same : ids nodes = ids others) :
    (ids nodes).Sublist (ids others) := same ▸ List.Sublist.refl _

theorem ayYnodeInsertGap_eq {index : Nat} (ran : ayYnodeInsertGap tree index = some after) :
    index ≤ tree.nodes.length ∧
      after = ⟨tree.nodes.take index ++ AyYnode.blank tree.idcnt :: tree.nodes.drop index,
        advanceId tree.idcnt 1, tree.arrsize⟩ := by
  rw [ayYnodeInsertGap] at ran
  split at ran
  · rename_i bounds
    exact ⟨bounds.2, (Option.some.inj ran).symm⟩
  · cases ran

theorem ayYnodeInsertGap_draws {index : Nat} (ran : ayYnodeInsertGap tree index = some after) :
    Draws tree 1 after := by
  obtain ⟨-, rfl⟩ := ayYnodeInsertGap_eq ran
  refine ⟨rfl, .inr ⟨Nat.one_pos, List.Perm.subperm ?_⟩⟩
  have split : ids tree.nodes = ids (tree.nodes.take index) ++ ids (tree.nodes.drop index) := by
    rw [← ids_append, List.take_append_drop]
  rw [split, ids_append]
  exact List.perm_middle

/-- Corrections around a step do not matter to the ids. -/
theorem Draws.of_ids {before prepared : YnodeTree} {count : Nat} {nodes : List AyYnode}
    (draws : Draws prepared count after) (sameIds : ids prepared.nodes = ids before.nodes)
    (sameCounter : prepared.idcnt = before.idcnt) (corrected : ids nodes = ids after.nodes) :
    Draws before count ⟨nodes, after.idcnt, after.arrsize⟩ := by
  obtain ⟨counter, given⟩ := draws
  rw [sameIds, sameCounter] at given
  exact ⟨by rw [counter, sameCounter], by rw [corrected]; exact given⟩

theorem Draws.of_sublist {nodes : List AyYnode} {arrsize : Nat}
    (sublist : (ids nodes).Sublist (ids tree.nodes)) :
    Draws tree 0 ⟨nodes, tree.idcnt, arrsize⟩ :=
  ⟨by simp [advanceId], .inl sublist.subperm⟩

theorem Draws.of_eq {nodes : List AyYnode} {arrsize : Nat} (same : ids nodes = ids tree.nodes) :
    Draws tree 0 ⟨nodes, tree.idcnt, arrsize⟩ :=
  .of_sublist (sublist_of_ids same)

/-- Deleting a range leaves a part of the nodes. -/
theorem ids_delete_sublist (nodes : List AyYnode) (index items : Nat) :
    (ids (nodes.take index ++ nodes.drop (index + items))).Sublist (ids nodes) := by
  refine List.Sublist.map _ ?_
  have shorter : (nodes.drop index).drop items |>.Sublist (nodes.drop index) :=
    List.drop_sublist _ _
  have part := shorter.append_left (nodes.take index)
  rwa [List.drop_drop, List.take_append_drop] at part

theorem perm_of_getElem {nodes : List AyYnode} {index : Nat} {node : AyYnode}
    (found : nodes[index]? = some node) :
    nodes.Perm (node :: (nodes.take index ++ nodes.drop (index + 1))) := by
  obtain ⟨bound, rfl⟩ := List.getElem?_eq_some_iff.mp found
  have split : nodes = nodes.take index ++ nodes[index] :: nodes.drop (index + 1) := by
    rw [← List.drop_eq_getElem_cons, List.take_append_drop]
  rw [List.perm_iff_count]
  intro node
  conv_lhs => rw [split]
  simp only [List.count_append, List.count_cons]
  omega

/-- Moving nodes one by one only permutes them. -/
theorem moveOneByOne_perm {count dst src : Nat} (ran : moveOneByOne count dst src tree = some after) :
    after.nodes.Perm tree.nodes ∧ after.idcnt = advanceId tree.idcnt count := by
  induction count generalizing dst src tree with
  | zero =>
      rw [moveOneByOne, Option.some.injEq] at ran
      subst ran
      exact ⟨List.Perm.refl _, by simp [advanceId]⟩
  | succ count inductionHypothesis =>
      simp only [moveOneByOne, Option.bind_eq_bind, Option.bind_eq_some_iff] at ran
      obtain ⟨node, found, gapped, inserted, rest⟩ := ran
      obtain ⟨perm, counter⟩ := inductionHypothesis rest
      generalize (if src < dst then dst - 1 else dst) = place at inserted perm counter
      obtain ⟨bound, rfl⟩ := ayYnodeInsertGap_eq inserted
      simp only [ayYnodeDeleteGap] at bound perm counter
      refine ⟨perm.trans (List.Perm.trans ?_ (perm_of_getElem found).symm), ?_⟩
      · generalize tree.nodes.take src ++ tree.nodes.drop (src + 1) = others at bound ⊢
        have placeLength : place = (others.take place).length := by
          rw [List.length_take, Nat.min_eq_left bound]
        have placed : (others.take place ++ AyYnode.blank tree.idcnt :: others.drop place).set place
            node = others.take place ++ node :: others.drop place := by
          rw [List.set_append_right _ _ (by omega), ← placeLength, Nat.sub_self,
            List.set_cons_zero]
        rw [placed]
        refine List.perm_middle.trans ?_
        rw [List.take_append_drop]
      · rw [counter, advanceId_add, Nat.add_comm]

/-- Taking out a block and putting it in elsewhere permutes the nodes. -/
theorem perm_move_block (nodes : List AyYnode) (start count place : Nat) :
    let others := nodes.take start ++ nodes.drop (start + count)
    (others.take place ++ (nodes.drop start).take count ++ others.drop place).Perm nodes := by
  intro others
  have outer := List.take_append_drop place others
  have inner := List.take_append_drop count (nodes.drop start)
  have whole := List.take_append_drop start nodes
  rw [List.drop_drop] at inner
  refine List.perm_iff_count.mpr fun node => ?_
  have outerCount := congrArg (List.count node) outer
  have innerCount := congrArg (List.count node) inner
  have wholeCount := congrArg (List.count node) whole
  simp only [List.count_append, others] at outerCount innerCount wholeCount ⊢
  omega

/-- Moving a subtree only permutes the nodes. -/
theorem ayYnodeMoveSubtree_perm {dst src : Nat}
    (ran : ayYnodeMoveSubtree tree dst src = some after) :
    after.nodes.Perm tree.nodes ∧ ∃ count,
      (∀ root, tree.nodes[src]? = some root → count ≤ root.descendants + 1) ∧
        after.idcnt = advanceId tree.idcnt count := by
  by_cases stays : dst = src
  · rw [ayYnodeMoveSubtree, if_pos stays, Option.some.injEq] at ran
    subst ran
    exact ⟨List.Perm.refl _, 0, fun _ _ => Nat.zero_le _, by simp [advanceId]⟩
  · simp only [ayYnodeMoveSubtree, if_neg stays, Option.bind_eq_bind,
      Option.bind_eq_some_iff] at ran
    obtain ⟨root, found, ran⟩ := ran
    have onlyRoot : ∀ other, tree.nodes[src]? = some other → other = root := fun other isOther =>
      Option.some.inj (isOther.symm.trans found)
    split at ran
    · simp only [ayYnodeInsertGapRange, ayYnodeDeleteGapRange] at ran
      obtain ⟨-, moved⟩ := Option.ite_none_right_eq_some.mp ran
      rw [← Option.some.inj moved]
      refine ⟨perm_move_block _ _ _ _, _, fun other isOther => ?_, rfl⟩
      rw [onlyRoot other isOther, List.length_take]
      exact Nat.min_le_left _ _
    · obtain ⟨perm, counter⟩ := moveOneByOne_perm ran
      exact ⟨perm, _, fun other isOther => Nat.le_of_eq (by rw [onlyRoot other isOther]), counter⟩

/-- Size of the subtree at `src` as `ay_ynode_move_subtree` reads it, after the ancestors from
`start` on have been told. -/
def movedSize (tree : YnodeTree) (start : Option Nat) (src : Nat) : Nat :=
  match tree.nodes[src]? with
  | some srcNode =>
      let told := onAncestors (· + (srcNode.descendants + 1)) start
        (onAncestors (· - (srcNode.descendants + 1)) srcNode.parent tree.nodes)
      ((told[src]?.map AyYnode.descendants).getD 0) + 1
  | none => 0

def parentOf (tree : YnodeTree) (node : Nat) : Option Nat := tree.nodes[node]?.bind AyYnode.parent

/-- The ids that an operation draws from the counter at most. -/
def YnodeOp.drawn (tree : YnodeTree) : YnodeOp → Nat
  | .insertWrapper _ | .insertParent _ | .insertParentForRest _ | .insertChild _
  | .insertSibling _ | .insertChildLast _ => 1
  | .moveSubtreeAsSibling dst src => movedSize tree (parentOf tree dst) src
  | .moveSubtreeAsChild dst src => movedSize tree (some dst) src
  | .moveSubtreeAsLastChild dst src =>
      match ayYnodeGetLast (tree.nodes[dst]?.bind AyYnode.child) tree.nodes with
      | some last => movedSize tree (parentOf tree last) src
      | none => movedSize tree (some dst) src
  | _ => 0

/-- No subtree is copied: a copy of the last child below its parent leaves the tree alone. -/
def YnodeOp.CopiesNone (tree : YnodeTree) : YnodeOp → Prop
  | .copySubtreeAsLastChild dst src =>
      tree.nodes[dst]?.map (fun node => ayYnodeGetLast node.child tree.nodes) = some (some src)
  | .copySubtreeAsSibling _ _ => False
  | _ => True

instance (tree : YnodeTree) (op : YnodeOp) : Decidable (op.CopiesNone tree) :=
  match op with
  | .copySubtreeAsLastChild dst src => inferInstanceAs (Decidable
      (tree.nodes[dst]?.map (fun node => ayYnodeGetLast node.child tree.nodes) = some (some src)))
  | .copySubtreeAsSibling _ _ => isFalse id
  | .insertWrapper _ | .insertParent _ | .insertParentForRest _ | .insertChild _
  | .insertSibling _ | .insertChildLast _ | .deleteNode _ | .deleteSubtree _ | .deleteChildren _ _
  | .moveSubtreeAsSibling _ _ | .moveSubtreeAsChild _ _ | .moveSubtreeAsLastChild _ _
  | .reserve _ => isTrue trivial

theorem ayYnodeInsertSibling_draws {node : Nat}
    (ran : ayYnodeInsertSibling tree node = some after) : Draws tree 1 after := by
  simp only [ayYnodeInsertSibling, Option.bind_eq_bind, Option.bind_eq_some_iff,
    Option.some.injEq] at ran
  obtain ⟨before, -, gapped, inserted, rfl⟩ := ran
  exact (ayYnodeInsertGap_draws inserted).of_ids (by simp) rfl (by simp)

theorem ayYnodeInsertChild_draws {parent : Nat}
    (ran : ayYnodeInsertChild tree parent = some after) : Draws tree 1 after := by
  simp only [ayYnodeInsertChild, Option.bind_eq_bind, Option.bind_eq_some_iff,
    Option.some.injEq] at ran
  obtain ⟨gapped, inserted, rfl⟩ := ran
  exact (ayYnodeInsertGap_draws inserted).of_ids (by simp) rfl (by simp)

/-- A move permutes the nodes between two corrections. -/
theorem draws_move {moved : YnodeTree} {start : Option Nat} {dst src : Nat} {srcNode : AyYnode}
    (found : tree.nodes[src]? = some srcNode)
    (ran : ayYnodeMoveSubtree { tree with
        nodes := onAncestors (· + (srcNode.descendants + 1)) start
          (onAncestors (· - (srcNode.descendants + 1)) srcNode.parent tree.nodes) } dst src =
      some moved) :
    ∃ count ≤ movedSize tree start src,
      Draws tree count { moved with nodes := ayYnodeTreeCorrection moved.nodes } := by
  obtain ⟨perm, count, bounded, counter⟩ := ayYnodeMoveSubtree_perm ran
  refine ⟨count, ?_, @Draws.of_ids _ _ ⟨_, tree.idcnt, tree.arrsize⟩ _ _
      ⟨counter, .inl (perm.map AyYnode.id).subperm⟩ (by simp) rfl (by simp)⟩
  have length := congrArg List.length (show ids (onAncestors (· + (srcNode.descendants + 1)) start
    (onAncestors (· - (srcNode.descendants + 1)) srcNode.parent tree.nodes)) = ids tree.nodes by simp)
  simp only [ids, List.length_map] at length
  obtain ⟨bound, -⟩ := List.getElem?_eq_some_iff.mp found
  have root := List.getElem?_eq_getElem (l := onAncestors (· + (srcNode.descendants + 1)) start
    (onAncestors (· - (srcNode.descendants + 1)) srcNode.parent tree.nodes)) (by omega : src < _)
  have := bounded _ root
  simpa [movedSize, found, root] using this

theorem Draws.stays (tree : YnodeTree) : Draws tree 0 tree :=
  ⟨by simp [advanceId], .inl (List.Subperm.refl _)⟩

theorem ayYnodeMoveSubtreeAsSibling_draws {dst src : Nat}
    (ran : ayYnodeMoveSubtreeAsSibling tree dst src = some after) :
    ∃ count ≤ movedSize tree (parentOf tree dst) src, Draws tree count after := by
  simp only [ayYnodeMoveSubtreeAsSibling, Option.bind_eq_bind, Option.bind_eq_some_iff] at ran
  obtain ⟨dstNode, dstAt, srcNode, srcAt, ran⟩ := ran
  split at ran
  · rw [← Option.some.inj ran]
    exact ⟨0, Nat.zero_le _, .stays tree⟩
  · obtain ⟨moved, ran, equality⟩ := Option.bind_eq_some_iff.mp ran
    rw [← Option.some.inj equality, parentOf, dstAt, Option.bind_some]
    exact draws_move srcAt ran

theorem ayYnodeMoveSubtreeAsChild_draws {dst src : Nat}
    (ran : ayYnodeMoveSubtreeAsChild tree dst src = some after) :
    ∃ count ≤ movedSize tree (some dst) src, Draws tree count after := by
  simp only [ayYnodeMoveSubtreeAsChild, Option.bind_eq_bind, Option.bind_eq_some_iff] at ran
  obtain ⟨dstNode, dstAt, srcNode, srcAt, ran⟩ := ran
  split at ran
  · rw [← Option.some.inj ran]
    exact ⟨0, Nat.zero_le _, .stays tree⟩
  · obtain ⟨moved, ran, equality⟩ := Option.bind_eq_some_iff.mp ran
    rw [← Option.some.inj equality]
    exact draws_move srcAt ran

theorem ayYnodeDeleteNode_draws {node : Nat} {flag : Bool}
    (ran : ayYnodeDeleteNode tree node = some (after, flag)) : Draws tree 0 after := by
  simp only [ayYnodeDeleteNode, Option.bind_eq_bind, Option.bind_eq_some_iff] at ran
  obtain ⟨found, -, prepared, isPrepared, ran⟩ := ran
  cases prepared with
  | none =>
      simp only [Option.some.injEq, Prod.mk.injEq] at ran
      rw [← ran.1]
      exact .of_eq (ids_modify fun _ => rfl)
  | some nodes =>
      simp only [Option.bind_eq_some_iff, Option.some.injEq, Prod.mk.injEq] at ran
      obtain ⟨parent, -, parentNode, -, equality, -⟩ := ran
      rw [← equality]
      have preparedIds : ids nodes = ids tree.nodes := by
        have same := congrArg (List.map fun pair : (Core × Nat) × Data.Forest.Links => pair.1.1.id)
          (prepareDelete_same isPrepared)
        rw [List.map_map, List.map_map] at same
        exact same
      -- hints before and a choice after the deletion are no ids
      have hintedIds : ids (if found.flags &&& ayChildrenMandFalse ≠ 0 then
          (siblingsFrom found.child nodes).foldl (fun nodes iter =>
            nodes.modify iter fun child => { child with flags := child.flags ||| ayHintMandFalse })
            nodes
          else nodes) = ids tree.nodes := by
        split
        · rw [← preparedIds]
          exact ids_foldl_modify (by intro _ _; rfl) _ _
        · exact preparedIds
      refine .of_sublist ?_
      generalize (if found.flags &&& ayChildrenMandFalse ≠ 0 then _ else nodes) = hinted at hintedIds ⊢
      have deleted := ids_delete_sublist (onAncestors (· - 1) found.parent hinted) node 1
      rw [ids_onAncestors, hintedIds, ← ids_correction] at deleted
      simp only [ayYnodeDeleteGap]
      split
      · exact (sublist_of_ids (ids_modify (by intro _; rfl))).trans deleted
      · exact deleted

/-- What any operation that copies nothing does to the ids. -/
theorem exec_draws {op : YnodeOp} (copiesNone : op.CopiesNone tree)
    (ran : op.exec tree = some after) : ∃ count ≤ op.drawn tree, Draws tree count after := by
  cases op with
  | insertWrapper node =>
      simp only [YnodeOp.exec, ayYnodeInsertWrapper, Option.bind_eq_bind, Option.bind_eq_some_iff,
        Option.some.injEq] at ran
      obtain ⟨found, -, gapped, inserted, rfl⟩ := ran
      exact ⟨1, Nat.le_refl _, (ayYnodeInsertGap_draws inserted).of_ids (by simp) rfl
        ((ids_correction _).trans (ids_modify fun _ => rfl))⟩
  | insertParent child =>
      simp only [YnodeOp.exec, ayYnodeInsertParent, Option.bind_eq_bind, Option.bind_eq_some_iff,
        Option.some.injEq] at ran
      obtain ⟨childNode, -, oldParent, -, parentNode, -, index, -, gapped, inserted, before, -,
        rfl⟩ := ran
      exact ⟨1, Nat.le_refl _, (ayYnodeInsertGap_draws inserted).of_ids (by simp) rfl
        ((ids_correction _).trans (ids_modify fun _ => rfl))⟩
  | insertParentForRest child =>
      simp only [YnodeOp.exec, ayYnodeInsertParentForRest, Option.bind_eq_bind,
        Option.bind_eq_some_iff, Option.some.injEq] at ran
      obtain ⟨childNode, -, gapped, inserted, rfl⟩ := ran
      exact ⟨1, Nat.le_refl _, (ayYnodeInsertGap_draws inserted).of_ids (by simp) rfl
        ((ids_correction _).trans (ids_modify fun _ => rfl))⟩
  | insertChild parent => exact ⟨1, Nat.le_refl _, ayYnodeInsertChild_draws ran⟩
  | insertSibling node => exact ⟨1, Nat.le_refl _, ayYnodeInsertSibling_draws ran⟩
  | insertChildLast parent =>
      simp only [YnodeOp.exec, ayYnodeInsertChildLast, Option.bind_eq_bind,
        Option.bind_eq_some_iff] at ran
      obtain ⟨parentNode, -, ran⟩ := ran
      split at ran
      · exact ⟨1, Nat.le_refl _, ayYnodeInsertSibling_draws ran⟩
      · exact ⟨1, Nat.le_refl _, ayYnodeInsertChild_draws ran⟩
  | deleteNode node =>
      obtain ⟨⟨result, flag⟩, deleted, rfl⟩ := Option.map_eq_some_iff.mp ran
      exact ⟨0, Nat.le_refl _, ayYnodeDeleteNode_draws deleted⟩
  | deleteSubtree subtree =>
      simp only [YnodeOp.exec, ayYnodeDeleteSubtree, Option.bind_eq_bind, Option.bind_eq_some_iff,
        Option.some.injEq] at ran
      obtain ⟨found, -, rfl⟩ := ran
      refine ⟨0, Nat.le_refl _, .of_sublist ?_⟩
      simpa only [ids_correction, ids_onAncestors, ayYnodeDeleteGapRange] using
        ids_delete_sublist (onAncestors _ found.parent tree.nodes) subtree _
  | deleteChildren subtree keepKeyval =>
      simp only [YnodeOp.exec, ayYnodeDeleteChildren, Option.bind_eq_bind,
        Option.bind_eq_some_iff] at ran
      obtain ⟨found, -, ⟨first, deletedNodes⟩, -, ran⟩ := ran
      refine ⟨0, Nat.le_refl _, ?_⟩
      split at ran
      · rw [← Option.some.inj ran]
        exact .stays tree
      · simp only [Option.bind_eq_some_iff, Option.some.injEq] at ran
        obtain ⟨firstNode, -, rfl⟩ := ran
        refine .of_sublist ?_
        simpa only [ids_correction, ids_onAncestors, ayYnodeDeleteGapRange] using
          ids_delete_sublist (onAncestors _ firstNode.parent tree.nodes) first _
  | moveSubtreeAsSibling dst src => exact ayYnodeMoveSubtreeAsSibling_draws ran
  | moveSubtreeAsChild dst src => exact ayYnodeMoveSubtreeAsChild_draws ran
  | moveSubtreeAsLastChild dst src =>
      by_cases same : dst = src
      · rw [YnodeOp.exec, ayYnodeMoveSubtreeAsLastChild, if_pos same] at ran
        rw [← Option.some.inj ran]
        exact ⟨0, Nat.zero_le _, .stays tree⟩
      · simp only [YnodeOp.exec, ayYnodeMoveSubtreeAsLastChild, if_neg same, Option.bind_eq_bind,
          Option.bind_eq_some_iff] at ran
        obtain ⟨dstNode, dstAt, ran⟩ := ran
        simp only [YnodeOp.drawn, dstAt, Option.bind_some]
        revert ran
        cases ayYnodeGetLast dstNode.child tree.nodes with
        | some last =>
            intro ran
            exact ayYnodeMoveSubtreeAsSibling_draws ran
        | none =>
            intro ran
            exact ayYnodeMoveSubtreeAsChild_draws ran
  | copySubtreeAsLastChild dst src =>
      obtain ⟨dstNode, dstAt, isLast⟩ := Option.map_eq_some_iff.mp copiesNone
      simp only [YnodeOp.exec, ayYnodeCopySubtreeAsLastChild, dstAt, Option.bind_eq_bind,
        Option.bind_some, Option.bind_eq_some_iff, if_pos isLast] at ran
      obtain ⟨srcNode, -, ran⟩ := ran
      split at ran
      · rw [← Option.some.inj ran]
        exact ⟨0, Nat.zero_le _, .stays tree⟩
      · cases ran
  | copySubtreeAsSibling dst src => exact False.elim copiesNone
  | reserve itemsCount =>
      rw [YnodeOp.exec, Option.some.injEq, YnodeOp.reserveItems] at ran
      refine ⟨0, Nat.zero_le _, ?_⟩
      split at ran
      · rw [← ran]
        exact .of_eq rfl
      · rw [← ran]
        exact .stays tree

end Steps

section Created

/-- The lnodes are numbered in the order of their ynodes. -/
theorem ids_createForestFrom (ltree : List AyLnode) (descendants fuel i : Nat) (id : YnodeId) :
    ∃ count, ids (createForestFrom ltree descendants fuel i id) =
      (List.range count).map fun offset => id + BitVec.ofNat 32 offset := by
  induction fuel generalizing i id with
  | zero => exact ⟨0, rfl⟩
  | succ fuel inductionHypothesis =>
      simp only [createForestFrom]
      split
      · split
        · rename_i lnode _
          split
          · split
            · exact inductionHypothesis _ id
            · obtain ⟨count, rest⟩ := inductionHypothesis (i + 1) (id + 1)
              refine ⟨count + 1, ?_⟩
              rw [List.range_succ_eq_map, List.map_cons, List.map_map]
              have shifted : ids (createNode ltree i lnode id ::
                  createForestFrom ltree descendants fuel (i + 1) (id + 1)) =
                    id :: ids (createForestFrom ltree descendants fuel (i + 1) (id + 1)) := rfl
              rw [shifted, rest]
              congr 1
              · simp
              · refine List.map_congr_left fun offset _ => ?_
                simp only [Function.comp_apply, Nat.succ_eq_add_one, BitVec.ofNat_add,
                  BitVec.add_assoc]
                rw [BitVec.add_comm (BitVec.ofNat 32 offset)]
                rfl
          · exact inductionHypothesis _ id
        · exact ⟨0, rfl⟩
      · exact ⟨0, rfl⟩

theorem ids_connectTopnodes (forest : List AyYnode) :
    ids (ayYnodeForestConnectTopnodes forest) = ids forest := by
  simp only [ayYnodeForestConnectTopnodes]
  split
  · refine (ids_modify (by intro _; rfl)).trans ?_
    exact ids_foldl_modify (by intro _ _; rfl) _ _
  · exact ids_foldl_modify (by intro _ _; rfl) _ _

theorem ids_setRootNodes (nodes : List AyYnode) (tops : List Nat) (descendants : Nat) :
    ids (setRootNodes nodes tops descendants) = ids nodes := by
  rw [setRootNodes]
  refine (ids_modify (by intro _; rfl)).trans ?_
  exact ids_foldl_modify (by intro _ _; rfl) _ _

/-- The root takes the id zero and counts on from the last node. -/
theorem ayYnodeSetRoot_numbered {forest : List AyYnode} {tree : YnodeTree} {count : Nat}
    (numbered : ids forest = (List.range count).map fun offset => 1 + BitVec.ofNat 32 offset)
    (done : ayYnodeSetRoot forest = some tree) :
    ids tree.nodes = (List.range (count + 1)).map (BitVec.ofNat 32) ∧
      tree.idcnt = BitVec.ofNat 32 (count + 1) := by
  have shiftedIds : ids (ayYnodeShiftRight forest) =
      (List.range (count + 1)).map (BitVec.ofNat 32) := by
    have kept : ids (ayYnodeShiftRight forest) = 0 :: ids forest := by
      simp [ids, ayYnodeShiftRight, AyYnode.blank]
    rw [kept, numbered, List.range_succ_eq_map, List.map_cons, List.map_map]
    congr 1
    refine List.map_congr_left fun offset _ => ?_
    simp only [Function.comp_apply, Nat.succ_eq_add_one, BitVec.ofNat_add]
    rw [BitVec.add_comm]
    rfl
  simp only [ayYnodeSetRoot] at done
  generalize siblingsFrom _ _ = tops at done
  generalize (tops.map fun iter =>
    (((ayYnodeShiftRight forest)[iter]?.map AyYnode.descendants).getD 0) + 1).sum = descendants
    at done
  obtain ⟨asserted, made⟩ := Option.ite_none_right_eq_some.mp done
  obtain ⟨last, lastAt, rfl⟩ := Option.map_eq_some_iff.mp made
  have allIds := (ids_setRootNodes (ayYnodeShiftRight forest) tops descendants).trans shiftedIds
  refine ⟨allIds, ?_⟩
  -- the assertion says that the root counts all nodes, so the last one has the last id
  have lengths := congrArg List.length allIds
  have lastId := congrArg (fun list : List YnodeId => list[count]?) allIds
  simp only [ids, List.length_map, List.length_range, List.getElem?_map] at lengths lastId
  rw [lengths] at asserted
  obtain rfl : count = descendants := Nat.succ.inj asserted
  rw [lastAt, Option.map_some, List.getElem?_range (Nat.lt_succ_self count), Option.map_some,
    Option.some.injEq] at lastId
  rw [lastId, BitVec.ofNat_add]
  rfl

/-- A new tree is numbered without gaps. -/
theorem ayYnodeCreateTree_numbered {ltree : List AyLnode} {tree : YnodeTree}
    (created : ayYnodeCreateTree ltree = some tree) (few : tree.nodes.length < 2 ^ 32) :
    Numbered tree := by
  obtain ⟨count, forestIds⟩ := ids_createForestFrom ltree
    ((ltree.head?.map AyLnode.descendants).getD 0) ((ltree.head?.map AyLnode.descendants).getD 0) 0 1
  obtain ⟨allIds, counter⟩ := ayYnodeSetRoot_numbered
    ((ids_connectTopnodes _).trans ((ids_correction _).trans forestIds)) created
  have lengths := congrArg List.length allIds
  simp only [ids, List.length_map, List.length_range] at lengths
  have toNat : ∀ id < 2 ^ 32, (BitVec.ofNat 32 id).toNat = id := fun id bound => by
    rw [BitVec.toNat_ofNat, Nat.mod_eq_of_lt bound]
  refine ⟨?_, ?_⟩
  · rw [allIds]
    refine List.Nodup.map_on ?_ List.nodup_range
    intro first firstMem second secondMem equality
    rw [List.mem_range] at firstMem secondMem
    have := congrArg BitVec.toNat equality
    rwa [toNat first (by omega), toNat second (by omega)] at this
  · intro id membership
    rw [allIds, List.mem_map] at membership
    obtain ⟨number, inRange, rfl⟩ := membership
    rw [List.mem_range] at inRange
    rw [counter, toNat number (by omega), toNat (count + 1) (by omega)]
    exact inRange

end Created

/-- Every node but the root is the only one with its id, which the counter has passed. -/
structure UniqueIds (tree : YnodeTree) : Prop where
  distinct : (ids tree.nodes.tail).Nodup
  below : ∀ id ∈ ids tree.nodes.tail, id.toNat < tree.idcnt.toNat
  found : ∀ index node, index ≠ 0 → tree.nodes[index]? = some node →
    ayYnodeGetNode tree.nodes 0 node.id = some index

theorem Numbered.uniqueIds {tree : YnodeTree} (numbered : Numbered tree) : UniqueIds tree := by
  have tailIds : (ids tree.nodes.tail).Sublist (ids tree.nodes) :=
    List.Sublist.map _ (List.tail_sublist _)
  refine ⟨numbered.distinct.sublist tailIds,
    fun id membership => numbered.below id (tailIds.subset membership), ?_⟩
  intro index node _ nodeAt
  rw [ayYnodeGetNode, List.drop_zero]
  have first : tree.nodes.findIdx? (fun other => other.id == node.id) = some index := by
    obtain ⟨bound, nodeEq⟩ := List.getElem?_eq_some_iff.mp nodeAt
    rw [List.findIdx?_eq_some_iff_getElem]
    refine ⟨bound, by simp [nodeEq], fun earlier before => ?_⟩
    intro sameId
    have earlierBound : earlier < tree.nodes.length := by omega
    have equality := (@List.Nodup.getElem_inj_iff _ _ numbered.distinct earlier
        (by simpa [ids] using earlierBound) index (by simpa [ids] using bound)).mp
      (by simpa [ids, nodeEq] using sameId)
    omega
  rw [first]
  simp

/-- The array after a sequence of operations. -/
def execRun : YnodeTree → List YnodeOp → Option YnodeTree
  | tree, [] => some tree
  | tree, op :: rest => (op.exec tree).bind fun after => execRun after rest

/-- In every state reached the ids are unique. -/
def IdsThroughout (tree : YnodeTree) (ops : List YnodeOp) : Prop :=
  ∀ steps ≤ ops.length, ∀ reached, execRun tree (ops.take steps) = some reached → UniqueIds reached

/-- A run that copies no subtree and does not exhaust the counter. -/
def DrawingRun : YnodeTree → List YnodeOp → Prop
  | _, [] => True
  | tree, op :: rest =>
      op.CopiesNone tree ∧ tree.idcnt.toNat + op.drawn tree < 2 ^ 32 ∧
        ∀ after, op.exec tree = some after → DrawingRun after rest

instance decidableDrawingRun : (tree : YnodeTree) → (ops : List YnodeOp) →
    Decidable (DrawingRun tree ops)
  | _, [] => isTrue trivial
  | tree, op :: rest =>
      have : Decidable (∀ after, op.exec tree = some after → DrawingRun after rest) :=
        match op.exec tree with
        | none => isTrue (by simp)
        | some after =>
            have := decidableDrawingRun after rest
            decidable_of_iff (DrawingRun after rest) (by simp)
      inferInstanceAs (Decidable (op.CopiesNone tree ∧ tree.idcnt.toNat + op.drawn tree < 2 ^ 32 ∧
        ∀ after, op.exec tree = some after → DrawingRun after rest))

/-- From a numbered array the ids stay unique. -/
theorem Numbered.idsThroughout {tree : YnodeTree} {ops : List YnodeOp} (numbered : Numbered tree)
    (run : DrawingRun tree ops) : IdsThroughout tree ops := by
  induction ops generalizing tree with
  | nil =>
      intro steps _ reached reaches
      rw [List.take_nil, execRun, Option.some.injEq] at reaches
      exact reaches ▸ numbered.uniqueIds
  | cons op rest inductionHypothesis =>
      obtain ⟨copiesNone, bound, runRest⟩ := run
      intro steps bounded reached reaches
      cases steps with
      | zero =>
          rw [List.take_zero, execRun, Option.some.injEq] at reaches
          exact reaches ▸ numbered.uniqueIds
      | succ steps =>
          rw [List.take_succ_cons, execRun, Option.bind_eq_some_iff] at reaches
          obtain ⟨after, ran, reaches⟩ := reaches
          obtain ⟨count, few, draws⟩ := exec_draws copiesNone ran
          exact inductionHypothesis (numbered.of_draws draws (by omega)) (runRest after ran) steps
            (by simpa using bounded) reached reaches

/-- From the tree built of the lnodes on, every run that copies no subtree keeps the ids of
all nodes unique. -/
theorem ynodeRun_idsThroughout {ltree : List AyLnode} {tree : YnodeTree} {ops : List YnodeOp}
    (created : ayYnodeCreateTree ltree = some tree) (few : tree.nodes.length < 2 ^ 32)
    (run : DrawingRun tree ops) : IdsThroughout tree ops :=
  (ayYnodeCreateTree_numbered created few).idsThroughout run

/-- Two subtrees with a key each. -/
def twoSubtrees : List AyLnode := [
  ⟨none, 4, .lConcat, ""⟩,
  ⟨some 0, 1, .lSubtree, ""⟩,
  ⟨some 1, 0, .lKey, ""⟩,
  ⟨some 0, 1, .lSubtree, ""⟩,
  ⟨some 3, 0, .lKey, ""⟩]

/-- Insertions, a move into the new wrapper, and deletions. -/
theorem ynodeRun_idsThroughout_twoSubtrees :
    ∃ tree, ayYnodeCreateTree twoSubtrees = some tree ∧
      IdsThroughout tree [.reserve 4, .insertWrapper 1, .moveSubtreeAsLastChild 1 3,
        .insertParentForRest 2, .deleteNode 3, .insertSibling 1] := by
  refine ⟨_, rfl, ?_⟩
  exact @ynodeRun_idsThroughout twoSubtrees _ _ rfl (by decide) (by decide)

/-- The copy of a subtree has the ids of the original. -/
theorem copied_ids_fail :
    ¬ ∀ (ltree : List AyLnode) (tree : YnodeTree) (forest : Data.Forest Core) (ops : List YnodeOp),
      ayYnodeCreateTree ltree = some tree → WellFormed tree forest →
        ValidRun guardedMeaning tree forest ops → IdsThroughout tree ops := by
  intro holds
  let core (type : YangType) (id : YnodeId) (snode label : Option Lnode) : Core :=
    { Core.blank id with type := type, snode := snode, label := label }
  have unique := holds twoSubtrees _
    (.cons (core .ynRoot 0 none none)
      (.cons (core .ynUnknown 1 (some 1) (some 2)) .nil
        (.cons (core .ynUnknown 2 (some 3) (some 4)) .nil .nil)) .nil)
    [.reserve 1, .copySubtreeAsLastChild 0 1] rfl
    (.of_encodes ⟨by decide, by decide⟩ ⟨_, _, rfl⟩) (by decide) 2 (by decide) _ rfl
  exact absurd unique.distinct (by decide)


end SysrepoAugeas.Ynode
