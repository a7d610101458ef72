import SysrepoAugeas.Ynode.Copy

/-!
# The edit primitives as operations of one machine

Every primitive with what it means for the ordinary tree, which arguments are
valid, and which labels come and go.
-/

namespace SysrepoAugeas.Ynode

open SysrepoAugeas.Data

/-- Call of an edit primitive; nodes are given by their index. -/
inductive YnodeOp where
  | insertWrapper (node : Nat)
  | insertParent (child : Nat)
  | insertParentForRest (child : Nat)
  | insertChild (parent : Nat)
  | insertSibling (node : Nat)
  | insertChildLast (parent : Nat)
  | deleteNode (node : Nat)
  | deleteSubtree (subtree : Nat)
  | deleteChildren (subtree : Nat) (keepKeyval : Bool)
  | moveSubtreeAsSibling (dst src : Nat)
  | moveSubtreeAsChild (dst src : Nat)
  | moveSubtreeAsLastChild (dst src : Nat)
  | copySubtreeAsLastChild (dst src : Nat)
  | copySubtreeAsSibling (dst src : Nat)
  /-- Space for more nodes, as `ay_ynode_trans_insert` makes it before it inserts. -/
  | reserve (itemsCount : Nat)
  deriving DecidableEq

namespace YnodeOp

/-- Allocation in `ay_ynode_trans_insert`. -/
def reserveItems (tree : YnodeTree) (itemsCount : Nat) : YnodeTree :=
  let freeSpace := tree.arrsize - tree.nodes.length
  if freeSpace < itemsCount then { tree with arrsize := tree.arrsize + (itemsCount - freeSpace) }
  else tree

def exec (tree : YnodeTree) : YnodeOp → Option YnodeTree
  | insertWrapper node => ayYnodeInsertWrapper tree node
  | insertParent child => ayYnodeInsertParent tree child
  | insertParentForRest child => ayYnodeInsertParentForRest tree child
  | insertChild parent => ayYnodeInsertChild tree parent
  | insertSibling node => ayYnodeInsertSibling tree node
  | insertChildLast parent => ayYnodeInsertChildLast tree parent
  | deleteNode node => (ayYnodeDeleteNode tree node).map Prod.fst
  | deleteSubtree subtree => ayYnodeDeleteSubtree tree subtree
  | deleteChildren subtree keepKeyval => ayYnodeDeleteChildren tree subtree keepKeyval
  | moveSubtreeAsSibling dst src => ayYnodeMoveSubtreeAsSibling tree dst src
  | moveSubtreeAsChild dst src => ayYnodeMoveSubtreeAsChild tree dst src
  | moveSubtreeAsLastChild dst src => ayYnodeMoveSubtreeAsLastChild tree dst src
  | copySubtreeAsLastChild dst src => ayYnodeCopySubtreeAsLastChild tree dst src
  | copySubtreeAsSibling dst src => ayYnodeCopySubtreeAsSibling tree dst src
  | reserve itemsCount => some (reserveItems tree itemsCount)

/-- The operation on the ordinary tree; `new` is the label of an inserted node, and a node
that `casts` is made a case instead of being deleted. -/
def rose (new : Core) (casts : Nat → Bool) (forest : Forest Core) : YnodeOp → Forest Core
  | insertWrapper node => forest.modifyAt (wrapNode new) node
  | insertParent child =>
      match parentAt forest child with
      | some parent => forest.modifyAt (wrapKids new) parent
      | none => forest
  | insertParentForRest child => forest.modifyAt (wrapRest new) child
  | insertChild parent => forest.modifyAt (addFirst (.cons new .nil .nil)) parent
  | insertSibling node => forest.modifyAt (addBehind (.cons new .nil .nil)) node
  | insertChildLast parent => forest.modifyAt (addLast (.cons new .nil .nil)) parent
  | deleteNode node => forest.modifyAt (if casts node then recast else dissolve) node
  | deleteSubtree subtree => forest.modifyAt Forest.cut subtree
  | deleteChildren subtree keepKeyval =>
      forest.modifyAt (keepKids (keptKids keepKeyval)) subtree
  | moveSubtreeAsSibling dst src => relocate addBehind dst src forest
  | moveSubtreeAsChild dst src => relocate addFirst dst src forest
  | moveSubtreeAsLastChild dst src => relocate addLast dst src forest
  | copySubtreeAsLastChild dst src => duplicate addLast dst src forest
  | copySubtreeAsSibling dst src => duplicate addBehind dst src forest
  | reserve _ => forest

/-- The ordinary operation that a call in some state stands for. -/
def onForest (tree : YnodeTree) (forest : Forest Core) (op : YnodeOp) : Forest Core :=
  op.rose (Core.blank tree.idcnt) (fun node => prepareDelete tree.nodes node == some none) forest

/-- Index of the last child. -/
def lastChildAt (forest : Forest Core) (node : Nat) : Option Nat :=
  match forest.treeAt node with
  | .cons _ kids _ => (rootIndices (node + 1) kids).getLast?
  | .nil => none

/-- A copy of the last child is not made below its own parent. -/
def guarded (tree : YnodeTree) (forest : Forest Core) (op : YnodeOp) : Forest Core :=
  match op with
  | copySubtreeAsLastChild dst src =>
      if lastChildAt forest dst = some src then forest else op.onForest tree forest
  | _ => op.onForest tree forest

/-- Labels that come in. -/
def gains (tree : YnodeTree) (forest : Forest Core) : YnodeOp → List Core
  | insertWrapper _ | insertParent _ | insertParentForRest _ | insertChild _ | insertSibling _
  | insertChildLast _ => [Core.blank tree.idcnt]
  | deleteNode node =>
      if prepareDelete tree.nodes node == some none then
        ((forest.treeAt node).modifyAt recast 0).labels.take 1
      else []
  | copySubtreeAsLastChild dst src =>
      if lastChildAt forest dst = some src then [] else (forest.treeAt src).labels
  | copySubtreeAsSibling _ src => (forest.treeAt src).labels
  | _ => []

/-- Labels that go: of the deleted node, of the deleted subtree, of the deleted children. -/
def loses (forest : Forest Core) : YnodeOp → List Core
  | deleteNode node => (forest.treeAt node).labels.take 1
  | deleteSubtree subtree => (forest.treeAt subtree).labels
  | deleteChildren subtree keepKeyval =>
      (forest.treeAt subtree).labels.drop
        ((forest.treeAt subtree).modifyAt (keepKids (keptKids keepKeyval)) 0).size
  | _ => []

/-- Room for one more node. -/
def HasRoom (tree : YnodeTree) : Prop := tree.nodes.length < tree.arrsize

/-- What the primitives presuppose of their arguments.  The root keeps its place: it is
neither moved nor deleted and has no siblings. -/
def Valid (tree : YnodeTree) (forest : Forest Core) : YnodeOp → Prop
  | insertWrapper node | insertParent node | insertParentForRest node | insertSibling node =>
      node ≠ 0 ∧ node < forest.size ∧ HasRoom tree
  | insertChild node | insertChildLast node => node < forest.size ∧ HasRoom tree
  | deleteNode node =>
      node ≠ 0 ∧ node < forest.size ∧ (prepareDelete tree.nodes node).isSome
  | deleteSubtree node => node ≠ 0 ∧ node < forest.size
  | deleteChildren node keepKeyval =>
      node < forest.size ∧ (tree.nodes[node]?.bind fun found =>
        deletedChildren tree.nodes node found keepKeyval).isSome
  | moveSubtreeAsSibling dst src =>
      dst ≠ 0 ∧ src ≠ 0 ∧ dst < forest.size ∧ src < forest.size ∧ Outside forest dst src ∧
        tree.nodes.length ≤ tree.arrsize
  | moveSubtreeAsChild dst src | moveSubtreeAsLastChild dst src =>
      src ≠ 0 ∧ dst < forest.size ∧ src < forest.size ∧ Outside forest dst src ∧
        tree.nodes.length ≤ tree.arrsize
  | copySubtreeAsLastChild dst src =>
      dst < forest.size ∧ src < forest.size ∧ Outside forest dst src ∧
        (forest.treeAt src).size + tree.nodes.length ≤ tree.arrsize
  | copySubtreeAsSibling dst src =>
      dst ≠ 0 ∧ dst < forest.size ∧ src < forest.size ∧ (dst = src ∨ Outside forest dst src) ∧
        (forest.treeAt src).size + tree.nodes.length ≤ tree.arrsize
  | reserve _ => True

instance (tree : YnodeTree) : Decidable (HasRoom tree) := inferInstanceAs (Decidable (_ < _))

instance (tree : YnodeTree) (forest : Forest Core) (op : YnodeOp) :
    Decidable (op.Valid tree forest) :=
  match op with
  | insertWrapper node | insertParent node | insertParentForRest node | insertSibling node =>
      inferInstanceAs (Decidable (node ≠ 0 ∧ node < forest.size ∧ HasRoom tree))
  | insertChild node | insertChildLast node =>
      inferInstanceAs (Decidable (node < forest.size ∧ HasRoom tree))
  | deleteNode _ => inferInstanceAs (Decidable (_ ∧ _ ∧ (_ : Bool) = true))
  | deleteSubtree _ => inferInstanceAs (Decidable (_ ∧ _))
  | deleteChildren _ _ => inferInstanceAs (Decidable (_ ∧ (_ : Bool) = true))
  | moveSubtreeAsSibling dst src =>
      inferInstanceAs (Decidable (dst ≠ 0 ∧ src ≠ 0 ∧ dst < forest.size ∧ src < forest.size ∧
        Outside forest dst src ∧ tree.nodes.length ≤ tree.arrsize))
  | moveSubtreeAsChild dst src | moveSubtreeAsLastChild dst src =>
      inferInstanceAs (Decidable (src ≠ 0 ∧ dst < forest.size ∧ src < forest.size ∧
        Outside forest dst src ∧ tree.nodes.length ≤ tree.arrsize))
  | copySubtreeAsLastChild dst src =>
      inferInstanceAs (Decidable (dst < forest.size ∧ src < forest.size ∧
        Outside forest dst src ∧ (forest.treeAt src).size + tree.nodes.length ≤ tree.arrsize))
  | copySubtreeAsSibling dst src =>
      inferInstanceAs (Decidable (dst ≠ 0 ∧ dst < forest.size ∧ src < forest.size ∧
        (dst = src ∨ Outside forest dst src) ∧
          (forest.treeAt src).size + tree.nodes.length ≤ tree.arrsize))
  | reserve _ => isTrue trivial

theorem exists_parentAt {forest : Forest Core} {node : Nat} (isTree : IsTree forest)
    (notRoot : node ≠ 0) (bound : node < forest.size) :
    ∃ parent, parentAt forest node = some parent ∧ parent < forest.size := by
  obtain ⟨hole, label, kids, rest, rfl, rfl⟩ := Forest.Hole.exists_of_lt_size bound
  obtain ⟨parent, isParent⟩ := Option.ne_none_iff_exists'.mp
    (parent_ne_none isTree (by simp [Forest.size]) notRoot)
  have := Forest.Hole.lt_index_of_mem_ancestors (mem_ancestors_of_parent isParent)
  refine ⟨parent, ?_, by omega⟩
  rw [parentAt, Forest.Hole.getElem_links_fill, Option.bind_some, isParent]

/-- The last child as the array has it. -/
theorem ayYnodeGetLast_lastChildAt {nodes : List AyYnode} {forest : Forest Core} {node : Nat}
    (encodes : Encodes nodes forest) (bound : node < forest.size) :
    ∃ found, nodes[node]? = some found ∧
      ayYnodeGetLast found.child nodes = lastChildAt forest node := by
  obtain ⟨hole, label, kids, rest, rfl, rfl⟩ := Forest.Hole.exists_of_lt_size bound
  obtain ⟨found, foundAt, -, -, -, -, childEq⟩ := encodes.node_in
  refine ⟨found, foundAt, ?_⟩
  rw [lastChildAt, Forest.Hole.treeAt_fill, ayYnodeGetLast_eq encodes childEq]

/-- A valid call goes through and does to the tree what it stands for. -/
theorem exec_edited {tree : YnodeTree} {forest : Forest Core} {op : YnodeOp}
    (encodes : Encodes tree.nodes forest) (isTree : IsTree forest) (valid : op.Valid tree forest) :
    ∃ after, op.exec tree = some after ∧ Encodes after.nodes (op.guarded tree forest) ∧
      IsTree (op.guarded tree forest) := by
  have ofEdited : ∀ {result : Option YnodeTree} {edited : Forest Core} {fresh : Nat},
      (∃ after, result = some after ∧ Edited tree edited fresh after) →
        ∃ after, result = some after ∧ Encodes after.nodes edited ∧ IsTree edited := by
    rintro result edited fresh ⟨after, ran, done⟩
    exact ⟨after, ran, done.encodes, done.isTree⟩
  have ofMoves : ∀ {result : Option YnodeTree} {edited : Forest Core} {size : Nat},
      Moves tree result edited size →
        ∃ after, result = some after ∧ Encodes after.nodes edited ∧ IsTree edited := by
    rintro result edited size ⟨after, fresh, -, ran, done⟩
    exact ⟨after, ran, done.encodes, done.isTree⟩
  cases op with
  | insertWrapper node =>
      obtain ⟨notRoot, bound, room⟩ := valid
      exact ofEdited (ayYnodeInsertWrapper_edited encodes isTree notRoot bound room)
  | insertParent node =>
      obtain ⟨notRoot, bound, room⟩ := valid
      obtain ⟨parent, isParent, -⟩ := exists_parentAt isTree notRoot bound
      simp only [guarded, onForest, rose, isParent]
      exact ofEdited (ayYnodeInsertParent_edited encodes isTree isParent room)
  | insertParentForRest node =>
      obtain ⟨notRoot, bound, room⟩ := valid
      exact ofEdited (ayYnodeInsertParentForRest_edited encodes isTree notRoot bound room)
  | insertChild node =>
      obtain ⟨bound, room⟩ := valid
      exact ofEdited (ayYnodeInsertChild_edited encodes isTree bound room)
  | insertSibling node =>
      obtain ⟨notRoot, bound, room⟩ := valid
      exact ofEdited (ayYnodeInsertSibling_edited encodes isTree notRoot bound room)
  | insertChildLast node =>
      obtain ⟨bound, room⟩ := valid
      exact ofEdited (ayYnodeInsertChildLast_edited encodes isTree bound room)
  | deleteNode node =>
      obtain ⟨notRoot, bound, asserted⟩ := valid
      obtain ⟨prepared, isPrepared⟩ := Option.isSome_iff_exists.mp asserted
      cases prepared with
      | none =>
          obtain ⟨after, ran, edited⟩ :=
            ayYnodeDeleteNode_recast encodes isTree notRoot bound isPrepared
          simp only [guarded, onForest, rose, isPrepared, beq_self_eq_true, if_true, exec, ran]
          exact ⟨after, rfl, edited.encodes, edited.isTree⟩
      | some nodes =>
          obtain ⟨after, ran, edited⟩ :=
            ayYnodeDeleteNode_edited encodes isTree notRoot bound isPrepared
          have deletes : (some (some nodes) == some none) = false := rfl
          simp only [guarded, onForest, rose, isPrepared, deletes, exec, ran]
          exact ⟨after, rfl, edited.encodes, edited.isTree⟩
  | deleteSubtree node =>
      obtain ⟨notRoot, bound⟩ := valid
      exact ofEdited (ayYnodeDeleteSubtree_edited encodes isTree notRoot bound)
  | deleteChildren node keepKeyval =>
      obtain ⟨bound, asserted⟩ := valid
      exact ofEdited (ayYnodeDeleteChildren_edited encodes isTree bound asserted)
  | moveSubtreeAsSibling dst src =>
      obtain ⟨dstNotRoot, srcNotRoot, dstBound, srcBound, outside, room⟩ := valid
      exact ofMoves (ayYnodeMoveSubtreeAsSibling_moves encodes isTree room srcNotRoot srcBound
        dstNotRoot dstBound outside)
  | moveSubtreeAsChild dst src =>
      obtain ⟨srcNotRoot, dstBound, srcBound, outside, room⟩ := valid
      exact ofMoves (ayYnodeMoveSubtreeAsChild_moves encodes isTree room srcNotRoot srcBound
        dstBound outside)
  | moveSubtreeAsLastChild dst src =>
      obtain ⟨srcNotRoot, dstBound, srcBound, outside, room⟩ := valid
      exact ofMoves (ayYnodeMoveSubtreeAsLastChild_moves encodes isTree room srcNotRoot srcBound
        dstBound outside)
  | copySubtreeAsLastChild dst src =>
      obtain ⟨dstBound, srcBound, outside, room⟩ := valid
      have lastEq := ayYnodeGetLast_lastChildAt encodes dstBound
      by_cases isLast : lastChildAt forest dst = some src
      · refine ⟨tree, ?_, ?_⟩
        · obtain ⟨source, label, kids, rest, rfl, rfl⟩ := Forest.Hole.exists_of_lt_size srcBound
          obtain ⟨srcNode, srcAt, -, srcCount, -⟩ := encodes.node_in
          rw [Forest.Hole.treeAt_fill, Forest.size, Forest.size, Nat.add_zero] at room
          obtain ⟨dstNode, dstAt, isLastNode⟩ := lastEq
          simp only [exec, ayYnodeCopySubtreeAsLastChild, dstAt, srcAt, Option.bind_eq_bind,
            Option.bind_some, srcCount, if_pos room, isLastNode, isLast, if_true]
        · simp only [guarded, isLast, if_true]
          exact ⟨encodes, isTree⟩
      · simp only [guarded, if_neg isLast]
        refine ofEdited (ayYnodeCopySubtreeAsLastChild_copies encodes isTree srcBound room dstBound
          outside fun dstNode dstAt => ?_).edited
        obtain ⟨found, foundAt, isLastNode⟩ := lastEq
        obtain rfl : found = dstNode := Option.some.inj (foundAt.symm.trans dstAt)
        rwa [isLastNode]
  | copySubtreeAsSibling dst src =>
      obtain ⟨dstNotRoot, dstBound, srcBound, outside, room⟩ := valid
      exact ofEdited (ayYnodeCopySubtreeAsSibling_copies encodes isTree srcBound room dstNotRoot
        dstBound outside).edited
  | reserve itemsCount =>
      refine ⟨_, rfl, ?_, isTree⟩
      simp only [reserveItems]
      split
      · exact encodes
      · exact encodes

section Accounts

variable {tree : YnodeTree} {forest : Forest Core}

/-- A change at a node adds the labels of what it puts in place of the node and its siblings
behind it. -/
theorem count_modifyAt {hole : Forest.Hole Core} {label : Core} {kids rest : Forest Core}
    (change : Core → Forest Core → Forest Core → Forest Core) (core : Core) :
    ((hole.fill (.cons label kids rest)).modifyAt change hole.index).labels.count core +
        (Forest.cons label kids rest).labels.count core =
      (hole.fill (.cons label kids rest)).labels.count core +
        (change label kids rest).labels.count core := by
  obtain ⟨around, counted⟩ := hole.count_labels_fill
  rw [Forest.Hole.modifyAt_fill, counted, counted]
  omega

/-- Putting trees in at a node keeps all labels there. -/
def Adds (put : Forest Core → Core → Forest Core → Forest Core → Forest Core) : Prop :=
  ∀ trees label kids rest core, (put trees label kids rest).labels.count core =
    trees.labels.count core + (Forest.cons label kids rest).labels.count core

theorem adds_addBehind : Adds addBehind := by
  intro trees label kids rest core
  simp only [addBehind, Forest.labels_cons, Forest.labels_append, List.count_cons,
    List.count_append]
  omega

theorem adds_addFirst : Adds addFirst := by
  intro trees label kids rest core
  simp only [addFirst, Forest.labels_cons, Forest.labels_append, List.count_cons,
    List.count_append]
  omega

theorem adds_addLast : Adds addLast := by
  intro trees label kids rest core
  simp only [addLast, Forest.labels_cons, Forest.labels_append, List.count_cons,
    List.count_append]
  omega

theorem perm_duplicate {dst src : Nat}
    {put : Forest Core → Core → Forest Core → Forest Core → Forest Core} (adds : Adds put)
    (dstBound : dst < forest.size) :
    (duplicate put dst src forest).labels.Perm ((forest.treeAt src).labels ++ forest.labels) := by
  obtain ⟨hole, label, kids, rest, same, rfl⟩ := Forest.Hole.exists_of_lt_size dstBound
  refine List.perm_iff_count.mpr fun core => ?_
  have changed := @count_modifyAt hole label kids rest (put (forest.treeAt src)) core
  rw [← same, adds] at changed
  rw [duplicate, List.count_append]
  omega

/-- Moving a tree keeps all labels. -/
theorem perm_relocate {dst src : Nat}
    {put : Forest Core → Core → Forest Core → Forest Core → Forest Core} (adds : Adds put)
    (srcBound : src < forest.size) (dstBound : dst < forest.size)
    (outside : Outside forest dst src) :
    (relocate put dst src forest).labels.Perm forest.labels := by
  obtain ⟨node, nodeLabel, nodeKids, nodeRest, same, rfl⟩ := Forest.Hole.exists_of_lt_size dstBound
  obtain ⟨source, label, kids, rest, rfl, rfl⟩ := Forest.Hole.exists_of_lt_size srcBound
  obtain ⟨left, leftKids, leftRest, refilled, indexEq, -, -⟩ :=
    Forest.Hole.exists_of_cut same outside.of_fill
  refine List.perm_iff_count.mpr fun core => ?_
  obtain ⟨around, counted⟩ := source.count_labels_fill
  obtain ⟨leftAround, leftCounted⟩ := left.count_labels_fill
  have smaller := counted rest core
  rw [refilled, leftCounted] at smaller
  rw [relocate_fill refilled indexEq, leftCounted, adds, counted]
  simp only [Forest.labels_cons, Forest.labels_nil, List.count_cons, List.count_append,
    List.count_nil] at smaller ⊢
  omega

/-- A change that puts a new node in gains its label. -/
theorem perm_insert {node : Nat} {new : Core}
    {change : Core → Forest Core → Forest Core → Forest Core} (bound : node < forest.size)
    (puts : ∀ label kids rest core, (change label kids rest).labels.count core =
      [new].count core + (Forest.cons label kids rest).labels.count core) :
    (forest.modifyAt change node).labels.Perm ([new] ++ forest.labels) := by
  obtain ⟨hole, label, kids, rest, rfl, rfl⟩ := Forest.Hole.exists_of_lt_size bound
  refine List.perm_iff_count.mpr fun core => ?_
  have changed := @count_modifyAt hole label kids rest
    change core
  rw [puts] at changed
  rw [List.count_append]
  omega

theorem exists_gone (keepKeyval : Bool) (kids : Forest Core) :
    ∃ gone, kids = (keptKids keepKeyval kids).append gone := by
  cases keepKeyval with
  | false => exact ⟨kids, rfl⟩
  | true => exact ⟨(splitKeyval kids).2, (append_splitKeyval kids).symm⟩

theorem perm_add {node : Nat} {new : Core}
    {put : Forest Core → Core → Forest Core → Forest Core → Forest Core} (adds : Adds put)
    (bound : node < forest.size) :
    (forest.modifyAt (put (.cons new .nil .nil)) node).labels.Perm ([new] ++ forest.labels) :=
  perm_insert bound fun label kids rest core => by rw [adds]; simp

/-- Apart from the labels that come and go, all labels stay: no other node is touched. -/
theorem guarded_accounts {op : YnodeOp} (isTree : IsTree forest) (valid : op.Valid tree forest) :
    ((op.guarded tree forest).labels ++ op.loses forest).Perm
      (op.gains tree forest ++ forest.labels) := by
  cases op with
  | insertWrapper node =>
      simp only [guarded, onForest, rose, gains, loses, List.append_nil]
      refine perm_insert valid.2.1 fun label kids rest core => ?_
      simp only [wrapNode, Forest.labels_cons, Forest.labels_nil, List.count_cons,
        List.count_append, List.count_nil]
      omega
  | insertParent node =>
      obtain ⟨parent, isParent, parentBound⟩ := exists_parentAt isTree valid.1 valid.2.1
      simp only [guarded, onForest, rose, gains, loses, List.append_nil, isParent]
      refine perm_insert parentBound fun label kids rest core => ?_
      simp only [wrapKids, Forest.labels_cons, Forest.labels_nil, List.count_cons,
        List.count_append, List.count_nil]
      omega
  | insertParentForRest node =>
      simp only [guarded, onForest, rose, gains, loses, List.append_nil]
      refine perm_insert valid.2.1 fun label kids rest core => ?_
      simp only [wrapRest, Forest.labels_cons, Forest.labels_nil, List.count_cons,
        List.count_append, List.count_nil]
      omega
  | insertChild node =>
      simpa only [guarded, onForest, rose, gains, loses, List.append_nil] using
        perm_add adds_addFirst valid.1
  | insertSibling node =>
      simpa only [guarded, onForest, rose, gains, loses, List.append_nil] using
        perm_add adds_addBehind valid.2.1
  | insertChildLast node =>
      simpa only [guarded, onForest, rose, gains, loses, List.append_nil] using
        perm_add adds_addLast valid.1
  | deleteNode node =>
      obtain ⟨hole, label, kids, rest, rfl, rfl⟩ := Forest.Hole.exists_of_lt_size valid.2.1
      simp only [guarded, onForest, rose, gains, loses, Forest.Hole.treeAt_fill]
      refine List.perm_iff_count.mpr fun core => ?_
      split
      · have changed := @count_modifyAt hole label kids rest recast core
        simp only [recast, Forest.modifyAt, Forest.labels_cons, List.count_cons,
          List.count_append, List.take_succ_cons, List.take_zero, List.count_nil] at changed ⊢
        omega
      · have changed := @count_modifyAt hole label kids rest dissolve core
        simp only [dissolve, Forest.labels_cons, Forest.labels_append, List.count_cons,
          List.count_append, List.take_succ_cons, List.take_zero, List.count_nil] at changed ⊢
        omega
  | deleteSubtree node =>
      obtain ⟨hole, label, kids, rest, rfl, rfl⟩ := Forest.Hole.exists_of_lt_size valid.2
      simp only [guarded, onForest, rose, gains, loses, Forest.Hole.treeAt_fill]
      refine List.perm_iff_count.mpr fun core => ?_
      have changed := @count_modifyAt hole label kids rest Forest.cut core
      simp only [Forest.cut, Forest.labels_cons, Forest.labels_nil, List.count_cons,
        List.count_append, List.nil_append, List.append_nil] at changed ⊢
      omega
  | deleteChildren node keepKeyval =>
      obtain ⟨hole, label, kids, rest, rfl, rfl⟩ := Forest.Hole.exists_of_lt_size valid.1
      obtain ⟨gone, split⟩ := exists_gone keepKeyval kids
      simp only [guarded, onForest, rose, gains, loses, Forest.Hole.treeAt_fill]
      refine List.perm_iff_count.mpr fun core => ?_
      have changed := @count_modifyAt hole label kids rest (keepKids (keptKids keepKeyval)) core
      have allKids := congrArg (fun kids : Forest Core => kids.labels.count core) split
      have left : (Forest.cons label kids .nil).labels.drop
          ((Forest.cons label kids .nil).modifyAt (keepKids (keptKids keepKeyval)) 0).size =
            gone.labels := by
        have sizes : ((Forest.cons label kids .nil).modifyAt (keepKids (keptKids keepKeyval))
            0).size = (keptKids keepKeyval kids).labels.length + 1 := by
          simp [Forest.modifyAt, keepKids, Forest.size]
        have kidLabels := congrArg Forest.labels split
        rw [Forest.labels_append] at kidLabels
        rw [sizes, Forest.labels_cons, Forest.labels_nil, List.append_nil, List.drop_succ_cons,
          kidLabels, List.drop_left' rfl]
      rw [left]
      simp only [keepKids, Forest.labels_cons, Forest.labels_append, List.count_cons,
        List.count_append, List.nil_append] at changed allKids ⊢
      omega
  | moveSubtreeAsSibling dst src =>
      obtain ⟨-, -, dstBound, srcBound, outside, -⟩ := valid
      simpa only [guarded, onForest, rose, gains, loses, List.append_nil, List.nil_append] using
        perm_relocate adds_addBehind srcBound dstBound outside
  | moveSubtreeAsChild dst src =>
      obtain ⟨-, dstBound, srcBound, outside, -⟩ := valid
      simpa only [guarded, onForest, rose, gains, loses, List.append_nil, List.nil_append] using
        perm_relocate adds_addFirst srcBound dstBound outside
  | moveSubtreeAsLastChild dst src =>
      obtain ⟨-, dstBound, srcBound, outside, -⟩ := valid
      simpa only [guarded, onForest, rose, gains, loses, List.append_nil, List.nil_append] using
        perm_relocate adds_addLast srcBound dstBound outside
  | copySubtreeAsLastChild dst src =>
      simp only [guarded, onForest, rose, gains, loses, List.append_nil]
      split
      · exact List.Perm.refl _
      · exact perm_duplicate adds_addLast valid.1
  | copySubtreeAsSibling dst src =>
      simpa only [guarded, onForest, rose, gains, loses, List.append_nil] using
        perm_duplicate adds_addBehind valid.2.1
  | reserve itemsCount =>
      simpa only [guarded, onForest, rose, gains, loses, List.append_nil, List.nil_append] using
        List.Perm.refl _

end Accounts

end YnodeOp

end SysrepoAugeas.Ynode
