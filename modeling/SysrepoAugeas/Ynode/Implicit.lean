import SysrepoAugeas.Ynode.Create
import SysrepoAugeas.Ynode.Delete
import SysrepoAugeas.Ynode.Move

/-!
# Implicit lists

Siblings below two stars get a list for the outer star.  The siblings are
counted with the first of them, the list is put in its place, and as many
siblings as were counted are moved from behind the list into it.
-/

namespace SysrepoAugeas.Ynode

open SysrepoAugeas.Data

section Code

variable (ltree : List AyLnode)

/-- Loop of `ay_lnode_has_attribute`. -/
def attributeFrom (tag : LensTag) : Nat → Option Lnode → Option Lnode
  | fuel + 1, some iter =>
      match ltree[iter]? with
      | some lnode =>
          if lnode.tag = .lSubtree then none
          else if lnode.tag = tag then some iter
          else attributeFrom tag fuel lnode.parent
      | none => none
  | _, _ => none

/-- `ay_lnode_has_attribute` -/
def ayLnodeHasAttribute (node : Option Lnode) (tag : LensTag) : Option Lnode :=
  (node.bind fun node => ltree[node]?).bind fun lnode =>
    attributeFrom ltree tag ltree.length lnode.parent

/-- Whether the loop over the stars comes to `star2`. -/
def reachesStar (star2 : Lnode) : Nat → Option Lnode → Bool
  | fuel + 1, some star =>
      star == star2 || reachesStar star2 fuel (ayLnodeHasAttribute ltree (some star) .lStar)
  | _, _ => false

/-- The node lies under the star. -/
def liesUnder (star2 : Lnode) (snode : Option Lnode) : Bool :=
  reachesStar ltree star2 ltree.length (ayLnodeHasAttribute ltree snode .lStar)

/-- `AY_YNODE_IS_IMPLICIT_LIST` -/
def ayYnodeIsImplicitList (node : AyYnode) : Bool :=
  node.type = .ynList && node.label.isSome && node.label == node.snode &&
    (node.label.bind fun label => ltree[label]?).any fun lnode => lnode.tag = .lStar

/-- The part of the loop that looks for the star, the first sibling and their number. -/
def searchImplicitList (nodes : List AyYnode) (i : Nat) : Option (Option (Lnode × Nat × Nat)) :=
  nodes[i]?.bind fun ynode =>
    (ynode.parent.bind fun parent => nodes[parent]?).map fun parent =>
      if ayYnodeIsImplicitList ltree parent then none
      else
        (ayLnodeHasAttribute ltree ynode.snode .lStar).bind fun star =>
          (ayLnodeHasAttribute ltree (some star) .lStar).bind fun star2 =>
            let counted := (siblingsFrom parent.child nodes).takeWhile fun iter =>
              nodes[iter]?.any fun node => liesUnder ltree star2 node.snode
            counted.head?.map fun first => (star2, first, counted.length)

/-- `for (j = 0; j < nodes_cnt; j++)`; a null pointer behind the last sibling moves nothing. -/
def moveFollowing (list : Nat) : Nat → YnodeTree → Option YnodeTree
  | 0, tree => some tree
  | nodesCnt + 1, tree =>
      tree.nodes[list]?.bind fun node =>
        (node.next.elim (some tree) (ayYnodeMoveSubtreeAsLastChild tree list)).bind
          (moveFollowing list nodesCnt)

/-- The part of the loop that inserts the list. -/
def collectSiblings (tree : YnodeTree) (star2 : Lnode) (first nodesCnt : Nat) :
    Option YnodeTree :=
  (ayYnodeInsertWrapper tree first).bind fun tree =>
    let nodes := tree.nodes.modify first fun list =>
      { list with type := .ynList, label := some star2, snode := some star2 }
    (moveFollowing first nodesCnt { tree with nodes := nodes }).bind fun tree =>
      (tree.nodes[first]?.bind fun list => list.child.bind fun child => tree.nodes[child]?).map
        fun child =>
          { tree with
            nodes := tree.nodes.modify first fun list => { list with choice := child.choice } }

/-- An inserted list, with the trees before and after. -/
structure Inserted where
  before : YnodeTree
  star : Lnode
  first : Nat
  after : YnodeTree

/-- Loop of `ay_ynode_insert_implicit_list`, with a log of what is inserted. -/
def insertImplicitListFrom : Nat → Nat → YnodeTree → Option (YnodeTree × List Inserted)
  | 0, _, _ => none
  | fuel + 1, i, tree =>
      if i < tree.nodes.length then
        (searchImplicitList ltree tree.nodes i).bind fun found =>
          found.elim (insertImplicitListFrom fuel (i + 1) tree) fun (star2, first, nodesCnt) =>
            (collectSiblings tree star2 first nodesCnt).bind fun after =>
              (insertImplicitListFrom fuel (i + 2) after).map
                (Prod.map id (⟨tree, star2, first, after⟩ :: ·))
      else some (tree, [])

/-- `ay_ynode_insert_implicit_list`; every round comes closer to the end of the array. -/
def ayYnodeInsertImplicitList (tree : YnodeTree) : Option (YnodeTree × List Inserted) :=
  insertImplicitListFrom ltree (tree.nodes.length + 1) 1 tree

end Code

/-! ### What is meant and what is done -/

/-- A list in place of the siblings from a node on that have a property, with these in it. -/
def collect (isMember : Core → Bool) (list : Core) (label : Core) (kids rest : Forest Core) :
    Forest Core :=
  .cons list ((Forest.cons label kids rest).takeRoots isMember)
    ((Forest.cons label kids rest).dropRoots isMember)

/-- The sibling behind them comes along. -/
def collectMore (isMember : Core → Bool) (list : Core) (label : Core) (kids rest : Forest Core) :
    Forest Core :=
  let siblings := Forest.cons label kids rest
  .cons list
    ((siblings.takeRoots isMember).append ((siblings.dropRoots isMember).takeTrees 1))
    ((siblings.dropRoots isMember).dropTrees 1)

/-- A node that lies under the star. -/
def isUnder (ltree : List AyLnode) (star : Lnode) (core : Core) : Bool :=
  liesUnder ltree star core.snode

/-- The core of the list for a star. -/
structure IsListOf (star : Lnode) (list : Core) : Prop where
  type : list.type = .ynList
  snode : list.snode = some star
  label : list.label = some star

/-- The list has exactly the siblings under the star as children and nothing else changes. -/
def Collects (ltree : List AyLnode) (inserted : Inserted) : Prop :=
  ∀ forest, Encodes inserted.before.nodes forest →
    ∃ list, IsListOf inserted.star list ∧
      Encodes inserted.after.nodes
        (forest.modifyAt (collect (isUnder ltree inserted.star) list) inserted.first)

/-- All the siblings lie under the star. -/
def AllUnder (ltree : List AyLnode) (inserted : Inserted) : Prop :=
  ∀ iter ∈ siblingsFrom (some inserted.first) inserted.before.nodes,
    ∀ node, inserted.before.nodes[iter]? = some node →
      liesUnder ltree inserted.star node.snode = true

section Relabel

variable {nodes : List AyYnode} {hole : Forest.Hole Core} {label : Core} {kids rest : Forest Core}

/-- A node is given another core. -/
theorem Encodes.relabel (encodes : Encodes nodes (hole.fill (.cons label kids rest)))
    {change : AyYnode → AyYnode} (counts : ∀ node, (change node).descendants = node.descendants)
    (linked : ∀ node, (change node).links = node.links) {found : AyYnode}
    (foundAt : nodes[hole.index]? = some found) :
    Encodes (nodes.modify hole.index change)
      (hole.fill (.cons (change found).core kids rest)) := by
  constructor
  · have split := encodes.cells
    rw [Forest.Hole.flat_fill] at split
    obtain ⟨frontNodes, restNodes, rfl, frontCells, restCells⟩ := List.map_eq_append_iff.mp split
    obtain ⟨itself, backNodes, rfl, itsCell, backCells⟩ := List.map_eq_cons_iff.mp restCells
    have length : hole.index = frontNodes.length := by
      rw [← Forest.Hole.length_front hole (Forest.cons label kids rest).size, ← frontCells,
        List.length_map]
    have same : found = itself := by
      rw [length, List.getElem?_append_right (Nat.le_refl _), Nat.sub_self] at foundAt
      exact (Option.some.inj foundAt).symm
    have countEq : itself.descendants = kids.size := congrArg Prod.snd itsCell
    have newCell : (change itself).cell = ((change itself).core, kids.size) := by
      rw [AyYnode.cell, counts, countEq]
    have sizes : (Forest.cons (change itself).core kids rest).size =
        (Forest.cons label kids rest).size := rfl
    rw [length, modify_split, Forest.Hole.flat_fill, same, sizes, ← frontCells]
    have backSame : Ynode.cells backNodes = (kids.flat ++ rest.flat) ++ hole.back := backCells
    rw [cells_append, cells_cons, newCell, backSame]
    rfl
  · have links : (nodes.modify hole.index change).map AyYnode.links = nodes.map AyYnode.links :=
      map_modify_same linked
    rw [links, encodes.links]
    exact @Forest.Hole.links_fill_congr _ hole (.cons label kids rest)
      (.cons (change found).core kids rest) rfl (fun _ _ => rfl) 0 none

end Relabel

/-- The next sibling becomes the last child. -/
theorem relocate_last (node : Forest.Hole Core) (label nextLabel : Core)
    (kids nextKids rest : Forest Core) :
    relocate addLast node.index (node.index + kids.size + 1)
        (node.fill (.cons label kids (.cons nextLabel nextKids rest))) =
      node.fill (.cons label (kids.append (.cons nextLabel nextKids .nil)) rest) :=
  @relocate_fill _ (.behind label kids node) node _ _ _ _ _ _ _ rfl
    (by rw [Forest.unshift, Forest.Hole.index, if_pos (by omega)])

/-- The result of some edits of a tree that has taken `more` nodes. -/
structure Reaches (tree after : YnodeTree) (forest : Forest Core) (more : Nat) : Prop where
  encodes : Encodes after.nodes forest
  isTree : IsTree forest
  length : after.nodes.length = tree.nodes.length + more
  arrsize : after.arrsize = tree.arrsize

section Collect

variable {tree : YnodeTree} {hole : Forest.Hole Core} {label list : Core} {kids rest : Forest Core}

theorem moveFollowing_reaches (encodes : Encodes tree.nodes (hole.fill (.cons list kids rest)))
    (isTree : IsTree (hole.fill (.cons list kids rest)))
    (room : tree.nodes.length ≤ tree.arrsize) (nodesCnt : Nat) :
    ∃ after, moveFollowing hole.index nodesCnt tree = some after ∧
      Reaches tree after (hole.fill (.cons list (kids.append (rest.takeTrees nodesCnt))
        (rest.dropTrees nodesCnt))) 0 := by
  induction nodesCnt generalizing tree kids rest with
  | zero =>
      refine ⟨tree, rfl, ?_⟩
      rw [Forest.takeTrees_zero, Forest.dropTrees_zero, Forest.append_nil]
      exact ⟨encodes, isTree, rfl, rfl⟩
  | succ nodesCnt inductionHypothesis =>
      obtain ⟨node, nodeAt, -, -, -, nextEq, -⟩ := encodes.node_in
      cases rest with
      | nil =>
          obtain ⟨after, ran, reaches⟩ := inductionHypothesis encodes isTree room
          refine ⟨after, ?_, ?_⟩
          · rw [moveFollowing, nodeAt, Option.bind_some, nextEq]
            exact ran
          · cases nodesCnt with
            | zero => exact reaches
            | succ nodesCnt => exact reaches
      | cons nextLabel nextKids rest =>
          have within : hole.index + kids.size + 1 <
              (hole.fill (.cons list kids (.cons nextLabel nextKids rest))).size := by
            rw [Forest.Hole.size_fill]
            simp only [Forest.size]
            omega
          have moves := @ayYnodeMoveSubtreeAsLastChild_moves tree _ hole.index
            (hole.index + kids.size + 1) encodes isTree room (Nat.succ_ne_zero _) within
            (by omega) (Or.inl (by omega))
          rw [relocate_last] at moves
          obtain ⟨moved, fresh, -, ran, edited⟩ := moves
          have sizes : moved.nodes.length = tree.nodes.length := by
            rw [length_of_cells edited.encodes.cells, length_of_cells encodes.cells,
              Forest.Hole.size_fill, Forest.Hole.size_fill]
            simp only [Forest.size, Forest.size_append]
            omega
          obtain ⟨after, rest, reaches⟩ := inductionHypothesis edited.encodes edited.isTree
            (by rw [sizes, edited.arrsize]; exact room)
          refine ⟨after, ?_, ?_⟩
          · rw [moveFollowing, nodeAt, Option.bind_some, nextEq, if_neg (by simp [Forest.size]),
              Option.elim_some, ran, Option.bind_some]
            exact rest
          · rw [Forest.append_assoc] at reaches
            exact ⟨reaches.encodes, reaches.isTree, reaches.length.trans (by rw [sizes]),
              reaches.arrsize.trans edited.arrsize⟩

theorem collectSiblings_reaches (encodes : Encodes tree.nodes (hole.fill (.cons label kids rest)))
    (isTree : IsTree (hole.fill (.cons label kids rest))) (inside : hole.parent ≠ none)
    (room : tree.nodes.length < tree.arrsize) (star : Lnode) (nodesCnt : Nat) :
    ∃ after list, collectSiblings tree star hole.index nodesCnt = some after ∧
      IsListOf star list ∧
      Reaches tree after (hole.fill (.cons list
        ((Forest.cons label kids .nil).append (rest.takeTrees nodesCnt))
        (rest.dropTrees nodesCnt))) 1 := by
  have bound : hole.index < (hole.fill (.cons label kids rest)).size := by
    rw [Forest.Hole.size_fill]
    simp only [Forest.size]
    omega
  have notRoot : hole.index ≠ 0 := Nat.ne_of_gt (index_pos_of_parent inside)
  obtain ⟨wrapped, wrapRan, edited⟩ :=
    ayYnodeInsertWrapper_edited encodes isTree notRoot bound room
  have wrapEncodes := edited.encodes
  rw [Forest.Hole.modifyAt_fill, wrapNode] at wrapEncodes
  obtain ⟨found, foundAt, -⟩ := wrapEncodes.node_in
  have listEncodes := wrapEncodes.relabel
    (fun node => (rfl : ({ node with
      type := .ynList, label := some star, snode := some star } : AyYnode).descendants = _))
    (fun node => rfl) foundAt
  have oneMore : wrapped.nodes.length = tree.nodes.length + 1 := by
    rw [length_of_cells wrapEncodes.cells, length_of_cells encodes.cells, Forest.Hole.size_fill,
      Forest.Hole.size_fill]
    simp only [Forest.size]
    omega
  obtain ⟨moved, moveRan, reaches⟩ := @moveFollowing_reaches
    { wrapped with nodes := wrapped.nodes.modify hole.index fun node =>
      { node with type := .ynList, label := some star, snode := some star } } hole _ _ _ listEncodes
      (isTree_fill isTree inside _)
      (by rw [List.length_modify, oneMore, edited.arrsize]; exact room) nodesCnt
  obtain ⟨listNode, listAt, -, -, -, -, childEq⟩ := reaches.encodes.node_in
  have under : Encodes moved.nodes ((Forest.Hole.under _ _ hole).fill _) := reaches.encodes
  obtain ⟨child, childAt, -⟩ := under.node_in
  refine ⟨{ moved with nodes := moved.nodes.modify hole.index fun list =>
      { list with choice := child.choice } },
    ⟨.ynList, some star, some star, found.value, found.id⟩, ?_, ⟨rfl, rfl, rfl⟩, ?_⟩
  · rw [collectSiblings, wrapRan, Option.bind_some]
    dsimp only
    rw [moveRan, Option.bind_some, listAt, Option.bind_some, childEq,
      if_neg (by simp [Forest.append, Forest.size]), Option.bind_some]
    rw [Forest.Hole.index] at childAt
    rw [childAt]
    rfl
  · refine ⟨?_, reaches.isTree, ?_, reaches.arrsize.trans edited.arrsize⟩
    · exact reaches.encodes.of_same (map_modify_same fun _ => rfl)
    · rw [List.length_modify, reaches.length, List.length_modify, oneMore]

end Collect

section Search

variable {ltree : List AyLnode} {nodes : List AyYnode}

/-- The siblings that are counted are the first trees with the property. -/
theorem takeWhile_rootIndices (isMember : Core → Bool) (filling : Forest Core)
    {hole : Forest.Hole Core} (encodes : Encodes nodes (hole.fill filling)) :
    ((rootIndices hole.index filling).takeWhile fun iter =>
      nodes[iter]?.any fun node => isMember node.core).length =
        (filling.roots.takeWhile isMember).length := by
  induction filling generalizing hole with
  | nil => rfl
  | cons label kids rest _ inductionHypothesis =>
      obtain ⟨found, foundAt, coreEq, -⟩ := encodes.node_in
      have others := @inductionHypothesis (.behind label kids hole) encodes
      rw [Forest.Hole.index] at others
      rw [rootIndices, Forest.roots, List.takeWhile_cons, List.takeWhile_cons, foundAt,
        Option.any_some, coreEq]
      split
      · rw [List.length_cons, List.length_cons, others]
      · rfl

theorem forall_rootIndices (isMember : Core → Bool) (filling : Forest Core)
    {hole : Forest.Hole Core} (encodes : Encodes nodes (hole.fill filling)) :
    (∀ iter ∈ rootIndices hole.index filling, ∀ node, nodes[iter]? = some node →
      isMember node.core = true) ↔ ∀ label ∈ filling.roots, isMember label = true := by
  induction filling generalizing hole with
  | nil => simp [rootIndices, Forest.roots]
  | cons label kids rest _ inductionHypothesis =>
      obtain ⟨found, foundAt, coreEq, -⟩ := encodes.node_in
      have others := @inductionHypothesis (.behind label kids hole) encodes
      rw [Forest.Hole.index] at others
      rw [rootIndices, Forest.roots, List.forall_mem_cons, List.forall_mem_cons, others, foundAt]
      simp [coreEq]

/-- What is found is the first sibling, and it lies under the star. -/
theorem searchImplicitList_found {forest : Forest Core} (encodes : Encodes nodes forest)
    (isTree : IsTree forest) {i star first nodesCnt : Nat}
    (found : searchImplicitList ltree nodes i = some (some (star, first, nodesCnt))) :
    ∃ (hole : Forest.Hole Core) (label : Core) (kids rest : Forest Core),
      forest = hole.fill (.cons label kids rest) ∧ hole.index = first ∧ hole.parent ≠ none ∧
      isUnder ltree star label = true ∧
      nodesCnt = ((Forest.cons label kids rest).roots.takeWhile (isUnder ltree star)).length := by
  obtain ⟨ynode, ynodeAt, found⟩ := Option.bind_eq_some_iff.mp found
  obtain ⟨parent, parentAt, found⟩ := Option.map_eq_some_iff.mp found
  obtain ⟨index, -, parentAt⟩ := Option.bind_eq_some_iff.mp parentAt
  split at found
  · cases found
  · obtain ⟨star1, -, found⟩ := Option.bind_eq_some_iff.mp found
    obtain ⟨star2, -, found⟩ := Option.bind_eq_some_iff.mp found
    obtain ⟨head, isHead, same⟩ := Option.map_eq_some_iff.mp found
    obtain ⟨rfl, rfl, rfl⟩ := Prod.mk.inj same |>.imp_right Prod.mk.inj
    have parentBound : index < forest.size := by
      rw [← length_of_cells encodes.cells]
      exact (List.getElem?_eq_some_iff.mp parentAt).1
    obtain ⟨outer, parentLabel, siblings, parentRest, rfl, rfl⟩ :=
      Forest.Hole.exists_of_lt_size parentBound
    obtain ⟨same, sameAt, -, -, -, -, childEq⟩ := encodes.node_in
    obtain rfl := Option.some.inj (sameAt.symm.trans parentAt)
    have visited := @siblingsFrom_eq _ siblings (.under parentLabel parentRest outer) encodes
    rw [Forest.Hole.index, ← childEq] at visited
    rw [visited] at isHead
    cases siblings with
    | nil => cases isHead
    | cons label kids rest =>
        have inSiblings : Encodes nodes ((Forest.Hole.under parentLabel parentRest outer).fill
            (.cons label kids rest)) := encodes
        obtain ⟨first, firstAt, coreEq, -⟩ := inSiblings.node_in
        have counted := takeWhile_rootIndices (isUnder ltree star2)
          (.cons label kids rest) inSiblings
        rw [Forest.Hole.index] at firstAt counted
        rw [rootIndices, List.takeWhile_cons] at isHead
        split at isHead
        · rename_i member
          rw [firstAt, Option.any_some] at member
          refine ⟨.under parentLabel parentRest outer, label, kids, rest, rfl, ?_, ?_, ?_, ?_⟩
          · exact Option.some.inj isHead
          · simp [Forest.Hole.parent]
          · rw [← coreEq]
            exact member
          · rw [visited]
            exact counted
        · cases isHead

end Search

/-- The array encodes one forest. -/
theorem Encodes.unique {nodes : List AyYnode} {forest other : Forest Core}
    (encodes : Encodes nodes forest) (also : Encodes nodes other) : forest = other :=
  Forest.flat_injective (encodes.cells.symm.trans also.cells)

/-- The sibling that comes along makes the difference. -/
theorem collectMore_eq_collect {isMember : Core → Bool} {list otherList label : Core}
    {kids rest : Forest Core} :
    collectMore isMember list label kids rest = collect isMember otherList label kids rest ↔
      list = otherList ∧ (Forest.cons label kids rest).dropRoots isMember = .nil := by
  rw [collectMore, collect]
  generalize (Forest.cons label kids rest).dropRoots isMember = left
  simp only [Forest.cons.injEq]
  constructor
  · rintro ⟨sameList, sameKids, -⟩
    refine ⟨sameList, ?_⟩
    have sizes := congrArg Forest.size sameKids
    rw [Forest.size_append] at sizes
    cases left with
    | nil => rfl
    | cons label kids rest =>
        simp only [Forest.takeTrees, Forest.size] at sizes
        omega
  · rintro ⟨sameList, rfl⟩
    exact ⟨sameList, Forest.append_nil _, rfl⟩

/-- One inserted list: the tree that is reached, and when it is the tree that is meant. -/
theorem collectSiblings_found {ltree : List AyLnode} {tree : YnodeTree} {forest : Forest Core}
    (encodes : Encodes tree.nodes forest) (isTree : IsTree forest)
    (room : tree.nodes.length < tree.arrsize) {i star first nodesCnt : Nat}
    (found : searchImplicitList ltree tree.nodes i = some (some (star, first, nodesCnt))) :
    ∃ after edited, collectSiblings tree star first nodesCnt = some after ∧
      Reaches tree after edited 1 ∧
      (Collects ltree ⟨tree, star, first, after⟩ ↔ AllUnder ltree ⟨tree, star, first, after⟩) := by
  obtain ⟨hole, label, kids, rest, rfl, rfl, inside, member, counted⟩ :=
    searchImplicitList_found encodes isTree found
  obtain ⟨after, list, ran, isList, reaches⟩ :=
    collectSiblings_reaches encodes isTree inside room star nodesCnt
  have done : Forest.cons list ((Forest.cons label kids .nil).append (rest.takeTrees nodesCnt))
      (rest.dropTrees nodesCnt) = collectMore (isUnder ltree star) list label kids rest := by
    rw [Forest.roots, List.takeWhile_cons_of_pos member, List.length_cons] at counted
    rw [counted, Forest.takeTrees_takeRoots, Forest.dropTrees_dropRoots, collectMore,
      Forest.takeRoots, Forest.dropRoots, if_pos member, if_pos member]
    rfl
  refine ⟨after, _, ran, reaches, ?_⟩
  have all : AllUnder ltree ⟨tree, star, hole.index, after⟩ ↔
      (Forest.cons label kids rest).dropRoots (isUnder ltree star) = .nil := by
    have visited := siblingsFrom_eq encodes
    rw [if_neg (by simp [Forest.size])] at visited
    rw [Forest.dropRoots_eq_nil, ← forall_rootIndices (isUnder ltree star) _ encodes, ← visited]
    rfl
  rw [all]
  constructor
  · intro collects
    obtain ⟨meant, -, meantEncodes⟩ := collects _ encodes
    have same := reaches.encodes.unique meantEncodes
    rw [Forest.Hole.modifyAt_fill, done] at same
    exact (collectMore_eq_collect.mp (hole.fill_injective same)).2
  · intro nothingLeft other otherEncodes
    obtain rfl := encodes.unique otherEncodes
    refine ⟨list, isList, ?_⟩
    rw [Forest.Hole.modifyAt_fill]
    have same : collectMore (isUnder ltree star) list label kids rest =
        collect (isUnder ltree star) list label kids rest :=
      collectMore_eq_collect.mpr ⟨rfl, nothingLeft⟩
    have reached := reaches.encodes
    rw [done, same] at reached
    exact reached

theorem length_changeAncestors (change : Nat → Nat) (fuel : Nat) (start : Option Nat)
    (nodes : List AyYnode) : (changeAncestors change fuel start nodes).length = nodes.length := by
  induction fuel generalizing start nodes with
  | zero => rfl
  | succ fuel inductionHypothesis =>
      cases start with
      | none => rfl
      | some iter =>
          rw [changeAncestors]
          split
          · rw [inductionHypothesis, List.length_modify]
          · rfl

/-- The wrapper is inserted only where there is room. -/
theorem room_of_collectSiblings {tree after : YnodeTree} {star first nodesCnt : Nat}
    (ran : collectSiblings tree star first nodesCnt = some after) :
    tree.nodes.length < tree.arrsize := by
  obtain ⟨wrapped, wrapRan, -⟩ := Option.bind_eq_some_iff.mp ran
  obtain ⟨node, -, inserted⟩ := Option.bind_eq_some_iff.mp wrapRan
  obtain ⟨gapped, gap, -⟩ := Option.bind_eq_some_iff.mp inserted
  rw [ayYnodeInsertGap] at gap
  split at gap
  · rename_i room
    rw [onAncestors, length_changeAncestors] at room
    exact room.1
  · cases gap

section Loop

variable {ltree : List AyLnode} {tree after : YnodeTree} {forest : Forest Core}

theorem insertImplicitListFrom_collects {fuel i : Nat} {log : List Inserted}
    (encodes : Encodes tree.nodes forest) (isTree : IsTree forest)
    (run : insertImplicitListFrom ltree fuel i tree = some (after, log)) :
    ∀ inserted ∈ log, Collects ltree inserted ↔ AllUnder ltree inserted := by
  induction fuel generalizing i tree forest after log with
  | zero => cases run
  | succ fuel inductionHypothesis =>
      rw [insertImplicitListFrom] at run
      split at run
      · obtain ⟨found, search, run⟩ := Option.bind_eq_some_iff.mp run
        cases found with
        | none => exact inductionHypothesis encodes isTree run
        | some found =>
            obtain ⟨star, first, nodesCnt⟩ := found
            obtain ⟨inserted, ran, run⟩ := Option.bind_eq_some_iff.mp run
            obtain ⟨⟨last, others⟩, rest, same⟩ := Option.map_eq_some_iff.mp run
            obtain ⟨rfl, rfl⟩ := Prod.mk.inj same
            obtain ⟨reached, edited, alsoRan, reaches, exactly⟩ :=
              collectSiblings_found encodes isTree (room_of_collectSiblings ran) search
            obtain rfl := Option.some.inj (ran.symm.trans alsoRan)
            rw [List.forall_mem_cons]
            exact ⟨exactly, inductionHypothesis reaches.encodes reaches.isTree rest⟩
      · cases run
        simp

theorem searchImplicitList_runs {i : Nat} (encodes : Encodes tree.nodes forest)
    (isTree : IsTree forest) (notRoot : i ≠ 0) (inside : i < tree.nodes.length) :
    ∃ found, searchImplicitList ltree tree.nodes i = some found := by
  have bound : i < forest.size := by rwa [← length_of_cells encodes.cells]
  obtain ⟨hole, label, kids, rest, node, rfl, rfl, nodeAt, -, parentEq, -⟩ :=
    encodes.node_at bound
  obtain ⟨index, isParent⟩ := Option.ne_none_iff_exists'.mp
    (parent_ne_none isTree (by simp [Forest.size]) notRoot)
  have parentInside : index < tree.nodes.length := by
    have := Forest.Hole.lt_index_of_mem_ancestors (mem_ancestors_of_parent isParent)
    omega
  rw [searchImplicitList, nodeAt, Option.bind_some, parentEq, isParent, Option.bind_some,
    List.getElem?_eq_getElem parentInside]
  exact ⟨_, rfl⟩

/-- With room for as many nodes again the loop comes to its end. -/
theorem insertImplicitListFrom_runs {fuel i : Nat} (encodes : Encodes tree.nodes forest)
    (isTree : IsTree forest) (notRoot : i ≠ 0) (enough : tree.nodes.length < fuel + i)
    (room : tree.nodes.length + (tree.nodes.length - i) ≤ tree.arrsize) (positive : fuel ≠ 0) :
    ∃ result, insertImplicitListFrom ltree fuel i tree = some result := by
  induction fuel generalizing i tree forest with
  | zero => exact absurd rfl positive
  | succ fuel inductionHypothesis =>
      rw [insertImplicitListFrom]
      split
      · rename_i inside
        obtain ⟨found, search⟩ := searchImplicitList_runs encodes isTree notRoot inside
        rw [search, Option.bind_some]
        cases found with
        | none =>
            exact inductionHypothesis encodes isTree (Nat.succ_ne_zero i) (by omega) (by omega)
              (by omega)
        | some found =>
            obtain ⟨star, first, nodesCnt⟩ := found
            obtain ⟨reached, edited, ran, reaches, -⟩ :=
              collectSiblings_found encodes isTree (by omega) search
            have length := reaches.length
            have arrsize := reaches.arrsize
            obtain ⟨result, rest⟩ := inductionHypothesis reaches.encodes reaches.isTree
              (by omega : i + 2 ≠ 0) (by omega) (by omega) (by omega)
            rw [Option.elim_some]
            dsimp only
            rw [ran, Option.bind_some, rest]
            exact ⟨_, rfl⟩
      · exact ⟨_, rfl⟩

end Loop

/-- In every run, an inserted list has the siblings under its star and no others exactly when no
other sibling follows them. -/
theorem ayYnodeInsertImplicitList_collects {ltree : List AyLnode} {tree after : YnodeTree}
    {forest : Forest Core} {log : List Inserted} (encodes : Encodes tree.nodes forest)
    (isTree : IsTree forest)
    (run : ayYnodeInsertImplicitList ltree tree = some (after, log)) :
    ∀ inserted ∈ log, Collects ltree inserted ↔ AllUnder ltree inserted :=
  insertImplicitListFrom_collects encodes isTree run

theorem ayYnodeInsertImplicitList_runs {ltree : List AyLnode} {tree : YnodeTree}
    {forest : Forest Core} (encodes : Encodes tree.nodes forest) (isTree : IsTree forest)
    (room : 2 * tree.nodes.length ≤ tree.arrsize) :
    ∃ result, ayYnodeInsertImplicitList ltree tree = some result :=
  insertImplicitListFrom_runs encodes isTree (Nat.succ_ne_zero 0) (by omega) (by omega)
    (Nat.succ_ne_zero _)

/-- Lenses of `((a)* . b)* . c`, from the parent of the outer star on. -/
def starLenses : List AyLnode :=
  [⟨none, 6, .lConcat, ""⟩, ⟨some 0, 4, .lStar, ""⟩, ⟨some 1, 3, .lConcat, ""⟩,
    ⟨some 2, 1, .lStar, ""⟩, ⟨some 3, 0, .lSubtree, ""⟩, ⟨some 2, 0, .lSubtree, ""⟩,
    ⟨some 0, 0, .lSubtree, ""⟩]

/-- A root with the nodes of some lenses as children. -/
def starTree (snodes : List Lnode) : YnodeTree where
  nodes := ayYnodeTreeCorrection
    ({ AyYnode.blank 0 with descendants := snodes.length } ::
      snodes.mapIdx fun i snode => { AyYnode.blank (BitVec.ofNat 32 (i + 1)) with snode := some snode })
  idcnt := BitVec.ofNat 32 (snodes.length + 1)
  arrsize := 2 * (snodes.length + 1)

def starForest (snodes : List Lnode) : Forest Core :=
  .cons (Core.blank 0) (snodes.mapIdx (fun i snode =>
    { Core.blank (BitVec.ofNat 32 (i + 1)) with snode := some snode })
      |>.foldr (fun core rest => .cons core .nil rest) .nil) .nil

theorem ayYnodeInsertImplicitList_collects_stars :
    ∃ after log, ayYnodeInsertImplicitList starLenses (starTree [4, 5]) = some (after, log) ∧
      log.length = 1 ∧
      ∀ inserted ∈ log, Collects starLenses inserted ↔ AllUnder starLenses inserted := by
  have encodes : Encodes (starTree [4, 5]).nodes (starForest [4, 5]) := ⟨by decide, by decide⟩
  have logged : (ayYnodeInsertImplicitList starLenses (starTree [4, 5])).map
      (fun result => result.2.length) = some 1 := by decide
  obtain ⟨⟨after, log⟩, run, length⟩ := Option.map_eq_some_iff.mp logged
  exact ⟨after, log, run, length,
    ayYnodeInsertImplicitList_collects encodes ⟨_, _, rfl⟩ run⟩

/-- The node of `c` gets into the list for the star above `a` and `b`. -/
theorem sibling_swallowed :
    ∃ after inserted, ayYnodeInsertImplicitList starLenses (starTree [4, 5, 6]) =
        some (after, [inserted]) ∧ ¬ Collects starLenses inserted := by
  have logged : (ayYnodeInsertImplicitList starLenses (starTree [4, 5, 6])).map
      (fun result => (result.2.map fun inserted => (inserted.before == starTree [4, 5, 6],
        inserted.star, inserted.first,
        (inserted.after.nodes[1]?).map AyYnode.descendants))) =
          some [(true, 1, 1, some 3)] := by decide
  obtain ⟨⟨after, log⟩, run, entries⟩ := Option.map_eq_some_iff.mp logged
  obtain ⟨inserted, others, rfl, entry, noOthers⟩ := List.map_eq_cons_iff.mp entries
  obtain rfl := List.map_eq_nil_iff.mp noOthers
  simp only [Prod.mk.injEq, beq_iff_eq] at entry
  obtain ⟨before, star, first, descendants⟩ := entry
  refine ⟨after, inserted, run, ?_⟩
  intro collects
  obtain ⟨list, -, encodes⟩ := collects (starForest [4, 5, 6]) (by
    rw [before]
    exact ⟨by decide, by decide⟩)
  obtain ⟨node, nodeAt, descendants⟩ := Option.map_eq_some_iff.mp descendants
  rw [star, first] at encodes
  have meant : ((starForest [4, 5, 6]).modifyAt (collect (isUnder starLenses 1) list) 1).flat[1]? =
      some (list, 2) := rfl
  rw [← encodes.cells, cells, List.getElem?_map, nodeAt, Option.map_some, Option.some.injEq] at meant
  have two : node.descendants = 2 := congrArg Prod.snd meant
  rw [two] at descendants
  exact absurd descendants (by decide)

end SysrepoAugeas.Ynode
