import SysrepoAugeas.Ynode.Encode

/-!
# Inserting single nodes

A gap is opened for one blank node after the ancestors have been told, and the
links are corrected.  What the primitives do to the tree is stated as a change
at the node they are called with.
-/

namespace SysrepoAugeas.Ynode

open SysrepoAugeas.Data

section Shapes

/-! Changes of a forest from one node on, among its siblings. -/

variable {Label : Type}

/-- A new parent of the node alone. -/
def wrapNode (new label : Label) (kids rest : Forest Label) : Forest Label :=
  .cons new (.cons label kids .nil) rest

/-- A new parent of the node and the siblings behind it. -/
def wrapRest (new label : Label) (kids rest : Forest Label) : Forest Label :=
  .cons new (.cons label kids rest) .nil

/-- A new parent of all children. -/
def wrapKids (new label : Label) (kids rest : Forest Label) : Forest Label :=
  .cons label (.cons new kids .nil) rest

/-- Trees as first children. -/
def addFirst (trees : Forest Label) (label : Label) (kids rest : Forest Label) : Forest Label :=
  .cons label (trees.append kids) rest

/-- Trees as last children. -/
def addLast (trees : Forest Label) (label : Label) (kids rest : Forest Label) : Forest Label :=
  .cons label (kids.append trees) rest

/-- Trees as next siblings. -/
def addBehind (trees : Forest Label) (label : Label) (kids rest : Forest Label) : Forest Label :=
  .cons label kids (trees.append rest)

end Shapes

/-- A single root. -/
def IsTree (forest : Forest Core) : Prop := ∃ label kids, forest = .cons label kids .nil

/-- The first node has neither parent nor sibling. -/
def RootAlone (nodes : List AyYnode) : Prop :=
  ∀ root, nodes.head? = some root → root.parent = none ∧ root.next = none

/-- The result of an edit: the array encodes the new tree, the counter has advanced. -/
structure Edited (tree : YnodeTree) (forest : Forest Core) (fresh : Nat) (after : YnodeTree) :
    Prop where
  encodes : Encodes after.nodes forest
  isTree : IsTree forest
  idcnt : after.idcnt = advanceId tree.idcnt fresh
  arrsize : after.arrsize = tree.arrsize

section Tree

theorem eq_top_of_parent {hole : Forest.Hole Core} {filling : Forest Core}
    (isTree : IsTree (hole.fill filling)) (outside : hole.parent = none)
    (nonempty : filling.size ≠ 0) : hole = .top := by
  induction hole generalizing filling with
  | top => rfl
  | behind label kids outer inductionHypothesis =>
      have outerTop := @inductionHypothesis (.cons label kids filling) isTree outside
        (by simp [Forest.size])
      subst outerTop
      obtain ⟨root, rootKids, equality⟩ := isTree
      simp only [Forest.Hole.fill, Forest.cons.injEq] at equality
      simp [equality.2.2, Forest.size] at nonempty
  | under label rest outer _ => simp [Forest.Hole.parent] at outside

/-- Below the root any filling gives a tree. -/
theorem isTree_fill {hole : Forest.Hole Core} {filling : Forest Core}
    (isTree : IsTree (hole.fill filling)) (inside : hole.parent ≠ none)
    (newFilling : Forest Core) : IsTree (hole.fill newFilling) := by
  induction hole generalizing filling newFilling with
  | top => exact absurd rfl inside
  | behind label kids outer inductionHypothesis => exact inductionHypothesis isTree inside _
  | under label rest outer inductionHypothesis =>
      by_cases outermost : outer.parent = none
      · have outerTop := @eq_top_of_parent outer _ isTree outermost (by simp [Forest.size])
        subst outerTop
        obtain ⟨root, rootKids, equality⟩ := isTree
        simp only [Forest.Hole.fill, Forest.cons.injEq] at equality
        exact ⟨label, newFilling, by simp [Forest.Hole.fill, equality.2.2]⟩
      · exact inductionHypothesis isTree outermost _

/-- Every node but the root has a parent. -/
theorem parent_ne_none {hole : Forest.Hole Core} {filling : Forest Core}
    (isTree : IsTree (hole.fill filling)) (nonempty : filling.size ≠ 0)
    (notRoot : hole.index ≠ 0) : hole.parent ≠ none := by
  intro outside
  have := eq_top_of_parent isTree outside nonempty
  subst this
  exact notRoot rfl

theorem Encodes.rootAlone {nodes : List AyYnode} {forest : Forest Core}
    (encodes : Encodes nodes forest) (isTree : IsTree forest) : RootAlone nodes := by
  obtain ⟨label, kids, rfl⟩ := isTree
  intro root isHead
  have links := congrArg List.head? encodes.links
  simp only [List.head?_map, isHead, Forest.links, List.head?_cons, Option.map_some,
    Option.some.injEq, Forest.size, if_true] at links
  exact ⟨congrArg Forest.Links.parent links, congrArg Forest.Links.next links⟩

theorem RootAlone.of_links {nodes others : List AyYnode} (alone : RootAlone nodes)
    (same : others.map AyYnode.links = nodes.map AyYnode.links) : RootAlone others := by
  intro root isHead
  have links := congrArg List.head? same
  rw [List.head?_map, List.head?_map, isHead] at links
  obtain ⟨first, isFirst, equality⟩ := Option.map_eq_some_iff.mp links.symm
  obtain ⟨parentEq, nextEq, -⟩ := Forest.Links.mk.inj equality
  obtain ⟨noParent, noNext⟩ := alone first isFirst
  exact ⟨parentEq ▸ noParent, nextEq ▸ noNext⟩

/-- Edits behind the first node leave it alone. -/
theorem RootAlone.take_append {nodes : List AyYnode} (alone : RootAlone nodes) {index : Nat}
    (positive : 0 < index) (nonempty : nodes ≠ []) (rest : List AyYnode) :
    RootAlone (nodes.take index ++ rest) := by
  obtain ⟨index, rfl⟩ : ∃ less, index = less + 1 := ⟨index - 1, by omega⟩
  cases nodes with
  | nil => exact absurd rfl nonempty
  | cons first others =>
      intro root isHead
      exact alone root (by simpa using isHead)

theorem RootAlone.modify {nodes : List AyYnode} (alone : RootAlone nodes) (index : Nat)
    {change : AyYnode → AyYnode} (same : ∀ node, (change node).links = node.links) :
    RootAlone (nodes.modify index change) := by
  refine alone.of_links (List.ext_getElem? fun position => ?_)
  simp only [List.getElem?_map, List.getElem?_modify]
  cases nodes[position]? with
  | none => rfl
  | some node => by_cases here : index = position <;> simp [here, same]

/-- The links are corrected once the cells are those of a tree. -/
theorem encodes_of_cells {nodes : List AyYnode} {forest : Forest Core}
    (encoded : cells nodes = forest.flat) (isTree : IsTree forest) (alone : RootAlone nodes) :
    Encodes (ayYnodeTreeCorrection nodes) forest := by
  obtain ⟨label, kids, rfl⟩ := isTree
  exact encodes_correction encoded alone

end Tree

section Gap

variable {tree : YnodeTree} {hole : Forest.Hole Core} {filling : Forest Core}

/-- Telling the ancestors of a hole that its filling changes from `count` to `newCount`
nodes. -/
theorem cells_onAncestors {change : Nat → Nat} {newCount : Nat} {nodes : List AyYnode}
    (encodes : Encodes nodes (hole.fill filling))
    (law : ∀ more, change (filling.size + more) = newCount + more) :
    cells (onAncestors change hole.parent nodes) =
      hole.front newCount ++ (filling.flat ++ hole.back) := by
  rw [onAncestors_eq encodes.links, cells_changeAt, encodes.cells, Forest.Hole.flat_fill,
    Forest.Hole.raise_front law]

theorem rootAlone_onAncestors {change : Nat → Nat} {nodes : List AyYnode}
    (encodes : Encodes nodes (hole.fill filling)) (isTree : IsTree (hole.fill filling)) :
    RootAlone (onAncestors change hole.parent nodes) := by
  refine (encodes.rootAlone isTree).of_links ?_
  rw [onAncestors_eq encodes.links, links_changeAt]

/-- A gap splits the cells at its index. -/
theorem ayYnodeInsertGap_cells {front back : List (Core × Nat)}
    (split : cells tree.nodes = front ++ back) (room : tree.nodes.length < tree.arrsize)
    (alone : RootAlone tree.nodes) (positive : 0 < front.length) :
    ∃ gapped, ayYnodeInsertGap tree front.length = some gapped ∧
      cells gapped.nodes = front ++ (Core.blank tree.idcnt, 0) :: back ∧
      RootAlone gapped.nodes ∧ gapped.idcnt = advanceId tree.idcnt 1 ∧
      gapped.arrsize = tree.arrsize := by
  obtain ⟨frontNodes, backNodes, equality, frontCells, backCells⟩ :=
    List.map_eq_append_iff.mp split
  have length : frontNodes.length = front.length := by
    rw [← frontCells, List.length_map]
  have nonempty : tree.nodes ≠ [] := by
    rw [equality]
    intro empty
    simp only [List.append_eq_nil_iff] at empty
    simp [empty.1] at length
    omega
  have parts : tree.nodes.take front.length = frontNodes ∧
      tree.nodes.drop front.length = backNodes := by
    rw [equality]
    exact ⟨List.take_left' length, List.drop_left' length⟩
  have bound : front.length ≤ tree.nodes.length := by
    rw [equality, List.length_append]
    omega
  refine ⟨_, if_pos ⟨room, bound⟩, ?_, ?_, rfl, rfl⟩
  · simp only [parts.1, parts.2, cells_append, cells_cons]
    rw [cells, cells, frontCells, backCells]
    rfl
  · exact alone.take_append positive nonempty _

/-- Opening a gap below a parent: the cells are those of the new filling up to the number of
descendants of the blank node. -/
theorem insertGap_filling (encodes : Encodes tree.nodes (hole.fill filling))
    (isTree : IsTree (hole.fill filling)) (inside : hole.parent ≠ none)
    {left right : List (Core × Nat)} (old : filling.flat = left ++ right)
    (room : tree.nodes.length < tree.arrsize) :
    ∃ gapped, ayYnodeInsertGap { tree with nodes := onAncestors (· + 1) hole.parent tree.nodes }
        (hole.index + left.length) = some gapped ∧
      cells gapped.nodes = (hole.front (filling.size + 1) ++ left) ++
        (Core.blank tree.idcnt, 0) :: (right ++ hole.back) ∧
      RootAlone gapped.nodes ∧ gapped.idcnt = advanceId tree.idcnt 1 ∧
      gapped.arrsize = tree.arrsize := by
  have counted := @cells_onAncestors _ _ (· + 1) (filling.size + 1) _ encodes fun more => by omega
  rw [old] at counted
  have positive : 0 < hole.index := by
    cases hole with
    | top => exact absurd rfl inside
    | behind label kids outer => simp [Forest.Hole.index]
    | under label rest outer => simp [Forest.Hole.index]
  have sameLength : (onAncestors (· + 1) hole.parent tree.nodes).length = tree.nodes.length := by
    rw [onAncestors_eq encodes.links, length_changeAt]
  have result := @ayYnodeInsertGap_cells
      ({ tree with nodes := onAncestors (· + 1) hole.parent tree.nodes })
      (hole.front (filling.size + 1) ++ left) (right ++ hole.back) (by simpa using counted)
      (by simpa [sameLength] using room) (rootAlone_onAncestors encodes isTree) (by simp; omega)
  simpa using result

theorem size_insert {newFilling : Forest Core} {left right : List (Core × Nat)}
    {blank : Core × Nat} (old : filling.flat = left ++ right)
    (new : newFilling.flat = left ++ blank :: right) : newFilling.size = filling.size + 1 := by
  rw [← Forest.length_flat, ← Forest.length_flat, new, old]
  simp only [List.length_append, List.length_cons]
  omega

/-- A blank leaf only needs the links to be corrected. -/
theorem edited_insert_leaf {newFilling : Forest Core} {gapped : YnodeTree}
    {left right : List (Core × Nat)}
    (isTree : IsTree (hole.fill filling)) (inside : hole.parent ≠ none)
    (old : filling.flat = left ++ right)
    (new : newFilling.flat = left ++ (Core.blank tree.idcnt, 0) :: right)
    (gapCells : cells gapped.nodes = (hole.front (filling.size + 1) ++ left) ++
      (Core.blank tree.idcnt, 0) :: (right ++ hole.back))
    (alone : RootAlone gapped.nodes) (idcnt : gapped.idcnt = advanceId tree.idcnt 1)
    (arrsize : gapped.arrsize = tree.arrsize) :
    Edited tree (hole.fill newFilling) 1
      { gapped with nodes := ayYnodeTreeCorrection gapped.nodes } := by
  have newTree := isTree_fill isTree inside newFilling
  refine ⟨encodes_of_cells ?_ newTree alone, newTree, idcnt, arrsize⟩
  rw [gapCells, Forest.Hole.flat_fill, size_insert old new, new]
  simp

/-- The blank node gets its number of descendants and the links are corrected. -/
theorem edited_insert {newFilling : Forest Core} {gapped : YnodeTree} {descendants : Nat}
    {left right : List (Core × Nat)}
    (isTree : IsTree (hole.fill filling)) (inside : hole.parent ≠ none)
    (old : filling.flat = left ++ right)
    (new : newFilling.flat = left ++ (Core.blank tree.idcnt, descendants) :: right)
    (gapCells : cells gapped.nodes = (hole.front (filling.size + 1) ++ left) ++
      (Core.blank tree.idcnt, 0) :: (right ++ hole.back))
    (alone : RootAlone gapped.nodes) (idcnt : gapped.idcnt = advanceId tree.idcnt 1)
    (arrsize : gapped.arrsize = tree.arrsize) :
    Edited tree (hole.fill newFilling) 1
      { gapped with nodes := ayYnodeTreeCorrection (gapped.nodes.modify (hole.index + left.length)
          fun node => { node with descendants := descendants }) } := by
  have newTree := isTree_fill isTree inside newFilling
  refine ⟨encodes_of_cells ?_ newTree (alone.modify _ fun node => rfl), newTree, idcnt, arrsize⟩
  obtain ⟨frontNodes, restNodes, equality, frontCells, restCells⟩ :=
    List.map_eq_append_iff.mp gapCells
  obtain ⟨blankNode, backNodes, rfl, blankCell, backCells⟩ := List.map_eq_cons_iff.mp restCells
  have length : hole.index + left.length = frontNodes.length := by
    rw [← List.length_map (f := AyYnode.cell), frontCells]
    simp
  have blankCore : blankNode.core = Core.blank tree.idcnt := congrArg Prod.fst blankCell
  rw [equality, length, modify_split, Forest.Hole.flat_fill, size_insert old new, new]
  simp only [cells_append, cells_cons]
  rw [cells, cells, frontCells, backCells]
  simp [AyYnode.cell, AyYnode.core] at blankCore ⊢
  exact blankCore

end Gap

section Primitives

variable {tree : YnodeTree} {forest : Forest Core} {node : Nat}

/-- The node in a hole, with its cell and its links. -/
theorem Encodes.node_in {nodes : List AyYnode} {hole : Forest.Hole Core} {label : Core}
    {kids rest : Forest Core} (encodes : Encodes nodes (hole.fill (.cons label kids rest))) :
    ∃ found, nodes[hole.index]? = some found ∧ found.core = label ∧
      found.descendants = kids.size ∧ found.parent = hole.parent ∧
      found.next = (if rest.size = 0 then none else some (hole.index + kids.size + 1)) ∧
      found.child = if kids.size = 0 then none else some (hole.index + 1) := by
  obtain ⟨found, foundAt, linked⟩ := getElem_parent encodes.links
  have cell := Forest.Hole.getElem_flat_fill hole label kids rest
  rw [← encodes.cells, Ynode.cells, List.getElem?_map, foundAt, Option.map_some,
    Option.some.injEq] at cell
  exact ⟨found, foundAt, congrArg Prod.fst cell, congrArg Prod.snd cell, linked⟩

/-- The node at an index stands in a hole. -/
theorem Encodes.node_at (encodes : Encodes tree.nodes forest) (bound : node < forest.size) :
    ∃ (hole : Forest.Hole Core) (label : Core) (kids rest : Forest Core) (found : AyYnode),
      forest = hole.fill (.cons label kids rest) ∧ hole.index = node ∧
      tree.nodes[node]? = some found ∧ found.descendants = kids.size ∧
      found.parent = hole.parent ∧
      found.next = (if rest.size = 0 then none else some (node + kids.size + 1)) ∧
      found.child = if kids.size = 0 then none else some (node + 1) := by
  obtain ⟨hole, label, kids, rest, rfl, rfl⟩ := Forest.Hole.exists_of_lt_size bound
  obtain ⟨found, foundAt, -, linked⟩ := encodes.node_in
  exact ⟨hole, label, kids, rest, found, rfl, rfl, foundAt, linked⟩

theorem ayYnodeInsertWrapper_edited (encodes : Encodes tree.nodes forest) (isTree : IsTree forest)
    (notRoot : node ≠ 0) (bound : node < forest.size) (room : tree.nodes.length < tree.arrsize) :
    ∃ after, ayYnodeInsertWrapper tree node = some after ∧
      Edited tree (forest.modifyAt (wrapNode (Core.blank tree.idcnt)) node) 1 after := by
  obtain ⟨hole, label, kids, rest, found, rfl, rfl, foundAt, count, parentEq, -, -⟩ :=
    encodes.node_at bound
  have inside := parent_ne_none isTree (by simp [Forest.size]) notRoot
  have new : (wrapNode (Core.blank tree.idcnt) label kids rest).flat =
      [] ++ (Core.blank tree.idcnt, kids.size + 1) :: (Forest.cons label kids rest).flat := by
    simp [wrapNode, Forest.flat, Forest.size]
  obtain ⟨gapped, inserted, gapCells, alone, idcnt, arrsize⟩ :=
    @insertGap_filling _ _ _ encodes isTree inside [] _ rfl room
  rw [Forest.Hole.modifyAt_fill]
  refine ⟨_, ?_, @edited_insert _ _ _ _ _ _ [] _ isTree inside rfl new gapCells alone idcnt
      arrsize⟩
  simp only [List.length_nil, Nat.add_zero] at inserted ⊢
  simp only [ayYnodeInsertWrapper, foundAt, Option.bind_eq_bind, Option.bind_some, parentEq,
    inserted, count]

theorem ayYnodeInsertChild_edited (encodes : Encodes tree.nodes forest) (isTree : IsTree forest)
    (bound : node < forest.size) (room : tree.nodes.length < tree.arrsize) :
    ∃ after, ayYnodeInsertChild tree node = some after ∧
      Edited tree
        (forest.modifyAt (addFirst (.cons (Core.blank tree.idcnt) .nil .nil)) node) 1 after := by
  obtain ⟨hole, label, kids, rest, found, rfl, rfl, -⟩ := encodes.node_at bound
  -- the gap opens below the node
  have refill : hole.fill (.cons label kids rest) =
      (Forest.Hole.under label rest hole).fill kids := rfl
  have new : ((Forest.cons (Core.blank tree.idcnt) .nil .nil).append kids).flat =
      [] ++ (Core.blank tree.idcnt, 0) :: kids.flat := by
    simp [Forest.append, Forest.flat, Forest.size]
  rw [refill] at encodes isTree
  obtain ⟨gapped, inserted, gapCells, alone, idcnt, arrsize⟩ :=
    @insertGap_filling _ _ _ encodes isTree (by simp [Forest.Hole.parent]) [] _ rfl room
  have edited := @edited_insert_leaf _ _ _ _ _ [] _ isTree (by simp [Forest.Hole.parent]) rfl new
      gapCells alone idcnt arrsize
  rw [Forest.Hole.modifyAt_fill]
  refine ⟨_, ?_, edited⟩
  simp only [List.length_nil, Nat.add_zero, Forest.Hole.parent, Forest.Hole.index] at inserted
  simp only [ayYnodeInsertChild, Option.bind_eq_bind, Option.bind_some, inserted]

theorem ayYnodeInsertSibling_edited (encodes : Encodes tree.nodes forest) (isTree : IsTree forest)
    (notRoot : node ≠ 0) (bound : node < forest.size) (room : tree.nodes.length < tree.arrsize) :
    ∃ after, ayYnodeInsertSibling tree node = some after ∧
      Edited tree
        (forest.modifyAt (addBehind (.cons (Core.blank tree.idcnt) .nil .nil)) node) 1 after := by
  obtain ⟨hole, label, kids, rest, found, rfl, rfl, foundAt, count, parentEq, -, -⟩ :=
    encodes.node_at bound
  have inside := parent_ne_none isTree (by simp [Forest.size]) notRoot
  have old : (Forest.cons label kids rest).flat =
      ((label, kids.size) :: kids.flat) ++ rest.flat := by simp [Forest.flat]
  have new : (addBehind (.cons (Core.blank tree.idcnt) .nil .nil) label kids rest).flat =
      ((label, kids.size) :: kids.flat) ++ (Core.blank tree.idcnt, 0) :: rest.flat := by
    simp [addBehind, Forest.append, Forest.flat, Forest.size]
  obtain ⟨gapped, inserted, gapCells, alone, idcnt, arrsize⟩ :=
    insertGap_filling encodes isTree inside old room
  rw [Forest.Hole.modifyAt_fill]
  refine ⟨_, ?_, edited_insert_leaf isTree inside old new gapCells alone idcnt arrsize⟩
  simp only [List.length_cons, Forest.length_flat, ← Nat.add_assoc] at inserted
  simp only [ayYnodeInsertSibling, foundAt, Option.bind_eq_bind, Option.bind_some, parentEq,
    count, inserted]

/-- Positions of the roots of a forest whose array begins at `start`. -/
def rootIndices (start : Nat) : Forest Core → List Nat
  | .nil => []
  | .cons _ kids rest => start :: rootIndices (start + kids.size + 1) rest

/-- The walk along the siblings visits the roots of a part of the array. -/
theorem siblings_tops {forest : Forest Core} {before nodes after : List AyYnode}
    {parent : Option Nat} {fuel : Nat}
    (linked : nodes.map AyYnode.links = forest.links before.length parent)
    (enough : forest.size ≤ fuel) :
    siblings (before ++ (nodes ++ after)) fuel
        (if forest.size = 0 then none else some before.length) =
      rootIndices before.length forest := by
  induction forest generalizing before nodes fuel with
  | nil => cases fuel <;> simp [Forest.size, siblings, rootIndices]
  | cons label kids rest _ restHypothesis =>
      rw [Forest.size] at enough
      obtain ⟨fuel, rfl⟩ : ∃ more, fuel = more + 1 := ⟨fuel - 1, by omega⟩
      rw [Forest.links, List.map_eq_cons_iff] at linked
      obtain ⟨node, belowNodes, rfl, nodeLinks, belowLinks⟩ := linked
      obtain ⟨kidNodes, restNodes, rfl, kidLinks, restLinks⟩ :=
        List.map_eq_append_iff.mp belowLinks
      have kidLength := congrArg List.length kidLinks
      rw [List.length_map, Forest.length_links] at kidLength
      have restStart : (before ++ node :: kidNodes).length = before.length + kids.size + 1 := by
        rw [List.length_append, List.length_cons, kidLength]
        omega
      have next := @restHypothesis (before ++ node :: kidNodes) restNodes fuel
      rw [restStart] at next
      have restTops := next restLinks (by omega)
      have nextEq : node.next =
          if rest.size = 0 then none else some (before.length + kids.size + 1) :=
        congrArg Forest.Links.next nodeLinks
      have found : (before ++ (node :: (kidNodes ++ restNodes) ++ after))[before.length]? =
          some node := by simp
      have regroup : before ++ (node :: (kidNodes ++ restNodes) ++ after) =
          before ++ node :: kidNodes ++ (restNodes ++ after) := by simp
      rw [if_neg (by simp [Forest.size])]
      simp only [siblings, found, nextEq, rootIndices]
      rw [regroup, restTops]

/-- Following the siblings visits the roots of the filling of a hole. -/
theorem siblings_eq {nodes : List AyYnode} (filling : Forest Core) {hole : Forest.Hole Core}
    (encodes : Encodes nodes (hole.fill filling)) {fuel : Nat} (enough : filling.size ≤ fuel) :
    siblings nodes fuel (if filling.size = 0 then none else some hole.index) =
      rootIndices hole.index filling := by
  induction filling generalizing hole fuel with
  | nil => cases fuel <;> simp [Forest.size, siblings, rootIndices]
  | cons label kids rest _ restHypothesis =>
      rw [Forest.size] at enough
      obtain ⟨fuel, rfl⟩ : ∃ more, fuel = more + 1 := ⟨fuel - 1, by omega⟩
      obtain ⟨node, found, -, nextEq, -⟩ := getElem_parent encodes.links
      have next := @restHypothesis (.behind label kids hole) encodes fuel (by omega)
      rw [Forest.Hole.index] at next
      rw [if_neg (by simp [Forest.size])]
      simp only [siblings, found, nextEq, next, rootIndices]

theorem siblingsFrom_eq {nodes : List AyYnode} {filling : Forest Core} {hole : Forest.Hole Core}
    (encodes : Encodes nodes (hole.fill filling)) :
    siblingsFrom (if filling.size = 0 then none else some hole.index) nodes =
      rootIndices hole.index filling := by
  refine siblings_eq filling encodes ?_
  rw [length_of_cells encodes.cells, Forest.Hole.size_fill]
  omega

theorem sum_rootIndices {nodes : List AyYnode} (filling : Forest Core) {hole : Forest.Hole Core}
    (encodes : Encodes nodes (hole.fill filling)) :
    ((rootIndices hole.index filling).map fun iter =>
      ((nodes[iter]?.map AyYnode.descendants).getD 0) + 1).sum = filling.size := by
  induction filling generalizing hole with
  | nil => rfl
  | cons label kids rest _ restHypothesis =>
      have next := @restHypothesis (.behind label kids hole) encodes
      have cell := Forest.Hole.getElem_flat_fill hole label kids rest
      rw [← encodes.cells, Ynode.cells, List.getElem?_map, Option.map_eq_some_iff] at cell
      obtain ⟨node, found, nodeCell⟩ := cell
      have count : node.descendants = kids.size := congrArg Prod.snd nodeCell
      rw [Forest.Hole.index] at next
      simp only [rootIndices, List.map_cons, List.sum_cons, found, Option.map_some,
        Option.getD_some, count, next, Forest.size]
      omega

/-- The last of the roots in a hole, and what appending to them means there. -/
theorem exists_last_root (filling : Forest Core) (nonempty : filling.size ≠ 0)
    (hole : Forest.Hole Core) :
    ∃ (last : Forest.Hole Core) (label : Core) (kids : Forest Core),
      (rootIndices hole.index filling).getLast? = some last.index ∧
      last.parent = hole.parent ∧ last.ancestors = hole.ancestors ∧ hole.index ≤ last.index ∧
      last.index + kids.size + 1 = hole.index + filling.size ∧
      ∀ more : Forest Core,
        hole.fill (filling.append more) = last.fill (.cons label kids more) := by
  induction filling generalizing hole with
  | nil => simp [Forest.size] at nonempty
  | cons label kids rest _ restHypothesis =>
      by_cases only : rest.size = 0
      · have noRest := Forest.eq_nil_of_size only
        subst noRest
        refine ⟨hole, label, kids, ?_, rfl, rfl, Nat.le_refl _, ?_, fun more => rfl⟩
        · simp [rootIndices]
        · simp [Forest.size]
          omega
      · obtain ⟨last, lastLabel, lastKids, isLast, parentEq, ancestorsEq, behind, ends, appended⟩ :=
          restHypothesis only (.behind label kids hole)
        rw [Forest.Hole.index] at isLast behind ends
        refine ⟨last, lastLabel, lastKids, ?_, parentEq, ancestorsEq, by omega, ?_, appended⟩
        · rw [rootIndices, List.getLast?_cons, isLast]
          rfl
        · rw [ends, Forest.size]
          omega

theorem ayYnodeInsertParentForRest_edited (encodes : Encodes tree.nodes forest)
    (isTree : IsTree forest) (notRoot : node ≠ 0) (bound : node < forest.size)
    (room : tree.nodes.length < tree.arrsize) :
    ∃ after, ayYnodeInsertParentForRest tree node = some after ∧
      Edited tree (forest.modifyAt (wrapRest (Core.blank tree.idcnt)) node) 1 after := by
  obtain ⟨hole, label, kids, rest, found, rfl, rfl, foundAt, -, parentEq, -, -⟩ :=
    encodes.node_at bound
  have inside := parent_ne_none isTree (by simp [Forest.size]) notRoot
  have new : (wrapRest (Core.blank tree.idcnt) label kids rest).flat =
      [] ++ (Core.blank tree.idcnt, (Forest.cons label kids rest).size) ::
        (Forest.cons label kids rest).flat := by
    simp [wrapRest, Forest.flat, Forest.size]
  have visited := siblingsFrom_eq encodes
  rw [if_neg (by simp [Forest.size])] at visited
  have summed := sum_rootIndices _ encodes
  obtain ⟨gapped, inserted, gapCells, alone, idcnt, arrsize⟩ :=
    @insertGap_filling _ _ _ encodes isTree inside [] _ rfl room
  rw [Forest.Hole.modifyAt_fill]
  refine ⟨_, ?_, @edited_insert _ _ _ _ _ _ [] _ isTree inside rfl new gapCells alone idcnt
      arrsize⟩
  simp only [List.length_nil, Nat.add_zero] at inserted ⊢
  simp only [ayYnodeInsertParentForRest, foundAt, Option.bind_eq_bind, Option.bind_some, parentEq,
    inserted, visited, summed]

theorem ayYnodeInsertChildLast_edited (encodes : Encodes tree.nodes forest)
    (isTree : IsTree forest) (bound : node < forest.size)
    (room : tree.nodes.length < tree.arrsize) :
    ∃ after, ayYnodeInsertChildLast tree node = some after ∧
      Edited tree
        (forest.modifyAt (addLast (.cons (Core.blank tree.idcnt) .nil .nil)) node) 1 after := by
  obtain ⟨hole, label, kids, rest, found, rfl, rfl, foundAt, -, -, -, childEq⟩ :=
    encodes.node_at bound
  have visited := @siblingsFrom_eq _ kids (.under label rest hole) encodes
  rw [Forest.Hole.index, ← childEq] at visited
  have lastEq : ayYnodeGetLast found.child tree.nodes =
      (rootIndices (hole.index + 1) kids).getLast? := by rw [ayYnodeGetLast, visited]
  simp only [ayYnodeInsertChildLast, foundAt, Option.bind_eq_bind, Option.bind_some, lastEq]
  rw [Forest.Hole.modifyAt_fill]
  by_cases leaf : kids.size = 0
  · have noKids := Forest.eq_nil_of_size leaf
    subst noKids
    have inserted := ayYnodeInsertChild_edited encodes isTree bound room
    rw [Forest.Hole.modifyAt_fill] at inserted
    simpa [rootIndices, addFirst, addLast, Forest.append] using inserted
  · obtain ⟨last, lastLabel, lastKids, isLast, parentEq, -, behind, -, appended⟩ :=
      exists_last_root kids leaf (.under label rest hole)
    rw [Forest.Hole.index] at isLast behind
    have same := appended .nil
    rw [Forest.append_nil, Forest.Hole.fill] at same
    rw [same] at encodes isTree
    have inserted := @ayYnodeInsertSibling_edited _ _ last.index encodes isTree (by omega)
        (by rw [Forest.Hole.size_fill, Forest.size]; omega) room
    rw [Forest.Hole.modifyAt_fill, addBehind, Forest.append_nil, ← appended] at inserted
    simp only [isLast]
    exact inserted

/-- The siblings of a node are all children of its parent. -/
theorem exists_parent_hole {hole : Forest.Hole Core} {parent : Nat}
    (isParent : hole.parent = some parent) (filling : Forest Core) (nonempty : filling.size ≠ 0) :
    ∃ (outer : Forest.Hole Core) (label : Core) (kids rest : Forest Core),
      hole.fill filling = outer.fill (.cons label kids rest) ∧ outer.index = parent ∧
      kids.size ≠ 0 := by
  induction hole generalizing filling with
  | top => simp [Forest.Hole.parent] at isParent
  | behind label kids outer inductionHypothesis =>
      exact inductionHypothesis isParent (.cons label kids filling) (by simp [Forest.size])
  | under label rest outer _ =>
      exact ⟨outer, label, filling, rest, rfl, Option.some.inj isParent, nonempty⟩

/-- Index of the parent of a node. -/
def parentAt (forest : Forest Core) (node : Nat) : Option Nat :=
  ((forest.links 0 none)[node]?).bind Forest.Links.parent

theorem ayYnodeInsertParent_edited (encodes : Encodes tree.nodes forest) (isTree : IsTree forest)
    {parent : Nat} (isParent : parentAt forest node = some parent)
    (room : tree.nodes.length < tree.arrsize) :
    ∃ after, ayYnodeInsertParent tree node = some after ∧
      Edited tree (forest.modifyAt (wrapKids (Core.blank tree.idcnt)) parent) 1 after := by
  have bound : node < forest.size := by
    by_contra outside
    rw [parentAt, List.getElem?_eq_none (by simpa using outside)] at isParent
    simp at isParent
  obtain ⟨hole, label, kids, rest, found, rfl, rfl, foundAt, -, parentEq, -, -⟩ :=
    encodes.node_at bound
  rw [parentAt, Forest.Hole.getElem_links_fill] at isParent
  -- all children of the parent, seen from the place below it
  obtain ⟨outer, parentLabel, children, parentRest, refill, rfl, nonempty⟩ :=
    @exists_parent_hole hole _ (by simpa using isParent) (.cons label kids rest)
        (by simp [Forest.size])
  have holeParent : hole.parent = some outer.index := by simpa using isParent
  rw [refill] at encodes isTree ⊢
  obtain ⟨parentNode, parentFound, -, -, parentChild⟩ := getElem_parent encodes.links
  rw [if_neg nonempty] at parentChild
  let below := Forest.Hole.under parentLabel parentRest outer
  have new : (Forest.cons (Core.blank tree.idcnt) children .nil).flat =
      [] ++ (Core.blank tree.idcnt, children.size) :: children.flat := by
    simp [Forest.flat]
  obtain ⟨gapped, inserted, gapCells, alone, idcnt, arrsize⟩ := @insertGap_filling _ below
      children encodes isTree (by simp [below, Forest.Hole.parent]) [] _ rfl room
  have edited := @edited_insert _ below _ _ _ _ [] _ isTree (by simp [below, Forest.Hole.parent])
      rfl new gapCells alone idcnt arrsize
  rw [Forest.Hole.modifyAt_fill]
  refine ⟨_, ?_, edited⟩
  -- the parent counts the gap already
  have counted : ∃ before, gapped.nodes[outer.index]? = some before ∧
      before.descendants = children.size + 1 := by
    have cell := congrArg (fun list : List (Core × Nat) => list[outer.index]?) gapCells
    simp only [cells, List.getElem?_map, below, Forest.Hole.front, List.append_assoc,
      List.append_nil] at cell
    rw [← Forest.Hole.length_front outer (children.size + 1 + parentRest.size + 1),
      List.getElem?_append_right (Nat.le_refl _)] at cell
    simp only [Forest.Hole.length_front, Nat.sub_self, List.cons_append,
      List.getElem?_cons_zero, Option.map_eq_some_iff] at cell
    obtain ⟨before, beforeFound, beforeCell⟩ := cell
    exact ⟨before, beforeFound, congrArg Prod.snd beforeCell⟩
  obtain ⟨before, beforeFound, beforeCount⟩ := counted
  simp only [List.length_nil, Nat.add_zero, below, Forest.Hole.parent, Forest.Hole.index] at inserted
  simp only [ayYnodeInsertParent, foundAt, Option.bind_eq_bind, Option.bind_some, parentEq,
    holeParent, parentFound, parentChild, inserted, Nat.add_sub_cancel, beforeFound, beforeCount,
    below, Forest.Hole.index, List.length_nil, Nat.add_zero]

end Primitives

end SysrepoAugeas.Ynode
