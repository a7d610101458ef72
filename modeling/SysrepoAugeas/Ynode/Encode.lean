import SysrepoAugeas.Data.Rank
import SysrepoAugeas.Ynode.Node

/-!
# Arrays that encode a tree

An array encodes a forest when its nodes carry the labels and descendant
counts of the preorder sequence and are linked accordingly.  The correction
loop establishes the links from the counts alone; the walk over the parents
reaches exactly the ancestors.
-/

namespace SysrepoAugeas.Ynode

open SysrepoAugeas.Data

/-- What edits of the tree leave alone in a node. -/
structure Core where
  type : YangType
  snode : Option Lnode
  label : Option Lnode
  value : Option Lnode
  id : YnodeId
  deriving DecidableEq

def AyYnode.core (node : AyYnode) : Core :=
  ⟨node.type, node.snode, node.label, node.value, node.id⟩

/-- A new node. -/
def Core.blank (id : YnodeId) : Core := ⟨.ynUnknown, none, none, none, id⟩

def AyYnode.cell (node : AyYnode) : Core × Nat := (node.core, node.descendants)

def AyYnode.links (node : AyYnode) : Forest.Links := ⟨node.parent, node.next, node.child⟩

def cells (nodes : List AyYnode) : List (Core × Nat) := nodes.map AyYnode.cell

/-- The array is the preorder sequence of a forest with the links of that forest. -/
structure Encodes (nodes : List AyYnode) (forest : Forest Core) : Prop where
  cells : cells nodes = forest.flat
  links : nodes.map AyYnode.links = forest.links 0 none

@[simp]
theorem cells_append (nodes others : List AyYnode) : cells (nodes ++ others) = cells nodes ++ cells others := by
  simp [cells]

@[simp]
theorem cells_cons (node : AyYnode) (nodes : List AyYnode) :
    cells (node :: nodes) = node.cell :: cells nodes := rfl

@[simp]
theorem length_cells (nodes : List AyYnode) : (cells nodes).length = nodes.length := by
  simp [cells]

theorem length_of_cells {nodes : List AyYnode} {forest : Forest Core}
    (encoded : cells nodes = forest.flat) : nodes.length = forest.size := by
  rw [← length_cells, encoded, Forest.length_flat]

/-- Changes outside of the core and the links do not matter. -/
theorem Encodes.of_same {nodes others : List AyYnode} {forest : Forest Core}
    (encodes : Encodes nodes forest)
    (same : others.map (fun node => (node.cell, node.links)) =
      nodes.map fun node => (node.cell, node.links)) : Encodes others forest := by
  have cellsEq := congrArg (List.map Prod.fst) same
  have linksEq := congrArg (List.map Prod.snd) same
  simp only [List.map_map] at cellsEq linksEq
  exact ⟨cellsEq.trans encodes.cells, linksEq.trans encodes.links⟩

section Unchanged

/-! What a change leaves alone in a node is also left alone in the array. -/

variable {View : Type} {view : AyYnode → View}

theorem map_modify_same {nodes : List AyYnode} {index : Nat} {change : AyYnode → AyYnode}
    (same : ∀ node, view (change node) = view node) :
    (nodes.modify index change).map view = nodes.map view := by
  refine List.ext_getElem? fun position => ?_
  simp only [List.getElem?_map, List.getElem?_modify]
  cases nodes[position]? with
  | none => rfl
  | some node => by_cases here : index = position <;> simp [here, same]

theorem foldl_modify_same {change : Nat → AyYnode → AyYnode}
    (same : ∀ index node, view (change index node) = view node) (indices : List Nat)
    (nodes : List AyYnode) :
    (indices.foldl (fun nodes index => nodes.modify index (change index)) nodes).map view =
      nodes.map view := by
  induction indices generalizing nodes with
  | nil => rfl
  | cons index rest inductionHypothesis =>
      rw [List.foldl_cons, inductionHypothesis, map_modify_same (same index)]

variable (linksAside : ∀ node parent next child,
  view { node with parent := parent, next := next, child := child } = view node)

include linksAside

theorem correctChildren_same (parent descendants fuel : Nat) (iter : Option Nat) (sum : Nat)
    (nodes : List AyYnode) :
    (correctChildren parent descendants fuel iter sum nodes).map view = nodes.map view := by
  induction fuel generalizing iter sum nodes with
  | zero => rfl
  | succ fuel inductionHypothesis =>
      cases iter with
      | none => rfl
      | some iter =>
          simp only [correctChildren]
          split
          · rw [inductionHypothesis]
            exact map_modify_same fun node => linksAside node _ _ _
          · rfl

theorem correctParent_same (nodes : List AyYnode) (parent : Nat) :
    (correctParent nodes parent).map view = nodes.map view := by
  simp only [correctParent]
  split
  · rw [correctChildren_same linksAside]
    exact map_modify_same fun node => linksAside node node.parent node.next _
  · rfl

theorem treeCorrection_same (nodes : List AyYnode) :
    (ayYnodeTreeCorrection nodes).map view = nodes.map view := by
  rw [ayYnodeTreeCorrection]
  generalize List.range nodes.length = parents
  induction parents generalizing nodes with
  | nil => rfl
  | cons parent rest inductionHypothesis =>
      rw [List.foldl_cons, inductionHypothesis, correctParent_same linksAside]

end Unchanged

section Correction

/-- A node of a forest between its neighbours. -/
def linked (start : Nat) (parent : Option Nat) (kids rest : Forest Core) (node : AyYnode) :
    AyYnode :=
  { node with
    parent := parent
    next := if rest.size = 0 then none else some (start + kids.size + 1)
    child := if kids.size = 0 then none else some (start + 1) }

/-- The roots of a forest linked with each other and their parent. -/
def linkRoots (start : Nat) (parent : Option Nat) : Forest Core → List AyYnode → List AyYnode
  | .cons _ kids rest, node :: nodes =>
      linked start parent kids rest node ::
        (nodes.take kids.size ++
          linkRoots (start + kids.size + 1) parent rest (nodes.drop kids.size))
  | _, nodes => nodes

/-- All nodes of a forest linked. -/
def linkAll (start : Nat) (parent : Option Nat) : Forest Core → List AyYnode → List AyYnode
  | .cons _ kids rest, node :: nodes =>
      linked start parent kids rest node ::
        (linkAll (start + 1) (some start) kids (nodes.take kids.size) ++
          linkAll (start + kids.size + 1) parent rest (nodes.drop kids.size))
  | _, nodes => nodes

/-- The array of a nonempty forest is its first node, its children and its siblings. -/
theorem exists_split_of_cells {label : Core} {kids rest : Forest Core} {nodes : List AyYnode}
    (encoded : cells nodes = (Forest.cons label kids rest).flat) :
    ∃ node kidNodes restNodes, nodes = node :: (kidNodes ++ restNodes) ∧
      node.cell = (label, kids.size) ∧ cells kidNodes = kids.flat ∧
      cells restNodes = rest.flat := by
  obtain ⟨node, tail, rfl, nodeCell, tailCells⟩ := List.map_eq_cons_iff.mp encoded
  obtain ⟨kidNodes, restNodes, rfl, kidCells, restCells⟩ := List.map_eq_append_iff.mp tailCells
  exact ⟨node, kidNodes, restNodes, rfl, nodeCell, kidCells, restCells⟩

variable {label : Core} {kids rest : Forest Core} {node : AyYnode}
  {kidNodes restNodes : List AyYnode}

theorem linkRoots_cons (start : Nat) (parent : Option Nat) (length : kidNodes.length = kids.size) :
    linkRoots start parent (.cons label kids rest) (node :: (kidNodes ++ restNodes)) =
      linked start parent kids rest node ::
        (kidNodes ++ linkRoots (start + kids.size + 1) parent rest restNodes) := by
  rw [linkRoots, List.take_left' length, List.drop_left' length]

theorem linkAll_cons (start : Nat) (parent : Option Nat) (length : kidNodes.length = kids.size) :
    linkAll start parent (.cons label kids rest) (node :: (kidNodes ++ restNodes)) =
      linked start parent kids rest node ::
        (linkAll (start + 1) (some start) kids kidNodes ++
          linkAll (start + kids.size + 1) parent rest restNodes) := by
  rw [linkAll, List.take_left' length, List.drop_left' length]

theorem cells_linkAll (start : Nat) (parent : Option Nat) (forest : Forest Core)
    (nodes : List AyYnode) (encoded : cells nodes = forest.flat) :
    cells (linkAll start parent forest nodes) = forest.flat ∧
      (linkAll start parent forest nodes).map AyYnode.links = forest.links start parent := by
  induction forest generalizing start parent nodes with
  | nil =>
      obtain rfl : nodes = [] := by simpa [cells, Forest.flat] using encoded
      exact ⟨rfl, rfl⟩
  | cons label kids rest kidsHypothesis restHypothesis =>
      obtain ⟨node, kidNodes, restNodes, rfl, nodeCell, kidCells, restCells⟩ :=
        exists_split_of_cells encoded
      obtain ⟨kidsCells, kidsLinks⟩ := kidsHypothesis (start + 1) (some start) kidNodes kidCells
      obtain ⟨restsCells, restsLinks⟩ :=
        restHypothesis (start + kids.size + 1) parent restNodes restCells
      rw [linkAll_cons start parent (length_of_cells kidCells)]
      constructor
      · have sameCell : (linked start parent kids rest node).cell = (label, kids.size) := nodeCell
        simp [kidsCells, restsCells, Forest.flat, sameCell]
      · simp [kidsLinks, restsLinks, Forest.links, linked, AyYnode.links]

/-- The inner loop links the roots of the forest it runs over. -/
theorem correctChildren_roots (parent descendants : Nat) (forest : Forest Core)
    (nonempty : forest.size ≠ 0) {fuel iter sum : Nat} {before nodes after : List AyYnode}
    (place : before.length = iter) (encoded : cells nodes = forest.flat)
    (remaining : sum + forest.size = descendants) (enough : forest.size ≤ fuel) :
    correctChildren parent descendants fuel (some iter) sum (before ++ (nodes ++ after)) =
      before ++ (linkRoots iter (some parent) forest nodes ++ after) := by
  induction forest generalizing fuel iter sum before nodes with
  | nil => simp [Forest.size] at nonempty
  | cons label kids rest _ restHypothesis =>
      obtain ⟨node, kidNodes, restNodes, rfl, nodeCell, kidCells, restCells⟩ :=
        exists_split_of_cells encoded
      have count : node.descendants = kids.size := congrArg Prod.snd nodeCell
      rw [Forest.size] at remaining enough
      obtain ⟨fuel, rfl⟩ : ∃ more, fuel = more + 1 := ⟨fuel - 1, by omega⟩
      have found : (before ++ (node :: (kidNodes ++ restNodes) ++ after))[iter]? = some node := by
        rw [← place]
        simp
      have nextEq : (if sum + kids.size + 1 ≠ descendants then some (iter + kids.size + 1)
          else none) = if rest.size = 0 then none else some (iter + kids.size + 1) := by
        by_cases last : rest.size = 0
        · rw [if_pos last, if_neg (by omega)]
        · rw [if_neg last, if_pos (by omega)]
      have childEq : (if kids.size ≠ 0 then some (iter + 1) else none) =
          if kids.size = 0 then none else some (iter + 1) := by
        by_cases leaf : kids.size = 0 <;> simp [leaf]
      have changed : (before ++ (node :: (kidNodes ++ restNodes) ++ after)).modify iter (fun node =>
          { node with
            parent := some parent
            child := if node.descendants ≠ 0 then some (iter + 1) else none
            next := if rest.size = 0 then none else some (iter + kids.size + 1) }) =
          before ++ linked iter (some parent) kids rest node :: (kidNodes ++ (restNodes ++ after)) := by
        rw [← place, List.cons_append, modify_split]
        simp only [linked, count, childEq, place, List.append_assoc]
      rw [correctChildren, found]
      simp only [count, nextEq]
      rw [changed, linkRoots_cons iter (some parent) (length_of_cells kidCells)]
      by_cases last : rest.size = 0
      · have noRest := Forest.eq_nil_of_size last
        subst noRest
        cases fuel <;> simp [Forest.size, correctChildren, linkRoots]
      · rw [if_neg last]
        have regroup : ∀ tail : List AyYnode,
            before ++ linked iter (some parent) kids rest node :: (kidNodes ++ tail) =
              (before ++ linked iter (some parent) kids rest node :: kidNodes) ++ tail := by simp
        have next := @restHypothesis last fuel (iter + kids.size + 1) (sum + kids.size + 1)
          (before ++ linked iter (some parent) kids rest node :: kidNodes) _ (by
            simp only [List.length_append, List.length_cons, place, length_of_cells kidCells]
            omega) restCells (by omega) (by omega)
        rw [regroup, next]
        simp

/-- One round of the outer loop links the children of a node. -/
theorem correctParent_split {before after : List AyYnode} (nodeCount : node.descendants = kids.size)
    (kidCells : cells kidNodes = kids.flat) :
    correctParent (before ++ node :: (kidNodes ++ after)) before.length =
      before ++ { node with
        child := if kids.size = 0 then none else some (before.length + 1) } ::
          (linkRoots (before.length + 1) (some before.length) kids kidNodes ++ after) := by
  have found : (before ++ node :: (kidNodes ++ after))[before.length]? = some node := by simp
  have iterEq : (if kids.size ≠ 0 then some (before.length + 1) else none) =
      if kids.size = 0 then none else some (before.length + 1) := by
    by_cases leaf : kids.size = 0 <;> simp [leaf]
  rw [correctParent, found]
  simp only [nodeCount, iterEq, modify_split]
  by_cases leaf : kids.size = 0
  · have noKids := Forest.eq_nil_of_size leaf
    subst noKids
    simp [Forest.size, correctChildren, linkRoots, List.length_append]
  · rw [if_neg leaf]
    have linkedKids := @correctChildren_roots before.length kids.size kids leaf
        ((before ++ node :: (kidNodes ++ after)).length) (before.length + 1) 0
        (before ++ [{ node with child := some (before.length + 1) }]) _ after (by simp) kidCells
        (by omega) (by
        have := length_of_cells kidCells
        simp only [List.length_append, List.length_cons]
        omega)
    simpa [nodeCount] using linkedKids

/-- The outer loop over the nodes of a forest whose roots are linked. -/
theorem foldl_correctParent (forest : Forest Core) (parent : Option Nat)
    {before nodes after : List AyYnode} (encoded : cells nodes = forest.flat) :
    (List.range' before.length forest.size).foldl correctParent
        (before ++ (linkRoots before.length parent forest nodes ++ after)) =
      before ++ (linkAll before.length parent forest nodes ++ after) := by
  induction forest generalizing parent before nodes after with
  | nil =>
      obtain rfl : nodes = [] := by simpa [cells, Forest.flat] using encoded
      rfl
  | cons label kids rest kidsHypothesis restHypothesis =>
      obtain ⟨node, kidNodes, restNodes, rfl, nodeCell, kidCells, restCells⟩ :=
        exists_split_of_cells encoded
      have count : node.descendants = kids.size := congrArg Prod.snd nodeCell
      have kidLength := length_of_cells kidCells
      let node' := linked before.length parent kids rest node
      rw [linkRoots_cons before.length parent kidLength, linkAll_cons before.length parent kidLength]
      -- this node
      have first := @correctParent_split kids node' _ before
          (linkRoots (before.length + kids.size + 1) parent rest restNodes ++ after) count
          kidCells
      have same : { node' with
          child := if kids.size = 0 then none else some (before.length + 1) } = node' := rfl
      rw [same] at first
      -- its children
      have second := @kidsHypothesis (some before.length) (before ++ [node']) _
        (linkRoots (before.length + kids.size + 1) parent rest restNodes ++ after) kidCells
      -- its siblings
      have third := @restHypothesis parent
        (before ++ node' :: linkAll (before.length + 1) (some before.length) kids kidNodes) _
        after restCells
      have linkedLength :
          (linkAll (before.length + 1) (some before.length) kids kidNodes).length = kids.size := by
        rw [← length_cells, (cells_linkAll _ _ _ _ kidCells).1, Forest.length_flat]
      have ranges : List.range' before.length (Forest.cons label kids rest).size =
          before.length :: (List.range' (before.length + 1) kids.size ++
            List.range' (before.length + kids.size + 1) rest.size) := by
        have shifted : before.length + 1 + kids.size = before.length + kids.size + 1 := by omega
        rw [Forest.size, List.range'_succ, ← List.range'_append_1, shifted]
      simp only [List.length_append, List.length_cons, List.length_nil, linkedLength,
        List.append_assoc, List.cons_append, List.nil_append, Nat.zero_add,
        ← Nat.add_assoc] at first second third ⊢
      rw [ranges, List.foldl_cons, List.foldl_append, first, second, third]

/-- The correction links every tree whose root has neither parent nor sibling. -/
theorem encodes_correction {nodes : List AyYnode} {label : Core} {kids : Forest Core}
    (encoded : cells nodes = (Forest.cons label kids .nil).flat)
    (rootLinks : ∀ root, nodes.head? = some root → root.parent = none ∧ root.next = none) :
    Encodes (ayYnodeTreeCorrection nodes) (.cons label kids .nil) := by
  obtain ⟨root, kidNodes, restNodes, rfl, rootCell, kidCells, restCells⟩ :=
    exists_split_of_cells encoded
  obtain rfl : restNodes = [] := by simpa [cells, Forest.flat] using restCells
  obtain ⟨noParent, noNext⟩ := rootLinks root rfl
  have count : root.descendants = kids.size := congrArg Prod.snd rootCell
  have rootLinked : { root with child := if kids.size = 0 then none else some 1 } =
      linked 0 none kids .nil root := by
    simp [linked, Forest.size, noParent, noNext]
  have first := @correctParent_split kids root _ [] [] count kidCells
  have second := @foldl_correctParent kids (some 0) ([linked 0 none kids .nil root]) _ [] kidCells
  have whole : ayYnodeTreeCorrection (root :: (kidNodes ++ [])) =
      linkAll 0 none (.cons label kids .nil) (root :: (kidNodes ++ [])) := by
    have ranges : List.range (root :: (kidNodes ++ [])).length =
        0 :: List.range' 1 kids.size := by
      rw [List.range_eq_range', List.length_cons, List.range'_succ, List.append_nil,
        length_of_cells kidCells]
    rw [ayYnodeTreeCorrection, ranges, List.foldl_cons,
      linkAll_cons 0 none (length_of_cells kidCells)]
    simp only [List.length_nil, List.nil_append, Nat.zero_add, rootLinked, List.length_cons,
      List.append_nil, List.cons_append] at first second ⊢
    rw [first, second]
    simp [linkAll]
  rw [whole]
  exact ⟨(cells_linkAll 0 none _ _ encoded).1, (cells_linkAll 0 none _ _ encoded).2⟩

end Correction

section Ancestors

/-- Change of the number of descendants at the chosen indices. -/
def changeAt (change : Nat → Nat) (chosen : List Nat) (nodes : List AyYnode) : List AyYnode :=
  nodes.mapIdx fun index node =>
    if index ∈ chosen then { node with descendants := change node.descendants } else node

theorem cells_changeAt (change : Nat → Nat) (chosen : List Nat) (nodes : List AyYnode) :
    cells (changeAt change chosen nodes) = Forest.raise change chosen (cells nodes) := by
  refine List.ext_getElem? fun index => ?_
  simp only [cells, changeAt, Forest.raise, List.getElem?_map, List.getElem?_mapIdx]
  cases nodes[index]? with
  | none => rfl
  | some node =>
      by_cases membership : index ∈ chosen <;> simp [membership, AyYnode.cell, AyYnode.core]

theorem links_changeAt (change : Nat → Nat) (chosen : List Nat) (nodes : List AyYnode) :
    (changeAt change chosen nodes).map AyYnode.links = nodes.map AyYnode.links := by
  refine List.ext_getElem? fun index => ?_
  simp only [changeAt, List.getElem?_map, List.getElem?_mapIdx]
  cases nodes[index]? with
  | none => rfl
  | some node => by_cases membership : index ∈ chosen <;> simp [membership, AyYnode.links]

@[simp]
theorem length_changeAt (change : Nat → Nat) (chosen : List Nat) (nodes : List AyYnode) :
    (changeAt change chosen nodes).length = nodes.length := by
  simp [changeAt]

theorem changeAt_cons {change : Nat → Nat} {chosen : List Nat} {index : Nat}
    (fresh : index ∉ chosen) (nodes : List AyYnode) :
    changeAt change chosen (nodes.modify index fun node =>
        { node with descendants := change node.descendants }) =
      changeAt change (index :: chosen) nodes := by
  refine List.ext_getElem? fun position => ?_
  simp only [changeAt, List.getElem?_mapIdx, List.getElem?_modify, List.mem_cons]
  cases nodes[position]? with
  | none => rfl
  | some node =>
      by_cases here : index = position
      · subst here
        simp [fresh]
      · simp [here, Ne.symm here]

theorem changeAt_nil (change : Nat → Nat) (nodes : List AyYnode) : changeAt change [] nodes = nodes :=
  Forest.mapIdx_eq_self fun _ _ node => by simp

theorem changeAt_singleton (change : Nat → Nat) (index : Nat) (nodes : List AyYnode) :
    changeAt change [index] nodes = nodes.modify index fun node =>
      { node with descendants := change node.descendants } := by
  rw [← changeAt_cons (by simp), changeAt_nil]

/-- The parent of the node in a hole is found by its link. -/
theorem getElem_parent {nodes : List AyYnode} {hole : Forest.Hole Core} {label : Core}
    {kids rest : Forest Core}
    (linked : nodes.map AyYnode.links = (hole.fill (.cons label kids rest)).links 0 none) :
    ∃ node, nodes[hole.index]? = some node ∧ node.parent = hole.parent ∧
      node.next = (if rest.size = 0 then none else some (hole.index + kids.size + 1)) ∧
      node.child = if kids.size = 0 then none else some (hole.index + 1) := by
  have found := Forest.Hole.getElem_links_fill hole label kids rest
  rw [← linked, List.getElem?_map, Option.map_eq_some_iff] at found
  obtain ⟨node, nodeFound, nodeLinks⟩ := found
  obtain ⟨parentEq, nextEq, childEq⟩ := Forest.Links.mk.inj nodeLinks
  exact ⟨node, nodeFound, parentEq, nextEq, childEq⟩

theorem length_ancestors_le (hole : Forest.Hole Core) : hole.ancestors.length ≤ hole.index := by
  induction hole with
  | top => simp [Forest.Hole.ancestors]
  | behind label kids outer inductionHypothesis =>
      simp only [Forest.Hole.ancestors, Forest.Hole.index]
      omega
  | under label rest outer inductionHypothesis =>
      simp only [Forest.Hole.ancestors, Forest.Hole.index, List.length_cons]
      omega

/-- Following the parents from a hole changes its ancestors, once each. -/
theorem changeAncestors_eq {change : Nat → Nat} (hole : Forest.Hole Core) {filling : Forest Core}
    {nodes : List AyYnode} (linked : nodes.map AyYnode.links = (hole.fill filling).links 0 none)
    {fuel : Nat} (enough : hole.ancestors.length ≤ fuel) :
    changeAncestors change fuel hole.parent nodes = changeAt change hole.ancestors nodes := by
  induction hole generalizing filling nodes fuel with
  | top =>
      cases fuel <;>
        simp [Forest.Hole.parent, Forest.Hole.ancestors, changeAncestors, changeAt_nil]
  | behind label kids outer inductionHypothesis => exact inductionHypothesis linked enough
  | under label rest outer inductionHypothesis =>
      simp only [Forest.Hole.ancestors, List.length_cons] at enough
      obtain ⟨fuel, rfl⟩ : ∃ more, fuel = more + 1 := ⟨fuel - 1, by omega⟩
      obtain ⟨node, found, parentEq, -⟩ := getElem_parent linked
      have fresh : outer.index ∉ outer.ancestors := fun membership =>
        Nat.lt_irrefl _ (Forest.Hole.lt_index_of_mem_ancestors membership)
      have sameLinks : (nodes.modify outer.index fun node =>
          { node with descendants := change node.descendants }).map AyYnode.links =
            (outer.fill (.cons label filling rest)).links 0 none := by
        rw [← changeAt_singleton, links_changeAt]
        exact linked
      simp only [Forest.Hole.parent, changeAncestors, found, parentEq]
      rw [inductionHypothesis sameLinks (by omega), changeAt_cons fresh, Forest.Hole.ancestors]

/-- The loop over the ancestors of a node in an array that encodes its forest. -/
theorem onAncestors_eq {change : Nat → Nat} {hole : Forest.Hole Core} {filling : Forest Core}
    {nodes : List AyYnode} (linked : nodes.map AyYnode.links = (hole.fill filling).links 0 none) :
    onAncestors change hole.parent nodes = changeAt change hole.ancestors nodes := by
  refine changeAncestors_eq hole linked ?_
  have length : nodes.length = (hole.fill filling).size := by
    simpa using congrArg List.length linked
  have := length_ancestors_le hole
  rw [length, Forest.Hole.size_fill]
  omega

end Ancestors

end SysrepoAugeas.Ynode
