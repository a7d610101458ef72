import SysrepoAugeas.Ynode.Run

/-!
# Siblings in reversed order

A pattern in which the first part repeats is found with the siblings in reverse
order.  Only `next` and `child` are turned; the array keeps its order, and one
pass over the parents turns the links of each level while those of the deeper
levels are still as they were.
-/

namespace SysrepoAugeas.Ynode

open SysrepoAugeas.Data

section Code

/-- Loop of `ay_ynode_siblings_reverse` over the children of a parent, with `prev` behind it. -/
def reverseNexts (lastOld : Nat) :
    Nat → Nat → Option Nat → List AyYnode → Option (List AyYnode × Option Nat)
  | fuel + 1, iter, prev, nodes =>
      if iter = lastOld then some (nodes, prev)
      else
        match nodes[iter]? with
        | some node =>
            reverseNexts lastOld fuel (iter + node.descendants + 1) (some iter)
              (nodes.modify iter fun node => { node with next := prev })
        | none => none
  | 0, _, _, _ => none

/-- One round of `ay_ynode_siblings_reverse`. -/
def reverseParent (nodes : List AyYnode) (parent : Nat) : Option (List AyYnode) :=
  match nodes[parent]? with
  | none => none
  | some node =>
      match ayYnodeGetLast node.child nodes with
      | none => some nodes
      | some lastOld =>
          (reverseNexts lastOld nodes.length (parent + 1) none
            (nodes.modify parent fun parent => { parent with child := some lastOld })).map
              fun (nodes, prev) => nodes.modify lastOld fun node => { node with next := prev }

/-- `ay_ynode_siblings_reverse` -/
def ayYnodeSiblingsReverse (nodes : List AyYnode) : Option (List AyYnode) :=
  (List.range nodes.length).foldlM reverseParent nodes

/-- Loop of `ay_ynode_siblings_reverse_back` over the children of a parent. -/
def restoreNexts (descendants : Nat) :
    Nat → Option Nat → Nat → List AyYnode → Option (List AyYnode)
  | fuel + 1, some iter, sum, nodes =>
      match nodes[iter]? with
      | some node =>
          let nextSum := sum + node.descendants + 1
          let nextIter := if nextSum < descendants then some (iter + node.descendants + 1) else none
          restoreNexts descendants fuel nextIter nextSum
            (nodes.modify iter fun node => { node with next := nextIter })
      | none => none
  | _ + 1, none, _, nodes => some nodes
  | 0, _, _, _ => none

/-- One round of `ay_ynode_siblings_reverse_back`. -/
def restoreParent (nodes : List AyYnode) (parent : Nat) : Option (List AyYnode) :=
  match nodes[parent]? with
  | none => none
  | some node =>
      if node.child.isSome then
        restoreNexts node.descendants nodes.length (some (parent + 1)) 0
          (nodes.modify parent fun node => { node with child := some (parent + 1) })
      else some nodes

/-- `ay_ynode_siblings_reverse_back` -/
def ayYnodeSiblingsReverseBack (nodes : List AyYnode) : Option (List AyYnode) :=
  (List.range nodes.length).foldlM restoreParent nodes

/-- Deletions of `ay_ynode_delete_build_list_` with the reversed order: after those for one
pattern the order is reversed again. -/
def deleteReversed (tree : YnodeTree) (round : List Nat) : Option YnodeTree :=
  (round.foldlM ayYnodeDeleteSubtree tree).bind fun tree =>
    (ayYnodeSiblingsReverse tree.nodes).map fun nodes => { tree with nodes := nodes }

end Code

section Styles

/-- How siblings are linked: `next` from the sibling in front, the index and the numbers of nodes
below and behind, and `child` from the nodes below. -/
structure LinkStyle where
  next : Option Nat → Nat → Nat → Nat → Option Nat
  child : Nat → Forest Core → Option Nat

def forwards : LinkStyle where
  next _ index kids rest := if rest = 0 then none else some (index + kids + 1)
  child start kids := if kids.size = 0 then none else some start

def backwards : LinkStyle where
  next prev _ _ _ := prev
  child start kids := (rootIndices start kids).getLast?

variable (style : LinkStyle)

/-- Links of the nodes of a forest behind a sibling. -/
def styleLinks (parent prev : Option Nat) (start : Nat) : Forest Core → List Forest.Links
  | .nil => []
  | .cons _ kids rest =>
      ⟨parent, style.next prev start kids.size rest.size, style.child (start + 1) kids⟩ ::
        (styleLinks (some start) none (start + 1) kids ++
          styleLinks parent (some start) (start + kids.size + 1) rest)

@[simp]
theorem length_styleLinks (parent prev : Option Nat) (start : Nat) (forest : Forest Core) :
    (styleLinks style parent prev start forest).length = forest.size := by
  induction forest generalizing parent prev start with
  | nil => rfl
  | cons label kids rest kidsHypothesis restHypothesis =>
      simp [styleLinks, Forest.size, kidsHypothesis, restHypothesis]

theorem styleLinks_forwards (parent prev : Option Nat) (start : Nat) (forest : Forest Core) :
    styleLinks forwards parent prev start forest = forest.links start parent := by
  induction forest generalizing parent prev start with
  | nil => rfl
  | cons label kids rest kidsHypothesis restHypothesis =>
      rw [styleLinks, kidsHypothesis, restHypothesis]
      rfl

/-- A style can be read off the forest around a place. -/
theorem styleLinks_fill (hole : Forest.Hole Core) (filling : Forest Core) :
    ∃ (before after : List Forest.Links) (prev : Option Nat), before.length = hole.index ∧
      styleLinks style none none 0 (hole.fill filling) =
        before ++ (styleLinks style hole.parent prev hole.index filling ++ after) := by
  induction hole generalizing filling with
  | top => exact ⟨[], [], none, rfl, by simp [Forest.Hole.fill, Forest.Hole.index, Forest.Hole.parent]⟩
  | behind label kids outer inductionHypothesis =>
      obtain ⟨before, after, prev, length, split⟩ := inductionHypothesis (.cons label kids filling)
      rw [styleLinks] at split
      refine ⟨before ++ ⟨outer.parent, style.next prev outer.index kids.size filling.size,
          style.child (outer.index + 1) kids⟩ ::
            styleLinks style (some outer.index) none (outer.index + 1) kids, after,
          some outer.index, ?_, ?_⟩
      · rw [List.length_append, List.length_cons, length_styleLinks, length, Forest.Hole.index]
        omega
      · simp [Forest.Hole.fill, split, Forest.Hole.index, Forest.Hole.parent]
  | under label rest outer inductionHypothesis =>
      obtain ⟨before, after, prev, length, split⟩ := inductionHypothesis (.cons label filling rest)
      rw [styleLinks] at split
      refine ⟨before ++ [⟨outer.parent, style.next prev outer.index filling.size rest.size,
          style.child (outer.index + 1) filling⟩],
        styleLinks style outer.parent (some outer.index) (outer.index + filling.size + 1) rest ++
          after, none, ?_, ?_⟩
      · simp [length, Forest.Hole.index]
      · simp [Forest.Hole.fill, split, Forest.Hole.index, Forest.Hole.parent]

end Styles

section Relinking

variable (style : LinkStyle) {old : LinkStyle} {label : Core} {forest kids rest : Forest Core}
  {node : AyYnode} {nodes kidNodes restNodes : List AyYnode} {parent prev : Option Nat} {start : Nat}

/-- The roots of a forest get new siblings. -/
def relinkRoots (prev : Option Nat) (start : Nat) : Forest Core → List AyYnode → List AyYnode
  | .cons _ kids rest, node :: nodes =>
      { node with next := style.next prev start kids.size rest.size } ::
        (nodes.take kids.size ++
          relinkRoots (some start) (start + kids.size + 1) rest (nodes.drop kids.size))
  | _, nodes => nodes

/-- All nodes of a forest get new links. -/
def relinkAll (prev : Option Nat) (start : Nat) : Forest Core → List AyYnode → List AyYnode
  | .cons _ kids rest, node :: nodes =>
      { node with
        next := style.next prev start kids.size rest.size
        child := style.child (start + 1) kids } ::
        (relinkAll none (start + 1) kids (nodes.take kids.size) ++
          relinkAll (some start) (start + kids.size + 1) rest (nodes.drop kids.size))
  | _, nodes => nodes

theorem relinkRoots_cons (length : kidNodes.length = kids.size) :
    relinkRoots style prev start (.cons label kids rest) (node :: (kidNodes ++ restNodes)) =
      { node with next := style.next prev start kids.size rest.size } ::
        (kidNodes ++ relinkRoots style (some start) (start + kids.size + 1) rest restNodes) := by
  rw [relinkRoots, List.take_left' length, List.drop_left' length]

theorem relinkAll_cons (length : kidNodes.length = kids.size) :
    relinkAll style prev start (.cons label kids rest) (node :: (kidNodes ++ restNodes)) =
      { node with
        next := style.next prev start kids.size rest.size
        child := style.child (start + 1) kids } ::
        (relinkAll style none (start + 1) kids kidNodes ++
          relinkAll style (some start) (start + kids.size + 1) rest restNodes) := by
  rw [relinkAll, List.take_left' length, List.drop_left' length]

/-- What a pass leaves alone. -/
def AyYnode.unlinked (node : AyYnode) : AyYnode := { node with next := none, child := none }

/-- What the correction leaves alone. -/
def AyYnode.bare (node : AyYnode) : AyYnode :=
  { node with parent := none, next := none, child := none }

theorem eq_of_bare {other : AyYnode} (same : node.bare = other.bare)
    (links : node.links = other.links) : node = other := by
  cases node
  cases other
  simp only [AyYnode.bare, AyYnode.mk.injEq, AyYnode.links, Forest.Links.mk.injEq] at same links
  simp only [AyYnode.mk.injEq]
  tauto

/-- Nodes are determined by their links and the rest. -/
theorem eq_of_map_bare {others : List AyYnode}
    (same : nodes.map AyYnode.bare = others.map AyYnode.bare)
    (links : nodes.map AyYnode.links = others.map AyYnode.links) : nodes = others := by
  apply List.ext_getElem?
  intro index
  have sameNode := congrArg (fun list => list[index]?) same
  have sameLinks := congrArg (fun list => list[index]?) links
  simp only [List.getElem?_map] at sameNode sameLinks
  cases found : nodes[index]? with
  | none =>
      rw [found, Option.map_none, eq_comm, Option.map_eq_none_iff] at sameNode
      exact sameNode.symm
  | some node =>
      obtain ⟨other, isOther, sameRest⟩ := Option.map_eq_some_iff.mp (sameNode.symm.trans
        (congrArg (Option.map AyYnode.bare) found))
      rw [found, isOther, Option.map_some, Option.map_some, Option.some.injEq] at sameLinks
      rw [isOther, eq_of_bare sameRest.symm sameLinks]

theorem bare_of_unlinked {others : List AyYnode}
    (same : nodes.map AyYnode.unlinked = others.map AyYnode.unlinked) :
    nodes.map AyYnode.bare = others.map AyYnode.bare := by
  have bareEq := congrArg (List.map AyYnode.bare) same
  rw [List.map_map, List.map_map] at bareEq
  exact bareEq

theorem unlinked_relinkAll (encoded : cells nodes = forest.flat) :
    (relinkAll style prev start forest nodes).map AyYnode.unlinked = nodes.map AyYnode.unlinked := by
  induction forest generalizing prev start nodes with
  | nil => cases nodes <;> rfl
  | cons label kids rest kidsHypothesis restHypothesis =>
      obtain ⟨node, kidNodes, restNodes, rfl, -, kidCells, restCells⟩ :=
        exists_split_of_cells encoded
      rw [relinkAll_cons style (length_of_cells kidCells), List.map_cons, List.map_append,
        kidsHypothesis kidCells, restHypothesis restCells, List.map_cons, List.map_append]
      rfl

/-- Relinking gives the links of the style when the parents are right. -/
theorem links_relinkAll (encoded : cells nodes = forest.flat)
    (linked : nodes.map AyYnode.links = styleLinks old parent prev start forest) :
    (relinkAll style prev start forest nodes).map AyYnode.links =
      styleLinks style parent prev start forest := by
  induction forest generalizing parent prev start nodes with
  | nil =>
      obtain rfl : nodes = [] := List.map_eq_nil_iff.mp encoded
      rfl
  | cons label kids rest kidsHypothesis restHypothesis =>
      obtain ⟨node, kidNodes, restNodes, rfl, -, kidCells, restCells⟩ :=
        exists_split_of_cells encoded
      have length := length_of_cells kidCells
      rw [styleLinks, List.map_cons, List.map_append, List.cons.injEq] at linked
      obtain ⟨nodeLinks, below⟩ := linked
      obtain ⟨kidLinks, restLinks⟩ := List.append_inj below (by simp [length])
      have parentEq : node.parent = parent := congrArg Forest.Links.parent nodeLinks
      rw [relinkAll_cons style length, List.map_cons, List.map_append,
        kidsHypothesis kidCells kidLinks, restHypothesis restCells restLinks, styleLinks]
      simp only [AyYnode.links, parentEq]

theorem length_relinkAll (encoded : cells nodes = forest.flat) :
    (relinkAll style prev start forest nodes).length = nodes.length := by
  have same := congrArg List.length (@unlinked_relinkAll style _ _ prev start encoded)
  rw [List.length_map, List.length_map] at same
  exact same

end Relinking

section Pass

variable {style old : LinkStyle} {step : List AyYnode → Nat → Option (List AyYnode)}

/-- What a round does to the links between a parent and its children. -/
def Relinks (style old : LinkStyle) (step : List AyYnode → Nat → Option (List AyYnode)) : Prop :=
  ∀ (before : List AyYnode) (node : AyYnode) (kids : Forest Core) (kidNodes after : List AyYnode),
    node.descendants = kids.size → cells kidNodes = kids.flat →
    node.child = old.child (before.length + 1) kids →
    kidNodes.map AyYnode.links = styleLinks old (some before.length) none (before.length + 1) kids →
    step (before ++ node :: (kidNodes ++ after)) before.length =
      some (before ++ { node with child := style.child (before.length + 1) kids } ::
        (relinkRoots style none (before.length + 1) kids kidNodes ++ after))

/-- The pass over the nodes of a forest whose roots are relinked. -/
theorem foldlM_relink (relinks : Relinks style old step) (forest : Forest Core)
    {parent prev : Option Nat} {before nodes after : List AyYnode}
    (encoded : cells nodes = forest.flat)
    (linked : nodes.map AyYnode.links = styleLinks old parent prev before.length forest) :
    (List.range' before.length forest.size).foldlM step
        (before ++ (relinkRoots style prev before.length forest nodes ++ after)) =
      some (before ++ (relinkAll style prev before.length forest nodes ++ after)) := by
  induction forest generalizing parent prev before nodes after with
  | nil =>
      obtain rfl : nodes = [] := List.map_eq_nil_iff.mp encoded
      rfl
  | cons label kids rest kidsHypothesis restHypothesis =>
      obtain ⟨node, kidNodes, restNodes, rfl, nodeCell, kidCells, restCells⟩ :=
        exists_split_of_cells encoded
      have length := length_of_cells kidCells
      rw [styleLinks, List.map_cons, List.map_append, List.cons.injEq] at linked
      obtain ⟨nodeLinks, below⟩ := linked
      obtain ⟨kidLinks, restLinks⟩ := List.append_inj below (by simp [length])
      have count : node.descendants = kids.size := congrArg Prod.snd nodeCell
      have childEq : node.child = old.child (before.length + 1) kids :=
        congrArg Forest.Links.child nodeLinks
      rw [relinkRoots_cons style length, relinkAll_cons style length]
      let turned := { node with next := style.next prev before.length kids.size rest.size }
      let done := { turned with child := style.child (before.length + 1) kids }
      -- the links between this node and its children
      have first := relinks before turned kids kidNodes
        (relinkRoots style (some before.length) (before.length + kids.size + 1) rest restNodes ++
          after) count kidCells childEq kidLinks
      -- below the children
      have second := @kidsHypothesis (some before.length) none (before ++ [done]) kidNodes
        (relinkRoots style (some before.length) (before.length + kids.size + 1) rest restNodes ++
          after) kidCells (by simpa using kidLinks)
      -- below the siblings
      have third := @restHypothesis parent (some before.length)
        (before ++ done :: relinkAll style none (before.length + 1) kids kidNodes) restNodes after
        restCells (by
          rw [List.length_append, List.length_cons, length_relinkAll style kidCells, length,
            show before.length + (kids.size + 1) = before.length + kids.size + 1 by omega]
          exact restLinks)
      have ranges : List.range' before.length (Forest.cons label kids rest).size =
          before.length :: (List.range' (before.length + 1) kids.size ++
            List.range' (before.length + kids.size + 1) rest.size) := by
        have shifted : before.length + 1 + kids.size = before.length + kids.size + 1 := by omega
        rw [Forest.size, List.range'_succ, ← List.range'_append_1, shifted]
      simp only [List.length_append, List.length_cons, List.length_nil,
        length_relinkAll style kidCells, length, List.append_assoc, List.cons_append,
        List.nil_append, Nat.zero_add, ← Nat.add_assoc] at first second third ⊢
      rw [ranges, List.foldlM_cons, first]
      simp only [Option.bind_eq_bind, Option.bind_some, List.foldlM_append]
      rw [second, Option.bind_some, third]

/-- The roots of a tree have no siblings in either style. -/
theorem foldlM_relink_tree (relinks : Relinks style old step) {nodes : List AyYnode}
    {forest : Forest Core} (encoded : cells nodes = forest.flat)
    (linked : nodes.map AyYnode.links = styleLinks old none none 0 forest)
    (roots : relinkRoots style none 0 forest nodes = nodes) :
    (List.range nodes.length).foldlM step nodes = some (relinkAll style none 0 forest nodes) := by
  have pass := @foldlM_relink _ _ _ relinks forest none none [] nodes [] encoded linked
  rw [List.range_eq_range', length_of_cells encoded]
  simpa [roots] using pass

end Pass

section Rounds

theorem rootIndices_eq_nil {forest : Forest Core} {start : Nat} :
    rootIndices start forest = [] ↔ forest.size = 0 := by
  cases forest with
  | nil => simp [rootIndices, Forest.size]
  | cons label kids rest => simp [rootIndices, Forest.size]

theorem le_of_mem_rootIndices {forest : Forest Core} {start index : Nat}
    (member : index ∈ rootIndices start forest) : start ≤ index := by
  induction forest generalizing start with
  | nil => cases member
  | cons label kids rest _ restHypothesis =>
      rw [rootIndices, List.mem_cons] at member
      rcases member with rfl | behindIt
      · exact Nat.le_refl _
      · have := restHypothesis behindIt
        omega

/-- The loop and the assignment behind it turn the children. -/
theorem reverseNexts_eq {forest : Forest Core} {last fuel : Nat} {prev : Option Nat}
    {before nodes after : List AyYnode} (encoded : cells nodes = forest.flat)
    (isLast : (rootIndices before.length forest).getLast? = some last)
    (enough : forest.size ≤ fuel) :
    (reverseNexts last fuel before.length prev (before ++ (nodes ++ after))).map
        (fun (nodes, prev) => nodes.modify last fun node => { node with next := prev }) =
      some (before ++ (relinkRoots backwards prev before.length forest nodes ++ after)) := by
  induction forest generalizing prev fuel before nodes with
  | nil => cases isLast
  | cons label kids rest _ restHypothesis =>
      obtain ⟨node, kidNodes, restNodes, rfl, nodeCell, kidCells, restCells⟩ :=
        exists_split_of_cells encoded
      have length := length_of_cells kidCells
      have count : node.descendants = kids.size := congrArg Prod.snd nodeCell
      rw [Forest.size] at enough
      obtain ⟨fuel, rfl⟩ : ∃ more, fuel = more + 1 := ⟨fuel - 1, by omega⟩
      rw [relinkRoots_cons backwards length, reverseNexts, rootIndices, List.getLast?_cons] at *
      have turned : (before ++ (node :: (kidNodes ++ restNodes) ++ after)).modify before.length
          (fun node => { node with next := prev }) =
            before ++ { node with next := prev } :: (kidNodes ++ (restNodes ++ after)) := by
        rw [List.cons_append, modify_split, List.append_assoc]
      by_cases only : rest.size = 0
      · have noRest := Forest.eq_nil_of_size only
        subst noRest
        obtain rfl : restNodes = [] := List.map_eq_nil_iff.mp restCells
        obtain rfl : before.length = last := Option.some.inj isLast
        rw [if_pos rfl, Option.map_some]
        dsimp only
        rw [turned]
        simp [relinkRoots, backwards]
      · obtain ⟨lastOfRest, isLastOfRest⟩ :=
          Option.ne_none_iff_exists'.mp (mt List.getLast?_eq_none_iff.mp
            (mt (@rootIndices_eq_nil rest (before.length + kids.size + 1)).mp only))
        rw [isLastOfRest, Option.getD_some, Option.some.injEq] at isLast
        subst isLast
        have further := le_of_mem_rootIndices (List.mem_of_getLast? isLastOfRest)
        have found : (before ++ (node :: (kidNodes ++ restNodes) ++ after))[before.length]? =
            some node := by simp
        have restStart : (before ++ { node with next := prev } :: kidNodes).length =
            before.length + kids.size + 1 := by
          rw [List.length_append, List.length_cons, length]
          omega
        have next := @restHypothesis fuel (some before.length)
          (before ++ { node with next := prev } :: kidNodes) restNodes restCells
        rw [restStart] at next
        have others := next isLastOfRest (by omega)
        rw [if_neg (by omega), found]
        dsimp only
        have behindIt : before.length + node.descendants + 1 = before.length + kids.size + 1 := by
          rw [count]
        rw [turned, behindIt]
        simpa [backwards] using others

theorem relinks_reverseParent : Relinks backwards forwards reverseParent := by
  intro before node kids kidNodes after count kidCells childEq kidLinks
  rw [styleLinks_forwards] at kidLinks
  have length := length_of_cells kidCells
  have found : (before ++ node :: (kidNodes ++ after))[before.length]? = some node := by simp
  have walked := @siblings_tops kids (before ++ [node]) kidNodes after (some before.length)
    (before ++ node :: (kidNodes ++ after)).length (by simpa using kidLinks) (by
      simp only [List.length_append, List.length_cons, length]
      omega)
  have kidsStart : (before ++ [node]).length = before.length + 1 := by simp
  rw [List.append_assoc, List.singleton_append, kidsStart] at walked
  rw [reverseParent, found]
  dsimp only
  rw [ayYnodeGetLast, siblingsFrom, childEq, forwards]
  dsimp only
  rw [walked]
  cases isLast : (rootIndices (before.length + 1) kids).getLast? with
  | none =>
      rw [List.getLast?_eq_none_iff, rootIndices_eq_nil] at isLast
      obtain rfl := Forest.eq_nil_of_size isLast
      obtain rfl : kidNodes = [] := List.map_eq_nil_iff.mp kidCells
      have noChild : node.child = none := childEq
      simp only [relinkRoots, backwards, rootIndices, List.getLast?_nil, ← noChild]
  | some last =>
      dsimp only
      rw [modify_split]
      have turned := @reverseNexts_eq kids last (before ++ node :: (kidNodes ++ after)).length none
        (before ++ [{ node with child := some last }]) kidNodes after kidCells
        (by simpa using isLast) (by
          simp only [List.length_append, List.length_cons, length]
          omega)
      simpa [backwards, isLast] using turned

/-- The loop restores the links between the children. -/
theorem restoreNexts_eq {forest : Forest Core} {descendants fuel sum : Nat} {prev : Option Nat}
    {before nodes after : List AyYnode} (encoded : cells nodes = forest.flat)
    (remaining : sum + forest.size = descendants) (enough : forest.size < fuel) :
    restoreNexts descendants fuel (if forest.size = 0 then none else some before.length) sum
        (before ++ (nodes ++ after)) =
      some (before ++ (relinkRoots forwards prev before.length forest nodes ++ after)) := by
  induction forest generalizing fuel sum prev before nodes with
  | nil =>
      obtain ⟨fuel, rfl⟩ : ∃ more, fuel = more + 1 := ⟨fuel - 1, by omega⟩
      obtain rfl : nodes = [] := List.map_eq_nil_iff.mp encoded
      rfl
  | cons label kids rest _ restHypothesis =>
      obtain ⟨node, kidNodes, restNodes, rfl, nodeCell, kidCells, restCells⟩ :=
        exists_split_of_cells encoded
      have length := length_of_cells kidCells
      have count : node.descendants = kids.size := congrArg Prod.snd nodeCell
      rw [Forest.size] at enough remaining
      obtain ⟨fuel, rfl⟩ : ∃ more, fuel = more + 1 := ⟨fuel - 1, by omega⟩
      have found : (before ++ (node :: (kidNodes ++ restNodes) ++ after))[before.length]? =
          some node := by simp
      have nextEq : (if sum + kids.size + 1 < descendants then some (before.length + kids.size + 1)
          else none) = if rest.size = 0 then none else some (before.length + kids.size + 1) := by
        by_cases last : rest.size = 0
        · rw [if_pos last, if_neg (by omega)]
        · rw [if_neg last, if_pos (by omega)]
      have restored : (before ++ (node :: (kidNodes ++ restNodes) ++ after)).modify before.length
          (fun node => { node with
            next := if rest.size = 0 then none else some (before.length + kids.size + 1) }) =
          before ++ { node with
            next := if rest.size = 0 then none else some (before.length + kids.size + 1) } ::
              (kidNodes ++ (restNodes ++ after)) := by
        rw [List.cons_append, modify_split, List.append_assoc]
      have next := @restHypothesis fuel (sum + kids.size + 1) (some before.length)
        (before ++ { node with
          next := if rest.size = 0 then none else some (before.length + kids.size + 1) } :: kidNodes)
        restNodes restCells (by omega) (by omega)
      have restStart : ∀ first : AyYnode, (before ++ first :: kidNodes).length =
          before.length + kids.size + 1 := by
        intro first
        rw [List.length_append, List.length_cons, length]
        omega
      rw [restStart] at next
      rw [if_neg (by simp [Forest.size]), restoreNexts, found]
      dsimp only
      rw [count, nextEq, restored, relinkRoots_cons forwards length]
      simpa [forwards] using next

theorem relinks_restoreParent : Relinks forwards backwards restoreParent := by
  intro before node kids kidNodes after count kidCells childEq _
  have length := length_of_cells kidCells
  have found : (before ++ node :: (kidNodes ++ after))[before.length]? = some node := by simp
  rw [restoreParent, found]
  dsimp only
  by_cases leaf : kids.size = 0
  · obtain rfl := Forest.eq_nil_of_size leaf
    obtain rfl : kidNodes = [] := List.map_eq_nil_iff.mp kidCells
    have noChild : node.child = none := childEq
    rw [noChild, if_neg (by simp)]
    simp only [relinkRoots, forwards, Forest.size, if_true, ← noChild]
  · have hasChild : node.child.isSome = true := by
      rw [childEq, Option.isSome_iff_ne_none]
      exact mt List.getLast?_eq_none_iff.mp (mt rootIndices_eq_nil.mp leaf)
    rw [if_pos hasChild, modify_split]
    have restored := @restoreNexts_eq kids node.descendants
      (before ++ node :: (kidNodes ++ after)).length 0 none
      (before ++ [{ node with child := some (before.length + 1) }]) kidNodes after kidCells
      (by rw [count, Nat.zero_add]) (by
        simp only [List.length_append, List.length_cons, length]
        omega)
    rw [if_neg leaf] at restored
    simpa [forwards, leaf] using restored

end Rounds

section Turning

variable {forest : Forest Core} {nodes turned : List AyYnode}

/-- An array as it is between the transformations; the root can have been deleted. -/
structure Whole (nodes : List AyYnode) (forest : Forest Core) : Prop where
  encodes : Encodes nodes forest
  single : forest = .nil ∨ IsTree forest

/-- The array with the siblings in reversed order. -/
structure Turned (nodes turned : List AyYnode) (forest : Forest Core) : Prop where
  same : turned.map AyYnode.unlinked = nodes.map AyYnode.unlinked
  links : turned.map AyYnode.links = styleLinks backwards none none 0 forest

theorem cells_of_unlinked (same : turned.map AyYnode.unlinked = nodes.map AyYnode.unlinked) :
    cells turned = cells nodes := by
  have cellsEq := congrArg (List.map AyYnode.cell) same
  rw [List.map_map, List.map_map] at cellsEq
  exact cellsEq

theorem Whole.rootAlone (whole : Whole nodes forest) : RootAlone nodes := by
  rcases whole.single with rfl | isTree
  · obtain rfl : nodes = [] := List.map_eq_nil_iff.mp whole.encodes.cells
    intro root isHead
    cases isHead
  · exact whole.encodes.rootAlone isTree

/-- Relinking the root alone changes nothing. -/
theorem relinkRoots_root {style : LinkStyle} (noSibling : ∀ kids, style.next none 0 kids 0 = none)
    (single : forest = .nil ∨ IsTree forest) (encoded : cells nodes = forest.flat)
    (alone : RootAlone nodes) : relinkRoots style none 0 forest nodes = nodes := by
  rcases single with rfl | ⟨label, kids, rfl⟩
  · cases nodes <;> rfl
  · obtain ⟨root, kidNodes, restNodes, rfl, -, kidCells, restCells⟩ :=
      exists_split_of_cells encoded
    obtain rfl : restNodes = [] := List.map_eq_nil_iff.mp restCells
    have noNext : root.next = none := (alone root rfl).2
    rw [relinkRoots_cons style (length_of_cells kidCells), Forest.size, noSibling, ← noNext]
    rfl

theorem siblingsReverse_turned (whole : Whole nodes forest) :
    ∃ turned, ayYnodeSiblingsReverse nodes = some turned ∧ Turned nodes turned forest := by
  have linked : nodes.map AyYnode.links = styleLinks forwards none none 0 forest :=
    whole.encodes.links.trans (styleLinks_forwards none none 0 forest).symm
  have encoded := whole.encodes.cells
  refine ⟨relinkAll backwards none 0 forest nodes, ?_, unlinked_relinkAll backwards encoded,
    links_relinkAll backwards encoded linked⟩
  apply foldlM_relink_tree relinks_reverseParent encoded linked
  exact relinkRoots_root (fun _ => rfl) whole.single encoded whole.rootAlone

theorem Turned.rootAlone (isTurned : Turned nodes turned forest) (whole : Whole nodes forest) :
    RootAlone turned := by
  intro root isHead
  have links := congrArg List.head? isTurned.links
  rw [List.head?_map, isHead, Option.map_some] at links
  rcases whole.single with rfl | ⟨label, kids, rfl⟩
  · cases links
  · rw [styleLinks, List.head?_cons, Option.some.injEq] at links
    exact ⟨congrArg Forest.Links.parent links, congrArg Forest.Links.next links⟩

theorem siblingsReverseBack_restores (whole : Whole nodes forest)
    (isTurned : Turned nodes turned forest) : ayYnodeSiblingsReverseBack turned = some nodes := by
  have encoded : cells turned = forest.flat :=
    (cells_of_unlinked isTurned.same).trans whole.encodes.cells
  have roots := @relinkRoots_root _ _ forwards (fun _ => rfl) whole.single encoded
    (isTurned.rootAlone whole)
  rw [ayYnodeSiblingsReverseBack,
    foldlM_relink_tree relinks_restoreParent encoded isTurned.links roots, Option.some.injEq]
  apply eq_of_map_bare
  · apply bare_of_unlinked
    rw [unlinked_relinkAll forwards encoded, isTurned.same]
  · rw [links_relinkAll forwards encoded isTurned.links, styleLinks_forwards, whole.encodes.links]

/-- The sibling in front is next. -/
theorem next_of_backwards {parent prev : Option Nat} {before after : List Forest.Links} {index : Nat}
    {first last : List Nat} (split : rootIndices before.length forest = first ++ index :: last) :
    ∃ links, (before ++ (styleLinks backwards parent prev before.length forest ++ after))[index]? =
      some links ∧ links.next = first.getLast?.or prev := by
  induction forest generalizing before prev first with
  | nil => cases first <;> cases split
  | cons label kids rest _ restHypothesis =>
      rw [rootIndices] at split
      cases first with
      | nil =>
          obtain ⟨rfl, -⟩ := List.cons.inj split
          refine ⟨⟨parent, prev, backwards.child (before.length + 1) kids⟩, ?_, rfl⟩
          rw [styleLinks, List.getElem?_append_right (Nat.le_refl _), Nat.sub_self]
          rfl
      | cons top others =>
          obtain ⟨rfl, restSplit⟩ := List.cons.inj split
          have next := @restHypothesis (some before.length)
            (before ++ ⟨parent, prev, backwards.child (before.length + 1) kids⟩ ::
              styleLinks backwards (some before.length) none (before.length + 1) kids) others
          have restStart : (before ++ ⟨parent, prev, backwards.child (before.length + 1) kids⟩ ::
              styleLinks backwards (some before.length) none (before.length + 1) kids).length =
                before.length + kids.size + 1 := by
            rw [List.length_append, List.length_cons, length_styleLinks]
            omega
          rw [restStart] at next
          obtain ⟨links, found, isNext⟩ := next restSplit
          refine ⟨links, ?_, ?_⟩
          · rw [← found, styleLinks]
            simp [backwards]
          · rw [isNext, List.getLast?_cons]
            cases others.getLast? <;> rfl

/-- The walk over a list in which every node leads to the next one. -/
theorem siblings_of_next {list : List Nat} {fuel : Nat}
    (linked : ∀ first index last, list = first ++ index :: last →
      ∃ node, nodes[index]? = some node ∧ node.next = last.head?)
    (enough : list.length ≤ fuel) : siblings nodes fuel list.head? = list := by
  induction list generalizing fuel with
  | nil => cases fuel <;> rfl
  | cons index rest inductionHypothesis =>
      rw [List.length_cons] at enough
      obtain ⟨fuel, rfl⟩ : ∃ more, fuel = more + 1 := ⟨fuel - 1, by omega⟩
      obtain ⟨node, found, isNext⟩ := linked [] index rest rfl
      have others := @inductionHypothesis fuel (fun first other last split =>
        linked (index :: first) other last (congrArg (index :: ·) split)) (by omega)
      rw [List.head?_cons, siblings, found]
      dsimp only
      rw [isNext, others]

theorem length_rootIndices_le (forest : Forest Core) (start : Nat) :
    (rootIndices start forest).length ≤ forest.size := by
  induction forest generalizing start with
  | nil => exact Nat.le_refl _
  | cons label kids rest _ restHypothesis =>
      have := restHypothesis (start + kids.size + 1)
      rw [rootIndices, List.length_cons, Forest.size]
      omega

/-- The links enumerate the children of every node in reversed order; else the array is the same. -/
structure SiblingsReversed (nodes turned : List AyYnode) : Prop where
  same : turned.map AyYnode.unlinked = nodes.map AyYnode.unlinked
  order : ∀ (index : Nat) (node turnedNode : AyYnode), nodes[index]? = some node →
    turned[index]? = some turnedNode →
    siblingsFrom turnedNode.child turned = (siblingsFrom node.child nodes).reverse

theorem Turned.siblingsReversed (isTurned : Turned nodes turned forest)
    (encodes : Encodes nodes forest) : SiblingsReversed nodes turned := by
  refine ⟨isTurned.same, fun index node turnedNode found turnedFound => ?_⟩
  have bound : index < forest.size := by
    rw [← length_of_cells encodes.cells]
    exact (List.getElem?_eq_some_iff.mp found).1
  have turnedLength : turned.length = forest.size := by
    rw [← length_styleLinks backwards none none 0, ← isTurned.links, List.length_map]
  obtain ⟨hole, label, kids, rest, rfl, rfl⟩ := Forest.Hole.exists_of_lt_size bound
  -- the walk before
  obtain ⟨sameNode, foundAgain, -, -, -, -, childEq⟩ := encodes.node_in
  rw [found, Option.some.injEq] at foundAgain
  have walked := @siblingsFrom_eq _ kids (.under label rest hole) encodes
  rw [Forest.Hole.index] at walked
  rw [foundAgain, childEq, walked]
  -- the links afterwards
  obtain ⟨before, after, prev, place, split⟩ := styleLinks_fill backwards hole (.cons label kids rest)
  rw [← isTurned.links, styleLinks, ← place] at split
  have turnedChild : turnedNode.child = (rootIndices (before.length + 1) kids).getLast? := by
    have links := congrArg (fun list => list[before.length]?) split
    rw [List.getElem?_map, place, turnedFound, ← place] at links
    simp only [Option.map_some, List.getElem?_append_right (Nat.le_refl _), Nat.sub_self,
      List.cons_append, List.getElem?_cons_zero, Option.some.injEq] at links
    exact congrArg Forest.Links.child links
  rw [turnedChild, ← List.head?_reverse, ← place]
  apply siblings_of_next
  · intro first other last listed
    have forwardList : rootIndices (before.length + 1) kids =
        last.reverse ++ other :: first.reverse := by
      rw [← List.reverse_reverse (rootIndices _ _), listed]
      simp
    let top : Forest.Links := ⟨hole.parent, prev, backwards.child (before.length + 1) kids⟩
    have kidsStart : (before ++ [top]).length = before.length + 1 := by simp
    obtain ⟨links, linkFound, isNext⟩ := @next_of_backwards kids (some before.length) none
      (before ++ [top])
      (styleLinks backwards hole.parent (some before.length) (before.length + kids.size + 1) rest ++
        after) other last.reverse first.reverse (by rw [kidsStart, forwardList])
    rw [kidsStart] at linkFound
    have inTurned : (turned.map AyYnode.links)[other]? = some links := by
      rw [← linkFound, split]
      simp [top, backwards]
    rw [List.getElem?_map, Option.map_eq_some_iff] at inTurned
    obtain ⟨otherNode, otherFound, sameLinks⟩ := inTurned
    refine ⟨otherNode, otherFound, ?_⟩
    have nextEq : otherNode.next = links.next := congrArg Forest.Links.next sameLinks
    rw [nextEq, isNext, List.getLast?_reverse, Option.or_none]
  · have short := length_rootIndices_le kids (before.length + 1)
    rw [List.length_reverse, turnedLength, Forest.Hole.size_fill, Forest.size]
    omega

end Turning

section Deletion

variable {forest : Forest Core} {nodes turned : List AyYnode} {tree after : YnodeTree}
  {change : Nat → Nat}

theorem links_changeAncestors (fuel : Nat) (start : Option Nat) (nodes : List AyYnode) :
    (changeAncestors change fuel start nodes).map AyYnode.links = nodes.map AyYnode.links := by
  induction fuel generalizing start nodes with
  | zero => rfl
  | succ fuel inductionHypothesis =>
      cases start with
      | none => rfl
      | some iter =>
          rw [changeAncestors]
          split
          · rw [inductionHypothesis]
            exact map_modify_same fun _ => rfl
          · rfl

theorem unlinked_modify (index : Nat) (nodes : List AyYnode) :
    (nodes.modify index fun node => { node with descendants := change node.descendants }).map
        AyYnode.unlinked =
      (nodes.map AyYnode.unlinked).modify index fun node =>
        { node with descendants := change node.descendants } := by
  apply List.ext_getElem?
  intro position
  simp only [List.getElem?_map, List.getElem?_modify]
  cases nodes[position]? with
  | none => rfl
  | some node => by_cases here : index = position <;> simp [here, AyYnode.unlinked]

theorem find_of_unlinked (same : turned.map AyYnode.unlinked = nodes.map AyYnode.unlinked)
    (index : Nat) : (turned[index]?).map AyYnode.unlinked = (nodes[index]?).map AyYnode.unlinked := by
  rw [← List.getElem?_map, same, List.getElem?_map]

/-- The ancestors are found by links that are not turned. -/
theorem unlinked_changeAncestors (same : turned.map AyYnode.unlinked = nodes.map AyYnode.unlinked)
    (fuel : Nat) (start : Option Nat) :
    (changeAncestors change fuel start turned).map AyYnode.unlinked =
      (changeAncestors change fuel start nodes).map AyYnode.unlinked := by
  induction fuel generalizing start nodes turned with
  | zero => exact same
  | succ fuel inductionHypothesis =>
      cases start with
      | none => exact same
      | some iter =>
          have sameNode := find_of_unlinked same iter
          rw [changeAncestors, changeAncestors]
          cases found : nodes[iter]? with
          | none =>
              rw [found, Option.map_none, Option.map_eq_none_iff] at sameNode
              rw [sameNode]
              exact same
          | some node =>
              rw [found, Option.map_some, Option.map_eq_some_iff] at sameNode
              obtain ⟨turnedNode, turnedFound, sameRest⟩ := sameNode
              have parentEq : turnedNode.parent = node.parent := by
                have parents := congrArg AyYnode.parent sameRest
                exact parents
              rw [turnedFound]
              dsimp only
              rw [parentEq]
              apply inductionHypothesis
              rw [unlinked_modify, unlinked_modify, same]

/-- Deleting the root deletes everything. -/
theorem deleteSubtree_root (encoded : cells tree.nodes = forest.flat)
    (single : forest = .nil ∨ IsTree forest) (alone : RootAlone tree.nodes) :
    ayYnodeDeleteSubtree tree 0 =
      if tree.nodes = [] then none else some { tree with nodes := [] } := by
  rcases single with rfl | ⟨label, kids, rfl⟩
  · have noNodes : tree.nodes = [] := List.map_eq_nil_iff.mp encoded
    rw [if_pos noNodes, ayYnodeDeleteSubtree, noNodes]
    rfl
  · obtain ⟨root, kidNodes, restNodes, nodesEq, rootCell, kidCells, restCells⟩ :=
      exists_split_of_cells encoded
    obtain rfl : restNodes = [] := List.map_eq_nil_iff.mp restCells
    have noParent := (alone root (by rw [nodesEq]; rfl)).1
    have count : root.descendants = kidNodes.length :=
      (congrArg Prod.snd rootCell).trans (length_of_cells kidCells).symm
    have found : tree.nodes[0]? = some root := by rw [nodesEq]; rfl
    rw [if_neg (by rw [nodesEq]; simp), ayYnodeDeleteSubtree, found]
    simp only [Option.bind_eq_bind, Option.bind_some, ayYnodeDeleteGapRange, noParent, onAncestors,
      nodesEq, List.append_nil, List.length_cons, changeAncestors, count, List.take_zero,
      List.nil_append, Nat.zero_add]
    rw [List.drop_eq_nil_of_le (by simp)]
    rfl

/-- A deletion is that of the root or an edit below it. -/
theorem deleteSubtree_edited {index : Nat} (whole : Whole tree.nodes forest) (notRoot : index ≠ 0)
    (result : ayYnodeDeleteSubtree tree index = some after) :
    ∃ newForest, Edited tree newForest 0 after := by
  have bound : index < forest.size := by
    rw [← length_of_cells whole.encodes.cells]
    by_contra outside
    rw [ayYnodeDeleteSubtree, List.getElem?_eq_none (by omega)] at result
    cases result
  have isTree : IsTree forest := by
    rcases whole.single with rfl | isTree
    · cases bound
    · exact isTree
  obtain ⟨other, isOther, edited⟩ := ayYnodeDeleteSubtree_edited whole.encodes isTree notRoot bound
  rw [result, Option.some.injEq] at isOther
  subst isOther
  exact ⟨_, edited⟩

theorem deleteSubtree_whole {index : Nat} (whole : Whole tree.nodes forest)
    (result : ayYnodeDeleteSubtree tree index = some after) :
    ∃ newForest, Whole after.nodes newForest := by
  by_cases isRoot : index = 0
  · subst isRoot
    rw [deleteSubtree_root whole.encodes.cells whole.single whole.rootAlone] at result
    split at result
    · cases result
    · rw [← Option.some.inj result]
      exact ⟨.nil, ⟨rfl, rfl⟩, .inl rfl⟩
  · obtain ⟨newForest, edited⟩ := deleteSubtree_edited whole isRoot result
    exact ⟨newForest, edited.encodes, .inr edited.isTree⟩

/-- The array of a deletion before it is corrected. -/
def withoutSubtree (nodes : List AyYnode) (index : Nat) (node : AyYnode) : List AyYnode :=
  (onAncestors (· - (node.descendants + 1)) node.parent nodes).take index ++
    (onAncestors (· - (node.descendants + 1)) node.parent nodes).drop
      (index + (node.descendants + 1))

theorem ayYnodeDeleteSubtree_eq {index : Nat} {node : AyYnode}
    (found : tree.nodes[index]? = some node) :
    ayYnodeDeleteSubtree tree index =
      some { tree with nodes := ayYnodeTreeCorrection (withoutSubtree tree.nodes index node) } := by
  rw [ayYnodeDeleteSubtree, found]
  rfl

theorem unlinked_withoutSubtree (same : turned.map AyYnode.unlinked = nodes.map AyYnode.unlinked)
    (index : Nat) {node turnedNode : AyYnode} (sameNode : turnedNode.unlinked = node.unlinked) :
    (withoutSubtree turned index turnedNode).map AyYnode.unlinked =
      (withoutSubtree nodes index node).map AyYnode.unlinked := by
  have parentEq : turnedNode.unlinked.parent = node.unlinked.parent := by rw [sameNode]
  have countEq : turnedNode.unlinked.descendants = node.unlinked.descendants := by rw [sameNode]
  change turnedNode.parent = node.parent at parentEq
  change turnedNode.descendants = node.descendants at countEq
  have lengths : turned.length = nodes.length := by
    rw [← List.length_map AyYnode.unlinked, same, List.length_map]
  have counted := @unlinked_changeAncestors _ _ (· - (node.descendants + 1)) same nodes.length
    node.parent
  rw [withoutSubtree, withoutSubtree, parentEq, countEq, onAncestors, onAncestors, lengths]
  simp only [List.map_append, List.map_take, List.map_drop, counted]

theorem rootAlone_withoutSubtree (alone : RootAlone nodes) {index : Nat} (notRoot : index ≠ 0)
    {node : AyYnode} (found : nodes[index]? = some node) :
    RootAlone (withoutSubtree nodes index node) := by
  apply RootAlone.take_append
  · exact alone.of_links (links_changeAncestors _ _ _)
  · omega
  · intro empty
    have links := @links_changeAncestors (· - (node.descendants + 1)) nodes.length node.parent nodes
    rw [onAncestors] at empty
    rw [empty, List.map_nil, eq_comm, List.map_eq_nil_iff] at links
    rw [links] at found
    cases found

/-- The order of the siblings does not matter for a deletion, which restores it. -/
theorem deleteSubtree_turned (index : Nat) (whole : Whole tree.nodes forest)
    (isTurned : Turned tree.nodes turned forest) :
    ayYnodeDeleteSubtree { tree with nodes := turned } index = ayYnodeDeleteSubtree tree index := by
  have turnedCells : cells turned = forest.flat :=
    (cells_of_unlinked isTurned.same).trans whole.encodes.cells
  have turnedAlone := isTurned.rootAlone whole
  by_cases isRoot : index = 0
  · have lengths : turned.length = tree.nodes.length :=
      (length_of_cells turnedCells).trans (length_of_cells whole.encodes.cells).symm
    subst isRoot
    rw [deleteSubtree_root whole.encodes.cells whole.single whole.rootAlone,
      @deleteSubtree_root _ { tree with nodes := turned } turnedCells whole.single turnedAlone]
    simp only [← List.length_eq_zero_iff, lengths]
  · have sameNode := find_of_unlinked isTurned.same index
    cases found : tree.nodes[index]? with
    | none =>
        rw [found, Option.map_none, Option.map_eq_none_iff] at sameNode
        simp only [ayYnodeDeleteSubtree, found, sameNode, Option.bind_eq_bind, Option.bind_none]
    | some node =>
        rw [found, Option.map_some, Option.map_eq_some_iff] at sameNode
        obtain ⟨turnedNode, turnedFound, sameRest⟩ := sameNode
        have plainResult := ayYnodeDeleteSubtree_eq found
        obtain ⟨newForest, edited⟩ := deleteSubtree_edited whole isRoot plainResult
        have same := unlinked_withoutSubtree isTurned.same index sameRest
        have plainCells : cells (withoutSubtree tree.nodes index node) = newForest.flat := by
          rw [← edited.encodes.cells]
          exact (treeCorrection_same (fun _ _ _ _ => rfl) _).symm
        have correctedTurned : Encodes
            (ayYnodeTreeCorrection (withoutSubtree turned index turnedNode)) newForest := by
          apply encodes_of_cells _ edited.isTree (rootAlone_withoutSubtree turnedAlone isRoot turnedFound)
          rw [cells_of_unlinked same, plainCells]
        rw [plainResult, @ayYnodeDeleteSubtree_eq { tree with nodes := turned } _ _ turnedFound]
        rw [Option.some.injEq, YnodeTree.mk.injEq]
        refine ⟨eq_of_map_bare ?_ ?_, rfl, rfl⟩
        · rw [treeCorrection_same fun _ _ _ _ => rfl, treeCorrection_same fun _ _ _ _ => rfl]
          exact bare_of_unlinked same
        · exact correctedTurned.links.trans edited.encodes.links.symm

theorem deleteSubtrees_whole {round : List Nat} (whole : Whole tree.nodes forest)
    (result : round.foldlM ayYnodeDeleteSubtree tree = some after) :
    ∃ newForest, Whole after.nodes newForest := by
  induction round generalizing tree forest with
  | nil =>
      cases result
      exact ⟨forest, whole⟩
  | cons index rest inductionHypothesis =>
      obtain ⟨next, first, others⟩ := Option.bind_eq_some_iff.mp result
      obtain ⟨newForest, nextWhole⟩ := deleteSubtree_whole whole first
      exact inductionHypothesis nextWhole others

/-- Deletions in the reversed order and another reversal. -/
theorem deleteReversed_turned {round : List Nat} (nonempty : round ≠ [])
    (whole : Whole tree.nodes forest) (isTurned : Turned tree.nodes turned forest)
    (result : round.foldlM ayYnodeDeleteSubtree tree = some after) :
    ∃ newForest newTurned, Whole after.nodes newForest ∧
      Turned after.nodes newTurned newForest ∧
      deleteReversed { tree with nodes := turned } round =
        some { after with nodes := newTurned } := by
  obtain ⟨newForest, newWhole⟩ := deleteSubtrees_whole whole result
  obtain ⟨newTurned, reversed, newIsTurned⟩ := siblingsReverse_turned newWhole
  refine ⟨newForest, newTurned, newWhole, newIsTurned, ?_⟩
  cases round with
  | nil => exact absurd rfl nonempty
  | cons index rest =>
      rw [List.foldlM_cons] at result
      rw [deleteReversed, List.foldlM_cons, deleteSubtree_turned index whole isTurned, result,
        Option.bind_some, reversed, Option.map_some]

/-- Rounds of deletions in the reversed order. -/
theorem deleteReversed_rounds {rounds : List (List Nat)} (nonempty : [] ∉ rounds)
    (whole : Whole tree.nodes forest) (isTurned : Turned tree.nodes turned forest)
    (result : rounds.flatten.foldlM ayYnodeDeleteSubtree tree = some after) :
    ∃ newForest newTurned, Whole after.nodes newForest ∧
      Turned after.nodes newTurned newForest ∧
      rounds.foldlM deleteReversed { tree with nodes := turned } =
        some { after with nodes := newTurned } := by
  induction rounds generalizing tree forest turned with
  | nil =>
      cases result
      exact ⟨forest, turned, whole, isTurned, rfl⟩
  | cons round rest inductionHypothesis =>
      rw [List.mem_cons, not_or] at nonempty
      rw [List.flatten_cons, List.foldlM_append] at result
      obtain ⟨next, first, others⟩ := Option.bind_eq_some_iff.mp result
      obtain ⟨nextForest, nextTurned, nextWhole, nextIsTurned, ran⟩ :=
        deleteReversed_turned (Ne.symm nonempty.1) whole isTurned first
      obtain ⟨newForest, newTurned, newWhole, newIsTurned, restRan⟩ :=
        inductionHypothesis nonempty.2 nextWhole nextIsTurned others
      refine ⟨newForest, newTurned, newWhole, newIsTurned, ?_⟩
      rw [List.foldlM_cons, ran]
      exact restRan

/-- The siblings are reversed and restored, also around deletions. -/
theorem ayYnodeSiblingsReverse_restored (whole : Whole tree.nodes forest) :
    ∃ turned, ayYnodeSiblingsReverse tree.nodes = some turned ∧
      SiblingsReversed tree.nodes turned ∧ ayYnodeSiblingsReverseBack turned = some tree.nodes ∧
      ∀ (rounds : List (List Nat)) (after : YnodeTree), [] ∉ rounds →
        rounds.flatten.foldlM ayYnodeDeleteSubtree tree = some after →
        ∃ newTurned, rounds.foldlM deleteReversed { tree with nodes := turned } =
            some { after with nodes := newTurned } ∧
          SiblingsReversed after.nodes newTurned ∧
          ayYnodeSiblingsReverseBack newTurned = some after.nodes := by
  obtain ⟨turned, reversed, isTurned⟩ := siblingsReverse_turned whole
  refine ⟨turned, reversed, isTurned.siblingsReversed whole.encodes,
    siblingsReverseBack_restores whole isTurned, fun rounds after nonempty result => ?_⟩
  obtain ⟨newForest, newTurned, newWhole, newIsTurned, ran⟩ :=
    deleteReversed_rounds nonempty whole isTurned result
  exact ⟨newTurned, ran, newIsTurned.siblingsReversed newWhole.encodes,
    siblingsReverseBack_restores newWhole newIsTurned⟩

/-- The first child is deleted while the siblings are reversed. -/
theorem ayYnodeSiblingsReverse_restored_small :
    ∃ turned after newTurned, ayYnodeSiblingsReverse smallTree.nodes = some turned ∧
      SiblingsReversed smallTree.nodes turned ∧
      ayYnodeSiblingsReverseBack turned = some smallTree.nodes ∧
      ayYnodeDeleteSubtree smallTree 1 = some after ∧
      deleteReversed { smallTree with nodes := turned } [1] =
        some { after with nodes := newTurned } ∧
      SiblingsReversed after.nodes newTurned ∧
      ayYnodeSiblingsReverseBack newTurned = some after.nodes := by
  have whole : Whole smallTree.nodes smallForest := ⟨⟨by decide, by decide⟩, .inr ⟨_, _, rfl⟩⟩
  obtain ⟨turned, reversed, isReversed, restored, rounds⟩ := ayYnodeSiblingsReverse_restored whole
  obtain ⟨after, deleted⟩ : ∃ after, ayYnodeDeleteSubtree smallTree 1 = some after :=
    Option.isSome_iff_exists.mp (by decide)
  obtain ⟨newTurned, ran, isNewReversed, newRestored⟩ := rounds [[1]] after (by decide) (by
    rw [List.flatten_singleton, List.foldlM_cons, deleted]
    rfl)
  refine ⟨turned, after, newTurned, reversed, isReversed, restored, deleted, ?_, isNewReversed,
    newRestored⟩
  simpa using ran

end Deletion

end SysrepoAugeas.Ynode
