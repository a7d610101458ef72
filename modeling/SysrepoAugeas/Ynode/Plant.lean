import SysrepoAugeas.Ynode.Ids
import SysrepoAugeas.Ynode.Project

/-!
# The root above the forest

The correction links everything below the top nodes, which then get their
siblings and, one place further on, the root as parent.
-/

namespace SysrepoAugeas.Ynode

open SysrepoAugeas.Data

section Tops

/-- Links of a forest whose top nodes are linked by `top`, from their index, the number of
their descendants and the size of what is behind them. -/
def linksWith (top : Nat → Nat → Nat → Forest.Links) (start : Nat) :
    Forest Core → List Forest.Links
  | .nil => []
  | .cons _ kids rest =>
      top start kids.size rest.size ::
        (kids.links (start + 1) (some start) ++ linksWith top (start + kids.size + 1) rest)

theorem links_eq_linksWith (forest : Forest Core) (start : Nat) (parent : Option Nat) :
    forest.links start parent = linksWith (fun start kids rest =>
      ⟨parent, if rest = 0 then none else some (start + kids + 1),
        if kids = 0 then none else some (start + 1)⟩) start forest := by
  induction forest generalizing start with
  | nil => rfl
  | cons label kids rest _ restHypothesis =>
      simp only [Forest.links, linksWith, restHypothesis]

/-- A part of the array with the nodes of a forest. -/
structure Stands (top : Nat → Nat → Nat → Forest.Links) (start : Nat) (forest : Forest Core)
    (nodes : List AyYnode) : Prop where
  cells : cells nodes = forest.flat
  links : nodes.map AyYnode.links = linksWith top start forest

variable {top newTop : Nat → Nat → Nat → Forest.Links} {start : Nat} {label : Core}
  {forest kids rest : Forest Core} {nodes before after : List AyYnode}

theorem Stands.split (stands : Stands top start (.cons label kids rest) nodes) :
    ∃ node kidNodes restNodes, nodes = node :: (kidNodes ++ restNodes) ∧
      node.cell = (label, kids.size) ∧ node.links = top start kids.size rest.size ∧
      Ynode.cells kidNodes = kids.flat ∧
      kidNodes.map AyYnode.links = kids.links (start + 1) (some start) ∧
      Stands top (start + kids.size + 1) rest restNodes := by
  obtain ⟨node, kidNodes, restNodes, rfl, nodeCell, kidCells, restCells⟩ :=
    exists_split_of_cells stands.cells
  have links := stands.links
  rw [List.map_cons, List.map_append, linksWith, List.cons.injEq] at links
  obtain ⟨nodeLinks, belowLinks⟩ := links
  have lengths : (kidNodes.map AyYnode.links).length =
      (kids.links (start + 1) (some start)).length := by
    rw [List.length_map, length_of_cells kidCells, Forest.length_links]
  obtain ⟨kidLinks, restLinks⟩ := List.append_inj belowLinks lengths
  exact ⟨node, kidNodes, restNodes, rfl, nodeCell, nodeLinks, kidCells, kidLinks, restCells,
    restLinks⟩

theorem Stands.join {node : AyYnode} {kidNodes restNodes : List AyYnode}
    (nodeCell : node.cell = (label, kids.size))
    (nodeLinks : node.links = top start kids.size rest.size)
    (kidCells : Ynode.cells kidNodes = kids.flat)
    (kidLinks : kidNodes.map AyYnode.links = kids.links (start + 1) (some start))
    (restStands : Stands top (start + kids.size + 1) rest restNodes) :
    Stands top start (.cons label kids rest) (node :: (kidNodes ++ restNodes)) := by
  constructor
  · rw [cells_cons, cells_append, nodeCell, kidCells, restStands.cells, Forest.flat]
  · rw [List.map_cons, List.map_append, nodeLinks, kidLinks, restStands.links, linksWith]

/-- Links of top nodes after the correction. -/
def childOnly (start kids _rest : Nat) : Forest.Links :=
  ⟨none, none, if kids = 0 then none else some (start + 1)⟩

/-- The outer loop of the correction over a forest of nodes without any links. -/
theorem foldl_correctParent_tops (forest : Forest Core) (encoded : cells nodes = forest.flat)
    (unlinked : ∀ node ∈ nodes, node.parent = none ∧ node.next = none) :
    ∃ linkedNodes, Stands childOnly before.length forest linkedNodes ∧
      (List.range' before.length forest.size).foldl correctParent (before ++ (nodes ++ after)) =
        before ++ (linkedNodes ++ after) := by
  induction forest generalizing before nodes after with
  | nil =>
      obtain rfl : nodes = [] := by simpa [cells, Forest.flat] using encoded
      exact ⟨[], ⟨rfl, rfl⟩, rfl⟩
  | cons label kids rest _ restHypothesis =>
      obtain ⟨node, kidNodes, restNodes, rfl, nodeCell, kidCells, restCells⟩ :=
        exists_split_of_cells encoded
      obtain ⟨noParent, noNext⟩ := unlinked node (by simp)
      have count : node.descendants = kids.size := congrArg Prod.snd nodeCell
      let node' := { node with child := if kids.size = 0 then none else some (before.length + 1) }
      have nodeLinks : node'.links = childOnly before.length kids.size rest.size := by
        simp [node', AyYnode.links, childOnly, noParent, noNext]
      have newCell : node'.cell = (label, kids.size) := nodeCell
      have linkedKids := cells_linkAll (before.length + 1) (some before.length) kids kidNodes kidCells
      have kidLength : (linkAll (before.length + 1) (some before.length) kids kidNodes).length =
          kids.size := by
        rw [← length_cells, linkedKids.1, Forest.length_flat]
      -- this node, what is below it, and its siblings
      have first := @correctParent_split kids node _ before (restNodes ++ after) count kidCells
      have second := @foldl_correctParent kids (some before.length) (before ++ [node']) _
        (restNodes ++ after) kidCells
      obtain ⟨linkedRest, restStands, third⟩ := @restHypothesis restNodes
        (before ++ node' :: linkAll (before.length + 1) (some before.length) kids kidNodes) after
        restCells fun other member => unlinked other (by simp [member])
      have restStart : (before ++
          node' :: linkAll (before.length + 1) (some before.length) kids kidNodes).length =
            before.length + kids.size + 1 := by
        rw [List.length_append, List.length_cons, kidLength]
        omega
      rw [restStart] at restStands third
      refine ⟨_, Stands.join newCell nodeLinks linkedKids.1 linkedKids.2 restStands, ?_⟩
      have ranges : List.range' before.length (Forest.cons label kids rest).size =
          before.length :: (List.range' (before.length + 1) kids.size ++
            List.range' (before.length + kids.size + 1) rest.size) := by
        have shifted : before.length + 1 + kids.size = before.length + kids.size + 1 := by omega
        rw [Forest.size, List.range'_succ, ← List.range'_append_1, shifted]
      simp only [List.length_append, List.length_cons, List.length_nil, Nat.zero_add,
        List.append_assoc, List.cons_append, List.nil_append] at first second third ⊢
      rw [ranges, List.foldl_cons, List.foldl_append, first, second, third]

/-- A loop over the top nodes. -/
theorem foldl_modify_tops {change : Nat → AyYnode → AyYnode}
    (sameCell : ∀ index node, (change index node).cell = node.cell)
    (relinks : ∀ index node rest, node.links = top index node.descendants rest →
      (change index node).links = newTop index node.descendants rest)
    (stands : Stands top before.length forest nodes) :
    ∃ changed, Stands newTop before.length forest changed ∧
      (rootIndices before.length forest).foldl (fun nodes index =>
          nodes.modify index (change index)) (before ++ (nodes ++ after)) =
        before ++ (changed ++ after) := by
  induction forest generalizing before nodes with
  | nil =>
      obtain rfl : nodes = [] := by simpa [cells, Forest.flat] using stands.cells
      exact ⟨[], ⟨rfl, rfl⟩, rfl⟩
  | cons label kids rest _ restHypothesis =>
      obtain ⟨node, kidNodes, restNodes, rfl, nodeCell, nodeLinks, kidCells, kidLinks,
        restStands⟩ := stands.split
      have count : node.descendants = kids.size := congrArg Prod.snd nodeCell
      have restStart : (before ++ change before.length node :: kidNodes).length =
          before.length + kids.size + 1 := by
        rw [List.length_append, List.length_cons, length_of_cells kidCells]
        omega
      have next := @restHypothesis restNodes (before ++ change before.length node :: kidNodes)
      rw [restStart] at next
      obtain ⟨changedRest, changedStands, changes⟩ := next restStands
      refine ⟨change before.length node :: (kidNodes ++ changedRest),
        Stands.join ((sameCell _ _).trans nodeCell) ?_ kidCells kidLinks changedStands, ?_⟩
      · rw [relinks before.length node rest.size (by rw [nodeLinks, count]), count]
      · rw [rootIndices, List.foldl_cons, List.cons_append, modify_split]
        simpa using changes

/-- A change of the last top node. -/
theorem modify_last_top {change : AyYnode → AyYnode} {last : Nat}
    (sameCell : ∀ node, (change node).cell = node.cell)
    (relinks : ∀ index node, node.links = top index node.descendants 0 →
      (change node).links = newTop index node.descendants 0)
    (others : ∀ index kids rest, rest ≠ 0 → top index kids rest = newTop index kids rest)
    (stands : Stands top before.length forest nodes)
    (isLast : (rootIndices before.length forest).getLast? = some last) :
    ∃ changed, Stands newTop before.length forest changed ∧
      (before ++ (nodes ++ after)).modify last change = before ++ (changed ++ after) := by
  induction forest generalizing before nodes with
  | nil => simp [rootIndices] at isLast
  | cons label kids rest _ restHypothesis =>
      obtain ⟨node, kidNodes, restNodes, rfl, nodeCell, nodeLinks, kidCells, kidLinks,
        restStands⟩ := stands.split
      have count : node.descendants = kids.size := congrArg Prod.snd nodeCell
      by_cases only : rest.size = 0
      · obtain rfl := Forest.eq_nil_of_size only
        obtain rfl : before.length = last := by simpa [rootIndices] using isLast
        obtain rfl : restNodes = [] := by simpa [cells, Forest.flat] using restStands.cells
        refine ⟨change node :: (kidNodes ++ []),
          Stands.join ((sameCell _).trans nodeCell) ?_ kidCells kidLinks ⟨rfl, rfl⟩, ?_⟩
        · rw [Forest.size, ← count, relinks before.length node (by rw [nodeLinks, count, Forest.size])]
        · rw [List.cons_append, modify_split]
          rfl
      · have restStart : (before ++ node :: kidNodes).length = before.length + kids.size + 1 := by
          rw [List.length_append, List.length_cons, length_of_cells kidCells]
          omega
        have next := @restHypothesis restNodes (before ++ node :: kidNodes)
        rw [restStart] at next
        have isLastOfRest :
            (rootIndices (before.length + kids.size + 1) rest).getLast? = some last := by
          obtain ⟨restLabel, restKids, restRest, rfl⟩ := exists_cons_of_size only
          rw [rootIndices, rootIndices, List.getLast?_cons_cons] at isLast
          rw [rootIndices]
          exact isLast
        obtain ⟨changedRest, changedStands, changes⟩ := next restStands isLastOfRest
        refine ⟨node :: (kidNodes ++ changedRest),
          Stands.join nodeCell (nodeLinks.trans (others _ _ _ only)) kidCells kidLinks
            changedStands, ?_⟩
        simpa using changes

/-- Below the top nodes everything has a parent. -/
theorem parent_of_mem_links {forest : Forest Core} {start parent : Nat} {found : Forest.Links}
    (member : found ∈ forest.links start (some parent)) : found.parent ≠ none := by
  induction forest generalizing start parent with
  | nil => simp [Forest.links] at member
  | cons label kids rest kidsHypothesis restHypothesis =>
      rw [Forest.links, List.mem_cons, List.mem_append] at member
      rcases member with rfl | below | behindIt
      · simp
      · exact kidsHypothesis below
      · exact restHypothesis behindIt

/-- The top nodes are those without a parent. -/
theorem filter_parent_eq (noParent : ∀ index kids rest, (top index kids rest).parent = none)
    (stands : Stands top before.length forest nodes) :
    (List.range' before.length forest.size).filter (fun index =>
      ((before ++ (nodes ++ after))[index]?.bind AyYnode.parent).isNone) =
        rootIndices before.length forest := by
  induction forest generalizing before nodes with
  | nil => rfl
  | cons label kids rest _ restHypothesis =>
      obtain ⟨node, kidNodes, restNodes, rfl, -, nodeLinks, kidCells, kidLinks, restStands⟩ :=
        stands.split
      have kidLength := length_of_cells kidCells
      have restStart : (before ++ node :: kidNodes).length = before.length + kids.size + 1 := by
        rw [List.length_append, List.length_cons, kidLength]
        omega
      have next := @restHypothesis restNodes (before ++ node :: kidNodes)
      rw [restStart] at next
      have restTops := next restStands
      have ranges : List.range' before.length (Forest.cons label kids rest).size =
          before.length :: (List.range' (before.length + 1) kids.size ++
            List.range' (before.length + kids.size + 1) rest.size) := by
        have shifted : before.length + 1 + kids.size = before.length + kids.size + 1 := by omega
        rw [Forest.size, List.range'_succ, ← List.range'_append_1, shifted]
      have regroup : before ++ (node :: (kidNodes ++ restNodes) ++ after) =
          before ++ node :: kidNodes ++ (restNodes ++ after) := by simp
      have isTop : node.parent = none := by
        rw [← noParent before.length kids.size rest.size, ← nodeLinks]
        rfl
      have kidsBelow : (List.range' (before.length + 1) kids.size).filter (fun index =>
          ((before ++ (node :: (kidNodes ++ restNodes) ++ after))[index]?.bind
            AyYnode.parent).isNone) = [] := by
        refine List.filter_eq_nil_iff.mpr fun index member => ?_
        rw [List.mem_range'_1] at member
        have found : (before ++ (node :: (kidNodes ++ restNodes) ++ after))[index]? =
            kidNodes[index - (before.length + 1)]? := by
          rw [regroup, List.getElem?_append_left (by rw [restStart]; omega),
            List.getElem?_append_right (by omega)]
          rw [show index - before.length = index - (before.length + 1) + 1 by omega,
            List.getElem?_cons_succ]
        have inside : index - (before.length + 1) < kidNodes.length := by omega
        have linked : kidNodes[index - (before.length + 1)].links ∈
            kids.links (before.length + 1) (some before.length) := by
          rw [← kidLinks]
          exact List.mem_map_of_mem (List.getElem_mem inside)
        have hasParent := parent_of_mem_links linked
        rw [found, List.getElem?_eq_getElem inside, Option.bind_some]
        simpa [AyYnode.links] using hasParent
      have here : (before ++ (node :: (kidNodes ++ restNodes) ++ after))[before.length]? =
          some node := by simp
      rw [ranges, List.filter_cons_of_pos (by rw [here, Option.bind_some, isTop]; rfl),
        List.filter_append, kidsBelow, List.nil_append, rootIndices, regroup, restTops]

/-- The subtrees of the top nodes make up the forest. -/
theorem sum_tops (encoded : cells nodes = forest.flat) :
    ((rootIndices before.length forest).map fun iter =>
      (((before ++ nodes)[iter]?.map AyYnode.descendants).getD 0) + 1).sum = forest.size := by
  induction forest generalizing before nodes with
  | nil => rfl
  | cons label kids rest _ restHypothesis =>
      obtain ⟨node, kidNodes, restNodes, rfl, nodeCell, kidCells, restCells⟩ :=
        exists_split_of_cells encoded
      have count : node.descendants = kids.size := congrArg Prod.snd nodeCell
      have restStart : (before ++ node :: kidNodes).length = before.length + kids.size + 1 := by
        rw [List.length_append, List.length_cons, length_of_cells kidCells]
        omega
      have next := @restHypothesis restNodes (before ++ node :: kidNodes) restCells
      have found : (before ++ node :: (kidNodes ++ restNodes))[before.length]? = some node := by simp
      have regroup : before ++ node :: (kidNodes ++ restNodes) =
          before ++ node :: kidNodes ++ restNodes := by simp
      rw [restStart, ← regroup] at next
      rw [rootIndices, List.map_cons, List.sum_cons, found, Option.map_some, Option.getD_some, count,
        next, Forest.size]
      omega

end Tops

section Planted

variable {forest : Forest Core} {nodes : List AyYnode}

/-- After the correction and the connection of the top nodes the array encodes the forest. -/
theorem encodes_connected (encoded : cells nodes = forest.flat)
    (unlinked : ∀ node ∈ nodes, node.parent = none ∧ node.next = none) :
    Encodes (ayYnodeForestConnectTopnodes (ayYnodeTreeCorrection nodes)) forest := by
  obtain ⟨corrected, stands, loop⟩ := @foldl_correctParent_tops nodes [] [] forest encoded unlinked
  simp only [List.length_nil, List.nil_append, List.append_nil] at stands loop
  have range : List.range nodes.length = List.range' 0 forest.size := by
    rw [List.range_eq_range', length_of_cells encoded]
  have tops := @filter_parent_eq childOnly forest corrected [] [] (fun _ _ _ => rfl) stands
  simp only [List.length_nil, List.nil_append, List.append_nil] at tops
  obtain ⟨connected, connectedStands, connects⟩ := @foldl_modify_tops childOnly
    (fun start kids _ => ⟨none, some (start + kids + 1), if kids = 0 then none else some (start + 1)⟩)
    forest corrected [] [] (fun index node =>
      { node with next := some (index + node.descendants + 1) }) (fun _ _ => rfl)
    (fun index node rest linked => by
      simp only [childOnly, AyYnode.links, Forest.Links.mk.injEq] at linked ⊢
      exact ⟨linked.1, trivial, linked.2.2⟩) stands
  simp only [List.length_nil, List.nil_append, List.append_nil] at connectedStands connects
  have length := length_of_cells stands.cells
  rw [ayYnodeTreeCorrection, range, loop, ayYnodeForestConnectTopnodes]
  simp only [List.range_eq_range', length, tops, connects]
  cases isLast : (rootIndices 0 forest).getLast? with
  | none =>
      cases forest with
      | nil =>
          obtain rfl : connected = [] := by simpa [cells, Forest.flat] using connectedStands.cells
          exact ⟨rfl, rfl⟩
      | cons label kids rest => simp [rootIndices] at isLast
  | some last =>
      obtain ⟨finished, finishedStands, finishes⟩ := @modify_last_top _
        (fun start kids rest => ⟨none, if rest = 0 then none else some (start + kids + 1),
          if kids = 0 then none else some (start + 1)⟩) forest connected [] [] (fun node =>
        { node with next := none }) last (fun _ => rfl) (fun index node linked => by
          simp only [AyYnode.links, Forest.Links.mk.injEq] at linked ⊢
          exact ⟨linked.1, by simp, linked.2.2⟩) (fun index kids rest more => by simp [more])
        connectedStands isLast
      simp only [List.length_nil, List.nil_append, List.append_nil] at finishedStands finishes
      simp only [finishes]
      exact ⟨finishedStands.cells, by rw [links_eq_linksWith, finishedStands.links]⟩

theorem links_shift (forest : Forest Core) (start : Nat) (parent : Option Nat) :
    (forest.links start parent).map (fun links =>
        (⟨links.parent.map (· + 1), links.next.map (· + 1), links.child.map (· + 1)⟩ :
          Forest.Links)) = forest.links (start + 1) (parent.map (· + 1)) := by
  induction forest generalizing start parent with
  | nil => rfl
  | cons label kids rest kidsHypothesis restHypothesis =>
      have ends : start + kids.size + 1 + 1 = start + 1 + kids.size + 1 := by omega
      simp only [Forest.links, List.map_cons, List.map_append, kidsHypothesis, restHypothesis,
        Option.map_some, apply_ite (Option.map (· + 1)), Option.map_none, ends]

/-- Label of the root. -/
def rootCore : Core := { Core.blank 0 with type := .ynRoot }

/-- The root is put above a forest. -/
theorem encodes_planted (encodes : Encodes nodes forest) :
    ∃ tree, ayYnodeSetRoot nodes = some tree ∧
      Encodes tree.nodes (.cons rootCore forest .nil) := by
  obtain ⟨shifted, isShifted, encoded, linked⟩ : ∃ shifted,
      ayYnodeShiftRight nodes = AyYnode.blank 0 :: shifted ∧ cells shifted = forest.flat ∧
        shifted.map AyYnode.links = forest.links 1 none := by
    refine ⟨_, rfl, ?_, ?_⟩
    · rw [cells, List.map_map, ← encodes.cells]
      rfl
    · have shifts := links_shift forest 0 none
      rw [Nat.zero_add, Option.map_none] at shifts
      rw [List.map_map, ← shifts, ← encodes.links, List.map_map]
      rfl
  have length := length_of_cells encoded
  have firstTop : (if (AyYnode.blank 0 :: shifted).length ≠ 1 then some 1 else none) =
      if forest.size = 0 then none else some 1 := by
    rw [List.length_cons, length]
    by_cases empty : forest.size = 0
    · rw [if_pos empty, if_neg (by omega)]
    · rw [if_neg empty, if_pos (by omega)]
  have tops : siblingsFrom (if forest.size = 0 then none else some 1)
      (AyYnode.blank 0 :: shifted) = rootIndices 1 forest := by
    have walked := @siblings_tops forest [AyYnode.blank 0] shifted [] none
      (AyYnode.blank 0 :: shifted).length linked (by rw [List.length_cons]; omega)
    rw [List.append_nil] at walked
    exact walked
  have sum : ((rootIndices 1 forest).map fun iter =>
      (((AyYnode.blank 0 :: shifted)[iter]?.map AyYnode.descendants).getD 0) + 1).sum =
        forest.size := @sum_tops forest shifted [AyYnode.blank 0] encoded
  rw [links_eq_linksWith] at linked
  obtain ⟨changed, stands, changes⟩ := @foldl_modify_tops _
    (fun start kids rest => ⟨some 0, if rest = 0 then none else some (start + kids + 1),
      if kids = 0 then none else some (start + 1)⟩) forest shifted [AyYnode.blank 0] []
    (fun _ node => { node with parent := some 0 }) (fun _ _ => rfl)
    (fun index node rest linked => by
      simp only [AyYnode.links, Forest.Links.mk.injEq] at linked ⊢
      exact ⟨trivial, linked.2⟩) ⟨encoded, linked⟩
  simp only [List.append_nil, List.cons_append, List.nil_append, List.length_cons, List.length_nil,
    Nat.zero_add] at stands changes
  obtain ⟨root, isRoot⟩ : ∃ root : AyYnode, root = { AyYnode.blank 0 with
      type := .ynRoot
      child := if forest.size = 0 then none else some 1
      descendants := forest.size } := ⟨_, rfl⟩
  have planted : setRootNodes (AyYnode.blank 0 :: shifted) (rootIndices 1 forest) forest.size =
      root :: changed := by
    rw [setRootNodes, changes, List.modify_zero_cons, firstTop, isRoot]
  have plantedLength : (root :: changed).length = forest.size + 1 := by
    rw [List.length_cons, length_of_cells stands.cells]
  rw [ayYnodeSetRoot, isShifted]
  simp only [firstTop, tops, sum, planted]
  rw [if_pos plantedLength, List.getElem?_eq_getElem (by omega), Option.map_some]
  refine ⟨_, rfl, ?_, ?_⟩
  · rw [cells_cons, stands.cells, Forest.flat, isRoot]
    simp [AyYnode.cell, AyYnode.core, AyYnode.blank, rootCore, Core.blank, Forest.flat]
  · rw [List.map_cons, stands.links, Forest.links, ← links_eq_linksWith, isRoot]
    simp [AyYnode.links, AyYnode.blank, Forest.links, Forest.size]

end Planted

section Created

variable {ltree : List AyLnode}

theorem createForestFrom_unlinked (bound fuel i : Nat) (id : YnodeId) :
    ∀ node ∈ createForestFrom ltree bound fuel i id, node.parent = none ∧ node.next = none := by
  induction fuel generalizing i id with
  | zero => simp [createForestFrom]
  | succ fuel inductionHypothesis =>
      intro node member
      rw [createForestFrom] at member
      split at member
      · split at member
        · split at member
          · split at member
            · exact inductionHypothesis _ _ node member
            · rcases List.mem_cons.mp member with rfl | later
              · exact ⟨rfl, rfl⟩
              · exact inductionHypothesis _ _ node later
          · exact inductionHypothesis _ _ node member
        · cases member
      · cases member

/-- A scan that ends one lnode earlier misses at most this lnode. -/
theorem visitedFrom_eq_filter (bound i : Nat) :
    visitedFrom ltree bound i =
      (visitedFrom ltree (bound + 1) i).filter fun index => decide (index < bound) := by
  induction left : bound + 1 - i using Nat.strongRecOn generalizing i with
  | ind left inductionHypothesis =>
      by_cases done : bound + 1 ≤ i
      · rw [visitedFrom_end (by omega), visitedFrom_end done]
        rfl
      · cases found : ltree[i]? with
        | none =>
            have stops : ∀ end_, visitedFrom ltree end_ i = [] := by
              intro end_
              rw [visitedFrom]
              cases end_ - i with
              | zero => rfl
              | succ fuel => simp [visited, found]
            rw [stops, stops]
            rfl
        | some lnode =>
            have next := inductionHypothesis (bound + 1 - (i + 1)) (by omega) (i + 1) rfl
            have behindIt := inductionHypothesis (bound + 1 - (i + lnode.descendants + 1))
              (by omega) (i + lnode.descendants + 1) rfl
            have wider := @visitedFrom_step ltree (bound + 1) i lnode (by omega) found
            by_cases inside : i < bound
            · rw [wider, visitedFrom_step inside found, next, behindIt]
              split
              · split
                · rfl
                · rw [List.filter_cons_of_pos (by simpa using inside)]
              · rfl
            · have behindBound : ∀ position, i < position →
                  visitedFrom ltree (bound + 1) position = [] := fun position behindIt =>
                visitedFrom_end (by omega)
              rw [wider, @visitedFrom_end ltree bound i (by omega), behindBound _ (by omega),
                behindBound _ (by omega)]
              split
              · split
                · rfl
                · rw [List.filter_cons_of_neg (by simpa using inside)]
                  rfl
              · rfl

end Created

section Lenses

/-- The lenses of the tree. -/
def LensTree.forest (tree : LensTree) : Forest Lens := .cons tree.lens tree.children .nil

/-- The array is the root above the projection of the lens tree. -/
structure ProjectsLenses (tree : LensTree) (ytree : YnodeTree) : Prop where
  /-- Exactly the lnodes that are kept, in their order. -/
  sequence : ytree.nodes.tail.map AyYnode.snode =
    ((List.range (ayLnodeCreateTree tree).length).filter (kept (ayLnodeCreateTree tree))).map some
  descendants : ytree.nodes.map AyYnode.view =
    (Forest.cons none ((projected (ayLnodeCreateTree tree) 0 tree.forest).map some) .nil).flat
  links : ytree.nodes.map AyYnode.links =
    (Forest.cons none
      ((projected (ayLnodeCreateTree tree) 0 tree.forest).map some) .nil).links 0 none
  root : ytree.nodes.head?.map (fun root => (root.type, root.descendants)) =
    some (.ynRoot, ytree.nodes.length - 1)

/-- The last lens is a recursion that is not below a comment subtree. -/
def EndsInRec (tree : LensTree) : Prop :=
  ∃ last, (ayLnodeCreateTree tree).getLast? = some last ∧ last.tag = .lRec ∧
    ∀ above, ignoredAt (ayLnodeCreateTree tree) above →
      lastBelow (ayLnodeCreateTree tree) above < (ayLnodeCreateTree tree).length - 1

/-- A subtree lens has a child. -/
theorem Shaped.descendants_pos {forest : Forest Lens} (shaped : Shaped forest) {start : Nat}
    {parent : Option Lnode} {lnode : AyLnode}
    (member : lnode ∈ createLnodes start parent forest) (isSubtree : lnode.tag = .lSubtree) :
    lnode.descendants ≠ 0 := by
  induction forest generalizing start parent with
  | nil => cases member
  | cons lens kids rest kidsHypothesis restHypothesis =>
      obtain ⟨here, below, behindIt⟩ := shaped
      rw [createLnodes, List.mem_cons, List.mem_append] at member
      rcases member with rfl | inKids | inRest
      · dsimp only at isSubtree ⊢
        rw [isSubtree] at here
        cases kids with
        | nil => simp [ayLenseHasNoChild, ayLenseHasOneChild, Shaped.IsTreeOf] at here
        | cons => simp [Forest.size]
      · exact kidsHypothesis below inKids
      · exact restHypothesis behindIt inRest

variable (tree : LensTree)

theorem length_ayLnodeCreateTree : (ayLnodeCreateTree tree).length = tree.children.size + 1 := by
  rw [ayLnodeCreateTree, length_createLnodes]
  simp [Forest.size]

/-- The scans find the last lnode exactly when it is such a recursion. -/
theorem kept_last_iff : kept (ayLnodeCreateTree tree) tree.children.size ↔ EndsInRec tree := by
  have length := length_ayLnodeCreateTree tree
  obtain ⟨last, lastAt⟩ : ∃ last, (ayLnodeCreateTree tree)[tree.children.size]? = some last :=
    ⟨_, List.getElem?_eq_getElem (by omega)⟩
  have isLast : (ayLnodeCreateTree tree).getLast? = some last := by
    rw [List.getLast?_eq_getElem?, length, Nat.add_sub_cancel, lastAt]
  have leaf : last.tag ≠ .lSubtree := by
    intro isSubtree
    have positive := tree.shaped.descendants_pos (List.mem_of_getElem? lastAt) isSubtree
    have inside := lastBelow_lt (placed_ayLnodeCreateTree tree) (Nat.zero_le tree.children.size)
      (by simp [Forest.size])
    simp only [lastBelow, lastAt, Option.map_some, Option.getD_some, Forest.size] at inside
    omega
  have tagIff : snodeAt (ayLnodeCreateTree tree) tree.children.size ↔ last.tag = .lRec := by
    simp [snodeAt, lastAt, isSnode, leaf]
  have nested : ∀ above, ignoredAt (ayLnodeCreateTree tree) above → above ≤ tree.children.size := by
    intro above ignored
    rw [ignoredAt] at ignored
    cases found : (ayLnodeCreateTree tree)[above]? with
    | none => simp [found] at ignored
    | some lnode =>
        obtain ⟨bound, -⟩ := List.getElem?_eq_some_iff.mp found
        omega
  rw [kept, Bool.and_eq_true, tagIff, List.all_eq_true, EndsInRec, length, Nat.add_sub_cancel]
  constructor
  · rintro ⟨isRec, apart⟩
    refine ⟨last, isLast, isRec, fun above ignored => ?_⟩
    have := apart above (by have := nested above ignored; simp; omega)
    simpa [ignored] using this
  · rintro ⟨other, otherLast, isRec, apart⟩
    obtain rfl : last = other := Option.some.inj (isLast.symm.trans otherLast)
    refine ⟨isRec, fun above _ => ?_⟩
    cases ignored : ignoredAt (ayLnodeCreateTree tree) above with
    | false => simp
    | true => simpa using apart above ignored

/-- The nodes that are created, without links. -/
theorem view_ayYnodeCreateForest :
    (ayYnodeCreateForest (ayLnodeCreateTree tree)).map AyYnode.view =
      ((projected (ayLnodeCreateTree tree) 0 tree.forest).labels.filter fun index =>
        decide (index < tree.children.size)).map (viewAt (ayLnodeCreateTree tree)) := by
  have placed := placed_ayLnodeCreateTree tree
  have bound : ((ayLnodeCreateTree tree).head?.map AyLnode.descendants).getD 0 =
      tree.children.size := by
    simp [ayLnodeCreateTree, createLnodes]
  have scanned := @visitedFrom_placed _ tree.forest 0 (tree.children.size + 1) placed
    (by simp [LensTree.forest, Forest.size])
  have atEnd : visitedFrom (ayLnodeCreateTree tree) (tree.children.size + 1)
      (0 + tree.forest.size) = [] := visitedFrom_end (by simp [LensTree.forest, Forest.size])
  rw [atEnd, List.append_nil] at scanned
  rw [ayYnodeCreateForest, bound, view_createForestFrom, ← scanned, ← visitedFrom_eq_filter,
    visitedFrom, Nat.sub_zero]

theorem length_of_ayYnodeCreateTree {ltree : List AyLnode} {ytree : YnodeTree}
    (created : ayYnodeCreateTree ltree = some ytree) :
    ytree.nodes.length = (ayYnodeCreateForest ltree).length + 1 := by
  obtain ⟨count, numbered⟩ := ids_createForestFrom ltree
    ((ltree.head?.map AyLnode.descendants).getD 0) ((ltree.head?.map AyLnode.descendants).getD 0) 0 1
  have forestIds : ids (ayYnodeCreateForest ltree) =
      (List.range count).map fun offset => 1 + BitVec.ofNat 32 offset := numbered
  have connected : ids (ayYnodeForestConnectTopnodes (ayYnodeTreeCorrection
      (ayYnodeCreateForest ltree))) = (List.range count).map fun offset =>
        1 + BitVec.ofNat 32 offset := by
    rw [ids_connectTopnodes, ids_correction, forestIds]
  have allIds := (ayYnodeSetRoot_numbered connected created).1
  have forestLength := congrArg List.length forestIds
  have treeLength := congrArg List.length allIds
  simp only [ids, List.length_map, List.length_range] at forestLength treeLength
  omega

/-- The tree of ynodes is the projection of the lens tree, unless the scan for nodes, which
stops in front of the last lnode, should have found that one. -/
theorem ayYnodeCreateTree_projects_iff :
    (∃ ytree, ayYnodeCreateTree (ayLnodeCreateTree tree) = some ytree ∧ ProjectsLenses tree ytree) ↔
      ¬ EndsInRec tree := by
  have placed : Placed (ayLnodeCreateTree tree) 0 tree.forest := placed_ayLnodeCreateTree tree
  have size : tree.forest.size = tree.children.size + 1 := by
    simp [LensTree.forest, Forest.size]
  have labels := labels_projected_eq_filter placed
  have view := view_ayYnodeCreateForest tree
  rw [← kept_last_iff]
  constructor
  · rintro ⟨ytree, created, projects⟩ isKept
    have found := length_of_ayYnodeCreateTree created
    have missing : ((projected (ayLnodeCreateTree tree) 0 tree.forest).labels.filter fun index =>
        decide (index < tree.children.size)).length <
          (projected (ayLnodeCreateTree tree) 0 tree.forest).labels.length := by
      refine List.length_filter_lt_length_iff_exists.mpr ⟨tree.children.size, ?_, by simp⟩
      rw [labels, List.mem_filter, List.mem_range, size]
      exact ⟨by omega, isKept⟩
    have viewLength := congrArg List.length view
    have sequenceLength := congrArg List.length projects.sequence
    rw [length_ayLnodeCreateTree, ← size, ← labels] at sequenceLength
    simp only [List.length_map, List.length_tail] at viewLength sequenceLength
    omega
  · intro notKept
    have all : ((projected (ayLnodeCreateTree tree) 0 tree.forest).labels.filter fun index =>
        decide (index < tree.children.size)) =
          (projected (ayLnodeCreateTree tree) 0 tree.forest).labels := by
      refine List.filter_eq_self.mpr fun index member => ?_
      rw [labels, List.mem_filter, List.mem_range, size] at member
      obtain ⟨inside, isKept⟩ := member
      rw [decide_eq_true_eq]
      refine Nat.lt_of_le_of_ne (Nat.le_of_lt_succ inside) ?_
      rintro rfl
      exact notKept isKept
    rw [all, ← flat_projected placed] at view
    -- the cores of the nodes make up a forest of the same shape
    obtain ⟨forest, cellsEq, shape⟩ := @Forest.exists_flat_of_map _ _ Core.snode _
      (cells (ayYnodeCreateForest (ayLnodeCreateTree tree))) (by
        rw [cells, List.map_map]
        exact view)
    obtain ⟨ytree, created, encodes⟩ := encodes_planted (encodes_connected cellsEq
      (createForestFrom_unlinked _ _ _ _))
    have whole : (Forest.cons rootCore forest .nil).map Core.snode =
        Forest.cons none ((projected (ayLnodeCreateTree tree) 0 tree.forest).map some) .nil := by
      rw [Forest.map, shape]
      rfl
    have viewed : ytree.nodes.map AyYnode.view =
        (Forest.cons none
          ((projected (ayLnodeCreateTree tree) 0 tree.forest).map some) .nil).flat := by
      rw [← whole, Forest.flat_map, ← encodes.cells, cells, List.map_map]
      rfl
    refine ⟨ytree, created, ?_, viewed, ?_, ?_⟩
    · have snodes := congrArg (fun cells => (cells.map Prod.fst).tail) viewed
      simp only [List.map_map, Forest.flat, List.append_nil, List.map_cons, List.tail_cons,
        Forest.flat_map] at snodes
      rw [← List.map_tail] at snodes
      rw [length_ayLnodeCreateTree, ← size, ← labels, Forest.labels, List.map_map]
      exact snodes
    · rw [encodes.links, ← whole, Forest.links_map]
    · have length := length_of_cells encodes.cells
      obtain ⟨root, rootAt, rootIs, rootCount, -⟩ := @Encodes.node_in _ .top _ _ _ encodes
      rw [List.head?_eq_getElem?]
      rw [Forest.Hole.index] at rootAt
      rw [rootAt, Option.map_some, rootCount, length, Forest.size, Forest.size]
      have rootType : root.type = .ynRoot := congrArg Core.type rootIs
      rw [rootType]
      simp

/-- `let rec lns = [ key /a/ . lns? ]` -/
def recTail : LensTree where
  lens := ⟨.lRec, "", false⟩
  children := .cons ⟨.lSubtree, "", false⟩
    (.cons ⟨.lConcat, "", false⟩
      (.cons ⟨.lKey, "", false⟩ .nil
        (.cons ⟨.lMaybe, "", false⟩ (.cons ⟨.lRec, "", true⟩ .nil .nil) .nil)) .nil) .nil
  shaped := by simp [Shaped, Shaped.IsTreeOf, ayLenseHasNoChild, ayLenseHasOneChild]

/-- The inner recursion is counted as a descendant but no ynode is made of it, and the
assertion of `ay_ynode_set_root` fails. -/
theorem recTail_not_projected :
    ¬ ∀ tree : LensTree, ∃ ytree, ayYnodeCreateTree (ayLnodeCreateTree tree) = some ytree ∧
      ProjectsLenses tree ytree := by
  intro holds
  obtain ⟨ytree, created, -⟩ := holds recTail
  have asserted : ayYnodeCreateTree (ayLnodeCreateTree recTail) = none := by decide
  rw [asserted] at created
  cases created

end Lenses

end SysrepoAugeas.Ynode
