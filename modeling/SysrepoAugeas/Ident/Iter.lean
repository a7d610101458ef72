import SysrepoAugeas.Ynode.Insert

/-!
# Nodes that share a name space

The identifiers below a node are compared with each other.  Cases are
transparent in YANG, so the iterator goes through them: it climbs out of the
cases that are finished and enters the first child of those that follow.
-/

namespace SysrepoAugeas.Ident

open SysrepoAugeas.Data
open SysrepoAugeas.Ynode

section Code

/-- `for (; (iter != root) && !iter->next; iter = iter->parent)` -/
def climbCases (nodes : List AyYnode) (root : Nat) : Nat → Option Nat → Option Nat
  | fuel + 1, some iter =>
      if iter = root then some iter
      else
        match nodes[iter]? with
        | some node => if node.next.isSome then some iter else climbCases nodes root fuel node.parent
        | none => none
  | _, _ => none

/-- `for (; iter && (iter->type == YN_CASE); iter = iter->child)` -/
def descendCases (nodes : List AyYnode) : Nat → Option Nat → Option (Option Nat)
  | fuel + 1, some iter =>
      match nodes[iter]? with
      | some node =>
          if node.type = .ynCase then descendCases nodes fuel node.child else some (some iter)
      | none => none
  | _ + 1, none => some none
  | 0, _ => none

/-- A case is left for what is in it. -/
def enterCase (nodes : List AyYnode) : Option Nat → Option (Option Nat)
  | none => some none
  | some ret =>
      match nodes[ret]? with
      | some node =>
          if node.type = .ynCase then descendCases nodes nodes.length node.child else some (some ret)
      | none => none

/-- Climb from the last of some siblings to what follows. -/
def finishSiblings (nodes : List AyYnode) (root : Nat) (parent : Option Nat) :
    Option (Option Nat) :=
  match climbCases nodes root nodes.length parent with
  | none => none
  | some iter =>
      if iter ≠ root then nodes[iter]?.bind fun node => enterCase nodes node.next else some none

/-- `ay_yang_ident_iter` -/
def ayYangIdentIter (nodes : List AyYnode) (root : Nat) : Option Nat → Option (Option Nat)
  | none => nodes[root]?.bind fun root => enterCase nodes root.child
  | some iter =>
      match nodes[iter]? with
      | none => none
      | some node =>
          if node.next.isNone then finishSiblings nodes root node.parent
          else if node.type = .ynCase then enterCase nodes (some iter)
          else enterCase nodes node.next

/-- `for (iter = ay_yang_ident_iter(root, iter); iter; iter = ay_yang_ident_iter(root, iter))` -/
def identIters (nodes : List AyYnode) (root : Nat) : Nat → Option Nat → Option (List Nat)
  | fuel + 1, iter =>
      match ayYangIdentIter nodes root iter with
      | none => none
      | some none => some []
      | some (some iter) => (identIters nodes root fuel (some iter)).map (iter :: ·)
  | 0, _ => none

end Code

/-- The node lies below the root, with cases only between them. -/
inductive Reached (nodes : List AyYnode) (root : Nat) : Nat → Prop where
  | child {iter : Nat} {node : AyYnode} (found : nodes[iter]? = some node)
      (isChild : node.parent = some root) : Reached nodes root iter
  | inCase {case iter : Nat} {caseNode node : AyYnode} (reached : Reached nodes root case)
      (caseFound : nodes[case]? = some caseNode) (isCase : caseNode.type = .ynCase)
      (found : nodes[iter]? = some node) (isChild : node.parent = some case) :
      Reached nodes root iter

section Shapes

/-- Indices of the trees and of what is in their cases. -/
def reachedIndices (start : Nat) : Forest Core → List Nat
  | .nil => []
  | .cons label kids rest =>
      start :: ((if label.type = .ynCase then reachedIndices (start + 1) kids else []) ++
        reachedIndices (start + kids.size + 1) rest)

/-- The same without the cases. -/
def uncasedIndices (start : Nat) : Forest Core → List Nat
  | .nil => []
  | .cons label kids rest =>
      (if label.type = .ynCase then uncasedIndices (start + 1) kids else [start]) ++
        uncasedIndices (start + kids.size + 1) rest

/-- Every case has a child. -/
def CasesFull : Forest Core → Prop
  | .nil => True
  | .cons label kids rest =>
      (label.type = .ynCase → kids.size ≠ 0) ∧ CasesFull kids ∧ CasesFull rest

theorem bounds_of_mem_uncased {forest : Forest Core} {start iter : Nat}
    (member : iter ∈ uncasedIndices start forest) : start ≤ iter ∧ iter < start + forest.size := by
  induction forest generalizing start with
  | nil => cases member
  | cons label kids rest kidsHypothesis restHypothesis =>
      rw [Forest.size]
      rw [uncasedIndices, List.mem_append] at member
      rcases member with here | behindIt
      · split at here
        · have := kidsHypothesis here
          omega
        · rw [List.mem_singleton] at here
          omega
      · have := restHypothesis behindIt
        omega

theorem uncasedIndices_increasing (forest : Forest Core) (start : Nat) :
    (uncasedIndices start forest).Pairwise (· < ·) := by
  induction forest generalizing start with
  | nil => exact .nil
  | cons label kids rest kidsHypothesis restHypothesis =>
      rw [uncasedIndices, List.pairwise_append]
      refine ⟨?_, restHypothesis _, ?_⟩
      · split
        · exact kidsHypothesis _
        · exact List.pairwise_singleton _ _
      · intro first isHere second isBehind
        have afterwards := bounds_of_mem_uncased isBehind
        split at isHere
        · have := bounds_of_mem_uncased isHere
          omega
        · rw [List.mem_singleton] at isHere
          omega

theorem length_uncasedIndices_le (forest : Forest Core) (start : Nat) :
    (uncasedIndices start forest).length ≤ forest.size := by
  induction forest generalizing start with
  | nil => exact Nat.le_refl _
  | cons label kids rest kidsHypothesis restHypothesis =>
      have kidsLength := kidsHypothesis (start + 1)
      have restLength := restHypothesis (start + kids.size + 1)
      rw [uncasedIndices, List.length_append, Forest.size]
      split
      · omega
      · rw [List.length_singleton]
        omega

theorem uncasedIndices_ne_nil {forest : Forest Core} (full : CasesFull forest)
    (nonempty : forest.size ≠ 0) (start : Nat) : uncasedIndices start forest ≠ [] := by
  induction forest generalizing start with
  | nil => exact absurd rfl nonempty
  | cons label kids rest kidsHypothesis _ =>
      rw [uncasedIndices]
      split
      · rename_i isCase
        exact List.append_ne_nil_of_left_ne_nil (kidsHypothesis full.2.1 (full.1 isCase) _) _
      · exact List.append_ne_nil_of_left_ne_nil (List.cons_ne_nil _ _) _

end Shapes

section Places

variable {nodes : List AyYnode} {hole : Forest.Hole Core} {label : Core}
  {forest kids rest : Forest Core}

/-- A position determines what is below it. -/
theorem kids_unique {other : Forest.Hole Core} {otherLabel : Core} {otherKids otherRest : Forest Core}
    (same : hole.fill (.cons label kids rest) = other.fill (.cons otherLabel otherKids otherRest))
    (place : hole.index = other.index) : kids = otherKids := by
  have flats := congrArg Forest.flat same
  rw [Forest.Hole.flat_fill, Forest.Hole.flat_fill] at flats
  obtain ⟨-, below⟩ := List.append_inj flats (by simp [place])
  simp only [Forest.flat, List.cons_append, List.cons.injEq, Prod.mk.injEq, List.append_assoc]
    at below
  obtain ⟨⟨-, size⟩, below⟩ := below
  apply Forest.flat_injective
  exact (List.append_inj below (by simpa using size)).1

/-- A place is behind some of the children of its parent. -/
theorem exists_front {inner : Forest.Hole Core} {parent : Nat} (isParent : inner.parent = some parent) :
    ∃ (outer : Forest.Hole Core) (label : Core) (front rest : Forest Core), outer.index = parent ∧
      inner.index = parent + 1 + front.size ∧
      ∀ filling, inner.fill filling = outer.fill (.cons label (front.append filling) rest) := by
  induction inner with
  | top => cases isParent
  | behind label kids outer inductionHypothesis =>
      obtain ⟨further, top, front, rest, place, index, fills⟩ := inductionHypothesis isParent
      refine ⟨further, top, front.append (.cons label kids .nil), rest, place, ?_, fun filling => ?_⟩
      · rw [Forest.Hole.index, index, Forest.size_append, Forest.size, Forest.size]
        omega
      · rw [Forest.Hole.fill, fills, Forest.append_assoc, Forest.append, Forest.append]
  | under label rest outer _ =>
      exact ⟨outer, label, .nil, rest, Option.some.inj isParent,
        congrArg (· + 1) (Option.some.inj isParent), fun _ => rfl⟩

theorem parent_lt {iter parent : Nat} {node : AyYnode} (encodes : Encodes nodes forest)
    (found : nodes[iter]? = some node) (isParent : node.parent = some parent) : parent < iter := by
  have bound : iter < forest.size := by
    rw [← length_of_cells encodes.cells]
    exact (List.getElem?_eq_some_iff.mp found).1
  obtain ⟨inner, label, kids, rest, rfl, rfl⟩ := Forest.Hole.exists_of_lt_size bound
  obtain ⟨sameNode, foundAgain, -, -, parentEq, -, -⟩ := encodes.node_in
  rw [found, Option.some.injEq] at foundAgain
  rw [← foundAgain, isParent] at parentEq
  obtain ⟨-, -, front, -, -, index, -⟩ := exists_front parentEq.symm
  omega

theorem mem_rootIndices_append (front : Forest Core) (start : Nat) :
    start + front.size ∈ rootIndices start (front.append (.cons label kids rest)) := by
  induction front generalizing start with
  | nil => exact List.mem_cons_self
  | cons top below others _ restHypothesis =>
      have behindIt := restHypothesis (start + below.size + 1)
      have place : start + below.size + 1 + others.size = start + (below.size + others.size + 1) := by
        omega
      rw [place] at behindIt
      exact List.mem_cons_of_mem _ behindIt

/-- The children of a node are the roots of what is below it. -/
theorem mem_rootIndices_of_parent {iter : Nat} {node : AyYnode}
    (encodes : Encodes nodes (hole.fill (.cons label kids rest)))
    (found : nodes[iter]? = some node) (isChild : node.parent = some hole.index) :
    iter ∈ rootIndices (hole.index + 1) kids := by
  have bound : iter < (hole.fill (.cons label kids rest)).size := by
    rw [← length_of_cells encodes.cells]
    exact (List.getElem?_eq_some_iff.mp found).1
  obtain ⟨inner, childLabel, childKids, childRest, same, rfl⟩ := Forest.Hole.exists_of_lt_size bound
  rw [same] at encodes
  obtain ⟨childNode, foundAgain, -, -, parentEq, -, -⟩ := encodes.node_in
  rw [found, Option.some.injEq] at foundAgain
  rw [← foundAgain, isChild] at parentEq
  obtain ⟨outer, parentLabel, front, parentRest, place, index, fills⟩ := exists_front parentEq.symm
  rw [fills] at same
  rw [kids_unique same place.symm, index]
  exact mem_rootIndices_append front (hole.index + 1)

theorem rootIndices_subset_reached (forest : Forest Core) (start : Nat) :
    rootIndices start forest ⊆ reachedIndices start forest := by
  induction forest generalizing start with
  | nil => exact List.Subset.refl _
  | cons label kids rest _ restHypothesis =>
      apply List.cons_subset_cons
      exact List.Subset.trans (restHypothesis _) (List.subset_append_right _ _)

/-- What is in a case that is reached is reached. -/
theorem reached_closed {case : Nat} {caseNode : AyYnode} (encodes : Encodes nodes (hole.fill forest))
    (member : case ∈ reachedIndices hole.index forest) (found : nodes[case]? = some caseNode)
    (isCase : caseNode.type = .ynCase) :
    ∃ (inner : Forest.Hole Core) (label : Core) (kids rest : Forest Core),
      hole.fill forest = inner.fill (.cons label kids rest) ∧ inner.index = case ∧
      rootIndices (case + 1) kids ⊆ reachedIndices hole.index forest := by
  induction forest generalizing hole with
  | nil => cases member
  | cons label kids rest kidsHypothesis restHypothesis =>
      rw [reachedIndices, List.mem_cons, List.mem_append] at member
      rcases member with rfl | below | behindIt
      · obtain ⟨node, foundAgain, isLabel, -⟩ := encodes.node_in
        rw [found, Option.some.injEq] at foundAgain
        have labelCase : label.type = .ynCase := by
          rw [← isLabel, ← foundAgain]
          exact isCase
        refine ⟨hole, label, kids, rest, rfl, rfl, ?_⟩
        rw [reachedIndices, if_pos labelCase]
        apply List.subset_cons_of_subset
        exact List.Subset.trans (rootIndices_subset_reached kids _) (List.subset_append_left _ _)
      · split at below
        · rename_i labelCase
          obtain ⟨inner, top, topKids, topRest, same, place, subset⟩ :=
            @kidsHypothesis (.under label rest hole) encodes below
          refine ⟨inner, top, topKids, topRest, same, place, ?_⟩
          rw [reachedIndices, if_pos labelCase]
          apply List.subset_cons_of_subset
          exact List.Subset.trans subset (List.subset_append_left _ _)
        · cases below
      · obtain ⟨inner, top, topKids, topRest, same, place, subset⟩ :=
          @restHypothesis (.behind label kids hole) encodes behindIt
        refine ⟨inner, top, topKids, topRest, same, place, ?_⟩
        rw [reachedIndices]
        apply List.subset_cons_of_subset
        exact List.Subset.trans subset (List.subset_append_right _ _)

theorem mem_reached_of_reached {iter : Nat}
    (encodes : Encodes nodes (hole.fill (.cons label kids rest)))
    (reached : Reached nodes hole.index iter) : iter ∈ reachedIndices (hole.index + 1) kids := by
  induction reached with
  | child found isChild =>
      exact rootIndices_subset_reached _ _ (mem_rootIndices_of_parent encodes found isChild)
  | inCase _ caseFound isCase found isChild inductionHypothesis =>
      obtain ⟨inner, top, topKids, topRest, same, rfl, subset⟩ :=
        @reached_closed _ (.under label rest hole) _ _ _ encodes inductionHypothesis caseFound isCase
      have inside : Encodes nodes (inner.fill (.cons top topKids topRest)) := by
        rw [← same]
        exact encodes
      exact subset (mem_rootIndices_of_parent inside found isChild)

/-- A node that may have children of the iteration: the root, or a case that is reached. -/
def Opens (nodes : List AyYnode) (root parent : Nat) : Prop :=
  parent = root ∨
    Reached nodes root parent ∧ ∃ node, nodes[parent]? = some node ∧ node.type = .ynCase

theorem Opens.reached {root parent iter : Nat} {node : AyYnode} (opens : Opens nodes root parent)
    (found : nodes[iter]? = some node) (isChild : node.parent = some parent) :
    Reached nodes root iter := by
  rcases opens with rfl | ⟨reached, caseNode, caseFound, isCase⟩
  · exact .child found isChild
  · exact .inCase reached caseFound isCase found isChild

theorem reached_of_mem_uncased {root parent iter : Nat} (encodes : Encodes nodes (hole.fill forest))
    (isParent : hole.parent = some parent) (opens : Opens nodes root parent)
    (member : iter ∈ uncasedIndices hole.index forest) :
    Reached nodes root iter ∧ ∃ node, nodes[iter]? = some node ∧ node.type ≠ .ynCase := by
  induction forest generalizing hole parent with
  | nil => cases member
  | cons label kids rest kidsHypothesis restHypothesis =>
      obtain ⟨node, found, isLabel, -, parentEq, -, -⟩ := encodes.node_in
      have reached := opens.reached found (parentEq.trans isParent)
      rw [uncasedIndices, List.mem_append] at member
      rcases member with here | behindIt
      · split at here
        · rename_i isCase
          rw [← isLabel] at isCase
          exact @kidsHypothesis (.under label rest hole) _ encodes rfl
            (.inr ⟨reached, node, found, isCase⟩) here
        · rename_i noCase
          rw [← isLabel] at noCase
          rw [List.mem_singleton] at here
          rw [here]
          exact ⟨reached, node, found, noCase⟩
      · exact @restHypothesis (.behind label kids hole) _ encodes isParent opens behindIt

theorem mem_uncased_of_mem_reached {iter : Nat} {node : AyYnode}
    (encodes : Encodes nodes (hole.fill forest)) (member : iter ∈ reachedIndices hole.index forest)
    (found : nodes[iter]? = some node) (noCase : node.type ≠ .ynCase) :
    iter ∈ uncasedIndices hole.index forest := by
  induction forest generalizing hole with
  | nil => cases member
  | cons label kids rest kidsHypothesis restHypothesis =>
      rw [reachedIndices, List.mem_cons, List.mem_append] at member
      rw [uncasedIndices, List.mem_append]
      rcases member with rfl | below | behindIt
      · obtain ⟨sameNode, foundAgain, isLabel, -⟩ := encodes.node_in
        rw [found, Option.some.injEq] at foundAgain
        have labelNoCase : label.type ≠ .ynCase := by
          rw [← isLabel, ← foundAgain]
          exact noCase
        rw [if_neg labelNoCase]
        exact .inl (List.mem_singleton.mpr rfl)
      · split at below
        · rename_i isCase
          rw [if_pos isCase]
          exact .inl (@kidsHypothesis (.under label rest hole) encodes below)
        · cases below
      · exact .inr (@restHypothesis (.behind label kids hole) encodes behindIt)

end Places

section Iteration

variable {nodes : List AyYnode} {hole : Forest.Hole Core} {root : Nat} {label : Core}
  {forest kids rest : Forest Core}

/-- The first element, or what comes behind the list. -/
def headOr (final : Option (Option Nat)) : List Nat → Option (Option Nat)
  | [] => final
  | iter :: _ => some (some iter)

theorem headOr_append (final : Option (Option Nat)) (front back : List Nat) :
    headOr final (front ++ back) = headOr (headOr final back) front := by
  cases front <;> rfl

theorem headOr_of_ne_nil {list : List Nat} (nonempty : list ≠ []) (final : Option (Option Nat)) :
    headOr final list = some list.head? := by
  cases list with
  | nil => exact absurd rfl nonempty
  | cons iter rest => rfl

/-- Every call with an element gives the next one, and with the last one gives `final`. -/
def Follows (next : Option Nat → Option (Option Nat)) (final : Option (Option Nat)) :
    List Nat → Prop
  | [] => True
  | iter :: rest =>
      next (some iter) = headOr final rest ∧ Follows next final rest

theorem Follows.append {next : Option Nat → Option (Option Nat)} {final : Option (Option Nat)}
    {front back : List Nat} (first : Follows next (headOr final back) front)
    (second : Follows next final back) : Follows next final (front ++ back) := by
  induction front with
  | nil => exact second
  | cons iter rest inductionHypothesis =>
      refine ⟨?_, inductionHypothesis first.2⟩
      exact first.1.trans (headOr_append final rest back).symm

/-- The loop over calls that follow a list. -/
theorem identIters_eq {iter : Option Nat} {iters : List Nat} {fuel : Nat}
    (first : ayYangIdentIter nodes root iter = some iters.head?)
    (follows : Follows (ayYangIdentIter nodes root) (some none) iters)
    (enough : iters.length < fuel) : identIters nodes root fuel iter = some iters := by
  induction iters generalizing iter fuel with
  | nil =>
      obtain ⟨fuel, rfl⟩ : ∃ more, fuel = more + 1 := ⟨fuel - 1, by omega⟩
      rw [identIters, first]
      rfl
  | cons next rest inductionHypothesis =>
      rw [List.length_cons] at enough
      obtain ⟨fuel, rfl⟩ : ∃ more, fuel = more + 1 := ⟨fuel - 1, by omega⟩
      have second : ayYangIdentIter nodes root (some next) = some rest.head? := by
        rw [follows.1]
        cases rest <;> rfl
      rw [identIters, first, List.head?_cons]
      dsimp only
      rw [inductionHypothesis second follows.2 (by omega), Option.map_some]

theorem climbCases_none (fuel : Nat) : climbCases nodes root fuel none = none := by
  cases fuel <;> rfl

/-- The loop climbs at most as often as there are nodes in front. -/
theorem climbCases_fuel {forest : Forest Core} (encodes : Encodes nodes forest) {iter fuel other : Nat}
    (enough : iter < fuel) (otherEnough : iter < other) :
    climbCases nodes root fuel (some iter) = climbCases nodes root other (some iter) := by
  induction iter using Nat.strong_induction_on generalizing fuel other with
  | h iter inductionHypothesis =>
      obtain ⟨fuel, rfl⟩ : ∃ more, fuel = more + 1 := ⟨fuel - 1, by omega⟩
      obtain ⟨other, rfl⟩ : ∃ more, other = more + 1 := ⟨other - 1, by omega⟩
      rw [climbCases, climbCases]
      split
      · rfl
      · split
        · rename_i node found
          split
          · rfl
          · cases isParent : node.parent with
            | none => rw [climbCases_none, climbCases_none]
            | some parent =>
                have closer := parent_lt encodes found isParent
                exact inductionHypothesis parent closer (by omega) (by omega)
        · rfl

theorem finished_root {forest : Forest Core} (encodes : Encodes nodes forest)
    (bound : root < nodes.length) : finishSiblings nodes root (some root) = some none := by
  have here : climbCases nodes root nodes.length (some root) = some root := by
    rw [climbCases_fuel encodes bound (Nat.lt_succ_self root), climbCases, if_pos rfl]
  rw [finishSiblings, here]
  exact if_neg (fun different => different rfl)

/-- What a call gives behind a tree among its siblings. -/
def proceed (nodes : List AyYnode) (root : Nat) (hole : Forest.Hole Core) (kids rest : Forest Core) :
    Option (Option Nat) :=
  if rest.size = 0 then finishSiblings nodes root hole.parent
  else enterCase nodes (some (hole.index + kids.size + 1))

/-- Climbing from a node that is not the root. -/
theorem finishSiblings_inside (encodes : Encodes nodes (hole.fill (.cons label kids rest)))
    (inside : hole.index ≠ root) :
    finishSiblings nodes root (some hole.index) = proceed nodes root hole kids rest := by
  obtain ⟨node, found, -, -, parentEq, nextEq, -⟩ := encodes.node_in
  have bound := (List.getElem?_eq_some_iff.mp found).1
  have climb := @climbCases_fuel _ root _ encodes _ _ (hole.index + 1) bound (Nat.lt_succ_self _)
  rw [climbCases, if_neg inside, found] at climb
  dsimp only at climb
  rw [proceed]
  split at nextEq
  · rename_i last
    rw [nextEq, if_neg (by simp), parentEq] at climb
    rw [if_pos last, finishSiblings, finishSiblings, climb]
    cases isParent : hole.parent with
    | none =>
        rw [climbCases_none, climbCases_none]
    | some parent =>
        have closer := parent_lt encodes found (parentEq.trans isParent)
        rw [climbCases_fuel encodes closer (show parent < nodes.length by omega)]
  · rename_i notLast
    rw [nextEq, Option.isSome_some, if_pos rfl] at climb
    rw [if_neg notLast, finishSiblings, climb]
    simp only [inside, ne_eq, not_false_eq_true, if_true, found, Option.bind_some, nextEq]

theorem ayYangIdentIter_uncased (encodes : Encodes nodes (hole.fill (.cons label kids rest)))
    (noCase : label.type ≠ .ynCase) :
    ayYangIdentIter nodes root (some hole.index) = proceed nodes root hole kids rest := by
  obtain ⟨node, found, isLabel, -, parentEq, nextEq, -⟩ := encodes.node_in
  rw [← isLabel] at noCase
  have nodeNoCase : node.type ≠ .ynCase := noCase
  rw [ayYangIdentIter, found, proceed]
  dsimp only
  split at nextEq
  · rename_i last
    rw [nextEq, if_pos last, if_pos (by simp), parentEq]
  · rename_i notLast
    rw [nextEq, if_neg notLast, if_neg (by simp), if_neg nodeNoCase]

/-- Descending ends at the first node that is no case. -/
theorem descendCases_eq (full : CasesFull forest) (nonempty : forest.size ≠ 0)
    (encodes : Encodes nodes (hole.fill forest)) {fuel : Nat} (enough : forest.size ≤ fuel) :
    descendCases nodes fuel (some hole.index) = some (uncasedIndices hole.index forest).head? := by
  induction forest generalizing hole fuel with
  | nil => exact absurd rfl nonempty
  | cons label kids rest kidsHypothesis _ =>
      rw [Forest.size] at enough
      obtain ⟨fuel, rfl⟩ : ∃ more, fuel = more + 1 := ⟨fuel - 1, by omega⟩
      obtain ⟨node, found, isLabel, -, -, -, childEq⟩ := encodes.node_in
      rw [descendCases, found, uncasedIndices]
      have typeEq : node.type = label.type := congrArg Core.type isLabel
      dsimp only
      rw [typeEq]
      split
      · rename_i isCase
        have hasKids := full.1 isCase
        have kidsNonempty := uncasedIndices_ne_nil full.2.1 hasKids (hole.index + 1)
        rw [childEq, if_neg hasKids, List.head?_append_of_ne_nil _ kidsNonempty]
        exact @kidsHypothesis (.under label rest hole) full.2.1 hasKids encodes fuel (by omega)
      · rfl

theorem enterCase_eq (full : CasesFull forest) (nonempty : forest.size ≠ 0)
    (encodes : Encodes nodes (hole.fill forest)) :
    enterCase nodes (some hole.index) = some (uncasedIndices hole.index forest).head? := by
  have length := length_of_cells encodes.cells
  rw [Forest.Hole.size_fill] at length
  have descend := @descendCases_eq _ _ _ full nonempty encodes (nodes.length + 1) (by omega)
  rw [descendCases] at descend
  exact descend

theorem proceed_eq (full : CasesFull rest)
    (encodes : Encodes nodes (hole.fill (.cons label kids rest))) :
    proceed nodes root hole kids rest = headOr (finishSiblings nodes root hole.parent)
      (uncasedIndices (hole.index + kids.size + 1) rest) := by
  rw [proceed]
  split
  · rename_i last
    rw [Forest.eq_nil_of_size last]
    rfl
  · rename_i notLast
    rw [headOr_of_ne_nil (uncasedIndices_ne_nil full notLast _)]
    exact @enterCase_eq _ (.behind label kids hole) _ full notLast encodes

/-- The calls follow the trees in a place below the root. -/
theorem follows_uncased (full : CasesFull forest) (encodes : Encodes nodes (hole.fill forest))
    (inside : root < hole.index) :
    Follows (ayYangIdentIter nodes root) (finishSiblings nodes root hole.parent)
      (uncasedIndices hole.index forest) := by
  induction forest generalizing hole with
  | nil => trivial
  | cons label kids rest kidsHypothesis restHypothesis =>
      have further : root < (Forest.Hole.behind label kids hole).index := by
        rw [Forest.Hole.index]
        omega
      have behindIt := @restHypothesis (.behind label kids hole) full.2.2 encodes further
      have next := @proceed_eq _ _ root _ _ _ full.2.2 encodes
      rw [uncasedIndices]
      apply Follows.append _ behindIt
      rw [Forest.Hole.parent, Forest.Hole.index, ← next]
      split
      · have deeper : root < (Forest.Hole.under label rest hole).index := by
          rw [Forest.Hole.index]
          omega
        have below := @kidsHypothesis (.under label rest hole) full.2.1 encodes deeper
        rw [Forest.Hole.parent, finishSiblings_inside encodes (by omega)] at below
        exact below
      · rename_i noCase
        exact ⟨ayYangIdentIter_uncased encodes noCase, trivial⟩

end Iteration

section Result

variable {nodes : List AyYnode}

theorem casesFull_of_encodes {hole : Forest.Hole Core} {forest : Forest Core}
    (encodes : Encodes nodes (hole.fill forest))
    (full : ∀ case ∈ nodes, case.type = .ynCase → case.child ≠ none) : CasesFull forest := by
  induction forest generalizing hole with
  | nil => trivial
  | cons label kids rest kidsHypothesis restHypothesis =>
      refine ⟨fun isCase hasNone => ?_, @kidsHypothesis (.under label rest hole) encodes,
        @restHypothesis (.behind label kids hole) encodes⟩
      obtain ⟨node, found, isLabel, -, -, -, childEq⟩ := encodes.node_in
      rw [← isLabel] at isCase
      rw [if_pos hasNone] at childEq
      exact full node (List.mem_of_getElem? found) isCase childEq

/-- The calls enumerate in preorder what is below the root with only cases between. -/
theorem ayYangIdentIter_enumerates {forest : Forest Core} (encodes : Encodes nodes forest)
    (full : ∀ case ∈ nodes, case.type = .ynCase → case.child ≠ none) {root : Nat}
    (inTree : root < nodes.length) :
    ∃ iters, identIters nodes root nodes.length none = some iters ∧ iters.Pairwise (· < ·) ∧
      ∀ iter, iter ∈ iters ↔ Reached nodes root iter ∧
        ∃ node, nodes[iter]? = some node ∧ node.type ≠ .ynCase := by
  have bound : root < forest.size := by
    rw [← length_of_cells encodes.cells]
    exact inTree
  obtain ⟨hole, label, kids, rest, rfl, rfl⟩ := Forest.Hole.exists_of_lt_size bound
  obtain ⟨node, found, -, -, -, -, childEq⟩ := encodes.node_in
  have kidsEncode : Encodes nodes ((Forest.Hole.under label rest hole).fill kids) := encodes
  have kidsFull := casesFull_of_encodes kidsEncode full
  refine ⟨uncasedIndices (hole.index + 1) kids, ?_, uncasedIndices_increasing _ _, fun iter => ?_⟩
  · apply identIters_eq
    · rw [ayYangIdentIter, found, Option.bind_some, childEq]
      split
      · rename_i noKids
        rw [Forest.eq_nil_of_size noKids]
        rfl
      · rename_i hasKids
        exact enterCase_eq kidsFull hasKids kidsEncode
    · rw [← finished_root encodes inTree]
      exact follows_uncased kidsFull kidsEncode (Nat.lt_succ_self _)
    · have length := length_of_cells encodes.cells
      have short := length_uncasedIndices_le kids (hole.index + 1)
      rw [Forest.Hole.size_fill, Forest.size] at length
      omega
  · constructor
    · exact reached_of_mem_uncased kidsEncode rfl (.inl rfl)
    · rintro ⟨reached, node, isNode, noCase⟩
      exact mem_uncased_of_mem_reached kidsEncode (mem_reached_of_reached encodes reached) isNode
        noCase

/-- A node as the correction expects it. -/
def unlinkedNode (type : YangType) (descendants : Nat) : AyYnode :=
  { AyYnode.blank 0 with type := type, descendants := descendants }

/-- A list with a case, in which a leaf follows another case, and with a leaf behind it. -/
def caseNodes : List AyYnode :=
  ayYnodeTreeCorrection [unlinkedNode .ynList 5, unlinkedNode .ynCase 3, unlinkedNode .ynCase 1,
    unlinkedNode .ynLeaf 0, unlinkedNode .ynLeaf 0, unlinkedNode .ynLeaf 0]

def caseForest : Forest Core :=
  let core (type : YangType) : Core := { Core.blank 0 with type := type }
  .cons (core .ynList)
    (.cons (core .ynCase)
      (.cons (core .ynCase) (.cons (core .ynLeaf) .nil .nil) (.cons (core .ynLeaf) .nil .nil))
      (.cons (core .ynLeaf) .nil .nil)) .nil

theorem ayYangIdentIter_enumerates_cases :
    ∃ iters, identIters caseNodes 0 caseNodes.length none = some iters ∧
      iters.Pairwise (· < ·) ∧
      ∀ iter, iter ∈ iters ↔ Reached caseNodes 0 iter ∧
        ∃ node, caseNodes[iter]? = some node ∧ node.type ≠ .ynCase := by
  have encodes : Encodes caseNodes caseForest := ⟨by decide, by decide⟩
  exact ayYangIdentIter_enumerates encodes (by decide) (by decide)

end Result

end SysrepoAugeas.Ident
