import SysrepoAugeas.Ynode.MergeCases

/-!
# What a merge adds to the tree

Moving nodes keeps them all, so a merge is accounted for by the `YN_CASE` nodes
that it inserts and by the branch that it deletes.  The account holds for any
weights of the types: it counts all nodes, those that are no `YN_CASE`, and the
temporary wrappers.
-/

namespace SysrepoAugeas.Ynode

open SysrepoAugeas.Data

@[simp]
theorem addFlags_type (flags : Nat) (node : AyYnode) : (addFlags flags node).type = node.type := rfl

/-- The sum of the weights of the types. -/
def weigh (weight : YangType → Nat) : Forest AyYnode → Nat
  | .nil => 0
  | .cons node kids rest => weight node.type + weigh weight kids + weigh weight rest

section Siblings

variable {weight : YangType → Nat} {change : AyYnode → AyYnode}

@[simp]
theorem weigh_nil : weigh weight .nil = 0 := rfl

@[simp]
theorem weigh_cons (node : AyYnode) (kids rest : Forest AyYnode) :
    weigh weight (.cons node kids rest) = weight node.type + weigh weight kids + weigh weight rest :=
  rfl

@[simp]
theorem weigh_append (forest other : Forest AyYnode) :
    weigh weight (forest.append other) = weigh weight forest + weigh weight other := by
  induction forest with
  | nil => simp [Forest.append]
  | cons node kids rest _ inductionHypothesis =>
      simp only [Forest.append, weigh_cons, inductionHypothesis]
      omega

theorem weigh_one (forest : Forest AyYnode) : weigh (fun _ => 1) forest = forest.size := by
  induction forest with
  | nil => rfl
  | cons node kids rest ofKids ofRest =>
      simp only [weigh_cons, Forest.size, ofKids, ofRest]
      omega

theorem weigh_takeTrees_add (count : Nat) (forest : Forest AyYnode) :
    weigh weight (forest.takeTrees count) + weigh weight (forest.dropTrees count) =
      weigh weight forest := by
  induction forest generalizing count with
  | nil => cases count <;> rfl
  | cons node kids rest _ inductionHypothesis =>
      cases count with
      | zero => simp [Forest.takeTrees, Forest.dropTrees]
      | succ count =>
          simp only [Forest.takeTrees, Forest.dropTrees, weigh_cons]
          have := inductionHypothesis count
          omega

theorem weigh_onRoots (same : ∀ node, (change node).type = node.type) (forest : Forest AyYnode) :
    weigh weight (onRoots change forest) = weigh weight forest := by
  induction forest with
  | nil => rfl
  | cons node kids rest _ inductionHypothesis => simp [onRoots, same, inductionHypothesis]

theorem weigh_onFirst (same : ∀ node, (change node).type = node.type) (forest : Forest AyYnode) :
    weigh weight (onFirst change forest) = weigh weight forest := by
  cases forest with
  | nil => rfl
  | cons node kids rest => simp [onFirst, same]

theorem weigh_onFirst? (same : ∀ node, (change node).type = node.type)
    {forest changed : Forest AyYnode} (result : onFirst? change forest = some changed) :
    weigh weight changed = weigh weight forest := by
  cases forest with
  | nil => cases result
  | cons node kids rest =>
      cases result
      simp [same]

theorem weigh_unsetLoneChoice (children : Forest AyYnode) :
    weigh weight (unsetLoneChoice children) = weigh weight children := by
  unfold unsetLoneChoice
  split <;> rfl

theorem castsToCase_blank (id : YnodeId) (kids : Forest AyYnode) :
    castsToCase (AyYnode.blank id) kids = false := by
  simp [castsToCase, AyYnode.blank]

theorem weigh_deleteNode {front kids rest nodes : Forest AyYnode} {node : AyYnode}
    (stays : castsToCase node kids = false)
    (result : deleteNode front node kids rest = some nodes) :
    weigh weight nodes = weigh weight front + weigh weight kids + weigh weight rest := by
  unfold deleteNode at result
  split at result
  · cases result
  · rw [stays] at result
    cases result
    rw [weigh_unsetLoneChoice, weigh_append, weigh_append]
    have inChoice : weigh weight (if node.type ≠ .ynCase ∧ node.choice.isSome then
        onRoots (fun child => { child with choice := node.choice }) kids else kids) =
        weigh weight kids := by
      split
      · apply weigh_onRoots
        intro
        rfl
      · rfl
    split
    · rw [weigh_onRoots, inChoice, Nat.add_assoc]
      intro
      rfl
    · rw [inChoice, Nat.add_assoc]

end Siblings

/-- The array has `cases` nodes more than before, and at no time it had more than `bound` nodes
more. -/
structure Grows (bound cases : Nat) (meter meter' : Meter) : Prop where
  le : cases ≤ bound
  now : meter'.now = meter.now + cases
  peak : meter'.peak ≤ max meter.peak (meter.now + bound)

namespace Grows

variable {meter meter' meter'' : Meter} {bound bound' cases cases' : Nat}

theorem refl (meter : Meter) : Grows 0 0 meter meter := by
  constructor <;> omega

theorem move (meter : Meter) (nodes : Nat) : Grows 0 0 meter (meter.move nodes) := by
  constructor <;> simp [Meter.move]

theorem insert (meter : Meter) : Grows 1 1 meter meter.insert := by
  constructor <;> simp [Meter.insert]

theorem trans (first : Grows bound cases meter meter') (next : Grows bound' cases' meter' meter'') :
    Grows (bound + bound') (cases + cases') meter meter'' := by
  obtain ⟨le, now, peak⟩ := first
  obtain ⟨le', now', peak'⟩ := next
  constructor <;> omega

theorem mono (grows : Grows bound cases meter meter') (le : bound ≤ bound') :
    Grows bound' cases meter meter' := by
  obtain ⟨_, now, peak⟩ := grows
  constructor <;> omega

end Grows

section Nodes

theorem moveWrapped_grows {meter : Meter} {front trees rest : Forest AyYnode}
    {moved : Forest AyYnode × Meter} (result : moveWrapped meter front trees rest = some moved) :
    Grows 1 0 meter moved.2 ∧ ∀ weight, weigh weight moved.1 =
      weigh weight front + weigh weight trees + weigh weight rest := by
  simp only [moveWrapped, castsToCase_blank, Option.map_eq_some_iff] at result
  obtain ⟨nodes, deleted, rfl⟩ := result
  constructor
  · constructor <;> simp [Meter.insert, Meter.move, Meter.delete]
  · intro weight
    exact weigh_deleteNode (castsToCase_blank _ _) deleted

theorem ayYnodeCaseInsert_grows (meter : Meter) (choice : Option Lnode) (ns : Forest AyYnode) :
    ∃ cases, Grows 1 cases meter (ayYnodeCaseInsert meter choice ns).2 ∧
      ∀ weight, weigh weight (ayYnodeCaseInsert meter choice ns).1 =
        weigh weight ns + cases * weight .ynCase := by
  have unchanged := (Grows.refl meter).mono (Nat.zero_le 1)
  cases ns with
  | nil => exact ⟨0, unchanged, by simp [ayYnodeCaseInsert]⟩
  | cons ns kids rest =>
      have kept : ∀ node : AyYnode, (if choice.isNone || node.choice.isNone then
          addFlags ayChoiceCreated node else node).type = node.type := by
        intro node
        split <;> rfl
      simp only [ayYnodeCaseInsert]
      split
      · exact ⟨0, unchanged, by simp⟩
      · split
        · rename_i alone
          exact ⟨0, unchanged, by simp [alone, addFlags]⟩
        · refine ⟨1, Grows.insert meter, fun weight => ?_⟩
          simp only [weigh_cons, weigh_nil, kept]
          omega

theorem ayYnodeMergeNodes_grows {meter : Meter} {ns1 ns2 : Forest AyYnode} {joined : Joined}
    (result : ayYnodeMergeNodes meter ns1 ns2 = some joined) :
    ∃ cases, Grows 2 cases meter joined.meter ∧
      ∀ weight, weigh weight joined.nodes + weigh weight joined.left =
        weigh weight ns1 + weigh weight ns2 + cases * weight .ynCase := by
  unfold ayYnodeMergeNodes at result
  split at result
  · cases result
    rename_i none2
    exact ⟨0, (Grows.refl meter).mono (Nat.zero_le 2), by simp [none2]⟩
  split at result
  · cases result
  split at result
  · -- both groups are in a choice
    obtain ⟨moved, wrapped, rfl⟩ := Option.map_eq_some_iff.mp result
    obtain ⟨grows, account⟩ := moveWrapped_grows wrapped
    refine ⟨0, grows.mono (Nat.le_succ 1), fun weight => ?_⟩
    have unified := @weigh_onRoots weight (fun iter => addFlags ayChoiceCreated
      { iter with choice := ns1.roots.head?.bind AyYnode.choice }) (fun _ => rfl) ns2
    simp only [weigh_nil, account weight, unified]
    omega
  split at result
  · -- the second group becomes one branch
    cases result
    obtain ⟨cases, grows, account⟩ :=
      ayYnodeCaseInsert_grows meter (ns1.roots.head?.bind AyYnode.choice) ns2
    refine ⟨cases, (grows.trans (Grows.move _ _)).mono (Nat.le_succ 1), fun weight => ?_⟩
    have taken := @weigh_takeTrees_add weight 1
      (ayYnodeCaseInsert meter (ns1.roots.head?.bind AyYnode.choice) ns2).1
    have := account weight
    simp only [weigh_append]
    omega
  split at result
  · -- the first group becomes one branch
    obtain ⟨moved, wrapped, rfl⟩ := Option.map_eq_some_iff.mp result
    obtain ⟨cases, grows, account⟩ :=
      ayYnodeCaseInsert_grows meter (ns2.roots.head?.bind AyYnode.choice) ns1
    obtain ⟨growsMoved, accountMoved⟩ := moveWrapped_grows wrapped
    refine ⟨cases, grows.trans growsMoved, fun weight => ?_⟩
    have taken := @weigh_takeTrees_add weight 1
      (ayYnodeCaseInsert meter (ns2.roots.head?.bind AyYnode.choice) ns1).1
    have := account weight
    simp only [weigh_nil, accountMoved weight]
    omega
  · -- both groups become branches of a new choice
    cases result
    obtain ⟨cases1, grows1, account1⟩ := ayYnodeCaseInsert_grows meter none ns1
    obtain ⟨cases2, grows2, account2⟩ :=
      ayYnodeCaseInsert_grows (ayYnodeCaseInsert meter none ns1).2 none ns2
    refine ⟨cases1 + cases2, grows1.trans (grows2.trans (Grows.move _ _)), fun weight => ?_⟩
    have taken := @weigh_takeTrees_add weight 1
      (ayYnodeCaseInsert (ayYnodeCaseInsert meter none ns1).2 none ns2).1
    have one := account1 weight
    have two := account2 weight
    simp only [weigh_append, Nat.add_mul]
    omega

theorem ayYnodeMergeAsChild_grows {meter : Meter} {ns1 : AyYnode} {children ns2 : Forest AyYnode}
    {merged : AyYnode × Forest AyYnode × Meter}
    (result : ayYnodeMergeAsChild meter ns1 children ns2 = some merged) :
    merged.1.type = ns1.type ∧ Grows 1 0 meter merged.2.2 ∧
      ∀ weight, weigh weight merged.2.1 = weigh weight children + weigh weight ns2 := by
  unfold ayYnodeMergeAsChild at result
  split at result
  · cases result
    exact ⟨rfl, (Grows.refl meter).mono (Nat.zero_le 1), by simp⟩
  · cases result
    exact ⟨rfl, (Grows.move meter _).mono (Nat.zero_le 1), by simp⟩
  · rename_i node kids rest _
    obtain ⟨moved, wrapped, rfl⟩ := Option.map_eq_some_iff.mp result
    obtain ⟨grows, account⟩ := moveWrapped_grows wrapped
    refine ⟨rfl, grows, fun weight => ?_⟩
    have kept : (if node.choice.isSome then addFlags ayChoiceMandFalse node else node).type =
        node.type := by
      split <;> rfl
    simp only [account weight, weigh_cons, weigh_nil, kept]
    omega

end Nodes

namespace Branch

/-- The sum of the weights of a branch. -/
def weigh (weight : YangType → Nat) (branch : Branch) : Nat :=
  Ynode.weigh weight (branch.toForest .nil)

/-- Only a node of type `YN_CASE` is around the first node, and without it this has another type. -/
def Proper (branch : Branch) : Prop :=
  (∀ cas ∈ branch.cas, cas.type = .ynCase) ∧ (branch.cas = none → branch.first.type ≠ .ynCase)

variable {weight : YangType → Nat}

theorem weigh_toForest (branch : Branch) (rest : Forest AyYnode) :
    Ynode.weigh weight (branch.toForest rest) = branch.weigh weight + Ynode.weigh weight rest := by
  unfold weigh toForest
  split <;> simp

theorem weigh_eq (branch : Branch) : branch.weigh weight =
    (branch.cas.elim 0 fun cas => weight cas.type + Ynode.weigh weight branch.others) +
      weight branch.first.type + Ynode.weigh weight branch.kids := by
  cases isCase : branch.cas with
  | none => simp [weigh, toForest, isCase]
  | some cas =>
      simp only [weigh, toForest, isCase, weigh_cons, weigh_nil, Option.elim_some]
      omega

theorem toForest_ofTree {node : AyYnode} {kids : Forest AyYnode} {branch : Branch}
    (result : ofTree node kids = some branch) (rest : Forest AyYnode) :
    branch.toForest rest = .cons node kids rest := by
  unfold ofTree at result
  split at result
  · split at result
    · cases result
    · cases result
      rfl
  · cases result
    rfl

theorem proper_ofTree {node : AyYnode} {kids : Forest AyYnode} {branch : Branch}
    (result : ofTree node kids = some branch) : branch.Proper := by
  unfold ofTree at result
  split at result
  · rename_i isCase
    split at result
    · cases result
    · cases result
      simp [Proper, isCase]
  · rename_i noCase
    cases result
    simp [Proper, noCase]

theorem first_ofTree {node : AyYnode} {kids : Forest AyYnode} {branch : Branch}
    (result : ofTree node kids = some branch) : firstOf node kids = branch.first := by
  simp [firstOf, result]

theorem root_ofTree {node : AyYnode} {kids : Forest AyYnode} {branch : Branch}
    (result : ofTree node kids = some branch) : branch.root = node := by
  unfold ofTree at result
  split at result
  · split at result
    · cases result
    · cases result
      rfl
  · cases result
    rfl

/-- What a merge keeps of the root and of the first node of a branch. -/
structure SameHead (branch branch' : Branch) : Prop where
  cas : branch'.cas.map AyYnode.type = branch.cas.map AyYnode.type
  first : branch'.first.type = branch.first.type
  id : branch'.root.id = branch.root.id

namespace SameHead

variable {branch branch' branch'' : Branch}

theorem refl (branch : Branch) : SameHead branch branch := ⟨rfl, rfl, rfl⟩

theorem trans (one : SameHead branch branch') (two : SameHead branch' branch'') :
    SameHead branch branch'' :=
  ⟨two.cas.trans one.cas, two.first.trans one.first, two.id.trans one.id⟩

theorem proper (same : SameHead branch branch') (proper : branch.Proper) : branch'.Proper := by
  obtain ⟨isCase, noCase⟩ := proper
  constructor
  · intro cas isCas
    have ofSame := same.cas
    rw [isCas] at ofSame
    obtain ⟨cas', isCas', sameType⟩ := Option.map_eq_some_iff.mp ofSame.symm
    exact sameType ▸ isCase cas' isCas'
  · intro none'
    rw [same.first]
    apply noCase
    have ofSame := same.cas
    rw [none'] at ofSame
    exact Option.map_eq_none_iff.mp ofSame.symm

end SameHead

/-- Only data of nodes differs. -/
structure Alike (branch branch' : Branch) : Prop extends SameHead branch branch' where
  weigh : ∀ weight, branch'.weigh weight = branch.weigh weight

namespace Alike

variable {branch branch' branch'' : Branch}

theorem refl (branch : Branch) : Alike branch branch := ⟨SameHead.refl branch, fun _ => rfl⟩

theorem trans (one : Alike branch branch') (two : Alike branch' branch'') : Alike branch branch'' :=
  ⟨one.toSameHead.trans two.toSameHead, fun weight => (two.weigh weight).trans (one.weigh weight)⟩

end Alike

end Branch

section Conditions

open Branch

theorem alike_onRoot {change : AyYnode → AyYnode} (sameType : ∀ node, (change node).type = node.type)
    (sameId : ∀ node, (change node).id = node.id) (branch : Branch) :
    Alike branch (branch.onRoot change) := by
  unfold Branch.onRoot
  split
  · rename_i cas isCase
    refine ⟨⟨?_, rfl, ?_⟩, fun weight => ?_⟩
    · simp [isCase, sameType]
    · simp [root, isCase, sameId]
    · simp [Branch.weigh, toForest, isCase, sameType]
  · rename_i noCase
    refine ⟨⟨?_, ?_, ?_⟩, fun weight => ?_⟩
    · simp [noCase]
    · simp [sameType]
    · simp [root, noCase, sameId]
    · simp [Branch.weigh, toForest, noCase, sameType]

/-- Changing data in front of the children and of the other nodes. -/
theorem alike_below {change : AyYnode → AyYnode} (same : ∀ node, (change node).type = node.type)
    {branch : Branch} {others : Forest AyYnode}
    (result : (if branch.cas.isSome then onFirst? change branch.others else some branch.others) =
      some others) : Alike branch { branch with kids := onFirst change branch.kids, others := others } := by
  obtain ⟨cas, first, kids, behind⟩ := branch
  refine ⟨⟨rfl, rfl, rfl⟩, fun weight => ?_⟩
  cases cas with
  | none => simp [Branch.weigh, toForest, weigh_onFirst same]
  | some cas => simp [Branch.weigh, toForest, weigh_onFirst same, weigh_onFirst? same result]

theorem alike_first {branch : Branch} {first : AyYnode} (type : first.type = branch.first.type)
    (id : first.id = branch.first.id) : Alike branch { branch with first := first } := by
  obtain ⟨cas, first', kids, others⟩ := branch
  refine ⟨⟨rfl, type, ?_⟩, fun weight => ?_⟩
  · cases cas with
    | none => exact id
    | some cas => rfl
  · cases cas with
    | none => simp [Branch.weigh, toForest, type]
    | some cas => simp [Branch.weigh, toForest, type]

theorem alike_setBelow {change : AyYnode → AyYnode} (same : ∀ node, (change node).type = node.type)
    {br set : Branch} {sets : Bool}
    (result : (if sets then
        (if br.cas.isSome then onFirst? change br.others else some br.others).map fun others =>
          { br with kids := onFirst change br.kids, others := others }
      else some br) = some set) : Alike br set := by
  split at result
  · obtain ⟨others, below, rfl⟩ := Option.map_eq_some_iff.mp result
    exact alike_below same below
  · cases result
    exact Alike.refl br

theorem ayYnodeMergeCasesMoveWhen_alike {br moved : Branch}
    (result : ayYnodeMergeCasesMoveWhen br = some moved) : Alike br moved := by
  have unset := @alike_onRoot (setWhen 0 none) (fun _ => rfl) (fun _ => rfl)
  simp only [ayYnodeMergeCasesMoveWhen] at result
  split at result
  · cases result
    exact unset br
  · obtain ⟨others, below, rfl⟩ := Option.map_eq_some_iff.mp result
    apply (alike_below _ below).trans (unset _)
    intro
    rfl

variable {lenses : Lnode → LensText}

theorem ayYnodeMergeCasesSetWhen_alike {br1 br2 : Branch} {set : Branch × Branch}
    (result : ayYnodeMergeCasesSetWhen lenses br1 br2 = some set) :
    Alike br1 set.1 ∧ Alike br2 set.2 := by
  unfold ayYnodeMergeCasesSetWhen at result
  split at result
  · obtain ⟨moved1, one, rest⟩ := Option.bind_eq_some_iff.mp result
    obtain ⟨moved2, two, same⟩ := Option.bind_eq_some_iff.mp rest
    cases same
    exact ⟨ayYnodeMergeCasesMoveWhen_alike one, ayYnodeMergeCasesMoveWhen_alike two⟩
  split at result
  · cases result
    exact ⟨Alike.refl br1, Alike.refl br2⟩
  · dsimp only at result
    obtain ⟨set1, one, rest⟩ := Option.bind_eq_some_iff.mp result
    obtain ⟨set2, two, same⟩ := Option.bind_eq_some_iff.mp rest
    cases same
    have alike1 := alike_setBelow (by intro; rfl) one
    have alike2 := alike_setBelow (by intro; rfl) two
    constructor
    · apply alike1.trans
      apply alike_first
      · split <;> rfl
      · split <;> rfl
    · exact alike2

end Conditions

section Merge

open Branch

variable {lenses : Lnode → LensText}

theorem mergeValue_type (first1 first2 : AyYnode) : (mergeValue first1 first2).type = first1.type := by
  unfold mergeValue
  split
  · rfl
  · split <;> rfl

theorem mergeValue_id (first1 first2 : AyYnode) : (mergeValue first1 first2).id = first1.id := by
  unfold mergeValue
  split
  · rfl
  · split <;> rfl

theorem mergeValueWithKids_type (first1 first2 : AyYnode) :
    (mergeValueWithKids lenses first1 first2).type = first1.type := by
  unfold mergeValueWithKids
  split
  · rfl
  · split
    · rfl
    · split <;> rfl

theorem mergeValueWithoutKids_type (first1 first2 : AyYnode) :
    (mergeValueWithoutKids lenses first1 first2).type = first1.type := by
  unfold mergeValueWithoutKids
  split
  · rfl
  · split
    · rfl
    · split <;> rfl

theorem choiceMandFalse_type (first1 child : AyYnode) :
    (choiceMandFalse first1 child).type = child.type := by
  unfold choiceMandFalse
  split <;> rfl

theorem mergeInside_grows {meter meter' : Meter} {br1 br2 merged1 merged2 : Branch}
    (result : mergeInside lenses meter br1 br2 = some (merged1, merged2, meter')) :
    SameHead br2 merged2 ∧ ∃ cases, Grows 2 cases meter meter' ∧
      ∀ weight : YangType → Nat, weight (withChildren br1.first.type) = weight br1.first.type →
        merged1.weigh weight + merged2.weigh weight =
          br1.weigh weight + br2.weigh weight + cases * weight .ynCase := by
  unfold mergeInside at result
  split at result
  · -- only the first branch has children
    cases result
    refine ⟨SameHead.refl br2, 0, (Grows.refl meter).mono (Nat.zero_le 2), fun weight _ => ?_⟩
    rw [weigh_eq, weigh_eq br1]
    simp only [mergeValueWithKids_type, weigh_onFirst (choiceMandFalse_type _)]
    omega
  split at result
  · -- only the second branch has children
    obtain ⟨⟨first1, kids, meter''⟩, asChild, same⟩ := Option.bind_eq_some_iff.mp result
    cases same
    obtain ⟨sameType, grows, account⟩ := ayYnodeMergeAsChild_grows asChild
    refine ⟨⟨rfl, rfl, rfl⟩, 0, grows.mono (Nat.le_succ 1), fun weight retype => ?_⟩
    rename_i noKids
    rw [weigh_eq, weigh_eq br1, weigh_eq br2, weigh_eq { br2 with kids := .nil }]
    simp only [mergeValueWithoutKids_type] at sameType
    simp only [weigh_onFirst (choiceMandFalse_type _), account weight, sameType, retype, noKids.1]
    simp only [weigh_nil]
    omega
  split at result
  · cases result
    refine ⟨SameHead.refl br2, 0, (Grows.refl meter).mono (Nat.zero_le 2), fun weight _ => ?_⟩
    rw [weigh_eq, weigh_eq br1]
    simp only [mergeValue_type]
    omega
  · obtain ⟨joined, merged, same⟩ := Option.map_eq_some_iff.mp result
    cases same
    obtain ⟨cases, grows, account⟩ := ayYnodeMergeNodes_grows merged
    refine ⟨⟨rfl, rfl, rfl⟩, cases, grows, fun weight _ => ?_⟩
    rw [weigh_eq, weigh_eq br1, weigh_eq br2, weigh_eq { br2 with kids := joined.left }]
    simp only [mergeValue_type]
    have := account weight
    omega

theorem mergeRest_grows {meter meter' : Meter} {br1 br2 merged1 merged2 : Branch}
    {front front' : Forest AyYnode}
    (result : mergeRest meter br1 br2 front = some (merged1, merged2, front', meter')) :
    merged2.first.type = br2.first.type ∧ ∃ cases, Grows 2 cases meter meter' ∧
      ∀ weight, merged1.weigh weight + merged2.weigh weight + weigh weight front' =
        br1.weigh weight + br2.weigh weight + weigh weight front + cases * weight .ynCase := by
  unfold mergeRest at result
  split at result
  · -- two groups of other nodes
    rename_i cas1 cas2 isCase1 isCase2
    obtain ⟨joined, merged, same⟩ := Option.map_eq_some_iff.mp result
    cases same
    obtain ⟨cases, grows, account⟩ := ayYnodeMergeNodes_grows merged
    refine ⟨rfl, cases, grows, fun weight => ?_⟩
    rw [weigh_eq, weigh_eq br1, weigh_eq br2, weigh_eq { br2 with others := joined.left }]
    simp only [isCase1, isCase2, Option.elim_some]
    have := account weight
    omega
  · rename_i cas1 isCase1 isCase2
    obtain ⟨others, flagged, same⟩ := Option.map_eq_some_iff.mp result
    cases same
    refine ⟨rfl, 0, (Grows.refl meter).mono (Nat.zero_le 2), fun weight => ?_⟩
    rw [weigh_eq, weigh_eq br1]
    simp only [isCase1, Option.elim_some, addFlags_type, weigh_onFirst? (addFlags_type _) flagged]
    omega
  · -- a new `YN_CASE` is around the first node
    rename_i cas2 isCase1 isCase2
    obtain ⟨⟨cas, kids, meter''⟩, asChild, rest⟩ := Option.bind_eq_some_iff.mp result
    obtain ⟨branch, ofTree, same⟩ := Option.map_eq_some_iff.mp rest
    cases same
    obtain ⟨sameType, grows, account⟩ := ayYnodeMergeAsChild_grows asChild
    have isCase : cas.type = .ynCase := sameType
    refine ⟨rfl, 1, (Grows.insert meter).trans grows, fun weight => ?_⟩
    have branchWeight : merged1.weigh weight = weight .ynCase + weigh weight kids := by
      unfold Branch.weigh
      rw [toForest_ofTree ofTree]
      simp only [weigh_cons, weigh_nil, isCase]
      omega
    rw [branchWeight, account weight, weigh_eq br1, weigh_eq br2, weigh_eq { br2 with others := .nil }]
    simp only [isCase1, isCase2, Option.elim_some, Option.elim_none, weigh_cons, weigh_nil,
      weigh_onFirst (addFlags_type _)]
    omega
  · cases result
    exact ⟨rfl, 0, (Grows.refl meter).mono (Nat.zero_le 2), by simp⟩

end Merge

section Found

variable {weight : YangType → Nat}

/-- Every sibling with an id begins with a node that is no `YN_CASE`. -/
def beginsPlain (id : YnodeId) : Forest AyYnode → Bool
  | .nil => true
  | .cons node kids rest =>
      (node.id != id || (firstOf node kids).type != .ynCase) && beginsPlain id rest

@[simp]
theorem beginsPlain_append (id : YnodeId) (forest other : Forest AyYnode) :
    beginsPlain id (forest.append other) = (beginsPlain id forest && beginsPlain id other) := by
  induction forest with
  | nil => rfl
  | cons node kids rest _ inductionHypothesis =>
      simp only [Forest.append, beginsPlain, inductionHypothesis, Bool.and_assoc]

theorem beginsPlain_toForest (id : YnodeId) {branch : Branch} (proper : branch.Proper)
    (rest : Forest AyYnode) : beginsPlain id (branch.toForest rest) =
      ((branch.root.id != id || branch.first.type != .ynCase) && beginsPlain id rest) := by
  obtain ⟨isCase, noCase⟩ := proper
  obtain ⟨cas, first, kids, others⟩ := branch
  cases cas with
  | none => simp [Branch.toForest, Branch.root, beginsPlain, firstOf, Branch.ofTree, noCase rfl]
  | some cas =>
      simp [Branch.toForest, Branch.root, beginsPlain, firstOf, Branch.ofTree, isCase cas rfl]

theorem weigh_findId {id : YnodeId} {forest : Forest AyYnode} {found : FoundBranch}
    (result : findId id forest = some found) :
    weigh weight forest = weigh weight found.front + (weight found.node.type +
      weigh weight found.kids) + weigh weight found.back := by
  induction forest generalizing found with
  | nil => cases result
  | cons node kids rest _ inductionHypothesis =>
      unfold findId at result
      split at result
      · cases result
        simp
      · obtain ⟨inRest, isFound, rfl⟩ := Option.map_eq_some_iff.mp result
        simp only [weigh_cons, inductionHypothesis isFound]
        omega

theorem firstOf_findId {id : YnodeId} {forest : Forest AyYnode} {found : FoundBranch}
    (plain : beginsPlain id forest) (result : findId id forest = some found) :
    (firstOf found.node found.kids).type ≠ .ynCase := by
  induction forest generalizing found with
  | nil => cases result
  | cons node kids rest _ inductionHypothesis =>
      unfold findId at result
      simp only [beginsPlain, Bool.and_eq_true, Bool.or_eq_true, bne_iff_ne] at plain
      split at result
      · rename_i isFound
        cases result
        exact plain.1.resolve_left (not_not_intro isFound)
      · obtain ⟨inRest, isFound, rfl⟩ := Option.map_eq_some_iff.mp result
        have := inductionHypothesis plain.2 isFound
        exact this

end Found

section MergeCases

open Branch

variable {lenses : Lnode → LensText}

/-- The weight by which the nodes are counted that are no `YN_CASE`. -/
def otherThanCase (type : YangType) : Nat := if type = .ynCase then 0 else 1

/-- A type has the same weight as those that a merge may change it to. -/
def Uniform (weight : YangType → Nat) (type : YangType) : Prop :=
  weight .ynContainer = weight type ∧ weight .ynList = weight type

theorem Uniform.withChildren {weight : YangType → Nat} {type : YangType}
    (uniform : Uniform weight type) : weight (withChildren type) = weight type := by
  unfold Ynode.withChildren
  split
  · exact uniform.2
  · exact uniform.1

/-- What a merge does to the array and to the siblings: it inserts `cases` nodes, and those in
`gone` are deleted, among them the branch with the id of the second one. -/
structure Merges (meter meter' : Meter) (first1 : AyYnode) (br2 : YnodeId)
    (before after : Forest AyYnode) : Prop where
  first : ∀ weight : YangType → Nat, weight first1.type ≤ weigh weight before
  account : ∃ cases gone grown, Grows 4 cases meter grown ∧ meter' = grown.delete gone.size ∧
    (beginsPlain br2 before → 1 ≤ weigh otherThanCase gone) ∧
    ∀ weight, Uniform weight first1.type →
      weigh weight after + weigh weight gone = weigh weight before + cases * weight .ynCase

theorem weigh_of_first {branch : Branch} (notCase : branch.first.type ≠ .ynCase) :
    1 ≤ branch.weigh otherThanCase := by
  rw [weigh_eq]
  have : otherThanCase branch.first.type = 1 := if_neg notCase
  omega

theorem weight_firstOf_le {weight : YangType → Nat} (node : AyYnode) (kids rest : Forest AyYnode) :
    weight (firstOf node kids).type ≤ weigh weight (.cons node kids rest) := by
  unfold firstOf Branch.ofTree
  split
  · cases kids with
    | nil =>
        simp only [Option.map_none, Option.getD_none, weigh_cons]
        omega
    | cons first kids others =>
        simp only [Option.map_some, Option.getD_some, weigh_cons]
        omega
  · simp only [Option.map_some, Option.getD_some, weigh_cons]
    omega

theorem merges_ayYnodeMergeCases_ {meter meter' : Meter} {br1 br2 : Branch}
    {front back merged : Forest AyYnode} (proper1 : br1.Proper) (proper2 : br2.Proper)
    (result : ayYnodeMergeCases_ lenses meter br1 front br2 back = some (merged, meter')) :
    Merges meter meter' br1.first br2.root.id (br1.toForest (front.append (br2.toForest back)))
      merged := by
  unfold ayYnodeMergeCases_ at result
  simp only [Option.bind_eq_bind, Option.bind_eq_some_iff] at result
  obtain ⟨⟨set1, set2⟩, isSet, ⟨in1, in2, meterIn⟩, isIn, found, isFound, left, ofTree,
    ⟨rest1, rest2, front', meterRest⟩, isRest, same⟩ := result
  cases same
  dsimp only at isIn isFound isRest
  obtain ⟨alikeSet1, alike2⟩ : Alike _ set1 ∧ Alike br2 set2 := ayYnodeMergeCasesSetWhen_alike isSet
  have alike1 : Alike br1 set1 := by
    apply Alike.trans _ alikeSet1
    apply alike_first
    · rfl
    · rfl
  obtain ⟨head2, cases1, growsIn, accountIn⟩ := mergeInside_grows isIn
  obtain ⟨sameFirst, cases2, growsRest, accountRest⟩ := mergeRest_grows isRest
  constructor
  · intro weight
    rw [weigh_toForest, weigh_eq]
    omega
  refine ⟨cases1 + cases2, rest2.toForest .nil, meterRest, growsIn.trans growsRest, rfl, ?_, ?_⟩
  · intro plain
    have head : SameHead br2 in2 := alike2.toSameHead.trans head2
    have plainNow : beginsPlain in2.root.id (front.append (in2.toForest back)) := by
      rw [beginsPlain_toForest _ proper1, beginsPlain_append, beginsPlain_toForest _ proper2] at plain
      rw [beginsPlain_append, beginsPlain_toForest _ (head.proper proper2), head.id, head.first]
      exact (Bool.and_eq_true_iff.mp plain).2
    have notCase := firstOf_findId plainNow isFound
    rw [first_ofTree ofTree, ← sameFirst] at notCase
    exact weigh_of_first notCase
  · intro weight uniform
    rw [← alike1.first] at uniform
    have inside := accountIn weight uniform.withChildren
    have rest := accountRest weight
    have search := @weigh_findId weight _ _ _ isFound
    have leftTree : left.weigh weight = weight found.node.type + weigh weight found.kids := by
      unfold Branch.weigh
      rw [toForest_ofTree ofTree]
      simp
    have one := alike1.weigh weight
    have two := alike2.weigh weight
    simp only [weigh_toForest, weigh_append, weigh_nil, Nat.add_mul] at search ⊢
    omega

/-- Deleting the second branch at once. -/
theorem merges_delete {meter : Meter} {chn1 : AyYnode} {kids1 : Forest AyYnode}
    {chn2 : FoundBranch} {after : Forest AyYnode}
    (kept : ∀ weight, Uniform weight (firstOf chn1 kids1).type →
      weigh weight after + weigh weight (.cons chn2.node chn2.kids .nil) = weigh weight
        (.cons chn1 kids1 (chn2.front.append (.cons chn2.node chn2.kids chn2.back)))) :
    Merges meter (meter.delete (chn2.kids.size + 1)) (firstOf chn1 kids1) chn2.node.id
      (.cons chn1 kids1 (chn2.front.append (.cons chn2.node chn2.kids chn2.back))) after := by
  constructor
  · intro weight
    exact weight_firstOf_le chn1 kids1 _
  refine ⟨0, .cons chn2.node chn2.kids .nil, meter, (Grows.refl meter).mono (Nat.zero_le 4), rfl,
    ?_, ?_⟩
  · intro plain
    simp only [beginsPlain, beginsPlain_append, Bool.and_eq_true, Bool.or_eq_true, bne_iff_ne, ne_eq,
      not_true_eq_false, false_or] at plain
    have := @weight_firstOf_le otherThanCase chn2.node chn2.kids .nil
    rwa [otherThanCase, if_neg plain.2.2.1] at this
  · intro weight uniform
    rw [kept weight uniform, Nat.zero_mul, Nat.add_zero]

theorem weight_onlyByRepetition {br1 br2 merged : AyYnode} {kids1 kids2 : Forest AyYnode}
    (result : ayYnodeMergeCasesOnlyByRepetition lenses br1 kids1 br2 kids2 = some merged)
    {weight : YangType → Nat} (uniform : Uniform weight (firstOf br1 kids1).type) :
    weight merged.type = weight br1.type := by
  simp only [ayYnodeMergeCasesOnlyByRepetition] at result
  split at result
  · cases result
  · rename_i applies
    split at result
    · rename_i isList
      cases result
      have notCase : br1.type ≠ .ynCase := by
        intro isCase
        simp [isCase, isList] at applies
      simp only [firstOf, ofTree, if_neg notCase] at uniform
      rw [isList]
      exact uniform.2
    · cases result
      rfl

theorem onlyByValue_alike {br1 br2 merged : Branch}
    (result : ayYnodeMergeCasesOnlyByValue lenses br1 br2 = some (some merged)) :
    Alike br1 merged := by
  unfold ayYnodeMergeCasesOnlyByValue at result
  split at result
  · cases result
  split at result
  · cases result
  · obtain ⟨equal, _, isMerged⟩ := Option.map_eq_some_iff.mp result
    split at isMerged
    · cases isMerged
      apply alike_first
      · exact mergeValue_type _ _
      · exact mergeValue_id _ _
    · cases isMerged

theorem mergeBranches_merges {meter meter' : Meter} {chn1 : AyYnode} {kids1 : Forest AyYnode}
    {chn2 : FoundBranch} {merged : Forest AyYnode}
    (result : mergeBranches lenses meter chn1 kids1 chn2 = some (merged, meter')) :
    Merges meter meter' (firstOf chn1 kids1) chn2.node.id
      (.cons chn1 kids1 (chn2.front.append (.cons chn2.node chn2.kids chn2.back))) merged := by
  unfold mergeBranches at result
  split at result
  · rename_i once byRepetition
    cases result
    apply merges_delete
    intro weight uniform
    simp only [weigh_cons, weigh_append, weigh_nil, weight_onlyByRepetition byRepetition uniform]
    omega
  · obtain ⟨br1, isBr1, rest⟩ := Option.bind_eq_some_iff.mp result
    obtain ⟨br2, isBr2, rest⟩ := Option.bind_eq_some_iff.mp rest
    obtain ⟨byValue, isByValue, rest⟩ := Option.bind_eq_some_iff.mp rest
    split at rest
    · cases rest
      apply merges_delete
      intro weight _
      have sameWeight := (onlyByValue_alike isByValue).weigh weight
      have tree := toForest_ofTree isBr1 .nil
      simp only [weigh_toForest, sameWeight, weigh_cons, weigh_append, weigh_nil]
      rw [Branch.weigh, tree, weigh_cons, weigh_nil]
      omega
    · have merges := merges_ayYnodeMergeCases_ (proper_ofTree isBr1) (proper_ofTree isBr2) rest
      rwa [toForest_ofTree isBr1, toForest_ofTree isBr2, root_ofTree isBr2,
        ← first_ofTree isBr1] at merges

theorem leaveChoice_weigh {front kids1 rest front' after : Forest AyYnode} {chn1 : AyYnode}
    {meter meter' : Meter}
    (result : leaveChoice front chn1 kids1 rest meter = some (front', after, meter')) :
    ∃ gone : Forest AyYnode, meter' = meter.delete gone.size ∧
      ∀ weight, weigh weight front' + weigh weight after + weigh weight gone =
        weigh weight front + weigh weight (.cons chn1 kids1 rest) := by
  have sameType : ∀ node, (unsetWhen node).type = node.type := by
    intro node
    unfold unsetWhen
    split <;> rfl
  unfold leaveChoice at result
  split at result
  · split at result
    · rename_i isCase
      obtain ⟨siblings, deleted, same⟩ := Option.map_eq_some_iff.mp result
      cases same
      refine ⟨.cons chn1 .nil .nil, rfl, fun weight => ?_⟩
      have kept := @weigh_deleteNode weight _ _ _ _ _ (by simp [castsToCase, isCase]) deleted
      have split := @weigh_takeTrees_add weight front.roots.length siblings
      simp only [weigh_onFirst sameType, weigh_cons, weigh_nil]
      omega
    · cases result
      refine ⟨.nil, rfl, fun weight => ?_⟩
      rw [weigh_cons, sameType]
      rfl
  · cases result
    exact ⟨.nil, rfl, fun weight => rfl⟩

theorem findMatch_split {chn1 : AyYnode} {kids1 rest : Forest AyYnode} {found : FoundBranch}
    (result : findMatch lenses chn1 kids1 rest = some (some found)) :
    rest = found.front.append (.cons found.node found.kids found.back) := by
  induction rest generalizing found with
  | nil => cases result
  | cons chn2 kids2 rest _ inductionHypothesis =>
      unfold findMatch at result
      split at result
      · obtain ⟨isMatch, _, result⟩ := Option.bind_eq_some_iff.mp result
        split at result
        · cases result
          rfl
        · obtain ⟨inRest, isFound, same⟩ := Option.bind_eq_some_iff.mp result
          obtain ⟨other, isOther, rfl⟩ := Option.map_eq_some_iff.mp (Option.some.inj same)
          subst isOther
          have := inductionHypothesis isFound
          simp only [Forest.append]
          rw [← this]
      · cases result

theorem nextMerge_split {siblings : Forest AyYnode} {next : NextMerge}
    (result : nextMerge lenses siblings = some (some next)) :
    siblings = next.passed.append (.cons next.chn1 next.kids1
      (next.chn2.front.append (.cons next.chn2.node next.chn2.kids next.chn2.back))) := by
  induction siblings generalizing next with
  | nil => cases result
  | cons chn1 kids1 rest _ inductionHypothesis =>
      unfold nextMerge at result
      split at result
      · cases result
      · rename_i chn2 isMatch
        cases result
        unfold matchOf at isMatch
        split at isMatch
        · cases isMatch
        · rw [findMatch_split isMatch]
          rfl
      · obtain ⟨other, isOther, same⟩ := Option.map_eq_some_iff.mp result
        obtain ⟨inRest, rfl, rfl⟩ := Option.map_eq_some_iff.mp same
        have := inductionHypothesis isOther
        simp only [Forest.append]
        rw [← this]

theorem mergeOnce_merges {front siblings passed merged : Forest AyYnode} {next : NextMerge}
    {meter meter' : Meter} (isNext : nextMerge lenses siblings = some (some next))
    (result : mergeOnce lenses front next meter = some (passed, merged, meter')) :
    Merges meter meter' (firstOf next.chn1 next.kids1) next.chn2.node.id (front.append siblings)
      (passed.append merged) := by
  unfold mergeOnce at result
  obtain ⟨⟨branches, between⟩, areMerged, result⟩ := Option.bind_eq_some_iff.mp result
  dsimp only at result
  split at result
  · rename_i chn1 kids1 rest
    obtain ⟨gone', isDeleted, kept⟩ := leaveChoice_weigh result
    obtain ⟨first, cases, gone, grown, grows, rfl, notCase, account⟩ := mergeBranches_merges areMerged
    rw [nextMerge_split isNext]
    constructor
    · intro weight
      have := first weight
      simp only [weigh_append]
      omega
    refine ⟨cases, gone.append gone', grown, grows, ?_, ?_, ?_⟩
    · rw [isDeleted, Forest.size_append]
      simp [Meter.delete, Nat.sub_sub]
    · intro plain
      simp only [beginsPlain_append, Bool.and_eq_true] at plain
      have := notCase plain.2.2
      rw [weigh_append]
      omega
    · intro weight uniform
      have merged := account weight uniform
      have left := kept weight
      simp only [weigh_append] at left ⊢
      omega
  · cases result

end MergeCases

end SysrepoAugeas.Ynode
