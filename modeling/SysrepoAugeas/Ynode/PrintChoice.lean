import SysrepoAugeas.Ynode.SplitChoice

/-!
# Printing choices

A choice is no node; the printer of a node opens the choice-stmt at the first
sibling with a choice id and closes it where the next sibling has another one.
Of the printed text only the braces around the children and the choice-stmts
are kept.  `none` stands for a call that returns an error.
-/

namespace SysrepoAugeas.Ynode

open SysrepoAugeas.Data

inductive Token where
  /-- Statements of a node that close the braces that they open. -/
  | statement
  | nestingBegin
  /-- Head of a choice-stmt with its opening brace. -/
  | choice (id : Lnode)
  | nestingEnd
  deriving DecidableEq

section Print

/-- `ay_print_yang_node_` -/
def ayPrintYangNode_ (node : AyYnode) (children : Option (List Token)) : Option (List Token) :=
  match node.type with
  | .ynUnknown | .ynCase => none
  | .ynLeaf | .ynLeafref | .ynKey | .ynValue | .ynUses => some [.statement]
  | .ynList | .ynContainer | .ynGrouping =>
      children.map fun tokens => .nestingBegin :: .statement :: tokens ++ [.nestingEnd]
  | .ynRec | .ynRoot => children

/-- The tokens under a case-stmt; a single branch has none. -/
def inCase (alone : Bool) (tokens : List Token) : List Token :=
  if alone then tokens else .nestingBegin :: tokens ++ [.nestingEnd]

/-- `ay_print_yang_node_in_choice` -/
def ayPrintYangNodeInChoice (node : AyYnode) (alone : Bool) (children : Option (List Token)) :
    Option (List Token) :=
  match node.type with
  | .ynCase => children.map (inCase alone)
  | .ynUses => (ayPrintYangNode_ node children).map (inCase alone)
  | _ => ayPrintYangNode_ node children

/-- `ay_print_yang_node` for a node behind siblings with the choices `earlier`; `next` is the
choice of the next sibling, if there is one. -/
def ayPrintYangNode (earlier : List (Option Lnode)) (next : Option Lnode) (node : AyYnode)
    (children : Option (List Token)) : Option (List Token) :=
  match node.choice with
  | none => ayPrintYangNode_ node children
  | some choice =>
      let first := !earlier.contains (some choice)
      let nextHasSameChoice := next == some choice
      let alone := first && !nextHasSameChoice
      let last := !first && !nextHasSameChoice
      let printed := ayPrintYangNodeInChoice node alone children
      if alone || (!first && !last) then printed
      else if first && !last then printed.map (.choice choice :: ·)
      else printed.map (· ++ [.nestingEnd])

/-- The choice of the first sibling. -/
def firstChoice : Forest AyYnode → Option Lnode
  | .nil => none
  | .cons node _ _ => node.choice

/-- `ay_print_yang_children` -/
def ayPrintYangChildren : List (Option Lnode) → Forest AyYnode → Option (List Token)
  | _, .nil => some []
  | earlier, .cons node kids rest => do
      let printed ← ayPrintYangNode earlier (firstChoice rest) node (ayPrintYangChildren [] kids)
      let others ← ayPrintYangChildren (node.choice :: earlier) rest
      some (printed ++ others)

end Print

section Layout

/-- Every brace is closed. -/
inductive Balanced : List Token → Prop
  | nil : Balanced []
  | statement : Balanced [.statement]
  | nested {tokens : List Token} :
      Balanced tokens → Balanced (.nestingBegin :: tokens ++ [.nestingEnd])
  | choice {tokens : List Token} (id : Lnode) :
      Balanced tokens → Balanced (.choice id :: tokens ++ [.nestingEnd])
  | append {tokens others : List Token} :
      Balanced tokens → Balanced others → Balanced (tokens ++ others)

/-- The branches of a choice, one after another. -/
def branchTokens : Forest AyYnode → Option (List Token)
  | .nil => some []
  | .cons node kids rest => do
      let printed ← ayPrintYangNodeInChoice node false (ayPrintYangChildren [] kids)
      let others ← branchTokens rest
      some (printed ++ others)

/-- The text of siblings: a choice with several branches has one choice-stmt around them, and
no choice comes up again. -/
inductive LaidOut : Forest AyYnode → List Token → Prop
  | nil : LaidOut .nil []
  | plain {node : AyYnode} {kids rest : Forest AyYnode} {tokens others : List Token} :
      node.choice = none →
      ayPrintYangNode_ node (ayPrintYangChildren [] kids) = some tokens →
      LaidOut rest others → LaidOut (.cons node kids rest) (tokens ++ others)
  | single {node : AyYnode} {kids rest : Forest AyYnode} {tokens others : List Token}
      {id : Lnode} :
      node.choice = some id → some id ∉ choices rest →
      ayPrintYangNodeInChoice node true (ayPrintYangChildren [] kids) = some tokens →
      LaidOut rest others → LaidOut (.cons node kids rest) (tokens ++ others)
  | choice {branches rest : Forest AyYnode} {tokens others : List Token} {id : Lnode} :
      2 ≤ branches.roots.length → (∀ node ∈ branches.roots, node.choice = some id) →
      some id ∉ choices rest → branchTokens branches = some tokens →
      LaidOut rest others →
      LaidOut (branches.append rest) (.choice id :: tokens ++ .nestingEnd :: others)

variable {earlier : List (Option Lnode)} {node : AyYnode} {kids rest forest : Forest AyYnode}
  {tokens : List Token} {id : Lnode}

theorem exists_append_of_choices (forest : Forest AyYnode) {front back : List (Option Lnode)}
    (split : choices forest = front ++ back) :
    ∃ first last : Forest AyYnode,
      forest = first.append last ∧ choices first = front ∧ choices last = back := by
  induction front generalizing forest with
  | nil => exact ⟨.nil, forest, rfl, rfl, split⟩
  | cons choice front inductionHypothesis =>
      cases forest with
      | nil => cases split
      | cons node kids rest =>
          obtain ⟨same, splitRest⟩ := List.cons.inj split
          obtain ⟨first, last, rfl, ofFirst, ofLast⟩ := inductionHypothesis rest splitRest
          exact ⟨.cons node kids first, last, rfl, congrArg₂ List.cons same ofFirst, ofLast⟩

theorem firstChoice_ne (fresh : some id ∉ choices rest) : firstChoice rest ≠ some id := by
  cases rest with
  | nil => simp [firstChoice]
  | cons node kids rest =>
      intro same
      exact fresh (same ▸ List.mem_cons_self)

section Roles

/-! The four places that a branch can have in its choice. -/

variable {next : Option Lnode} {children : Option (List Token)}

theorem ayPrintYangNode_alone (chosen : node.choice = some id) (unseen : some id ∉ earlier)
    (differs : next ≠ some id) :
    ayPrintYangNode earlier next node children = ayPrintYangNodeInChoice node true children := by
  have last : (next == some id) = false := by simpa using differs
  simp [ayPrintYangNode, chosen, unseen, last]

theorem ayPrintYangNode_first (chosen : node.choice = some id) (unseen : some id ∉ earlier)
    (same : next = some id) :
    ayPrintYangNode earlier next node children =
      (ayPrintYangNodeInChoice node false children).map (.choice id :: ·) := by
  simp [ayPrintYangNode, chosen, unseen, same]

theorem ayPrintYangNode_middle (chosen : node.choice = some id) (seen : some id ∈ earlier)
    (same : next = some id) :
    ayPrintYangNode earlier next node children = ayPrintYangNodeInChoice node false children := by
  simp [ayPrintYangNode, chosen, seen, same]

theorem ayPrintYangNode_last (chosen : node.choice = some id) (seen : some id ∈ earlier)
    (differs : next ≠ some id) :
    ayPrintYangNode earlier next node children =
      (ayPrintYangNodeInChoice node false children).map (· ++ [.nestingEnd]) := by
  simp [ayPrintYangNode, chosen, seen, differs]

end Roles

theorem ayPrintYangChildren_cons (printed :
    ayPrintYangChildren earlier (.cons node kids rest) = some tokens) :
    ∃ own others,
      ayPrintYangNode earlier (firstChoice rest) node (ayPrintYangChildren [] kids) = some own ∧
      ayPrintYangChildren (node.choice :: earlier) rest = some others ∧ tokens = own ++ others := by
  rw [ayPrintYangChildren] at printed
  obtain ⟨own, ofNode, printed⟩ := Option.bind_eq_some_iff.mp printed
  obtain ⟨others, ofRest, same⟩ := Option.bind_eq_some_iff.mp printed
  exact ⟨own, others, ofNode, ofRest, (Option.some.inj same).symm⟩

/-- The branches behind the first one close the choice-stmt. -/
theorem print_branches {run : Forest AyYnode} (seen : some id ∈ earlier)
    (nonempty : run ≠ .nil) (chosen : ∀ node ∈ run.roots, node.choice = some id)
    (behind : some id ∉ choices rest)
    (printed : ayPrintYangChildren earlier (run.append rest) = some tokens) :
    ∃ bodies others, branchTokens run = some bodies ∧
      ayPrintYangChildren ((choices run).reverse ++ earlier) rest = some others ∧
      tokens = bodies ++ .nestingEnd :: others := by
  induction run generalizing earlier tokens with
  | nil => exact absurd rfl nonempty
  | cons node kids run _ inductionHypothesis =>
      have ofNode : node.choice = some id := chosen node List.mem_cons_self
      obtain ⟨own, others, printedNode, printedRest, rfl⟩ := ayPrintYangChildren_cons printed
      cases run with
      | nil =>
          rw [Forest.append, ayPrintYangNode_last ofNode seen (firstChoice_ne behind)] at printedNode
          obtain ⟨body, printedBody, rfl⟩ := Option.map_eq_some_iff.mp printedNode
          refine ⟨body, others, ?_, ?_, by simp⟩
          · simp [branchTokens, printedBody]
          · rw [choices, Forest.roots, List.map_cons]
            exact printedRest
      | cons second secondKids run =>
          have next : firstChoice ((Forest.cons second secondKids run).append rest) = some id :=
            chosen second (List.mem_cons_of_mem node List.mem_cons_self)
          rw [ayPrintYangNode_middle ofNode seen next] at printedNode
          obtain ⟨bodies, remaining, ofRun, ofRest, rfl⟩ :=
            inductionHypothesis (List.mem_cons_of_mem _ seen) (by simp)
              (fun other member => chosen other (List.mem_cons_of_mem node member)) printedRest
          refine ⟨own ++ bodies, remaining, ?_, ?_, by simp⟩
          · rw [branchTokens, printedNode, ofRun]
            rfl
          · rw [choices, Forest.roots, List.map_cons, List.reverse_cons, List.append_assoc]
            exact ofRest

/-- Several branches are printed under one choice-stmt. -/
theorem print_choice {run : Forest AyYnode} (unseen : some id ∉ earlier)
    (several : 2 ≤ run.roots.length) (chosen : ∀ node ∈ run.roots, node.choice = some id)
    (behind : some id ∉ choices rest)
    (printed : ayPrintYangChildren earlier (run.append rest) = some tokens) :
    ∃ bodies others, branchTokens run = some bodies ∧
      ayPrintYangChildren ((choices run).reverse ++ earlier) rest = some others ∧
      tokens = .choice id :: bodies ++ .nestingEnd :: others := by
  cases run with
  | nil => simp [Forest.roots] at several
  | cons node kids run =>
      cases run with
      | nil => simp [Forest.roots] at several
      | cons second secondKids run =>
          have ofNode : node.choice = some id := chosen node List.mem_cons_self
          have next : firstChoice ((Forest.cons second secondKids run).append rest) = some id :=
            chosen second (List.mem_cons_of_mem node List.mem_cons_self)
          obtain ⟨own, others, printedNode, printedRest, rfl⟩ := ayPrintYangChildren_cons printed
          change ayPrintYangNode _ (firstChoice ((Forest.cons second secondKids run).append rest)) _ _ =
            some own at printedNode
          rw [ayPrintYangNode_first ofNode unseen next] at printedNode
          obtain ⟨body, printedBody, rfl⟩ := Option.map_eq_some_iff.mp printedNode
          rw [ofNode] at printedRest
          obtain ⟨bodies, remaining, ofRun, ofRest, rfl⟩ :=
            @print_branches _ rest _ id (.cons second secondKids run) List.mem_cons_self (by simp)
              (fun other member => chosen other (List.mem_cons_of_mem node member)) behind printedRest
          refine ⟨body ++ bodies, remaining, ?_, ?_, by simp⟩
          · rw [branchTokens, printedBody, ofRun]
            rfl
          · rw [choices, Forest.roots, List.map_cons, List.reverse_cons, List.append_assoc, ofNode]
            exact ofRest

/-- The branches of the first choice. -/
theorem exists_branches (chosen : node.choice = some id)
    (consecutive : Consecutive (choices (.cons node kids rest))) :
    ∃ run last : Forest AyYnode, rest = run.append last ∧
      (∀ branch ∈ run.roots, branch.choice = some id) ∧ some id ∉ choices last := by
  have ofId : Consecutive (some id :: choices rest) := chosen ▸ consecutive
  obtain ⟨length, behind, split, notBehind⟩ := ofId.exists_run
  obtain ⟨run, last, same, ofRun, ofLast⟩ := exists_append_of_choices rest split
  refine ⟨run, last, same, fun branch member => ?_, ofLast ▸ notBehind⟩
  have inChoices : branch.choice ∈ choices run := List.mem_map_of_mem member
  rw [ofRun] at inChoices
  exact List.eq_of_mem_replicate inChoices

/-- Consecutive choices are laid out with one choice-stmt each. -/
theorem print_laidOut (count : Nat) (few : forest.roots.length ≤ count)
    (consecutive : Consecutive (choices forest))
    (unseen : ∀ id, some id ∈ choices forest → some id ∉ earlier)
    (printed : ayPrintYangChildren earlier forest = some tokens) : LaidOut forest tokens := by
  induction count generalizing forest earlier tokens with
  | zero =>
      cases forest with
      | nil =>
          obtain rfl := Option.some.inj printed
          exact .nil
      | cons node kids rest => simp [Forest.roots] at few
  | succ count inductionHypothesis =>
      cases forest with
      | nil =>
          obtain rfl := Option.some.inj printed
          exact .nil
      | cons node kids rest =>
          have fewRest : rest.roots.length ≤ count := by simpa [Forest.roots] using few
          cases chosen : node.choice with
          | none =>
              obtain ⟨own, others, printedNode, printedRest, rfl⟩ := ayPrintYangChildren_cons printed
              simp only [ayPrintYangNode, chosen] at printedNode
              refine .plain chosen printedNode
                (inductionHypothesis fewRest consecutive.tail ?_ printedRest)
              intro id member
              rw [chosen, List.mem_cons, not_or]
              exact ⟨by simp, unseen id (List.mem_cons_of_mem _ member)⟩
          | some id =>
              have fresh : some id ∉ earlier := unseen id (chosen ▸ List.mem_cons_self)
              obtain ⟨run, last, rfl, ofRun, behind⟩ := exists_branches chosen consecutive
              have allChosen : ∀ branch ∈ (Forest.cons node kids run).roots,
                  branch.choice = some id := List.forall_mem_cons.mpr ⟨chosen, ofRun⟩
              have onlyId : ∀ key ∈ choices (.cons node kids run), key = some id := by
                intro key member
                obtain ⟨branch, inRun, rfl⟩ := List.mem_map.mp member
                exact allChosen branch inRun
              have split : choices (.cons node kids (run.append last)) =
                  choices (.cons node kids run) ++ choices last := by
                simp [choices, Forest.roots]
              have unseenLast (other : Lnode) (member : some other ∈ choices last) :
                  some other ∉ (choices (.cons node kids run)).reverse ++ earlier := by
                rw [List.mem_append, List.mem_reverse, not_or]
                refine ⟨fun inRun => behind (onlyId _ inRun ▸ member), unseen other ?_⟩
                rw [split]
                exact List.mem_append_right _ member
              have consecutiveLast : Consecutive (choices last) := by
                rw [split] at consecutive
                exact consecutive.of_append
              have fewLast : last.roots.length ≤ count := by
                rw [Forest.roots_append, List.length_append] at fewRest
                exact (Nat.le_add_left _ _).trans fewRest
              by_cases several : 2 ≤ (Forest.cons node kids run).roots.length
              · obtain ⟨bodies, others, ofBranches, printedLast, rfl⟩ :=
                  print_choice fresh several allChosen behind printed
                exact .choice several allChosen behind ofBranches
                  (inductionHypothesis fewLast consecutiveLast unseenLast printedLast)
              · obtain rfl : run = .nil := by
                  cases run with
                  | nil => rfl
                  | cons second secondKids run => simp [Forest.roots] at several
                obtain ⟨own, others, printedNode, printedRest, rfl⟩ :=
                  ayPrintYangChildren_cons printed
                rw [Forest.append, ayPrintYangNode_alone chosen fresh (firstChoice_ne behind)]
                  at printedNode
                exact .single chosen behind printedNode
                  (inductionHypothesis fewLast consecutiveLast unseenLast printedRest)

theorem balanced_node_ {children : Option (List Token)}
    (ofChildren : ∀ tokens ∈ children, Balanced tokens)
    (printed : ayPrintYangNode_ node children = some tokens) : Balanced tokens := by
  unfold ayPrintYangNode_ at printed
  cases type : node.type with
  | ynUnknown | ynCase =>
      rw [type] at printed
      cases printed
  | ynLeaf | ynLeafref | ynKey | ynValue | ynUses =>
      rw [type] at printed
      obtain rfl := Option.some.inj printed
      exact .statement
  | ynList | ynContainer | ynGrouping =>
      rw [type] at printed
      obtain ⟨below, isBelow, rfl⟩ := Option.map_eq_some_iff.mp printed
      exact .nested (.append .statement (ofChildren below isBelow))
  | ynRec | ynRoot =>
      rw [type] at printed
      exact ofChildren tokens printed

theorem balanced_inCase (alone : Bool) (balanced : Balanced tokens) :
    Balanced (inCase alone tokens) := by
  unfold inCase
  split
  · exact balanced
  · exact .nested balanced

theorem balanced_inChoice {children : Option (List Token)} (alone : Bool)
    (ofChildren : ∀ tokens ∈ children, Balanced tokens)
    (printed : ayPrintYangNodeInChoice node alone children = some tokens) : Balanced tokens := by
  unfold ayPrintYangNodeInChoice at printed
  split at printed
  · obtain ⟨below, isBelow, rfl⟩ := Option.map_eq_some_iff.mp printed
    exact balanced_inCase alone (ofChildren below isBelow)
  · obtain ⟨own, isOwn, rfl⟩ := Option.map_eq_some_iff.mp printed
    exact balanced_inCase alone (balanced_node_ ofChildren isOwn)
  · exact balanced_node_ ofChildren printed

/-- What is printed below the topmost nodes closes its braces. -/
def KidsBalanced (forest : Forest AyYnode) : Prop :=
  ∀ kids ∈ forest.rootKids, ∀ tokens ∈ ayPrintYangChildren [] kids, Balanced tokens

theorem balanced_branches (ofKids : KidsBalanced forest)
    (printed : branchTokens forest = some tokens) : Balanced tokens := by
  induction forest generalizing tokens with
  | nil =>
      obtain rfl := Option.some.inj printed
      exact .nil
  | cons node kids rest _ inductionHypothesis =>
      rw [branchTokens] at printed
      obtain ⟨own, ofNode, printed⟩ := Option.bind_eq_some_iff.mp printed
      obtain ⟨others, ofRest, same⟩ := Option.bind_eq_some_iff.mp printed
      obtain rfl := Option.some.inj same
      refine .append (balanced_inChoice false (ofKids kids List.mem_cons_self) ofNode) ?_
      exact inductionHypothesis (fun others member => ofKids others (List.mem_cons_of_mem _ member))
        ofRest

theorem LaidOut.balanced (laidOut : LaidOut forest tokens) (ofKids : KidsBalanced forest) :
    Balanced tokens := by
  induction laidOut with
  | nil => exact .nil
  | plain noChoice printed _ inductionHypothesis =>
      refine .append (balanced_node_ (ofKids _ List.mem_cons_self) printed) ?_
      exact inductionHypothesis fun kids member => ofKids kids (List.mem_cons_of_mem _ member)
  | single chosen behind printed _ inductionHypothesis =>
      refine .append (balanced_inChoice true (ofKids _ List.mem_cons_self) printed) ?_
      exact inductionHypothesis fun kids member => ofKids kids (List.mem_cons_of_mem _ member)
  | @choice branches rest tokens others id several chosen behind printed _ inductionHypothesis =>
      unfold KidsBalanced at ofKids
      rw [Forest.rootKids_append] at ofKids
      have ofBranches : Balanced tokens :=
        balanced_branches (fun kids member => ofKids kids (List.mem_append_left _ member)) printed
      have ofRest : Balanced others :=
        inductionHypothesis fun kids member => ofKids kids (List.mem_append_right _ member)
      have joined := Balanced.append (Balanced.choice id ofBranches) ofRest
      rwa [List.append_assoc, List.singleton_append] at joined

theorem ChoicesConsecutive.rootKids (consecutive : ChoicesConsecutive forest)
    (member : kids ∈ forest.rootKids) : ChoicesConsecutive kids := by
  induction forest with
  | nil => cases member
  | cons node first rest _ inductionHypothesis =>
      rcases List.mem_cons.mp member with rfl | inRest
      · exact consecutive.kids
      · exact inductionHypothesis consecutive.rest inRest

/-- The braces of a tree with consecutive choices are balanced. -/
theorem print_balanced (count : Nat) (small : forest.size ≤ count)
    (consecutive : ChoicesConsecutive forest)
    (printed : ayPrintYangChildren [] forest = some tokens) : Balanced tokens := by
  induction count generalizing forest tokens with
  | zero =>
      obtain rfl := Forest.eq_nil_of_size (Nat.le_zero.mp small)
      obtain rfl := Option.some.inj printed
      exact .nil
  | succ count inductionHypothesis =>
      have laidOut := print_laidOut _ (Nat.le_refl _) (consecutive _ List.mem_cons_self)
        (fun id _ => List.not_mem_nil) printed
      refine laidOut.balanced fun kids member tokens printedKids => ?_
      have smaller := Forest.size_lt_of_mem_rootKids member
      exact inductionHypothesis (by omega) (consecutive.rootKids member) printedKids

end Layout

section Split

variable {lenses : Lnode → LabelLens} {idcnt : YnodeId} {forest : Forest AyYnode}

/-- Lists of siblings in the state in which the pass comes to them. -/
def metSiblings (lenses : Lnode → LabelLens) (idcnt : YnodeId) (forest : Forest AyYnode) :
    List (Forest AyYnode) :=
  metDown lenses (2 * forest.size) idcnt forest

/-- After the pass choices are consecutive, those made up for two siblings differ, and all
children are printed with a choice-stmt around the branches of each choice. -/
structure SplitKeeps (lenses : Lnode → LabelLens) (idcnt : YnodeId) (forest : Forest AyYnode) :
    Prop where
  consecutive : ChoicesConsecutive (ayYnodeNodeSplit lenses idcnt forest).1
  differ : ∀ siblings ∈ metSiblings lenses idcnt forest,
    InventedDiffer (splitEntries lenses [] siblings)
  printed : ∀ siblings ∈ siblingLists (ayYnodeNodeSplit lenses idcnt forest).1,
    ∀ tokens ∈ ayPrintYangChildren [] siblings, LaidOut siblings tokens ∧ Balanced tokens

theorem consecutive_ayYnodeNodeSplit_iff :
    ChoicesConsecutive (ayYnodeNodeSplit lenses idcnt forest).1 ↔
      ∀ siblings ∈ metSiblings lenses idcnt forest,
        Consecutive ((splitEntries lenses [] siblings).map Entry.choice) := by
  have lists : (siblingLists (ayYnodeNodeSplit lenses idcnt forest).1).map choices =
      (metSiblings lenses idcnt forest).map (choicesAfter lenses) :=
    siblingLists_splitDown _ idcnt forest (need_le_size forest)
  have same (siblings : Forest AyYnode) : Consecutive (choicesAfter lenses siblings) ↔
      Consecutive ((splitEntries lenses [] siblings).map Entry.choice) := by
    unfold choicesAfter
    rw [consecutive_repeated, List.map_map]
    rfl
  unfold ChoicesConsecutive
  simp only [← same]
  rw [← @List.forall_mem_map _ _ choices _ Consecutive, lists, List.forall_mem_map]

theorem ChoicesConsecutive.siblings {siblings : Forest AyYnode}
    (consecutive : ChoicesConsecutive forest) (member : siblings ∈ siblingLists forest) :
    ChoicesConsecutive siblings := by
  induction forest with
  | nil =>
      obtain rfl := List.mem_singleton.mp member
      exact consecutive
  | cons node kids rest kidsHypothesis restHypothesis =>
      rcases List.mem_cons.mp member with rfl | below
      · exact consecutive
      · rw [Forest.childLists, ← List.cons_append] at below
        rcases List.mem_append.mp below with inKids | inRest
        · exact kidsHypothesis consecutive.kids inKids
        · exact restHypothesis consecutive.rest (List.mem_cons_of_mem _ inRest)

/-- The pass does so exactly when among siblings at most one is split that has no choice, and
siblings with the root of the ltree as choice stand right next to it. -/
theorem ayYnodeNodeSplit_keeps_iff (consecutive : ChoicesConsecutive forest) :
    SplitKeeps lenses idcnt forest ↔
      ∀ siblings ∈ metSiblings lenses idcnt forest,
        InventedApart (splitEntries lenses [] siblings) := by
  have each : ∀ siblings ∈ metSiblings lenses idcnt forest,
      (Consecutive ((splitEntries lenses [] siblings).map Entry.choice) ∧
          InventedDiffer (splitEntries lenses [] siblings) ↔
        InventedApart (splitEntries lenses [] siblings)) := by
    intro siblings member
    refine consecutive_and_differ_iff (splitEntries_proper [] siblings) ?_
    rw [original_splitEntries]
    exact metDown_consecutive _ idcnt forest consecutive siblings member
  constructor
  · intro keeps siblings member
    exact (each siblings member).mp
      ⟨consecutive_ayYnodeNodeSplit_iff.mp keeps.consecutive siblings member,
        keeps.differ siblings member⟩
  · intro apart
    have after : ChoicesConsecutive (ayYnodeNodeSplit lenses idcnt forest).1 :=
      consecutive_ayYnodeNodeSplit_iff.mpr fun siblings member =>
        ((each siblings member).mpr (apart siblings member)).1
    refine ⟨after, fun siblings member => ((each siblings member).mpr (apart siblings member)).2,
      fun siblings member tokens printed => ?_⟩
    have ofSiblings := after.siblings member
    exact ⟨print_laidOut _ (Nat.le_refl _) (ofSiblings _ List.mem_cons_self)
      (fun id _ => List.not_mem_nil) printed, print_balanced _ (Nat.le_refl _) ofSiblings printed⟩

/-- Every label is a key with two identifiers, each with its own pattern. -/
def twoIdents (label : Lnode) : LabelLens := ⟨.lKey, some label, 2⟩

def leafNode (id : YnodeId) (label : Option Lnode) : AyYnode :=
  { AyYnode.blank id with type := .ynLeaf, label := label }

/-- A list of which both the key and an inner node have several identifiers. -/
def keyedList : Forest AyYnode :=
  .cons { AyYnode.blank 1 with type := .ynList, label := some 1 }
    (.cons { AyYnode.blank 2 with type := .ynKey, label := some 1 } .nil
      (.cons (leafNode 3 (some 2)) .nil (.cons (leafNode 4 none) .nil .nil)))
    (.cons (leafNode 5 none) .nil .nil)

theorem ayYnodeNodeSplit_keeps_iff_keyedList :
    ChoicesConsecutive keyedList ∧
      (SplitKeeps twoIdents 6 keyedList ↔
        ∀ siblings ∈ metSiblings twoIdents 6 keyedList,
          InventedApart (splitEntries twoIdents [] siblings)) :=
  ⟨by decide, ayYnodeNodeSplit_keeps_iff (by decide)⟩

/-- Two leaves with several identifiers around another leaf. -/
def separatedLeaves : Forest AyYnode :=
  .cons (leafNode 1 (some 1)) .nil
    (.cons (leafNode 2 none) .nil (.cons (leafNode 3 (some 2)) .nil .nil))

theorem separatedLeaves_not_kept :
    ChoicesConsecutive separatedLeaves ∧ ¬SplitKeeps twoIdents 4 separatedLeaves := by
  refine ⟨by decide, fun keeps => ?_⟩
  have shared := keeps.consecutive
  revert shared
  decide

example : ayPrintYangChildren [] (ayYnodeNodeSplit twoIdents 4 separatedLeaves).1 =
    some [.choice 0, .statement, .statement, .nestingEnd, .statement, .statement, .statement,
      .nestingEnd] := by
  decide

end Split

end SysrepoAugeas.Ynode
