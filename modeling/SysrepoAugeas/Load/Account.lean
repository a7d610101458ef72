import SysrepoAugeas.Load.Aug2yang
import Mathlib.Data.List.Perm.Basic
import Mathlib.Data.List.Nodup
import Mathlib.Data.List.Flatten

/-!
# Labels that are accounted for

Every label that a call used is written down with the augnode that used it.
Apart from the labels that optional leaves use without a value, the nodes with
a label as origin are exactly those that the used labels should have.
-/

namespace SysrepoAugeas.Load

open SysrepoAugeas.Data
open SysrepoAugeas.Label (Text)

/-- An optional leaf that is found by its name has no node without a value. -/
def createsNothing (augnode : Augnode) (label : Label) : Bool :=
  augnode.schema.nodetype.isTerm && !augnode.schema.mandatory && !augnode.schema.isEmpty &&
    !(['$', '$'].isPrefixOf (augnode.dataPath.getD [])) && label.value.isNone

/-- What the primary node of a label carries: label, schema node and value; the value of a
container is in its first child. -/
def carried (augnode : Augnode) (label : Label) : Nat × Nat × Option Value :=
  (label.id, augnode.schema.id,
    if augnode.schema.nodetype = .container then none
    else if ['$', '$'].isPrefixOf (augnode.dataPath.getD []) then some (.text label.name)
    else if augnode.schema.nodetype.isTerm then label.value.map .text
    else none)

def Used.creates (used : Used) : Option (Nat × Nat × Option Value) :=
  if createsNothing used.augnode used.label then none else some (carried used.augnode used.label)

def DataNode.forLabel (node : DataNode) : Option (Nat × Nat × Option Value) :=
  match node.origin with
  | .label label => some (label, node.schema, node.value)
  | _ => none

/-- Ids of the labels of a tree. -/
def treeIds (tree : Label × Forest Label) : List Nat := tree.1.id :: tree.2.labels.map Label.id

/-- Ids of all labels that are left, and of those below. -/
def allIds (labels : Matches) : List Nat := (labels.filterMap id).flatMap treeIds

section Shrink

/-- Some of the labels were used. -/
inductive Shrinks : Matches → Matches → List (Label × Forest Label) → Prop
  | nil : Shrinks [] [] []
  | same {labels after : Matches} {used : List (Label × Forest Label)}
      (entry : Option (Label × Forest Label)) :
      Shrinks labels after used → Shrinks (entry :: labels) (entry :: after) used
  | used {labels after : Matches} {used : List (Label × Forest Label)}
      (tree : Label × Forest Label) :
      Shrinks labels after used → Shrinks (some tree :: labels) (none :: after) (tree :: used)

variable {labels after last others othersAfter : Matches}
  {used later : List (Label × Forest Label)}

theorem Shrinks.refl (labels : Matches) : Shrinks labels labels [] := by
  induction labels with
  | nil => exact .nil
  | cons entry rest inductionHypothesis => exact .same entry inductionHypothesis

theorem Shrinks.append (first : Shrinks labels after used)
    (second : Shrinks others othersAfter later) :
    Shrinks (labels ++ others) (after ++ othersAfter) (used ++ later) := by
  induction first with
  | nil => exact second
  | same entry _ inductionHypothesis => exact .same entry inductionHypothesis
  | used tree _ inductionHypothesis => exact .used tree inductionHypothesis

theorem Shrinks.trans (first : Shrinks labels after used) (second : Shrinks after last later) :
    ∃ both, Shrinks labels last both ∧ both.Perm (used ++ later) := by
  induction first generalizing last later with
  | nil =>
      cases second
      exact ⟨[], .nil, .nil⟩
  | same entry _ inductionHypothesis =>
      cases second with
      | same _ rest =>
          obtain ⟨both, shrinks, perm⟩ := inductionHypothesis rest
          exact ⟨both, .same entry shrinks, perm⟩
      | used tree rest =>
          obtain ⟨both, shrinks, perm⟩ := inductionHypothesis rest
          exact ⟨tree :: both, .used tree shrinks, (perm.cons tree).trans List.perm_middle.symm⟩
  | used tree _ inductionHypothesis =>
      cases second with
      | same _ rest =>
          obtain ⟨both, shrinks, perm⟩ := inductionHypothesis rest
          exact ⟨tree :: both, .used tree shrinks, perm.cons tree⟩

/-- The ids are those of the labels that are left and of the used ones. -/
theorem Shrinks.allIds (shrinks : Shrinks labels after used) :
    (allIds labels).Perm (Load.allIds after ++ used.flatMap treeIds) := by
  induction shrinks with
  | nil => exact .nil
  | same entry _ inductionHypothesis =>
      cases entry with
      | none => exact inductionHypothesis
      | some tree =>
          simp only [Load.allIds, List.filterMap_cons, id_eq, List.flatMap_cons, List.append_assoc]
          exact inductionHypothesis.append_left _
  | @used labels after used tree _ inductionHypothesis =>
      simp only [Load.allIds, List.filterMap_cons, id_eq, List.flatMap_cons]
      refine (inductionHypothesis.append_left (treeIds tree)).trans ?_
      rw [← List.append_assoc, ← List.append_assoc]
      exact List.perm_append_comm.append_right _

theorem allIds_append (labels others : Matches) :
    allIds (labels ++ others) = allIds labels ++ allIds others := by
  simp [allIds, List.filterMap_append]

end Shrink

/-- The nodes with a label as origin are those that the used labels should have. -/
def Fits (nodes : List DataNode) (used : List Used) : Prop :=
  (nodes.filterMap DataNode.forLabel).Perm (used.filterMap Used.creates)

namespace Report

/-- The label was not processed and has no node, or it was used once and has one node that
carries it. -/
def Accounts (report : Report) (label : Nat) : Prop :=
  (label ∈ report.nonProcessed ∧ (∀ used ∈ report.used, used.label.id ≠ label) ∧
      ∀ node ∈ report.nodes, node.origin ≠ .label label) ∨
    label ∉ report.nonProcessed ∧
      ∃ used node, report.used.filter (fun used => used.label.id = label) = [used] ∧
        report.nodes.filter (fun node => node.origin = .label label) = [node] ∧
        node.forLabel = some (carried used.augnode used.label)

/-- No label of the call is lost or there twice. -/
def Complete (report : Report) : Prop := ∀ label ∈ report.given, report.Accounts label

/-- The used label was there when the call ended. -/
def Shows (report : Report) (used : Used) : Prop :=
  used ∈ report.used ∧ used.label.id ∈ report.given ∧ Fits report.nodes report.used

end Report

section Effect

def Numbered (state : LoadState) : Prop := ∀ node ∈ state.nodes, node.id < state.fresh

/-- The labels and all below were not used yet. -/
structure Ready (labels : Matches) (state : LoadState) : Prop where
  numbered : Numbered state
  fits : Fits state.nodes state.used
  distinct : (allIds labels).Nodup
  unused : ∀ used ∈ state.used, used.label.id ∉ allIds labels

/-- Nodes that were added at the end. -/
structure Extends (state final : LoadState) : Prop where
  nodes : ∃ new, final.nodes = state.nodes ++ new ∧ ∀ node ∈ new, state.fresh ≤ node.id
  fresh : state.fresh ≤ final.fresh

/-- What was used and reported between two states. -/
structure Uses (trees : List (Label × Forest Label)) (used : List Used) (reports : List Report)
    (state final : LoadState) : Prop where
  used_eq : final.used = state.used ++ used
  reports_eq : final.reports = state.reports ++ reports
  once : (used.map (·.label.id)).Nodup
  inside : ∀ entry ∈ used, entry.label.id ∈ trees.flatMap treeIds
  all : ∀ tree ∈ trees, tree.1.id ∈ used.map (·.label.id)
  complete : (∀ entry ∈ final.used, createsNothing entry.augnode entry.label = false) →
    ∀ report ∈ reports, report.Complete
  shown : ∀ entry ∈ used, entry.label.id ∈ trees.map (·.1.id) ∨
    ∃ report ∈ reports, report.Shows entry

structure Done (labels : Matches) (state : LoadState) (after : Matches) (final : LoadState) :
    Prop where
  numbered : Numbered final
  fits : Fits final.nodes final.used
  extends_ : Extends state final
  uses : ∃ trees used reports, Shrinks labels after trees ∧ Uses trees used reports state final

/-- A step of the load that keeps the account. -/
def Keeps (labels : Matches) (state : LoadState) (after : Matches) (final : LoadState) : Prop :=
  Ready labels state → Done labels state after final

variable {labels after last others othersAfter : Matches} {state middle final : LoadState}

theorem Extends.refl (state : LoadState) : Extends state state :=
  ⟨⟨[], (List.append_nil _).symm, fun _ member => absurd member List.not_mem_nil⟩, Nat.le_refl _⟩

theorem Extends.trans (first : Extends state middle) (second : Extends middle final) :
    Extends state final := by
  obtain ⟨new, newNodes, newIds⟩ := first.nodes
  obtain ⟨newer, newerNodes, newerIds⟩ := second.nodes
  refine ⟨⟨new ++ newer, by rw [newerNodes, newNodes, List.append_assoc], ?_⟩,
    first.fresh.trans second.fresh⟩
  intro node member
  rcases List.mem_append.mp member with inNew | inNewer
  · exact newIds node inNew
  · exact first.fresh.trans (newerIds node inNewer)

theorem Uses.none (state : LoadState) : Uses [] [] [] state state where
  used_eq := (List.append_nil _).symm
  reports_eq := (List.append_nil _).symm
  once := List.nodup_nil
  inside := fun _ member => absurd member List.not_mem_nil
  all := fun _ member => absurd member List.not_mem_nil
  complete := fun _ _ member => absurd member List.not_mem_nil
  shown := fun _ member => absurd member List.not_mem_nil

/-- Two groups of trees are used one after the other. -/
theorem Uses.append {trees moreTrees : List (Label × Forest Label)} {used more : List Used}
    {reports moreReports : List Report} (first : Uses trees used reports state middle)
    (second : Uses moreTrees more moreReports middle final)
    (apart : (trees.flatMap treeIds).Disjoint (moreTrees.flatMap treeIds)) :
    Uses (trees ++ moreTrees) (used ++ more) (reports ++ moreReports) state final where
  used_eq := by rw [second.used_eq, first.used_eq, List.append_assoc]
  reports_eq := by rw [second.reports_eq, first.reports_eq, List.append_assoc]
  once := by
    rw [List.map_append]
    refine List.Nodup.append first.once second.once fun id inFirst inSecond => ?_
    obtain ⟨entry, inUsed, rfl⟩ := List.mem_map.mp inFirst
    obtain ⟨other, inMore, same⟩ := List.mem_map.mp inSecond
    exact apart (first.inside entry inUsed) (same ▸ second.inside other inMore)
  inside := by
    intro entry member
    rw [List.flatMap_append, List.mem_append]
    exact (List.mem_append.mp member).imp (first.inside entry) (second.inside entry)
  all := by
    intro tree member
    rw [List.map_append, List.mem_append]
    exact (List.mem_append.mp member).imp (first.all tree) (second.all tree)
  complete := by
    intro creates report member
    rcases List.mem_append.mp member with inFirst | inSecond
    · refine first.complete (fun entry inUsed => creates entry ?_) report inFirst
      rw [second.used_eq]
      exact List.mem_append_left _ inUsed
    · exact second.complete creates report inSecond
  shown := by
    intro entry member
    rw [List.map_append, List.mem_append]
    rcases List.mem_append.mp member with inFirst | inSecond
    · rcases first.shown entry inFirst with top | ⟨report, inReports, shows⟩
      · exact Or.inl (Or.inl top)
      · exact Or.inr ⟨report, List.mem_append_left _ inReports, shows⟩
    · rcases second.shown entry inSecond with top | ⟨report, inReports, shows⟩
      · exact Or.inl (Or.inr top)
      · exact Or.inr ⟨report, List.mem_append_right _ inReports, shows⟩

theorem Uses.perm {trees others : List (Label × Forest Label)} {used : List Used}
    {reports : List Report} (uses : Uses trees used reports state final)
    (perm : others.Perm trees) : Uses others used reports state final where
  used_eq := uses.used_eq
  reports_eq := uses.reports_eq
  once := uses.once
  inside := fun entry member => (perm.flatMap_right treeIds).mem_iff.mpr (uses.inside entry member)
  all := fun tree member => uses.all tree (perm.mem_iff.mp member)
  complete := uses.complete
  shown := fun entry member =>
    (uses.shown entry member).imp_left ((perm.map (·.1.id)).mem_iff.mpr ·)

theorem Ready.left {more : Matches} (ready : Ready (labels ++ more) state) :
    Ready labels state where
  numbered := ready.numbered
  fits := ready.fits
  distinct := by
    have := ready.distinct
    rw [allIds_append] at this
    exact this.of_append_left
  unused := fun used member inLabels => ready.unused used member (by
    rw [allIds_append]
    exact List.mem_append_left _ inLabels)

/-- What is not used stays ready. -/
theorem Done.ready {more : Matches} (ready : Ready (labels ++ more) state)
    (done : Done labels state after final) : Ready (after ++ more) final := by
  obtain ⟨trees, used, reports, shrinks, uses⟩ := done.uses
  have perm : (allIds (labels ++ more)).Perm
      (allIds (after ++ more) ++ trees.flatMap treeIds) := by
    rw [allIds_append, allIds_append]
    refine (shrinks.allIds.append_right _).trans ?_
    rw [List.append_assoc, List.append_assoc]
    exact List.perm_append_comm.append_left _
  have distinct := perm.nodup_iff.mp ready.distinct
  refine ⟨done.numbered, done.fits, distinct.of_append_left, ?_⟩
  intro entry member inRest
  rw [uses.used_eq, List.mem_append] at member
  rcases member with old | new
  · exact ready.unused entry old (perm.mem_iff.mpr (List.mem_append_left _ inRest))
  · exact List.disjoint_of_nodup_append distinct inRest (uses.inside entry new)

theorem Keeps.refl (labels : Matches) (state : LoadState) : Keeps labels state labels state :=
  fun ready => ⟨ready.numbered, ready.fits, .refl state,
    [], [], [], .refl labels, .none state⟩

theorem Keeps.trans (first : Keeps labels state after middle) (second : Keeps after middle last final) :
    Keeps labels state last final := by
  intro ready
  have done := first ready
  have readyAfter : Ready after middle := by
    have := @Done.ready _ _ _ _ [] (by rwa [List.append_nil]) done
    rwa [List.append_nil] at this
  have doneAfter := second readyAfter
  obtain ⟨trees, used, reports, shrinks, uses⟩ := done.uses
  obtain ⟨moreTrees, more, moreReports, shrinksMore, usesMore⟩ := doneAfter.uses
  obtain ⟨both, shrinksBoth, perm⟩ := shrinks.trans shrinksMore
  have distinct : (trees.flatMap treeIds).Disjoint (moreTrees.flatMap treeIds) := by
    have all := shrinksBoth.allIds.nodup_iff.mp ready.distinct
    have ofTrees := (perm.flatMap_right treeIds).nodup_iff.mp all.of_append_right
    rw [List.flatMap_append] at ofTrees
    exact List.disjoint_of_nodup_append ofTrees
  exact ⟨doneAfter.numbered, doneAfter.fits, done.extends_.trans doneAfter.extends_,
    both, _, _, shrinksBoth, (uses.append usesMore distinct).perm perm⟩

/-- Two parts of the labels one after the other. -/
theorem Keeps.append (first : Keeps labels state after middle)
    (second : Keeps others middle othersAfter final) :
    Keeps (labels ++ others) state (after ++ othersAfter) final := by
  intro ready
  have done := first ready.left
  have readyOthers : Ready others middle := by
    have both := done.ready ready
    refine ⟨both.numbered, both.fits, ?_, fun used member inOthers => both.unused used member ?_⟩
    · have := both.distinct
      rw [allIds_append] at this
      exact this.of_append_right
    · rw [allIds_append]
      exact List.mem_append_right _ inOthers
  have doneOthers := second readyOthers
  obtain ⟨trees, used, reports, shrinks, uses⟩ := done.uses
  obtain ⟨moreTrees, more, moreReports, shrinksMore, usesMore⟩ := doneOthers.uses
  have shrinksBoth := shrinks.append shrinksMore
  have distinct : (trees.flatMap treeIds).Disjoint (moreTrees.flatMap treeIds) := by
    have all := shrinksBoth.allIds.nodup_iff.mp ready.distinct
    have ofTrees := all.of_append_right
    rw [List.flatMap_append] at ofTrees
    exact List.disjoint_of_nodup_append ofTrees
  exact ⟨doneOthers.numbered, doneOthers.fits, done.extends_.trans doneOthers.extends_,
    _, _, _, shrinksBoth, uses.append usesMore distinct⟩

end Effect

section Quiet

variable {labels after : Matches} {state middle final : LoadState}

/-- No label is used, and no node is created for one. -/
structure Quiet (state final : LoadState) : Prop where
  numbered : Numbered state → Numbered final
  forLabel : final.nodes.filterMap DataNode.forLabel = state.nodes.filterMap DataNode.forLabel
  extends_ : Extends state final
  used : final.used = state.used
  reports : final.reports = state.reports

theorem Quiet.keeps (quiet : Quiet state final) (labels : Matches) :
    Keeps labels state labels final := by
  intro ready
  refine ⟨quiet.numbered ready.numbered, ?_, quiet.extends_, [], [], [], .refl labels, ?_⟩
  · unfold Fits
    rw [quiet.forLabel, quiet.used]
    exact ready.fits
  · have nothing := Uses.none final
    exact { nothing with
      used_eq := by rw [quiet.used, List.append_nil]
      reports_eq := by rw [quiet.reports, List.append_nil] }

theorem Quiet.trans (first : Quiet state middle) (second : Quiet middle final) :
    Quiet state final where
  numbered := second.numbered ∘ first.numbered
  forLabel := second.forLabel.trans first.forLabel
  extends_ := first.extends_.trans second.extends_
  used := second.used.trans first.used
  reports := second.reports.trans first.reports

theorem quiet_setNextIdx (list index : Nat) (state : LoadState) :
    Quiet state (state.setNextIdx list index) :=
  ⟨fun numbered => numbered, rfl, ⟨⟨[], (List.append_nil _).symm,
    fun _ member => absurd member List.not_mem_nil⟩, Nat.le_refl _⟩, rfl, rfl⟩

theorem numbered_addNode {parent : Option Nat} {schema : Nat} {value : Option Value}
    {origin : Origin} (numbered : Numbered state) :
    Numbered (state.addNode parent schema value origin) := by
  intro node member
  rcases List.mem_append.mp member with old | new
  · exact Nat.lt_succ_of_lt (numbered node old)
  · rw [List.mem_singleton.mp new]
    exact Nat.lt_succ_self _

theorem extends_addNode (parent : Option Nat) (schema : Nat) (value : Option Value)
    (origin : Origin) (state : LoadState) :
    Extends state (state.addNode parent schema value origin) := by
  refine ⟨⟨_, rfl, ?_⟩, Nat.le_succ _⟩
  intro node member
  rw [List.mem_singleton.mp member]

/-- The node is not there for a label. -/
def Origin.Quiet (origin : Origin) : Prop := ∀ label, origin ≠ .label label

theorem forLabel_of_quiet {node : DataNode} (quiet : node.origin.Quiet) : node.forLabel = none := by
  unfold DataNode.forLabel
  cases origin : node.origin with
  | label id => exact absurd origin (quiet id)
  | around => rfl
  | instance_ label => rfl
  | leafref list => rfl

theorem quiet_addNode (parent : Option Nat) (schema : Nat) (value : Option Value)
    {origin : Origin} (quiet : origin.Quiet) (state : LoadState) :
    Quiet state (state.addNode parent schema value origin) where
  numbered := numbered_addNode
  forLabel := by
    have none : DataNode.forLabel ⟨state.fresh, parent, schema, value, origin⟩ = none :=
      forLabel_of_quiet quiet
    simp [LoadState.addNode, List.filterMap_append, none]
  extends_ := extends_addNode parent schema value origin state
  used := rfl
  reports := rfl

/-- A node that is freed again was never there. -/
theorem Keeps.freed {parent : Option Nat} {schema : Nat} {value : Option Value} {origin : Origin}
    (quiet : origin.Quiet)
    (keeps : Keeps labels (state.addNode parent schema value origin) after final) :
    Keeps labels state after (final.free state.fresh) := by
  intro ready
  have added := quiet_addNode parent schema value quiet state
  have readyAdded : Ready labels (state.addNode parent schema value origin) :=
    ⟨added.numbered ready.numbered, by
      unfold Fits
      rw [added.forLabel]
      exact ready.fits, ready.distinct, ready.unused⟩
  have done := keeps readyAdded
  obtain ⟨new, nodes, newIds⟩ := done.extends_.nodes
  have kept : (final.free state.fresh).nodes = state.nodes ++ new := by
    have old : state.nodes.filter (fun other => other.id != state.fresh) = state.nodes := by
      rw [List.filter_eq_self]
      intro node member
      simpa using Nat.ne_of_lt (ready.numbered node member)
    have later : new.filter (fun other => other.id != state.fresh) = new := by
      rw [List.filter_eq_self]
      intro node member
      have : state.fresh + 1 ≤ node.id := newIds node member
      simpa using Nat.ne_of_gt this
    rw [LoadState.free, nodes, LoadState.addNode, List.filter_append, List.filter_append, old, later]
    simp
  have sameLabels : (final.free state.fresh).nodes.filterMap DataNode.forLabel =
      final.nodes.filterMap DataNode.forLabel := by
    rw [kept, nodes, List.filterMap_append, List.filterMap_append, added.forLabel]
  refine ⟨fun node member => done.numbered node (List.mem_of_mem_filter member), ?_, ?_, ?_⟩
  · unfold Fits
    rw [sameLabels]
    exact done.fits
  · refine ⟨⟨new, kept, fun node member => ?_⟩, (Nat.le_succ _).trans done.extends_.fresh⟩
    exact (Nat.le_succ _).trans (newIds node member)
  · obtain ⟨trees, used, reports, shrinks, uses⟩ := done.uses
    exact ⟨trees, used, reports, shrinks, uses.used_eq, uses.reports_eq, uses.once, uses.inside,
      uses.all, uses.complete, uses.shown⟩

variable {libyang : Libyang} {schema : Schema} {value : Option Value} {parent : Option Nat}
  {origin : Origin} {node : Option Nat}

/-- What the creation of a node can do. -/
theorem createNode_cases
    (created : augdsAug2yangAugnodeCreateNode libyang schema value parent origin state =
      some (node, final)) :
    (node = none ∧ final = state ∧ schema.nodetype.isTerm ∧ value = none ∧
        schema.mandatory = false ∧ schema.isEmpty = false) ∨
      (node = some state.fresh ∧
        ¬(schema.nodetype.isTerm ∧ value = none ∧ schema.mandatory = false ∧
          schema.isEmpty = false) ∧
        ((schema.nodetype = .container ∧ final = addFirstChild schema value state.fresh
            (state.addNode parent schema.id none origin)) ∨
          schema.nodetype ≠ .container ∧ final = state.addNode parent schema.id value origin)) := by
  unfold augdsAug2yangAugnodeCreateNode at created
  split at created
  · rename_i skipped
    simp only [Option.some.injEq, Prod.mk.injEq] at created
    simp only [Bool.and_eq_true, Bool.not_eq_true', Option.isNone_iff_eq_none] at skipped
    exact Or.inl ⟨created.1.symm, created.2.symm, skipped.1.1.1, skipped.1.1.2, skipped.1.2,
      skipped.2⟩
  · rename_i kept
    have notSkipped : ¬(schema.nodetype.isTerm ∧ value = none ∧ schema.mandatory = false ∧
        schema.isEmpty = false) := by
      rintro ⟨term, isNone, optional, notEmpty⟩
      exact kept (by simp [term, isNone, optional, notEmpty])
    split at created
    · cases created
    · refine Or.inr ?_
      split at created
      · rename_i isContainer
        simp only [Option.some.injEq, Prod.mk.injEq] at created
        exact ⟨created.1.symm, notSkipped, Or.inl ⟨isContainer, created.2.symm⟩⟩
      · rename_i notContainer
        simp only [Option.some.injEq, Prod.mk.injEq] at created
        exact ⟨created.1.symm, notSkipped, Or.inr ⟨notContainer, created.2.symm⟩⟩

theorem Quiet.refl (state : LoadState) : Quiet state state :=
  ⟨fun numbered => numbered, rfl, .refl state, rfl, rfl⟩

theorem quiet_addFirstChild (schema : Schema) (value : Option Value) (node : Nat)
    (state : LoadState) : Quiet state (addFirstChild schema value node state) := by
  cases value with
  | none => exact .refl state
  | some value =>
      apply quiet_addNode
      intro label same
      cases same

theorem quiet_createNode (quiet : origin.Quiet)
    (created : augdsAug2yangAugnodeCreateNode libyang schema value parent origin state =
      some (node, final)) : Quiet state final := by
  rcases createNode_cases created with ⟨-, rfl, -⟩ | ⟨-, -, ⟨-, rfl⟩ | ⟨-, rfl⟩⟩
  · exact .refl _
  · exact (quiet_addNode _ _ _ quiet _).trans (quiet_addFirstChild _ _ _ _)
  · exact quiet_addNode _ _ _ quiet _

/-- A list or a container without value is one node. -/
theorem createNode_inner (inner : schema.nodetype.isTerm = false)
    (single : schema.nodetype = .container → value = none)
    (created : augdsAug2yangAugnodeCreateNode libyang schema value parent origin state =
      some (node, final)) :
    node = some state.fresh ∧ final = state.addNode parent schema.id value origin := by
  rcases createNode_cases created with
    ⟨-, -, term, -⟩ | ⟨isNode, -, ⟨isContainer, rfl⟩ | ⟨-, rfl⟩⟩
  · rw [inner] at term
    cases term
  · rw [single isContainer]
    exact ⟨isNode, rfl⟩
  · exact ⟨isNode, rfl⟩

end Quiet

section Reports

variable {labels after : Matches} {state final : LoadState} {nodes : List DataNode}
  {used : List Used} {label : Nat}

theorem id_of_creates {entry : Used} {key : Nat × Nat × Option Value}
    (creates : entry.creates = some key) : key.1 = entry.label.id := by
  unfold Used.creates at creates
  split at creates
  · cases creates
  · rw [← Option.some.inj creates]
    rfl

theorem forLabel_eq_some {node : DataNode} {key : Nat × Nat × Option Value} :
    node.forLabel = some key ↔ node.origin = .label key.1 ∧ node.schema = key.2.1 ∧
      node.value = key.2.2 := by
  unfold DataNode.forLabel
  obtain ⟨id, schema, value⟩ := key
  cases node.origin with
  | label other => simp
  | around => simp
  | instance_ other => simp
  | leafref other => simp

/-- A node for a label is there because the label was used. -/
theorem Fits.exists_used (fits : Fits nodes used) {node : DataNode} (member : node ∈ nodes)
    (origin : node.origin = .label label) :
    ∃ entry ∈ used, entry.label.id = label ∧ entry.creates = node.forLabel := by
  have isKey : node.forLabel = some (label, node.schema, node.value) :=
    forLabel_eq_some.mpr ⟨origin, rfl, rfl⟩
  have inNodes : (label, node.schema, node.value) ∈ nodes.filterMap DataNode.forLabel :=
    List.mem_filterMap.mpr ⟨node, member, isKey⟩
  obtain ⟨entry, inUsed, creates⟩ := List.mem_filterMap.mp (fits.mem_iff.mp inNodes)
  exact ⟨entry, inUsed, (id_of_creates creates).symm, creates.trans isKey.symm⟩

theorem filter_filterMap_comm {Entry Key : Type} {key : Entry → Option Key} {chosen : Key → Bool}
    {choice : Entry → Bool}
    (agree : ∀ entry found, key entry = some found → chosen found = choice entry)
    {entries : List Entry} :
    (entries.filterMap key).filter chosen = (entries.filter choice).filterMap key := by
  rw [List.filter_filterMap, List.filterMap_filter]
  refine List.filterMap_congr fun entry _ => ?_
  cases found : key entry with
  | none => simp
  | some value =>
      rw [Option.filter_some, agree entry value found]

/-- The node of a label that was used once. -/
theorem Fits.exists_node (fits : Fits nodes used) {entry : Used}
    (once : used.filter (fun entry => entry.label.id = label) = [entry])
    (creates : createsNothing entry.augnode entry.label = false) :
    ∃ node, nodes.filter (fun node => node.origin = .label label) = [node] ∧
      node.forLabel = some (carried entry.augnode entry.label) := by
  have ofUsed : (used.filterMap Used.creates).filter (fun key => key.1 = label) =
      [carried entry.augnode entry.label] := by
    rw [@filter_filterMap_comm _ _ _ _ (fun entry => entry.label.id = label)
      (fun entry key found => by rw [id_of_creates found]), once]
    simp [Used.creates, creates]
  have ofNodes : (nodes.filterMap DataNode.forLabel).filter (fun key => key.1 = label) =
      (nodes.filter (fun node => node.origin = .label label)).filterMap DataNode.forLabel :=
    filter_filterMap_comm fun node key found => by
      rw [(forLabel_eq_some.mp found).1]
      simp
  have perm := fits.filter (fun key => key.1 = label)
  rw [ofUsed, ofNodes, List.perm_singleton] at perm
  have allKeys : ∀ node ∈ nodes.filter (fun node => node.origin = .label label),
      ∃ key, node.forLabel = some key := by
    intro node member
    have origin : node.origin = .label label := by simpa using (List.mem_filter.mp member).2
    exact ⟨(label, node.schema, node.value), forLabel_eq_some.mpr ⟨origin, rfl, rfl⟩⟩
  cases shape : nodes.filter (fun node => node.origin = .label label) with
  | nil =>
      rw [shape] at perm
      cases perm
  | cons node rest =>
      rw [shape] at perm allKeys
      obtain ⟨key, isKey⟩ := allKeys node List.mem_cons_self
      rw [List.filterMap_cons_some isKey] at perm
      obtain ⟨rfl, nothing⟩ := List.cons.inj perm
      refine ⟨node, ?_, isKey⟩
      cases rest with
      | nil => rfl
      | cons second rest =>
          obtain ⟨other, isOther⟩ :=
            allKeys second (List.mem_cons_of_mem _ List.mem_cons_self)
          rw [List.filterMap_cons_some isOther] at nothing
          cases nothing

theorem filter_eq_singleton {entries : List Used} (distinct : (entries.map (·.label.id)).Nodup)
    {entry : Used} (member : entry ∈ entries) (same : entry.label.id = label) :
    entries.filter (fun entry => entry.label.id = label) = [entry] := by
  obtain ⟨front, back, rfl⟩ := List.append_of_mem member
  rw [List.map_append, List.map_cons, List.nodup_middle, List.nodup_cons] at distinct
  have others : ∀ other ∈ front ++ back, other.label.id ≠ label := by
    intro other inOthers otherSame
    apply distinct.1
    rw [← List.map_append, same, ← otherSame]
    exact List.mem_map_of_mem (f := fun entry : Used => entry.label.id) inOthers
  have nothing {part : List Used} (sub : part ⊆ front ++ back) :
      part.filter (fun entry => entry.label.id = label) = [] :=
    List.filter_eq_nil_iff.mpr fun other inPart => by simpa using others other (sub inPart)
  rw [List.filter_append, List.filter_cons_of_pos (by simpa using same),
    nothing (List.subset_append_left front back), nothing (List.subset_append_right front back),
    List.nil_append]

theorem Shrinks.labelIds {trees : List (Label × Forest Label)}
    (shrinks : Shrinks labels after trees) :
    (labelIds labels).Perm (Load.labelIds after ++ trees.map (·.1.id)) := by
  induction shrinks with
  | nil => exact .nil
  | same entry _ inductionHypothesis =>
      cases entry with
      | none => exact inductionHypothesis
      | some tree => exact inductionHypothesis.cons tree.1.id
  | used tree _ inductionHypothesis =>
      exact (inductionHypothesis.cons tree.1.id).trans List.perm_middle.symm

theorem labelIds_sublist (labels : Matches) : (labelIds labels).Sublist (allIds labels) := by
  induction labels with
  | nil => exact .slnil
  | cons entry rest inductionHypothesis =>
      cases entry with
      | none => exact inductionHypothesis
      | some tree =>
          have : allIds (some tree :: rest) = tree.1.id :: (tree.2.labels.map Label.id ++ allIds rest) :=
            rfl
          rw [this]
          exact (inductionHypothesis.trans (List.sublist_append_right _ _)).cons_cons tree.1.id

/-- Report at the end of a call with these labels. -/
def reportOf (labels after : Matches) (final : LoadState) : Report :=
  ⟨labelIds labels, labelIds after, final.nodes, final.used⟩

/-- When every used label has a node, the report of the call is complete. -/
theorem reportOf_complete (ready : Ready labels state) (done : Done labels state after final)
    (creates : ∀ entry ∈ final.used, createsNothing entry.augnode entry.label = false) :
    (reportOf labels after final).Complete := by
  obtain ⟨trees, used, reports, shrinks, uses⟩ := done.uses
  have distinct := shrinks.allIds.nodup_iff.mp ready.distinct
  have distinctTop := shrinks.labelIds.nodup_iff.mp ((labelIds_sublist labels).nodup ready.distinct)
  have unused (label : Nat) (inLabels : label ∈ labelIds labels) :
      ∀ entry ∈ state.used, entry.label.id ≠ label := by
    intro entry member same
    exact ready.unused entry member (same ▸ (labelIds_sublist labels).subset inLabels)
  intro label inLabels
  rcases List.mem_append.mp (shrinks.labelIds.mem_iff.mp inLabels) with left | taken
  · have noUse : ∀ entry ∈ final.used, entry.label.id ≠ label := by
      intro entry member same
      rw [uses.used_eq, List.mem_append] at member
      rcases member with old | new
      · exact unused label inLabels entry old same
      · exact List.disjoint_of_nodup_append distinct ((labelIds_sublist after).subset left)
          (same ▸ uses.inside entry new)
    refine Or.inl ⟨left, noUse, fun node member origin => ?_⟩
    obtain ⟨entry, inUsed, same, -⟩ := done.fits.exists_used member origin
    exact noUse entry inUsed same
  · obtain ⟨tree, inTrees, rfl⟩ := List.mem_map.mp taken
    obtain ⟨entry, inUsed, same⟩ := List.mem_map.mp (uses.all tree inTrees)
    have once : final.used.filter (fun entry => entry.label.id = tree.1.id) = [entry] := by
      rw [uses.used_eq, List.filter_append, List.filter_eq_nil_iff.mpr fun other member => by
        simpa using unused _ inLabels other member, List.nil_append]
      exact filter_eq_singleton uses.once inUsed same
    have inFinal : entry ∈ final.used := by
      rw [uses.used_eq]
      exact List.mem_append_right _ inUsed
    obtain ⟨node, single, carries⟩ := done.fits.exists_node once (creates entry inFinal)
    refine Or.inr ⟨fun left => ?_, entry, node, once, single, carries⟩
    exact List.disjoint_of_nodup_append distinctTop left taken

end Reports

section Visit

variable {again : LabelsR} {state final : LoadState} {below : Forest Label}

/-- The call keeps the account. -/
def CallKeeps (again : LabelsR) : Prop :=
  ∀ frames augnodes labels state after final,
    again frames augnodes labels state = some (after, final) → Keeps labels state after final

/-- The labels below a node were not used yet. -/
structure ReadyBelow (below : Forest Label) (state : LoadState) : Prop where
  numbered : Numbered state
  fits : Fits state.nodes state.used
  distinct : (below.labels.map Label.id).Nodup
  unused : ∀ used ∈ state.used, used.label.id ∉ below.labels.map Label.id

/-- What a call used below a node is shown in its reports. -/
structure Visits (below : Forest Label) (state final : LoadState) : Prop where
  numbered : Numbered final
  fits : Fits final.nodes final.used
  extends_ : Extends state final
  uses : ∃ used reports, final.used = state.used ++ used ∧ final.reports = state.reports ++ reports ∧
    (used.map (·.label.id)).Nodup ∧ (∀ entry ∈ used, entry.label.id ∈ below.labels.map Label.id) ∧
    ((∀ entry ∈ final.used, createsNothing entry.augnode entry.label = false) →
      ∀ report ∈ reports, report.Complete) ∧
    ∀ entry ∈ used, ∃ report ∈ reports, report.Shows entry

theorem flatMap_trees (below : Forest Label) :
    (trees below).flatMap treeIds = below.labels.map Label.id := by
  induction below with
  | nil => rfl
  | cons label kids rest _ inductionHypothesis =>
      rw [trees, List.flatMap_cons, inductionHypothesis, Forest.labels_cons]
      simp [treeIds]

theorem allIds_augMatch (below : Forest Label) :
    (allIds (augMatch below)).Sublist (below.labels.map Label.id) := by
  rw [← flatMap_trees, allIds, augMatch, List.filterMap_map]
  have : (id ∘ some : Label × Forest Label → Option (Label × Forest Label)) = some := rfl
  rw [this, List.filterMap_some]
  exact List.filter_sublist.flatMap treeIds

theorem Visits.none (ready : ReadyBelow below state) : Visits below state state :=
  ⟨ready.numbered, ready.fits, .refl state, [], [], (List.append_nil _).symm,
    (List.append_nil _).symm, List.nodup_nil, fun _ member => absurd member List.not_mem_nil,
    fun _ _ member => absurd member List.not_mem_nil,
    fun _ member => absurd member List.not_mem_nil⟩

theorem augnodeR_visits (keeps : CallKeeps again) {frames : List Frame} {augnodes : Forest Augnode}
    (ready : ReadyBelow below state)
    (loaded : augdsAug2yangAugnodeR again frames augnodes below state = some final) :
    Visits below state final := by
  unfold augdsAug2yangAugnodeR at loaded
  cases augnodes with
  | nil =>
      obtain rfl := Option.some.inj loaded
      exact .none ready
  | cons augnode children rest =>
      obtain ⟨⟨after, middle⟩, called, same⟩ := Option.bind_eq_some_iff.mp loaded
      have readyLabels : Ready (augMatch below) state :=
        ⟨ready.numbered, ready.fits, (allIds_augMatch below).nodup ready.distinct,
          fun used member inBelow =>
            ready.unused used member ((allIds_augMatch below).subset inBelow)⟩
      have done := keeps _ _ _ _ _ _ called readyLabels
      obtain ⟨trees, used, reports, shrinks, uses⟩ := done.uses
      obtain rfl := Option.some.inj same
      refine ⟨done.numbered, done.fits, ⟨done.extends_.nodes, done.extends_.fresh⟩, used,
        reports ++ [reportOf (augMatch below) after middle], uses.used_eq, ?_, uses.once, ?_, ?_, ?_⟩
      · rw [← List.append_assoc, ← uses.reports_eq]
        rfl
      · intro entry member
        refine (allIds_augMatch below).subset (shrinks.allIds.mem_iff.mpr ?_)
        exact List.mem_append_right _ (uses.inside entry member)
      · intro creates report member
        rcases List.mem_append.mp member with old | isNew
        · exact uses.complete creates report old
        · rw [List.mem_singleton.mp isNew]
          exact reportOf_complete readyLabels done creates
      · intro entry member
        rcases uses.shown entry member with top | ⟨report, inReports, shows⟩
        · refine ⟨reportOf (augMatch below) after middle,
            List.mem_append_right _ (List.mem_singleton.mpr rfl), ?_, ?_, done.fits⟩
          · change entry ∈ middle.used
            rw [uses.used_eq]
            exact List.mem_append_right _ member
          · exact shrinks.labelIds.mem_iff.mpr (List.mem_append_right _ top)
        · exact ⟨report, List.mem_append_left _ inReports, shows⟩

theorem visitChildren_visits (keeps : CallKeeps again) {augnode : Augnode}
    {children : Forest Augnode} {frames : List Frame} {node : Option Nat}
    (ready : ReadyBelow below state)
    (visited : visitChildren again augnode children frames node below state = some final) :
    Visits below state final := by
  unfold visitChildren at visited
  cases children with
  | nil =>
      obtain rfl := Option.some.inj visited
      exact .none ready
  | cons child grandchildren rest =>
      cases node with
      | none => cases visited
      | some node => exact augnodeR_visits keeps ready visited

end Visit

section Value

variable {libyang : Libyang} {again : LabelsR} {augnode : Augnode} {path : Text}
  {children : Forest Augnode} {frames : List Frame} {state middle final : LoadState}
  {label : Label} {below : Forest Label} {value : Option Value} {node : Option Nat}

theorem primaryValue_carried (hasPath : augnode.dataPath = some path)
    (primary : primaryValue augnode path label = some value) :
    (value = none → augnode.schema.nodetype.isTerm →
        ['$', '$'].isPrefixOf path = false ∧ label.value = none) ∧
      carried augnode label = (label.id, augnode.schema.id,
        if augnode.schema.nodetype = .container then none else value) := by
  unfold primaryValue at primary
  unfold carried
  rw [hasPath, Option.getD_some]
  split at primary
  · rename_i isLabel
    split at primary
    · obtain rfl := Option.some.inj primary
      rw [if_pos isLabel]
      exact ⟨fun isNone => (by cases isNone), rfl⟩
    · cases primary
  · rename_i notLabel
    rw [if_neg notLabel]
    split at primary
    · rename_i term
      obtain rfl := Option.some.inj primary
      rw [if_pos term]
      refine ⟨fun isNone _ => ⟨Bool.eq_false_of_not_eq_true notLabel, ?_⟩, rfl⟩
      cases found : label.value with
      | none => rfl
      | some text =>
          rw [found] at isNone
          cases isNone
    · rename_i notTerm
      obtain rfl := Option.some.inj primary
      rw [if_neg notTerm]
      exact ⟨fun _ term => absurd term notTerm, rfl⟩

/-- The nodes that are created for a label are those that it should have. -/
theorem forLabel_createNode (hasPath : augnode.dataPath = some path)
    (primary : primaryValue augnode path label = some value)
    (created : augdsAug2yangAugnodeCreateNode libyang augnode.schema value (parentOf frames)
      (.label label.id) state = some (node, final)) :
    final.nodes.filterMap DataNode.forLabel = state.nodes.filterMap DataNode.forLabel ++
      (Used.creates ⟨augnode, label⟩).toList := by
  obtain ⟨ofNone, isCarried⟩ := primaryValue_carried hasPath primary
  rcases createNode_cases created with ⟨-, rfl, term, isNone, optional, notEmpty⟩ |
    ⟨-, creates, shape⟩
  · obtain ⟨notLabel, noValue⟩ := ofNone isNone term
    have nothing : createsNothing augnode label = true := by
      unfold createsNothing
      rw [hasPath, Option.getD_some, term, optional, notEmpty, notLabel, noValue]
      rfl
    rw [Used.creates, if_pos nothing]
    simp
  · have something : ¬createsNothing augnode label = true := by
      unfold createsNothing
      rw [hasPath, Option.getD_some]
      intro nothing
      simp only [Bool.and_eq_true, Bool.not_eq_true', Option.isNone_iff_eq_none] at nothing
      obtain ⟨⟨⟨⟨term, optional⟩, notEmpty⟩, notLabel⟩, noValue⟩ := nothing
      refine creates ⟨term, ?_, optional, notEmpty⟩
      rw [primaryValue, if_neg (by simp [notLabel]), if_pos term, noValue] at primary
      exact (Option.some.inj primary).symm
    rw [Used.creates, if_neg something, isCarried]
    rcases shape with ⟨isContainer, rfl⟩ | ⟨notContainer, rfl⟩
    · rw [(quiet_addFirstChild _ _ _ _).forLabel, if_pos isContainer]
      simp [LoadState.addNode, List.filterMap_append, DataNode.forLabel]
    · rw [if_neg notContainer]
      simp [LoadState.addNode, List.filterMap_append, DataNode.forLabel]

theorem extends_createNode {schema : Schema} {parent : Option Nat} {origin : Origin}
    (created : augdsAug2yangAugnodeCreateNode libyang schema value parent origin state =
      some (node, final)) : Extends state final ∧ (Numbered state → Numbered final) := by
  rcases createNode_cases created with ⟨-, rfl, -⟩ | ⟨-, -, ⟨-, rfl⟩ | ⟨-, rfl⟩⟩
  · exact ⟨.refl _, fun numbered => numbered⟩
  · have child := quiet_addFirstChild schema value state.fresh
      (state.addNode parent schema.id none origin)
    exact ⟨(extends_addNode _ _ _ _ _).trans child.extends_,
      fun numbered => child.numbered (numbered_addNode numbered)⟩
  · exact ⟨extends_addNode _ _ _ _ _, numbered_addNode⟩

theorem unchanged_createNode {schema : Schema} {parent : Option Nat} {origin : Origin}
    (created : augdsAug2yangAugnodeCreateNode libyang schema value parent origin state =
      some (node, final)) : final.used = state.used ∧ final.reports = state.reports := by
  rcases createNode_cases created with ⟨-, rfl, -⟩ | ⟨-, -, ⟨-, rfl⟩ | ⟨-, rfl⟩⟩
  · exact ⟨rfl, rfl⟩
  · have child := quiet_addFirstChild schema value state.fresh
      (state.addNode parent schema.id none origin)
    exact ⟨child.used, child.reports⟩
  · exact ⟨rfl, rfl⟩

theorem quiet_createSecond
    (created : createSecond libyang augnode label frames node state = some final) :
    Quiet state final := by
  unfold createSecond at created
  split at created
  · obtain ⟨⟨second, _⟩, createdNode, rfl⟩ := Option.map_eq_some_iff.mp created
    refine quiet_createNode (fun label same => ?_) createdNode
    cases same
  · obtain rfl := Option.some.inj created
    exact .refl _

/-- One label is used with all below it. -/
theorem keeps_used (keeps : CallKeeps again) {second : LoadState}
    (hasPath : augnode.dataPath = some path)
    (primary : primaryValue augnode path label = some value)
    (created : augdsAug2yangAugnodeCreateNode libyang augnode.schema value (parentOf frames)
      (.label label.id) state = some (node, middle))
    (createdSecond : createSecond libyang augnode label frames node (middle.use augnode label) =
      some second)
    (visited : visitChildren again augnode children frames node below second = some final) :
    Keeps [some (label, below)] state [none] final := by
  intro ready
  have ids : allIds [some (label, below)] = label.id :: below.labels.map Label.id := by
    simp [allIds, treeIds]
  have distinct := ready.distinct
  rw [ids, List.nodup_cons] at distinct
  have unused := ready.unused
  rw [ids] at unused
  obtain ⟨extended, numbered⟩ := extends_createNode created
  obtain ⟨sameUsed, sameReports⟩ := unchanged_createNode created
  have quiet := quiet_createSecond createdSecond
  have secondUsed : second.used = state.used ++ [⟨augnode, label⟩] := by
    rw [quiet.used, LoadState.use, sameUsed]
  have readyBelow : ReadyBelow below second := by
    refine ⟨quiet.numbered (numbered ready.numbered), ?_, distinct.2, ?_⟩
    · unfold Fits
      rw [quiet.forLabel, secondUsed]
      change (middle.nodes.filterMap DataNode.forLabel).Perm _
      rw [forLabel_createNode hasPath primary created, List.filterMap_append]
      refine ready.fits.append (.of_eq ?_)
      cases creates : (⟨augnode, label⟩ : Used).creates with
      | none => rw [List.filterMap_cons_none creates, Option.toList_none, List.filterMap_nil]
      | some key => rw [List.filterMap_cons_some creates, Option.toList_some, List.filterMap_nil]
    · intro used member inBelow
      rw [secondUsed, List.mem_append] at member
      rcases member with old | isNew
      · exact unused used old (List.mem_cons_of_mem _ inBelow)
      · rw [List.mem_singleton.mp isNew] at inBelow
        exact distinct.1 inBelow
  have visits := visitChildren_visits keeps readyBelow visited
  obtain ⟨used, reports, finalUsed, finalReports, once, inside, complete, shown⟩ := visits.uses
  refine ⟨visits.numbered, visits.fits,
    (extended.trans ⟨quiet.extends_.nodes, quiet.extends_.fresh⟩).trans visits.extends_,
    [(label, below)], ⟨augnode, label⟩ :: used, reports, .used _ .nil, ?_⟩
  refine ⟨?_, ?_, ?_, ?_, ?_, complete, ?_⟩
  · rw [finalUsed, secondUsed, List.append_assoc, List.singleton_append]
  · rw [finalReports, quiet.reports, LoadState.use, sameReports]
  · rw [List.map_cons, List.nodup_cons]
    refine ⟨fun member => ?_, once⟩
    obtain ⟨entry, inUsed, same⟩ := List.mem_map.mp member
    exact distinct.1 (same ▸ inside entry inUsed)
  · intro entry member
    rw [List.flatMap_cons, List.flatMap_nil, List.append_nil, treeIds, List.mem_cons]
    rcases List.mem_cons.mp member with rfl | inUsed
    · exact Or.inl rfl
    · exact Or.inr (inside entry inUsed)
  · intro tree member
    rw [List.mem_singleton.mp member]
    exact List.mem_cons_self
  · intro entry member
    rcases List.mem_cons.mp member with rfl | inUsed
    · exact Or.inl List.mem_cons_self
    · exact Or.inr (shown entry inUsed)

theorem valueR_keeps (keeps : CallKeeps again) (hasPath : augnode.dataPath = some path)
    {labels after : Matches}
    (loaded : augdsAug2yangAugnodeLabelsValueR libyang again augnode path children frames labels
      state = some (after, final)) : Keeps labels state after final := by
  induction labels generalizing state after with
  | nil =>
      obtain ⟨rfl, rfl⟩ := Prod.mk.inj (Option.some.inj loaded)
      exact .refl _ _
  | cons entry rest inductionHypothesis =>
      cases entry with
      | none =>
          obtain ⟨⟨restAfter, middle⟩, ofRest, same⟩ := Option.bind_eq_some_iff.mp loaded
          obtain ⟨rfl, rfl⟩ := Prod.mk.inj (Option.some.inj same)
          exact Keeps.append (.refl [none] state) (inductionHypothesis ofRest)
      | some tree =>
          obtain ⟨label, below⟩ := tree
          rw [augdsAug2yangAugnodeLabelsValueR] at loaded
          split at loaded
          · obtain ⟨rfl, rfl⟩ := Prod.mk.inj (Option.some.inj loaded)
            exact .refl _ _
          · cases primary : primaryValue augnode path label with
            | none =>
                rw [primary] at loaded
                obtain ⟨rfl, rfl⟩ := Prod.mk.inj (Option.some.inj loaded)
                exact .refl _ _
            | some value =>
                rw [primary] at loaded
                obtain ⟨⟨node, middle⟩, created, loaded⟩ := Option.bind_eq_some_iff.mp loaded
                obtain ⟨second, createdSecond, loaded⟩ := Option.bind_eq_some_iff.mp loaded
                obtain ⟨visitedState, visited, loaded⟩ := Option.bind_eq_some_iff.mp loaded
                have ofLabel := keeps_used keeps hasPath primary created createdSecond visited
                split at loaded
                · obtain ⟨rfl, rfl⟩ := Prod.mk.inj (Option.some.inj loaded)
                  exact ofLabel.append (.refl rest _)
                · obtain ⟨⟨restAfter, last⟩, ofRest, same⟩ := Option.bind_eq_some_iff.mp loaded
                  obtain ⟨rfl, rfl⟩ := Prod.mk.inj (Option.some.inj same)
                  exact ofLabel.append (inductionHypothesis ofRest)

end Value

section Labels

variable {libyang : Libyang} {file : Text} {again : LabelsR} {augnode : Augnode}
  {children : Forest Augnode} {frames outer : List Frame} {state final : LoadState}
  {labels after : Matches}
  {childLabels : List Frame → Matches → LoadState → Option (Matches × LoadState)}

theorem quiet_instance (label : Nat) : (Origin.instance_ label).Quiet :=
  fun _ same => by cases same

theorem quiet_around : Origin.around.Quiet := fun _ same => by cases same

theorem quiet_leafref (list : Nat) : (Origin.leafref list).Quiet := fun _ same => by cases same

/-- Labels are handed on to the children of an augnode. -/
def ChildKeeps (childLabels : List Frame → Matches → LoadState → Option (Matches × LoadState)) :
    Prop :=
  ∀ frames labels state after final,
    childLabels frames labels state = some (after, final) → Keeps labels state after final

theorem isTerm_of_list {schema : Schema} (isList : schema.nodetype = .list) :
    schema.nodetype.isTerm = false := by
  rw [isList]
  rfl

/-- One round of the loop over the labels of a list. -/
theorem listLoop_round (isList : augnode.schema.nodetype = .list) {index : Option Nat}
    {label : Label} {below : Forest Label} {rest : Matches}
    (loaded : listLoop libyang augnode children frames childLabels index
      (some (label, below) :: rest) state = some (after, final)) :
    ∃ started slice middle restAfter,
      started = (if index.isNone then state.setNextIdx augnode.schema.id
        (index.getD (state.nextIdx augnode.schema.id) + 1) else state) ∧
      childLabels (⟨augnode, children, started.fresh⟩ :: frames) [some (label, below)]
        (started.addNode (parentOf frames) augnode.schema.id
          (some (.index (index.getD (state.nextIdx augnode.schema.id)))) (.instance_ label.id)) =
        some (slice, middle) ∧
      after = slice ++ restAfter ∧
      (middle.hasChild started.fresh ∧
          listLoop libyang augnode children frames childLabels (index.map (· + 1)) rest middle =
            some (restAfter, final) ∨
        ¬middle.hasChild started.fresh ∧
          listLoop libyang augnode children frames childLabels index rest
            (if index.isNone then (middle.free started.fresh).setNextIdx augnode.schema.id
              ((middle.free started.fresh).nextIdx augnode.schema.id - 1)
            else middle.free started.fresh) = some (restAfter, final)) := by
  rw [listLoop] at loaded
  generalize counted : (if index.isNone then state.setNextIdx augnode.schema.id
    (index.getD (state.nextIdx augnode.schema.id) + 1) else state) = started at loaded
  obtain ⟨⟨node, created⟩, createdNode, loaded⟩ := Option.bind_eq_some_iff.mp loaded
  obtain ⟨rfl, rfl⟩ := createNode_inner (isTerm_of_list isList)
    (fun isContainer => by rw [isList] at isContainer; cases isContainer) createdNode
  obtain ⟨_, isNode, loaded⟩ := Option.bind_eq_some_iff.mp loaded
  obtain rfl := Option.some.inj isNode
  obtain ⟨⟨slice, middle⟩, ofChild, loaded⟩ := Option.bind_eq_some_iff.mp loaded
  dsimp only at loaded
  by_cases kept : middle.hasChild started.fresh
  · rw [if_pos kept] at loaded
    obtain ⟨⟨restAfter, last⟩, ofRest, same⟩ := Option.bind_eq_some_iff.mp loaded
    obtain ⟨rfl, rfl⟩ := Prod.mk.inj (Option.some.inj same)
    exact ⟨started, slice, middle, restAfter, rfl, ofChild, rfl, Or.inl ⟨kept, ofRest⟩⟩
  · rw [if_neg kept] at loaded
    obtain ⟨⟨restAfter, last⟩, ofRest, same⟩ := Option.bind_eq_some_iff.mp loaded
    obtain ⟨rfl, rfl⟩ := Prod.mk.inj (Option.some.inj same)
    exact ⟨started, slice, middle, restAfter, rfl, ofChild, rfl, Or.inr ⟨kept, ofRest⟩⟩

theorem listLoop_keeps (keeps : ChildKeeps childLabels) (isList : augnode.schema.nodetype = .list)
    {index : Option Nat}
    (loaded : listLoop libyang augnode children frames childLabels index labels state =
      some (after, final)) : Keeps labels state after final := by
  induction labels generalizing index state after with
  | nil =>
      obtain ⟨rfl, rfl⟩ := Prod.mk.inj (Option.some.inj loaded)
      exact .refl _ _
  | cons entry rest inductionHypothesis =>
      cases entry with
      | none =>
          obtain ⟨⟨restAfter, middle⟩, ofRest, same⟩ := Option.bind_eq_some_iff.mp loaded
          obtain ⟨rfl, rfl⟩ := Prod.mk.inj (Option.some.inj same)
          exact Keeps.append (.refl [none] state) (inductionHypothesis ofRest)
      | some tree =>
          obtain ⟨label, below⟩ := tree
          obtain ⟨started, slice, middle, restAfter, counted, ofChild, rfl, ofRest⟩ :=
            listLoop_round isList loaded
          have starts : Quiet state started := by
            rw [counted]
            split
            · exact quiet_setNextIdx _ _ _
            · exact .refl _
          have ofSlice := keeps _ _ _ _ _ ofChild
          rcases ofRest with ⟨-, ofRest⟩ | ⟨-, ofRest⟩
          · have creates := starts.trans (quiet_addNode (parentOf frames) augnode.schema.id
              (some (.index (index.getD (state.nextIdx augnode.schema.id))))
              (quiet_instance label.id) started)
            exact ((creates.keeps _).trans ofSlice).append (inductionHypothesis ofRest)
          · have freed := (starts.keeps [some (label, below)]).trans
              (ofSlice.freed (quiet_instance label.id))
            refine (freed.trans ?_).append (inductionHypothesis ofRest)
            split
            · exact (quiet_setNextIdx _ _ _).keeps _
            · exact .refl _ _

theorem listR_keeps (keeps : ChildKeeps childLabels) (isList : augnode.schema.nodetype = .list)
    (loaded : augdsAug2yangAugnodeLabelsListR libyang augnode children frames childLabels labels
      state = some (after, final)) : Keeps labels state after final := by
  unfold augdsAug2yangAugnodeLabelsListR at loaded
  split at loaded
  · exact listLoop_keeps keeps isList loaded
  · exact ((quiet_setNextIdx _ _ _).keeps labels).trans (listLoop_keeps keeps isList loaded)
  · cases loaded

theorem caseLoop_keeps (keeps : ChildKeeps childLabels) {label : Label}
    {caseNodes : List CaseNode}
    (loaded : caseLoop libyang augnode children frames childLabels label labels caseNodes state =
      some (after, final)) : Keeps labels state after final := by
  induction caseNodes generalizing state with
  | nil =>
      obtain ⟨rfl, rfl⟩ := Prod.mk.inj (Option.some.inj loaded)
      exact .refl _ _
  | cons caseNode rest inductionHypothesis =>
      rw [caseLoop] at loaded
      split at loaded
      · exact inductionHypothesis loaded
      · split at loaded
        · cases loaded
        · rename_i isInner
          obtain ⟨⟨node, created⟩, createdNode, loaded⟩ := Option.bind_eq_some_iff.mp loaded
          have notTerm : augnode.schema.nodetype.isTerm = false := by
            by_contra term
            cases type : augnode.schema.nodetype <;> simp_all [Nodetype.isTerm]
          obtain ⟨rfl, rfl⟩ := createNode_inner notTerm
            (fun isContainer => by rw [isContainer, if_neg (by decide)]) createdNode
          obtain ⟨_, isNode, loaded⟩ := Option.bind_eq_some_iff.mp loaded
          obtain rfl := Option.some.inj isNode
          have freed := Keeps.freed quiet_around (Keeps.refl labels
            (state.addNode (parentOf frames) augnode.schema.id
              (if augnode.schema.nodetype = .list then some (Value.index 1) else none) .around))
          by_cases whenTrue : !libyang.whenTrue augnode.schema
            (state.addNode (parentOf frames) augnode.schema.id
              (if augnode.schema.nodetype = .list then some (Value.index 1) else none) .around)
          · rw [if_pos whenTrue] at loaded
            exact freed.trans (inductionHypothesis loaded)
          · rw [if_neg whenTrue] at loaded
            by_cases isList : augnode.schema.nodetype = .list
            · rw [if_pos isList] at loaded
              exact freed.trans (listR_keeps keeps isList loaded)
            · rw [if_neg isList] at loaded
              exact ((quiet_addNode _ _ _ quiet_around _).keeps labels).trans
                (keeps _ _ _ _ _ loaded)

/-- One round of the loop over the labels of a leafref. -/
theorem recursiveLoop_round {leafref : Augnode} {list : Frame}
    (isList : list.augnode.schema.nodetype = .list) {label : Label} {below : Forest Label}
    {rest : Matches}
    (loaded : recursiveLoop libyang again leafref list outer frames (some (label, below) :: rest)
      state = some (after, final)) :
    (∃ restAfter, after = some (label, below) :: restAfter ∧
        recursiveLoop libyang again leafref list outer frames rest state =
          some (restAfter, final)) ∨
      ∃ started slice middle restAfter,
        started = state.setNextIdx list.augnode.schema.id
          (state.nextIdx list.augnode.schema.id + 1) ∧
        again ({ list with node := started.fresh } :: outer) list.children [some (label, below)]
          (started.addNode (parentOf outer) list.augnode.schema.id
            (some (.index (state.nextIdx list.augnode.schema.id))) (.instance_ label.id)) =
          some (slice, middle) ∧
        after = slice ++ restAfter ∧
        ((∃ node referred, middle.hasChild started.fresh ∧
            augdsAug2yangAugnodeCreateNode libyang leafref.schema
              (some (.index (state.nextIdx list.augnode.schema.id))) (parentOf frames)
              (.leafref list.augnode.schema.id) middle = some (node, referred) ∧
            recursiveLoop libyang again leafref list outer frames rest referred =
              some (restAfter, final)) ∨
          ¬middle.hasChild started.fresh ∧
            recursiveLoop libyang again leafref list outer frames rest
              ((middle.free started.fresh).setNextIdx list.augnode.schema.id
                ((middle.free started.fresh).nextIdx list.augnode.schema.id - 1)) =
              some (restAfter, final)) := by
  rw [recursiveLoop] at loaded
  obtain ⟨found, -, loaded⟩ := Option.bind_eq_some_iff.mp loaded
  split at loaded
  · obtain ⟨⟨restAfter, middle⟩, ofRest, same⟩ := Option.bind_eq_some_iff.mp loaded
    obtain ⟨rfl, rfl⟩ := Prod.mk.inj (Option.some.inj same)
    exact Or.inl ⟨restAfter, rfl, ofRest⟩
  · refine Or.inr ?_
    dsimp only at loaded
    generalize counted : state.setNextIdx list.augnode.schema.id
      (state.nextIdx list.augnode.schema.id + 1) = started at loaded
    obtain ⟨⟨node, created⟩, createdNode, loaded⟩ := Option.bind_eq_some_iff.mp loaded
    obtain ⟨rfl, rfl⟩ := createNode_inner (isTerm_of_list isList)
      (fun isContainer => by rw [isList] at isContainer; cases isContainer) createdNode
    obtain ⟨_, isNode, loaded⟩ := Option.bind_eq_some_iff.mp loaded
    obtain rfl := Option.some.inj isNode
    obtain ⟨⟨slice, middle⟩, ofChild, loaded⟩ := Option.bind_eq_some_iff.mp loaded
    dsimp only at loaded
    by_cases kept : middle.hasChild started.fresh
    · rw [if_neg (by simp [kept])] at loaded
      by_cases left : slice.any Option.isSome
      · rw [if_pos left] at loaded
        cases loaded
      · rw [if_neg left] at loaded
        obtain ⟨⟨reference, referred⟩, createdReference, loaded⟩ :=
          Option.bind_eq_some_iff.mp loaded
        obtain ⟨⟨restAfter, last⟩, ofRest, same⟩ := Option.bind_eq_some_iff.mp loaded
        obtain ⟨rfl, rfl⟩ := Prod.mk.inj (Option.some.inj same)
        exact ⟨started, slice, middle, restAfter, rfl, ofChild, rfl,
          Or.inl ⟨reference, referred, kept, createdReference, ofRest⟩⟩
    · rw [if_pos (by simp [kept])] at loaded
      by_cases lost : slice.all Option.isNone
      · rw [if_pos lost] at loaded
        cases loaded
      · rw [if_neg lost] at loaded
        obtain ⟨⟨restAfter, last⟩, ofRest, same⟩ := Option.bind_eq_some_iff.mp loaded
        obtain ⟨rfl, rfl⟩ := Prod.mk.inj (Option.some.inj same)
        exact ⟨started, slice, middle, restAfter, rfl, ofChild, rfl, Or.inr ⟨kept, ofRest⟩⟩

theorem recursiveLoop_keeps (keeps : CallKeeps again) {leafref : Augnode} {list : Frame}
    (isList : list.augnode.schema.nodetype = .list)
    (loaded : recursiveLoop libyang again leafref list outer frames labels state =
      some (after, final)) : Keeps labels state after final := by
  induction labels generalizing state after with
  | nil =>
      obtain ⟨rfl, rfl⟩ := Prod.mk.inj (Option.some.inj loaded)
      exact .refl _ _
  | cons entry rest inductionHypothesis =>
      cases entry with
      | none =>
          obtain ⟨⟨restAfter, middle⟩, ofRest, same⟩ := Option.bind_eq_some_iff.mp loaded
          obtain ⟨rfl, rfl⟩ := Prod.mk.inj (Option.some.inj same)
          exact Keeps.append (.refl [none] state) (inductionHypothesis ofRest)
      | some tree =>
          obtain ⟨label, below⟩ := tree
          rcases recursiveLoop_round isList loaded with ⟨restAfter, rfl, ofRest⟩ |
            ⟨started, slice, middle, restAfter, rfl, ofChild, rfl, ofRest⟩
          · exact Keeps.append (.refl [some (label, below)] state) (inductionHypothesis ofRest)
          · have ofSlice := keeps _ _ _ _ _ _ ofChild
            have starts := (quiet_setNextIdx list.augnode.schema.id
              (state.nextIdx list.augnode.schema.id + 1) state)
            rcases ofRest with ⟨node, referred, -, createdReference, ofRest⟩ | ⟨-, ofRest⟩
            · have creates := starts.trans (quiet_addNode (parentOf outer) list.augnode.schema.id
                (some (.index (state.nextIdx list.augnode.schema.id))) (quiet_instance label.id) _)
              have refers := (quiet_createNode (quiet_leafref _) createdReference).keeps slice
              exact (((creates.keeps _).trans ofSlice).trans refers).append
                (inductionHypothesis ofRest)
            · have freed := (starts.keeps [some (label, below)]).trans
                (ofSlice.freed (quiet_instance label.id))
              exact (freed.trans ((quiet_setNextIdx _ _ _).keeps _)).append
                (inductionHypothesis ofRest)

theorem labelsOf_keeps (keeps : CallKeeps again) (keepsChild : ChildKeeps childLabels)
    (loaded : labelsOf libyang file again augnode children frames childLabels labels state =
      some (after, final)) : Keeps labels state after final := by
  unfold labelsOf at loaded
  split at loaded
  · rename_i path hasPath
    exact valueR_keeps keeps hasPath loaded
  · split at loaded
    · split at loaded
      · cases loaded
      · obtain ⟨⟨node, created⟩, createdNode, loaded⟩ := Option.bind_eq_some_iff.mp loaded
        obtain ⟨_, -, loaded⟩ := Option.bind_eq_some_iff.mp loaded
        exact ((quiet_createNode quiet_around createdNode).keeps labels).trans
          (keepsChild _ _ _ _ _ loaded)
    · split at loaded
      · unfold augdsAug2yangAugnodeLabelsCaseR at loaded
        split at loaded
        · exact caseLoop_keeps keepsChild loaded
        · obtain ⟨rfl, rfl⟩ := Prod.mk.inj (Option.some.inj loaded)
          exact .refl _ _
      · split at loaded
        · rename_i isList
          exact listR_keeps keepsChild isList loaded
        · unfold augdsAug2yangAugnodeRecursiveLabelsR at loaded
          obtain ⟨list, -, loaded⟩ := Option.bind_eq_some_iff.mp loaded
          obtain ⟨⟨frame, outer⟩, -, loaded⟩ := Option.bind_eq_some_iff.mp loaded
          dsimp only at loaded
          by_cases isRecursive : frame.augnode.schema.nodetype = .list ∧
              frame.augnode.schema.hasParent = true ∧ frame.augnode.schema.key = .rId ∧
              state.nextIdx list ≠ 0
          · rw [if_pos isRecursive] at loaded
            exact recursiveLoop_keeps keeps isRecursive.1 loaded
          · rw [if_neg isRecursive] at loaded
            cases loaded
        · obtain ⟨⟨node, created⟩, createdNode, loaded⟩ := Option.bind_eq_some_iff.mp loaded
          obtain ⟨_, -, loaded⟩ := Option.bind_eq_some_iff.mp loaded
          exact ((quiet_createNode quiet_around createdNode).keeps labels).trans
            (keepsChild _ _ _ _ _ loaded)
        · cases loaded

theorem labelsLoop_keeps (keeps : CallKeeps again) {augnodes : Forest Augnode}
    (loaded : labelsLoop libyang file again frames augnodes labels state = some (after, final)) :
    Keeps labels state after final := by
  induction augnodes generalizing frames labels state after final with
  | nil =>
      obtain ⟨rfl, rfl⟩ := Prod.mk.inj (Option.some.inj loaded)
      exact .refl _ _
  | cons augnode children rest childrenHypothesis restHypothesis =>
      rw [labelsLoop] at loaded
      obtain ⟨⟨middleLabels, middle⟩, ofNode, ofRest⟩ := Option.bind_eq_some_iff.mp loaded
      have keepsChild : ChildKeeps fun frames labels state =>
          labelsLoop libyang file again frames children labels state :=
        fun _ _ _ _ _ loadedChildren => childrenHypothesis loadedChildren
      exact (labelsOf_keeps keeps keepsChild ofNode).trans (restHypothesis ofRest)

theorem labelsR_keeps (depth : Nat) : CallKeeps (augdsAug2yangAugnodeLabelsR libyang file depth) := by
  induction depth with
  | zero =>
      intro frames augnodes labels state after final loaded
      cases loaded
  | succ depth inductionHypothesis =>
      intro frames augnodes labels state after final loaded
      exact labelsLoop_keeps inductionHypothesis loaded

end Labels

section Load

/-- Augeas tree below the node of a file; different nodes have different paths. -/
structure AugTree where
  below : Forest Label
  distinct : (below.labels.map Label.id).Nodup

variable {libyang : Libyang} {file : Text} {depth : Nat} {augnodes : Forest Augnode}
  {tree : AugTree} {final : LoadState}

theorem readyBelow_initial (tree : AugTree) : ReadyBelow tree.below .initial :=
  ⟨fun _ member => absurd member List.not_mem_nil, .nil, tree.distinct,
    fun _ member => absurd member List.not_mem_nil⟩

/-- A used label without node makes the report that shows it incomplete. -/
theorem Report.Shows.not_complete {report : Report} {entry : Used} (shows : report.Shows entry)
    (nothing : createsNothing entry.augnode entry.label = true) : ¬report.Complete := by
  obtain ⟨inUsed, given, fits⟩ := shows
  intro complete
  rcases complete _ given with ⟨-, unused, -⟩ | ⟨-, only, node, once, single, -⟩
  · exact unused entry inUsed rfl
  · have inNodes : node ∈ report.nodes.filter (fun node => node.origin = .label entry.label.id) := by
      rw [single]
      exact List.mem_singleton.mpr rfl
    have origin : node.origin = .label entry.label.id := by simpa using (List.mem_filter.mp inNodes).2
    obtain ⟨other, otherUsed, same, creates⟩ :=
      fits.exists_used (List.mem_of_mem_filter inNodes) origin
    have isOnly {some : Used} (member : some ∈ report.used)
        (sameLabel : some.label.id = entry.label.id) : some = only := by
      have inOnce : some ∈ report.used.filter (fun used => used.label.id = entry.label.id) :=
        List.mem_filter.mpr ⟨member, by simpa using sameLabel⟩
      rw [once] at inOnce
      exact List.mem_singleton.mp inOnce
    rw [isOnly otherUsed same, ← isOnly inUsed rfl, Used.creates, if_pos nothing,
      @forLabel_eq_some node (_, node.schema, node.value) |>.mpr ⟨origin, rfl, rfl⟩] at creates
    cases creates

def leafSchema : Schema where
  id := 1
  nodetype := .leaf
  mandatory := false
  isEmpty := false
  hasParent := true
  key := .other
  firstChild := 0
  leafref := none

def filesSchema : Schema :=
  { leafSchema with
    id := 0
    nodetype := .list
    hasParent := false
    key := .configFile }

/-- The list of files with one optional leaf `a`. -/
def leafModule : Forest Augnode :=
  .cons ⟨none, fun _ => true, filesSchema, none, []⟩
    (.cons ⟨some ['a'], fun _ => true, leafSchema, none, []⟩ .nil .nil) .nil

/-- A file with the label `a`. -/
def leafFile (value : Option Text) : AugTree where
  below := .cons ⟨0, ['a'], value⟩ .nil .nil
  distinct := by simp [Forest.labels, Forest.flat]

def lenient : Libyang := ⟨fun _ _ => true, fun _ _ => true⟩

end Load

end SysrepoAugeas.Load
