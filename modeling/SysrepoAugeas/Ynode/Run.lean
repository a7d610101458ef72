import SysrepoAugeas.Ynode.Op

/-!
# Runs of edit primitives

The array and the ordinary tree are edited side by side.  Every run of valid
operations goes through, and after every step the array encodes the tree.
-/

namespace SysrepoAugeas.Ynode

open SysrepoAugeas.Data

/-- What an operation is to do to the tree, in a state of the array. -/
abbrev Meaning := YnodeTree → Forest Core → YnodeOp → Forest Core

/-- A sequence of operations that are valid in the states they meet. -/
def ValidRun (meaning : Meaning) : YnodeTree → Forest Core → List YnodeOp → Prop
  | _, _, [] => True
  | tree, forest, op :: rest =>
      op.Valid tree forest ∧
        ∀ after, op.exec tree = some after → ValidRun meaning after (meaning tree forest op) rest

instance decidableValidRun (meaning : Meaning) : (tree : YnodeTree) → (forest : Forest Core) →
    (ops : List YnodeOp) → Decidable (ValidRun meaning tree forest ops)
  | _, _, [] => isTrue trivial
  | tree, forest, op :: rest =>
      have : Decidable (∀ after, op.exec tree = some after →
          ValidRun meaning after (meaning tree forest op) rest) :=
        match op.exec tree with
        | none => isTrue (by simp)
        | some after =>
            have := decidableValidRun meaning after (meaning tree forest op) rest
            decidable_of_iff (ValidRun meaning after (meaning tree forest op) rest) (by simp)
      inferInstanceAs (Decidable (op.Valid tree forest ∧
        ∀ after, op.exec tree = some after →
          ValidRun meaning after (meaning tree forest op) rest))

/-- The array and the tree after a sequence of operations. -/
def ynodeRun (meaning : Meaning) :
    YnodeTree → Forest Core → List YnodeOp → Option (YnodeTree × Forest Core)
  | tree, forest, [] => some (tree, forest)
  | tree, forest, op :: rest =>
      (op.exec tree).bind fun after => ynodeRun meaning after (meaning tree forest op) rest

/-- The array is the preorder encoding of a tree, linked as the correction would link it. -/
structure WellFormed (tree : YnodeTree) (forest : Forest Core) : Prop where
  encodes : Encodes tree.nodes forest
  isTree : IsTree forest
  corrected : (ayYnodeTreeCorrection tree.nodes).map AyYnode.links = tree.nodes.map AyYnode.links

theorem WellFormed.of_encodes {tree : YnodeTree} {forest : Forest Core}
    (encodes : Encodes tree.nodes forest) (isTree : IsTree forest) : WellFormed tree forest := by
  have again := encodes_of_cells encodes.cells isTree (encodes.rootAlone isTree)
  exact ⟨encodes, isTree, again.links.trans encodes.links.symm⟩

/-- No label is touched but those that the operation brings in or takes away. -/
def Accounts (tree : YnodeTree) (forest after : Forest Core) (op : YnodeOp) : Prop :=
  (after.labels ++ op.loses forest).Perm (op.gains tree forest ++ forest.labels)

/-- Every step goes through and gives the encoding of the tree that is meant. -/
def RefinesThroughout (meaning : Meaning) (tree : YnodeTree) (forest : Forest Core)
    (ops : List YnodeOp) : Prop :=
  ∀ steps ≤ ops.length, ∃ reached edited,
    ynodeRun meaning tree forest (ops.take steps) = some (reached, edited) ∧
      WellFormed reached edited ∧
      ∀ op, ops[steps]? = some op → Accounts reached edited (meaning reached edited op) op

/-- The meaning of the operations, where a copy of the last child is not put behind it. -/
def guardedMeaning : Meaning := fun tree forest op => op.guarded tree forest

/-- The meaning by the plain descriptions of the operations. -/
def plainMeaning : Meaning := fun tree forest op => op.onForest tree forest

/-- From a well-formed array any sequence of valid edits keeps it well-formed and edits the
tree as it should. -/
theorem ynodeRun_refinesThroughout {tree : YnodeTree} {forest : Forest Core} {ops : List YnodeOp}
    (wellFormed : WellFormed tree forest) (valid : ValidRun guardedMeaning tree forest ops) :
    RefinesThroughout guardedMeaning tree forest ops := by
  induction ops generalizing tree forest with
  | nil =>
      intro steps bound
      obtain rfl : steps = 0 := by simpa using bound
      exact ⟨tree, forest, rfl, wellFormed, by simp⟩
  | cons op rest inductionHypothesis =>
      obtain ⟨validOp, validRest⟩ := valid
      obtain ⟨after, ran, encodes, isTree⟩ :=
        YnodeOp.exec_edited wellFormed.encodes wellFormed.isTree validOp
      intro steps bound
      cases steps with
      | zero =>
          refine ⟨tree, forest, rfl, wellFormed, fun next isNext => ?_⟩
          obtain rfl : op = next := by simpa using isNext
          exact YnodeOp.guarded_accounts wellFormed.isTree validOp
      | succ steps =>
          obtain ⟨reached, edited, run, kept, accounts⟩ := inductionHypothesis
            (.of_encodes encodes isTree) (validRest after ran) steps (by simpa using bound)
          refine ⟨reached, edited, ?_, kept, by simpa using accounts⟩
          rw [List.take_succ_cons, ynodeRun, ran, Option.bind_some]
          exact run

/-- Node of a small array. -/
def plainNode (id : YnodeId) (label : Option Lnode) (descendants : Nat)
    (parent next child : Option Nat) : AyYnode :=
  { AyYnode.blank id with
    label := label, descendants := descendants, parent := parent, next := next, child := child }

/-- A root with two children, the first of which has a child itself. -/
def smallTree : YnodeTree where
  nodes := [
    plainNode 0 none 3 none none (some 1),
    plainNode 1 (some 10) 1 (some 0) (some 3) (some 2),
    plainNode 2 (some 20) 0 (some 1) none none,
    plainNode 3 (some 30) 0 (some 0) none none]
  idcnt := 4
  arrsize := 4

def smallForest : Forest Core :=
  let core (id : YnodeId) (label : Option Lnode) : Core := { Core.blank id with label := label }
  .cons (core 0 none)
    (.cons (core 1 (some 10)) (.cons (core 2 (some 20)) .nil .nil)
      (.cons (core 3 (some 30)) .nil .nil)) .nil

theorem wellFormed_smallTree : WellFormed smallTree smallForest :=
  .of_encodes ⟨by decide, by decide⟩ ⟨_, _, rfl⟩

/-- The first child is moved behind its sibling in a full array and copied back once there is
room; the siblings get a parent and what was moved is deleted. -/
theorem ynodeRun_refinesThroughout_small :
    let ops := [.moveSubtreeAsSibling 3 1, .reserve 4, .copySubtreeAsSibling 1 2, .insertParent 2,
      .insertChildLast 3, .deleteNode 2, .deleteSubtree 4, .deleteChildren 2 true]
    ValidRun guardedMeaning smallTree smallForest ops ∧
      RefinesThroughout guardedMeaning smallTree smallForest ops :=
  ⟨by decide, ynodeRun_refinesThroughout wellFormed_smallTree (by decide)⟩

/-- Copying the last child below its own parent leaves the tree as it is. -/
theorem copy_of_lastChild_fails :
    ¬ ∀ (tree : YnodeTree) (forest : Forest Core) (ops : List YnodeOp), WellFormed tree forest →
      ValidRun plainMeaning tree forest ops → RefinesThroughout plainMeaning tree forest ops := by
  intro holds
  obtain ⟨reached, edited, run, kept, -⟩ := holds smallTree smallForest
    [.reserve 1, .copySubtreeAsLastChild 0 3] wellFormed_smallTree (by decide) 2 (by decide)
  have unchanged : (ynodeRun plainMeaning smallTree smallForest
      [.reserve 1, .copySubtreeAsLastChild 0 3]).map (fun pair =>
        (pair.1.nodes.length, pair.2.size)) = some (4, 5) := by decide
  simp only [List.take_succ_cons, List.take_zero] at run
  simp only [run, Option.map_some, Option.some.injEq, Prod.mk.injEq] at unchanged
  have sameSize := length_of_cells kept.encodes.cells
  omega

end SysrepoAugeas.Ynode
