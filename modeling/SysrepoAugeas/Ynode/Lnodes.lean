import SysrepoAugeas.Ynode.Project

/-!
# The lnode array

The lenses are counted first, which gives the size of the array, and then
written in preorder.  A child goes to the first free place; its parent and its
sibling in front, which are in the array already, get their links to it.
-/

namespace SysrepoAugeas.Ynode

open SysrepoAugeas.Data

section Code

/-- `AY_LENSE_HAS_CHILDREN` -/
def ayLenseHasChildren : LensTag → Bool
  | .lConcat | .lUnion => true
  | _ => false

/-- `ay_lense_summary` for one lens or for each of some lenses; the counter `ltree_size`. -/
def lenseSummaries (one : Bool) : Forest Lens → Nat
  | .nil => 0
  | .cons lens kids rest =>
      1 + (if ayLenseHasNoChild lens.tag then 0
        else if ayLenseHasOneChild lens.tag then lenseSummaries true kids
        else if ayLenseHasChildren lens.tag then lenseSummaries false kids
        else if lens.tag = .lRec && !lens.recInternal then lenseSummaries true kids
        else 0) +
        if one then 0 else lenseSummaries false rest

/-- `ay_lense_summary` -/
def ayLenseSummary (tree : LensTree) : Nat :=
  lenseSummaries true (.cons tree.lens tree.children .nil)

/-- `struct ay_lnode` -/
structure LnodeCell where
  parent : Option Lnode
  next : Option Lnode
  child : Option Lnode
  descendants : Nat
  lens : Option Lens
  deriving DecidableEq

/-- The array is allocated with zeros. -/
def LnodeCell.blank : LnodeCell := ⟨none, none, none, 0, none⟩

/-- The allocated array with `LY_ARRAY_COUNT`. -/
structure LnodeArray where
  cells : List LnodeCell
  count : Nat
  deriving DecidableEq

/-- An access outside of the array is a fault. -/
def LnodeArray.write (array : LnodeArray) (index : Lnode) (change : LnodeCell → LnodeCell) :
    Option LnodeArray :=
  if index < array.cells.length then
    some { array with cells := array.cells.modify index change }
  else none

/-- The call of `ay_lnode_create_tree` for a lens. -/
inductive LnodePlace where
  | top
  /-- The first child, and if there can be no other one. -/
  | first (parent : Lnode) (only : Bool)
  | behind (parent prev : Lnode)

/-- The lnode that is filled, linked with its parent and its sibling in front. -/
def LnodePlace.locate (array : LnodeArray) : LnodePlace → Option (Lnode × LnodeArray)
  | .top => some (0, array)
  | .first parent _ => do
      let array ← array.write parent fun cell => { cell with child := some (parent + 1) }
      let array ← array.write (parent + 1) fun cell => { cell with parent := some parent }
      some (parent + 1, array)
  | .behind parent prev => do
      let child := array.count
      let array ← array.write child fun cell => { cell with parent := some parent }
      let array ← array.write prev fun cell => { cell with next := some child }
      some (child, array)

/-- `ay_lnode_create_tree` for a lens at a place, with its loop over the siblings behind it. -/
def writeLnodes : Forest Lens → LnodePlace → LnodeArray → Option LnodeArray
  | .nil, .behind _ _, array => some array
  | .nil, _, _ => none
  | .cons lens kids rest, place, array => do
      let (node, array) ← place.locate array
      let array ← { array with count := array.count + 1 }.write node fun cell =>
        { cell with lens := some lens }
      let array ←
        (if ayLenseHasNoChild lens.tag || (lens.tag = .lRec && lens.recInternal) then some array
        else writeLnodes kids (.first node (ayLenseHasOneChild lens.tag || lens.tag = .lRec)) array)
      let cell ← array.cells[node]?
      match place with
      | .top => some array
      | .first parent only => do
          let array ← array.write parent fun parent =>
            { parent with descendants := 1 + cell.descendants }
          if only then some array else writeLnodes rest (.behind parent node) array
      | .behind parent _ => do
          let array ← array.write parent fun parent =>
            { parent with descendants := parent.descendants + (1 + cell.descendants) }
          writeLnodes rest (.behind parent node) array

/-- The array that is allocated for the counted lenses, and what is written into it. -/
def ayLnodeWriteTree (tree : LensTree) : Option LnodeArray :=
  writeLnodes (.cons tree.lens tree.children .nil) .top
    ⟨List.replicate (ayLenseSummary tree) .blank, 0⟩

end Code

section Cells

/-- The lnodes of some lenses in preorder. -/
def lnodeCells (start : Nat) (parent : Option Lnode) : Forest Lens → List LnodeCell
  | .nil => []
  | .cons lens kids rest =>
      ⟨parent, if rest.size = 0 then none else some (start + kids.size + 1),
          if kids.size = 0 then none else some (start + 1), kids.size, some lens⟩ ::
        (lnodeCells (start + 1) (some start) kids ++ lnodeCells (start + kids.size + 1) parent rest)

@[simp]
theorem length_lnodeCells (start : Nat) (parent : Option Lnode) (forest : Forest Lens) :
    (lnodeCells start parent forest).length = forest.size := by
  induction forest generalizing start parent with
  | nil => rfl
  | cons lens kids rest kidsHypothesis restHypothesis =>
      simp [lnodeCells, Forest.size, kidsHypothesis, restHypothesis]

def LnodeCell.links (cell : LnodeCell) : Forest.Links := ⟨cell.parent, cell.next, cell.child⟩

theorem lnodeCells_links (start : Nat) (parent : Option Lnode) (forest : Forest Lens) :
    (lnodeCells start parent forest).map LnodeCell.links = forest.links start parent := by
  induction forest generalizing start parent with
  | nil => rfl
  | cons lens kids rest kidsHypothesis restHypothesis =>
      rw [lnodeCells, Forest.links, List.map_cons, List.map_append, kidsHypothesis, restHypothesis]
      rfl

theorem lnodeCells_flat (start : Nat) (parent : Option Lnode) (forest : Forest Lens) :
    (lnodeCells start parent forest).map (fun cell => (cell.lens, cell.descendants)) =
      forest.flat.map fun (lens, descendants) => (some lens, descendants) := by
  induction forest generalizing start parent with
  | nil => rfl
  | cons lens kids rest kidsHypothesis restHypothesis =>
      rw [lnodeCells, Forest.flat, List.map_cons, List.map_append, kidsHypothesis, restHypothesis,
        List.map_cons, List.map_append]

end Cells

section Count

theorem rest_of_isTreeOf {lens : Lens} {kids rest : Forest Lens}
    (single : Shaped.IsTreeOf (.cons lens kids rest)) : rest = .nil := by
  cases rest with
  | nil => rfl
  | cons other below others => exact single.elim

/-- The tags tell apart lenses without, with one and with many children. -/
theorem hasChildren_of_tag {tag : LensTag} (hasChild : ayLenseHasNoChild tag = false)
    (noOne : ayLenseHasOneChild tag = false) (noRec : tag ≠ .lRec) : ayLenseHasChildren tag = true := by
  revert hasChild noOne noRec
  cases tag <;> decide

theorem ayLenseHasOneChild_lRec : ayLenseHasOneChild .lRec = false := rfl

theorem ayLenseHasChildren_lRec : ayLenseHasChildren .lRec = false := rfl

/-- The children that are counted are those of the lens. -/
theorem summary_children {lens : Lens} {kids rest : Forest Lens}
    (shaped : Shaped (.cons lens kids rest))
    (one : Shaped.IsTreeOf kids → lenseSummaries true kids = kids.size)
    (many : lenseSummaries false kids = kids.size) :
    (if ayLenseHasNoChild lens.tag then 0
      else if ayLenseHasOneChild lens.tag then lenseSummaries true kids
      else if ayLenseHasChildren lens.tag then lenseSummaries false kids
      else if lens.tag = .lRec && !lens.recInternal then lenseSummaries true kids
      else 0) = kids.size := by
  obtain ⟨shape, -, -⟩ := shaped
  cases noChild : ayLenseHasNoChild lens.tag with
  | true =>
      rw [noChild, Bool.true_or, if_pos rfl] at shape
      rw [if_pos rfl, shape]
      rfl
  | false =>
      rw [noChild, Bool.false_or] at shape
      rw [if_neg Bool.false_ne_true]
      by_cases isRec : lens.tag = .lRec
      · rw [isRec] at shape ⊢
        rw [ayLenseHasOneChild_lRec, ayLenseHasChildren_lRec, if_neg Bool.false_ne_true,
          if_neg Bool.false_ne_true]
        cases internal : lens.recInternal with
        | true =>
            rw [internal, if_pos (by simp)] at shape
            rw [if_neg (by simp), shape]
            rfl
        | false =>
            rw [internal, if_neg (by simp), if_pos (by simp)] at shape
            rw [if_pos (by simp), one shape]
      · rw [if_neg (by simp [isRec])] at shape
        cases hasOne : ayLenseHasOneChild lens.tag with
        | true =>
            rw [hasOne, if_pos (by simp)] at shape
            rw [if_pos rfl, one shape]
        | false =>
            rw [if_neg Bool.false_ne_true, if_pos (hasChildren_of_tag noChild hasOne isRec), many]

/-- Every lens is counted once. -/
theorem lenseSummaries_eq {one : Bool} {forest : Forest Lens} (shaped : Shaped forest)
    (single : one = true → Shaped.IsTreeOf forest) : lenseSummaries one forest = forest.size := by
  induction forest generalizing one with
  | nil => rfl
  | cons lens kids rest kidsHypothesis restHypothesis =>
      have kidsCount := summary_children shaped
        (fun isTree => kidsHypothesis shaped.2.1 fun _ => isTree)
        (kidsHypothesis shaped.2.1 (by simp))
      rw [lenseSummaries, kidsCount, Forest.size]
      cases one with
      | true =>
          rw [rest_of_isTreeOf (single rfl), if_pos rfl, Forest.size]
          omega
      | false =>
          rw [if_neg Bool.false_ne_true, restHypothesis shaped.2.2 (by simp)]
          omega

end Count

section Writing

variable {before after : List LnodeCell} {cell : LnodeCell} {count : Nat}
  {change : LnodeCell → LnodeCell}

theorem modify_append_of_lt {index : Nat} (bound : index < before.length) :
    (before ++ after).modify index change = before.modify index change ++ after := by
  induction before generalizing index with
  | nil => cases bound
  | cons first rest inductionHypothesis =>
      cases index with
      | zero => rfl
      | succ index =>
          rw [List.cons_append, List.modify_succ_cons, List.modify_succ_cons,
            inductionHypothesis (Nat.lt_of_succ_lt_succ bound), List.cons_append]

theorem write_before {index : Nat} (bound : index < before.length) :
    LnodeArray.write ⟨before ++ after, count⟩ index change =
      some ⟨before.modify index change ++ after, count⟩ := by
  have inside : index < (before ++ after).length := by
    rw [List.length_append]
    omega
  rw [LnodeArray.write, if_pos inside, modify_append_of_lt bound]

theorem write_at {index : Nat} (place : index = before.length) :
    LnodeArray.write ⟨before ++ cell :: after, count⟩ index change =
      some ⟨before ++ change cell :: after, count⟩ := by
  subst place
  have inside : before.length < (before ++ cell :: after).length := by
    rw [List.length_append, List.length_cons]
    omega
  rw [LnodeArray.write, if_pos inside, modify_split]

/-- Free places for the lnodes of a forest. -/
def freeCells (forest : Forest Lens) (after : List LnodeCell) : List LnodeCell :=
  List.replicate forest.size .blank ++ after

theorem freeCells_cons (lens : Lens) (kids rest : Forest Lens) :
    freeCells (.cons lens kids rest) after = .blank :: freeCells kids (freeCells rest after) := by
  rw [freeCells, freeCells, freeCells, Forest.size, List.replicate_succ, List.replicate_add,
    List.cons_append, List.append_assoc]

/-- What the parent gets from its first child and all the others. -/
def LnodeCell.adopt (cell : LnodeCell) (child descendants : Nat) : LnodeCell :=
  { cell with child := some child, descendants := descendants }

/-- Links to what stands behind a sibling. -/
def LnodeCell.follow (cell : LnodeCell) (next : Nat) (forest : Forest Lens) : LnodeCell :=
  if forest.size = 0 then cell else { cell with next := some next }

def LnodeCell.grow (cell : LnodeCell) (more : Nat) : LnodeCell :=
  { cell with descendants := cell.descendants + more }

/-- The children behind the first one are written. -/
def WritesBehind (forest : Forest Lens) : Prop :=
  ∀ (before after : List LnodeCell) (parent prev : Nat), parent < before.length →
    prev < before.length →
    writeLnodes forest (.behind parent prev) ⟨before ++ freeCells forest after, before.length⟩ =
      some ⟨(before.modify prev fun cell => cell.follow before.length forest).modify parent
          (fun cell => cell.grow forest.size) ++
            (lnodeCells before.length (some parent) forest ++ after),
        before.length + forest.size⟩

/-- All children of the last lnode that has been written. -/
def WritesFirst (forest : Forest Lens) : Prop :=
  ∀ (before after : List LnodeCell) (cell : LnodeCell) (only : Bool), forest ≠ .nil →
    (only = true → Shaped.IsTreeOf forest) →
    writeLnodes forest (.first before.length only)
        ⟨before ++ cell :: freeCells forest after, before.length + 1⟩ =
      some ⟨before ++ cell.adopt (before.length + 1) forest.size ::
          (lnodeCells (before.length + 1) (some before.length) forest ++ after),
        before.length + 1 + forest.size⟩

/-- What a lens below which everything is written has got. -/
def LnodeCell.complete (cell : LnodeCell) (start : Nat) (kids : Forest Lens) : LnodeCell :=
  { cell with
    child := if kids.size = 0 then none else some start
    descendants := kids.size }

/-- The children of a lens that has just been written. -/
theorem writeChildren_eq {lens : Lens} {kids rest : Forest Lens}
    (shaped : Shaped (.cons lens kids rest)) (first : WritesFirst kids) (noChild : cell.child = none)
    (noDescendants : cell.descendants = 0) :
    (if ayLenseHasNoChild lens.tag || (lens.tag = .lRec && lens.recInternal) then
        some ⟨before ++ cell :: freeCells kids after, before.length + 1⟩
      else writeLnodes kids
        (.first before.length (ayLenseHasOneChild lens.tag || lens.tag = .lRec))
        ⟨before ++ cell :: freeCells kids after, before.length + 1⟩) =
      some ⟨before ++ cell.complete (before.length + 1) kids ::
          (lnodeCells (before.length + 1) (some before.length) kids ++ after),
        before.length + 1 + kids.size⟩ := by
  obtain ⟨shape, -, -⟩ := shaped
  split at shape
  · rename_i isLeaf
    subst shape
    have same : cell.complete (before.length + 1) .nil = cell := by
      rw [LnodeCell.complete, Forest.size, if_pos rfl, ← noChild, ← noDescendants]
    rw [if_pos isLeaf, same]
    rfl
  · rename_i noLeaf
    have nonempty : kids ≠ .nil := by
      split at shape
      · rintro rfl
        exact shape.elim
      · exact shape
    have single : (ayLenseHasOneChild lens.tag || lens.tag = .lRec) = true → Shaped.IsTreeOf kids := by
      intro isOne
      rw [if_pos isOne] at shape
      exact shape
    rw [if_neg noLeaf, first before after cell _ nonempty single]
    have hasKids : kids.size ≠ 0 := fun empty => nonempty (Forest.eq_nil_of_size empty)
    rw [LnodeCell.complete, if_neg hasKids]
    rfl

/-- The siblings behind a lens that is complete. -/
theorem writeSiblings_eq {rest : Forest Lens} (behind : WritesBehind rest) {parent : Nat}
    (bound : parent < before.length) {kidCells : List LnodeCell} (noNext : cell.next = none)
    (places : count = before.length + 1 + kidCells.length) :
    writeLnodes rest (.behind parent before.length)
        ⟨before ++ cell :: (kidCells ++ freeCells rest after), count⟩ =
      some ⟨before.modify parent (fun cell => cell.grow rest.size) ++
          { cell with next := if rest.size = 0 then none else some count } ::
            (kidCells ++ (lnodeCells count (some parent) rest ++ after)),
        count + rest.size⟩ := by
  have written := behind (before ++ cell :: kidCells) after parent before.length
    (by rw [List.length_append]; omega) (by rw [List.length_append, List.length_cons]; omega)
  have length : (before ++ cell :: kidCells).length = count := by
    rw [List.length_append, List.length_cons]
    omega
  have followed : cell.follow count rest =
      { cell with next := if rest.size = 0 then none else some count } := by
    rw [LnodeCell.follow]
    split
    · rw [← noNext]
    · rfl
  rw [length, modify_split, followed, modify_append_of_lt bound] at written
  simpa using written

theorem writesBehind_nil : WritesBehind .nil := by
  intro before after parent prev _ _
  have sameNext : before.modify prev (fun cell => cell.follow before.length .nil) = before :=
    List.modify_id prev before
  have sameCount : before.modify parent (fun cell => cell.grow (Forest.nil : Forest Lens).size) =
      before := List.modify_id parent before
  rw [sameNext, sameCount]
  rfl

/-- A lens and what is below it, for any continuation that looks at it again. -/
theorem fillLnode_eq {lens : Lens} {kids rest : Forest Lens} (shaped : Shaped (.cons lens kids rest))
    (first : WritesFirst kids) (noChild : cell.child = none) (noDescendants : cell.descendants = 0)
    (next : LnodeCell → LnodeArray → Option LnodeArray) :
    ((LnodeArray.write ⟨before ++ cell :: freeCells kids after, before.length + 1⟩ before.length
        fun cell => { cell with lens := some lens }).bind fun array =>
      (if ayLenseHasNoChild lens.tag || (lens.tag = .lRec && lens.recInternal) then some array
        else writeLnodes kids
          (.first before.length (ayLenseHasOneChild lens.tag || lens.tag = .lRec)) array).bind
        fun array => (array.cells[before.length]?).bind fun cell => next cell array) =
      next ({ cell with lens := some lens }.complete (before.length + 1) kids)
        ⟨before ++ { cell with lens := some lens }.complete (before.length + 1) kids ::
            (lnodeCells (before.length + 1) (some before.length) kids ++ after),
          before.length + 1 + kids.size⟩ := by
  have children := @writeChildren_eq before after { cell with lens := some lens } lens kids rest
    shaped first noChild noDescendants
  rw [write_at rfl, Option.bind_some, children, Option.bind_some]
  dsimp only
  rw [List.getElem?_append_right (Nat.le_refl _), Nat.sub_self, List.getElem?_cons_zero,
    Option.bind_some]

/-- The children of a lens and the siblings behind it are written. -/
theorem writes (forest : Forest Lens) (shaped : Shaped forest) :
    WritesBehind forest ∧ WritesFirst forest := by
  induction forest with
  | nil => exact ⟨writesBehind_nil, fun _ _ _ _ nonempty _ => absurd rfl nonempty⟩
  | cons lens kids rest kidsHypothesis restHypothesis =>
      have kidsWritten := (kidsHypothesis shaped.2.1).2
      have restWritten := (restHypothesis shaped.2.2).1
      constructor
      · intro before after parent prev parentBound prevBound
        let node : LnodeCell := { LnodeCell.blank with parent := some parent }
        let done := { node with lens := some lens }.complete (before.length + 1) kids
        let linked := before.modify prev fun cell => { cell with next := some before.length }
        have linkedLength : linked.length = before.length := List.length_modify _ _ _
        have parentInside : parent < linked.length := by
          rw [linkedLength]
          exact parentBound
        rw [writeLnodes, LnodePlace.locate, freeCells_cons]
        simp only [Option.bind_eq_bind]
        rw [write_at rfl, Option.bind_some, write_before prevBound, Option.bind_some, Option.bind_some]
        have filled := @fillLnode_eq linked (freeCells rest after) node lens kids rest shaped
          kidsWritten rfl rfl fun cell array =>
            (array.write parent fun parent =>
              { parent with descendants := parent.descendants + (1 + cell.descendants) }).bind
                fun array => writeLnodes rest (.behind parent linked.length) array
        rw [linkedLength] at filled
        refine filled.trans ?_
        rw [write_before parentInside, Option.bind_some]
        -- the rest of the loop
        let counted := linked.modify parent fun parent =>
          { parent with descendants := parent.descendants + (1 + kids.size) }
        have countedLength : counted.length = before.length :=
          (List.length_modify _ _ _).trans linkedLength
        have siblings := @writeSiblings_eq counted after done (before.length + 1 + kids.size) rest
          restWritten parent (by rw [countedLength]; exact parentBound)
          (lnodeCells (before.length + 1) (some before.length) kids) rfl
          (by rw [countedLength, length_lnodeCells])
        rw [countedLength] at siblings
        refine siblings.trans ?_
        have grown : counted.modify parent (fun cell => cell.grow rest.size) =
            linked.modify parent fun cell => cell.grow (Forest.cons lens kids rest).size := by
          rw [List.modify_modify_eq]
          congr 1
          funext cell
          simp only [Function.comp, LnodeCell.grow, Forest.size, LnodeCell.mk.injEq, true_and,
            and_true]
          omega
        have followed : (before.modify prev fun cell =>
            cell.follow before.length (.cons lens kids rest)) = linked := rfl
        rw [grown, followed, Option.some.injEq, LnodeArray.mk.injEq, lnodeCells, Forest.size,
          show before.length + 1 + kids.size = before.length + kids.size + 1 by omega]
        refine ⟨?_, by omega⟩
        simp [done, node, LnodeCell.complete, LnodeCell.blank]
      · intro before after cell only _ single
        let node : LnodeCell := { LnodeCell.blank with parent := some before.length }
        let opened : LnodeCell := { cell with child := some (before.length + 1) }
        let counted : LnodeCell := { opened with descendants := 1 + kids.size }
        have place (last : LnodeCell) : (before ++ [last]).length = before.length + 1 := by
          rw [List.length_append, List.length_singleton]
        have split (last : LnodeCell) (back : List LnodeCell) :
            before ++ last :: back = before ++ [last] ++ back := by
          rw [List.append_assoc, List.singleton_append]
        let done := { node with lens := some lens }.complete (before.length + 1 + 1) kids
        have filled := @fillLnode_eq (before ++ [opened]) (freeCells rest after) node lens kids rest
          shaped kidsWritten rfl rfl fun cell array =>
            (array.write before.length fun parent =>
              { parent with descendants := 1 + cell.descendants }).bind fun array =>
                if only then some array
                else writeLnodes rest (.behind before.length (before.length + 1)) array
        rw [place opened] at filled
        rw [writeLnodes, LnodePlace.locate, freeCells_cons]
        simp only [Option.bind_eq_bind]
        rw [write_at rfl, Option.bind_some, split, write_at (place opened).symm, Option.bind_some,
          Option.bind_some]
        refine filled.trans ?_
        rw [← split, write_at rfl, Option.bind_some]
        have kidsStart : before.length + 1 + 1 + kids.size = before.length + 1 + kids.size + 1 := by
          omega
        cases only with
        | true =>
            obtain rfl := rest_of_isTreeOf (single rfl)
            have noRest : (Forest.nil : Forest Lens).size = 0 := rfl
            have whole : (Forest.cons lens kids .nil).size = 1 + kids.size := by
              rw [Forest.size, noRest]
              omega
            rw [if_pos rfl, Option.some.injEq, LnodeArray.mk.injEq, lnodeCells, whole]
            refine ⟨?_, by omega⟩
            simp [node, opened, LnodeCell.complete, LnodeCell.blank, LnodeCell.adopt, noRest,
              freeCells, lnodeCells]
        | false =>
            have siblings := @writeSiblings_eq (before ++ [counted]) after done
              (before.length + 1 + 1 + kids.size) rest restWritten before.length
              (by rw [place]; omega)
              (lnodeCells (before.length + 1 + 1) (some (before.length + 1)) kids) rfl
              (by rw [place, length_lnodeCells])
            rw [place, modify_split, ← split] at siblings
            rw [if_neg Bool.false_ne_true]
            refine siblings.trans ?_
            rw [Option.some.injEq, LnodeArray.mk.injEq, lnodeCells, Forest.size, kidsStart]
            refine ⟨?_, by omega⟩
            have count : 1 + kids.size + rest.size = kids.size + rest.size + 1 := by omega
            simp [done, node, counted, opened, LnodeCell.complete, LnodeCell.blank, LnodeCell.adopt,
              LnodeCell.grow, count]

theorem ayLenseSummary_eq (tree : LensTree) :
    ayLenseSummary tree = (Forest.cons tree.lens tree.children .nil).size :=
  lenseSummaries_eq tree.shaped fun _ => trivial

theorem ayLnodeWriteTree_cells (tree : LensTree) :
    ayLnodeWriteTree tree =
      some ⟨lnodeCells 0 none (.cons tree.lens tree.children .nil), ayLenseSummary tree⟩ := by
  have filled := @fillLnode_eq [] [] .blank tree.lens tree.children .nil tree.shaped
    (writes tree.children tree.shaped.2.1).2 rfl rfl fun _ array => some array
  have noRest : (Forest.nil : Forest Lens).size = 0 := rfl
  have free : List.replicate (ayLenseSummary tree) LnodeCell.blank =
      .blank :: freeCells tree.children [] := by
    rw [ayLenseSummary_eq, Forest.size, noRest, List.replicate_succ, freeCells, List.append_nil]
  rw [ayLnodeWriteTree, writeLnodes, LnodePlace.locate, free]
  refine filled.trans ?_
  rw [ayLenseSummary_eq, Forest.size, noRest]
  simp [LnodeCell.complete, LnodeCell.blank, lnodeCells, noRest]
  omega

/-- The lnodes are as many as were counted, in preorder and linked like the lenses. -/
theorem ayLnodeWriteTree_eq (tree : LensTree) :
    ∃ array, ayLnodeWriteTree tree = some array ∧ array.count = ayLenseSummary tree ∧
      array.cells.length = array.count ∧
      array.cells.map (fun cell => (cell.lens, cell.descendants)) =
        (Forest.cons tree.lens tree.children .nil).flat.map
          (fun (lens, descendants) => (some lens, descendants)) ∧
      array.cells.map LnodeCell.links =
        (Forest.cons tree.lens tree.children .nil).links 0 none :=
  ⟨_, ayLnodeWriteTree_cells tree, rfl,
    (length_lnodeCells _ _ _).trans (ayLenseSummary_eq tree).symm, lnodeCells_flat _ _ _,
    lnodeCells_links _ _ _⟩

/-- What the conversion to ynodes reads of a written lnode. -/
def LnodeCell.read (cell : LnodeCell) : Option AyLnode :=
  cell.lens.map fun lens => ⟨cell.parent, cell.descendants, lens.tag, lens.string⟩

theorem createLnodes_eq (start : Nat) (parent : Option Lnode) (forest : Forest Lens) :
    createLnodes start parent forest = (lnodeCells start parent forest).filterMap LnodeCell.read := by
  induction forest generalizing start parent with
  | nil => rfl
  | cons lens kids rest kidsHypothesis restHypothesis =>
      rw [createLnodes, lnodeCells, kidsHypothesis, restHypothesis, List.filterMap_cons,
        List.filterMap_append]
      rfl

/-- The lnodes of the conversion are those that are written. -/
theorem ayLnodeCreateTree_written (tree : LensTree) :
    (ayLnodeWriteTree tree).map (fun array => array.cells.filterMap LnodeCell.read) =
      some (ayLnodeCreateTree tree) := by
  rw [ayLnodeWriteTree_cells, Option.map_some, ayLnodeCreateTree, createLnodes_eq]

end Writing

end SysrepoAugeas.Ynode
