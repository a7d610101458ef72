import SysrepoAugeas.Data.Uproot
import SysrepoAugeas.Ynode.Create
import SysrepoAugeas.Ynode.Insert

/-!
# The ynode tree as a projection of the lens tree

The lnodes stand in preorder, so the lnodes that become ynodes and the numbers
of their descendants are both found by scans of the array that jump over the
ignored subtrees.
-/

namespace SysrepoAugeas.Ynode

open SysrepoAugeas.Data

section Lenses

/-- What is read of a `struct lens`. -/
structure Lens where
  tag : LensTag
  /-- `string->str` of a label -/
  string : String
  recInternal : Bool
  deriving DecidableEq

/-- `AY_LENSE_HAS_NO_CHILD` -/
def ayLenseHasNoChild : LensTag → Bool
  | .lDel | .lStore | .lValue | .lKey | .lLabel | .lSeq | .lCounter => true
  | _ => false

/-- `AY_LENSE_HAS_ONE_CHILD` -/
def ayLenseHasOneChild : LensTag → Bool
  | .lSubtree | .lStar | .lMaybe | .lSquare => true
  | _ => false

/-- Every lens has the children that its tag says; an internal recursion stands for its
external lens and is not followed. -/
def Shaped : Forest Lens → Prop
  | .nil => True
  | .cons lens kids rest =>
      (if ayLenseHasNoChild lens.tag || (lens.tag = .lRec && lens.recInternal) then kids = .nil
        else if ayLenseHasOneChild lens.tag || lens.tag = .lRec then IsTreeOf kids
        else kids ≠ .nil) ∧ Shaped kids ∧ Shaped rest
where
  IsTreeOf : Forest Lens → Prop
    | .cons _ _ .nil => True
    | _ => False

/-- A lens with all the lenses it is built from. -/
structure LensTree where
  lens : Lens
  children : Forest Lens
  shaped : Shaped (.cons lens children .nil)

/-- Loop and recursion of `ay_lnode_create_tree`: the lnodes of the lenses from `index` on. -/
def createLnodes (index : Nat) (parent : Option Lnode) : Forest Lens → List AyLnode
  | .nil => []
  | .cons lens children siblings =>
      ⟨parent, children.size, lens.tag, lens.string⟩ ::
        (createLnodes (index + 1) (some index) children ++
          createLnodes (index + children.size + 1) parent siblings)

/-- `ay_lnode_create_tree` -/
def ayLnodeCreateTree (tree : LensTree) : List AyLnode :=
  createLnodes 0 none (.cons tree.lens tree.children .nil)

@[simp]
theorem length_createLnodes (index : Nat) (parent : Option Lnode) (forest : Forest Lens) :
    (createLnodes index parent forest).length = forest.size := by
  induction forest generalizing index parent with
  | nil => rfl
  | cons lens children siblings childrenHypothesis siblingsHypothesis =>
      simp [createLnodes, Forest.size, childrenHypothesis, siblingsHypothesis]

/-- The lnodes of the lenses stand in the array from `start` on. -/
def Placed (ltree : List AyLnode) (start : Nat) (forest : Forest Lens) : Prop :=
  ∃ parent before after, before.length = start ∧
    ltree = before ++ (createLnodes start parent forest ++ after)

variable {ltree : List AyLnode} {start : Nat} {lens : Lens} {kids rest : Forest Lens}

theorem Placed.lnode (placed : Placed ltree start (.cons lens kids rest)) :
    ∃ parent, ltree[start]? = some ⟨parent, kids.size, lens.tag, lens.string⟩ := by
  obtain ⟨parent, before, after, rfl, rfl⟩ := placed
  refine ⟨parent, ?_⟩
  rw [List.getElem?_append_right (Nat.le_refl _), createLnodes]
  simp

theorem Placed.children (placed : Placed ltree start (.cons lens kids rest)) :
    Placed ltree (start + 1) kids := by
  obtain ⟨parent, before, after, rfl, rfl⟩ := placed
  refine ⟨some before.length, before ++ [⟨parent, kids.size, lens.tag, lens.string⟩],
    createLnodes (before.length + kids.size + 1) parent rest ++ after, by simp, ?_⟩
  simp [createLnodes]

theorem Placed.siblings (placed : Placed ltree start (.cons lens kids rest)) :
    Placed ltree (start + kids.size + 1) rest := by
  obtain ⟨parent, before, after, rfl, rfl⟩ := placed
  refine ⟨parent, before ++ ⟨parent, kids.size, lens.tag, lens.string⟩ ::
    createLnodes (before.length + 1) (some before.length) kids, after, by simp; omega, ?_⟩
  simp [createLnodes]

theorem placed_ayLnodeCreateTree (tree : LensTree) :
    Placed (ayLnodeCreateTree tree) 0 (.cons tree.lens tree.children .nil) :=
  ⟨none, [], [], rfl, by simp [ayLnodeCreateTree]⟩

end Lenses

section Scan

/-- The lnode is a comment subtree. -/
def ignoredAt (ltree : List AyLnode) (index : Nat) : Bool :=
  match ltree[index]? with
  | some lnode => ayYnodeIsIgnored ltree lnode (ayYnodeFindLabel ltree index lnode)
  | none => false

/-- The lenses that become ynodes, each above those below it; labels are the lnodes. -/
def projected (ltree : List AyLnode) (start : Nat) : Forest Lens → Forest Lnode
  | .nil => .nil
  | .cons lens children siblings =>
      if isSnode lens.tag then
        if ignoredAt ltree start then projected ltree (start + children.size + 1) siblings
        else .cons start (projected ltree (start + 1) children)
          (projected ltree (start + children.size + 1) siblings)
      else (projected ltree (start + 1) children).append
        (projected ltree (start + children.size + 1) siblings)

/-- Indices at which a scan up to `bound` finds a ynode. -/
def visited (ltree : List AyLnode) (bound : Nat) : Nat → Nat → List Lnode
  | fuel + 1, i =>
      if i < bound then
        match ltree[i]? with
        | some lnode =>
            if isSnode lnode.tag then
              if ayYnodeIsIgnored ltree lnode (ayYnodeFindLabel ltree i lnode) then
                visited ltree bound fuel (i + lnode.descendants + 1)
              else i :: visited ltree bound fuel (i + 1)
            else visited ltree bound fuel (i + 1)
        | none => []
      else []
  | 0, _ => []

variable {ltree : List AyLnode}

theorem countDescendants_eq_length (snode descendants fuel k : Nat) :
    countDescendants ltree snode descendants fuel k =
      (visited ltree (snode + 1 + descendants) fuel (snode + 1 + k)).length := by
  induction fuel generalizing k with
  | zero => rfl
  | succ fuel inductionHypothesis =>
      by_cases more : k < descendants
      · cases found : ltree[snode + 1 + k]? with
        | none => simp [countDescendants, visited, found]
        | some lnode =>
            simp only [countDescendants, visited, Nat.add_lt_add_iff_left, more, if_true, found,
              inductionHypothesis]
            split
            · split
              · rw [← Nat.add_assoc, ← Nat.add_assoc]
              · rw [List.length_cons, Nat.add_assoc _ k 1]
            · rw [Nat.add_assoc _ k 1]
      · simp [countDescendants, visited, more]

/-- Lnode and number of descendants of the ynode that is created at an index. -/
def viewAt (ltree : List AyLnode) (index : Lnode) : Option Lnode × Nat :=
  (some index, match ltree[index]? with
    | some lnode => countDescendants ltree index lnode.descendants lnode.descendants 0
    | none => 0)

def AyYnode.view (node : AyYnode) : Option Lnode × Nat := (node.snode, node.descendants)

theorem view_createForestFrom (bound fuel i : Nat) (id : YnodeId) :
    (createForestFrom ltree bound fuel i id).map AyYnode.view =
      (visited ltree bound fuel i).map (viewAt ltree) := by
  induction fuel generalizing i id with
  | zero => rfl
  | succ fuel inductionHypothesis =>
      simp only [createForestFrom, visited]
      split
      · cases found : ltree[i]? with
        | none => rfl
        | some lnode =>
            dsimp only
            split
            · split
              · rw [inductionHypothesis]
              · simp only [List.map_cons, inductionHypothesis, viewAt, found]
                rfl
            · rw [inductionHypothesis]
      · rfl

theorem visited_fuel {bound fuel more i : Nat} (enough : bound - i ≤ fuel)
    (moreEnough : bound - i ≤ more) : visited ltree bound fuel i = visited ltree bound more i := by
  induction fuel generalizing more i with
  | zero =>
      cases more with
      | zero => rfl
      | succ more =>
          rw [visited, visited, if_neg (by omega)]
  | succ fuel inductionHypothesis =>
      by_cases inside : i < bound
      · obtain ⟨more, rfl⟩ : ∃ less, more = less + 1 := ⟨more - 1, by omega⟩
        have next := @inductionHypothesis more (i + 1) (by omega) (by omega)
        rw [visited, visited, if_pos inside, if_pos inside]
        cases ltree[i]? with
        | none => rfl
        | some lnode =>
            dsimp only
            rw [next, @inductionHypothesis more (i + lnode.descendants + 1) (by omega) (by omega)]
      · cases more with
        | zero => rw [visited, visited, if_neg inside]
        | succ more => rw [visited, visited, if_neg inside, if_neg inside]

/-- A scan that runs to its end. -/
def visitedFrom (ltree : List AyLnode) (bound i : Nat) : List Lnode :=
  visited ltree bound (bound - i) i

theorem visitedFrom_end {bound i : Nat} (done : bound ≤ i) : visitedFrom ltree bound i = [] := by
  rw [visitedFrom, Nat.sub_eq_zero_of_le done, visited]

theorem visitedFrom_step {bound i : Nat} {lnode : AyLnode} (inside : i < bound)
    (found : ltree[i]? = some lnode) :
    visitedFrom ltree bound i =
      if isSnode lnode.tag then
        if ignoredAt ltree i then visitedFrom ltree bound (i + lnode.descendants + 1)
        else i :: visitedFrom ltree bound (i + 1)
      else visitedFrom ltree bound (i + 1) := by
  obtain ⟨fuel, isFuel⟩ : ∃ fuel, bound - i = fuel + 1 := ⟨bound - i - 1, by omega⟩
  have next := @visited_fuel ltree bound fuel (bound - (i + 1)) (i + 1) (by omega) (Nat.le_refl _)
  have behindIt := @visited_fuel ltree bound fuel (bound - (i + lnode.descendants + 1))
    (i + lnode.descendants + 1) (by omega) (Nat.le_refl _)
  rw [visitedFrom, isFuel, visited, if_pos inside, found]
  simp only [next, behindIt, visitedFrom, ignoredAt, found]

/-- The scan over some lenses finds what they are projected to. -/
theorem visitedFrom_placed {forest : Forest Lens} {start bound : Nat}
    (placed : Placed ltree start forest) (bounded : start + forest.size ≤ bound) :
    visitedFrom ltree bound start =
      (projected ltree start forest).labels ++ visitedFrom ltree bound (start + forest.size) := by
  induction forest generalizing start with
  | nil => rfl
  | cons lens kids rest kidsHypothesis restHypothesis =>
      rw [Forest.size] at bounded
      obtain ⟨parent, found⟩ := placed.lnode
      have below := kidsHypothesis placed.children (by omega)
      have behindIt := restHypothesis placed.siblings (by omega)
      have ends : start + kids.size + 1 + rest.size = start + (kids.size + rest.size + 1) := by omega
      rw [Nat.add_right_comm start 1] at below
      rw [ends] at behindIt
      rw [visitedFrom_step (by omega) found, Forest.size, projected]
      by_cases isYnode : isSnode lens.tag
      · rw [if_pos isYnode, if_pos isYnode]
        by_cases ignored : ignoredAt ltree start
        · rw [if_pos ignored, if_pos ignored, behindIt]
        · rw [if_neg ignored, if_neg ignored, below, behindIt, Forest.labels_cons]
          simp
      · rw [if_neg isYnode, if_neg isYnode, below, behindIt, Forest.labels_append]
        simp

/-- The descendants of a ynode are counted as they are projected. -/
theorem flat_projected {forest : Forest Lens} {start : Nat} (placed : Placed ltree start forest) :
    ((projected ltree start forest).map some).flat =
      (projected ltree start forest).labels.map (viewAt ltree) := by
  induction forest generalizing start with
  | nil => rfl
  | cons lens kids rest kidsHypothesis restHypothesis =>
      obtain ⟨parent, found⟩ := placed.lnode
      have below := kidsHypothesis placed.children
      have behindIt := restHypothesis placed.siblings
      rw [Forest.flat_map] at below behindIt
      rw [Forest.flat_map, projected]
      by_cases isYnode : isSnode lens.tag
      · rw [if_pos isYnode]
        by_cases ignored : ignoredAt ltree start
        · rw [if_pos ignored, behindIt]
        · have counted : viewAt ltree start =
              (some start, (projected ltree (start + 1) kids).size) := by
            have scanned := @visitedFrom_placed ltree kids (start + 1) (start + 1 + kids.size)
              placed.children (Nat.le_refl _)
            rw [visitedFrom_end (Nat.le_refl _), List.append_nil, visitedFrom,
              Nat.add_sub_cancel_left] at scanned
            simp only [viewAt, found, countDescendants_eq_length, Nat.add_zero, scanned,
              Forest.length_labels]
          rw [if_neg ignored, Forest.flat, Forest.labels_cons]
          simp only [List.map_cons, List.map_append, below, behindIt, counted]
      · rw [if_neg isYnode, Forest.flat_append, Forest.labels_append, List.map_append,
          List.map_append, below, behindIt]

end Scan

section Kept

variable {ltree : List AyLnode}

def snodeAt (ltree : List AyLnode) (index : Nat) : Bool :=
  (ltree[index]?.map fun lnode => isSnode lnode.tag).getD false

/-- Last lnode of the subtree at an index. -/
def lastBelow (ltree : List AyLnode) (index : Nat) : Nat :=
  index + (ltree[index]?.map AyLnode.descendants).getD 0

/-- The lnode is a subtree or recursive lens, and neither a comment subtree nor below one. -/
def kept (ltree : List AyLnode) (index : Nat) : Bool :=
  snodeAt ltree index && (List.range (index + 1)).all fun above =>
    !(ignoredAt ltree above && index ≤ lastBelow ltree above)

theorem snodeAt_of_ignoredAt {index : Nat} (ignored : ignoredAt ltree index) :
    snodeAt ltree index := by
  rw [ignoredAt] at ignored
  rw [snodeAt]
  cases found : ltree[index]? with
  | none => simp [found] at ignored
  | some lnode =>
      simp only [found, ayYnodeIsIgnored, Bool.and_eq_true, decide_eq_true_eq] at ignored
      simp [isSnode, ignored.1]

/-- Subtrees are nested. -/
theorem lastBelow_lt {forest : Forest Lens} {start index : Nat} (placed : Placed ltree start forest)
    (behindStart : start ≤ index) (inside : index < start + forest.size) :
    lastBelow ltree index < start + forest.size := by
  induction forest generalizing start with
  | nil =>
      rw [Forest.size] at inside
      omega
  | cons lens kids rest kidsHypothesis restHypothesis =>
      rw [Forest.size] at inside ⊢
      obtain ⟨parent, found⟩ := placed.lnode
      by_cases here : index = start
      · have lastHere : lastBelow ltree index = start + kids.size := by
          simp [here, lastBelow, found]
        omega
      · by_cases below : index < start + 1 + kids.size
        · have := kidsHypothesis placed.children (by omega) below
          omega
        · have := restHypothesis placed.siblings (by omega) (by omega)
          omega

theorem mem_labels_projected {forest : Forest Lens} {start index : Nat}
    (placed : Placed ltree start forest) :
    index ∈ (projected ltree start forest).labels ↔
      start ≤ index ∧ index < start + forest.size ∧ snodeAt ltree index ∧
        ∀ above, start ≤ above → above ≤ index → ignoredAt ltree above →
          lastBelow ltree above < index := by
  induction forest generalizing start with
  | nil =>
      simp only [projected, Forest.labels_nil, List.not_mem_nil, Forest.size, false_iff]
      omega
  | cons lens kids rest kidsHypothesis restHypothesis =>
      obtain ⟨parent, found⟩ := placed.lnode
      have snodeHere : snodeAt ltree start = isSnode lens.tag := by simp [snodeAt, found]
      have lastHere : lastBelow ltree start = start + kids.size := by simp [lastBelow, found]
      have inKids := kidsHypothesis placed.children
      have inRest := restHypothesis placed.siblings
      have nested := fun above => @lastBelow_lt ltree kids (start + 1) above placed.children
      -- the lnodes in front of the siblings end in front of them
      have siblingIff : start + kids.size + 1 ≤ index →
          ((∀ above, start + kids.size + 1 ≤ above → above ≤ index → ignoredAt ltree above →
            lastBelow ltree above < index) ↔
          ∀ above, start ≤ above → above ≤ index → ignoredAt ltree above →
            lastBelow ltree above < index) := by
        intro behindKids
        refine ⟨fun ends above behindStart ahead ignored => ?_, fun ends above behindIt =>
          ends above (by omega)⟩
        by_cases isStart : above = start
        · rw [isStart, lastHere]
          omega
        · by_cases isKid : above < start + 1 + kids.size
          · have := nested above (by omega) isKid
            omega
          · exact ends above (by omega) ahead ignored
      have childIff : ignoredAt ltree start = false →
          ((∀ above, start + 1 ≤ above → above ≤ index → ignoredAt ltree above →
            lastBelow ltree above < index) ↔
          ∀ above, start ≤ above → above ≤ index → ignoredAt ltree above →
            lastBelow ltree above < index) := by
        intro notIgnored
        refine ⟨fun ends above behindStart ahead ignored => ?_, fun ends above behindIt =>
          ends above (by omega)⟩
        by_cases isStart : above = start
        · simp [isStart, notIgnored] at ignored
        · exact ends above (by omega) ahead ignored
      rw [Forest.size]
      by_cases isYnode : isSnode lens.tag
      · by_cases ignored : ignoredAt ltree start
        · rw [projected, if_pos isYnode, if_pos ignored, inRest]
          constructor
          · rintro ⟨behindKids, inside, isSnode, ends⟩
            exact ⟨by omega, by omega, isSnode, (siblingIff behindKids).mp ends⟩
          · rintro ⟨behindStart, inside, isSnode, ends⟩
            have behindIgnored := ends start (Nat.le_refl _) behindStart ignored
            rw [lastHere] at behindIgnored
            exact ⟨by omega, by omega, isSnode, (siblingIff (by omega)).mpr ends⟩
        · rw [projected, if_pos isYnode, if_neg ignored, Forest.labels_cons, List.mem_cons,
            List.mem_append, inKids, inRest]
          rw [Bool.not_eq_true] at ignored
          rw [childIff ignored]
          constructor
          · rintro (rfl | ⟨behindStart, inside, isSnode, ends⟩ | ⟨behindKids, inside, isSnode, ends⟩)
            · refine ⟨Nat.le_refl _, by omega, by rw [snodeHere, isYnode], ?_⟩
              intro above behindStart ahead isIgnored
              obtain rfl : above = index := by omega
              simp [ignored] at isIgnored
            · exact ⟨by omega, by omega, isSnode, ends⟩
            · exact ⟨by omega, by omega, isSnode, (siblingIff behindKids).mp ends⟩
          · rintro ⟨behindStart, inside, isSnode, ends⟩
            by_cases isStart : index = start
            · exact .inl isStart
            · by_cases isKid : index < start + 1 + kids.size
              · exact .inr (.inl ⟨by omega, isKid, isSnode, ends⟩)
              · exact .inr (.inr ⟨by omega, by omega, isSnode, (siblingIff (by omega)).mpr ends⟩)
      · have notIgnored : ignoredAt ltree start = false := by
          rw [Bool.eq_false_iff]
          intro ignored
          exact isYnode (snodeHere ▸ snodeAt_of_ignoredAt ignored)
        rw [projected, if_neg isYnode, Forest.labels_append, List.mem_append, inKids, inRest,
          childIff notIgnored]
        constructor
        · rintro (⟨behindStart, inside, isSnode, ends⟩ | ⟨behindKids, inside, isSnode, ends⟩)
          · exact ⟨by omega, by omega, isSnode, ends⟩
          · exact ⟨by omega, by omega, isSnode, (siblingIff behindKids).mp ends⟩
        · rintro ⟨behindStart, inside, isSnode, ends⟩
          by_cases isStart : index = start
          · rw [isStart, snodeHere] at isSnode
            exact absurd isSnode isYnode
          · by_cases isKid : index < start + 1 + kids.size
            · exact .inl ⟨by omega, isKid, isSnode, ends⟩
            · exact .inr ⟨by omega, by omega, isSnode, (siblingIff (by omega)).mpr ends⟩

/-- The projection keeps the order of the lnodes. -/
theorem pairwise_labels_projected {forest : Forest Lens} {start : Nat}
    (placed : Placed ltree start forest) :
    (projected ltree start forest).labels.Pairwise (· < ·) := by
  induction forest generalizing start with
  | nil => exact List.Pairwise.nil
  | cons lens kids rest kidsHypothesis restHypothesis =>
      have below := kidsHypothesis placed.children
      have behindIt := restHypothesis placed.siblings
      have apart : ∀ first ∈ (projected ltree (start + 1) kids).labels,
          ∀ second ∈ (projected ltree (start + kids.size + 1) rest).labels, first < second := by
        intro first firstMember second secondMember
        obtain ⟨-, inKids, -⟩ := (mem_labels_projected placed.children).mp firstMember
        obtain ⟨inRest, -⟩ := (mem_labels_projected placed.siblings).mp secondMember
        rw [Nat.add_right_comm] at inKids
        exact Nat.lt_of_lt_of_le inKids inRest
      have appended := List.pairwise_append.mpr ⟨below, behindIt, apart⟩
      rw [projected]
      split
      · split
        · exact behindIt
        · rw [Forest.labels_cons]
          refine List.pairwise_cons.mpr ⟨fun index member => ?_, appended⟩
          rcases List.mem_append.mp member with inKids | inRest
          · exact ((mem_labels_projected placed.children).mp inKids).1
          · obtain ⟨behindKids, -⟩ := (mem_labels_projected placed.siblings).mp inRest
            exact Nat.lt_of_le_of_lt (Nat.le_add_right start kids.size) behindKids
      · rw [Forest.labels_append]
        exact appended

/-- The projection of the whole tree has the lnodes that are kept. -/
theorem labels_projected_eq_filter {forest : Forest Lens} (placed : Placed ltree 0 forest) :
    (projected ltree 0 forest).labels = (List.range forest.size).filter (kept ltree) := by
  have sorted := pairwise_labels_projected placed
  have rangeSorted : ((List.range forest.size).filter (kept ltree)).Pairwise (· < ·) :=
    List.Pairwise.filter _ List.pairwise_lt_range
  refine List.Perm.eq_of_pairwise (fun first second _ _ ahead behindIt =>
    absurd ahead (Nat.lt_asymm behindIt)) sorted rangeSorted ?_
  refine (List.perm_ext_iff_of_nodup (sorted.imp fun ahead => Nat.ne_of_lt ahead)
    (rangeSorted.imp fun ahead => Nat.ne_of_lt ahead)).mpr fun index => ?_
  rw [mem_labels_projected placed, List.mem_filter, List.mem_range, kept, Bool.and_eq_true,
    List.all_eq_true]
  simp only [Nat.zero_le, true_and, Nat.zero_add, List.mem_range, Nat.lt_succ_iff,
    Bool.not_eq_true', Bool.and_eq_false_iff, decide_eq_false_iff_not, Nat.not_le]
  refine and_congr_right fun _ => and_congr_right fun _ => forall_congr' fun above => ?_
  cases ignoredAt ltree above <;> simp

end Kept

end SysrepoAugeas.Ynode
