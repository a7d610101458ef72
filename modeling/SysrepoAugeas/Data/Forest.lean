import Mathlib.Algebra.Order.Ring.Nat
import Mathlib.Data.List.Basic

/-!
# Ordered forests and their preorder arrays

A forest is stored as the sequence of its nodes in preorder, each with the
number of its descendants.  A `Hole` is a place among siblings; filling it
splits the array in front of and behind the place, and only the ancestors of
the hole, which all stand in front, depend on how much is put there.
-/

namespace SysrepoAugeas.Data

universe u

/-- Finite sequence of ordered trees. -/
inductive Forest (Label : Type u) where
  | nil
  | cons (label : Label) (kids rest : Forest Label)
  deriving DecidableEq

namespace Forest

variable {Label : Type u}

def size : Forest Label → Nat
  | nil => 0
  | cons _ kids rest => kids.size + rest.size + 1

def append : Forest Label → Forest Label → Forest Label
  | nil, other => other
  | cons label kids rest, other => cons label kids (rest.append other)

/-- Labels in preorder with the number of descendants. -/
def flat : Forest Label → List (Label × Nat)
  | nil => []
  | cons label kids rest => (label, kids.size) :: (kids.flat ++ rest.flat)

/-- Position of a node's relatives in the array. -/
structure Links where
  parent : Option Nat
  next : Option Nat
  child : Option Nat
  deriving DecidableEq

/-- Links of all nodes when the array of the forest begins at `start`. -/
def links (start : Nat) (parent : Option Nat) : Forest Label → List Links
  | nil => []
  | cons _ kids rest =>
      ⟨parent, if rest.size = 0 then none else some (start + kids.size + 1),
          if kids.size = 0 then none else some (start + 1)⟩ ::
        (kids.links (start + 1) (some start) ++ rest.links (start + kids.size + 1) parent)

/-- Replace what stands from the node at a preorder index on, among its siblings. -/
def modifyAt (change : Label → Forest Label → Forest Label → Forest Label) :
    Nat → Forest Label → Forest Label
  | _, nil => nil
  | 0, cons label kids rest => change label kids rest
  | index + 1, cons label kids rest =>
      if index < kids.size then cons label (kids.modifyAt change index) rest
      else cons label kids (rest.modifyAt change (index - kids.size))

@[simp]
theorem size_append (forest other : Forest Label) :
    (forest.append other).size = forest.size + other.size := by
  induction forest with
  | nil => simp [append, size]
  | cons label kids rest _ inductionHypothesis =>
      simp only [append, size, inductionHypothesis]
      omega

@[simp]
theorem append_nil (forest : Forest Label) : forest.append nil = forest := by
  induction forest with
  | nil => rfl
  | cons label kids rest _ inductionHypothesis => simp [append, inductionHypothesis]

theorem append_assoc (forest other last : Forest Label) :
    (forest.append other).append last = forest.append (other.append last) := by
  induction forest with
  | nil => rfl
  | cons label kids rest _ inductionHypothesis => simp [append, inductionHypothesis]

theorem eq_nil_of_size {forest : Forest Label} (empty : forest.size = 0) : forest = nil := by
  cases forest with
  | nil => rfl
  | cons label kids rest => simp [size] at empty

@[simp]
theorem length_flat (forest : Forest Label) : forest.flat.length = forest.size := by
  induction forest with
  | nil => rfl
  | cons label kids rest kidsHypothesis restHypothesis =>
      simp [flat, size, kidsHypothesis, restHypothesis]

@[simp]
theorem length_links (start : Nat) (parent : Option Nat) (forest : Forest Label) :
    (forest.links start parent).length = forest.size := by
  induction forest generalizing start parent with
  | nil => rfl
  | cons label kids rest kidsHypothesis restHypothesis =>
      simp [links, size, kidsHypothesis, restHypothesis]

@[simp]
theorem flat_append (forest other : Forest Label) :
    (forest.append other).flat = forest.flat ++ other.flat := by
  induction forest with
  | nil => rfl
  | cons label kids rest _ inductionHypothesis => simp [append, flat, inductionHypothesis]

/-- Every subtree ends inside the array. -/
theorem add_lt_size_of_flat {forest : Forest Label} {index descendants : Nat} {label : Label}
    (found : forest.flat[index]? = some (label, descendants)) :
    index + descendants < forest.size := by
  induction forest generalizing index with
  | nil => simp [flat] at found
  | cons top kids rest kidsHypothesis restHypothesis =>
      cases index with
      | zero =>
          simp only [flat, List.getElem?_cons_zero, Option.some.injEq, Prod.mk.injEq] at found
          simp only [size]
          omega
      | succ index =>
          simp only [flat, List.getElem?_cons_succ] at found
          rw [size]
          by_cases inKids : index < kids.size
          · rw [List.getElem?_append_left (by simpa using inKids)] at found
            have := kidsHypothesis found
            omega
          · rw [List.getElem?_append_right (by simpa using inKids), length_flat] at found
            have := restHypothesis found
            omega

/-- Place in a forest where trees can be put. -/
inductive Hole (Label : Type u) where
  | top
  /-- Right behind a node, among its siblings. -/
  | behind (label : Label) (kids : Forest Label) (outer : Hole Label)
  /-- First below a node, which is followed by other siblings. -/
  | under (label : Label) (rest : Forest Label) (outer : Hole Label)

namespace Hole

def fill : Hole Label → Forest Label → Forest Label
  | top, filling => filling
  | behind label kids outer, filling => outer.fill (cons label kids filling)
  | under label rest outer, filling => outer.fill (cons label filling rest)

/-- Array index where the filling begins. -/
def index : Hole Label → Nat
  | top => 0
  | behind _ kids outer => outer.index + kids.size + 1
  | under _ _ outer => outer.index + 1

/-- Indices of the nodes that the hole lies below. -/
def ancestors : Hole Label → List Nat
  | top => []
  | behind _ _ outer => outer.ancestors
  | under _ _ outer => outer.index :: outer.ancestors

def parent : Hole Label → Option Nat
  | top => none
  | behind _ _ outer => outer.parent
  | under _ _ outer => some outer.index

/-- Cells in front of a filling with `count` nodes. -/
def front : Hole Label → Nat → List (Label × Nat)
  | top, _ => []
  | behind label kids outer, count =>
      outer.front (kids.size + count + 1) ++ (label, kids.size) :: kids.flat
  | under label rest outer, count => outer.front (count + rest.size + 1) ++ [(label, count)]

/-- Cells behind the filling. -/
def back : Hole Label → List (Label × Nat)
  | top => []
  | behind _ _ outer => outer.back
  | under _ rest outer => rest.flat ++ outer.back

theorem flat_fill (hole : Hole Label) (filling : Forest Label) :
    (hole.fill filling).flat = hole.front filling.size ++ (filling.flat ++ hole.back) := by
  induction hole generalizing filling with
  | top => simp [fill, front, back]
  | behind label kids outer inductionHypothesis =>
      simp [fill, front, back, inductionHypothesis, flat, size]
  | under label rest outer inductionHypothesis =>
      simp [fill, front, back, inductionHypothesis, flat, size]

@[simp]
theorem length_front (hole : Hole Label) (count : Nat) : (hole.front count).length = hole.index := by
  induction hole generalizing count with
  | top => rfl
  | behind label kids outer inductionHypothesis =>
      simp only [front, index, List.length_append, inductionHypothesis, List.length_cons,
        length_flat]
      omega
  | under label rest outer inductionHypothesis => simp [front, index, inductionHypothesis]

theorem size_fill (hole : Hole Label) (filling : Forest Label) :
    (hole.fill filling).size = hole.index + filling.size + hole.back.length := by
  rw [← length_flat, flat_fill]
  simp only [List.length_append, length_front, length_flat]
  omega

/-- Every index of the array is that of a node in some hole. -/
theorem exists_of_lt_size {forest : Forest Label} {position : Nat}
    (bound : position < forest.size) :
    ∃ hole label kids rest, forest = fill hole (cons label kids rest) ∧
      hole.index = position := by
  -- the outer hole collects what has been passed on the way down
  have general : ∀ (outer : Hole Label) (position : Nat), position < forest.size →
      ∃ hole label kids rest, outer.fill forest = fill hole (cons label kids rest) ∧
        hole.index = outer.index + position := by
    clear bound
    induction forest with
    | nil =>
        intro outer position bound
        simp [size] at bound
    | cons label kids rest kidsHypothesis restHypothesis =>
        intro outer position bound
        rw [size] at bound
        cases position with
        | zero => exact ⟨outer, label, kids, rest, rfl, rfl⟩
        | succ position =>
            by_cases inKids : position < kids.size
            · obtain ⟨hole, label', kids', rest', filled, indexEq⟩ :=
                kidsHypothesis (under label rest outer) position inKids
              refine ⟨hole, label', kids', rest', filled, ?_⟩
              rw [indexEq, index]
              omega
            · obtain ⟨hole, label', kids', rest', filled, indexEq⟩ :=
                restHypothesis (behind label kids outer) (position - kids.size) (by omega)
              refine ⟨hole, label', kids', rest', filled, ?_⟩
              rw [indexEq, index]
              omega
  simpa [fill, index] using general top position bound

/-- The place behind some trees put into a hole. -/
def past : Forest Label → Hole Label → Hole Label
  | nil, hole => hole
  | cons label kids rest, hole => past rest (behind label kids hole)

theorem fill_past (trees : Forest Label) (hole : Hole Label) (filling : Forest Label) :
    (hole.past trees).fill filling = hole.fill (trees.append filling) := by
  induction trees generalizing hole with
  | nil => rfl
  | cons label kids rest _ inductionHypothesis => rw [past, inductionHypothesis, fill, append]

@[simp]
theorem index_past (trees : Forest Label) (hole : Hole Label) :
    (hole.past trees).index = hole.index + trees.size := by
  induction trees generalizing hole with
  | nil => rfl
  | cons label kids rest _ inductionHypothesis =>
      rw [past, inductionHypothesis, index, size]
      omega

@[simp]
theorem parent_past (trees : Forest Label) (hole : Hole Label) :
    (hole.past trees).parent = hole.parent := by
  induction trees generalizing hole with
  | nil => rfl
  | cons label kids rest _ inductionHypothesis => rw [past, inductionHypothesis, parent]

@[simp]
theorem ancestors_past (trees : Forest Label) (hole : Hole Label) :
    (hole.past trees).ancestors = hole.ancestors := by
  induction trees generalizing hole with
  | nil => rfl
  | cons label kids rest _ inductionHypothesis => rw [past, inductionHypothesis, ancestors]

theorem modifyAt_fill_add (change : Label → Forest Label → Forest Label → Forest Label)
    (hole : Hole Label) {filling : Forest Label} {position : Nat}
    (bound : position < filling.size) :
    (hole.fill filling).modifyAt change (hole.index + position) =
      hole.fill (filling.modifyAt change position) := by
  induction hole generalizing filling position with
  | top => simp [fill, index]
  | behind label kids outer inductionHypothesis =>
      have inner : outer.index + kids.size + 1 + position =
          outer.index + (kids.size + position + 1) := by omega
      have outside : ¬ kids.size + position < kids.size := by omega
      rw [fill, index, inner, inductionHypothesis (by simp only [size]; omega), modifyAt,
        if_neg outside, fill]
      simp
  | under label rest outer inductionHypothesis =>
      have inner : outer.index + 1 + position = outer.index + (position + 1) := by omega
      rw [fill, index, inner, inductionHypothesis (by simp only [size]; omega), modifyAt,
        if_pos bound, fill]

/-- Changing the forest at the index of a hole changes the filling. -/
theorem modifyAt_fill (change : Label → Forest Label → Forest Label → Forest Label)
    (hole : Hole Label) (label : Label) (kids rest : Forest Label) :
    (hole.fill (cons label kids rest)).modifyAt change hole.index =
      hole.fill (change label kids rest) := by
  have changed := @modifyAt_fill_add _ change hole (cons label kids rest) 0 (by simp [size])
  simpa [modifyAt] using changed

theorem links_fill (hole : Hole Label) (filling : Forest Label) :
    ∃ before after : List Links, before.length = hole.index ∧
      (hole.fill filling).links 0 none =
        before ++ (filling.links hole.index hole.parent ++ after) := by
  induction hole generalizing filling with
  | top => exact ⟨[], [], rfl, by simp [fill, index, parent]⟩
  | behind label kids outer inductionHypothesis =>
      obtain ⟨before, after, length, split⟩ := inductionHypothesis (cons label kids filling)
      simp only [links] at split
      refine ⟨before ++ ⟨outer.parent,
          if filling.size = 0 then none else some (outer.index + kids.size + 1),
          if kids.size = 0 then none else some (outer.index + 1)⟩ ::
            kids.links (outer.index + 1) (some outer.index), after, ?_, ?_⟩
      · simp only [List.length_append, length, List.length_cons, length_links, index]
        omega
      · simp [fill, split, index, parent]
  | under label rest outer inductionHypothesis =>
      obtain ⟨before, after, length, split⟩ := inductionHypothesis (cons label filling rest)
      simp only [links] at split
      refine ⟨before ++ [⟨outer.parent,
          if rest.size = 0 then none else some (outer.index + filling.size + 1),
          if filling.size = 0 then none else some (outer.index + 1)⟩],
        rest.links (outer.index + filling.size + 1) outer.parent ++ after, ?_, ?_⟩
      · simp [length, index]
      · simp [fill, split, index, parent]

/-- Links depend on the shape of the filling only. -/
theorem links_fill_congr (hole : Hole Label) {filling other : Forest Label}
    (sizes : filling.size = other.size)
    (same : ∀ start parent, filling.links start parent = other.links start parent)
    (start : Nat) (parent : Option Nat) :
    (hole.fill filling).links start parent = (hole.fill other).links start parent := by
  induction hole generalizing filling other with
  | top => exact same start parent
  | behind label kids outer inductionHypothesis =>
      refine inductionHypothesis (by simp [size, sizes]) fun start parent => ?_
      simp only [links, sizes, same]
  | under label rest outer inductionHypothesis =>
      refine inductionHypothesis (by simp [size, sizes]) fun start parent => ?_
      simp only [links, sizes, same]

/-- Links of the node in a hole. -/
theorem getElem_links_fill (hole : Hole Label) (label : Label) (kids rest : Forest Label) :
    ((hole.fill (cons label kids rest)).links 0 none)[hole.index]? =
      some ⟨hole.parent, if rest.size = 0 then none else some (hole.index + kids.size + 1),
        if kids.size = 0 then none else some (hole.index + 1)⟩ := by
  obtain ⟨before, after, length, split⟩ := links_fill hole (cons label kids rest)
  rw [split, ← length, List.getElem?_append_right (Nat.le_refl _)]
  simp [links, length]

theorem getElem_flat_fill (hole : Hole Label) (label : Label) (kids rest : Forest Label) :
    ((hole.fill (cons label kids rest)).flat)[hole.index]? = some (label, kids.size) := by
  rw [flat_fill, ← length_front hole (cons label kids rest).size,
    List.getElem?_append_right (Nat.le_refl _)]
  simp [flat]

theorem lt_index_of_mem_ancestors {hole : Hole Label} {ancestor : Nat}
    (membership : ancestor ∈ hole.ancestors) : ancestor < hole.index := by
  induction hole with
  | top => simp [ancestors] at membership
  | behind label kids outer inductionHypothesis =>
      have := inductionHypothesis membership
      rw [index]
      omega
  | under label rest outer inductionHypothesis =>
      rw [index]
      rcases List.mem_cons.mp membership with rfl | above
      · omega
      · have := inductionHypothesis above
        omega

/-- A node in front of a hole either is an ancestor, and its subtree reaches past the
whole filling, or its subtree ends before the hole. -/
theorem front_cases (hole : Hole Label) (filling : Forest Label) {position descendants : Nat}
    {label : Label} (found : (hole.fill filling).flat[position]? = some (label, descendants))
    (inFront : position < hole.index) :
    (position ∈ hole.ancestors ∧ hole.index + filling.size ≤ position + descendants + 1) ∨
      (position ∉ hole.ancestors ∧ position + descendants < hole.index) := by
  induction hole generalizing filling with
  | top => simp [index] at inFront
  | behind top kids outer inductionHypothesis =>
      rw [index] at inFront ⊢
      rw [ancestors]
      rcases Nat.lt_trichotomy position outer.index with further | rfl | inside
      · rcases inductionHypothesis (cons top kids filling) found further with
          ⟨above, reaches⟩ | ⟨notAbove, ends⟩
        · rw [size] at reaches
          exact .inl ⟨above, by omega⟩
        · exact .inr ⟨notAbove, by omega⟩
      · rw [fill, getElem_flat_fill, Option.some.injEq, Prod.mk.injEq] at found
        have notAbove : outer.index ∉ outer.ancestors := fun membership =>
          Nat.lt_irrefl _ (lt_index_of_mem_ancestors membership)
        exact .inr ⟨notAbove, by omega⟩
      · have notAbove : position ∉ outer.ancestors := fun membership => by
          have := lt_index_of_mem_ancestors membership
          omega
        refine .inr ⟨notAbove, ?_⟩
        obtain ⟨offset, rfl⟩ := Nat.exists_eq_add_of_lt inside
        have inKids : kids.flat[offset]? = some (label, descendants) := by
          rw [fill, flat_fill, List.getElem?_append_right (by simp; omega), length_front] at found
          have shifted : outer.index + offset + 1 - outer.index = offset + 1 := by omega
          simp only [shifted, flat, List.cons_append, List.getElem?_cons_succ,
            List.append_assoc] at found
          rwa [List.getElem?_append_left (by simp; omega)] at found
        have := add_lt_size_of_flat inKids
        omega
  | under top rest outer inductionHypothesis =>
      rw [index] at inFront ⊢
      rw [ancestors]
      rcases Nat.lt_or_ge position outer.index with further | here
      · have different : position ≠ outer.index := by omega
        simp only [List.mem_cons, different, false_or]
        rcases inductionHypothesis (cons top filling rest) found further with
          ⟨above, reaches⟩ | ⟨notAbove, ends⟩
        · rw [size] at reaches
          exact .inl ⟨above, by omega⟩
        · exact .inr ⟨notAbove, by omega⟩
      · obtain rfl : position = outer.index := by omega
        rw [fill, getElem_flat_fill, Option.some.injEq, Prod.mk.injEq] at found
        exact .inl ⟨by simp, by omega⟩

end Hole

/-- Change the number of descendants at the chosen positions. -/
def raise (change : Nat → Nat) (chosen : List Nat) (cells : List (Label × Nat)) :
    List (Label × Nat) :=
  cells.mapIdx fun position cell => if position ∈ chosen then (cell.1, change cell.2) else cell

theorem mapIdx_eq_self {Alpha : Type u} {change : Nat → Alpha → Alpha} {list : List Alpha}
    (same : ∀ position < list.length, ∀ element, change position element = element) :
    list.mapIdx change = list := by
  refine List.ext_getElem (by simp) fun position bound _ => ?_
  rw [List.getElem_mapIdx]
  exact same position (by simpa using bound) _

/-- Positions chosen in front leave the rest alone. -/
theorem raise_append_of_lt {change : Nat → Nat} {chosen : List Nat} {cells rest : List (Label × Nat)}
    (inFront : ∀ position ∈ chosen, position < cells.length) :
    raise change chosen (cells ++ rest) = raise change chosen cells ++ rest := by
  rw [raise, List.mapIdx_append, ← raise]
  congr 1
  refine mapIdx_eq_self fun position _ cell => if_neg fun membership => ?_
  have := inFront _ membership
  omega

theorem raise_concat {change : Nat → Nat} {chosen : List Nat} {cells : List (Label × Nat)}
    {label : Label} {descendants : Nat} :
    raise change (cells.length :: chosen) (cells ++ [(label, descendants)]) =
      raise change chosen cells ++ [(label, change descendants)] := by
  rw [raise, List.mapIdx_append]
  congr 1
  · refine List.mapIdx_eq_mapIdx_iff.mpr fun position bound => ?_
    have different : position ≠ cells.length := by omega
    simp [different]
  · simp

/-- Changing the ancestors of a hole accounts for a filling of another size. -/
theorem Hole.raise_front {change : Nat → Nat} {count newCount : Nat}
    (law : ∀ more, change (count + more) = newCount + more) (hole : Hole Label)
    (rest : List (Label × Nat)) :
    raise change hole.ancestors (hole.front count ++ rest) = hole.front newCount ++ rest := by
  have inFront : ∀ position ∈ hole.ancestors, position < (hole.front count).length := by
    intro position membership
    simpa using hole.lt_index_of_mem_ancestors membership
  rw [raise_append_of_lt inFront]
  congr 1
  clear inFront rest
  induction hole generalizing count newCount with
  | top => rfl
  | behind label kids outer inductionHypothesis =>
      have outerFront : ∀ position ∈ outer.ancestors,
          position < (outer.front (kids.size + count + 1)).length := by
        intro position membership
        simpa using lt_index_of_mem_ancestors membership
      rw [front, front, ancestors, raise_append_of_lt outerFront,
        @inductionHypothesis _ (kids.size + newCount + 1) fun more => ?_]
      have := law (kids.size + 1 + more)
      rw [show kids.size + count + 1 + more = count + (kids.size + 1 + more) by omega, this]
      omega
  | under label rest outer inductionHypothesis =>
      have here := law 0
      simp only [Nat.add_zero] at here
      rw [front, front, ancestors, ← length_front outer (count + rest.size + 1),
        raise_concat, here,
        @inductionHypothesis _ (newCount + rest.size + 1) fun more => ?_]
      have := law (rest.size + 1 + more)
      rw [show count + rest.size + 1 + more = count + (rest.size + 1 + more) by omega, this]
      omega

section Map

universe v

variable {Other : Type v}

/-- The forest with other labels. -/
def map (relabel : Label → Other) : Forest Label → Forest Other
  | nil => nil
  | cons label kids rest => cons (relabel label) (kids.map relabel) (rest.map relabel)

@[simp]
theorem size_map (relabel : Label → Other) (forest : Forest Label) :
    (forest.map relabel).size = forest.size := by
  induction forest with
  | nil => rfl
  | cons label kids rest kidsHypothesis restHypothesis =>
      simp [map, size, kidsHypothesis, restHypothesis]

theorem flat_map (relabel : Label → Other) (forest : Forest Label) :
    (forest.map relabel).flat = forest.flat.map fun cell => (relabel cell.1, cell.2) := by
  induction forest with
  | nil => rfl
  | cons label kids rest kidsHypothesis restHypothesis =>
      simp [map, flat, kidsHypothesis, restHypothesis]

/-- The topmost labels. -/
def roots : Forest Label → List Label
  | nil => []
  | cons label _ rest => label :: rest.roots

@[simp]
theorem roots_append (forest other : Forest Label) :
    (forest.append other).roots = forest.roots ++ other.roots := by
  induction forest with
  | nil => rfl
  | cons label kids rest _ inductionHypothesis => simp [append, roots, inductionHypothesis]

/-- The cells determine the forest. -/
theorem flat_injective {forest other : Forest Label} (same : forest.flat = other.flat) :
    forest = other := by
  induction forest generalizing other with
  | nil =>
      cases other with
      | nil => rfl
      | cons _ _ _ => cases same
  | cons label kids rest ofKids ofRest =>
      cases other with
      | nil => cases same
      | cons otherLabel otherKids otherRest =>
          simp only [flat, List.cons.injEq, Prod.mk.injEq] at same
          obtain ⟨⟨sameLabel, sameSize⟩, sameCells⟩ := same
          obtain ⟨kidCells, restCells⟩ := List.append_inj sameCells (by simp [sameSize])
          rw [sameLabel, ofKids kidCells, ofRest restCells]

theorem Hole.fill_injective (hole : Hole Label) {filling other : Forest Label}
    (same : hole.fill filling = hole.fill other) : filling = other := by
  induction hole generalizing filling other with
  | top => exact same
  | behind label kids outer inductionHypothesis => exact (cons.inj (inductionHypothesis same)).2.2
  | under label rest outer inductionHypothesis => exact (cons.inj (inductionHypothesis same)).2.1

/-! The first trees and those behind them, by a property of their roots or by number. -/

def takeRoots (isMember : Label → Bool) : Forest Label → Forest Label
  | nil => nil
  | cons label kids rest =>
      if isMember label then cons label kids (rest.takeRoots isMember) else nil

def dropRoots (isMember : Label → Bool) : Forest Label → Forest Label
  | nil => nil
  | cons label kids rest =>
      if isMember label then rest.dropRoots isMember else cons label kids rest

def takeTrees : Nat → Forest Label → Forest Label
  | 0, _ | _, nil => nil
  | count + 1, cons label kids rest => cons label kids (rest.takeTrees count)

def dropTrees : Nat → Forest Label → Forest Label
  | 0, forest => forest
  | _, nil => nil
  | count + 1, cons _ _ rest => rest.dropTrees count

theorem takeTrees_zero (forest : Forest Label) : forest.takeTrees 0 = nil := by
  cases forest <;> rfl

theorem dropTrees_zero (forest : Forest Label) : forest.dropTrees 0 = forest := by
  cases forest <;> rfl

/-- As many trees as have the property, and one more. -/
theorem takeTrees_takeRoots (isMember : Label → Bool) (forest : Forest Label) :
    forest.takeTrees ((forest.roots.takeWhile isMember).length + 1) =
      (forest.takeRoots isMember).append ((forest.dropRoots isMember).takeTrees 1) := by
  induction forest with
  | nil => rfl
  | cons label kids rest _ inductionHypothesis =>
      rw [roots, List.takeWhile_cons, takeRoots, dropRoots]
      cases isMember label with
      | true => simp [takeTrees, append, inductionHypothesis]
      | false => simp [takeTrees, append]

theorem dropTrees_dropRoots (isMember : Label → Bool) (forest : Forest Label) :
    forest.dropTrees ((forest.roots.takeWhile isMember).length + 1) =
      (forest.dropRoots isMember).dropTrees 1 := by
  induction forest with
  | nil => rfl
  | cons label kids rest _ inductionHypothesis =>
      rw [roots, List.takeWhile_cons, dropRoots]
      cases isMember label with
      | true => simp [dropTrees, inductionHypothesis]
      | false => simp [dropTrees]

/-- Nothing is left exactly when every root has the property. -/
theorem dropRoots_eq_nil {isMember : Label → Bool} {forest : Forest Label} :
    forest.dropRoots isMember = nil ↔ ∀ label ∈ forest.roots, isMember label = true := by
  induction forest with
  | nil => simp [dropRoots, roots]
  | cons label kids rest _ inductionHypothesis =>
      rw [dropRoots, roots, List.forall_mem_cons]
      split
      · rename_i member
        rw [inductionHypothesis]
        exact ⟨fun others => ⟨member, others⟩, And.right⟩
      · rename_i notMember
        exact ⟨fun same => absurd same (by simp), fun all => absurd all.1 notMember⟩

/-- What stands below the topmost labels. -/
def rootKids : Forest Label → List (Forest Label)
  | nil => []
  | cons _ kids rest => kids :: rest.rootKids

theorem rootKids_append (forest other : Forest Label) :
    (forest.append other).rootKids = forest.rootKids ++ other.rootKids := by
  induction forest with
  | nil => rfl
  | cons label kids rest _ inductionHypothesis => simp [append, rootKids, inductionHypothesis]

theorem size_lt_of_mem_rootKids {forest kids : Forest Label} (member : kids ∈ forest.rootKids) :
    kids.size < forest.size := by
  induction forest with
  | nil => cases member
  | cons label first rest _ inductionHypothesis =>
      rw [size]
      rcases List.mem_cons.mp member with rfl | inRest
      · omega
      · have := inductionHypothesis inRest
        omega

/-- What stands below each node. -/
def childLists : Forest Label → List (Forest Label)
  | nil => []
  | cons _ kids rest => kids :: (kids.childLists ++ rest.childLists)

theorem childLists_append (forest other : Forest Label) :
    (forest.append other).childLists = forest.childLists ++ other.childLists := by
  induction forest with
  | nil => rfl
  | cons label kids rest _ inductionHypothesis => simp [append, childLists, inductionHypothesis]

@[simp]
theorem roots_map (relabel : Label → Other) (forest : Forest Label) :
    (forest.map relabel).roots = forest.roots.map relabel := by
  induction forest with
  | nil => rfl
  | cons label kids rest _ inductionHypothesis => simp [map, roots, inductionHypothesis]

theorem links_map (relabel : Label → Other) (forest : Forest Label) (start : Nat)
    (parent : Option Nat) : (forest.map relabel).links start parent = forest.links start parent := by
  induction forest generalizing start parent with
  | nil => rfl
  | cons label kids rest kidsHypothesis restHypothesis =>
      simp [map, links, kidsHypothesis, restHypothesis]

/-- Cells that are those of a forest in one view are the cells of a forest. -/
theorem exists_flat_of_map {view : Label → Other} (shape : Forest Other)
    (cells : List (Label × Nat))
    (viewed : cells.map (fun cell => (view cell.1, cell.2)) = shape.flat) :
    ∃ forest : Forest Label, cells = forest.flat ∧ forest.map view = shape := by
  induction shape generalizing cells with
  | nil =>
      obtain rfl : cells = [] := by simpa [flat] using viewed
      exact ⟨nil, rfl, rfl⟩
  | cons other kids rest kidsHypothesis restHypothesis =>
      rw [flat, List.map_eq_cons_iff] at viewed
      obtain ⟨⟨label, count⟩, tail, rfl, viewedCell, viewedTail⟩ := viewed
      obtain ⟨kidCells, restCells, rfl, viewedKids, viewedRest⟩ :=
        List.map_eq_append_iff.mp viewedTail
      obtain ⟨kidForest, rfl, rfl⟩ := kidsHypothesis kidCells viewedKids
      obtain ⟨restForest, rfl, rfl⟩ := restHypothesis restCells viewedRest
      obtain ⟨rfl, rfl⟩ := Prod.mk.inj viewedCell
      exact ⟨cons label kidForest restForest, by simp [flat], rfl⟩

end Map

end Forest

end SysrepoAugeas.Data
