import Mathlib.Algebra.Order.Ring.Nat
import Mathlib.Data.List.Basic

/-!
# Addressing a list element by its rank among the elements of one kind

A tree store that addresses a child as "the third `server`" counts only the
siblings with that label.  `nthPosition` turns such an address into a position
of the whole sequence; the lemmas say which element of a split list it selects.
-/

namespace SysrepoAugeas.Data

universe u

variable {Alpha : Type u}

/-- Position of the `rank`-th element (counted from one) that satisfies `kind`. -/
def nthPosition (kind : Alpha → Bool) : Nat → List Alpha → Option Nat
  | _, [] => none
  | rank, head :: rest =>
      if kind head then
        if rank = 1 then some 0 else (nthPosition kind (rank - 1) rest).map (· + 1)
      else
        (nthPosition kind rank rest).map (· + 1)

/-- The element in the middle of a split list has the rank of its kind that the
part in front of it leaves open. -/
theorem nthPosition_middle (kind : Alpha → Bool) (front : List Alpha)
    {element : Alpha} (selected : kind element = true) (back : List Alpha) :
    nthPosition kind (front.countP kind + 1) (front ++ element :: back) =
      some front.length := by
  induction front with
  | nil => simp [nthPosition, selected]
  | cons head rest inductionHypothesis =>
      by_cases headSelected : kind head = true
      · simp [nthPosition, headSelected, inductionHypothesis]
      · simp [nthPosition, headSelected, inductionHypothesis]

/-- Conversely, every position found splits the list at an element of the kind. -/
theorem nthPosition_eq_some {kind : Alpha → Bool} {rank position : Nat}
    {list : List Alpha} (found : nthPosition kind rank list = some position) :
    ∃ front element back, list = front ++ element :: back ∧
      front.length = position ∧ kind element = true ∧
      rank = front.countP kind + 1 := by
  induction list generalizing rank position with
  | nil => simp [nthPosition] at found
  | cons head rest inductionHypothesis =>
      by_cases headSelected : kind head = true
      · by_cases first : rank = 1
        · simp only [nthPosition, headSelected, first, if_true, Option.some.injEq] at found
          exact ⟨[], head, rest, by simp, by simpa using found, headSelected, by simp [first]⟩
        · simp only [nthPosition, headSelected, first, if_true, if_false,
            Option.map_eq_some_iff] at found
          obtain ⟨inner, innerFound, rfl⟩ := found
          obtain ⟨front, element, back, rfl, rfl, selected, rankEq⟩ :=
            inductionHypothesis innerFound
          refine ⟨head :: front, element, back, by simp, by simp, selected, ?_⟩
          simp only [List.countP_cons, headSelected, if_true]
          omega
      · simp only [nthPosition, headSelected, Bool.false_eq_true, if_false,
          Option.map_eq_some_iff] at found
        obtain ⟨inner, innerFound, rfl⟩ := found
        obtain ⟨front, element, back, rfl, rfl, selected, rankEq⟩ :=
          inductionHypothesis innerFound
        refine ⟨head :: front, element, back, by simp, by simp, selected, ?_⟩
        simp [headSelected, rankEq]

/-- Two consecutive ranks split the list at two elements of the kind with none of
the kind in between. -/
theorem nthPosition_consecutive {kind : Alpha → Bool} {rank lower upper : Nat}
    {list : List Alpha} (lowerFound : nthPosition kind rank list = some lower)
    (upperFound : nthPosition kind (rank + 1) list = some upper) :
    ∃ front first middle second back,
      list = front ++ first :: (middle ++ second :: back) ∧
      front.length = lower ∧ (front ++ first :: middle).length = upper ∧
      kind first = true ∧ kind second = true ∧ middle.countP kind = 0 ∧
      rank = front.countP kind + 1 := by
  obtain ⟨front, first, rest, rfl, rfl, firstSelected, rankEq⟩ := nthPosition_eq_some lowerFound
  obtain ⟨front', second, back, split, rfl, secondSelected, rankEq'⟩ :=
    nthPosition_eq_some upperFound
  rcases List.append_eq_append_iff.mp split with ⟨more, rfl, tail⟩ | ⟨more, rfl, tail⟩
  · cases more with
    | nil =>
        simp only [List.append_nil] at rankEq'
        omega
    | cons head middle =>
        simp only [List.cons_append, List.cons.injEq] at tail
        obtain ⟨rfl, rfl⟩ := tail
        refine ⟨front, first, middle, second, back, rfl, rfl, rfl, firstSelected,
          secondSelected, ?_, rankEq⟩
        simp only [List.countP_append, List.countP_cons, firstSelected, if_true] at rankEq'
        omega
  · simp only [List.countP_append] at rankEq
    omega

/-- All positions of elements that satisfy `kind`. -/
def positions (kind : Alpha → Bool) : List Alpha → List Nat
  | [] => []
  | head :: rest =>
      if kind head then 0 :: (positions kind rest).map (· + 1)
      else (positions kind rest).map (· + 1)

@[simp]
theorem positions_eq_nil (kind : Alpha → Bool) (list : List Alpha) :
    positions kind list = [] ↔ ∀ element ∈ list, kind element = false := by
  induction list with
  | nil => simp [positions]
  | cons head rest inductionHypothesis =>
      by_cases headSelected : kind head = true <;>
        simp [positions, headSelected, inductionHypothesis]

theorem positions_append (kind : Alpha → Bool) (front back : List Alpha) :
    positions kind (front ++ back) =
      positions kind front ++ (positions kind back).map (· + front.length) := by
  induction front with
  | nil => simp [positions]
  | cons head rest inductionHypothesis =>
      by_cases headSelected : kind head = true <;>
        simp [positions, headSelected, inductionHypothesis, Nat.add_assoc, Function.comp_def]

@[simp]
theorem length_positions (kind : Alpha → Bool) (list : List Alpha) :
    (positions kind list).length = list.countP kind := by
  induction list with
  | nil => simp [positions]
  | cons head rest inductionHypothesis =>
      by_cases headSelected : kind head = true <;>
        simp [positions, headSelected, inductionHypothesis]

theorem lt_length_of_mem_positions {kind : Alpha → Bool} {position : Nat} {list : List Alpha}
    (membership : position ∈ positions kind list) : position < list.length := by
  induction list generalizing position with
  | nil => simp [positions] at membership
  | cons head rest inductionHypothesis =>
      by_cases headSelected : kind head = true
      · simp only [positions, headSelected, if_true, List.mem_cons, List.mem_map] at membership
        rcases membership with rfl | ⟨inner, innerMem, rfl⟩
        · simp
        · simpa using inductionHypothesis innerMem
      · simp only [positions, headSelected, Bool.false_eq_true, if_false,
          List.mem_map] at membership
        obtain ⟨inner, innerMem, rfl⟩ := membership
        simpa using inductionHypothesis innerMem

/-- The only element of its kind is found at its own position. -/
theorem positions_middle_of_unique (kind : Alpha → Bool) (front : List Alpha)
    {element : Alpha} (selected : kind element = true) (back : List Alpha)
    (uniqueFront : ∀ other ∈ front, kind other = false)
    (uniqueBack : ∀ other ∈ back, kind other = false) :
    positions kind (front ++ element :: back) = [front.length] := by
  have noneFront := (positions_eq_nil kind front).mpr uniqueFront
  have noneBack := (positions_eq_nil kind back).mpr uniqueBack
  simp [positions_append, positions, selected, noneFront, noneBack]

section Split

/-! Positional edits at the split a rank selects. -/

variable (front : List Alpha) (element new : Alpha) (back : List Alpha)

theorem insertIdx_split : (front ++ back).insertIdx front.length new = front ++ new :: back := by
  induction front with
  | nil => simp
  | cons head rest inductionHypothesis => simp [inductionHypothesis]

theorem modify_split (change : Alpha → Alpha) :
    (front ++ element :: back).modify front.length change =
      front ++ change element :: back := by
  induction front with
  | nil => simp
  | cons head rest inductionHypothesis => simp [inductionHypothesis]

theorem eraseIdx_split : (front ++ element :: back).eraseIdx front.length = front ++ back := by
  induction front with
  | nil => simp
  | cons head rest inductionHypothesis => simp [inductionHypothesis]

end Split

end SysrepoAugeas.Data
