import Mathlib.Data.List.TakeWhile

/-!
# Keys that stand in one run

In a sequence of optional keys every key is consecutive when it does not occur
again behind its run.
-/

namespace SysrepoAugeas.Data

variable {Key : Type} [DecidableEq Key]

/-- No key occurs again behind the run it begins. -/
def Consecutive : List (Option Key) → Prop
  | [] => True
  | none :: rest => Consecutive rest
  | some key :: rest => some key ∉ rest.dropWhile (· == some key) ∧ Consecutive rest

instance decidableConsecutive : (keys : List (Option Key)) → Decidable (Consecutive keys)
  | [] => isTrue trivial
  | none :: rest => decidableConsecutive rest
  | some key :: rest =>
      have := decidableConsecutive rest
      inferInstanceAs (Decidable (some key ∉ rest.dropWhile (· == some key) ∧ Consecutive rest))

variable {keys front back : List (Option Key)} {first : Option Key} {key : Key}

theorem Consecutive.tail (consecutive : Consecutive (first :: keys)) : Consecutive keys := by
  cases first with
  | none => exact consecutive
  | some key => exact consecutive.2

theorem Consecutive.of_append (consecutive : Consecutive (front ++ back)) : Consecutive back := by
  induction front with
  | nil => exact consecutive
  | cons first rest inductionHypothesis => exact inductionHypothesis consecutive.tail

omit [DecidableEq Key] in
theorem mem_dropWhile_append {predicate : Option Key → Bool}
    (member : first ∈ front.dropWhile predicate) :
    first ∈ (front ++ back).dropWhile predicate := by
  rw [List.dropWhile_append]
  split
  · rename_i empty
    rw [List.isEmpty_iff] at empty
    rw [empty] at member
    cases member
  · exact List.mem_append_left _ member

theorem Consecutive.append_left (consecutive : Consecutive (front ++ back)) :
    Consecutive front := by
  induction front with
  | nil => trivial
  | cons first rest inductionHypothesis =>
      have ofRest := inductionHypothesis consecutive.tail
      cases first with
      | none => exact ofRest
      | some key => exact ⟨fun member => consecutive.1 (mem_dropWhile_append member), ofRest⟩

/-- A run and what is behind it. -/
theorem Consecutive.exists_run (consecutive : Consecutive (some key :: keys)) :
    ∃ count rest, keys = List.replicate count (some key) ++ rest ∧ some key ∉ rest := by
  refine ⟨(keys.takeWhile (· == some key)).length, keys.dropWhile (· == some key), ?_,
    consecutive.1⟩
  have same : keys.takeWhile (· == some key) =
      List.replicate (keys.takeWhile (· == some key)).length (some key) := by
    refine List.eq_replicate_iff.mpr ⟨rfl, fun other member => ?_⟩
    simpa using List.mem_takeWhile_imp member
  rw [← same, List.takeWhile_append_dropWhile]

section Repeat

/-- Every key as often as is said, and once more. -/
def repeated (keys : List (Option Key × Nat)) : List (Option Key) :=
  keys.flatMap fun entry => List.replicate (entry.2 + 1) entry.1

omit [DecidableEq Key] in
theorem repeated_cons (entry : Option Key × Nat) (entries : List (Option Key × Nat)) :
    repeated (entry :: entries) = List.replicate (entry.2 + 1) entry.1 ++ repeated entries := rfl

theorem dropWhile_replicate (count : Nat) (rest : List (Option Key)) :
    (List.replicate count first ++ rest).dropWhile (· == first) = rest.dropWhile (· == first) := by
  induction count with
  | zero => rfl
  | succ count inductionHypothesis =>
      rw [List.replicate_succ, List.cons_append, List.dropWhile_cons_of_pos (by simp),
        inductionHypothesis]

omit [DecidableEq Key] in
theorem mem_repeated (entries : List (Option Key × Nat)) :
    first ∈ repeated entries ↔ first ∈ entries.map Prod.fst := by
  induction entries with
  | nil => rfl
  | cons entry rest inductionHypothesis =>
      rw [repeated_cons, List.mem_append, inductionHypothesis, List.map_cons, List.mem_cons,
        List.mem_replicate]
      simp

theorem mem_dropWhile_repeated (entries : List (Option Key × Nat)) :
    first ∈ (repeated entries).dropWhile (· == first) ↔
      first ∈ (entries.map Prod.fst).dropWhile (· == first) := by
  induction entries with
  | nil => rfl
  | cons entry rest inductionHypothesis =>
      rw [repeated_cons, List.map_cons]
      by_cases same : entry.1 = first
      · rw [same, dropWhile_replicate, List.dropWhile_cons_of_pos (by simp), inductionHypothesis]
      · rw [List.replicate_succ, List.cons_append, List.dropWhile_cons_of_neg (by simpa using same),
          List.dropWhile_cons_of_neg (by simpa using same), ← List.cons_append,
          ← List.replicate_succ, ← repeated_cons, mem_repeated, List.map_cons]

theorem consecutive_replicate_append (count : Nat) (rest : List (Option Key)) :
    Consecutive (List.replicate (count + 1) first ++ rest) ↔ Consecutive (first :: rest) := by
  induction count with
  | zero => rfl
  | succ count inductionHypothesis =>
      rw [List.replicate_succ, List.cons_append]
      cases first with
      | none => exact inductionHypothesis
      | some key =>
          rw [Consecutive, dropWhile_replicate, inductionHypothesis, Consecutive]
          exact ⟨fun both => both.2, fun both => ⟨both.1, both⟩⟩

/-- Repeating keys in place does not matter. -/
theorem consecutive_repeated (entries : List (Option Key × Nat)) :
    Consecutive (repeated entries) ↔ Consecutive (entries.map Prod.fst) := by
  induction entries with
  | nil => rfl
  | cons entry rest inductionHypothesis =>
      rw [repeated_cons, consecutive_replicate_append, List.map_cons]
      cases entry.1 with
      | none => exact inductionHypothesis
      | some key => rw [Consecutive, Consecutive, inductionHypothesis, mem_dropWhile_repeated]

end Repeat

section Fill

theorem mem_dropWhile_concat {other : Option Key} (differs : other ≠ first)
    (keys : List (Option Key)) :
    first ∈ (keys ++ [other]).dropWhile (· == first) ↔ first ∈ keys.dropWhile (· == first) := by
  induction keys with
  | nil => simp [List.dropWhile_cons_of_neg, differs, Ne.symm differs]
  | cons head rest inductionHypothesis =>
      rw [List.cons_append]
      by_cases same : head = first
      · rw [List.dropWhile_cons_of_pos (by simpa using same),
          List.dropWhile_cons_of_pos (by simpa using same), inductionHypothesis]
      · rw [List.dropWhile_cons_of_neg (by simpa using same),
          List.dropWhile_cons_of_neg (by simpa using same)]
        simp [Ne.symm differs]

/-- For another key it does not matter what is put in. -/
theorem mem_dropWhile_fill {other : Key} (differs : other ≠ key) (front : List (Option Key)) :
    some other ∈ (front ++ some key :: back).dropWhile (· == some other) ↔
      some other ∈ (front ++ none :: back).dropWhile (· == some other) := by
  induction front with
  | nil =>
      rw [List.nil_append, List.nil_append, List.dropWhile_cons_of_neg (by simpa using Ne.symm differs),
        List.dropWhile_cons_of_neg (by simp)]
      simp [differs]
  | cons head rest inductionHypothesis =>
      rw [List.cons_append, List.cons_append]
      by_cases same : head = some other
      · rw [List.dropWhile_cons_of_pos (by simpa using same),
          List.dropWhile_cons_of_pos (by simpa using same), inductionHypothesis]
      · rw [List.dropWhile_cons_of_neg (by simpa using same),
          List.dropWhile_cons_of_neg (by simpa using same)]
        simp [differs]

/-- A key that is put in the place of none is consecutive exactly when its other occurrences
stand next to it. -/
theorem consecutive_fill_iff (consecutive : Consecutive (front ++ none :: back)) :
    Consecutive (front ++ some key :: back) ↔
      some key ∉ front.reverse.dropWhile (· == some key) ∧
        some key ∉ back.dropWhile (· == some key) := by
  induction front with
  | nil =>
      have ofBack : Consecutive back := consecutive
      rw [List.nil_append, Consecutive]
      exact ⟨fun both => ⟨by simp, both.1⟩, fun both => ⟨both.2, ofBack⟩⟩
  | cons first rest inductionHypothesis =>
      have ofRest := inductionHypothesis consecutive.tail
      rw [List.reverse_cons, List.cons_append]
      cases first with
      | none => rw [mem_dropWhile_concat (by simp), ← ofRest, Consecutive]
      | some other =>
          by_cases same : other = key
          · subst same
            by_cases all : ∀ element ∈ rest, element = some other
            · have dropped : (rest ++ some other :: back).dropWhile (· == some other) =
                  back.dropWhile (· == some other) := by
                rw [List.dropWhile_append_of_pos fun element member => by
                  simpa using all element member, List.dropWhile_cons_of_pos (by simp)]
              have nothing : (rest.reverse ++ [some other]).dropWhile (· == some other) = [] := by
                rw [List.dropWhile_eq_nil_iff]
                intro element member
                rcases List.mem_append.mp member with inRest | isLast
                · simpa using all element (List.mem_reverse.mp inRest)
                · simpa using isLast
              have nothingBehind : rest.reverse.dropWhile (· == some other) = [] := by
                rw [List.dropWhile_eq_nil_iff]
                intro element member
                simpa using all element (List.mem_reverse.mp member)
              rw [nothingBehind] at ofRest
              rw [Consecutive, dropped, nothing, ofRest]
              exact ⟨fun both => both.2, fun both => ⟨both.2, both⟩⟩
            · have stops : rest.dropWhile (· == some other) ≠ [] := by
                intro nothing
                refine all fun element member => ?_
                simpa using List.dropWhile_eq_nil_iff.mp nothing element member
              have stopsBack : rest.reverse.dropWhile (· == some other) ≠ [] := by
                intro nothing
                refine all fun element member => ?_
                simpa using List.dropWhile_eq_nil_iff.mp nothing element
                  (List.mem_reverse.mpr member)
              rw [Consecutive, List.dropWhile_append, if_neg (by simpa using stops),
                List.dropWhile_append, if_neg (by simpa using stopsBack)]
              simp
          · have fresh : some other ∉ (rest ++ none :: back).dropWhile (· == some other) :=
              consecutive.1
            rw [mem_dropWhile_concat (by simpa using same), ← ofRest, Consecutive,
              mem_dropWhile_fill same]
            exact ⟨fun both => both.2, fun ofIt => ⟨fresh, ofIt⟩⟩

end Fill

end SysrepoAugeas.Data
