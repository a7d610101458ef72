import Mathlib.Data.List.Basic
import Mathlib.Data.List.Count
import Mathlib.Data.List.Induction
import Mathlib.Data.List.Nodup
import Mathlib.Data.List.TakeWhile

/-!
# Names with numbers

A name that occurs again in a list gets a number behind it: two for the second
occurrence, three for the next one.  The numbers make all names different when
two names that agree up to their first digit have no digits.
-/

namespace SysrepoAugeas.Data.Numbering

abbrev Name := List Char

/-- The name of its occurrence behind a number of others. -/
def numbered (name : Name) (others : Nat) : Name :=
  if others = 0 then name else name ++ Nat.toDigits 10 (others + 1)

/-- What is in front of the first digit. -/
def stem (name : Name) : Name := name.takeWhile fun char => !char.isDigit

/-- Every name with the number of its occurrence; `seen` is in front of the list. -/
def numberFrom (seen : List Name) : List Name → List Name
  | [] => []
  | name :: rest => numbered name (seen.count name) :: numberFrom (seen ++ [name]) rest

/-- Names with one stem are the same name without digits. -/
def Separate (names : List Name) : Prop :=
  names.Pairwise fun first second => stem first = stem second → first = second ∧ stem first = first

instance (names : List Name) : Decidable (Separate names) :=
  inferInstanceAs (Decidable (names.Pairwise fun first second =>
    stem first = stem second → first = second ∧ stem first = first))

section Stems

variable {name other : Name} {count others : Nat}

theorem stem_append_of_clean {digits : Name} (clean : stem name = name)
    (areDigits : ∀ char ∈ digits, char.isDigit = true) : stem (name ++ digits) = name := by
  have noDigits : ∀ char ∈ name, (!char.isDigit) = true := List.takeWhile_eq_self_iff.mp clean
  rw [stem, List.takeWhile_append_of_pos noDigits]
  cases digits with
  | nil => simp
  | cons digit rest =>
      have isDigit := areDigits digit List.mem_cons_self
      rw [List.takeWhile_cons, isDigit]
      simp

theorem isDigit_of_mem_number {number : Nat} : ∀ char ∈ Nat.toDigits 10 number,
    char.isDigit = true :=
  fun _ member => Nat.isDigit_of_mem_toDigits (by decide) (by decide) member

/-- A number does not change the stem. -/
theorem stem_numbered (name : Name) (others : Nat) : stem (numbered name others) = stem name := by
  rw [numbered]
  split
  · rfl
  · by_cases clean : stem name = name
    · rw [stem_append_of_clean clean isDigit_of_mem_number, clean]
    · rw [stem, stem, List.takeWhile_append, if_neg]
      intro sameLength
      apply clean
      exact (List.takeWhile_prefix _).eq_of_length sameLength

theorem numbered_injective (same : numbered name count = numbered name others) :
    count = others := by
  have notEmpty (number : Nat) : Nat.toDigits 10 number ≠ [] := Nat.toDigits_ne_nil
  rw [numbered, numbered] at same
  split at same
  · split at same
    · omega
    · exact absurd (List.self_eq_append_right.mp same) (notEmpty _)
  · split at same
    · exact absurd (List.append_right_eq_self.mp same) (notEmpty _)
    · have numbers := congrArg (fun digits => Nat.ofDigitChars 10 digits 0)
        (List.append_cancel_left same)
      simp only [Nat.ofDigitChars_ten_toDigits] at numbers
      omega

end Stems

section Lists

variable {names front back : List Name} {name : Name}

theorem numberFrom_append (seen front back : List Name) :
    numberFrom seen (front ++ back) = numberFrom seen front ++ numberFrom (seen ++ front) back := by
  induction front generalizing seen with
  | nil => simp [numberFrom]
  | cons name rest inductionHypothesis =>
      rw [List.cons_append, numberFrom, numberFrom, inductionHypothesis]
      simp

/-- The last name is numbered by its occurrences in front. -/
theorem numberFrom_concat (names : List Name) (name : Name) :
    numberFrom [] (names ++ [name]) = numberFrom [] names ++ [numbered name (names.count name)] := by
  rw [numberFrom_append]
  rfl

theorem exists_of_mem_numberFrom {member : Name} (isIn : member ∈ numberFrom [] names) :
    ∃ front name back, names = front ++ name :: back ∧
      member = numbered name (front.count name) := by
  induction names using List.reverseRecOn with
  | nil => cases isIn
  | append_singleton front name inductionHypothesis =>
      rw [numberFrom_concat, List.mem_append, List.mem_singleton] at isIn
      rcases isIn with before | rfl
      · obtain ⟨start, other, back, rfl, same⟩ := inductionHypothesis before
        exact ⟨start, other, back ++ [name], by simp, same⟩
      · exact ⟨front, name, [], rfl, rfl⟩

theorem Separate.of_append (separate : Separate (front ++ back)) : Separate front :=
  (List.pairwise_append.mp separate).1

theorem Separate.apart (separate : Separate (front ++ name :: back)) {other : Name}
    (member : other ∈ front) (same : stem other = stem name) : other = name ∧ stem name = name := by
  obtain ⟨sameName, clean⟩ :=
    (List.pairwise_append.mp separate).2.2 other member name List.mem_cons_self same
  exact ⟨sameName, sameName ▸ clean⟩

/-- Numbers make separate names different. -/
theorem nodup_numberFrom (separate : Separate names) : (numberFrom [] names).Nodup := by
  induction names using List.reverseRecOn with
  | nil => exact List.nodup_nil
  | append_singleton front name inductionHypothesis =>
      rw [numberFrom_concat, ← List.concat_eq_append]
      apply List.Nodup.concat _ (inductionHypothesis separate.of_append)
      intro isIn
      obtain ⟨start, other, back, rfl, same⟩ := exists_of_mem_numberFrom isIn
      have sameStem : stem other = stem name := by
        rw [← stem_numbered other (start.count other), ← same, stem_numbered]
      obtain ⟨rfl, -⟩ := separate.apart (by simp) sameStem
      have sameCount := numbered_injective same
      rw [List.count_append, List.count_cons_self] at sameCount
      omega

end Lists

end SysrepoAugeas.Data.Numbering
