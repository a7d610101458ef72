import Mathlib.Algebra.Order.Ring.Nat
import Mathlib.Data.List.Count

/-!
# Names with escaped characters

Special characters of a name are literal behind an escape mark.  A reader
takes a name up to the first special character without mark.  A writer that
marks only some characters is understood exactly if all the special ones are
among them.
-/

namespace SysrepoAugeas.Data.Escape

universe u

variable {Alpha : Type u} [DecidableEq Alpha] (mark : Alpha) (special : Alpha → Bool)

/-- Name at the front and what follows it. -/
def readName : List Alpha → Option (List Alpha × List Alpha)
  | [] => some ([], [])
  | char :: rest =>
      if char = mark then
        match rest with
        | [] => none
        | literal :: rest => (readName rest).map fun read => (literal :: read.1, read.2)
      else if special char then some ([], char :: rest)
      else (readName rest).map fun read => (char :: read.1, read.2)

/-- Put the mark before the chosen characters. -/
def writeName (chosen : Alpha → Bool) : List Alpha → List Alpha
  | [] => []
  | char :: rest =>
      if chosen char then mark :: char :: writeName chosen rest else char :: writeName chosen rest

/-- A name cannot go on here. -/
def Stops (tail : List Alpha) : Prop :=
  ∀ char ∈ tail.head?, special char = true ∧ char ≠ mark

/-- All characters of a name that have a meaning are marked. -/
def Covered (chosen : Alpha → Bool) (name : List Alpha) : Prop :=
  ∀ char ∈ name, chosen char = true ∨ (special char = false ∧ char ≠ mark)

instance (chosen : Alpha → Bool) (name : List Alpha) : Decidable (Covered mark special chosen name) :=
  inferInstanceAs (Decidable (∀ char ∈ name, _))

variable {mark special}

section Reading

variable {char literal : Alpha} {rest : List Alpha}

@[simp]
theorem readName_nil : readName mark special [] = some ([], []) := by simp [readName]

@[simp]
theorem readName_mark_nil : readName mark special [mark] = none := by simp [readName]

@[simp]
theorem readName_mark_cons : readName mark special (mark :: literal :: rest) =
    (readName mark special rest).map fun read => (literal :: read.1, read.2) := by
  simp [readName]

theorem readName_special (notMark : char ≠ mark) (isSpecial : special char = true) :
    readName mark special (char :: rest) = some ([], char :: rest) := by
  cases rest <;> simp [readName, notMark, isSpecial]

theorem readName_plain (notMark : char ≠ mark) (plain : special char = false) :
    readName mark special (char :: rest) =
      (readName mark special rest).map fun read => (char :: read.1, read.2) := by
  cases rest <;> simp [readName, notMark, plain]

end Reading

theorem readName_of_stops {tail : List Alpha} (stops : Stops mark special tail) :
    readName mark special tail = some ([], tail) := by
  cases tail with
  | nil => simp
  | cons char rest =>
      obtain ⟨isSpecial, notMark⟩ := stops char rfl
      exact readName_special notMark isSpecial

/-- A covered name is read back. -/
theorem readName_writeName {chosen : Alpha → Bool} {name tail : List Alpha}
    (covered : Covered mark special chosen name) (stops : Stops mark special tail) :
    readName mark special (writeName mark chosen name ++ tail) = some (name, tail) := by
  induction name with
  | nil => exact readName_of_stops stops
  | cons char rest inductionHypothesis =>
      have readRest := inductionHypothesis fun other membership =>
        covered other (List.mem_cons_of_mem _ membership)
      rw [writeName]
      by_cases isChosen : chosen char = true
      · rw [if_pos isChosen, List.cons_append, List.cons_append, readName_mark_cons, readRest]
        rfl
      · obtain ⟨plain, notMark⟩ := (covered char List.mem_cons_self).resolve_left isChosen
        rw [if_neg isChosen, List.cons_append, readName_plain notMark plain, readRest]
        rfl

section Length

variable {chosen : Alpha → Bool} {text name left : List Alpha}

omit [DecidableEq Alpha] in
theorem writeName_length (name : List Alpha) :
    (writeName mark chosen name).length = name.length + name.countP chosen := by
  induction name with
  | nil => rfl
  | cons char rest inductionHypothesis =>
      rw [writeName, List.countP_cons]
      split <;> simp only [List.length_cons, inductionHypothesis] <;> omega

omit [DecidableEq Alpha] in
theorem writeName_append (name other : List Alpha) :
    writeName mark chosen (name ++ other) =
      writeName mark chosen name ++ writeName mark chosen other := by
  induction name with
  | nil => rfl
  | cons char rest inductionHypothesis =>
      rw [List.cons_append, writeName, writeName, inductionHypothesis]
      split <;> rfl

omit [DecidableEq Alpha] in
theorem writeName_eq_self (unchosen : ∀ char ∈ name, chosen char = false) :
    writeName mark chosen name = name := by
  induction name with
  | nil => rfl
  | cons char rest inductionHypothesis =>
      rw [writeName, if_neg (by simp [unchosen char]),
        inductionHypothesis fun other membership =>
          unchosen other (List.mem_cons_of_mem _ membership)]

/-- Without the marks both are the same. -/
theorem filter_writeName (name : List Alpha) :
    (writeName mark chosen name).filter (· ≠ mark) = name.filter (· ≠ mark) := by
  induction name with
  | nil => rfl
  | cons char rest inductionHypothesis =>
      rw [writeName]
      split
      · rw [List.filter_cons_of_neg (by simp), List.filter_cons, List.filter_cons,
          inductionHypothesis]
      · rw [List.filter_cons, List.filter_cons, inductionHypothesis]

/-- Only marks are added. -/
theorem mem_writeName {char : Alpha} (name : List Alpha) (notMark : char ≠ mark) :
    char ∈ writeName mark chosen name ↔ char ∈ name := by
  have iff := congrArg (char ∈ ·) (@filter_writeName _ _ mark chosen name)
  simpa [notMark] using iff

theorem count_writeName {char : Alpha} (name : List Alpha) (notMark : char ≠ mark) :
    (writeName mark chosen name).count char = name.count char := by
  have counts := congrArg (List.count char)
    (@filter_writeName _ _ mark chosen name)
  rwa [List.count_filter (by simpa using notMark), List.count_filter (by simpa using notMark)]
    at counts

omit [DecidableEq Alpha] in
theorem getLast_writeName (name : List Alpha) :
    (writeName mark chosen name).getLast? = name.getLast? := by
  induction name with
  | nil => rfl
  | cons char rest inductionHypothesis =>
      rw [writeName, List.getLast?_cons, ← inductionHypothesis]
      split <;> simp [List.getLast?_cons]

/-- No text for a name is shorter than the one that marks what is special. -/
theorem writeName_length_le (markSpecial : special mark = true) :
    (text name left : List Alpha) → readName mark special text = some (name, left) →
      (writeName mark special name).length + left.length ≤ text.length
  | [], name, left, found => by
      simp only [readName_nil, Option.some.injEq, Prod.mk.injEq] at found
      simp [← found.1, ← found.2, writeName]
  | char :: rest, name, left, found => by
      by_cases isMark : char = mark
      · match rest with
        | [] => simp [isMark] at found
        | literal :: rest =>
            rw [isMark, readName_mark_cons] at found
            obtain ⟨⟨read, other⟩, readRest, equality⟩ := Option.map_eq_some_iff.mp found
            simp only [Prod.mk.injEq] at equality
            have shorter := writeName_length_le markSpecial rest read other readRest
            rw [← equality.1, ← equality.2, writeName]
            split <;> simp only [List.length_cons] <;> omega
      · cases isSpecial : special char with
        | true =>
            rw [readName_special isMark isSpecial, Option.some.injEq, Prod.mk.injEq] at found
            simp [← found.1, ← found.2, writeName]
        | false =>
            rw [readName_plain isMark isSpecial] at found
            obtain ⟨⟨read, other⟩, readRest, equality⟩ := Option.map_eq_some_iff.mp found
            simp only [Prod.mk.injEq] at equality
            have shorter := writeName_length_le markSpecial rest read other readRest
            rw [← equality.1, ← equality.2, writeName, if_neg (by simp [isSpecial])]
            simp only [List.length_cons]
            omega

/-- Apart from marks, nothing is lost and nothing is added. -/
theorem count_readName {char : Alpha} (notMark : char ≠ mark) :
    (text name left : List Alpha) → readName mark special text = some (name, left) →
      text.count char = name.count char + left.count char
  | [], name, left, found => by
      simp only [readName_nil, Option.some.injEq, Prod.mk.injEq] at found
      simp [← found.1, ← found.2]
  | first :: rest, name, left, found => by
      by_cases isMark : first = mark
      · match rest with
        | [] => simp [isMark] at found
        | literal :: rest =>
            rw [isMark, readName_mark_cons] at found
            obtain ⟨⟨read, other⟩, readRest, equality⟩ := Option.map_eq_some_iff.mp found
            simp only [Prod.mk.injEq] at equality
            have counts := count_readName notMark rest read other readRest
            rw [isMark, List.count_cons_of_ne (Ne.symm notMark), ← equality.1, ← equality.2,
              List.count_cons, List.count_cons, counts]
            omega
      · cases isSpecial : special first with
        | true =>
            rw [readName_special isMark isSpecial, Option.some.injEq, Prod.mk.injEq] at found
            simp [← found.1, ← found.2]
        | false =>
            rw [readName_plain isMark isSpecial] at found
            obtain ⟨⟨read, other⟩, readRest, equality⟩ := Option.map_eq_some_iff.mp found
            simp only [Prod.mk.injEq] at equality
            have counts := count_readName notMark rest read other readRest
            rw [← equality.1, ← equality.2, List.count_cons, List.count_cons, counts]
            omega

/-- A name whose writing is as short as possible is covered. -/
theorem covered_of_countP_le (chosenSpecial : ∀ char, chosen char = true → special char = true)
    (markSpecial : special mark = true) (counts : name.countP special ≤ name.countP chosen) :
    Covered mark special chosen name := by
  induction name with
  | nil => simp [Covered]
  | cons char rest inductionHypothesis =>
      have fewer : rest.countP chosen ≤ rest.countP special :=
        List.countP_mono_left fun other _ => chosenSpecial other
      rw [List.countP_cons, List.countP_cons] at counts
      have both : (chosen char = true ∨ (special char = false ∧ char ≠ mark)) ∧
          rest.countP special ≤ rest.countP chosen := by
        cases isSpecial : special char with
        | true =>
            cases isChosen : chosen char with
            | true => simp_all
            | false =>
                simp only [isSpecial, isChosen, if_true, Bool.false_eq_true, if_false] at counts
                omega
        | false =>
            have notChosen : chosen char = false := by
              by_contra isChosen
              simp [chosenSpecial char (by simpa using isChosen)] at isSpecial
            refine ⟨.inr ⟨rfl, ?_⟩, by simpa [isSpecial, notChosen] using counts⟩
            rintro rfl
            simp [markSpecial] at isSpecial
      intro other membership
      rcases List.mem_cons.mp membership with rfl | inRest
      · exact both.1
      · exact inductionHypothesis both.2 other inRest

end Length

/-- Reading stops at the same place when something follows that stops it. -/
theorem readName_append {tail : List Alpha} (stops : Stops mark special tail) :
    (text name left : List Alpha) → readName mark special text = some (name, left) →
      readName mark special (text ++ tail) = some (name, left ++ tail)
  | [], name, left, found => by
      simp only [readName_nil, Option.some.injEq, Prod.mk.injEq] at found
      rw [← found.1, ← found.2]
      exact readName_of_stops stops
  | char :: rest, name, left, found => by
      by_cases isMark : char = mark
      · match rest with
        | [] => simp [isMark] at found
        | literal :: rest =>
            rw [isMark, readName_mark_cons] at found
            obtain ⟨⟨read, other⟩, readRest, equality⟩ := Option.map_eq_some_iff.mp found
            simp only [Prod.mk.injEq] at equality
            rw [isMark, List.cons_append, List.cons_append, readName_mark_cons,
              readName_append stops rest read other readRest, Option.map_some, equality.1,
              equality.2]
      · cases isSpecial : special char with
        | true =>
            rw [readName_special isMark isSpecial, Option.some.injEq, Prod.mk.injEq] at found
            rw [List.cons_append, readName_special isMark isSpecial, ← found.1, ← found.2]
            rfl
        | false =>
            rw [readName_plain isMark isSpecial] at found
            obtain ⟨⟨read, other⟩, readRest, equality⟩ := Option.map_eq_some_iff.mp found
            simp only [Prod.mk.injEq] at equality
            rw [List.cons_append, readName_plain isMark isSpecial,
              readName_append stops rest read other readRest, Option.map_some, equality.1,
              equality.2]

end SysrepoAugeas.Data.Escape
