import Mathlib.Data.List.TakeWhile
import SysrepoAugeas.Label.Path

/-!
# Parsing of written paths

Names with their special characters escaped are parsed to the steps they were
written for, and no text for the same steps is shorter.  A path that is
appended to a context is parsed as if it stood alone.
-/

namespace SysrepoAugeas.Label

open SysrepoAugeas.Data

/-- Steps as they are written by someone who escapes the chosen characters. -/
def written (chosen : Char → Bool) (steps : List AugStep) : Text :=
  steps.flatMap fun step =>
    '/' :: (Escape.writeName '\\' chosen step.label ++ indexText step.index)

theorem written_cons (chosen : Char → Bool) (step : AugStep) (rest : List AugStep) :
    written chosen (step :: rest) = '/' ::
      (Escape.writeName '\\' chosen step.label ++ indexText step.index ++ written chosen rest) := by
  rfl

/-- End of the path or of the step. -/
def StepEnds (tail : Text) : Prop := ∀ char ∈ tail.head?, char = '/'

theorem StepEnds.stops {tail : Text} (ends : StepEnds tail) :
    Escape.Stops '\\' pathSpecial tail := by
  intro char isHead
  rw [ends char isHead]
  decide

theorem StepEnds.written (chosen : Char → Bool) (steps : List AugStep) :
    StepEnds (written chosen steps) := by
  cases steps with
  | nil => simp [StepEnds, Label.written]
  | cons step rest => simp [StepEnds, written_cons]

section Index

theorem takeWhile_isDigit {digits tail : Text} (areDigits : ∀ char ∈ digits, char.isDigit = true) :
    (digits ++ ']' :: tail).takeWhile Char.isDigit = digits := by
  rw [List.takeWhile_append_of_pos areDigits, List.takeWhile_cons_of_neg (by decide),
    List.append_nil]

/-- The position that is found is the one between the brackets. -/
theorem parseIndex_eq_some {text left : Text} {index : Option Nat}
    (found : parseIndex text = some (index, left)) :
    (index = none ∧ left = text ∧ text.head? ≠ some '[') ∨
    ∃ digits, (∀ char ∈ digits, char.isDigit = true) ∧ digits ≠ [] ∧
      index = some (Nat.ofDigitChars 10 digits 0) ∧ text = '[' :: (digits ++ ']' :: left) := by
  rw [parseIndex.eq_def] at found
  split at found
  · rename_i rest
    right
    simp only at found
    split at found
    · rename_i tail dropped
      split at found
      · cases found
      · rename_i nonempty
        simp only [Option.some.injEq, Prod.mk.injEq] at found
        refine ⟨rest.takeWhile Char.isDigit, fun char => List.mem_takeWhile_imp, nonempty,
          found.1.symm, ?_⟩
        rw [← found.2, ← dropped]
        conv_lhs => rw [← List.take_append_drop (rest.takeWhile Char.isDigit).length rest]
        rw [← List.prefix_iff_eq_take.mp (List.takeWhile_prefix Char.isDigit)]
    · cases found
  · rename_i notBracket
    simp only [Option.some.injEq, Prod.mk.injEq] at found
    refine .inl ⟨found.1.symm, found.2.symm, ?_⟩
    cases text with
    | nil => simp
    | cons char rest =>
        intro isBracket
        simp only [List.head?_cons, Option.some.injEq] at isBracket
        exact notBracket rest (by rw [isBracket])

theorem parseIndex_digits {digits tail : Text} (areDigits : ∀ char ∈ digits, char.isDigit = true)
    (nonempty : digits ≠ []) : parseIndex ('[' :: (digits ++ ']' :: tail)) =
      some (some (Nat.ofDigitChars 10 digits 0), tail) := by
  simp only [parseIndex, takeWhile_isDigit areDigits, List.drop_left, if_neg nonempty]

theorem parseIndex_none {text : Text} (notBracket : text.head? ≠ some '[') :
    parseIndex text = some (none, text) := by
  rw [parseIndex.eq_def]
  split
  · simp at notBracket
  · rfl

theorem parseIndex_indexText (index : Option Nat) {tail : Text} (ends : StepEnds tail) :
    parseIndex (indexText index ++ tail) = some (index, tail) := by
  cases index with
  | none =>
      rw [indexText, List.nil_append, parseIndex_none]
      intro isBracket
      cases ends _ isBracket
  | some index =>
      rw [indexText, List.cons_append, List.append_assoc, List.singleton_append,
        parseIndex_digits
          (fun char membership => Nat.isDigit_of_mem_toDigits (by decide) (by decide) membership)
          Nat.toDigits_ne_nil, Nat.ofDigitChars_ten_toDigits]

theorem parseIndex_append {text left tail : Text} {index : Option Nat} (ends : StepEnds tail)
    (found : parseIndex text = some (index, left)) :
    parseIndex (text ++ tail) = some (index, left ++ tail) := by
  rcases parseIndex_eq_some found with
    ⟨rfl, rfl, notBracket⟩ | ⟨digits, areDigits, nonempty, rfl, rfl⟩
  · refine parseIndex_none ?_
    cases left with
    | nil =>
        intro isBracket
        cases ends _ isBracket
    | cons char rest => exact notBracket
  · rw [List.cons_append, List.append_assoc, List.cons_append,
      parseIndex_digits areDigits nonempty]

theorem ofDigitChars_lt {digits : Text} (areDigits : ∀ char ∈ digits, char.isDigit = true) :
    (start : Nat) → Nat.ofDigitChars 10 digits start < 10 ^ digits.length * (start + 1) := by
  induction digits with
  | nil => simp
  | cons char rest inductionHypothesis =>
      intro start
      have small : char.toNat - '0'.toNat < 10 := by
        obtain ⟨-, bound⟩ := Char.isDigit_iff_toNat.mp (areDigits char List.mem_cons_self)
        have : char.toNat ≤ 57 := bound
        have zero : '0'.toNat = 48 := rfl
        omega
      rw [Nat.ofDigitChars_cons]
      have := inductionHypothesis (fun other membership =>
        areDigits other (List.mem_cons_of_mem _ membership))
        (10 * start + (char.toNat - '0'.toNat))
      calc _ < 10 ^ rest.length * (10 * start + (char.toNat - '0'.toNat) + 1) := this
        _ ≤ 10 ^ rest.length * (10 * (start + 1)) := Nat.mul_le_mul_left _ (by omega)
        _ = 10 ^ (char :: rest).length * (start + 1) := by
          rw [List.length_cons, Nat.pow_succ, Nat.mul_assoc]

theorem indexText_length_le {text left : Text} {index : Option Nat}
    (found : parseIndex text = some (index, left)) :
    (indexText index).length + left.length ≤ text.length := by
  rcases parseIndex_eq_some found with ⟨rfl, rfl, -⟩ | ⟨digits, areDigits, nonempty, rfl, rfl⟩
  · simp [indexText]
  · have bound := ofDigitChars_lt areDigits 0
    rw [Nat.zero_add, Nat.mul_one] at bound
    have := (Nat.length_toDigits_le_iff (by decide) (List.length_pos_iff.mpr nonempty)).mpr bound
    simp only [indexText, List.length_cons, List.length_append, List.length_nil]
    omega

end Index

section Step

theorem parseStep_eq_some {text left : Text} {step : AugStep}
    (found : parseStep text = some (step, left)) :
    step.label ≠ [] ∧ ∃ rest, Escape.readName '\\' pathSpecial text = some (step.label, rest) ∧
      parseIndex rest = some (step.index, left) := by
  rw [parseStep, Option.bind_eq_bind, Option.bind_eq_some_iff] at found
  obtain ⟨⟨label, rest⟩, readLabel, found⟩ := found
  simp only at found
  split at found
  · cases found
  · rename_i nonempty
    rw [Option.bind_eq_bind, Option.bind_eq_some_iff] at found
    obtain ⟨⟨index, left'⟩, readIndex, found⟩ := found
    simp only [Option.some.injEq, Prod.mk.injEq] at found
    obtain ⟨rfl, rfl⟩ := found
    exact ⟨nonempty, rest, readLabel, readIndex⟩

theorem parseStep_of_read {text rest left label : Text} {index : Option Nat}
    (readLabel : Escape.readName '\\' pathSpecial text = some (label, rest))
    (nonempty : label ≠ []) (readIndex : parseIndex rest = some (index, left)) :
    parseStep text = some (⟨label, index⟩, left) := by
  simp [parseStep, readLabel, nonempty, readIndex]

theorem indexText_stops (index : Option Nat) {tail : Text} (ends : StepEnds tail) :
    Escape.Stops '\\' pathSpecial (indexText index ++ tail) := by
  cases index with
  | none => exact ends.stops
  | some index =>
      intro char isHead
      rw [indexText, List.cons_append, List.head?_cons, Option.mem_some_iff] at isHead
      subst isHead
      decide

/-- A step is read back if all that is special in its label is escaped. -/
theorem parseStep_written {chosen : Char → Bool} {step : AugStep} {tail : Text}
    (nonempty : step.label ≠ []) (covered : Escape.Covered '\\' pathSpecial chosen step.label)
    (ends : StepEnds tail) :
    parseStep (Escape.writeName '\\' chosen step.label ++ indexText step.index ++ tail) =
      some (step, tail) := by
  rw [List.append_assoc]
  exact parseStep_of_read (Escape.readName_writeName covered (indexText_stops step.index ends))
    nonempty (parseIndex_indexText step.index ends)

theorem parseStep_append {text left tail : Text} {step : AugStep} (ends : StepEnds tail)
    (found : parseStep text = some (step, left)) :
    parseStep (text ++ tail) = some (step, left ++ tail) := by
  obtain ⟨nonempty, rest, readLabel, readIndex⟩ := parseStep_eq_some found
  exact parseStep_of_read (Escape.readName_append ends.stops _ _ _ readLabel) nonempty
    (parseIndex_append ends readIndex)

theorem parseStep_length {text left : Text} {step : AugStep}
    (found : parseStep text = some (step, left)) :
    (written pathSpecial [step]).length + left.length ≤ text.length + 1 := by
  obtain ⟨-, rest, readLabel, readIndex⟩ := parseStep_eq_some found
  have label := Escape.writeName_length_le (by decide) text step.label rest readLabel
  have index := indexText_length_le readIndex
  simp only [written_cons, List.length_cons, List.length_append]
  simp only [written, List.flatMap_nil, List.length_nil]
  omega

/-- Every step takes a character at least. -/
theorem parseStep_shorter {text left : Text} {step : AugStep}
    (found : parseStep text = some (step, left)) : left.length < text.length := by
  obtain ⟨nonempty, rest, readLabel, readIndex⟩ := parseStep_eq_some found
  have label := Escape.writeName_length_le (by decide) text step.label rest readLabel
  have index := indexText_length_le readIndex
  rw [Escape.writeName_length] at label
  have := List.length_pos_iff.mpr nonempty
  omega

end Step

section Path

theorem parseSteps_eq_some {fuel : Nat} {text : Text} {steps : List AugStep}
    (found : parseSteps (fuel + 1) text = some steps) :
    ∃ step left, parseStep text = some (step, left) ∧
      ((left = [] ∧ steps = [step]) ∨ ∃ rest others, left = '/' :: rest ∧
        parseSteps fuel rest = some others ∧ steps = step :: others) := by
  rw [parseSteps] at found
  split at found
  · rename_i step parsed
    exact ⟨step, [], parsed, .inl ⟨rfl, (Option.some.inj found).symm⟩⟩
  · rename_i step rest parsed
    obtain ⟨others, parsedRest, equality⟩ := Option.map_eq_some_iff.mp found
    exact ⟨step, _, parsed, .inr ⟨rest, others, rfl, parsedRest, equality.symm⟩⟩
  · cases found

theorem parseSteps_last {fuel : Nat} {text : Text} {step : AugStep}
    (parsed : parseStep text = some (step, [])) : parseSteps (fuel + 1) text = some [step] := by
  rw [parseSteps, parsed]

theorem parseSteps_slash {fuel : Nat} {text rest : Text} {step : AugStep}
    (parsed : parseStep text = some (step, '/' :: rest)) :
    parseSteps (fuel + 1) text = (parseSteps fuel rest).map (step :: ·) := by
  rw [parseSteps, parsed]
  rfl

/-- Fuel for all the characters is enough. -/
theorem parseSteps_fuel (fuel : Nat) : (other : Nat) → (text : Text) → text.length ≤ fuel →
    text.length ≤ other → parseSteps fuel text = parseSteps other text := by
  have noText (fuel : Nat) : parseSteps fuel [] = none := by cases fuel <;> rfl
  induction fuel with
  | zero =>
      intro other text short _
      have isEmpty : text = [] := List.length_eq_zero_iff.mp (Nat.le_zero.mp short)
      rw [isEmpty, noText, noText]
  | succ fuel inductionHypothesis =>
      intro other text short shortOther
      cases other with
      | zero =>
          have isEmpty : text = [] := List.length_eq_zero_iff.mp (Nat.le_zero.mp shortOther)
          rw [isEmpty, noText, noText]
      | succ other =>
          rw [parseSteps, parseSteps]
          split
          · rfl
          · rename_i step rest parsed
            have shorter := parseStep_shorter parsed
            rw [List.length_cons] at shorter
            rw [inductionHypothesis other rest (by omega) (by omega)]
          · rfl

/-- A path below another one. -/
theorem parsePath_append {text path : Text} {base : List AugStep}
    (found : parsePath text = some base) :
    parsePath (text ++ '/' :: path) = (parsePath path).map (base ++ ·) := by
  have below (fuel : Nat) : (text : Text) → (base : List AugStep) →
      parseSteps fuel text = some base →
      parseSteps (fuel + path.length + 1) (text ++ '/' :: path) =
        (parsePath path).map (base ++ ·) := by
    induction fuel with
    | zero =>
        intro text base found
        cases found
    | succ fuel inductionHypothesis =>
        intro text base found
        obtain ⟨step, left, parsed, ends | ⟨rest, others, isSlash, parsedRest, equality⟩⟩ :=
          parseSteps_eq_some found
        · have appended := @parseStep_append _ _ ('/' :: path) _ (by simp [StepEnds]) parsed
          rw [ends.1, List.nil_append] at appended
          rw [parseSteps_slash appended, ends.2, parsePath,
            parseSteps_fuel (fuel + 1 + path.length) path.length path (by omega) (by omega)]
          rfl
        · have appended := @parseStep_append _ _ ('/' :: path) _ (by simp [StepEnds]) parsed
          rw [isSlash, List.cons_append] at appended
          rw [parseSteps_slash appended,
            show fuel + 1 + path.length = fuel + path.length + 1 by omega,
            inductionHypothesis rest others parsedRest, Option.map_map, equality]
          rfl
  rw [parsePath, List.length_append, List.length_cons, ← Nat.add_assoc]
  exact below text.length text base found

theorem parsePath_step {chosen : Char → Bool} {step : AugStep} (nonempty : step.label ≠ [])
    (covered : Escape.Covered '\\' pathSpecial chosen step.label) :
    parsePath ((written chosen [step]).drop 1) = some [step] := by
  have parsed := @parseStep_written _ _ [] nonempty covered (by simp [StepEnds])
  obtain ⟨fuel, lengthEq⟩ := Nat.exists_eq_add_of_lt (parseStep_shorter parsed)
  rw [written_cons, List.drop_one, List.tail_cons, parsePath,
    show written chosen [] = [] from rfl, lengthEq]
  exact parseSteps_last parsed

/-- The steps of a path are read back if all that is special in their labels is escaped. -/
theorem parsePath_written {chosen : Char → Bool} (rest : List AugStep) : (step : AugStep) →
    (∀ other ∈ step :: rest, other.label ≠ [] ∧
      Escape.Covered '\\' pathSpecial chosen other.label) →
    parsePath ((written chosen (step :: rest)).drop 1) = some (step :: rest) := by
  induction rest with
  | nil =>
      intro step readable
      obtain ⟨nonempty, covered⟩ := readable step List.mem_cons_self
      exact parsePath_step nonempty covered
  | cons next rest inductionHypothesis =>
      intro step readable
      obtain ⟨nonempty, covered⟩ := readable step List.mem_cons_self
      have back := inductionHypothesis next fun other membership =>
        readable other (List.mem_cons_of_mem _ membership)
      have split : (written chosen (step :: next :: rest)).drop 1 =
          (written chosen [step]).drop 1 ++
            '/' :: (written chosen (next :: rest)).drop 1 := by
        simp [written]
      rw [split, parsePath_append (parsePath_step nonempty covered), back]
      rfl

theorem parsePath_nonempty {text : Text} {steps : List AugStep}
    (found : parsePath text = some steps) : ∀ step ∈ steps, step.label ≠ [] := by
  have below (fuel : Nat) : (text : Text) → (steps : List AugStep) →
      parseSteps fuel text = some steps → ∀ step ∈ steps, step.label ≠ [] := by
    induction fuel with
    | zero =>
        intro text steps found
        cases found
    | succ fuel inductionHypothesis =>
        intro text steps found other membership
        obtain ⟨step, left, parsed, ends | ⟨rest, others, -, parsedRest, equality⟩⟩ :=
          parseSteps_eq_some found
        · rw [ends.2, List.mem_singleton] at membership
          rw [membership]
          exact (parseStep_eq_some parsed).1
        · rw [equality] at membership
          rcases List.mem_cons.mp membership with rfl | inRest
          · exact (parseStep_eq_some parsed).1
          · exact inductionHypothesis rest others parsedRest other inRest
  exact below text.length text steps found

/-- No text for a path is shorter than the printed one. -/
theorem augPrint_length_le {text : Text} {steps : List AugStep}
    (found : parsePath text = some steps) : (augPrint steps).length ≤ text.length + 1 := by
  have below (fuel : Nat) : (text : Text) → (steps : List AugStep) →
      parseSteps fuel text = some steps →
      (written pathSpecial steps).length ≤ text.length + 1 := by
    induction fuel with
    | zero =>
        intro text steps found
        cases found
    | succ fuel inductionHypothesis =>
        intro text steps found
        obtain ⟨step, left, parsed, ends | ⟨rest, others, isSlash, parsedRest, equality⟩⟩ :=
          parseSteps_eq_some found
        · have front := parseStep_length parsed
          rw [ends.2]
          omega
        · have front := parseStep_length parsed
          have back := inductionHypothesis rest others parsedRest
          rw [equality, written, List.flatMap_cons, List.length_append, ← written]
          rw [written, List.flatMap_cons, List.flatMap_nil, List.append_nil, isSlash] at front
          simp only [List.length_cons] at front ⊢
          omega
  exact below text.length text steps found

/-- Opening brackets of a step, in its label or before its position. -/
def brackets (step : AugStep) : Nat := step.label.count '[' + if step.index = none then 0 else 1

theorem count_parseStep {text left : Text} {step : AugStep}
    (found : parseStep text = some (step, left)) :
    text.count '[' = brackets step + left.count '[' := by
  obtain ⟨-, rest, readLabel, readIndex⟩ := parseStep_eq_some found
  rw [Escape.count_readName (by decide) text step.label rest readLabel, brackets, Nat.add_assoc]
  rcases parseIndex_eq_some readIndex with
    ⟨noIndex, rfl, -⟩ | ⟨digits, areDigits, -, indexEq, rfl⟩
  · rw [if_pos noIndex, Nat.zero_add]
  · have notDigit : '[' ∉ digits := fun membership => by
      have := areDigits '[' membership
      revert this
      decide
    rw [if_neg (by simp [indexEq]), List.count_cons_self, List.count_append,
      List.count_eq_zero.mpr notDigit, List.count_cons_of_ne (by decide)]
    omega

/-- No bracket of a path is lost. -/
theorem count_parsePath {text : Text} {steps : List AugStep} (found : parsePath text = some steps) :
    text.count '[' = (steps.map brackets).sum := by
  have below (fuel : Nat) : (text : Text) → (steps : List AugStep) →
      parseSteps fuel text = some steps → text.count '[' = (steps.map brackets).sum := by
    induction fuel with
    | zero =>
        intro text steps found
        cases found
    | succ fuel inductionHypothesis =>
        intro text steps found
        obtain ⟨step, left, parsed, ends | ⟨rest, others, isSlash, parsedRest, equality⟩⟩ :=
          parseSteps_eq_some found
        · rw [count_parseStep parsed, ends.1, ends.2]
          simp
        · rw [count_parseStep parsed, isSlash, List.count_cons_of_ne (by decide),
            inductionHypothesis rest others parsedRest, equality, List.map_cons, List.sum_cons]
  exact below text.length text steps found

end Path

end SysrepoAugeas.Label
