import SysrepoAugeas.Data.Reading

/-!
# Bracket expressions

In POSIX all characters between the brackets stand for themselves, except for a
minus between two of them and a circumflex at the front.  In XSD a backslash
takes the meaning from the character behind it.
-/

namespace SysrepoAugeas.Data

/-- Characters of a bracket expression with a mark on those that a backslash has escaped. -/
abbrev Members := List (Char × Bool)

/-- A character is one of the members or in one of the ranges. -/
def Within (char : Char) : Members → Prop
  | (first, _) :: ('-', false) :: (last, _) :: rest =>
      first ≤ char ∧ char ≤ last ∨ Within char rest
  | (first, _) :: rest => char = first ∨ Within char rest
  | [] => False

def bracketLanguage (members : Members) : Language Char := fun word =>
  ∃ char, word = [char] ∧
    if members.head? = some ('^', false) then ¬Within char members.tail else Within char members

/-- Members between the brackets of an XSD pattern. -/
def unescapedMembers : List Char → Members
  | '\\' :: char :: rest => (char, true) :: unescapedMembers rest
  | char :: rest => (char, false) :: unescapedMembers rest
  | [] => []

/-- The last character is a backslash that escapes what follows. -/
def isDangling : List Char → Bool
  | '\\' :: _ :: rest => isDangling rest
  | char :: rest => char == '\\' || isDangling rest
  | [] => false

/-- Patterns of XSD and YANG.  Escaped letters stand for other characters or for classes, which are
left out; `bound` is for a quantity in braces. -/
def xsdDialect (bound : List Char → Language Char → Language Char) : Dialect where
  single char := if char = '.' then fun word => ∃ any, word = [any] ∧ any ≠ '\n' ∧ any ≠ '\r'
    else {[char]}
  escaped char := if char.isAlphanum then 0 else {[char]}
  bracket content := bracketLanguage (unescapedMembers content)
  closes content := !isDangling content
  bound := bound

theorem mem_bracketLanguage {members : Members} {word : List Char} :
    word ∈ bracketLanguage members ↔ ∃ char, word = [char] ∧
      if members.head? = some ('^', false) then ¬Within char members.tail else Within char members :=
  Iff.rfl

section Members

variable {char : Char} {rest : Members}

theorem within_range (first last : Char) (escaped other : Bool) :
    Within char ((first, escaped) :: ('-', false) :: (last, other) :: rest) ↔
      first ≤ char ∧ char ≤ last ∨ Within char rest := Iff.rfl

theorem within_single {first : Char} {escaped : Bool}
    (noRange : ∀ last behind, rest ≠ ('-', false) :: last :: behind) :
    Within char ((first, escaped) :: rest) ↔ char = first ∨ Within char rest := by
  rw [Within.eq_def]
  split
  · rename_i same
    obtain ⟨-, isRest⟩ := List.cons.inj same
    exact absurd isRest (noRange _ _)
  · rename_i same
    obtain ⟨isFirst, isRest⟩ := List.cons.inj same
    obtain ⟨rfl, -⟩ := Prod.mk.inj isFirst
    rw [isRest]
  · rename_i same
    cases same

theorem within_map_single (escapes : Char → Bool) {first : Char} {behind : List Char}
    (noRange : ∀ last others, behind ≠ '-' :: last :: others) :
    Within char ((first :: behind).map fun other => (other, escapes other)) ↔
      char = first ∨ Within char (behind.map fun other => (other, escapes other)) := by
  rw [List.map_cons]
  apply within_single
  intro last others same
  obtain ⟨minus, more, rfl, isMinus, isMore⟩ := List.map_eq_cons_iff.mp same
  obtain ⟨next, further, rfl, -, -⟩ := List.map_eq_cons_iff.mp isMore
  obtain ⟨rfl, -⟩ := Prod.mk.inj isMinus
  exact noRange next further rfl

/-- Escapes of other characters than the minus change nothing. -/
theorem within_map {escapes : Char → Bool} (noMinus : escapes '-' = false) (chars : List Char) :
    Within char (chars.map fun other => (other, escapes other)) ↔
      Within char (chars.map fun other => (other, false)) := by
  have below : ∀ bound, ∀ chars : List Char, chars.length < bound →
      (Within char (chars.map fun other => (other, escapes other)) ↔
        Within char (chars.map fun other => (other, false))) := by
    intro bound
    induction bound with
    | zero => exact fun chars small => absurd small (Nat.not_lt_zero _)
    | succ bound inductionHypothesis =>
        intro chars small
        cases chars with
        | nil => exact Iff.rfl
        | cons first behind =>
            rw [List.length_cons] at small
            by_cases isRange : ∃ last others, behind = '-' :: last :: others
            · obtain ⟨last, others, rfl⟩ := isRange
              simp only [List.length_cons] at small
              simp only [List.map_cons, noMinus]
              rw [within_range, within_range, inductionHypothesis others (by omega)]
            · have noRange : ∀ last others, behind ≠ '-' :: last :: others :=
                fun last others same => isRange ⟨last, others, same⟩
              rw [within_map_single escapes noRange, within_map_single (fun _ => false) noRange,
                inductionHypothesis behind (by omega)]
  exact below _ chars (Nat.lt_succ_self _)

end Members

section Escapes

/-- What is written for a member of a POSIX bracket expression. -/
def escapedMember (char : Char) : List Char :=
  if char = '[' ∨ char = ']' ∨ char = '\\' then ['\\', char] else [char]

/-- Whether a backslash stands in front of it. -/
def isEscapedMember (char : Char) : Bool := char = '[' ∨ char = ']' ∨ char = '\\'

variable {bound : List Char → Language Char → Language Char} {levels : List Level}

theorem unescapedMembers_plain {char : Char} (plain : char ≠ '\\') (rest : List Char) :
    unescapedMembers (char :: rest) = (char, false) :: unescapedMembers rest := by
  rw [unescapedMembers]
  rintro other behind rfl
  exact absurd rfl plain

theorem unescapedMembers_escapedMember (char : Char) (rest : List Char) :
    unescapedMembers (escapedMember char ++ rest) =
      (char, isEscapedMember char) :: unescapedMembers rest := by
  rw [escapedMember, isEscapedMember]
  split
  · rename_i special
    rw [decide_eq_true special]
    rfl
  · rename_i special
    rw [decide_eq_false special]
    apply unescapedMembers_plain
    rintro rfl
    exact special (.inr (.inr rfl))

theorem unescapedMembers_flatMap (chars : List Char) :
    unescapedMembers (chars.flatMap escapedMember) =
      chars.map fun char => (char, isEscapedMember char) := by
  induction chars with
  | nil => rfl
  | cons char chars inductionHypothesis =>
      rw [List.flatMap_cons, unescapedMembers_escapedMember, inductionHypothesis, List.map_cons]

theorem isDangling_plain {char : Char} (plain : char ≠ '\\') (rest : List Char) :
    isDangling (char :: rest) = isDangling rest := by
  rw [isDangling]
  · rw [beq_eq_false_iff_ne.mpr plain, Bool.false_or]
  · rintro other behind rfl
    exact absurd rfl plain

theorem isDangling_append {front : List Char} (closed : isDangling front = false) (text : List Char) :
    isDangling (front ++ text) = isDangling text := by
  fun_induction isDangling front with
  | case1 char rest inductionHypothesis => exact inductionHypothesis closed
  | case2 char rest notPair inductionHypothesis =>
      rw [Bool.or_eq_false_iff, beq_eq_false_iff_ne] at closed
      rw [List.cons_append, isDangling_plain closed.1, inductionHypothesis closed.2]
  | case3 => rfl

theorem not_isDangling_escapedMember (char : Char) : isDangling (escapedMember char) = false := by
  rw [escapedMember]
  split
  · rfl
  · rename_i special
    apply isDangling_plain
    rintro rfl
    exact special (.inr (.inr rfl))

theorem step_bracket {dialect : Dialect} (content : List Char) (char : Char) :
    Reading.step dialect ⟨.bracket content, levels⟩ char =
      if char = ']' ∧ dialect.closes content then
        (onTop (fun top => some (top.push (dialect.bracket content))) levels).map (⟨.plain, ·⟩)
      else some ⟨.bracket (content ++ [char]), levels⟩ := rfl

theorem run_escapedMember (char : Char) {content : List Char} (closed : isDangling content = false)
    (rest : List Char) :
    Reading.run (xsdDialect bound) (escapedMember char ++ rest) ⟨.bracket content, levels⟩ =
      Reading.run (xsdDialect bound) rest ⟨.bracket (content ++ escapedMember char), levels⟩ := by
  have stays {char : Char} {content : List Char}
      (open_ : ¬(char = ']' ∧ (xsdDialect bound).closes content = true)) (rest : List Char) :
      Reading.run (xsdDialect bound) (char :: rest) ⟨.bracket content, levels⟩ =
        Reading.run (xsdDialect bound) rest ⟨.bracket (content ++ [char]), levels⟩ := by
    rw [Reading.run, step_bracket, if_neg open_]
    rfl
  rw [escapedMember]
  split
  · have backslash : isDangling (content ++ ['\\']) = true := isDangling_append closed _
    rw [List.cons_append, List.singleton_append, stays, stays, List.append_assoc]
    · rfl
    · simp [xsdDialect, backslash]
    · simp
  · rename_i special
    rw [List.singleton_append, stays]
    rintro ⟨rfl, -⟩
    exact special (.inr (.inl rfl))

/-- All that is written for the members is read up to the bracket behind it. -/
theorem run_members (chars : List Char) {content : List Char} (closed : isDangling content = false)
    (rest : List Char) :
    Reading.run (xsdDialect bound) (chars.flatMap escapedMember ++ ']' :: rest)
        ⟨.bracket content, levels⟩ =
      ((onTop (fun top => some (top.push (bracketLanguage (unescapedMembers
          (content ++ chars.flatMap escapedMember))))) levels).map (⟨.plain, ·⟩)).bind
        (Reading.run (xsdDialect bound) rest) := by
  induction chars generalizing content with
  | nil =>
      have closes : (xsdDialect bound).closes content = true := by
        simp [xsdDialect, closed]
      rw [List.flatMap_nil, List.nil_append, List.append_nil, Reading.run, step_bracket,
        if_pos ⟨rfl, closes⟩]
      rfl
  | cons char chars inductionHypothesis =>
      have stillClosed : isDangling (content ++ escapedMember char) = false := by
        rw [isDangling_append closed, not_isDangling_escapedMember]
      rw [List.flatMap_cons, List.append_assoc, run_escapedMember char closed,
        inductionHypothesis stillClosed, List.append_assoc]

end Escapes

end SysrepoAugeas.Data
