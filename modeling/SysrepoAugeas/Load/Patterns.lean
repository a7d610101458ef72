import SysrepoAugeas.Term.Minus

/-!
# Patterns for labels

The type of a key is printed with its patterns, libyang compiles them, and the
plugin takes the compiled patterns from the type when it starts.  Which labels
are loaded for the key is decided by matching them with PCRE2.
-/

namespace SysrepoAugeas.Load

open SysrepoAugeas.Label (Text)
open SysrepoAugeas.Data (Dialect)
open SysrepoAugeas.Term (Regex Pattern patternLanguage printYangType)

section Code

variable {Code : Type}

/-- `struct lysc_pattern` -/
structure LyscPattern (Code : Type) where
  code : Code
  inverted : Bool

/-- Member of a union, `none` unless it is a string. -/
abbrev LyscMember (Code : Type) := Option (List (LyscPattern Code))

/-- `struct lysc_type` as far as it is read. -/
inductive LyscType (Code : Type) where
  | string (patterns : List (LyscPattern Code))
  | uint64
  | union (types : List (LyscMember Code))
  | other

/-- `struct augnode_pattern`; its groups are read like patterns of libyang. -/
abbrev AugnodePattern (Code : Type) := List (LyscPattern Code)

/-- `augds_init_auginfo_get_pattern` for the type of a node; `pcodeUint64` is for `[0-9]+`. -/
def augdsInitAuginfoGetPattern (pcodeUint64 : Code) (patterns : List (AugnodePattern Code)) :
    LyscType Code → Option (List (AugnodePattern Code))
  | .string own => some (patterns ++ [own])
  | .uint64 => some (patterns ++ [[⟨pcodeUint64, false⟩]])
  | .union types => types.foldlM (fun patterns type => type.map fun own => patterns ++ [own]) patterns
  | .other => none

/-- `PCRE2_ERROR_NOMATCH` -/
def pcre2ErrorNomatch : Int := -1

variable (pcre2Match : Code → Text → Int)

/-- Loop of `augds_pattern_label_match` over the groups of one pattern. -/
def groupsMatch (labelNode : Text) : AugnodePattern Code → Option Bool
  | [] => some true
  | group :: groups =>
      let r := pcre2Match group.code labelNode
      if r ≠ pcre2ErrorNomatch ∧ r < 0 then none
      else if r = 1 ∧ group.inverted then some false
      else if r = pcre2ErrorNomatch ∧ !group.inverted then some false
      else groupsMatch labelNode groups

/-- `augds_pattern_label_match`; no result stands for `SR_ERR_SYS`. -/
def augdsPatternLabelMatch (labelNode : Text) : List (AugnodePattern Code) → Option Bool
  | [] => some false
  | pattern :: patterns =>
      (groupsMatch pcre2Match labelNode pattern).bind fun groupMatch =>
        if groupMatch then some true else augdsPatternLabelMatch labelNode patterns

/-- The type that libyang makes of the printed one, with a compiler for single patterns. -/
def compiledType (compile : Pattern → Code) (members : List (List Pattern)) : LyscType Code :=
  let own (member : List Pattern) : List (LyscPattern Code) :=
    member.map fun pattern => ⟨compile pattern, pattern.invert⟩
  match members with
  | [only] => .string (own only)
  | members => .union (members.map fun member => some (own member))

end Code

section Matching

variable {Code : Type} {pcre2Match : Code → Text → Int}

/-- What PCRE2 promises for a pattern that matches the whole subject or not at all, and that has
no groups. -/
structure Pcre2 (pcre2Match : Code → Text → Int) (language : Code → Language Char) : Prop where
  matches_ : ∀ code word, word ∈ language code → pcre2Match code word = 1
  nomatch_ : ∀ code word, word ∉ language code → pcre2Match code word = pcre2ErrorNomatch

variable {language : Code → Language Char}

/-- A group accepts a label. -/
def LyscPattern.Accepts (language : Code → Language Char) (group : LyscPattern Code) (label : Text) :
    Prop :=
  label ∈ language group.code ↔ group.inverted = false

/-- Every group of a pattern is looked at until one does not accept the label. -/
theorem groupsMatch_eq (pcre2 : Pcre2 pcre2Match language) (label : Text)
    (groups : AugnodePattern Code) :
    ∃ result, groupsMatch pcre2Match label groups = some result ∧
      (result = true ↔ ∀ group ∈ groups, group.Accepts language label) := by
  induction groups with
  | nil => exact ⟨true, rfl, by simp⟩
  | cons group groups inductionHypothesis =>
      obtain ⟨result, run, exact_⟩ := inductionHypothesis
      rw [groupsMatch]
      by_cases member : label ∈ language group.code
      · have r := pcre2.matches_ group.code label member
        cases inverted : group.inverted with
        | true =>
            refine ⟨false, by simp [r, pcre2ErrorNomatch], ?_⟩
            simp [LyscPattern.Accepts, inverted, member]
        | false =>
            refine ⟨result, by simpa [r, pcre2ErrorNomatch] using run, ?_⟩
            simp [LyscPattern.Accepts, inverted, member, exact_]
      · have r := pcre2.nomatch_ group.code label member
        cases inverted : group.inverted with
        | true =>
            refine ⟨result, by simpa [r, pcre2ErrorNomatch] using run, ?_⟩
            simp [LyscPattern.Accepts, inverted, member, exact_]
        | false =>
            refine ⟨false, by simp [r, pcre2ErrorNomatch], ?_⟩
            simp [LyscPattern.Accepts, inverted, member]

theorem augdsPatternLabelMatch_eq (pcre2 : Pcre2 pcre2Match language) (label : Text)
    (patterns : List (AugnodePattern Code)) :
    ∃ result, augdsPatternLabelMatch pcre2Match label patterns = some result ∧
      (result = true ↔
        ∃ pattern ∈ patterns, ∀ group ∈ pattern, group.Accepts language label) := by
  induction patterns with
  | nil => exact ⟨false, rfl, by simp⟩
  | cons pattern patterns inductionHypothesis =>
      obtain ⟨result, run, exact_⟩ := inductionHypothesis
      obtain ⟨first, firstRun, firstExact⟩ := groupsMatch_eq pcre2 label pattern
      rw [augdsPatternLabelMatch, firstRun, Option.bind_some]
      cases first with
      | true => exact ⟨true, rfl, by simpa using .inl (firstExact.mp rfl)⟩
      | false =>
          refine ⟨result, run, ?_⟩
          have notFirst : ¬∀ group ∈ pattern, group.Accepts language label := by
            simpa using mt firstExact.mpr
          rw [exact_, List.exists_mem_cons_iff]
          exact (or_iff_right notFirst).symm

/-- The patterns that are taken from a union of strings. -/
theorem getPattern_union (pcodeUint64 : Code) (types : List (List (LyscPattern Code)))
    (patterns : List (AugnodePattern Code)) :
    augdsInitAuginfoGetPattern pcodeUint64 patterns (.union (types.map some)) =
      some (patterns ++ types) := by
  rw [augdsInitAuginfoGetPattern]
  induction types generalizing patterns with
  | nil => simp
  | cons type types inductionHypothesis =>
      rw [List.map_cons, List.foldlM_cons, Option.map_some, Option.bind_eq_bind, Option.bind_some,
        inductionHypothesis]
      simp

theorem getPattern_compiledType (pcodeUint64 : Code) (compile : Pattern → Code)
    (members : List (List Pattern)) :
    augdsInitAuginfoGetPattern pcodeUint64 [] (compiledType compile members) =
      some (members.map fun member => member.map fun pattern =>
        ⟨compile pattern, pattern.invert⟩) := by
  have ofUnion := getPattern_union pcodeUint64
    (members.map fun member => member.map fun pattern => (⟨compile pattern, pattern.invert⟩ :
      LyscPattern Code)) []
  rw [List.map_map, List.nil_append] at ofUnion
  unfold compiledType
  split
  · rfl
  · exact ofUnion

end Matching

section Labels

variable {Code : Type} {pcre2Match : Code → Text → Int} {dialects : Bool → Dialect}
  {makeRegexpLiteral : Text → Text} {nocase : Text → Bool}

/-- Codes are single letters. -/
def letterMatch (code label : Text) : Int := if label = code then 1 else pcre2ErrorNomatch

theorem letterMatch_pcre2 : Pcre2 letterMatch fun code => {code} where
  matches_ _ _ member := if_pos member
  nomatch_ _ _ missing := if_neg missing

theorem patternLanguage_letter {char : Char} (isPlain : char.isAlphanum) :
    patternLanguage Term.simpleDialect [char] = {[char]} := by
  rw [Term.patternLanguage_eq (Term.reads_single isPlain)]
  simp [Data.Level.language, Data.closedLanguage, Data.sequenceLanguage]

end Labels

end SysrepoAugeas.Load
