import SysrepoAugeas.Pattern.Substr
import SysrepoAugeas.Pattern.Tokens

/-!
# Identifiers from vertical bars

A token without question marks is expanded at its first `(` and its first `)`.
That is the language of the token as long as there is at most one group in it.
-/

namespace SysrepoAugeas.Pattern

open SysrepoAugeas.Label (Text)

namespace Patt

/-- What is behind the first `)`. -/
def afterClose (text : Text) : Text := (text.dropWhile fun char => char != ')').tail

/-- The identifiers that the code makes of a token. -/
def expansions : Patt → List Text
  | nil | bar _ => [[]]
  | letter char rest => rest.expansions.map (char.1 :: ·)
  | group inner rest =>
      inner.alternatives.map fun branch =>
        branch.print ++ afterClose (inner.print ++ ')' :: rest.print)

theorem mem_print {patt : Patt} {char : Char} (member : char ∈ patt.print) :
    isNameChar char = true ∨ char = '(' ∨ char = ')' ∨ char = '|' := by
  induction patt with
  | nil => cases member
  | letter first rest inductionHypothesis =>
      obtain rfl | member := List.mem_cons.mp member
      · exact Or.inl first.2
      · exact inductionHypothesis member
  | bar rest inductionHypothesis =>
      obtain rfl | member := List.mem_cons.mp member
      · simp
      · exact inductionHypothesis member
  | group inner rest ofInner ofRest =>
      obtain rfl | member := List.mem_cons.mp member
      · simp
      · obtain member | member := List.mem_append.mp member
        · exact ofInner member
        · obtain rfl | member := List.mem_cons.mp member
          · simp
          · exact ofRest member

theorem open_mem_print {patt : Patt} : '(' ∈ patt.print ↔ patt.groups ≠ 0 := by
  induction patt with
  | nil => simp [print, groups]
  | letter char rest inductionHypothesis =>
      simp [print, groups, inductionHypothesis, (nameChar_ne char).1.symm]
  | bar rest inductionHypothesis => simp [print, groups, inductionHypothesis]
  | group inner rest _ _ => simp [print, groups]

theorem close_mem_print {patt : Patt} : ')' ∈ patt.print ↔ patt.groups ≠ 0 := by
  induction patt with
  | nil => simp [print, groups]
  | letter char rest inductionHypothesis =>
      simp [print, groups, inductionHypothesis, (nameChar_ne char).2.1.symm]
  | bar rest inductionHypothesis => simp [print, groups, inductionHypothesis]
  | group inner rest _ _ => simp [print, groups]

theorem nameChar_of_mem_sides (patt : Patt) : ∀ word : Text,
    word ∈ patt.sides.1 ∨ word ∈ patt.sides.2 → ∀ char ∈ word, isNameChar char = true := by
  induction patt with
  | nil =>
      rintro word (member | member)
      · rw [sides, Language.mem_one] at member
        simp [member]
      · exact absurd member (Language.notMem_zero word)
  | letter char rest inductionHypothesis =>
      rintro word (member | member)
      · obtain ⟨first, ofFirst, others, ofOthers, rfl⟩ := Language.mem_mul.mp member
        rw [Set.mem_singleton_iff.mp ofFirst]
        simpa [char.2] using inductionHypothesis others (Or.inl ofOthers)
      · exact inductionHypothesis word (Or.inr member)
  | bar rest inductionHypothesis =>
      rintro word (member | member)
      · rw [sides, Language.mem_one] at member
        simp [member]
      · exact inductionHypothesis word ((Language.mem_add _ _ _).mp member)
  | group inner rest ofInner ofRest =>
      rintro word (member | member)
      · obtain ⟨first, inFirst, others, inOthers, rfl⟩ := Language.mem_mul.mp member
        intro char inWord
        exact (List.mem_append.mp inWord).elim
          (ofInner first ((Language.mem_add _ _ _).mp inFirst) char)
          (ofRest others (Or.inl inOthers) char)
      · exact ofRest word (Or.inr member)

theorem nameChar_of_mem {patt : Patt} {word : Text} (member : word ∈ patt.language) :
    ∀ char ∈ word, isNameChar char = true :=
  nameChar_of_mem_sides patt word ((Language.mem_add _ _ _).mp member)

theorem mem_behind {patt : Patt} {word : Text} :
    word ∈ patt.sides.2 ↔ ∃ branch ∈ patt.behind, word ∈ branch.language := by
  induction patt with
  | nil => simp [sides, behind, Language.notMem_zero]
  | letter char rest inductionHypothesis => exact inductionHypothesis
  | group inner rest _ ofRest => exact ofRest
  | bar rest inductionHypothesis =>
      rw [sides, Language.mem_add, inductionHypothesis, behind, ← language_head]
      simp only [List.mem_cons, or_and_right, exists_or, exists_eq_left]

theorem mem_alternatives {patt : Patt} {word : Text} :
    word ∈ patt.language ↔ ∃ branch ∈ patt.alternatives, word ∈ branch.language := by
  rw [language, Language.mem_add, mem_behind, alternatives, ← language_head]
  simp only [List.mem_cons, or_and_right, exists_or, exists_eq_left]

/-- Without groups an alternative is its only word. -/
theorem IsSingle.mem_flat {patt : Patt} (single : patt.IsSingle) (flat : patt.groups = 0)
    (word : Text) : word ∈ patt.language ↔ word = patt.print := by
  rw [← single.head_eq, language_head, single.head_eq]
  induction patt generalizing word with
  | nil => exact Language.mem_one word
  | bar rest _ => cases single
  | letter char rest inductionHypothesis =>
      rw [sides, Language.mem_mul]
      constructor
      · rintro ⟨first, ofFirst, others, ofOthers, rfl⟩
        rw [Set.mem_singleton_iff.mp ofFirst, (inductionHypothesis single flat _).mp ofOthers]
        rfl
      · rintro rfl
        exact ⟨[char.1], Set.mem_singleton _, rest.print, 
          (inductionHypothesis single flat _).mpr rfl, rfl⟩
  | group inner rest _ _ => exact absurd flat (by simp [groups])

theorem mem_print_of_mem {patt branch : Patt} (member : branch ∈ patt.alternatives) {char : Char}
    (inBranch : char ∈ branch.print) : char ∈ patt.print := by
  rw [print_eq, alternatives, join]
  obtain rfl | member := List.mem_cons.mp member
  · exact List.mem_append_left _ inBranch
  · exact List.mem_append_right _
      (List.mem_flatMap.mpr ⟨branch, member, List.mem_cons_of_mem _ inBranch⟩)

theorem groups_of_mem {patt branch : Patt} (flat : patt.groups = 0)
    (member : branch ∈ patt.alternatives) : branch.groups = 0 := by
  by_contra some
  exact open_mem_print.mp (mem_print_of_mem member (open_mem_print.mpr some)) flat

theorem afterClose_eq {front : Text} (first : ')' ∉ front) (text : Text) :
    afterClose (front ++ ')' :: text) = text := by
  have passed : ∀ char ∈ front, (char != ')') = true := by
    intro char member
    rw [bne_iff_ne]
    rintro rfl
    exact first member
  rw [afterClose, List.dropWhile_append_of_pos passed]
  simp

theorem afterClose_flat {inner : Patt} (flat : inner.groups = 0) (text : Text) :
    afterClose (inner.print ++ ')' :: text) = text :=
  afterClose_eq (fun member => close_mem_print.mp member flat) text

theorem mem_expansions {token : Patt} (single : token.IsSingle) (few : token.groups ≤ 1)
    {word : Text} : word ∈ token.expansions ↔ word ∈ token.language := by
  rw [← single.head_eq, language_head, single.head_eq]
  induction token generalizing word with
  | nil => simp [expansions, sides, Language.mem_one]
  | bar rest _ => cases single
  | letter char rest inductionHypothesis =>
      rw [expansions, List.mem_map, sides, Language.mem_mul]
      constructor
      · rintro ⟨others, ofOthers, rfl⟩
        exact ⟨[char.1], Set.mem_singleton _, others,
          (inductionHypothesis single few).mp ofOthers, rfl⟩
      · rintro ⟨first, ofFirst, others, ofOthers, rfl⟩
        rw [Set.mem_singleton_iff.mp ofFirst]
        exact ⟨others, (inductionHypothesis single few).mpr ofOthers, rfl⟩
  | group inner rest _ _ =>
      have restSingle : rest.IsSingle := single
      simp only [groups] at few
      have innerFlat : inner.groups = 0 := by omega
      have restFlat : rest.groups = 0 := by omega
      have restWord : ∀ word, word ∈ rest.sides.1 ↔ word = rest.print := by
        intro word
        rw [← language_head, restSingle.head_eq, restSingle.mem_flat restFlat word]
      rw [expansions, List.mem_map, sides, Language.mem_mul, afterClose_flat innerFlat]
      constructor
      · rintro ⟨branch, member, rfl⟩
        have branchWord := (isSingle_of_mem member).mem_flat (groups_of_mem innerFlat member)
        exact ⟨branch.print, mem_alternatives.mpr ⟨branch, member, (branchWord _).mpr rfl⟩,
          rest.print, (restWord _).mpr rfl, rfl⟩
      · rintro ⟨first, inFirst, others, inOthers, rfl⟩
        obtain ⟨branch, member, inBranch⟩ := mem_alternatives.mp inFirst
        have branchWord := (isSingle_of_mem member).mem_flat (groups_of_mem innerFlat member)
        rw [(branchWord _).mp inBranch, (restWord _).mp inOthers]
        exact ⟨branch, member, rfl⟩

/-- With more groups a parenthesis is left. -/
theorem exists_expansion {token : Patt} (single : token.IsSingle) (many : 1 < token.groups) :
    ∃ word ∈ token.expansions, '(' ∈ word ∨ ')' ∈ word := by
  induction token with
  | nil => cases many
  | bar rest _ => cases single
  | letter char rest inductionHypothesis =>
      obtain ⟨word, member, paren⟩ := inductionHypothesis single many
      exact ⟨char.1 :: word, List.mem_map.mpr ⟨word, member, rfl⟩,
        paren.imp (List.mem_cons_of_mem _) (List.mem_cons_of_mem _)⟩
  | group inner rest _ _ =>
      refine ⟨_, List.mem_map.mpr ⟨inner.head, List.mem_cons_self, rfl⟩, ?_⟩
      simp only [groups] at many
      by_cases flat : inner.groups = 0
      · have more : rest.groups ≠ 0 := by omega
        rw [afterClose_flat flat]
        exact Or.inl (List.mem_append_right _ (open_mem_print.mpr more))
      · obtain ⟨front, back, same, first⟩ :=
          List.eq_append_cons_of_mem (close_mem_print.mpr flat)
        rw [same, List.append_assoc, List.cons_append, afterClose_eq first]
        exact Or.inr (List.mem_append_right _ (List.mem_append_right _ List.mem_cons_self))

theorem expansions_flat {token : Patt} (single : token.IsSingle) (flat : token.groups = 0) :
    token.expansions = [token.print] := by
  induction token with
  | nil => rfl
  | bar rest _ => cases single
  | letter char rest inductionHypothesis =>
      rw [expansions, inductionHypothesis single flat]
      rfl
  | group inner rest _ _ => exact absurd flat (by simp [groups])

/-- A token with groups up to its first `(`. -/
theorem exists_group {token : Patt} (single : token.IsSingle) (proper : token.othersStart = true)
    (grouped : token.groups ≠ 0) :
    ∃ (before : Text) (inner rest : Patt), '(' ∉ before ∧ ')' ∉ before ∧ inner.Proper ∧
      token.print = before ++ '(' :: (inner.print ++ ')' :: rest.print) ∧
      token.expansions = inner.alternatives.map fun branch =>
        before ++ branch.print ++ afterClose (inner.print ++ ')' :: rest.print) := by
  induction token with
  | nil => exact absurd rfl grouped
  | bar rest _ => cases single
  | letter char rest inductionHypothesis =>
      obtain ⟨before, inner, behind, noOpen, noClose, innerProper, printed, expanded⟩ :=
        inductionHypothesis single proper grouped
      obtain ⟨notOpen, notClose, _⟩ := nameChar_ne char
      refine ⟨char.1 :: before, inner, behind, ?_, ?_, innerProper, ?_, ?_⟩
      · simp [notOpen.symm, noOpen]
      · simp [notClose.symm, noClose]
      · rw [print, printed]
        rfl
      · rw [expansions, expanded, List.map_map]
        rfl
  | group inner rest _ _ =>
      simp only [othersStart, Bool.and_eq_true] at proper
      exact ⟨[], inner, rest, List.not_mem_nil, List.not_mem_nil, proper.1, rfl, rfl⟩

/-- The identifiers are texts with characters of names, parentheses and bars. -/
theorem expansions_text {token : Patt} (single : token.IsSingle) (proper : token.Proper)
    {word : Text} (member : word ∈ token.expansions) : word ≠ [] ∧ '[' ∉ word := by
  have noBracket : ∀ {patt : Patt}, '[' ∉ patt.print := by
    intro patt bracket
    have kinds := mem_print bracket
    exact absurd kinds (by decide)
  by_cases flat : token.groups = 0
  · rw [expansions_flat single flat, List.mem_singleton] at member
    rw [member]
    exact ⟨(print_starts proper.1 []).1, noBracket⟩
  · obtain ⟨before, inner, rest, _, _, innerProper, printed, expanded⟩ :=
      exists_group single proper.2 flat
    rw [expanded] at member
    obtain ⟨branch, inBranches, rfl⟩ := List.mem_map.mp member
    constructor
    · intro empty
      have branchEmpty := (List.append_eq_nil_iff.mp (List.append_eq_nil_iff.mp empty).1).2
      exact (print_starts (innerProper.of_mem inBranches).1 []).1 branchEmpty
    · have inToken : '[' ∉ before ++ '(' :: (inner.print ++ ')' :: rest.print) :=
        printed ▸ noBracket
      intro bracket
      obtain inFront | inAfter := List.mem_append.mp bracket
      · obtain inBefore | inBranch := List.mem_append.mp inFront
        · exact inToken (List.mem_append_left _ inBefore)
        · exact noBracket inBranch
      · apply inToken
        apply List.mem_append_right
        apply List.mem_cons_of_mem
        exact (List.dropWhile_sublist _).subset (List.mem_of_mem_tail inAfter)

end Patt

theorem idxOf?_append {before : Text} {char : Char} (first : char ∉ before) (text : Text) :
    (before ++ char :: text).idxOf? char = some before.length := by
  induction before with
  | nil => simp [List.idxOf?_cons]
  | cons other before inductionHypothesis =>
      rw [List.mem_cons, not_or] at first
      have differs : (other == char) = false := by simpa using Ne.symm first.1
      rw [List.cons_append, List.idxOf?_cons, differs, inductionHypothesis first.2]
      rfl

/-- What follows a token. -/
def Follows (text : Text) : Prop := text = [] ∨ text.head? = some '|'

section At

variable {token text : Text} (follows : Follows text)
include follows

theorem vbarAt_flat (noOpen : '(' ∉ token) (noClose : ')' ∉ token) (idx : Nat) :
    ayPatternIdentifierVbarAt (token ++ text) token.length idx =
      if idx = 0 then
        if ayMaxIdentSize ≤ token.length then some (.identLimit []) else some (.ident token)
      else some .identNotFound := by
  unfold ayPatternIdentifierVbarAt
  have noneOpen : token.idxOf? '(' = none := List.idxOf?_eq_none_iff.mpr noOpen
  have noneClose : token.idxOf? ')' = none := List.idxOf?_eq_none_iff.mpr noClose
  have follows : text = [] ∨ text.head? = some '|' := follows
  simp only [List.take_left, List.drop_left, noneOpen, noneClose, follows, not_true_eq_false,
    if_false]
  rfl

variable {before front mark post : Text}

/-- The text behind the prefix decides with the variations of the first group. -/
theorem vbarAt_group (noOpen : '(' ∉ before) (noClose : ')' ∉ before) (firstClose : ')' ∉ front)
    (isMark : mark = ['?'] ∨ mark = [] ∧ '?' ∉ post) (idx : Nat) :
    ayPatternIdentifierVbarAt (before ++ '(' :: (front ++ ')' :: (mark ++ post)) ++ text)
        (before ++ '(' :: (front ++ ')' :: (mark ++ post))).length idx =
      if ayMaxIdentSize ≤ before.length then some (.identLimit [])
      else
        (ayPatternUnionToken (front ++ ')' :: (mark ++ post) ++ text) idx).map fun variation =>
          variation.elim .identNotFound fun (variation, variLen) =>
            if ayMaxIdentSize ≤ before.length + variLen then .identLimit before
            else if ayMaxIdentSize ≤ before.length + variLen + post.length then
              .identLimit (before ++ variation.take variLen)
            else .ident (before ++ variation.take variLen ++ post) := by
  have follows : text = [] ∨ text.head? = some '|' := follows
  have regroup : before ++ '(' :: (front ++ ')' :: (mark ++ post)) =
      (before ++ '(' :: front) ++ ')' :: (mark ++ post) := by
    simp
  have opened : (before ++ '(' :: (front ++ ')' :: (mark ++ post))).idxOf? '(' =
      some before.length :=
    idxOf?_append noOpen _
  have closed : (before ++ '(' :: (front ++ ')' :: (mark ++ post))).idxOf? ')' =
      some (before ++ '(' :: front).length := by
    rw [regroup]
    apply idxOf?_append
    simp [noClose, firstClose]
  have marked : (if (before ++ '(' :: (front ++ ')' :: (mark ++ post)) ++ text)[
      (before ++ '(' :: front).length + 1]? = some '?' then (before ++ '(' :: front).length + 1
      else (before ++ '(' :: front).length) = (before ++ '(' :: front).length + mark.length := by
    have reached : (before ++ '(' :: (front ++ ')' :: (mark ++ post)) ++ text)[
        (before ++ '(' :: front).length + 1]? = (mark ++ post ++ text).head? := by
      rw [regroup, List.append_assoc, List.getElem?_append_right (Nat.le_succ _)]
      simp [List.head?_eq_getElem?]
    rw [reached]
    obtain rfl | ⟨rfl, noMark⟩ := isMark
    · exact if_pos rfl
    · rw [if_neg, List.length_nil, Nat.add_zero]
      rw [List.nil_append]
      cases post with
      | nil => obtain rfl | bar := follows <;> simp_all
      | cons char post =>
          rintro same
          exact noMark (Option.some.inj same ▸ List.mem_cons_self)
  have behind : (before ++ '(' :: (front ++ ')' :: (mark ++ post))).drop
      ((before ++ '(' :: front).length + mark.length + 1) = post := by
    have split : (before ++ '(' :: front).length + mark.length + 1 =
        (before ++ '(' :: front).length + (1 + mark.length) := by omega
    rw [regroup, split, ← List.drop_drop, List.drop_left, ← List.drop_drop, List.drop_one,
      List.tail_cons, List.drop_left]
  have inGroup : (before ++ '(' :: (front ++ ')' :: (mark ++ post)) ++ text).drop
      (before.length + 1) = front ++ ')' :: (mark ++ post) ++ text := by
    rw [← List.drop_drop, List.append_assoc, List.drop_left]
    simp
  have size : (before ++ '(' :: (front ++ ')' :: (mark ++ post))).length =
      (before ++ '(' :: front).length + mark.length + 1 + post.length := by
    have ofMark : (mark ++ post).length = mark.length + post.length := List.length_append
    rw [regroup, List.length_append, List.length_cons]
    omega
  unfold ayPatternIdentifierVbarAt
  simp only [List.take_left, List.drop_left, opened, closed, follows, not_true_eq_false, if_false,
    Option.map_some, marked, Option.getD_some, reduceCtorEq, false_and, inGroup]
  split
  · rfl
  · congr 1
    funext variation
    cases variation with
    | none => rfl
    | some variation =>
        cases post with
        | nil =>
            have outside : ¬ (before ++ '(' :: front).length + mark.length + 1 <
                (before ++ '(' :: (front ++ ')' :: (mark ++ []))).length := by
              rw [size]
              exact Nat.lt_irrefl _
            simp only [Option.filter_some, outside, decide_false, Bool.false_eq_true, if_false,
              Option.map_none, Option.elim_none, Option.elim_some, List.length_nil, Nat.add_zero]
            rw [List.append_nil]
            split <;> rfl
        | cons char post =>
            have inside : (before ++ '(' :: front).length + mark.length + 1 <
                (before ++ '(' :: (front ++ ')' :: (mark ++ char :: post))).length := by
              rw [size, List.length_cons]
              omega
            have postLength : (before ++ '(' :: (front ++ ')' :: (mark ++ char :: post))).length -
                ((before ++ '(' :: front).length + mark.length + 1) = (char :: post).length := by
              rw [size]
              omega
            simp only [Option.filter_some, inside, decide_true, if_true, Option.map_some,
              Option.elim_some, postLength, behind]

end At

/-- The alternative with a number is found. -/
theorem unionToken_nth {patt branch : Patt} (proper : patt.Proper) {text : Text}
    (ends : text = [] ∨ text.head? = some ')') {idx : Nat}
    (nth : patt.alternatives[idx]? = some branch) :
    ∃ more, ayPatternUnionToken (patt.print ++ text) idx =
      some (some (branch.print ++ more, branch.print.length)) := by
  have headProper := proper.of_mem (List.mem_cons_self : patt.head ∈ patt.alternatives)
  have singles : ∀ patt' ∈ patt.behind, patt'.IsSingle ∧ patt'.starts = true := by
    intro other member
    have inside : other ∈ patt.alternatives := List.mem_cons_of_mem _ member
    exact ⟨Patt.isSingle_of_mem inside, (proper.of_mem inside).1⟩
  rw [Patt.print_eq patt, Patt.alternatives, Patt.join, List.append_assoc]
  cases idx with
  | zero =>
      obtain rfl := Option.some.inj nth
      exact ⟨_, unionToken_zero (Or.inl rfl : IsLead []) headProper.1 (Patt.behind_head patt)
        (ends_bars ends patt.behind)⟩
  | succ steps =>
      exact ⟨_, unionToken_succ (Or.inl rfl : IsLead []) headProper.1 (Patt.behind_head patt)
        singles ends nth⟩

theorem unionToken_beyond {patt : Patt} (proper : patt.Proper) {text : Text}
    (ends : text = [] ∨ text.head? = some ')') :
    ayPatternUnionToken (patt.print ++ text) patt.alternatives.length = some none := by
  have headProper := proper.of_mem (List.mem_cons_self : patt.head ∈ patt.alternatives)
  have singles : ∀ branch ∈ patt.behind, branch.IsSingle := fun branch member =>
    Patt.isSingle_of_mem (List.mem_cons_of_mem _ member)
  have missing := unionToken_missing (Or.inl rfl : IsLead []) headProper.1
    (Patt.behind_head patt) singles ends (Nat.lt_succ_self patt.behind.length)
  rw [Patt.print_eq patt, Patt.alternatives, Patt.join, List.append_assoc]
  exact missing

/-- A variation is written unless the limit is hit. -/
theorem vbarAt_expansion {token : Patt} (single : token.IsSingle) (proper : token.Proper)
    {text : Text} (follows : Follows text) {idx : Nat} (within : idx ≤ token.expansions.length) :
    (∃ buffer, ayPatternIdentifierVbarAt (token.print ++ text) token.print.length idx =
      some (.identLimit buffer)) ∨
    ayPatternIdentifierVbarAt (token.print ++ text) token.print.length idx =
      some (token.expansions[idx]?.elim .identNotFound .ident) := by
  by_cases flat : token.groups = 0
  · have noOpen : '(' ∉ token.print := fun member => Patt.open_mem_print.mp member flat
    have noClose : ')' ∉ token.print := fun member => Patt.close_mem_print.mp member flat
    rw [vbarAt_flat follows noOpen noClose, Patt.expansions_flat single flat]
    cases idx with
    | zero =>
        rw [if_pos rfl]
        split
        · exact Or.inl ⟨_, rfl⟩
        · exact Or.inr rfl
    | succ idx => exact Or.inr rfl
  · obtain ⟨before, inner, rest, noOpen, noClose, innerProper, printed, expanded⟩ :=
      Patt.exists_group single proper.2 flat
    have close : ')' ∈ inner.print ++ ')' :: rest.print :=
      List.mem_append_right _ List.mem_cons_self
    obtain ⟨front, post, same, firstClose⟩ := List.eq_append_cons_of_mem close
    have noMark : '?' ∉ post := by
      intro mark
      have inToken : '?' ∈ token.print := by
        rw [printed, same]
        simp [mark]
      exact absurd (Patt.mem_print inToken) (by decide)
    have behind : Patt.afterClose (inner.print ++ ')' :: rest.print) = post := by
      rw [same, Patt.afterClose_eq firstClose]
    have group := vbarAt_group follows noOpen noClose firstClose (.inr ⟨rfl, noMark⟩) idx
    simp only [List.nil_append] at group
    have ends : ')' :: rest.print ++ text = [] ∨
        (')' :: rest.print ++ text).head? = some ')' := Or.inr rfl
    have inText : inner.print ++ ')' :: rest.print ++ text =
        inner.print ++ (')' :: rest.print ++ text) := List.append_assoc _ _ _
    rw [← same, inText] at group
    rw [expanded, List.length_map] at within
    rw [printed, expanded, behind, group, List.getElem?_map]
    split
    · exact Or.inl ⟨_, rfl⟩
    · cases nth : inner.alternatives[idx]? with
      | none =>
          have last : idx = inner.alternatives.length := by
            have := List.getElem?_eq_none_iff.mp nth
            omega
          rw [last, unionToken_beyond innerProper ends]
          exact Or.inr rfl
      | some branch =>
          obtain ⟨more, found⟩ := unionToken_nth innerProper ends nth
          rw [found]
          simp only [Option.map_some, Option.elim_some, List.take_left]
          split
          · exact Or.inl ⟨_, rfl⟩
          · split
            · exact Or.inl ⟨_, rfl⟩
            · exact Or.inr rfl

section Loop

variable {ptoken : Text} {len idx : Nat} {idents : List Text} {buffer : Text}

theorem vbarFrom_ident
    (found : ayPatternIdentifierVbarAt ptoken len idx = some (.ident buffer)) :
    ayPatternIdentifierVbarFrom ptoken len idx idents =
      ayPatternIdentifierVbarFrom ptoken len (idx + 1) (ayPatternIdentifierAdd idents buffer) := by
  rw [ayPatternIdentifierVbarFrom]
  split <;> simp_all

theorem vbarFrom_notFound
    (ended : ayPatternIdentifierVbarAt ptoken len idx = some .identNotFound) :
    ayPatternIdentifierVbarFrom ptoken len idx idents = some ⟨true, idents, []⟩ := by
  rw [ayPatternIdentifierVbarFrom]
  split <;> simp_all

theorem vbarFrom_limit
    (limit : ayPatternIdentifierVbarAt ptoken len idx = some (.identLimit buffer)) :
    ayPatternIdentifierVbarFrom ptoken len idx idents = some ⟨false, idents, buffer⟩ := by
  rw [ayPatternIdentifierVbarFrom]
  split <;> simp_all

theorem not_limit {expansion : Expansion}
    (run : ayPatternIdentifierVbarFrom ptoken len idx idents = some expansion)
    (ended : expansion.ok = true) :
    ¬ ∃ buffer, ayPatternIdentifierVbarAt ptoken len idx = some (.identLimit buffer) := by
  rintro ⟨buffer, limit⟩
  rw [vbarFrom_limit limit, Option.some.injEq] at run
  rw [← run] at ended
  cases ended

/-- What the loop over the variations has stored when it ended without an error. -/
theorem vbarFrom_expansions {words : List Text}
    (each : ∀ idx ≤ words.length,
      (∃ buffer, ayPatternIdentifierVbarAt ptoken len idx = some (.identLimit buffer)) ∨
      ayPatternIdentifierVbarAt ptoken len idx = some (words[idx]?.elim .identNotFound .ident))
    (texts : ∀ word ∈ words, word ≠ [] ∧ '[' ∉ word) {left : Nat} {expansion : Expansion}
    (within : idx + left = words.length)
    (run : ayPatternIdentifierVbarFrom ptoken len idx idents = some expansion)
    (ended : expansion.ok = true) : expansion.idents = idents ++ words.drop idx := by
  induction left generalizing idx idents with
  | zero =>
      have reached := (each idx (by omega)).resolve_left (not_limit run ended)
      have last : words[idx]? = none := List.getElem?_eq_none_iff.mpr (by omega)
      rw [last] at reached
      rw [vbarFrom_notFound reached, Option.some.injEq] at run
      rw [← run, List.drop_eq_nil_of_le (by omega), List.append_nil]
  | succ left inductionHypothesis =>
      have reached := (each idx (by omega)).resolve_left (not_limit run ended)
      have inside : idx < words.length := by omega
      obtain ⟨nonempty, noBracket⟩ := texts words[idx] (List.getElem_mem inside)
      rw [List.getElem?_eq_getElem inside] at reached
      rw [vbarFrom_ident reached, ayPatternIdentifierAdd, if_neg nonempty,
        ayTransSubstrConversion_eq noBracket] at run
      rw [inductionHypothesis (by omega) run, List.drop_eq_getElem_cons inside, List.append_assoc,
        List.singleton_append]

end Loop

section Create

variable {token : Patt} {text : Text} {idents stored : List Text}

theorem not_mem_print (patt : Patt) : '?' ∉ patt.print ∧ '[' ∉ patt.print := by
  constructor <;> intro member <;> exact absurd (Patt.mem_print member) (by decide)

theorem not_nocase (proper : token.Proper) :
    ayIdentCharacterNocase (token.print ++ text) = false := by
  have nonempty := (print_starts proper.1 []).1
  have noBracket := (not_mem_print token).2
  cases printed : token.print with
  | nil => exact absurd printed nonempty
  | cons char rest =>
      have notBracket : char ≠ '[' := by
        rintro rfl
        exact noBracket (printed ▸ List.mem_cons_self)
      rw [List.cons_append]
      unfold ayIdentCharacterNocase
      split
      · rename_i same
        exact absurd (List.cons.inj same).1 notBracket
      · rfl

/-- Without question marks every token is valid. -/
theorem isValid_print (proper : token.Proper) (follows : Follows text) :
    ayPatternUnionTokenIsValid (token.print ++ text) token.print.length = true := by
  have noMark : ∀ i < token.print.length, (token.print ++ text)[i + 1]? ≠ some '?' := by
    intro i inside mark
    obtain within | last := Nat.lt_or_ge (i + 1) token.print.length
    · rw [List.getElem?_append_left within] at mark
      exact (not_mem_print token).1 (List.mem_of_getElem? mark)
    · have same : i + 1 = token.print.length := by omega
      rw [same, List.getElem?_append_right (Nat.le_refl _), Nat.sub_self,
        ← List.head?_eq_getElem?] at mark
      obtain rfl | bar := follows
      · cases mark
      · rw [bar] at mark
        exact absurd mark (by decide)
  have noCount : (List.range token.print.length).countP (fun i =>
      (token.print ++ text)[i]? == some ')' && (token.print ++ text)[i + 1]? == some '?') = 0 := by
    rw [List.countP_eq_zero]
    intro i inside
    simp [noMark i (List.mem_range.mp inside)]
  rw [ayPatternUnionTokenIsValid, not_nocase proper]
  simp only [noCount]
  rfl

theorem expandToken_print (single : token.IsSingle) (proper : token.Proper)
    (follows : Follows text)
    (expanded : expandToken (token.print ++ text) token.print.length idents = some stored) :
    stored = idents ++ token.expansions := by
  unfold expandToken at expanded
  rw [List.take_left, if_neg fun marks => (not_mem_print token).1 marks.1,
    if_neg (not_mem_print token).1, not_nocase proper, if_neg (by simp)] at expanded
  obtain ⟨expansion, run, ended⟩ := Option.bind_eq_some_iff.mp expanded
  split at ended
  · rename_i ok
    have written := vbarFrom_expansions
      (fun idx within => vbarAt_expansion single proper follows within)
      (fun word member => Patt.expansions_text single proper member) (Nat.zero_add _) run ok
    rw [List.drop_zero] at written
    rw [← written]
    exact (Option.some.inj ended).symm
  · cases ended

theorem createSubstrFrom_step {patt ptoken : Text} {len : Nat}
    (found : ayPatternUnionToken patt 0 = some (some (ptoken, len))) :
    createSubstrFrom patt idents =
      if ayPatternUnionTokenIsValid ptoken len then
        (expandToken ptoken len idents).bind fun idents => createSubstrFrom (ptoken.drop len) idents
      else none := by
  rw [createSubstrFrom]
  split
  · simp_all
  · simp_all
  · rename_i same
    rw [found] at same
    cases same
    rfl

theorem createSubstrFrom_nil : createSubstrFrom [] idents = some idents := by
  rw [createSubstrFrom]
  rfl

theorem createSubstrFrom_lead {before : Text} (lead : IsLead before) (single : token.IsSingle)
    (proper : token.Proper) (follows : Follows text)
    (created : createSubstrFrom (before ++ (token.print ++ text)) idents = some stored) :
    createSubstrFrom text (idents ++ token.expansions) = some stored := by
  have found := unionToken_zero lead proper.1 single (follows.imp_right Or.inr)
  rw [createSubstrFrom_step found, if_pos (isValid_print proper follows)] at created
  obtain ⟨after, expanded, created⟩ := Option.bind_eq_some_iff.mp created
  rw [expandToken_print single proper follows expanded, List.drop_left] at created
  exact created

theorem follows_bars (tokens : List Patt) : Follows (Patt.bars tokens) := by
  cases tokens with
  | nil => exact Or.inl rfl
  | cons token tokens => exact Or.inr rfl

theorem createSubstrFrom_bars {tokens : List Patt}
    (each : ∀ token ∈ tokens, token.Proper ∧ token.IsSingle)
    (created : createSubstrFrom (Patt.bars tokens) idents = some stored) :
    stored = idents ++ tokens.flatMap Patt.expansions := by
  induction tokens generalizing idents with
  | nil =>
      have ended : createSubstrFrom (Patt.bars []) idents = some idents := createSubstrFrom_nil
      rw [ended, Option.some.injEq] at created
      rw [List.flatMap_nil, List.append_nil, created]
  | cons token tokens inductionHypothesis =>
      obtain ⟨proper, single⟩ := each token List.mem_cons_self
      have others : ∀ token ∈ tokens, token.Proper ∧ token.IsSingle := fun other member =>
        each other (List.mem_cons_of_mem token member)
      have rest := createSubstrFrom_lead (Or.inr rfl : IsLead ['|']) single proper
        (follows_bars tokens) created
      rw [inductionHypothesis others rest, List.flatMap_cons, List.append_assoc]

theorem ayTranslCreateSubstr_expansions {patt : Patt} (proper : patt.Proper)
    (created : ayTranslCreateSubstr patt.print = some stored) :
    stored = patt.tokens.flatMap Patt.expansions := by
  have each : ∀ token ∈ patt.tokens, token.Proper ∧ token.IsSingle :=
    fun token member => proper.of_mem_tokens member
  rw [ayTranslCreateSubstr, removeParentheses_print proper, Option.bind_some] at created
  cases tokens : patt.tokens with
  | nil => exact absurd tokens patt.tokens_ne_nil
  | cons token others =>
      rw [tokens] at each created
      obtain ⟨tokenProper, single⟩ := each token List.mem_cons_self
      have rest := createSubstrFrom_lead (Or.inl rfl : IsLead []) single tokenProper
        (follows_bars others) created
      exact createSubstrFrom_bars (fun other member => each other (List.mem_cons_of_mem _ member))
        rest

end Create

/-- The identifiers are the language of the pattern, without parentheses and bars. -/
def Identifies (idents : List Text) (patt : Patt) : Prop :=
  (∀ word, word ∈ idents ↔ word ∈ patt.language) ∧
  ∀ word ∈ idents, '(' ∉ word ∧ ')' ∉ word ∧ '|' ∉ word

/-- One group in a token is expanded, and more are not. -/
theorem ayTranslCreateSubstr_identifies {patt : Patt} (proper : patt.Proper) {idents : List Text}
    (created : ayTranslCreateSubstr patt.print = some idents) :
    Identifies idents patt ↔ ∀ token ∈ patt.tokens, token.groups ≤ 1 := by
  obtain rfl := ayTranslCreateSubstr_expansions proper created
  constructor
  · intro identifies token member
    by_contra many
    obtain ⟨word, inExpansions, paren⟩ := Patt.exists_expansion (proper.of_mem_tokens member).2
      (Nat.not_le.mp many)
    have clean := identifies.2 word (List.mem_flatMap.mpr ⟨token, member, inExpansions⟩)
    exact paren.elim clean.1 clean.2.1
  · intro few
    have words : ∀ word, word ∈ patt.tokens.flatMap Patt.expansions ↔ word ∈ patt.language := by
      intro word
      rw [List.mem_flatMap, Patt.mem_tokens]
      apply exists_congr
      intro token
      apply and_congr_right
      intro member
      exact Patt.mem_expansions (proper.of_mem_tokens member).2 (few token member)
    refine ⟨words, ?_⟩
    intro word member
    have names := Patt.nameChar_of_mem ((words word).mp member)
    refine ⟨?_, ?_, ?_⟩ <;> intro paren <;> exact absurd (names _ paren) (by decide)

/-- `x(a|b)|(c|d)` -/
def oneGroup : Patt :=
  .letter ⟨'x', rfl⟩ (.group (.letter ⟨'a', rfl⟩ (.bar (.letter ⟨'b', rfl⟩ .nil)))
    (.bar (.group (.letter ⟨'c', rfl⟩ (.bar (.letter ⟨'d', rfl⟩ .nil))) .nil)))

theorem ayTranslCreateSubstr_identifies_oneGroup :
    Identifies ["xa".toList, "xb".toList, "c".toList, "d".toList] oneGroup := by
  have proper : oneGroup.Proper := by decide
  have created : ayTranslCreateSubstr oneGroup.print =
      some ["xa".toList, "xb".toList, "c".toList, "d".toList] := by decide +kernel
  exact (ayTranslCreateSubstr_identifies proper created).mpr (by decide)

/-- `(a|b)(c|d)` -/
def twoGroups : Patt :=
  .group (.letter ⟨'a', rfl⟩ (.bar (.letter ⟨'b', rfl⟩ .nil)))
    (.group (.letter ⟨'c', rfl⟩ (.bar (.letter ⟨'d', rfl⟩ .nil))) .nil)

theorem twoGroups_misread :
    twoGroups.Proper ∧
      ayTranslCreateSubstr twoGroups.print = some ["a(c|d)".toList, "b(c|d)".toList] ∧
      ¬ Identifies ["a(c|d)".toList, "b(c|d)".toList] twoGroups := by
  refine ⟨by decide, by decide +kernel, ?_⟩
  intro identifies
  have clean := (identifies.2 "a(c|d)".toList List.mem_cons_self).1
  exact clean (by decide)

end SysrepoAugeas.Pattern
