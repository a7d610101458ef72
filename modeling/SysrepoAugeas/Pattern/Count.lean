import Mathlib.Data.List.Forall2
import SysrepoAugeas.Pattern.Outcome

/-!
# Number of identifiers

The record is allocated for a number of identifiers that is counted over the
pieces between all bars of the original pattern.  Case-insensitive words are
counted for every piece but the last.
-/

namespace SysrepoAugeas.Pattern

open SysrepoAugeas.Label (Text)

section Code

/-- `ay_pattern_identifier_nocase_variations`; the text goes on behind the piece. -/
def ayPatternIdentifierNocaseVariations (ptoken : Text) (len : Nat) : Nat :=
  let i := ((ptoken.take len).takeWhile (· == '(')).length
  if ¬ i < len then 0
  else if 4 ≤ len - i ∧ ayIdentCharacterNocase (ptoken.drop i) then 2 else 0

/-- Loop of `ay_pattern_idents_count` from `prev_vbar` on. -/
def ayPatternIdentsCount (prevVbar : Text) : Option Nat :=
  match _found : prevVbar.idxOf? '|' with
  | none => some (ayPatternIdentifierQmVariations prevVbar)
  | some i =>
      let vbar := prevVbar.drop (i + 1)
      if vbar = [] then none
      else
        (ayPatternIdentsCount vbar).map fun ret =>
          ayPatternIdentifierNocaseVariations prevVbar (i + 1) +
            ayPatternIdentifierQmVariations (prevVbar.take (i + 1)) + ret
termination_by prevVbar.length
decreasing_by
  obtain ⟨bound, -⟩ := List.idxOf?_eq_some_iff.mp _found
  rw [List.length_drop]
  omega

/-- `ay_ident_character_is_valid`: the number of further characters that belong to it. -/
def ayIdentCharacterIsValid : Text → Option Nat
  | [] => none
  | char :: rest =>
      if char.isAlphanum then some 0
      else if char = '\\' then
        if rest.head?.any ['.', '-', '+'].contains then some 1 else none
      else if [' ', '-', '_'].contains char then some 0 else none

/-- `ay_lense_pattern_has_idents` for the pattern of a key. -/
def ayLensePatternHasIdents : Text → Bool
  | [] => true
  | char :: rest =>
      if ['#', '(', '?', '|', '\n'].contains char then ayLensePatternHasIdents rest
      else if char = ')' then
        ayLensePatternHasIdents (rest.drop (if rest.head? = some '?' then 1 else 0))
      else
        let shift := if ayIdentPatternIsValid (char :: rest) then some 3 else none
        match (ayIdentCharacterIsValid (char :: rest)).or shift with
        | some shift => ayLensePatternHasIdents (rest.drop shift)
        | none => false
termination_by patt => patt.length
decreasing_by
  all_goals
    simp only [List.length_cons, List.length_drop]
    omega

end Code

section Pieces

/-- A case-insensitive word begins behind the parentheses. -/
def startsNocase (piece : Text) : Bool := ayIdentCharacterNocase (piece.dropWhile (· == '('))

/-- What is counted for a piece in front of a bar. -/
def weight (piece : Text) : Nat :=
  (if startsNocase piece then 2 else 0) + ayPatternIdentifierQmVariations piece

/-- What is counted for the pieces of a pattern. -/
def countPieces : List Text → Nat
  | [] => 0
  | [piece] => ayPatternIdentifierQmVariations piece
  | piece :: next :: pieces => weight piece + countPieces (next :: pieces)

/-- The last piece is a case-insensitive word. -/
def endsNocase (patt : Text) : Bool := (patt.splitOn '|').getLast?.any startsNocase

theorem nocase_iff {text : Text} :
    ayIdentCharacterNocase text = true ↔
      ∃ upper lower rest, text = '[' :: upper :: lower :: ']' :: rest ∧ upper.isUpper = true ∧
        lower.isLower = true ∧ upper = lower.toUpper := by
  unfold ayIdentCharacterNocase
  split
  · rename_i upper lower rest
    rw [Bool.and_eq_true, Bool.and_eq_true, beq_iff_eq]
    constructor
    · rintro ⟨⟨isUpper, isLower⟩, same⟩
      exact ⟨upper, lower, rest, rfl, isUpper, isLower, same⟩
    · rintro ⟨_, _, _, same, isUpper, isLower, isSame⟩
      cases same
      exact ⟨⟨isUpper, isLower⟩, isSame⟩
  · rename_i other
    constructor
    · intro absurdity
      cases absurdity
    · rintro ⟨upper, lower, rest, same, -⟩
      exact absurd same (other upper lower rest)

/-- What ends a piece or a token is not part of a block. -/
theorem nocase_append {char : Char} (operator : char = '|' ∨ char = ')') (piece text : Text) :
    ayIdentCharacterNocase (piece ++ char :: text) = ayIdentCharacterNocase piece := by
  rw [Bool.eq_iff_iff, nocase_iff, nocase_iff]
  constructor
  · rintro ⟨upper, lower, rest, same, isUpper, isLower, isSame⟩
    rcases piece with - | ⟨first, - | ⟨second, - | ⟨third, - | ⟨fourth, piece⟩⟩⟩⟩
    · cases same
      exact absurd operator (by decide)
    · cases same
      rcases operator with rfl | rfl <;> cases isUpper
    · cases same
      rcases operator with rfl | rfl <;> cases isLower
    · cases same
      exact absurd operator (by decide)
    · cases same
      exact ⟨_, _, piece, rfl, isUpper, isLower, isSame⟩
  · rintro ⟨upper, lower, rest, rfl, ofLetters⟩
    exact ⟨upper, lower, rest ++ char :: text, rfl, ofLetters⟩

theorem four_le_of_nocase {text : Text} (isNocase : ayIdentCharacterNocase text = true) :
    4 ≤ text.length := by
  obtain ⟨upper, lower, rest, rfl, -⟩ := nocase_iff.mp isNocase
  simp

/-- Nothing is counted with the text behind a bar. -/
theorem nocaseVariations_bar (piece text : Text) :
    ayPatternIdentifierNocaseVariations (piece ++ '|' :: text) (piece.length + 1) =
      if startsNocase piece then 2 else 0 := by
  have opens : (piece ++ ['|']).takeWhile (· == '(') = piece.takeWhile (· == '(') := by
    induction piece with
    | nil => rfl
    | cons char rest inductionHypothesis =>
        rw [List.cons_append, List.takeWhile_cons, List.takeWhile_cons, inductionHypothesis]
  have taken : (piece ++ '|' :: text).take (piece.length + 1) = piece ++ ['|'] :=
    List.take_length_add_append 1
  have parts : piece.takeWhile (· == '(') ++ piece.dropWhile (· == '(') = piece :=
    List.takeWhile_append_dropWhile
  have length : (piece.takeWhile (· == '(')).length + (piece.dropWhile (· == '(')).length =
      piece.length := by rw [← List.length_append, parts]
  have behind : (piece ++ '|' :: text).drop (piece.takeWhile (· == '(')).length =
      piece.dropWhile (· == '(') ++ '|' :: text := by
    have regrouped : piece ++ '|' :: text =
        piece.takeWhile (· == '(') ++ (piece.dropWhile (· == '(') ++ '|' :: text) := by
      rw [← List.append_assoc, parts]
    rw [regrouped, List.drop_left]
  unfold ayPatternIdentifierNocaseVariations
  dsimp only
  rw [taken, opens, behind, nocase_append (.inl rfl), if_neg (by omega), startsNocase]
  cases isNocase : ayIdentCharacterNocase (piece.dropWhile (· == '(')) with
  | false => simp
  | true =>
      have long := four_le_of_nocase isNocase
      rw [if_pos ⟨by omega, rfl⟩, if_pos rfl]

theorem qmVariations_append (piece text : Text) (noMark : '?' ∉ text) :
    ayPatternIdentifierQmVariations (piece ++ text) = ayPatternIdentifierQmVariations piece := by
  rw [ayPatternIdentifierQmVariations, ayPatternIdentifierQmVariations, ayPatternIdentifierQmCount,
    ayPatternIdentifierQmCount, List.count_append, List.count_eq_zero.mpr noMark, Nat.add_zero]

theorem countPieces_cons {pieces : List Text} (others : pieces ≠ []) (piece : Text) :
    countPieces (piece :: pieces) = weight piece + countPieces pieces := by
  cases pieces with
  | nil => exact absurd rfl others
  | cons next pieces => rfl

/-- The text up to the first bar. -/
theorem exists_of_idxOf_bar {patt : Text} {i : Nat} (found : patt.idxOf? '|' = some i) :
    ∃ piece, piece.length = i ∧ '|' ∉ piece ∧ patt = piece ++ '|' :: patt.drop (i + 1) := by
  obtain ⟨bound, isBar, first⟩ := List.idxOf?_eq_some_iff.mp found
  have behind := List.drop_eq_getElem_cons bound
  rw [isBar] at behind
  refine ⟨patt.take i, ?_, ?_, by rw [← behind, List.take_append_drop]⟩
  · rw [List.length_take]
    omega
  · intro member
    obtain ⟨j, inside, same⟩ := List.mem_iff_getElem.mp member
    rw [List.length_take] at inside
    rw [List.getElem_take] at same
    exact first j (by omega) same

theorem identsCount_pieces {patt : Text} {cnt : Nat} (counted : ayPatternIdentsCount patt = some cnt) :
    cnt = countPieces (patt.splitOn '|') := by
  fun_induction ayPatternIdentsCount patt generalizing cnt with
  | case1 patt noBar =>
      rw [List.splitOn_eq_singleton (List.idxOf?_eq_none_iff.mp noBar)]
      exact (Option.some.inj counted).symm
  | case2 => cases counted
  | case3 patt i found vbar _ =>
      rename_i inductionHypothesis
      obtain ⟨ret, ofRest, rfl⟩ := Option.map_eq_some_iff.mp counted
      obtain ⟨piece, length, noBar, split⟩ := exists_of_idxOf_bar found
      have ofPiece := nocaseVariations_bar piece (patt.drop (i + 1))
      have taken : patt.take (i + 1) = piece ++ ['|'] := by
        rw [split, ← length]
        exact List.take_length_add_append 1
      have pieces : patt.splitOn '|' = piece :: (patt.drop (i + 1)).splitOn '|' := by
        conv_lhs => rw [split]
        exact List.splitOn_append_cons_self_of_not_mem noBar _
      rw [← split, length] at ofPiece
      rw [taken, ofPiece, qmVariations_append piece ['|'] (by decide), pieces,
        countPieces_cons (List.splitOn_ne_nil _ _), weight, inductionHypothesis ofRest]

end Pieces

section Removal

/-- What is counted is the same for both pieces. -/
structure Alike (first second : Text) : Prop where
  marks : ayPatternIdentifierQmVariations first = ayPatternIdentifierQmVariations second
  nocase : startsNocase first = startsNocase second

/-- The parenthesis at the end of a group is removed from the piece. -/
def Closed (first second : Text) : Prop :=
  first = second ∨ ∃ front behind, first = front ++ ')' :: behind ∧ second = front ++ behind ∧
    (behind = [] ∨ behind.head? = some ')')

theorem startsNocase_closed (front : Text) {behind : Text}
    (ends : behind = [] ∨ behind.head? = some ')') :
    startsNocase (front ++ ')' :: behind) = startsNocase (front ++ behind) := by
  have split : behind = [] ∨ ∃ rest, behind = ')' :: rest := by
    cases behind with
    | nil => exact .inl rfl
    | cons char rest =>
        obtain none | isClose := ends
        · cases none
        · obtain rfl := Option.some.inj isClose
          exact .inr ⟨rest, rfl⟩
  induction front with
  | nil => obtain rfl | ⟨rest, rfl⟩ := split <;> rfl
  | cons char front inductionHypothesis =>
      by_cases isOpen : char = '('
      · rw [isOpen]
        exact inductionHypothesis
      · have whole (text : Text) : (char :: text).dropWhile (· == '(') = char :: text := by
          rw [List.dropWhile_cons, if_neg (by simpa using isOpen)]
        rw [startsNocase, startsNocase, List.cons_append, List.cons_append, whole, whole]
        have removed := nocase_append (.inr rfl) (char :: front) behind
        obtain rfl | ⟨rest, rfl⟩ := split
        · rw [List.append_nil]
          exact removed
        · exact removed.trans (nocase_append (.inr rfl) (char :: front) rest).symm

theorem Closed.alike {first second : Text} (closed : Closed first second) : Alike first second := by
  obtain rfl | ⟨front, behind, rfl, rfl, ends⟩ := closed
  · exact ⟨rfl, rfl⟩
  · refine ⟨?_, startsNocase_closed front ends⟩
    simp [ayPatternIdentifierQmVariations, ayPatternIdentifierQmCount]

theorem Alike.trans {first second third : Text} (one : Alike first second)
    (other : Alike second third) : Alike first third :=
  ⟨one.marks.trans other.marks, one.nocase.trans other.nocase⟩

theorem alike_open (piece : Text) : Alike ('(' :: piece) piece :=
  ⟨by simp [ayPatternIdentifierQmVariations, ayPatternIdentifierQmCount], rfl⟩

/-- The pieces of both patterns are counted alike. -/
def SameCount (first second : Text) : Prop :=
  List.Forall₂ Alike (first.splitOn '|') (second.splitOn '|')

theorem forall₂_modifyHead {first second : List Text} (char : Char)
    (closed : List.Forall₂ Closed first second) :
    List.Forall₂ Closed (first.modifyHead (char :: ·)) (second.modifyHead (char :: ·)) := by
  cases closed with
  | nil => exact .nil
  | cons ofHead ofTail =>
      refine .cons ?_ ofTail
      obtain rfl | ⟨front, behind, rfl, rfl, ends⟩ := ofHead
      · exact .inl rfl
      · exact .inr ⟨char :: front, behind, rfl, rfl, ends⟩

theorem splitOn_cons_of_ne {char : Char} (notBar : char ≠ '|') (text : Text) :
    (char :: text).splitOn '|' = (text.splitOn '|').modifyHead (char :: ·) := by
  rw [List.splitOn_cons_eq_if_modifyHead, if_neg (by simpa using notBar)]

theorem splitOn_bar (text : Text) : ('|' :: text).splitOn '|' = [] :: text.splitOn '|' :=
  List.splitOn_append_cons_self [] text

theorem splitOn_close (inner : Text) {rest : Text} (ends : Ends rest) :
    List.Forall₂ Closed ((inner ++ ')' :: rest).splitOn '|') ((inner ++ rest).splitOn '|') := by
  induction inner with
  | nil =>
      have first : ∃ piece pieces, rest.splitOn '|' = piece :: pieces ∧
          (piece = [] ∨ piece.head? = some ')') := by
        cases rest with
        | nil => exact ⟨[], [], rfl, .inl rfl⟩
        | cons char rest =>
            obtain none | close | bar := ends
            · cases none
            · obtain rfl := Option.some.inj close
              rw [splitOn_cons_of_ne (by decide)]
              cases pieces : rest.splitOn '|' with
              | nil => exact absurd pieces (List.splitOn_ne_nil _ _)
              | cons piece pieces => exact ⟨_, _, rfl, .inr rfl⟩
            · obtain rfl := Option.some.inj bar
              exact ⟨[], _, splitOn_bar rest, .inl rfl⟩
      obtain ⟨piece, pieces, split, startsSo⟩ := first
      rw [List.nil_append, List.nil_append, splitOn_cons_of_ne (by decide), split]
      exact .cons (.inr ⟨[], piece, rfl, rfl, startsSo⟩) (List.forall₂_same.mpr fun _ _ => .inl rfl)
  | cons char inner inductionHypothesis =>
      rw [List.cons_append, List.cons_append]
      by_cases isBar : char = '|'
      · rw [isBar, splitOn_bar, splitOn_bar]
        exact .cons (.inl rfl) inductionHypothesis
      · rw [splitOn_cons_of_ne isBar, splitOn_cons_of_ne isBar]
        exact forall₂_modifyHead char inductionHypothesis

theorem SameCount.refl (patt : Text) : SameCount patt patt :=
  List.forall₂_same.mpr fun _ _ => ⟨rfl, rfl⟩

theorem forall₂_trans {first second third : List Text} (one : List.Forall₂ Alike first second)
    (other : List.Forall₂ Alike second third) : List.Forall₂ Alike first third := by
  induction one generalizing third with
  | nil => exact other
  | cons ofHead _ inductionHypothesis =>
      cases other with
      | cons ofNext ofTail => exact .cons (ofHead.trans ofNext) (inductionHypothesis ofTail)

theorem SameCount.bar {first second : Text} (same : SameCount first second) :
    SameCount ('|' :: first) ('|' :: second) := by
  rw [SameCount, splitOn_bar, splitOn_bar]
  exact .cons ⟨rfl, rfl⟩ same

theorem sameCount_group (inner : Text) {before rest : Text} (lead : IsLead before)
    (ends : Ends rest) :
    SameCount (before ++ ('(' :: (inner ++ [')']) ++ rest)) (before ++ (inner ++ rest)) := by
  have alike : SameCount ('(' :: (inner ++ [')']) ++ rest) (inner ++ rest) := by
    have closed := splitOn_close inner ends
    have split : '(' :: (inner ++ [')']) ++ rest = '(' :: (inner ++ ')' :: rest) := by simp
    rw [SameCount, split, splitOn_cons_of_ne (by decide)]
    generalize (inner ++ ')' :: rest).splitOn '|' = first at closed ⊢
    generalize (inner ++ rest).splitOn '|' = second at closed ⊢
    cases closed with
    | nil => exact .nil
    | cons ofHead ofTail =>
        exact .cons ((alike_open _).trans ofHead.alike) (ofTail.imp fun _ _ => Closed.alike)
  obtain rfl | rfl := lead
  · exact alike
  · exact alike.bar

theorem SameCount.append {first second : Text} (same : SameCount first second) (front : Text)
    (isBar : first.head? = some '|') (bar : second.head? = some '|') :
    SameCount (front ++ first) (front ++ second) := by
  obtain ⟨rest, rfl⟩ := List.head?_eq_some_iff.mp isBar
  obtain ⟨other, rfl⟩ := List.head?_eq_some_iff.mp bar
  rw [SameCount, splitOn_bar, splitOn_bar, List.forall₂_cons] at same
  rw [SameCount, List.splitOn_append_cons_self, List.splitOn_append_cons_self]
  exact List.rel_append (SameCount.refl front) same.2

/-- Nothing is found where a parenthesis closes. -/
theorem unionToken_close {text : Text} (isClose : text.head? = some ')') :
    ayPatternUnionToken text 0 = none := by
  obtain ⟨rest, rfl⟩ := List.head?_eq_some_iff.mp isClose
  simp [ayPatternUnionToken, unionScan]

theorem removeParentheses_close {text : Text} (isClose : text.head? = some ')') :
    ayPatternRemoveParentheses text = none := by
  have failed := unionToken_close isClose
  rw [ayPatternRemoveParentheses.eq_def]
  split <;> simp_all

/-- An enclosed token is a group. -/
theorem exists_group_of_enclosed {token rest : Text}
    (isEnclosed : enclosed (token ++ rest) token.length = true) (nonempty : token ≠ []) :
    ∃ inner, token = '(' :: (inner ++ [')']) := by
  have positive := List.length_pos_iff.mpr nonempty
  rw [enclosed, Bool.and_eq_true, Bool.and_eq_true, beq_iff_eq, beq_iff_eq,
    List.getElem?_append_left (by omega)] at isEnclosed
  obtain ⟨⟨isOpen, isClose⟩, -⟩ := isEnclosed
  rcases List.eq_nil_or_concat token with rfl | ⟨front, last, rfl⟩
  · exact absurd rfl nonempty
  · rw [List.concat_eq_append, List.length_append, List.length_singleton, Nat.add_sub_cancel,
      List.getElem?_concat_length] at isClose
    obtain rfl := Option.some.inj isClose
    cases front with
    | nil => cases isOpen
    | cons char inner =>
        obtain rfl := Option.some.inj isOpen
        exact ⟨inner, List.concat_eq_append⟩

/-- Removing parentheses changes nothing in what is counted. -/
theorem sameCount_removeParentheses {patt pattern : Text}
    (removed : ayPatternRemoveParentheses patt = some pattern) :
    SameCount patt pattern ∧ (patt.head? = some '|' → pattern.head? = some '|') := by
  fun_induction ayPatternRemoveParentheses patt generalizing pattern with
  | case1 => cases removed
  | case2 patt ended =>
      obtain rfl := Option.some.inj removed
      exact ⟨.refl _, id⟩
  | case3 patt ptoken len found front isEnclosed =>
      rename_i inductionHypothesis
      obtain ⟨before, token, rest, first, rfl, rfl⟩ := exists_firstToken found
      obtain ⟨inner, rfl⟩ := exists_group_of_enclosed isEnclosed first.nonempty
      have isFront : front = before := by
        have parts := first.split
        simp only [front, parts, List.length_append, Nat.add_sub_cancel, List.take_left]
      have next : front ++ (('(' :: (inner ++ [')']) ++ rest).take
          (('(' :: (inner ++ [')'])).length - 1)).drop 1 ++
          ('(' :: (inner ++ [')']) ++ rest).drop ('(' :: (inner ++ [')'])).length =
          before ++ (inner ++ rest) := by
        rw [isFront, List.drop_left]
        simp
      rw [next] at removed inductionHypothesis
      obtain ⟨ofNext, startsSo⟩ := inductionHypothesis removed
      have ofGroup := sameCount_group inner first.lead (first.ends.imp_right And.right)
      rw [first.split]
      refine ⟨forall₂_trans ofGroup ofNext, fun isBar => startsSo ?_⟩
      obtain rfl | rfl := first.lead
      · cases isBar
      · rfl
  | case4 patt ptoken len found front notEnclosed =>
      rename_i inductionHypothesis
      obtain ⟨before, token, rest, first, rfl, rfl⟩ := exists_firstToken found
      have isFront : front = before := by
        have parts := first.split
        simp only [front, parts, List.length_append, Nat.add_sub_cancel, List.take_left]
      rw [isFront, List.take_left, List.drop_left] at removed
      rw [List.drop_left] at inductionHypothesis
      obtain ⟨out, ofRest, rfl⟩ := Option.map_eq_some_iff.mp removed
      obtain ⟨sameRest, startsSo⟩ := inductionHypothesis ofRest
      rw [first.split, ← List.append_assoc]
      have sameHead (text : Text) : (before ++ token ++ text).head? = (before ++ token).head? :=
        List.head?_append_of_ne_nil _ (List.append_ne_nil_of_right_ne_nil before first.nonempty)
      refine ⟨?_, fun isBar => by rw [sameHead] at isBar ⊢; exact isBar⟩
      obtain noRest | ⟨-, isClose | isBar⟩ := first.ends
      · rw [noRest, removeParentheses_nil] at ofRest
        rw [noRest, ← Option.some.inj ofRest]
        exact .refl _
      · rw [removeParentheses_close isClose] at ofRest
        cases ofRest
      · exact sameRest.append (before ++ token) isBar (startsSo isBar)

end Removal

end SysrepoAugeas.Pattern
