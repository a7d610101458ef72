import SysrepoAugeas.Pattern.Count

/-!
# Room for the identifiers

What a token stores is at most what is counted for its pieces, except for a
case-insensitive word in the last piece.
-/

namespace SysrepoAugeas.Pattern

open SysrepoAugeas.Label (Text)

section Variations

theorem unionScan_bars (idx par cnt : Nat) (text start : Text) :
    (unionScan idx text start par cnt).2.2 ≤ cnt + text.count '|' := by
  induction text generalizing start par cnt with
  | nil => exact Nat.le_refl _
  | cons char rest inductionHypothesis =>
      rw [unionScan]
      by_cases isBar : char = '|'
      · rw [isBar, List.count_cons_self, if_neg (by decide), if_neg (by decide), if_pos rfl]
        split_ifs
        · exact (inductionHypothesis _ _ _).trans (by omega)
        · exact Nat.le_add_right cnt _
        · exact (inductionHypothesis _ _ _).trans (by omega)
        · exact (inductionHypothesis _ _ _).trans (by omega)
      · rw [List.count_cons_of_ne isBar, if_neg isBar]
        split_ifs
        · exact inductionHypothesis _ _ _
        · exact Nat.le_add_right cnt _
        · exact inductionHypothesis _ _ _
        · exact inductionHypothesis _ _ _

/-- The scan stops where the group is closed, whatever follows. -/
theorem unionScan_inside {idx par cnt : Nat} {piece more start : Text}
    (closed : isPiece (par + 1) piece = true) :
    (unionScan idx (piece ++ more) start par cnt).2.2 ≤ cnt + piece.count '|' := by
  induction piece generalizing start par cnt with
  | nil => simp [isPiece] at closed
  | cons char rest inductionHypothesis =>
      rw [isPiece] at closed
      rw [List.cons_append, unionScan]
      by_cases isOpen : char = '('
      · rw [if_pos isOpen] at closed ⊢
        rw [isOpen, List.count_cons_of_ne (by decide)]
        exact inductionHypothesis closed
      · rw [if_neg isOpen] at closed ⊢
        by_cases isClose : char = ')'
        · rw [if_pos isClose, Bool.and_eq_true, Nat.add_sub_cancel] at closed
          rw [if_pos isClose, isClose, List.count_cons_of_ne (by decide)]
          split
          · exact Nat.le_add_right _ _
          · rename_i outside
            obtain ⟨less, rfl⟩ : ∃ less, par = less + 1 := ⟨par - 1, by omega⟩
            exact inductionHypothesis closed.2
        · rw [if_neg isClose, Bool.and_eq_true] at closed
          rw [if_neg isClose]
          by_cases isBar : char = '|'
          · rw [isBar, List.count_cons_self, if_pos rfl]
            split_ifs
            · exact (inductionHypothesis closed.2).trans (by omega)
            · exact Nat.le_add_right cnt _
            · exact (inductionHypothesis closed.2).trans (by omega)
            · exact (inductionHypothesis closed.2).trans (by omega)
          · rw [if_neg isBar, List.count_cons_of_ne isBar]
            exact inductionHypothesis closed.2

theorem unionToken_idx {text : Text} {idx : Nat} {token : Text × Nat}
    (found : ayPatternUnionToken text idx = some (some token)) :
    (unionScan idx (withoutLead text) (withoutLead text) 0 0).2.2 = idx := by
  have stripped : (if text.head? = some '|' then text.tail else text) = withoutLead text := rfl
  unfold ayPatternUnionToken at found
  dsimp only at found
  rw [stripped] at found
  split_ifs at found with empty noStart otherIdx noToken sameStart <;> cases found
  exact not_not.mp otherIdx

theorem count_withoutLead (text : Text) : (withoutLead text).count '|' ≤ text.count '|' := by
  rw [withoutLead]
  split
  · exact (List.tail_sublist text).count_le _
  · exact Nat.le_refl _

theorem unionToken_bars {text : Text} {idx : Nat} {token : Text × Nat}
    (found : ayPatternUnionToken text idx = some (some token)) : idx ≤ text.count '|' := by
  rw [← unionToken_idx found]
  exact (unionScan_bars _ _ _ _ _).trans (by rw [Nat.zero_add]; exact count_withoutLead text)

theorem unionToken_inside {piece more : Text} {idx : Nat} {token : Text × Nat}
    (closed : isPiece 1 piece = true)
    (found : ayPatternUnionToken (piece ++ more) idx = some (some token)) :
    idx ≤ piece.count '|' := by
  have same := unionToken_idx found
  cases piece with
  | nil => cases closed
  | cons char rest =>
      by_cases isBar : char = '|'
      · subst isBar
        have stripped : withoutLead ('|' :: rest ++ more) = rest ++ more := rfl
        rw [isPiece, if_neg (by decide), if_neg (by decide), Bool.and_eq_true] at closed
        rw [stripped] at same
        have bound := @unionScan_inside idx 0 0 rest more (rest ++ more) closed.2
        rw [List.count_cons_self]
        omega
      · have stripped : withoutLead (char :: rest ++ more) = char :: rest ++ more :=
          if_neg fun bar => isBar (Option.some.inj bar)
        rw [stripped] at same
        have bound := @unionScan_inside idx 0 0 (char :: rest) more (char :: rest ++ more) closed
        omega

theorem not_mem_close {piece : Text} (whole : isPiece 0 piece = true) (noOpen : '(' ∉ piece) :
    ')' ∉ piece := by
  induction piece with
  | nil => exact List.not_mem_nil
  | cons char rest inductionHypothesis =>
      rw [List.mem_cons, not_or] at noOpen
      rw [isPiece, if_neg (Ne.symm noOpen.1)] at whole
      by_cases isClose : char = ')'
      · rw [if_pos isClose] at whole
        cases whole
      · rw [if_neg isClose, Bool.and_eq_true] at whole
        rw [List.mem_cons, not_or]
        exact ⟨Ne.symm isClose, inductionHypothesis whole.2 noOpen.2⟩

theorem isPiece_open {front piece : Text} (noOpen : '(' ∉ front)
    (whole : isPiece 0 (front ++ '(' :: piece) = true) : isPiece 1 piece = true := by
  induction front with
  | nil => exact whole
  | cons char rest inductionHypothesis =>
      rw [List.mem_cons, not_or] at noOpen
      rw [List.cons_append, isPiece, if_neg (Ne.symm noOpen.1)] at whole
      by_cases isClose : char = ')'
      · rw [if_pos isClose] at whole
        cases whole
      · rw [if_neg isClose, Bool.and_eq_true] at whole
        exact inductionHypothesis noOpen.2 whole.2

/-- A variation has a number below that of the alternatives in the token. -/
theorem vbarAt_bars {token rest buffer : Text} {idx : Nat}
    (ends : rest = [] ∨ isPiece 0 token = true)
    (found : ayPatternIdentifierVbarAt (token ++ rest) token.length idx = some (.ident buffer)) :
    idx ≤ token.count '|' := by
  unfold ayPatternIdentifierVbarAt at found
  dsimp only at found
  rw [List.take_left] at found
  split_ifs at found with stops flat first long prefixLong
  any_goals cases found
  · rw [first]
    exact Nat.zero_le _
  · obtain ⟨variation, isToken, same⟩ := Option.map_eq_some_iff.mp found
    cases variation with
    | none => cases same
    | some variation =>
        cases opened : token.idxOf? '(' with
        | none =>
            obtain noRest | whole := ends
            · rw [opened, noRest, List.append_nil] at isToken
              exact (unionToken_bars isToken).trans ((List.drop_sublist _ _).count_le _)
            · have noOpen := List.idxOf?_eq_none_iff.mp opened
              have noClose := List.idxOf?_eq_none_iff.mpr (not_mem_close whole noOpen)
              rw [opened, noClose] at flat
              exact absurd ⟨rfl, rfl⟩ flat
        | some i =>
            obtain ⟨bound, isOpen, before⟩ := List.idxOf?_eq_some_iff.mp opened
            have behind := List.drop_eq_getElem_cons bound
            rw [isOpen] at behind
            have split : token = token.take i ++ '(' :: token.drop (i + 1) := by
              rw [← behind, List.take_append_drop]
            have inside : (token ++ rest).drop (i + 1) = token.drop (i + 1) ++ rest :=
              List.drop_append_of_le_length bound
            have fewer : (token.drop (i + 1)).count '|' ≤ token.count '|' :=
              (List.drop_sublist _ _).count_le _
            rw [opened, Option.getD_some, inside] at isToken
            obtain noRest | whole := ends
            · rw [noRest, List.append_nil] at isToken
              exact (unionToken_bars isToken).trans fewer
            · rw [split] at whole
              have noOpen : '(' ∉ token.take i := by
                intro member
                obtain ⟨j, within, same⟩ := List.mem_iff_getElem.mp member
                rw [List.length_take] at within
                rw [List.getElem_take] at same
                exact before j (by omega) same
              exact (unionToken_inside (isPiece_open noOpen whole) isToken).trans fewer

theorem length_identifierAdd_le (idents : List Text) (buffer : Text) :
    (ayPatternIdentifierAdd idents buffer).length ≤ idents.length + 1 := by
  rw [ayPatternIdentifierAdd]
  split
  · exact Nat.le_succ _
  · rw [List.length_append, List.length_singleton]

theorem length_vbarOutcomeFrom {ptoken : Text} {len idx bars : Nat} (outcome : Outcome)
    (each : ∀ idx buffer, ayPatternIdentifierVbarAt ptoken len idx = some (.ident buffer) → idx ≤ bars)
    (within : idx ≤ bars + 1) :
    (vbarOutcomeFrom ptoken len idx outcome).idents.length + idx ≤
      outcome.idents.length + (bars + 1) := by
  fun_induction vbarOutcomeFrom ptoken len idx outcome with
  | case1 => exact Nat.add_le_add_left within _
  | case2 => exact Nat.add_le_add_left within _
  | case3 => exact Nat.add_le_add_left within _
  | case4 => exact Nat.add_le_add_left within _
  | case5 idx outcome buffer found inductionHypothesis =>
      have bound := each idx buffer found
      have rest := inductionHypothesis (by omega)
      have one : (outcome.write buffer).add.idents.length ≤ outcome.idents.length + 1 :=
        length_identifierAdd_le outcome.idents buffer
      omega

variable {token rest : Text}

theorem length_vbarOutcome (ends : rest = [] ∨ isPiece 0 token = true) :
    (vbarOutcome (token ++ rest) token.length).idents.length ≤ token.count '|' + 1 := by
  have whole := @length_vbarOutcomeFrom (token ++ rest) token.length 0 (token.count '|') .start
    (fun _ _ found => vbarAt_bars ends found) (Nat.zero_le _)
  have noIdents : Outcome.start.idents.length = 0 := rfl
  rw [vbarOutcome]
  omega

theorem length_vbarQmOutcome (ends : rest = [] ∨ isPiece 0 token = true) :
    (vbarQmOutcome (token ++ rest) token.length).idents.length ≤ token.count '|' + 2 := by
  have ofVbar := length_vbarOutcome ends
  rw [vbarQmOutcome]
  cases ((token ++ rest).take token.length).idxOf? '?' with
  | none => exact Nat.zero_le _
  | some qm =>
      rw [Option.elim_some]
      dsimp only
      split
      · omega
      · cases vbarQmOwn (token ++ rest) token.length qm with
        | none => exact ofVbar.trans (Nat.le_succ _)
        | some own =>
            rw [Option.elim_some]
            split
            · exact ofVbar.trans (Nat.le_succ _)
            · exact (length_identifierAdd_le _ _).trans (Nat.add_le_add_right ofVbar 1)

theorem length_qmOutcomeFrom (ptoken : Text) (variations : List Nat) (outcome : Outcome) :
    (qmOutcomeFrom ptoken variations outcome).idents.length ≤
      outcome.idents.length + variations.length := by
  induction variations generalizing outcome with
  | nil => exact Nat.le_refl _
  | cons i variations inductionHypothesis =>
      rw [qmOutcomeFrom, List.length_cons]
      cases qmVariation ayMaxIdentSize ptoken i with
      | written buffer =>
          have one : (outcome.write buffer).add.idents.length ≤ outcome.idents.length + 1 :=
            length_identifierAdd_le outcome.idents buffer
          exact (inductionHypothesis _).trans (by omega)
      | dropped buffer =>
          have one : ((outcome.touch buffer).write []).add.idents.length ≤
              outcome.idents.length + 1 :=
            length_identifierAdd_le outcome.idents []
          exact (inductionHypothesis _).trans (by omega)
      | limit buffer => exact Nat.le_add_right _ _
      | aborted buffer => exact Nat.le_add_right _ _

theorem length_qmOutcome (ptoken : Text) :
    (qmOutcome ptoken).idents.length ≤ ayPatternIdentifierQmVariations ptoken := by
  rw [qmOutcome]
  dsimp only
  split
  · exact Nat.zero_le _
  · have whole := length_qmOutcomeFrom ptoken (List.range (ayPatternIdentifierQmVariations ptoken))
      .start
    have noIdents : Outcome.start.idents.length = 0 := rfl
    rw [List.length_range] at whole
    omega

theorem length_nocaseOutcome (ptoken : Text) (len : Nat) :
    (nocaseOutcome ptoken len).idents.length ≤ 2 := by
  have upper := length_identifierAdd_le [] (nocaseLetters ptoken len 1)
  have lower := length_identifierAdd_le (ayPatternIdentifierAdd [] (nocaseLetters ptoken len 1))
    (nocaseLetters ptoken len 2)
  rw [List.length_nil] at upper
  exact lower.trans (Nat.succ_le_succ upper)

end Variations

section Weights

/-- Variations of all pieces, with question marks in front of the text. -/
def marksFrom (marks : Nat) : Text → Nat
  | [] => 2 ^ marks
  | char :: rest =>
      if char = '|' then 2 ^ marks + marksFrom 0 rest
      else if char = '?' then marksFrom (marks + 1) rest
      else marksFrom marks rest

theorem marksFrom_ge (marks : Nat) (text : Text) : 2 ^ marks + text.count '|' ≤ marksFrom marks text := by
  induction text generalizing marks with
  | nil => exact Nat.le_refl _
  | cons char rest inductionHypothesis =>
      rw [marksFrom]
      split_ifs with isBar isMark
      · have ofRest := inductionHypothesis 0
        rw [isBar, List.count_cons_self]
        omega
      · have ofRest := inductionHypothesis (marks + 1)
        rw [Nat.pow_succ] at ofRest
        rw [List.count_cons_of_ne isBar]
        omega
      · rw [List.count_cons_of_ne isBar]
        exact inductionHypothesis marks

theorem marksFrom_mark {text : Text} (marked : '?' ∈ text) (marks : Nat) :
    2 ^ marks + text.count '|' + 1 ≤ marksFrom marks text := by
  induction text generalizing marks with
  | nil => cases marked
  | cons char rest inductionHypothesis =>
      rw [marksFrom]
      split_ifs with isBar isMark
      · have inRest : '?' ∈ rest := by simpa [isBar] using marked
        have ofRest := inductionHypothesis inRest 0
        rw [isBar, List.count_cons_self]
        omega
      · have ofRest := marksFrom_ge (marks + 1) rest
        have positive := Nat.two_pow_pos marks
        rw [Nat.pow_succ] at ofRest
        rw [List.count_cons_of_ne isBar]
        omega
      · have inRest : '?' ∈ rest := by simpa [Ne.symm isMark] using marked
        rw [List.count_cons_of_ne isBar]
        exact inductionHypothesis inRest marks

theorem marksFrom_append (marks : Nat) (text more : Text) :
    marksFrom marks text ≤ marksFrom marks (text ++ more) := by
  induction text generalizing marks with
  | nil => exact (Nat.le_add_right _ _).trans (marksFrom_ge marks more)
  | cons char rest inductionHypothesis =>
      rw [List.cons_append, marksFrom, marksFrom]
      split_ifs
      · exact Nat.add_le_add_left (inductionHypothesis 0) _
      · exact inductionHypothesis (marks + 1)
      · exact inductionHypothesis marks

theorem marksFrom_pieces (marks : Nat) (text : Text) : ∃ piece pieces,
    text.splitOn '|' = piece :: pieces ∧
      marksFrom marks text =
        2 ^ (marks + piece.count '?') + (pieces.map ayPatternIdentifierQmVariations).sum := by
  induction text generalizing marks with
  | nil => exact ⟨[], [], rfl, rfl⟩
  | cons char rest inductionHypothesis =>
      rw [marksFrom]
      split_ifs with isBar isMark
      · obtain ⟨piece, pieces, split, sum⟩ := inductionHypothesis 0
        refine ⟨[], piece :: pieces, by rw [isBar, splitOn_bar, split], ?_⟩
        rw [sum, Nat.zero_add, List.map_cons, List.sum_cons]
        rfl
      · obtain ⟨piece, pieces, split, sum⟩ := inductionHypothesis (marks + 1)
        refine ⟨char :: piece, pieces, by rw [splitOn_cons_of_ne isBar, split]; rfl, ?_⟩
        rw [sum, isMark, List.count_cons_self]
        congr 2
        omega
      · obtain ⟨piece, pieces, split, sum⟩ := inductionHypothesis marks
        refine ⟨char :: piece, pieces, by rw [splitOn_cons_of_ne isBar, split]; rfl, ?_⟩
        rw [sum, List.count_cons_of_ne isMark]

theorem marksFrom_zero (text : Text) :
    marksFrom 0 text = ((text.splitOn '|').map ayPatternIdentifierQmVariations).sum := by
  obtain ⟨piece, pieces, split, sum⟩ := marksFrom_pieces 0 text
  rw [split, sum, Nat.zero_add, List.map_cons, List.sum_cons]
  rfl

theorem sum_variations_le (pieces : List Text) :
    (pieces.map ayPatternIdentifierQmVariations).sum ≤ countPieces pieces := by
  induction pieces with
  | nil => exact Nat.le_refl _
  | cons piece pieces inductionHypothesis =>
      cases pieces with
      | nil => exact Nat.le_of_eq (by simp [countPieces])
      | cons next pieces =>
          rw [countPieces_cons (List.cons_ne_nil _ _), List.map_cons, List.sum_cons, weight]
          omega

theorem countPieces_append (front : List Text) {behind : List Text} (others : behind ≠ []) :
    countPieces (front ++ behind) = (front.map weight).sum + countPieces behind := by
  induction front with
  | nil => simp
  | cons piece front inductionHypothesis =>
      rw [List.cons_append, countPieces_cons (List.append_ne_nil_of_right_ne_nil _ others),
        inductionHypothesis, List.map_cons, List.sum_cons, Nat.add_assoc]

theorem sum_variations_le_weights (pieces : List Text) :
    (pieces.map ayPatternIdentifierQmVariations).sum ≤ (pieces.map weight).sum := by
  induction pieces with
  | nil => exact Nat.le_refl _
  | cons piece pieces inductionHypothesis =>
      rw [List.map_cons, List.map_cons, List.sum_cons, List.sum_cons, weight]
      omega

end Weights

section Tokens

variable {token rest : Text}

/-- A token stores no more than the variations of its pieces, or it is a case-insensitive word. -/
theorem length_tokenOutcome (ends : rest = [] ∨ isPiece 0 token = true)
    (follows : Ends rest) :
    (tokenOutcome (token ++ rest) token.length).idents.length ≤ marksFrom 0 token ∨
      ayIdentCharacterNocase token = true ∧
        (tokenOutcome (token ++ rest) token.length).idents.length ≤ 2 := by
  have pieces := marksFrom_ge 0 token
  rw [tokenOutcome, List.take_left]
  by_cases marked : '?' ∈ token
  · have more := marksFrom_mark marked 0
    by_cases bar : '|' ∈ token
    · rw [if_pos ⟨marked, bar⟩]
      exact .inl ((length_vbarQmOutcome ends).trans (by omega))
    · have whole := marksFrom_zero token
      rw [List.splitOn_eq_singleton bar, List.map_singleton, List.sum_singleton] at whole
      rw [if_neg fun both => bar both.2, if_pos marked, whole]
      exact .inl (length_qmOutcome token)
  · rw [if_neg fun both => marked both.1, if_neg marked]
    split
    · rename_i isNocase
      refine .inr ⟨?_, length_nocaseOutcome _ _⟩
      cases rest with
      | nil =>
          rw [List.append_nil] at isNocase
          exact isNocase
      | cons char more =>
          have operator : char = '|' ∨ char = ')' := by
            obtain none | close | bar := follows
            · cases none
            · exact .inr (Option.some.inj close)
            · exact .inl (Option.some.inj bar)
          rw [nocase_append operator] at isNocase
          exact isNocase
    · exact .inl ((length_vbarOutcome ends).trans (by omega))

/-- The first piece of a case-insensitive word. -/
theorem splitOn_nocase {text : Text} (isNocase : ayIdentCharacterNocase text = true) :
    ∃ piece pieces, text.splitOn '|' = piece :: pieces ∧ startsNocase piece = true := by
  obtain ⟨upper, lower, rest, rfl, isUpper, isLower, same⟩ := nocase_iff.mp isNocase
  have notBar : upper ≠ '|' ∧ lower ≠ '|' := by
    constructor
    · rintro rfl
      cases isUpper
    · rintro rfl
      cases isLower
  rw [splitOn_cons_of_ne (by decide), splitOn_cons_of_ne notBar.1, splitOn_cons_of_ne notBar.2,
    splitOn_cons_of_ne (by decide)]
  cases split : rest.splitOn '|' with
  | nil => exact absurd split (List.splitOn_ne_nil _ _)
  | cons piece pieces =>
      exact ⟨_, _, rfl, nocase_iff.mpr ⟨upper, lower, piece, rfl, isUpper, isLower, same⟩⟩

theorem one_le_variations (piece : Text) : 1 ≤ ayPatternIdentifierQmVariations piece :=
  Nat.one_le_two_pow

/-- In front of a bar every token is counted. -/
theorem length_tokenOutcome_bar (whole : isPiece 0 token = true) (isBar : rest.head? = some '|') :
    (tokenOutcome (token ++ rest) token.length).idents.length ≤
      ((token.splitOn '|').map weight).sum := by
  obtain few | ⟨isNocase, two⟩ := length_tokenOutcome (.inr whole) (.inr (.inr isBar))
  · rw [marksFrom_zero] at few
    exact few.trans (sum_variations_le_weights _)
  · obtain ⟨piece, pieces, split, starts⟩ := splitOn_nocase isNocase
    have one := one_le_variations piece
    rw [split, List.map_cons, List.sum_cons, weight, if_pos starts]
    omega

/-- Every token is counted when it does not begin with the last piece, or is not a word. -/
theorem length_tokenOutcome_last (ends : rest = [] ∨ isPiece 0 token = true) (follows : Ends rest)
    (notLast : endsNocase (token ++ rest) = false) :
    (tokenOutcome (token ++ rest) token.length).idents.length ≤
      countPieces ((token ++ rest).splitOn '|') := by
  obtain few | ⟨isNocase, two⟩ := length_tokenOutcome ends follows
  · have more := marksFrom_append 0 token rest
    rw [marksFrom_zero (token ++ rest)] at more
    exact (few.trans more).trans (sum_variations_le _)
  · have inText : ayIdentCharacterNocase (token ++ rest) = true := by
      obtain ⟨upper, lower, behind, rfl, ofLetters⟩ := nocase_iff.mp isNocase
      exact nocase_iff.mpr ⟨upper, lower, behind ++ rest, rfl, ofLetters⟩
    obtain ⟨piece, pieces, split, starts⟩ := splitOn_nocase inText
    rw [endsNocase, split] at notLast
    rw [split]
    cases pieces with
    | nil =>
        rw [List.getLast?_singleton, Option.any_some, starts] at notLast
        cases notLast
    | cons next pieces =>
        have one := one_le_variations piece
        rw [countPieces_cons (List.cons_ne_nil _ _), weight, if_pos starts]
        omega

end Tokens

section Run

theorem substrOutcomeFrom_nil : (substrOutcomeFrom []).idents = [] := by
  rw [substrOutcomeFrom.eq_def]
  rfl

theorem substrOutcomeFrom_close {text : Text} (isClose : text.head? = some ')') :
    (substrOutcomeFrom text).idents = [] := by
  have failed := unionToken_close isClose
  rw [substrOutcomeFrom.eq_def]
  split <;> simp_all [Outcome.abort, Outcome.start]

theorem endsNocase_append {rest : Text} (token : Text) (notLast : endsNocase (token ++ '|' :: rest) = false) :
    endsNocase rest = false := by
  rw [endsNocase, List.splitOn_append_cons_self, List.getLast?_append_of_ne_nil _ (List.splitOn_ne_nil _ _)]
    at notLast
  exact notLast

/-- The tokens from here on store no more than is counted for the pieces. -/
theorem length_substrOutcomeFrom {patt : Text} (notLast : endsNocase (withoutLead patt) = false) :
    (substrOutcomeFrom patt).idents.length ≤ countPieces ((withoutLead patt).splitOn '|') := by
  fun_induction substrOutcomeFrom patt with
  | case1 => exact Nat.zero_le _
  | case2 => exact Nat.zero_le _
  | case3 patt ptoken len found valid outcome isOk inductionHypothesis =>
      obtain ⟨before, token, rest, first, rfl, rfl⟩ := exists_firstToken found
      rw [first.body] at notLast ⊢
      have ends := first.ends.imp_right And.left
      have follows : Ends rest := first.ends.imp_right And.right
      have both : ((substrOutcomeFrom ((token ++ rest).drop token.length)).behind outcome).idents.length =
          outcome.idents.length + (substrOutcomeFrom rest).idents.length := by
        rw [List.drop_left]
        exact List.length_append
      rw [List.drop_left] at inductionHypothesis
      rw [both]
      obtain noRest | ⟨whole, isClose | isBar⟩ := first.ends
      · rw [noRest, substrOutcomeFrom_nil, ← noRest]
        exact length_tokenOutcome_last ends follows notLast
      · rw [substrOutcomeFrom_close isClose]
        exact length_tokenOutcome_last ends follows notLast
      · obtain ⟨more, rfl⟩ := List.head?_eq_some_iff.mp isBar
        have ofToken := length_tokenOutcome_bar whole isBar
        have ofRest := inductionHypothesis (endsNocase_append token notLast)
        have stripped : withoutLead ('|' :: more) = more := rfl
        rw [stripped] at ofRest
        rw [List.splitOn_append_cons_self, countPieces_append _ (List.splitOn_ne_nil _ _)]
        exact Nat.add_le_add ofToken ofRest
  | case4 patt ptoken len found valid outcome failed =>
      obtain ⟨before, token, rest, first, rfl, rfl⟩ := exists_firstToken found
      rw [first.body] at notLast ⊢
      exact length_tokenOutcome_last (first.ends.imp_right And.left) (first.ends.imp_right And.right)
        notLast
  | case5 => exact Nat.zero_le _

theorem SameCount.countPieces {first second : Text} (same : SameCount first second) :
    countPieces (first.splitOn '|') = countPieces (second.splitOn '|') := by
  rw [SameCount] at same
  generalize first.splitOn '|' = pieces at same ⊢
  generalize second.splitOn '|' = others at same ⊢
  induction same with
  | nil => rfl
  | cons ofHead ofTail inductionHypothesis =>
      cases ofTail with
      | nil => exact ofHead.marks
      | cons ofNext ofTail =>
          rw [countPieces_cons (List.cons_ne_nil _ _), countPieces_cons (List.cons_ne_nil _ _),
            inductionHypothesis, weight, weight, ofHead.marks, ofHead.nocase]

theorem SameCount.endsNocase {first second : Text} (same : SameCount first second) :
    endsNocase first = endsNocase second := by
  rw [Pattern.endsNocase, Pattern.endsNocase]
  rw [SameCount] at same
  generalize first.splitOn '|' = pieces at same ⊢
  generalize second.splitOn '|' = others at same ⊢
  induction same with
  | nil => rfl
  | cons ofHead ofTail inductionHypothesis =>
      cases ofTail with
      | nil => exact ofHead.nocase
      | cons ofNext ofTail =>
          rw [List.getLast?_cons_cons, List.getLast?_cons_cons]
          exact inductionHypothesis

theorem countPieces_withoutLead (patt : Text) :
    countPieces ((withoutLead patt).splitOn '|') ≤ countPieces (patt.splitOn '|') ∧
      endsNocase (withoutLead patt) = endsNocase patt := by
  rw [withoutLead]
  split
  · rename_i isBar
    obtain ⟨rest, rfl⟩ := List.head?_eq_some_iff.mp isBar
    rw [List.tail_cons, splitOn_bar, countPieces_cons (List.splitOn_ne_nil _ _)]
    refine ⟨Nat.le_add_left _ _, ?_⟩
    rw [endsNocase, endsNocase, splitOn_bar]
    cases split : rest.splitOn '|' with
    | nil => exact absurd split (List.splitOn_ne_nil _ _)
    | cons piece pieces => rw [List.getLast?_cons_cons]
  · exact ⟨Nat.le_refl _, rfl⟩

end Run

end SysrepoAugeas.Pattern
