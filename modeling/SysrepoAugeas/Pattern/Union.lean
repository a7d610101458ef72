import SysrepoAugeas.Label.Path

/-!
# Alternatives of a pattern

A token is an alternative outside of all groups.  A pointer into the pattern is
the text it points to; an assertion that fails is an outer `none`.
-/

namespace SysrepoAugeas.Pattern

open SysrepoAugeas.Label (Text)

section Code

/-- Loop of `ay_pattern_union_token`: the start of the token, where the loop stopped, and the
number of the token there. -/
def unionScan (idx : Nat) : Text → Text → Nat → Nat → Text × Text × Nat
  | [], start, _, cnt => (start, [], cnt)
  | char :: rest, start, par, cnt =>
      if char = '(' then unionScan idx rest start (par + 1) cnt
      else if char = ')' then
        if par = 0 then (start, char :: rest, cnt) else unionScan idx rest start (par - 1) cnt
      else if char = '|' then
        if par ≠ 0 then unionScan idx rest start par cnt
        else if cnt = idx then (start, char :: rest, cnt)
        else if cnt + 1 = idx then unionScan idx rest rest par (cnt + 1)
        else unionScan idx rest start par (cnt + 1)
      else unionScan idx rest start par cnt

/-- `ay_pattern_union_token`: the token with what is behind it, and its length. -/
def ayPatternUnionToken (patt : Text) (idx : Nat) : Option (Option (Text × Nat)) :=
  if patt = [] then some none
  else
    let patt := if patt.head? = some '|' then patt.tail else patt
    let scanned := unionScan idx patt patt 0 0
    let start := scanned.1
    let stop := scanned.2.1
    if start = [] then none
    else if scanned.2.2 ≠ idx then some none
    else if start.length ≤ stop.length then none
    else if start = patt ∧ idx ≠ 0 then some none
    else some (some (start, start.length - stop.length))

theorem unionScan_start_le {idx par cnt : Nat} {iter start : Text}
    (within : iter.length ≤ start.length) :
    (unionScan idx iter start par cnt).1.length ≤ start.length := by
  induction iter generalizing start par cnt with
  | nil => exact Nat.le_refl _
  | cons char rest inductionHypothesis =>
      rw [List.length_cons] at within
      have shorter : rest.length ≤ start.length := by omega
      rw [unionScan]
      split_ifs
      any_goals exact inductionHypothesis shorter
      · exact Nat.le_refl _
      · exact Nat.le_refl _
      · exact (inductionHypothesis (Nat.le_refl _)).trans shorter

theorem unionScan_cnt_le (idx par cnt : Nat) (iter start : Text) :
    (unionScan idx iter start par cnt).2.2 ≤ cnt + iter.length := by
  induction iter generalizing start par cnt with
  | nil => exact Nat.le_refl _
  | cons char rest inductionHypothesis =>
      rw [unionScan, List.length_cons]
      split_ifs
      any_goals exact Nat.le_add_right cnt _
      all_goals first
        | exact (inductionHypothesis _ _ _).trans (by omega)

/-- A token that is found is not empty and within the pattern. -/
theorem unionToken_bounds {patt ptoken : Text} {idx len : Nat}
    (found : ayPatternUnionToken patt idx = some (some (ptoken, len))) :
    ptoken.length ≤ patt.length ∧ 0 < len ∧ len ≤ ptoken.length ∧ idx ≤ patt.length := by
  unfold ayPatternUnionToken at found
  have tailLe : ∀ patt : Text,
      (if patt.head? = some '|' then patt.tail else patt).length ≤ patt.length := by
    intro patt
    split
    · rw [List.length_tail]
      exact Nat.sub_le _ _
    · exact Nat.le_refl _
  have within := tailLe patt
  revert found within
  generalize (if patt.head? = some '|' then patt.tail else patt) = inside
  intro found within
  dsimp only at found
  have startLe := @unionScan_start_le idx 0 0 inside inside (Nat.le_refl _)
  have cntLe := unionScan_cnt_le idx 0 0 inside inside
  split_ifs at found with empty noStart otherIdx noToken sameStart <;> cases found
  rw [not_not] at otherIdx
  omega

/-- Inner loop of `ay_pattern_remove_parentheses`: how far it comes. -/
def parenScan : Text → Nat → Nat
  | [], _ => 0
  | char :: rest, par =>
      if par = 0 then 0
      else if char = '(' then parenScan rest (par + 1) + 1
      else if char = ')' then parenScan rest (par - 1) + 1
      else parenScan rest par + 1

/-- The token is one pair of parentheses with all the rest inside. -/
def enclosed (ptoken : Text) (len : Nat) : Bool :=
  ptoken.head? == some '(' && ptoken[len - 1]? == some ')' &&
    parenScan ((ptoken.take len).drop 1) 1 + 1 == len

/-- `ay_pattern_remove_parentheses`, from `buf` on. -/
def ayPatternRemoveParentheses (buf : Text) : Option Text :=
  match _found : ayPatternUnionToken buf 0 with
  | none => none
  | some none => some buf
  | some (some (ptoken, len)) =>
      let before := buf.take (buf.length - ptoken.length)
      if _removed : enclosed ptoken len then
        ayPatternRemoveParentheses (before ++ (ptoken.take (len - 1)).drop 1 ++ ptoken.drop len)
      else
        (ayPatternRemoveParentheses (ptoken.drop len)).map (before ++ ptoken.take len ++ ·)
termination_by buf.length
decreasing_by
  all_goals
    have bounds := unionToken_bounds _found
    simp only [List.length_append, List.length_drop, List.length_take]
    omega

end Code

section Pieces

/-- Every parenthesis has its other one; `par` of them are open. -/
def isBalanced : Nat → Text → Bool
  | par, [] => par == 0
  | par, char :: rest =>
      if char = '(' then isBalanced (par + 1) rest
      else if char = ')' then par != 0 && isBalanced (par - 1) rest
      else isBalanced par rest

/-- Balanced, and without a bar outside of the groups. -/
def isPiece : Nat → Text → Bool
  | par, [] => par == 0
  | par, char :: rest =>
      if char = '(' then isPiece (par + 1) rest
      else if char = ')' then par != 0 && isPiece (par - 1) rest
      else (char != '|' || par != 0) && isPiece par rest

/-- The text is cut at the bars outside of the groups. -/
def cutAtBars : Nat → Text → List Text
  | _, [] => [[]]
  | par, char :: rest =>
      if char = '|' ∧ par = 0 then [] :: cutAtBars 0 rest
      else
        let cut := cutAtBars
          (if char = '(' then par + 1 else if char = ')' then par - 1 else par) rest
        (char :: cut.headD []) :: cut.tail

/-- Alternatives of a pattern. -/
def topAlternatives (patt : Text) : List Text := cutAtBars 0 patt

/-- Every alternative after a bar. -/
def withBars (pieces : List Text) : Text := pieces.flatMap ('|' :: ·)

/-- Alternatives with bars in between. -/
def joined : List Text → Text
  | [] => []
  | piece :: pieces => piece ++ withBars pieces

theorem withBars_cons (piece : Text) (pieces : List Text) (text : Text) :
    withBars (piece :: pieces) ++ text = '|' :: (piece ++ (withBars pieces ++ text)) := by
  simp [withBars]

theorem cutAtBars_ne_nil (par : Nat) (text : Text) : cutAtBars par text ≠ [] := by
  cases text with
  | nil => exact List.cons_ne_nil _ _
  | cons char rest =>
      rw [cutAtBars]
      split <;> exact List.cons_ne_nil _ _

theorem joined_cutAtBars (par : Nat) (text : Text) : joined (cutAtBars par text) = text := by
  induction text generalizing par with
  | nil => rfl
  | cons char rest inductionHypothesis =>
      rw [cutAtBars]
      split
      · rename_i isBar
        have inner := inductionHypothesis 0
        cases cut : cutAtBars 0 rest with
        | nil => exact absurd cut (cutAtBars_ne_nil 0 rest)
        | cons first others =>
            rw [cut, joined] at inner
            rw [joined, withBars, List.flatMap_cons, isBar.1, ← inner]
            rfl
      · dsimp only
        generalize (if char = '(' then par + 1 else if char = ')' then par - 1 else par) = next
        have inner := inductionHypothesis next
        cases cut : cutAtBars next rest with
        | nil => exact absurd cut (cutAtBars_ne_nil next rest)
        | cons first others =>
            rw [cut, joined] at inner
            rw [List.headD_cons, List.tail_cons, joined, List.cons_append, inner]

/-- The first piece closes what is open, the others are balanced. -/
theorem isPiece_cutAtBars {par : Nat} {text : Text} (balanced : isBalanced par text = true) :
    isPiece par ((cutAtBars par text).headD []) = true ∧
      ∀ piece ∈ (cutAtBars par text).tail, isPiece 0 piece = true := by
  induction text generalizing par with
  | nil => exact ⟨balanced, by simp [cutAtBars]⟩
  | cons char rest inductionHypothesis =>
      rw [isBalanced] at balanced
      rw [cutAtBars]
      split
      · rename_i isBar
        obtain ⟨rfl, rfl⟩ := isBar
        obtain ⟨first, others⟩ := inductionHypothesis balanced
        refine ⟨rfl, ?_⟩
        rw [List.tail_cons]
        cases cut : cutAtBars 0 rest with
        | nil => simp
        | cons piece pieces =>
            rw [cut] at first others
            rw [List.forall_mem_cons]
            exact ⟨first, others⟩
      · rename_i notBar
        dsimp only
        rw [List.headD_cons, List.tail_cons, isPiece]
        split
        · rename_i isOpen
          rw [if_pos isOpen] at balanced
          exact inductionHypothesis balanced
        · rename_i notOpen
          rw [if_neg notOpen] at balanced
          split
          · rename_i isClose
            rw [if_pos isClose, Bool.and_eq_true] at balanced
            rw [balanced.1, Bool.true_and]
            exact inductionHypothesis balanced.2
          · rename_i notClose
            rw [if_neg notClose] at balanced
            have inside : (char != '|' || par != 0) = true := by
              rw [Bool.or_eq_true, bne_iff_ne, bne_iff_ne]
              tauto
            rw [inside, Bool.true_and]
            exact inductionHypothesis balanced

/-- The first alternative is cut off in front of a bar or the end. -/
theorem cutAtBars_append {par : Nat} {piece text : Text} (whole : isPiece par piece = true)
    (ends : text = [] ∨ text.head? = some '|') :
    cutAtBars par (piece ++ text) = piece :: (cutAtBars 0 text).tail := by
  induction piece generalizing par with
  | nil =>
      obtain rfl : par = 0 := by simpa [isPiece] using whole
      rw [List.nil_append]
      obtain rfl | isBar := ends
      · rfl
      · cases text with
        | nil => cases isBar
        | cons char rest =>
            obtain rfl := Option.some.inj isBar
            rfl
  | cons char rest inductionHypothesis =>
      rw [isPiece] at whole
      rw [List.cons_append, cutAtBars]
      by_cases isOpen : char = '('
      · rw [if_pos isOpen] at whole
        rw [if_neg (fun both => absurd (isOpen.symm.trans both.1) (by decide)), if_pos isOpen,
          inductionHypothesis whole]
        rfl
      · rw [if_neg isOpen] at whole
        by_cases isClose : char = ')'
        · rw [if_pos isClose, Bool.and_eq_true] at whole
          rw [if_neg (fun both => absurd (isClose.symm.trans both.1) (by decide)), if_neg isOpen, if_pos isClose,
            inductionHypothesis whole.2]
          rfl
        · rw [if_neg isClose, Bool.and_eq_true, Bool.or_eq_true, bne_iff_ne, bne_iff_ne] at whole
          rw [if_neg (by tauto), if_neg isOpen, if_neg isClose, inductionHypothesis whole.2]
          rfl

end Pieces

section Scan

variable (idx : Nat) {start text piece : Text} {cnt : Nat} {pieces : List Text}

/-- Nothing happens within an alternative, from any depth on. -/
theorem unionScan_piece {par : Nat} (whole : isPiece par piece = true) :
    unionScan idx (piece ++ text) start par cnt = unionScan idx text start 0 cnt := by
  induction piece generalizing par with
  | nil =>
      obtain rfl : par = 0 := by simpa [isPiece] using whole
      rfl
  | cons char rest inductionHypothesis =>
      rw [isPiece] at whole
      rw [List.cons_append, unionScan]
      split
      · rename_i isOpen
        rw [if_pos isOpen] at whole
        exact inductionHypothesis whole
      · rename_i notOpen
        rw [if_neg notOpen] at whole
        split
        · rename_i isClose
          rw [if_pos isClose, Bool.and_eq_true, bne_iff_ne] at whole
          rw [if_neg whole.1]
          exact inductionHypothesis whole.2
        · rename_i notClose
          rw [if_neg notClose, Bool.and_eq_true, Bool.or_eq_true, bne_iff_ne, bne_iff_ne] at whole
          split
          · rename_i isBar
            have inside : par ≠ 0 := whole.1.resolve_left fun notBar => notBar isBar
            rw [if_pos inside]
            exact inductionHypothesis whole.2
          · exact inductionHypothesis whole.2

/-- Text behind an alternative. -/
def Ends (text : Text) : Prop := text = [] ∨ text.head? = some ')' ∨ text.head? = some '|'

theorem unionScan_stop (ends : Ends text) : unionScan idx text start 0 idx = (start, text, idx) := by
  cases text with
  | nil => rfl
  | cons char rest =>
      obtain none | close | bar := ends
      · cases none
      · obtain rfl := Option.some.inj close
        simp [unionScan]
      · obtain rfl := Option.some.inj bar
        simp [unionScan]

theorem ends_withBars (ends : text = [] ∨ text.head? = some ')') (pieces : List Text) :
    Ends (withBars pieces ++ text) := by
  cases pieces with
  | nil => exact ends.imp_right Or.inl
  | cons piece pieces => exact Or.inr (Or.inr rfl)

theorem unionScan_bar (text : Text) (below : cnt ≠ idx) :
    unionScan idx ('|' :: text) start 0 cnt =
      unionScan idx text (if cnt + 1 = idx then text else start) 0 (cnt + 1) := by
  rw [unionScan, if_neg (by decide), if_neg (by decide), if_pos rfl, if_neg (by simp),
    if_neg below]
  split <;> rfl

/-- Behind an alternative with a number below `idx`: the one with this number is found. -/
theorem unionScan_found (whole : ∀ piece ∈ pieces, isPiece 0 piece = true)
    (ends : text = [] ∨ text.head? = some ')') {steps : Nat}
    (reach : cnt + (steps + 1) = idx) (nth : pieces[steps]? = some piece) :
    unionScan idx (withBars pieces ++ text) start 0 cnt =
      (piece ++ (withBars (pieces.drop (steps + 1)) ++ text),
        withBars (pieces.drop (steps + 1)) ++ text, idx) := by
  induction pieces generalizing cnt start steps with
  | nil => cases nth
  | cons first pieces inductionHypothesis =>
      rw [List.forall_mem_cons] at whole
      rw [withBars_cons, unionScan_bar idx _ (by omega), unionScan_piece idx whole.1]
      cases steps with
      | zero =>
          obtain rfl := Option.some.inj nth
          obtain rfl := reach
          rw [if_pos rfl, unionScan_stop _ (ends_withBars ends pieces)]
          rfl
      | succ steps =>
          rw [inductionHypothesis whole.2 (by omega) nth]
          rfl

/-- There is no alternative with this number. -/
theorem unionScan_missing (whole : ∀ piece ∈ pieces, isPiece 0 piece = true)
    (ends : text = [] ∨ text.head? = some ')') (beyond : cnt + pieces.length < idx) :
    unionScan idx (withBars pieces ++ text) start 0 cnt = (start, text, cnt + pieces.length) := by
  induction pieces generalizing cnt start with
  | nil =>
      obtain rfl | close := ends
      · rfl
      · cases text with
        | nil => cases close
        | cons char rest =>
            obtain rfl := Option.some.inj close
            simp [withBars, unionScan]
  | cons first pieces inductionHypothesis =>
      rw [List.forall_mem_cons] at whole
      rw [List.length_cons] at beyond
      rw [withBars_cons, unionScan_bar idx _ (by omega), unionScan_piece idx whole.1,
        if_neg (by omega), inductionHypothesis whole.2 (by omega), List.length_cons]
      congr 2
      omega

end Scan

section Token

/-- Text behind which the first alternative starts. -/
def IsLead (before : Text) : Prop := before = [] ∨ before = ['|']

/-- One alternative, with something in it. -/
structure IsAlternative (piece : Text) : Prop where
  whole : isPiece 0 piece = true
  nonempty : piece ≠ []

theorem IsAlternative.noBar {piece : Text} (alternative : IsAlternative piece) (text : Text) :
    (piece ++ text).head? ≠ some '|' := by
  obtain ⟨whole, nonempty⟩ := alternative
  cases piece with
  | nil => exact absurd rfl nonempty
  | cons char rest =>
      rintro isBar
      obtain rfl := Option.some.inj isBar
      cases whole

variable {before text first : Text} {pieces : List Text}

/-- The pattern from its first alternative on is scanned. -/
theorem unionToken_scan (lead : IsLead before) (alternative : IsAlternative first) {idx cnt : Nat}
    {start stop : Text} (scanned : unionScan idx (first ++ text) (first ++ text) 0 0 = (start, stop, cnt)) :
    ayPatternUnionToken (before ++ (first ++ text)) idx =
      if start = [] then none
      else if cnt ≠ idx then some none
      else if start.length ≤ stop.length then none
      else if start = first ++ text ∧ idx ≠ 0 then some none
      else some (some (start, start.length - stop.length)) := by
  have filled : first ++ text ≠ [] := List.append_ne_nil_of_left_ne_nil alternative.nonempty text
  obtain rfl | rfl := lead
  · rw [ayPatternUnionToken, List.nil_append, if_neg filled]
    simp only [if_neg (alternative.noBar text), scanned]
  · rw [ayPatternUnionToken, if_neg (by simp)]
    simp only [List.cons_append, List.nil_append, List.head?_cons, if_true, List.tail_cons, scanned]

theorem unionToken_first (lead : IsLead before) (alternative : IsAlternative first)
    (ends : Ends text) :
    ayPatternUnionToken (before ++ (first ++ text)) 0 = some (some (first ++ text, first.length)) := by
  have positive := List.length_pos_iff.mpr alternative.nonempty
  have filled : first ++ text ≠ [] := List.append_ne_nil_of_left_ne_nil alternative.nonempty text
  have longer : ¬ (first ++ text).length ≤ text.length := by
    rw [List.length_append]
    omega
  have length : (first ++ text).length - text.length = first.length := by simp
  have scanned : unionScan 0 (first ++ text) (first ++ text) 0 0 = (first ++ text, text, 0) := by
    rw [unionScan_piece 0 alternative.whole, unionScan_stop 0 ends]
  rw [unionToken_scan lead alternative scanned, if_neg filled, if_neg (by simp), if_neg longer,
    if_neg (by simp), length]

theorem length_withBars_drop {steps : Nat} {piece : Text} (nth : pieces[steps]? = some piece) :
    piece.length + (withBars (pieces.drop (steps + 1))).length < (withBars pieces).length := by
  induction pieces generalizing steps with
  | nil => cases nth
  | cons first pieces inductionHypothesis =>
      have split : (withBars (first :: pieces)).length =
          first.length + (withBars pieces).length + 1 := by
        simp [withBars]
      cases steps with
      | zero =>
          obtain rfl := Option.some.inj nth
          rw [split]
          exact Nat.lt_succ_self _
      | succ steps =>
          rw [split]
          exact (inductionHypothesis nth).trans (by omega)

theorem unionToken_later (lead : IsLead before) (alternative : IsAlternative first)
    (alternatives : ∀ piece ∈ pieces, IsAlternative piece)
    (ends : text = [] ∨ text.head? = some ')') {steps : Nat} {piece : Text}
    (nth : pieces[steps]? = some piece) :
    ayPatternUnionToken (before ++ (first ++ (withBars pieces ++ text))) (steps + 1) =
      some (some (piece ++ (withBars (pieces.drop (steps + 1)) ++ text), piece.length)) := by
  have nonempty := (alternatives piece (List.mem_of_getElem? nth)).nonempty
  have positive := List.length_pos_iff.mpr nonempty
  have filled : piece ++ (withBars (pieces.drop (steps + 1)) ++ text) ≠ [] :=
    List.append_ne_nil_of_left_ne_nil nonempty _
  have longer : ¬ (piece ++ (withBars (pieces.drop (steps + 1)) ++ text)).length ≤
      (withBars (pieces.drop (steps + 1)) ++ text).length := by
    rw [List.length_append]
    omega
  have later : ¬ (piece ++ (withBars (pieces.drop (steps + 1)) ++ text) =
      first ++ (withBars pieces ++ text) ∧ steps + 1 ≠ 0) := by
    rintro ⟨same, _⟩
    have lengths := congrArg List.length same
    simp only [List.length_append] at lengths
    have shorter := length_withBars_drop nth
    omega
  have length : (piece ++ (withBars (pieces.drop (steps + 1)) ++ text)).length -
      (withBars (pieces.drop (steps + 1)) ++ text).length = piece.length := by
    rw [List.length_append, Nat.add_sub_cancel]
  have scanned : unionScan (steps + 1) (first ++ (withBars pieces ++ text))
      (first ++ (withBars pieces ++ text)) 0 0 =
        (piece ++ (withBars (pieces.drop (steps + 1)) ++ text),
          withBars (pieces.drop (steps + 1)) ++ text, steps + 1) := by
    rw [unionScan_piece _ alternative.whole,
      unionScan_found _ (fun piece member => (alternatives piece member).whole) ends
        (Nat.zero_add _) nth]
  rw [unionToken_scan lead alternative scanned, if_neg filled, if_neg (by simp), if_neg longer,
    if_neg later, length]

theorem unionToken_none (lead : IsLead before) (alternative : IsAlternative first)
    (whole : ∀ piece ∈ pieces, isPiece 0 piece = true)
    (ends : text = [] ∨ text.head? = some ')') {idx : Nat} (beyond : pieces.length < idx) :
    ayPatternUnionToken (before ++ (first ++ (withBars pieces ++ text))) idx = some none := by
  have filled : first ++ (withBars pieces ++ text) ≠ [] :=
    List.append_ne_nil_of_left_ne_nil alternative.nonempty _
  have differs : 0 + pieces.length ≠ idx := by omega
  have scanned : unionScan idx (first ++ (withBars pieces ++ text))
      (first ++ (withBars pieces ++ text)) 0 0 =
        (first ++ (withBars pieces ++ text), text, 0 + pieces.length) := by
    rw [unionScan_piece _ alternative.whole, unionScan_missing _ whole ends (by omega)]
  rw [unionToken_scan lead alternative scanned, if_neg filled, if_pos differs]

/-- The first token goes on up to what ends it. -/
theorem unionScan_first {par : Nat} (text start : Text) :
    ∃ piece stop, unionScan 0 text start par 0 = (start, stop, 0) ∧ text = piece ++ stop ∧
      (stop = [] ∨ isPiece par piece = true ∧ (stop.head? = some ')' ∨ stop.head? = some '|')) := by
  induction text generalizing par with
  | nil => exact ⟨[], [], rfl, rfl, .inl rfl⟩
  | cons char rest inductionHypothesis =>
      rw [unionScan]
      by_cases isOpen : char = '('
      · rw [if_pos isOpen]
        obtain ⟨piece, stop, scanned, same, ends⟩ := @inductionHypothesis (par + 1)
        refine ⟨char :: piece, stop, scanned, by rw [same]; rfl, ?_⟩
        rw [isPiece, if_pos isOpen]
        exact ends
      · rw [if_neg isOpen]
        by_cases isClose : char = ')'
        · rw [if_pos isClose]
          by_cases outside : par = 0
          · rw [if_pos outside, outside]
            exact ⟨[], char :: rest, rfl, rfl, .inr ⟨rfl, .inl (by rw [isClose]; rfl)⟩⟩
          · rw [if_neg outside]
            obtain ⟨piece, stop, scanned, same, ends⟩ := @inductionHypothesis (par - 1)
            refine ⟨char :: piece, stop, scanned, by rw [same]; rfl, ?_⟩
            have inside : (par != 0) = true := bne_iff_ne.mpr outside
            rw [isPiece, if_neg isOpen, if_pos isClose, inside, Bool.true_and]
            exact ends
        · rw [if_neg isClose]
          by_cases isBar : char = '|' ∧ par = 0
          · rw [if_pos isBar.1, if_neg (not_not.mpr isBar.2), if_pos rfl, isBar.2]
            exact ⟨[], char :: rest, rfl, rfl, .inr ⟨rfl, .inr (by rw [isBar.1]; rfl)⟩⟩
          · obtain ⟨piece, stop, scanned, same, ends⟩ := @inductionHypothesis par
            have goesOn : (if char = '|' then
                if par ≠ 0 then unionScan 0 rest start par 0
                else if 0 = 0 then (start, char :: rest, 0)
                else if 0 + 1 = 0 then unionScan 0 rest rest par (0 + 1)
                else unionScan 0 rest start par (0 + 1)
                else unionScan 0 rest start par 0) = (start, stop, 0) := by
              by_cases bar : char = '|'
              · rw [if_pos bar, if_pos fun outside => isBar ⟨bar, outside⟩, scanned]
              · rw [if_neg bar, scanned]
            refine ⟨char :: piece, stop, goesOn, by rw [same]; rfl, ?_⟩
            have inside : (char != '|' || par != 0) = true := by
              rw [Bool.or_eq_true, bne_iff_ne, bne_iff_ne]
              tauto
            rw [isPiece, if_neg isOpen, if_neg isClose, inside, Bool.true_and]
            exact ends

/-- The pattern without a bar in front. -/
def withoutLead (patt : Text) : Text := if patt.head? = some '|' then patt.tail else patt

/-- The first token of any pattern, with the text around it. -/
structure FirstToken (patt before token rest : Text) : Prop where
  lead : IsLead before
  split : patt = before ++ (token ++ rest)
  body : withoutLead patt = token ++ rest
  nonempty : token ≠ []
  ends : rest = [] ∨ isPiece 0 token = true ∧ (rest.head? = some ')' ∨ rest.head? = some '|')

theorem exists_firstToken {patt ptoken : Text} {len : Nat}
    (found : ayPatternUnionToken patt 0 = some (some (ptoken, len))) :
    ∃ before token rest, FirstToken patt before token rest ∧ ptoken = token ++ rest ∧
      len = token.length := by
  have lead : ∃ before, IsLead before ∧ patt = before ++ withoutLead patt := by
    rw [withoutLead]
    split
    · rename_i isBar
      obtain ⟨rest, rfl⟩ := List.head?_eq_some_iff.mp isBar
      exact ⟨['|'], .inr rfl, rfl⟩
    · exact ⟨[], .inl rfl, rfl⟩
  obtain ⟨before, isLead, same⟩ := lead
  have stripped : (if patt.head? = some '|' then patt.tail else patt) = withoutLead patt := rfl
  unfold ayPatternUnionToken at found
  dsimp only at found
  rw [stripped] at found
  obtain ⟨token, rest, scanned, split, ends⟩ := @unionScan_first 0 (withoutLead patt) (withoutLead patt)
  rw [scanned] at found
  dsimp only at found
  split_ifs at found with empty noStart otherIdx noToken sameStart <;> cases found
  have length : (withoutLead patt).length - rest.length = token.length := by
    rw [split, List.length_append, Nat.add_sub_cancel]
  refine ⟨before, token, rest, ⟨isLead, by rw [← split]; exact same, split, ?_, ends⟩, split, length⟩
  rintro rfl
  apply noToken
  rw [split]
  exact Nat.le_refl _

end Token

section Alternatives

/-- The loop that goes on behind every token. -/
def stepTokens (patt : Text) : Option (List Text) :=
  match _found : ayPatternUnionToken patt 0 with
  | none => none
  | some none => some []
  | some (some (ptoken, len)) => (stepTokens (ptoken.drop len)).map (ptoken.take len :: ·)
termination_by patt.length
decreasing_by
  have bounds := unionToken_bounds _found
  rw [List.length_drop]
  omega

theorem stepTokens_found {patt ptoken : Text} {len : Nat}
    (found : ayPatternUnionToken patt 0 = some (some (ptoken, len))) :
    stepTokens patt = (stepTokens (ptoken.drop len)).map (ptoken.take len :: ·) := by
  rw [stepTokens]
  split
  · rename_i other
    rw [found] at other
    cases other
  · rename_i other
    rw [found] at other
    cases other
  · rename_i same
    rw [found] at same
    cases same
    rfl

theorem stepTokens_joined {before first : Text} {pieces : List Text} (lead : IsLead before)
    (alternatives : ∀ piece ∈ first :: pieces, IsAlternative piece) :
    stepTokens (before ++ (first ++ withBars pieces)) = some (first :: pieces) := by
  induction pieces generalizing before first with
  | nil =>
      have found := @unionToken_first before [] first lead
        (alternatives first List.mem_cons_self) (.inl rfl)
      have ended : stepTokens [] = some [] := by
        rw [stepTokens]
        rfl
      have behindIt : withBars [] = [] := rfl
      rw [behindIt, stepTokens_found found, List.drop_left, List.take_left, ended]
      rfl
  | cons second pieces inductionHypothesis =>
      rw [List.forall_mem_cons] at alternatives
      have ends : Ends (withBars (second :: pieces)) := .inr (.inr rfl)
      have found := unionToken_first lead alternatives.1 ends
      have rest := @inductionHypothesis ['|'] second (.inr rfl) alternatives.2
      have split : withBars (second :: pieces) = ['|'] ++ (second ++ withBars pieces) := rfl
      rw [stepTokens_found found, List.drop_left, List.take_left, split, rest]
      rfl

variable {patt : Text}

/-- A balanced pattern without empty alternatives is its alternatives with bars. -/
theorem exists_alternatives (balanced : isBalanced 0 patt = true)
    (filled : ∀ piece ∈ topAlternatives patt, piece ≠ []) :
    ∃ first pieces, topAlternatives patt = first :: pieces ∧ patt = first ++ withBars pieces ∧
      ∀ piece ∈ first :: pieces, IsAlternative piece := by
  obtain ⟨ofFirst, ofOthers⟩ := isPiece_cutAtBars balanced
  have same := joined_cutAtBars 0 patt
  cases cut : topAlternatives patt with
  | nil => exact absurd cut (cutAtBars_ne_nil 0 patt)
  | cons first pieces =>
      rw [topAlternatives] at cut
      rw [topAlternatives, cut, List.forall_mem_cons] at filled
      rw [cut] at ofFirst ofOthers same
      refine ⟨first, pieces, rfl, same.symm, ?_⟩
      rw [List.forall_mem_cons]
      exact ⟨⟨ofFirst, filled.1⟩, fun piece member => ⟨ofOthers piece member, filled.2 piece member⟩⟩

/-- The token with a number, in front of the end or of what closes the pattern. -/
theorem unionToken_joined {pieces : List Text} (nonempty : pieces ≠ [])
    (alternatives : ∀ piece ∈ pieces, IsAlternative piece) {text : Text}
    (ends : text = [] ∨ text.head? = some ')') (idx : Nat) :
    ayPatternUnionToken (joined pieces ++ text) idx =
      some (pieces[idx]?.map fun piece => (joined (pieces.drop idx) ++ text, piece.length)) := by
  cases pieces with
  | nil => exact absurd rfl nonempty
  | cons first pieces =>
      have noLead : IsLead [] := .inl rfl
      rw [List.forall_mem_cons] at alternatives
      rw [joined, List.append_assoc]
      rcases Nat.lt_or_ge pieces.length idx with beyond | within
      · have missing := unionToken_none noLead alternatives.1
          (fun piece member => (alternatives.2 piece member).whole) ends beyond
        rw [List.getElem?_eq_none (by rw [List.length_cons]; omega)]
        exact missing
      · cases idx with
        | zero =>
            rw [List.getElem?_cons_zero, List.drop_zero, joined, List.append_assoc]
            exact unionToken_first noLead alternatives.1 (ends_withBars ends pieces)
        | succ steps =>
            have nth := List.getElem?_eq_getElem (show steps < pieces.length by omega)
            have found := unionToken_later noLead alternatives.1 alternatives.2 ends nth
            have behindIt : pieces.drop steps = pieces[steps] :: pieces.drop (steps + 1) :=
              List.drop_eq_getElem_cons (by omega)
            rw [List.getElem?_cons_succ, nth, List.drop_succ_cons, behindIt, joined,
              List.append_assoc]
            exact found

theorem take_joined {pieces : List Text} {idx : Nat} {piece : Text}
    (nth : pieces[idx]? = some piece) (text : Text) :
    (joined (pieces.drop idx) ++ text).take piece.length = piece := by
  have behindIt : pieces.drop idx = piece :: pieces.drop (idx + 1) := by
    obtain ⟨bound, rfl⟩ := List.getElem?_eq_some_iff.mp nth
    exact List.drop_eq_getElem_cons bound
  rw [behindIt, joined, List.append_assoc, List.take_left]

/-- The tokens of a balanced pattern, by number and one after the other. -/
theorem ayPatternUnionToken_alternatives (balanced : isBalanced 0 patt = true)
    (filled : ∀ piece ∈ topAlternatives patt, piece ≠ []) :
    (∀ text : Text, text = [] ∨ text.head? = some ')' → ∀ idx : Nat,
      ayPatternUnionToken (patt ++ text) idx =
        some ((topAlternatives patt)[idx]?.map fun piece =>
          (joined ((topAlternatives patt).drop idx) ++ text, piece.length))) ∧
      (∀ (idx : Nat) (piece : Text), (topAlternatives patt)[idx]? = some piece →
        (joined ((topAlternatives patt).drop idx)).take piece.length = piece) ∧
      stepTokens patt = some (topAlternatives patt) := by
  obtain ⟨first, pieces, cut, rfl, alternatives⟩ := exists_alternatives balanced filled
  rw [cut]
  refine ⟨fun text ends idx => ?_, fun idx piece nth => ?_, ?_⟩
  · exact unionToken_joined (List.cons_ne_nil first pieces) alternatives ends idx
  · have taken := take_joined nth []
    rw [List.append_nil] at taken
    exact taken
  · exact @stepTokens_joined [] first pieces (.inl rfl) alternatives

/-- Two alternatives with a group in one of them, as they stand in a group. -/
theorem ayPatternUnionToken_alternatives_group :
    ayPatternUnionToken ['a', '|', '(', 'b', '|', 'c', ')', 'd', ')', 'e'] 1 =
        some (some (['(', 'b', '|', 'c', ')', 'd', ')', 'e'], 6)) ∧
      stepTokens ['a', '|', '(', 'b', '|', 'c', ')', 'd'] =
        some [['a'], ['(', 'b', '|', 'c', ')', 'd']] := by
  have tokens := @ayPatternUnionToken_alternatives ['a', '|', '(', 'b', '|', 'c', ')', 'd']
    (by decide) (by decide)
  exact ⟨tokens.1 [')', 'e'] (.inr rfl) 1, tokens.2.2⟩

end Alternatives

section Parentheses

variable {before text piece inner : Text}

/-- A balanced text is within the parentheses around it. -/
theorem parenScan_balanced {par : Nat} (balanced : isBalanced par inner = true) (text : Text) :
    parenScan (inner ++ text) (par + 1) = inner.length + parenScan text 1 := by
  induction inner generalizing par with
  | nil =>
      obtain rfl : par = 0 := by simpa [isBalanced] using balanced
      rw [List.nil_append, List.length_nil, Nat.zero_add, Nat.zero_add]
  | cons char rest inductionHypothesis =>
      rw [isBalanced] at balanced
      rw [List.cons_append, parenScan, if_neg (Nat.succ_ne_zero par), List.length_cons]
      split
      · rename_i isOpen
        rw [if_pos isOpen] at balanced
        rw [inductionHypothesis balanced]
        omega
      · rename_i notOpen
        rw [if_neg notOpen] at balanced
        split
        · rename_i isClose
          rw [if_pos isClose, Bool.and_eq_true, bne_iff_ne] at balanced
          obtain ⟨less, rfl⟩ : ∃ less, par = less + 1 := ⟨par - 1, by omega⟩
          have inside := inductionHypothesis balanced.2
          rw [Nat.add_sub_cancel] at inside
          rw [Nat.add_sub_cancel, inside]
          omega
        · rename_i notClose
          rw [if_neg notClose] at balanced
          rw [inductionHypothesis balanced]
          omega

theorem parenScan_zero (text : Text) : parenScan text 0 = 0 := by
  cases text <;> simp [parenScan]

/-- What closes with its last character only is balanced without it. -/
theorem exists_inner {par : Nat} (whole : isPiece (par + 1) text = true)
    (reaches : parenScan text (par + 1) = text.length) :
    ∃ inner, text = inner ++ [')'] ∧ isBalanced par inner = true := by
  induction text generalizing par with
  | nil => simp [isPiece] at whole
  | cons char rest inductionHypothesis =>
      rw [isPiece] at whole
      rw [parenScan, if_neg (Nat.succ_ne_zero par), List.length_cons] at reaches
      by_cases isOpen : char = '('
      · rw [if_pos isOpen] at whole reaches
        obtain ⟨inner, rfl, balanced⟩ := inductionHypothesis whole (Nat.succ.inj reaches)
        exact ⟨char :: inner, rfl, by rw [isBalanced, if_pos isOpen, balanced]⟩
      · rw [if_neg isOpen] at whole reaches
        by_cases isClose : char = ')'
        · rw [if_pos isClose, Bool.and_eq_true, Nat.add_sub_cancel] at whole
          rw [if_pos isClose, Nat.add_sub_cancel] at reaches
          cases par with
          | zero =>
              rw [parenScan_zero] at reaches
              obtain rfl : rest = [] := List.length_eq_zero_iff.mp (by omega)
              exact ⟨[], by rw [isClose]; rfl, rfl⟩
          | succ less =>
              obtain ⟨inner, rfl, balanced⟩ := inductionHypothesis whole.2 (Nat.succ.inj reaches)
              refine ⟨char :: inner, rfl, ?_⟩
              rw [isBalanced, if_neg isOpen, if_pos isClose, Nat.add_sub_cancel, balanced]
              rfl
        · rw [if_neg isClose, Bool.and_eq_true] at whole
          rw [if_neg isClose] at reaches
          obtain ⟨inner, rfl, balanced⟩ := inductionHypothesis whole.2 (Nat.succ.inj reaches)
          exact ⟨char :: inner, rfl, by rw [isBalanced, if_neg isOpen, if_neg isClose, balanced]⟩

/-- One pair of parentheses is around all the rest. -/
def IsGroup (piece : Text) : Prop := ∃ inner, piece = '(' :: (inner ++ [')']) ∧ isBalanced 0 inner = true

/-- What closes first is not behind the group. -/
theorem rest_of_isGroup {rest : Text} (balanced : isBalanced 0 inner = true)
    (isGroup : IsGroup ('(' :: (inner ++ ')' :: rest))) : rest = [] := by
  obtain ⟨whole, same, wholeBalanced⟩ := isGroup
  obtain ⟨-, behindIt⟩ := List.cons.inj same
  have closed (text : Text) : parenScan (')' :: text) 1 = 1 := by
    rw [parenScan, if_neg (by decide), if_neg (by decide), if_pos rfl, parenScan_zero]
  have scanned := parenScan_balanced balanced (')' :: rest)
  rw [behindIt, parenScan_balanced wholeBalanced, closed, closed] at scanned
  have lengths := congrArg List.length behindIt
  rw [List.length_append, List.length_append, List.length_cons, List.length_singleton] at lengths
  apply List.length_eq_zero_iff.mp
  omega

theorem enclosed_iff (alternative : IsAlternative piece) (text : Text) :
    enclosed (piece ++ text) piece.length = true ↔ IsGroup piece := by
  rw [enclosed, List.take_left, Bool.and_eq_true, Bool.and_eq_true, beq_iff_eq, beq_iff_eq,
    beq_iff_eq]
  constructor
  · rintro ⟨⟨isOpen, -⟩, reaches⟩
    obtain ⟨whole, nonempty⟩ := alternative
    cases piece with
    | nil => exact absurd rfl nonempty
    | cons char rest =>
        obtain rfl := Option.some.inj isOpen
        rw [isPiece, if_pos rfl] at whole
        rw [List.drop_one, List.tail_cons, List.length_cons] at reaches
        obtain ⟨inner, rfl, balanced⟩ := exists_inner whole (Nat.succ.inj reaches)
        exact ⟨inner, rfl, balanced⟩
  · rintro ⟨inner, rfl, balanced⟩
    have last : parenScan [')'] 1 = 1 := rfl
    refine ⟨⟨rfl, ?_⟩, ?_⟩
    · simp
    · rw [List.drop_one, List.tail_cons, parenScan_balanced balanced, last]
      simp

theorem removeParentheses_step {buf ptoken : Text} {len : Nat}
    (found : ayPatternUnionToken buf 0 = some (some (ptoken, len))) :
    ayPatternRemoveParentheses buf =
      if enclosed ptoken len then
        ayPatternRemoveParentheses (buf.take (buf.length - ptoken.length) ++
          (ptoken.take (len - 1)).drop 1 ++ ptoken.drop len)
      else
        (ayPatternRemoveParentheses (ptoken.drop len)).map
          (buf.take (buf.length - ptoken.length) ++ ptoken.take len ++ ·) := by
  rw [ayPatternRemoveParentheses]
  split
  · rename_i other
    rw [found] at other
    cases other
  · rename_i other
    rw [found] at other
    cases other
  · rename_i same
    rw [found] at same
    cases same
    split <;> rfl

theorem removeParentheses_nil : ayPatternRemoveParentheses [] = some [] := by
  rw [ayPatternRemoveParentheses]
  rfl

/-- The parentheses around a balanced text. -/
theorem isPiece_group {par : Nat} (balanced : isBalanced par inner = true) (text : Text) :
    isPiece (par + 1) (inner ++ ')' :: text) = isPiece 0 text := by
  induction inner generalizing par with
  | nil =>
      obtain rfl : par = 0 := by simpa [isBalanced] using balanced
      rfl
  | cons char rest inductionHypothesis =>
      rw [isBalanced] at balanced
      rw [List.cons_append, isPiece]
      split
      · rename_i isOpen
        rw [if_pos isOpen] at balanced
        exact inductionHypothesis balanced
      · rename_i notOpen
        rw [if_neg notOpen] at balanced
        split
        · rename_i isClose
          rw [if_pos isClose, Bool.and_eq_true, bne_iff_ne] at balanced
          obtain ⟨less, rfl⟩ : ∃ less, par = less + 1 := ⟨par - 1, by omega⟩
          have rest := inductionHypothesis balanced.2
          rw [Nat.add_sub_cancel] at rest
          rw [Nat.add_sub_cancel, ← rest]
          rfl
        · rename_i notClose
          rw [if_neg notClose] at balanced
          have within : (par + 1 != 0) = true := rfl
          rw [within, Bool.or_true, Bool.true_and, inductionHypothesis balanced]

/-- The parentheses around a token are removed. -/
theorem removeParentheses_group (lead : IsLead before) (balanced : isBalanced 0 inner = true)
    (ends : Ends text) :
    ayPatternRemoveParentheses (before ++ ('(' :: (inner ++ [')']) ++ text)) =
      ayPatternRemoveParentheses (before ++ (inner ++ text)) := by
  have alternative : IsAlternative ('(' :: (inner ++ [')'])) :=
    ⟨isPiece_group balanced [], List.cons_ne_nil _ _⟩
  have found := unionToken_first lead alternative ends
  have kept : (before ++ ('(' :: (inner ++ [')']) ++ text)).take
      ((before ++ ('(' :: (inner ++ [')']) ++ text)).length -
        ('(' :: (inner ++ [')']) ++ text).length) = before := by
    rw [List.length_append, Nat.add_sub_cancel, List.take_left]
  have inside : (('(' :: (inner ++ [')']) ++ text).take
      (('(' :: (inner ++ [')'])).length - 1)).drop 1 = inner := by
    simp
  rw [removeParentheses_step found, if_pos ((enclosed_iff alternative text).mpr ⟨inner, rfl, balanced⟩),
    kept, inside, List.drop_left, List.append_assoc]

/-- Another token is left as it is. -/
theorem removeParentheses_kept (lead : IsLead before) (alternative : IsAlternative piece)
    (notGroup : ¬ IsGroup piece) (ends : Ends text) :
    ayPatternRemoveParentheses (before ++ (piece ++ text)) =
      (ayPatternRemoveParentheses text).map (before ++ piece ++ ·) := by
  have found := unionToken_first lead alternative ends
  have kept : (before ++ (piece ++ text)).take
      ((before ++ (piece ++ text)).length - (piece ++ text).length) = before := by
    rw [List.length_append, Nat.add_sub_cancel, List.take_left]
  rw [removeParentheses_step found, if_neg (mt (enclosed_iff alternative text).mp notGroup), kept,
    List.drop_left, List.take_left]

end Parentheses

end SysrepoAugeas.Pattern
