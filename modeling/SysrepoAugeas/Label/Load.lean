import Mathlib.Data.List.TakeWhile
import SysrepoAugeas.Label.Path

/-!
# Labels of printed paths

`augds_get_label_node` looks for the last slash, the last bracket and all the
backslashes of a printed path, none of them with regard to the others.  It
finds the label if this contains neither slash nor backslash and its end is
not taken for the end of a position.
-/

namespace SysrepoAugeas.Label

open SysrepoAugeas.Data

section Decode

/-- The first backslash is gone and the last character stands there twice. -/
theorem decodeStep_mark {front : Text} (back : Text) (noMark : '\\' ∉ front) :
    decodeStep (front ++ '\\' :: back) =
      front ++ back ++ [('\\' :: back).getLastD '\\'] := by
  have before : ∀ char ∈ front, decide (char ≠ '\\') = true := by
    intro char membership
    have : char ≠ '\\' := fun equality => noMark (equality ▸ membership)
    simpa using this
  rw [decodeStep, List.dropWhile_append_of_pos before, List.dropWhile_cons_of_neg (by decide),
    List.takeWhile_append_of_pos before, List.takeWhile_cons_of_neg (by decide), List.append_nil]

theorem getLastD_concat (front : Text) (last other : Char) :
    (other :: (front ++ [last])).getLastD other = last := by
  rw [List.getLastD_eq_getLast?, ← List.cons_append, List.getLast?_concat, Option.getD_some]

theorem decodeLoop_clean {buffer : Text} (clean : '\\' ∉ buffer) (fuel len : Nat) :
    decodeLoop fuel buffer len = some (buffer.take len) := by
  cases fuel <;> rw [decodeLoop, if_neg clean]

theorem decodeLoop_step {buffer : Text} (marked : '\\' ∈ buffer) (fuel len : Nat) :
    decodeLoop (fuel + 1) buffer len = decodeLoop fuel (decodeStep buffer) (len - 1) := by
  rw [decodeLoop, if_pos marked]

/-- Behind the text of the given length the buffer holds copies of its last character, so the
loop ends with the text without marks. -/
theorem decodeLoop_eq (last : Char) (notMark : last ≠ '\\') (fuel : Nat) :
    (text : Text) → (copies : Nat) → text.count '\\' ≤ fuel →
    decodeLoop fuel (text ++ [last] ++ List.replicate copies last) (text.length + 1) =
      some (text.filter (· ≠ '\\') ++ [last]) := by
  have noMarks (fuel : Nat) (text : Text) (copies : Nat) (clean : '\\' ∉ text) :
      decodeLoop fuel (text ++ [last] ++ List.replicate copies last) (text.length + 1) =
        some (text.filter (· ≠ '\\') ++ [last]) := by
    have unmarked : '\\' ∉ text ++ [last] ++ List.replicate copies last := by
      simp [clean, notMark.symm]
    have same : text.filter (· ≠ '\\') = text := by
      refine List.filter_eq_self.mpr fun char membership => ?_
      have : char ≠ '\\' := fun equality => clean (equality ▸ membership)
      simpa using this
    rw [decodeLoop_clean unmarked, same, List.take_append_of_le_length (by simp),
      List.take_of_length_le (by simp)]
  induction fuel with
  | zero =>
      intro text copies bound
      exact noMarks 0 text copies (List.count_eq_zero.mp (Nat.le_zero.mp bound))
  | succ fuel inductionHypothesis =>
      intro text copies bound
      by_cases marked : '\\' ∈ text
      · obtain ⟨front, back, rfl, clean⟩ := List.eq_append_cons_of_mem marked
        rw [decodeLoop_step (by simp)]
        -- the last character of the whole buffer is copied once more
        have shifted : decodeStep (front ++ '\\' :: back ++ [last] ++ List.replicate copies last) =
            (front ++ back) ++ [last] ++ List.replicate (copies + 1) last := by
          have regroup : back ++ ([last] ++ List.replicate copies last) =
              back ++ List.replicate copies last ++ [last] := by
            rw [List.append_assoc, List.singleton_append, ← List.replicate_succ,
              List.replicate_succ']
          rw [List.append_assoc, List.append_assoc, List.cons_append, regroup,
            decodeStep_mark _ clean, getLastD_concat, ← regroup, List.replicate_succ']
          simp only [List.append_assoc]
        have shorter : (front ++ '\\' :: back).length + 1 - 1 = (front ++ back).length + 1 := by
          simp
          omega
        have fewer : (front ++ back).count '\\' ≤ fuel := by
          rw [List.count_append, List.count_cons_self] at bound
          rw [List.count_append]
          omega
        rw [shifted, shorter, inductionHypothesis (front ++ back) (copies + 1) fewer,
          List.filter_append, List.filter_append, List.filter_cons_of_neg (by decide)]
      · exact noMarks (fuel + 1) text copies marked

/-- The loop never ends if the last character is a mark. -/
theorem decodeLoop_mark (fuel : Nat) : (text : Text) → (len : Nat) →
    decodeLoop fuel (text ++ ['\\']) len = none := by
  induction fuel with
  | zero =>
      intro text len
      rw [decodeLoop, if_pos (by simp)]
  | succ fuel inductionHypothesis =>
      intro text len
      obtain ⟨front, back, split, clean⟩ :=
        List.eq_append_cons_of_mem (show '\\' ∈ text ++ ['\\'] by simp)
      rw [decodeLoop_step (by simp)]
      rw [split, decodeStep_mark _ clean]
      -- the last character is the mark itself
      have isMark : ('\\' :: back).getLastD '\\' = '\\' := by
        have := congrArg List.getLast? split
        rw [List.getLast?_concat, List.getLast?_append] at this
        rw [List.getLastD_eq_getLast?]
        cases lastOf : ('\\' :: back).getLast? with
        | none => rfl
        | some last =>
            rw [lastOf, Option.some_or] at this
            rw [← this, Option.getD_some]
      rw [isMark, inductionHypothesis]

theorem decodeLoop_unmarked {result : Text} (fuel : Nat) : (buffer : Text) → (len : Nat) →
    decodeLoop fuel buffer len = some result → '\\' ∉ result := by
  have cleanResult (fuel : Nat) (buffer : Text) (len : Nat) (clean : '\\' ∉ buffer)
      (found : decodeLoop fuel buffer len = some result) : '\\' ∉ result := by
    rw [decodeLoop_clean clean] at found
    rw [← Option.some.inj found]
    exact fun membership => clean (List.mem_of_mem_take membership)
  induction fuel with
  | zero =>
      intro buffer len found
      by_cases marked : '\\' ∈ buffer
      · rw [decodeLoop, if_pos marked] at found
        cases found
      · exact cleanResult 0 buffer len marked found
  | succ fuel inductionHypothesis =>
      intro buffer len found
      by_cases marked : '\\' ∈ buffer
      · rw [decodeLoop_step marked] at found
        exact inductionHypothesis _ _ found
      · exact cleanResult _ buffer len marked found

theorem decodeLoop_mem {result : Text} {char : Char} (fuel : Nat) : (buffer : Text) → (len : Nat) →
    decodeLoop fuel buffer len = some result → char ∈ result → char ∈ buffer := by
  have cleanResult (fuel : Nat) (buffer : Text) (len : Nat) (clean : '\\' ∉ buffer)
      (found : decodeLoop fuel buffer len = some result) (inResult : char ∈ result) :
      char ∈ buffer := by
    rw [decodeLoop_clean clean] at found
    rw [← Option.some.inj found] at inResult
    exact List.mem_of_mem_take inResult
  induction fuel with
  | zero =>
      intro buffer len found inResult
      by_cases marked : '\\' ∈ buffer
      · rw [decodeLoop, if_pos marked] at found
        cases found
      · exact cleanResult 0 buffer len marked found inResult
  | succ fuel inductionHypothesis =>
      intro buffer len found inResult
      by_cases marked : '\\' ∈ buffer
      · rw [decodeLoop_step marked] at found
        have inStep := inductionHypothesis _ _ found inResult
        obtain ⟨front, back, rfl, clean⟩ := List.eq_append_cons_of_mem marked
        rw [decodeStep_mark _ clean] at inStep
        have lastMem : ('\\' :: back).getLastD '\\' ∈ '\\' :: back := by
          rw [List.getLastD_eq_getLast?]
          cases lastOf : ('\\' :: back).getLast? with
          | none => simp
          | some last => exact List.mem_of_getLast? lastOf
        rw [List.mem_append, List.mem_append, List.mem_singleton] at inStep
        rw [List.mem_append, List.mem_cons]
        rw [List.mem_cons] at lastMem
        rcases inStep with (inFront | inBack) | isLast
        · exact .inl inFront
        · exact .inr (.inr inBack)
        · exact .inr (isLast ▸ lastMem)
      · exact cleanResult _ buffer len marked found inResult

/-- A printed label without backslashes is decoded. -/
theorem decodeLoop_writeName {label : Text} (clean : '\\' ∉ label) :
    decodeLoop (Escape.writeName '\\' pathSpecial label).length
      (Escape.writeName '\\' pathSpecial label)
      (Escape.writeName '\\' pathSpecial label).length = some label := by
  have filtered : (Escape.writeName '\\' pathSpecial label).filter (· ≠ '\\') = label := by
    rw [Escape.filter_writeName, List.filter_eq_self]
    intro char membership
    have : char ≠ '\\' := fun equality => clean (equality ▸ membership)
    simpa using this
  have lastEq := @Escape.getLast_writeName _ ('\\') pathSpecial label
  rcases List.eq_nil_or_concat (Escape.writeName '\\' pathSpecial label) with
    empty | ⟨text, last, isConcat⟩
  · rw [empty] at filtered ⊢
    rw [← filtered]
    rfl
  · rw [List.concat_eq_append] at isConcat
    rw [isConcat] at filtered lastEq ⊢
    rw [List.getLast?_concat] at lastEq
    have notMark : last ≠ '\\' := by
      rintro rfl
      exact clean (List.mem_of_getLast? lastEq.symm)
    have decoded := decodeLoop_eq last notMark (text ++ [last]).length text 0
      (Nat.le_trans List.count_le_length (by simp))
    rw [List.replicate_zero, List.append_nil] at decoded
    rw [List.length_append, List.length_singleton] at decoded ⊢
    rw [decoded, ← filtered, List.filter_append, List.filter_cons_of_pos (by simpa using notMark),
      List.filter_nil]

end Decode

section Segment

theorem lastSegment_eq (path : Text) {segment : Text} (noSlash : '/' ∉ segment) :
    ((path ++ '/' :: segment).reverse.takeWhile (· ≠ '/')).reverse = segment := by
  have before : ∀ char ∈ segment.reverse, decide (char ≠ '/') = true := by
    intro char membership
    have : char ≠ '/' := fun equality => noSlash (equality ▸ List.mem_reverse.mp membership)
    simpa using this
  rw [List.reverse_append, List.reverse_cons, List.append_assoc,
    List.takeWhile_append_of_pos before, List.singleton_append,
    List.takeWhile_cons_of_neg (by decide), List.append_nil, List.reverse_reverse]

/-- The text up to the last bracket. -/
theorem skipPosition_eq (front : Text) {back : Text} (noBracket : '[' ∉ back) :
    skipPosition (front ++ '[' :: back) = some front := by
  have before : ∀ char ∈ back.reverse, decide (char ≠ '[') = true := by
    intro char membership
    have : char ≠ '[' := fun equality => noBracket (equality ▸ List.mem_reverse.mp membership)
    simpa using this
  rw [skipPosition, if_pos (by simp), List.reverse_append, List.reverse_cons, List.append_assoc,
    List.dropWhile_append_of_pos before, List.singleton_append,
    List.dropWhile_cons_of_neg (by decide), List.drop_one, List.tail_cons, List.reverse_reverse]

theorem notMem_indexText {char : Char} (notDigit : char.isDigit = false) (index : Nat) :
    char ∉ Nat.toDigits 10 index := fun membership => by
  have isDigit := Nat.isDigit_of_mem_toDigits (by decide) (by decide) membership
  rw [notDigit] at isDigit
  cases isDigit

theorem augPrint_concat (parents : List AugStep) (step : AugStep) :
    augPrint (parents ++ [step]) = augPrint parents ++
      '/' :: (Escape.writeName '\\' pathSpecial step.label ++ indexText step.index) := by
  simp [augPrint]

theorem slash_not_mem_printed {label : Text} (noSlash : '/' ∉ label) (index : Option Nat) :
    '/' ∉ Escape.writeName '\\' pathSpecial label ++ indexText index := by
  rw [List.mem_append, Escape.mem_writeName _ (by decide)]
  cases index with
  | none => simpa [indexText] using noSlash
  | some index => simp [indexText, noSlash, notMem_indexText]

end Segment

section Exact

variable {path start : Text}

/-- What follows the last slash is found if nothing has to be decoded, and decoded else. -/
theorem augdsGetLabelNode_eq (path : Text) {segment : Text} {last : Char}
    (noSlash : '/' ∉ segment) (lastEq : (path ++ '/' :: segment).getLast? = some last) :
    augdsGetLabelNode (path ++ '/' :: segment) =
      if '\\' ∈ segment ∨ last = ']' then
        (if last = ']' then skipPosition segment else some segment).bind fun dyn =>
          decodeLoop dyn.length dyn dyn.length
      else some segment := by
  rw [augdsGetLabelNode, lastSegment_eq path noSlash, lastEq]
  rfl

/-- A label without slash and backslash is found if its end is not taken for a position. -/
theorem augdsGetLabelNode_augPrint (parents : List AugStep) {label : Text} {index : Option Nat}
    (noSlash : '/' ∉ label) (clean : '\\' ∉ label)
    (open_ : index = none → label.getLast? ≠ some ']') :
    augdsGetLabelNode (augPrint (parents ++ [⟨label, index⟩])) = some label := by
  rw [augPrint_concat]
  cases index with
  | some index =>
      have lastEq : (augPrint parents ++ '/' ::
          (Escape.writeName '\\' pathSpecial label ++ indexText (some index))).getLast? =
            some ']' := by
        rw [indexText, ← List.cons_append, ← List.cons_append, ← List.append_assoc,
          ← List.append_assoc, List.getLast?_concat]
      rw [augdsGetLabelNode_eq _ (slash_not_mem_printed noSlash _) lastEq, if_pos (.inr rfl),
        if_pos rfl, indexText, skipPosition_eq _ (by simp [notMem_indexText]), Option.bind_some,
        decodeLoop_writeName clean]
  | none =>
      have noSlashPrinted := slash_not_mem_printed noSlash none
      rw [indexText, List.append_nil] at noSlashPrinted ⊢
      -- an empty label leaves the slash as the last character
      obtain ⟨last, lastEq, notClosed⟩ : ∃ last, (augPrint parents ++ '/' ::
          Escape.writeName '\\' pathSpecial label).getLast? = some last ∧ last ≠ ']' := by
        rw [List.getLast?_append, List.getLast?_cons, Escape.getLast_writeName]
        cases lastOf : label.getLast? with
        | none => exact ⟨'/', rfl, by decide⟩
        | some last =>
            refine ⟨last, rfl, ?_⟩
            rintro rfl
            exact open_ rfl lastOf
      rw [augdsGetLabelNode_eq _ noSlashPrinted lastEq, if_neg notClosed]
      split
      · rw [Option.bind_some, decodeLoop_writeName clean]
      · rename_i unmarked
        rw [not_or] at unmarked
        have decoded := decodeLoop_writeName clean
        rw [decodeLoop_clean unmarked.1, List.take_length] at decoded
        exact decoded

/-- No slash and no backslash is left in what is found. -/
theorem augdsGetLabelNode_clean {path label : Text} (found : augdsGetLabelNode path = some label) :
    '/' ∉ label ∧ '\\' ∉ label := by
  rw [augdsGetLabelNode] at found
  have noSlash : '/' ∉ (path.reverse.takeWhile (· ≠ '/')).reverse := by
    rw [List.mem_reverse]
    exact fun membership => absurd (List.mem_takeWhile_imp membership) (by decide)
  generalize (path.reverse.takeWhile (· ≠ '/')).reverse = start at found noSlash
  obtain ⟨last, -, found⟩ := Option.bind_eq_some_iff.mp found
  split at found
  · obtain ⟨dyn, dynEq, found⟩ := Option.bind_eq_some_iff.mp found
    refine ⟨fun inLabel => noSlash ?_, decodeLoop_unmarked _ _ _ found⟩
    have inDyn := decodeLoop_mem _ _ _ found inLabel
    split at dynEq
    · rw [skipPosition] at dynEq
      split at dynEq
      · rw [← Option.some.inj dynEq, List.mem_reverse] at inDyn
        exact List.mem_reverse.mp
          (List.dropWhile_suffix _ |>.subset (List.mem_of_mem_drop inDyn))
      · cases dynEq
    · rw [Option.some.inj dynEq]
      exact inDyn
  · rename_i plain
    rw [← Option.some.inj found]
    exact ⟨noSlash, fun marked => plain (.inl marked)⟩

/-- A label that ends with a bracket is cut at its last opening bracket, where the mark of the
bracket comes last, or before its beginning. -/
theorem augdsGetLabelNode_closed (parents : List AugStep) {label : Text}
    (noSlash : '/' ∉ label) (closed : label.getLast? = some ']') :
    augdsGetLabelNode (augPrint (parents ++ [⟨label, none⟩])) = none := by
  have noSlashPrinted := slash_not_mem_printed noSlash none
  rw [augPrint_concat]
  rw [indexText, List.append_nil] at noSlashPrinted ⊢
  have lastEq : (augPrint parents ++ '/' ::
      Escape.writeName '\\' pathSpecial label).getLast? = some ']' := by
    rw [List.getLast?_append, List.getLast?_cons, Escape.getLast_writeName, closed]
    rfl
  rw [augdsGetLabelNode_eq _ noSlashPrinted lastEq, if_pos (.inr rfl), if_pos rfl]
  by_cases opened : '[' ∈ label
  · obtain ⟨back, front, split, noBracket⟩ :=
      List.eq_append_cons_of_mem (List.mem_reverse.mpr opened)
    have labelEq : label = front.reverse ++ '[' :: back.reverse := by
      have := congrArg List.reverse split
      simpa using this
    rw [labelEq, Escape.writeName_append, Escape.writeName, if_pos (by decide),
      ← List.singleton_append, ← List.append_assoc, skipPosition_eq]
    · rw [Option.bind_some, decodeLoop_mark]
    · rw [Escape.mem_writeName _ (by decide), List.mem_reverse]
      exact noBracket
  · rw [skipPosition, if_neg, Option.bind_none]
    simpa using fun membership => opened ((Escape.mem_writeName label (by decide)).mp membership)

/-- `augds_get_label_node` finds exactly the labels without slash and backslash that do not end
with a bracket, unless a position follows. -/
theorem augdsGetLabelNode_augPrint_iff (parents : List AugStep) (label : Text)
    (index : Option Nat) :
    augdsGetLabelNode (augPrint (parents ++ [⟨label, index⟩])) = some label ↔
      '/' ∉ label ∧ '\\' ∉ label ∧ (index = none → label.getLast? ≠ some ']') := by
  constructor
  · intro found
    obtain ⟨noSlash, clean⟩ := augdsGetLabelNode_clean found
    refine ⟨noSlash, clean, ?_⟩
    rintro rfl closed
    rw [augdsGetLabelNode_closed parents noSlash closed] at found
    cases found
  · rintro ⟨noSlash, clean, open_⟩
    exact augdsGetLabelNode_augPrint parents noSlash clean open_

/-- The text after an escaped slash is taken for the whole label. -/
theorem augdsGetLabelNode_slash_fails :
    augdsGetLabelNode (augPrint ([⟨"files".toList, none⟩] ++ [⟨"a/b".toList, some 1⟩])) ≠
      some "a/b".toList := by
  decide

end Exact

end SysrepoAugeas.Label
