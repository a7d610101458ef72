import SysrepoAugeas.Label.Emit
import SysrepoAugeas.Store.Augeas

/-!
# Labels for `aug_insert` and `aug_rename`

`augds_store_diff_apply` takes the label of a node from the path that was
prepared for it.  What it gets is the label as long as nothing in it had to be
escaped.
-/

namespace SysrepoAugeas.Label

open SysrepoAugeas.Data

/-- `augds_store_diff_path_label` -/
def augdsStoreDiffPathLabel (augPath : Text) : Text :=
  let label := (augPath.reverse.takeWhile (· ≠ '/')).reverse
  -- remove index
  (skipPosition label).getD label

/-- `augds_store_diff_path_next_idx` -/
def augdsStoreDiffPathNextIdx (augPath : Text) : Option Text :=
  (skipPosition augPath).map fun front =>
    let digits := ((augPath.drop (front.length + 1)).takeWhile Char.isDigit)
    let idx := Nat.ofDigitChars 10 digits 0 % 2 ^ 32
    front ++ '[' :: (Nat.toDigits 10 ((idx + 1) % 2 ^ 32) ++ [']'])

/-- The operations of `augds_store_diff_apply` that hand a label to Augeas. -/
inductive LabelOp where
  | insert
  | rename
  | move
  deriving DecidableEq

/-- The siblings after `aug_insert` and `aug_set`. -/
def insertNode {T : Type} (anchor : Store.AugPath) (handed : Text) (before : Bool)
    (augPath : Store.AugPath) (value : Option String) (siblings : List (Store.AugNode T)) :
    Option (List (Store.AugNode T)) :=
  (Store.augInsert anchor (String.ofList handed) before siblings).bind
    (Store.augSet augPath value)

/-- Wherever the index counts the siblings with the label before the new node, or the label is
new where there is no index, an insertion with the handed label adds this one node. -/
def AddsOne (label handed : Text) (index : Nat) : Prop :=
  ∀ (T : Type) (anchor : Store.AugPath) (before : Bool) (value : Option String)
    (front back : List (Store.AugNode T)),
    Store.augInsert anchor (String.ofList handed) before (front ++ back) =
        some (front ++ ⟨String.ofList handed, Store.Content.empty⟩ :: back) →
      (index ≠ 0 → front.countP (Store.AugNode.hasLabel (String.ofList label)) + 1 = index) →
        (index = 0 → ∀ other ∈ front ++ back, other.label ≠ String.ofList label) →
          insertNode anchor handed before
              ⟨String.ofList label, if index = 0 then none else some index⟩ value (front ++ back) =
            some (front ++ ⟨String.ofList label, ⟨value, []⟩⟩ :: back)

/-- The label handed to Augeas is the one of the node, and the paths that are used next denote
a node with this label. -/
def LabelHanded (op : LabelOp) (context : Text) (base : List AugStep)
    (ancestors : List (Text × Nat)) (label : Text) (index : Nat) : Prop :=
  ∃ augPath, emitted context (ancestors ++ [(label, index)]) = some augPath ∧
    augdsStoreDiffPathLabel augPath = label ∧
    (op ≠ .rename → augResolve context augPath =
      some (base ++ (ancestors ++ [(label, index)]).map denoted)) ∧
    (op = .insert → AddsOne label (augdsStoreDiffPathLabel augPath) index) ∧
    (op = .move → ∃ augPath2 other, augdsStoreDiffPathNextIdx augPath = some augPath2 ∧
      augResolve context augPath2 = some (base ++ ancestors.map denoted ++ [⟨label, some other⟩]))

/-- Paths from which the label is recovered. -/
structure Handable (op : LabelOp) (ancestors : List (Text × Nat)) (label : Text) (index : Nat) :
    Prop where
  commas : ((ancestors ++ [(label, index)]).map fun step => step.1.count ',').sum ≤
    if needsContext (plainPath (ancestors ++ [(label, index)])) then 0 else 1
  noComma : ',' ∉ label
  noSlash : '/' ∉ label
  indexed : index = 0 → '[' ∉ label
  storable : op ≠ .rename → Storable (ancestors ++ [(label, index)])
  moved : op = .move → index ≠ 0

section Segment

theorem lastSegment_whole {segment : Text} (noSlash : '/' ∉ segment) :
    (segment.reverse.takeWhile (· ≠ '/')).reverse = segment := by
  have all : ∀ char ∈ segment.reverse, decide (char ≠ '/') = true := by
    intro char membership
    have : char ≠ '/' := fun equality => noSlash (equality ▸ List.mem_reverse.mp membership)
    simpa using this
  rw [List.takeWhile_eq_self_iff.mpr all, List.reverse_reverse]

/-- Text of the last step. -/
def segmentText (step : AugStep) : Text :=
  Escape.writeName '\\' isComma step.label ++ indexText step.index

/-- The text of a path before its last step. -/
def StepBegins (before : Text) : Prop := before = [] ∨ ∃ path, before = path ++ ['/']

/-- The text of the last step stands behind a slash or alone. -/
theorem written_concat {front : Text} (steps : List AugStep)
    (begins : StepBegins front) : ∃ before, StepBegins before ∧ ∀ other : AugStep,
      front ++ (written isComma (steps ++ [other])).drop 1 = before ++ segmentText other := by
  cases steps with
  | nil =>
      refine ⟨front, begins, fun other => ?_⟩
      simp [written, segmentText]
  | cons first rest =>
      refine ⟨front ++ (written isComma (first :: rest)).drop 1 ++ ['/'], .inr ⟨_, rfl⟩,
        fun other => ?_⟩
      simp [written, segmentText]

theorem lastSegment_behind {before segment : Text} (begins : StepBegins before)
    (noSlash : '/' ∉ segment) :
    ((before ++ segment).reverse.takeWhile (· ≠ '/')).reverse = segment := by
  rcases begins with rfl | ⟨path, rfl⟩
  · exact lastSegment_whole noSlash
  · rw [List.append_assoc, List.singleton_append, lastSegment_eq path noSlash]

theorem slash_not_mem_segmentText {step : AugStep} (noSlash : '/' ∉ step.label) :
    '/' ∉ segmentText step := by
  rw [segmentText, List.mem_append, Escape.mem_writeName _ (by decide)]
  cases step.index with
  | none => simpa [indexText] using noSlash
  | some index => simp [indexText, noSlash, notMem_indexText]

end Segment

section PathLabel

variable {before label : Text}

theorem augdsStoreDiffPathLabel_indexed (begins : StepBegins before) (noSlash : '/' ∉ label)
    (index : Nat) :
    augdsStoreDiffPathLabel (before ++ segmentText ⟨label, some index⟩) =
      Escape.writeName '\\' isComma label := by
  rw [augdsStoreDiffPathLabel, lastSegment_behind begins (slash_not_mem_segmentText noSlash),
    segmentText, indexText, skipPosition_eq _ (by simp [notMem_indexText]), Option.getD_some]

theorem augdsStoreDiffPathLabel_plain (begins : StepBegins before) (noSlash : '/' ∉ label)
    (noBracket : '[' ∉ label) :
    augdsStoreDiffPathLabel (before ++ segmentText ⟨label, none⟩) =
      Escape.writeName '\\' isComma label := by
  have noBracketWritten : '[' ∉ Escape.writeName '\\' isComma label := fun membership =>
    noBracket ((Escape.mem_writeName label (by decide)).mp membership)
  rw [augdsStoreDiffPathLabel, lastSegment_behind begins (slash_not_mem_segmentText noSlash),
    segmentText, indexText, List.append_nil, skipPosition, if_neg (by simpa using noBracketWritten),
    Option.getD_none]

/-- Without an index a bracket of the label is cut off. -/
theorem count_augdsStoreDiffPathLabel (begins : StepBegins before) (noSlash : '/' ∉ label)
    (bracket : '[' ∈ label) :
    (augdsStoreDiffPathLabel (before ++ segmentText ⟨label, none⟩)).count '[' < label.count '[' := by
  have inWritten := (@Escape.mem_writeName _ _ '\\' isComma '[' label (by decide)).mpr bracket
  rw [augdsStoreDiffPathLabel, lastSegment_behind begins (slash_not_mem_segmentText noSlash),
    segmentText, indexText, List.append_nil,
    ← @Escape.count_writeName _ _ '\\' isComma '[' label (by decide)]
  obtain ⟨back, front, split, noBracket⟩ :=
    List.eq_append_cons_of_mem (List.mem_reverse.mpr inWritten)
  have writtenEq : Escape.writeName '\\' isComma label = front.reverse ++ '[' :: back.reverse := by
    have := congrArg List.reverse split
    simpa using this
  have noBracketBehind : '[' ∉ back.reverse := by
    rw [List.mem_reverse]
    exact noBracket
  rw [writtenEq, skipPosition_eq _ noBracketBehind, Option.getD_some, List.count_append,
    List.count_cons_self]
  omega

theorem slash_not_mem_pathLabel (augPath : Text) : '/' ∉ augdsStoreDiffPathLabel augPath := by
  have noSlash : '/' ∉ (augPath.reverse.takeWhile (· ≠ '/')).reverse := by
    rw [List.mem_reverse]
    exact fun membership => absurd (List.mem_takeWhile_imp membership) (by decide)
  rw [augdsStoreDiffPathLabel]
  generalize (augPath.reverse.takeWhile (· ≠ '/')).reverse = label at noSlash
  rw [skipPosition]
  split
  · rw [Option.getD_some, List.mem_reverse]
    exact fun membership => noSlash (List.mem_reverse.mp
      ((List.dropWhile_suffix _).subset (List.mem_of_mem_drop membership)))
  · rw [Option.getD_none]
    exact noSlash

theorem writeName_eq_self_iff : Escape.writeName '\\' isComma label = label ↔ ',' ∉ label := by
  refine ⟨fun same => ?_, fun noComma => writeName_isComma (List.count_eq_zero.mpr noComma)⟩
  have lengths := congrArg List.length same
  rw [Escape.writeName_length] at lengths
  intro comma
  have : 0 < label.countP isComma := List.countP_pos_iff.mpr ⟨',', comma, by simp [isComma]⟩
  omega

/-- The label comes back exactly if it has no comma and no slash, and no bracket where there is
no index. -/
theorem augdsStoreDiffPathLabel_iff (begins : StepBegins before) (index : Option Nat) :
    augdsStoreDiffPathLabel (before ++ segmentText ⟨label, index⟩) = label ↔
      ',' ∉ label ∧ '/' ∉ label ∧ (index = none → '[' ∉ label) := by
  by_cases noSlash : '/' ∈ label
  · refine ⟨fun same => ?_, fun conditions => absurd noSlash conditions.2.1⟩
    rw [← same] at noSlash
    exact absurd noSlash (slash_not_mem_pathLabel _)
  · cases index with
    | some index =>
        rw [augdsStoreDiffPathLabel_indexed begins noSlash, writeName_eq_self_iff]
        simp [noSlash]
    | none =>
        by_cases bracket : '[' ∈ label
        · refine ⟨fun same => ?_, fun conditions => absurd bracket (conditions.2.2 rfl)⟩
          have fewer := count_augdsStoreDiffPathLabel begins noSlash bracket
          rw [same] at fewer
          omega
        · rw [augdsStoreDiffPathLabel_plain begins noSlash bracket, writeName_eq_self_iff]
          simp [noSlash, bracket]

end PathLabel

section Apply

variable {context : Text} {base : List AugStep} {ancestors : List (Text × Nat)} {label : Text}
  {index : Nat}

theorem emitted_concat {augPath : Text} :
    emitted context (ancestors ++ [(label, index)]) = some augPath ↔
      ((ancestors ++ [(label, index)]).map fun step => step.1.count ',').sum ≤
          (if needsContext (plainPath (ancestors ++ [(label, index)])) then 0 else 1) ∧
        augPath = contextPrefix context (plainPath (ancestors ++ [(label, index)])) ++
          (written isComma (ancestors.map denoted ++ [denoted (label, index)])).drop 1 := by
  rw [← List.map_singleton (f := denoted), ← List.map_append]
  cases ancestors with
  | nil => exact emitted_eq_some
  | cons step rest => exact emitted_eq_some

theorem emitted_denotes_concat (absolute : augAbsolute context = some base) :
    (emitted context (ancestors ++ [(label, index)])).bind (augResolve context) =
      some (base ++ (ancestors ++ [(label, index)]).map denoted) ↔
        Storable (ancestors ++ [(label, index)]) := by
  cases ancestors with
  | nil => exact emitted_denotes_iff absolute
  | cons step rest => exact emitted_denotes_iff absolute

theorem contextPrefix_begins (context path : Text) : StepBegins (contextPrefix context path) := by
  rw [contextPrefix]
  split
  · exact .inr ⟨context, rfl⟩
  · exact .inl rfl

theorem addsOne_same (label : Text) (index : Nat) : AddsOne label label index := by
  intro T anchor before value front back inserted counted alone
  have located : (Store.AugPath.mk (String.ofList label) (if index = 0 then none else some index)).locate
      (front ++ ⟨String.ofList label, Store.Content.empty⟩ :: back) = [front.length] := by
    by_cases zero : index = 0
    · rw [if_pos zero]
      exact Store.AugPath.locate_unique (String.ofList label) front (by rfl) back
        (fun other membership => alone zero other (List.mem_append_left _ membership))
        (fun other membership => alone zero other (List.mem_append_right _ membership))
    · rw [if_neg zero, ← counted zero]
      exact Store.AugPath.locate_ranked (String.ofList label) front (by rfl) back
  rw [insertNode, inserted, Option.bind_some, Store.augSet_middle located]
  rfl

theorem augdsStoreDiffPathNextIdx_eq (before label : Text) (index : Nat) :
    ∃ other, augdsStoreDiffPathNextIdx (before ++ segmentText ⟨label, some index⟩) =
      some (before ++ segmentText ⟨label, some other⟩) := by
  have areDigits : ∀ char ∈ Nat.toDigits 10 index, char.isDigit = true := fun char membership =>
    Nat.isDigit_of_mem_toDigits (by decide) (by decide) membership
  refine ⟨(index % 2 ^ 32 + 1) % 2 ^ 32, ?_⟩
  rw [augdsStoreDiffPathNextIdx, segmentText, segmentText, indexText, indexText,
    ← List.append_assoc, skipPosition_eq _ (by simp [notMem_indexText]), Option.map_some,
    ← List.append_assoc]
  have digits : ((before ++ Escape.writeName '\\' isComma label ++
      '[' :: (Nat.toDigits 10 index ++ [']'])).drop
        ((before ++ Escape.writeName '\\' isComma label).length + 1)).takeWhile Char.isDigit =
          Nat.toDigits 10 index := by
    rw [← List.drop_drop, List.drop_left' rfl, List.drop_one, List.tail_cons,
      takeWhile_isDigit areDigits]
  simp only [digits, Nat.ofDigitChars_ten_toDigits]

/-- Brackets of the node that a path denotes, as far as the path names it. -/
theorem count_augResolve (absolute : augAbsolute context = some base) {path : Text}
    {steps : List AugStep} (resolved : augResolve context path = some steps) :
    (steps.map brackets).sum =
      path.count '[' + if path.head? = some '/' then 0 else (base.map brackets).sum := by
  rw [augResolve] at resolved
  split at resolved
  · rw [augAbsolute.eq_def] at resolved
    split at resolved
    · rw [← count_parsePath resolved, List.count_cons_of_ne (by decide)]
      simp
    · cases resolved
  · rename_i relative
    rw [absolute, Option.bind_some] at resolved
    obtain ⟨found, parsed, rfl⟩ := Option.map_eq_some_iff.mp resolved
    rw [if_neg relative, List.map_append, List.sum_append, ← count_parsePath parsed]
    omega

/-- The path with the next index has as many brackets as the path itself. -/
theorem count_augdsStoreDiffPathNextIdx {augPath augPath2 : Text}
    (found : augdsStoreDiffPathNextIdx augPath = some augPath2) (noBracket : augPath.head? ≠ some '[') :
    augPath2.count '[' = augPath.count '[' ∧ augPath2.head? = augPath.head? := by
  obtain ⟨front, skipped, rfl⟩ := Option.map_eq_some_iff.mp found
  have bracket : '[' ∈ augPath := by
    rw [skipPosition] at skipped
    split at skipped
    · rename_i bracket
      simpa using bracket
    · cases skipped
  obtain ⟨reversedBack, reversedFront, split, noMore⟩ :=
    List.eq_append_cons_of_mem (List.mem_reverse.mpr bracket)
  have pathEq : augPath = reversedFront.reverse ++ '[' :: reversedBack.reverse := by
    have := congrArg List.reverse split
    simpa using this
  have noMoreBehind : '[' ∉ reversedBack.reverse := by
    rw [List.mem_reverse]
    exact noMore
  rw [pathEq, skipPosition_eq _ noMoreBehind, Option.some.injEq] at skipped
  subst skipped
  simp only
  rw [pathEq]
  constructor
  · rw [List.count_append, List.count_append, List.count_cons_self, List.count_cons_self,
      List.count_append, List.count_eq_zero.mpr (notMem_indexText (by decide) _),
      List.count_eq_zero.mpr noMoreBehind]
    simp
  · cases frontEq : reversedFront.reverse with
    | nil =>
        rw [pathEq, frontEq] at noBracket
        exact absurd rfl noBracket
    | cons char rest => rfl

theorem Storable.head_ne_bracket {first : Text × Nat} {rest : List (Text × Nat)}
    (storable : Storable (first :: rest)) (absolute : augAbsolute context = some base)
    (path : Text) :
    (contextPrefix context path ++ (written isComma ((first :: rest).map denoted)).drop 1).head? ≠
      some '[' := by
  have noBracket : '[' ∉ (denoted first).label := fun membership => by
    have := storable.plain first List.mem_cons_self '[' membership
    revert this
    decide
  have head := @written_head isComma _ (rest.map denoted) _
    (storable.nonempty first List.mem_cons_self) noBracket (by decide)
  rw [contextPrefix]
  split
  · have := augAbsolute_head absolute
    cases context with
    | nil => cases this
    | cons char rest =>
        rw [List.head?_cons, Option.some.injEq] at this
        rw [this]
        simp
  · exact head

/-- Without an index the next path is one of an ancestor. -/
theorem Storable.next_ne {augPath augPath2 : Text} {other : Nat}
    (storable : Storable (ancestors ++ [(label, 0)]))
    (absolute : augAbsolute context = some base)
    (isEmitted : emitted context (ancestors ++ [(label, 0)]) = some augPath)
    (found : augdsStoreDiffPathNextIdx augPath = some augPath2) :
    augResolve context augPath2 ≠ some (base ++ ancestors.map denoted ++ [⟨label, some other⟩]) := by
  intro resolved2
  have resolved := (emitted_denotes_concat absolute).mpr storable
  rw [isEmitted, Option.bind_some] at resolved
  obtain ⟨-, pathEq⟩ := emitted_concat.mp isEmitted
  have head : augPath.head? ≠ some '[' := by
    rw [pathEq]
    cases ancestors with
    | nil => exact storable.head_ne_bracket absolute _
    | cons first rest =>
        have := storable.head_ne_bracket absolute (plainPath (first :: rest ++ [(label, 0)]))
        simpa using this
  obtain ⟨sameCount, sameHead⟩ := count_augdsStoreDiffPathNextIdx found head
  have counts := count_augResolve absolute resolved
  have counts2 := count_augResolve absolute resolved2
  rw [sameCount, sameHead, ← counts] at counts2
  simp [denoted, brackets] at counts2

end Apply

end SysrepoAugeas.Label
