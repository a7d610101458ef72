import SysrepoAugeas.Label.Load
import SysrepoAugeas.Label.Syntax

/-!
# Labels from the load to the store

The load prints a label with all its special characters escaped and drops
every backslash of it; the store escapes commas.  The two sides agree on the
labels in which nothing else is special, and a path can hold one comma.
-/

namespace SysrepoAugeas.Label

open SysrepoAugeas.Data

/-- The step that a label with its index stands for. -/
def denoted (step : Text × Nat) : AugStep :=
  ⟨step.1, if step.2 = 0 then none else some step.2⟩

/-- Path for Augeas from the labels and indices of a node and its ancestors. -/
def emitted (context : Text) (steps : List (Text × Nat)) : Option Text :=
  (storePath steps).bind (augdsStoreDiffApplyPreparePath context)

/-- The characters that the store escapes. -/
def isComma (char : Char) : Bool := char = ','

/-- Labels the store can write: a comma is the only special character, and there is one comma
in the path at most, or none behind a context. -/
structure Storable (steps : List (Text × Nat)) : Prop where
  nonempty : ∀ step ∈ steps, step.1 ≠ []
  plain : ∀ step ∈ steps, ∀ char ∈ step.1, char = ',' ∨ pathSpecial char = false
  commas : (steps.map fun step => step.1.count ',').sum ≤
    if needsContext (steps.head?.elim [] (·.1)) then 0 else 1

section Emitted

theorem foldl_augdsStorePath (steps : List (Text × Nat)) : (parent : Text) →
    steps.foldl (fun parent step => some (augdsStorePath parent step.1 step.2)) (some parent) =
      some (parent ++ written (fun _ => false) (steps.map denoted)) := by
  induction steps with
  | nil => simp [written]
  | cons step rest inductionHypothesis =>
      intro parent
      rw [List.foldl_cons, inductionHypothesis, List.map_cons, written_cons,
        Escape.writeName_eq_self fun _ _ => rfl]
      simp [augdsStorePath, denoted]

/-- Path before commas are escaped. -/
def plainPath (steps : List (Text × Nat)) : Text :=
  (written (fun _ => false) (steps.map denoted)).drop 1

theorem storePath_cons (step : Text × Nat) (rest : List (Text × Nat)) :
    storePath (step :: rest) = some (plainPath (step :: rest)) := by
  rw [plainPath, storePath, List.foldl_cons, foldl_augdsStorePath, List.map_cons, written_cons,
    Escape.writeName_eq_self fun _ _ => rfl]
  simp [augdsStorePath, denoted]

theorem encodeCommas_allocated (text : Text) : (copied buffer : Text) →
    encodeCommas text copied (some buffer) =
      if text.count ',' = 0 then some (some (buffer ++ text)) else none := by
  induction text with
  | nil => simp [encodeCommas]
  | cons char rest inductionHypothesis =>
      intro copied buffer
      rw [encodeCommas]
      by_cases isComma : char = ','
      · rw [if_pos isComma, if_neg (by simp [isComma])]
      · rw [if_neg isComma, Option.map_some, inductionHypothesis, List.count_cons_of_ne isComma,
          List.append_assoc, List.singleton_append]

theorem writeName_isComma {text : Text} (noComma : text.count ',' = 0) :
    Escape.writeName '\\' isComma text = text := by
  refine Escape.writeName_eq_self fun char membership => ?_
  have : char ≠ ',' := fun equality => List.count_eq_zero.mp noComma (equality ▸ membership)
  simp [isComma, this]

theorem encodeCommas_unallocated (text : Text) : (copied : Text) →
    (encodeCommas text copied none).map (·.getD (copied ++ text)) =
      if text.count ',' ≤ 1 then some (copied ++ Escape.writeName '\\' isComma text) else none := by
  induction text with
  | nil => simp [encodeCommas, Escape.writeName]
  | cons char rest inductionHypothesis =>
      intro copied
      rw [encodeCommas]
      by_cases comma : char = ','
      · rw [if_pos comma, encodeCommas_allocated, comma, List.count_cons_self]
        by_cases noMore : rest.count ',' = 0
        · rw [if_pos noMore, if_pos (by omega), Escape.writeName, if_pos (by simp [isComma]),
            writeName_isComma noMore]
          simp
        · rw [if_neg noMore, if_neg (by omega)]
          rfl
      · have notChosen : ¬isComma char = true := by simpa [isComma] using comma
        rw [if_neg comma, Option.map_none, List.count_cons_of_ne comma, Escape.writeName,
          if_neg notChosen, ← List.singleton_append, ← List.append_assoc, inductionHypothesis]
        simp

/-- What the store puts before a path. -/
def contextPrefix (context path : Text) : Text := if needsContext path then context ++ ['/'] else []

theorem augdsStoreDiffApplyPreparePath_eq (context path : Text) :
    augdsStoreDiffApplyPreparePath context path =
      if path.count ',' ≤ (if needsContext path then 0 else 1) then
        some (contextPrefix context path ++ Escape.writeName '\\' isComma path)
      else none := by
  rw [augdsStoreDiffApplyPreparePath, contextPrefix]
  by_cases needs : needsContext path = true
  · simp only [if_pos needs]
    rw [encodeCommas_allocated]
    by_cases noComma : path.count ',' = 0
    · rw [if_pos noComma, if_pos (by omega), writeName_isComma noComma]
      rfl
    · rw [if_neg noComma, if_neg (by omega)]
      rfl
  · simp only [if_neg needs]
    exact encodeCommas_unallocated path []

theorem count_indexText (index : Option Nat) : (indexText index).count ',' = 0 := by
  rw [List.count_eq_zero]
  cases index with
  | none => simp [indexText]
  | some index =>
      have notDigit : ',' ∉ Nat.toDigits 10 index := fun membership =>
        absurd (Nat.isDigit_of_mem_toDigits (by decide) (by decide) membership) (by decide)
      simp [indexText, notDigit]

/-- The loop escapes the commas of the labels and changes nothing else. -/
theorem writeName_written (steps : List AugStep) :
    Escape.writeName '\\' isComma (written (fun _ => false) steps) = written isComma steps := by
  induction steps with
  | nil => rfl
  | cons step rest inductionHypothesis =>
      rw [written_cons, written_cons, Escape.writeName, if_neg (by decide),
        Escape.writeName_append, Escape.writeName_append, inductionHypothesis,
        writeName_isComma (count_indexText step.index),
        @Escape.writeName_eq_self _ _ (fun _ => false) _ fun _ _ => rfl]

theorem writeName_plainPath (steps : List (Text × Nat)) :
    Escape.writeName '\\' isComma (plainPath steps) = (written isComma (steps.map denoted)).drop 1 := by
  rw [← writeName_written, plainPath]
  cases steps.map denoted with
  | nil => rfl
  | cons step rest =>
      rw [written_cons, Escape.writeName, if_neg (by decide), List.drop_one, List.drop_one,
        List.tail_cons, List.tail_cons]

theorem count_written (steps : List (Text × Nat)) :
    (written (fun _ => false) (steps.map denoted)).count ',' =
      (steps.map fun step => step.1.count ',').sum := by
  induction steps with
  | nil => rfl
  | cons step rest inductionHypothesis =>
      rw [List.map_cons, written_cons, Escape.writeName_eq_self fun _ _ => rfl,
        List.count_cons_of_ne (by decide), List.count_append, List.count_append, count_indexText,
        inductionHypothesis, List.map_cons, List.sum_cons]
      rfl

theorem count_plainPath (step : Text × Nat) (rest : List (Text × Nat)) :
    (plainPath (step :: rest)).count ',' =
      ((step :: rest).map fun step => step.1.count ',').sum := by
  rw [← count_written, plainPath, List.map_cons, written_cons, List.count_cons_of_ne (by decide),
    List.drop_one, List.tail_cons]

theorem needsContext_plainPath {step : Text × Nat} (rest : List (Text × Nat))
    (nonempty : step.1 ≠ []) :
    needsContext (plainPath (step :: rest)) = needsContext step.1 := by
  obtain ⟨char, chars, label⟩ := List.exists_cons_of_ne_nil nonempty
  rw [plainPath, List.map_cons, written_cons, Escape.writeName_eq_self fun _ _ => rfl]
  simp [denoted, label, needsContext]

/-- The texts of the steps are as long as those that Augeas prints only if all that is special
in them is a comma. -/
theorem covered_of_length (steps : List AugStep)
    (lengths : (augPrint steps).length ≤ (written isComma steps).length) :
    ∀ step ∈ steps, Escape.Covered '\\' pathSpecial isComma step.label := by
  have commaSpecial (char : Char) (comma : isComma char = true) : pathSpecial char = true := by
    have : char = ',' := by simpa [isComma] using comma
    rw [this]
    decide
  have shorter (steps : List AugStep) :
      (written isComma steps).length ≤ (written pathSpecial steps).length := by
    induction steps with
    | nil => exact le_rfl
    | cons step rest inductionHypothesis =>
        have := List.countP_mono_left (l := step.label) fun char _ => commaSpecial char
        simp only [written_cons, List.length_cons, List.length_append, Escape.writeName_length]
        omega
  induction steps with
  | nil => simp
  | cons step rest inductionHypothesis =>
      change (written pathSpecial _).length ≤ _ at lengths
      have front := List.countP_mono_left (l := step.label) fun char _ => commaSpecial char
      have back := shorter rest
      simp only [written_cons, List.length_cons, List.length_append,
        Escape.writeName_length] at lengths
      intro other membership
      rcases List.mem_cons.mp membership with rfl | inRest
      · exact Escape.covered_of_countP_le commaSpecial (by decide) (by omega)
      · refine inductionHypothesis ?_ other inRest
        change (written pathSpecial _).length ≤ _
        omega

end Emitted

section Resolve

variable {context path : Text} {base : List AugStep}

theorem augAbsolute_append (absolute : augAbsolute context = some base) (path : Text) :
    augAbsolute (context ++ '/' :: path) = (parsePath path).map (base ++ ·) := by
  rw [augAbsolute.eq_def] at absolute
  split at absolute
  · exact parsePath_append absolute
  · cases absolute

theorem augAbsolute_head (absolute : augAbsolute context = some base) :
    context.head? = some '/' := by
  rw [augAbsolute.eq_def] at absolute
  split at absolute
  · rfl
  · cases absolute

/-- Relative to the context a path is parsed for itself, with the context before it or not. -/
theorem augResolve_relative (absolute : augAbsolute context = some base) (written : Text)
    (relative : written.head? ≠ some '/') :
    augResolve context (contextPrefix context path ++ written) =
      (parsePath written).map (base ++ ·) := by
  rw [contextPrefix]
  split
  · have isAbsolute : (context ++ ['/'] ++ written).head? = some '/' := by
      have := augAbsolute_head absolute
      cases context with
      | nil => cases this
      | cons char rest => exact this
    rw [augResolve, if_pos isAbsolute, List.append_assoc, List.singleton_append,
      augAbsolute_append absolute]
  · rw [List.nil_append, augResolve, if_neg relative, absolute]
    rfl

end Resolve

section Denoted

variable {context : Text} {base : List AugStep} {step : Text × Nat} {rest : List (Text × Nat)}

theorem emitted_eq_some {prepared : Text} :
    emitted context (step :: rest) = some prepared ↔
      ((step :: rest).map fun step => step.1.count ',').sum ≤
          (if needsContext (plainPath (step :: rest)) then 0 else 1) ∧
        prepared = contextPrefix context (plainPath (step :: rest)) ++
          (written isComma ((step :: rest).map denoted)).drop 1 := by
  rw [emitted, storePath_cons, Option.bind_some, augdsStoreDiffApplyPreparePath_eq,
    count_plainPath, writeName_plainPath]
  by_cases few : ((step :: rest).map fun step => step.1.count ',').sum ≤
      (if needsContext (plainPath (step :: rest)) then 0 else 1)
  · rw [if_pos few, Option.some.injEq]
    exact ⟨fun equality => ⟨few, equality.symm⟩, fun both => both.2.symm⟩
  · rw [if_neg few]
    simp only [reduceCtorEq, false_iff]
    exact fun both => few both.1

theorem Storable.covered {steps : List (Text × Nat)} (storable : Storable steps) :
    ∀ other ∈ steps.map denoted, other.label ≠ [] ∧
      Escape.Covered '\\' pathSpecial isComma other.label := by
  intro other membership
  obtain ⟨step, inSteps, rfl⟩ := List.mem_map.mp membership
  refine ⟨storable.nonempty step inSteps, fun char inLabel => ?_⟩
  rcases storable.plain step inSteps char inLabel with rfl | plain
  · exact .inl rfl
  · refine .inr ⟨plain, ?_⟩
    rintro rfl
    cases plain

/-- The first character of a written path is one of the first label or an escape. -/
theorem written_head (chosen : Char → Bool) {first : AugStep} {others : List AugStep} {char : Char}
    (nonempty : first.label ≠ []) (absent : char ∉ first.label) (notMark : char ≠ '\\') :
    ((written chosen (first :: others)).drop 1).head? ≠ some char := by
  obtain ⟨head, chars, label⟩ := List.exists_cons_of_ne_nil nonempty
  have notHead : head ≠ char := fun equality => absent (by rw [label, equality]; simp)
  rw [written_cons, List.drop_one, List.tail_cons]
  simp only [label, Escape.writeName]
  split <;> simp [notHead, Ne.symm notMark]

/-- No context is put before a path that is taken for an absolute one. -/
theorem contextPrefix_of_slash {path : Text}
    (slash : (Escape.writeName '\\' isComma path).head? = some '/') :
    contextPrefix context path = [] := by
  rw [contextPrefix, if_neg]
  cases path with
  | nil => simp [needsContext]
  | cons char rest =>
      rw [Escape.writeName] at slash
      split at slash
      · cases slash
      · have isSlash : char = '/' := by simpa using slash
        rw [isSlash, needsContext]
        decide

/-- A path that denotes the node is as short as the one that Augeas prints. -/
theorem augPrint_length_of_denoted {steps : List AugStep} {path : Text}
    (absolute : augAbsolute context = some base)
    (resolved : augResolve context
      (contextPrefix context path ++ Escape.writeName '\\' isComma path) = some (base ++ steps)) :
    (∀ step ∈ steps, step.label ≠ []) ∧
      (augPrint steps).length ≤ (Escape.writeName '\\' isComma path).length + 1 := by
  by_cases slash : (Escape.writeName '\\' isComma path).head? = some '/'
  · rw [contextPrefix_of_slash slash, List.nil_append, augResolve, if_pos slash] at resolved
    cases encoded : Escape.writeName '\\' isComma path with
    | nil =>
        rw [encoded] at slash
        cases slash
    | cons char rest =>
        rw [encoded] at slash resolved
        have isSlash : char = '/' := by simpa using slash
        rw [isSlash, augAbsolute] at resolved
        have nonempty := parsePath_nonempty resolved
        have short := augPrint_length_le resolved
        rw [augPrint, List.flatMap_append, List.length_append, ← augPrint, ← augPrint] at short
        refine ⟨fun step membership => nonempty step (List.mem_append_right _ membership), ?_⟩
        rw [List.length_cons]
        omega
  · rw [augResolve_relative absolute _ slash] at resolved
    obtain ⟨found, parsed, equality⟩ := Option.map_eq_some_iff.mp resolved
    rw [List.append_cancel_left equality] at parsed
    exact ⟨parsePath_nonempty parsed, augPrint_length_le parsed⟩

/-- A written path behind the context or alone. -/
theorem augResolve_written (absolute : augAbsolute context = some base) (path : Text)
    {first : AugStep} {others : List AugStep}
    (readable : ∀ other ∈ first :: others, other.label ≠ [] ∧
      Escape.Covered '\\' pathSpecial isComma other.label) :
    augResolve context (contextPrefix context path ++
      (written isComma (first :: others)).drop 1) = some (base ++ first :: others) := by
  obtain ⟨nonempty, covered⟩ := readable first List.mem_cons_self
  have noSlash : '/' ∉ first.label := fun membership => by
    have := covered '/' membership
    revert this
    decide
  rw [augResolve_relative absolute _ (written_head isComma nonempty noSlash (by decide)),
    parsePath_written _ _ readable]
  rfl

/-- Emitted paths denote the node exactly if the labels are storable. -/
theorem emitted_denotes_iff (absolute : augAbsolute context = some base) :
    (emitted context (step :: rest)).bind (augResolve context) =
      some (base ++ (step :: rest).map denoted) ↔ Storable (step :: rest) := by
  constructor
  · intro resolved
    obtain ⟨prepared, emittedEq, resolved⟩ := Option.bind_eq_some_iff.mp resolved
    obtain ⟨few, rfl⟩ := emitted_eq_some.mp emittedEq
    rw [← writeName_plainPath] at resolved
    obtain ⟨nonempty, short⟩ := augPrint_length_of_denoted absolute resolved
    rw [writeName_plainPath, List.map_cons, written_cons, List.drop_one, List.tail_cons,
      ← List.length_cons (a := '/'), ← written_cons, ← List.map_cons] at short
    have covered := covered_of_length _ short
    have nonemptyAll : ∀ other ∈ step :: rest, other.1 ≠ [] := fun other membership =>
      nonempty (denoted other) (List.mem_map_of_mem membership)
    refine ⟨nonemptyAll, fun other membership char inLabel => ?_, ?_⟩
    · rcases covered (denoted other) (List.mem_map_of_mem membership) char inLabel with comma | plain
      · exact .inl (by simpa [isComma] using comma)
      · exact .inr plain.1
    · rw [needsContext_plainPath rest (nonemptyAll step List.mem_cons_self)] at few
      exact few
  · intro storable
    have few : ((step :: rest).map fun step => step.1.count ',').sum ≤
        if needsContext step.1 then 0 else 1 := storable.commas
    rw [← needsContext_plainPath rest (storable.nonempty step List.mem_cons_self)] at few
    rw [emitted_eq_some.mpr ⟨few, rfl⟩, Option.bind_some]
    exact augResolve_written absolute _ storable.covered

/-- What a label goes through: it is stored under a path that denotes the node, and loaded from
every path that Augeas prints for it. -/
def LabelKept (context : Text) (base : List AugStep) (ancestors : List (Text × Nat))
    (label : Text) (index : Nat) : Prop :=
  (emitted context (ancestors ++ [(label, index)])).bind (augResolve context) =
      some (base ++ ancestors.map denoted ++ [⟨label, some index⟩]) ∧
    ∀ parents printedIndex,
      augdsGetLabelNode (augPrint (parents ++ [⟨label, printedIndex⟩])) = some label

end Denoted

end SysrepoAugeas.Label
