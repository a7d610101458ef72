import Mathlib.Computability.Language

/-!
# Reading extended regular expressions

A pattern is read character by character.  Every open group has a level with
the alternatives that are complete and the parts of the last one.  What a
pattern reads from the start it also reads behind other alternatives, and
behind other parts if it has one alternative itself.
-/

namespace SysrepoAugeas.Data

/-- What the parts of a pattern match that are no groups, and where a bracket expression ends. -/
structure Dialect where
  single : Char → Language Char
  escaped : Char → Language Char
  bracket : List Char → Language Char
  /-- Whether a `]` behind the content ends the bracket expression. -/
  closes : List Char → Bool
  bound : List Char → Language Char → Language Char

/-- Language of parts, the last one first. -/
def sequenceLanguage : List (Language Char) → Language Char
  | [] => 1
  | last :: before => sequenceLanguage before * last

/-- Language of complete alternatives. -/
def closedLanguage : List (List (Language Char)) → Language Char
  | [] => 0
  | last :: before => closedLanguage before + sequenceLanguage last

/-- Alternatives of a group, the last one first. -/
structure Level where
  closed : List (List (Language Char))
  parts : List (Language Char)

namespace Level

def start : Level := ⟨[], []⟩

def language (level : Level) : Language Char :=
  closedLanguage level.closed + sequenceLanguage level.parts

def push (part : Language Char) (level : Level) : Level :=
  { level with parts := part :: level.parts }

/-- The next alternative begins. -/
def bar (level : Level) : Level := ⟨level.parts :: level.closed, []⟩

/-- The last part is repeated. -/
def quantify (change : Language Char → Language Char) (level : Level) : Option Level :=
  match level.parts with
  | [] => none
  | last :: before => some { level with parts := change last :: before }

/-- What was read behind another level. -/
def onto (base level : Level) : Level :=
  ⟨level.closed ++ base.closed, level.parts ++ base.parts⟩

end Level

inductive Mode where
  | plain
  | escape
  | bracket (content : List Char)
  | bound (content : List Char)

/-- State of the reader with the levels from the inside out. -/
structure Reading where
  mode : Mode
  levels : List Level

/-- Change of the innermost level. -/
def onTop (change : Level → Option Level) : List Level → Option (List Level)
  | [] => none
  | top :: outer => (change top).map (· :: outer)

/-- The innermost group becomes a part of the one around it. -/
def closeGroup : List Level → Option (List Level)
  | inner :: top :: outer => some (top.push inner.language :: outer)
  | _ => none

section Read

variable (dialect : Dialect)

/-- What a character outside of everything special does with the levels. -/
def plainStep (char : Char) : List Level → Option (List Level) :=
  if char = '(' then fun levels => some (.start :: levels)
  else if char = ')' then closeGroup
  else if char = '|' then onTop fun top => some top.bar
  else if char = '*' then onTop (Level.quantify fun part => KStar.kstar part)
  else if char = '+' then onTop (Level.quantify fun part => part * KStar.kstar part)
  else if char = '?' then onTop (Level.quantify fun part => part + 1)
  else onTop fun top => some (top.push (dialect.single char))

def Reading.step (reading : Reading) (char : Char) : Option Reading :=
  match reading.mode with
  | .plain =>
      if char = '\\' then some { reading with mode := .escape }
      else if char = '[' then some { reading with mode := .bracket [] }
      else if char = '{' then some { reading with mode := .bound [] }
      else (plainStep dialect char reading.levels).map (⟨.plain, ·⟩)
  | .escape =>
      (onTop (fun top => some (top.push (dialect.escaped char))) reading.levels).map (⟨.plain, ·⟩)
  | .bracket content =>
      if char = ']' ∧ dialect.closes content then
        (onTop (fun top => some (top.push (dialect.bracket content))) reading.levels).map
          (⟨.plain, ·⟩)
      else some { reading with mode := .bracket (content ++ [char]) }
  | .bound content =>
      if char = '\x7d' then
        (onTop (Level.quantify (dialect.bound content)) reading.levels).map (⟨.plain, ·⟩)
      else some { reading with mode := .bound (content ++ [char]) }

def Reading.run : List Char → Reading → Option Reading
  | [], reading => some reading
  | char :: rest, reading => (reading.step dialect char).bind (run rest)

/-- The pattern is complete and its alternatives are those of the level. -/
def Reads (pattern : List Char) (level : Level) : Prop :=
  Reading.run dialect pattern ⟨.plain, [.start]⟩ = some ⟨.plain, [level]⟩

/-- The pattern has the language. -/
def Denotes (pattern : List Char) (language : Language Char) : Prop :=
  ∃ level, Reads dialect pattern level ∧ level.language = language

end Read

section Over

variable {dialect : Dialect} {base bottom after : Level} {front below levels : List Level}
  {reading final : Reading} {char : Char} {pattern other : List Char}

/-- The level behind another one is read in the same way. -/
structure Follows (change : Level → Option Level) (bottom after : Level) : Prop where
  closed : after.closed = [] → bottom.closed = []
  onto : ∀ base : Level, base.parts = [] ∨ after.closed = [] →
    change (base.onto bottom) = some (base.onto after)

theorem follows_push {part : Language Char}
    (changed : some (bottom.push part) = some after) :
    Follows (fun top => some (top.push part)) bottom after := by
  obtain rfl := Option.some.inj changed
  exact ⟨fun closed => closed, fun base _ => rfl⟩

theorem follows_quantify {change : Language Char → Language Char}
    (changed : bottom.quantify change = some after) :
    Follows (Level.quantify change) bottom after := by
  obtain ⟨closed, parts⟩ := bottom
  cases parts with
  | nil => cases changed
  | cons last before =>
      obtain rfl := Option.some.inj changed
      exact ⟨fun closed => closed, fun base _ => rfl⟩

theorem follows_bar (changed : some bottom.bar = some after) :
    Follows (fun top => some top.bar) bottom after := by
  obtain rfl := Option.some.inj changed
  refine ⟨fun closed => (by cases closed), fun base first => ?_⟩
  rcases first with noParts | closed
  · simp [Level.onto, Level.bar, noParts]
  · cases closed

/-- Levels whose outermost one is behind another level with more levels around. -/
def stackOver (base : Level) (below : List Level) : List Level → List Level
  | [] => below
  | [bottom] => base.onto bottom :: below
  | top :: next :: outer => top :: stackOver base below (next :: outer)

/-- Complete alternatives of the outermost level. -/
def bottomClosed : List Level → List (List (Language Char))
  | [] => []
  | [bottom] => bottom.closed
  | _ :: next :: outer => bottomClosed (next :: outer)

/-- Levels after a step do not depend on what is around. -/
structure StacksOver (step : List Level → Option (List Level)) (levels after : List Level) :
    Prop where
  nonempty : after ≠ []
  closed : bottomClosed after = [] → bottomClosed levels = []
  onto : ∀ base below, base.parts = [] ∨ bottomClosed after = [] →
    step (stackOver base below levels) = some (stackOver base below after)

theorem stacksOver_onTop {change : Level → Option Level} {after : List Level}
    (follows : ∀ top changed, change top = some changed → Follows change top changed)
    (stepped : onTop change levels = some after) : StacksOver (onTop change) levels after := by
  cases levels with
  | nil => cases stepped
  | cons top outer =>
      obtain ⟨changed, isChanged, rfl⟩ := Option.map_eq_some_iff.mp stepped
      have ofTop := follows top changed isChanged
      cases outer with
      | nil =>
          refine ⟨List.cons_ne_nil _ _, ofTop.closed, fun base below first => ?_⟩
          exact Option.map_eq_some_iff.mpr ⟨_, ofTop.onto base first, rfl⟩
      | cons next outer =>
          refine ⟨List.cons_ne_nil _ _, fun closed => closed, fun base below _ => ?_⟩
          exact Option.map_eq_some_iff.mpr ⟨changed, isChanged, rfl⟩

theorem stacksOver_closeGroup {after : List Level} (stepped : closeGroup levels = some after) :
    StacksOver closeGroup levels after := by
  cases levels with
  | nil => cases stepped
  | cons inner outer =>
      cases outer with
      | nil => cases stepped
      | cons top outer =>
          obtain rfl := Option.some.inj stepped
          cases outer with
          | nil => exact ⟨List.cons_ne_nil _ _, fun closed => closed, fun base below _ => rfl⟩
          | cons next outer =>
              exact ⟨List.cons_ne_nil _ _, fun closed => closed, fun base below _ => rfl⟩

theorem stacksOver_openGroup (nonempty : levels ≠ []) :
    StacksOver (fun levels => some (.start :: levels)) levels (.start :: levels) := by
  cases levels with
  | nil => exact absurd rfl nonempty
  | cons top outer =>
      exact ⟨List.cons_ne_nil _ _, fun closed => closed, fun base below _ => rfl⟩

theorem stacksOver_plainStep {after : List Level} (nonempty : levels ≠ [])
    (stepped : plainStep dialect char levels = some after) :
    StacksOver (plainStep dialect char) levels after := by
  unfold plainStep at stepped ⊢
  by_cases opens : char = '('
  · rw [if_pos opens] at stepped ⊢
    obtain rfl := Option.some.inj stepped
    exact stacksOver_openGroup nonempty
  rw [if_neg opens] at stepped ⊢
  by_cases ends : char = ')'
  · rw [if_pos ends] at stepped ⊢
    exact stacksOver_closeGroup stepped
  rw [if_neg ends] at stepped ⊢
  by_cases isBar : char = '|'
  · rw [if_pos isBar] at stepped ⊢
    exact stacksOver_onTop (fun _ _ changed => follows_bar changed) stepped
  rw [if_neg isBar] at stepped ⊢
  by_cases isStar : char = '*'
  · rw [if_pos isStar] at stepped ⊢
    exact stacksOver_onTop (fun _ _ changed => follows_quantify changed) stepped
  rw [if_neg isStar] at stepped ⊢
  by_cases isPlus : char = '+'
  · rw [if_pos isPlus] at stepped ⊢
    exact stacksOver_onTop (fun _ _ changed => follows_quantify changed) stepped
  rw [if_neg isPlus] at stepped ⊢
  by_cases isMaybe : char = '?'
  · rw [if_pos isMaybe] at stepped ⊢
    exact stacksOver_onTop (fun _ _ changed => follows_quantify changed) stepped
  rw [if_neg isMaybe] at stepped ⊢
  exact stacksOver_onTop (fun _ _ changed => follows_push changed) stepped

/-- A step of the reader behind other levels. -/
structure ReadsOver (dialect : Dialect) (pattern : List Char) (reading final : Reading) : Prop where
  nonempty : final.levels ≠ []
  closed : bottomClosed final.levels = [] → bottomClosed reading.levels = []
  onto : ∀ base below, base.parts = [] ∨ bottomClosed final.levels = [] →
    Reading.run dialect pattern ⟨reading.mode, stackOver base below reading.levels⟩ =
      some ⟨final.mode, stackOver base below final.levels⟩

theorem readsOver_step (nonempty : reading.levels ≠ [])
    (stepped : reading.step dialect char = some final) :
    ReadsOver dialect [char] reading final := by
  obtain ⟨mode, levels⟩ := reading
  have lift {step : List Level → Option (List Level)}
      (isOver : ∀ after, step levels = some after → StacksOver step levels after)
      (mapped : (step levels).map (⟨.plain, ·⟩) = some final)
      (same : ∀ others, Reading.step dialect ⟨mode, others⟩ char =
        (step others).map (⟨.plain, ·⟩)) : ReadsOver dialect [char] ⟨mode, levels⟩ final := by
    obtain ⟨after, isAfter, rfl⟩ := Option.map_eq_some_iff.mp mapped
    obtain ⟨afterNonempty, closed, onto⟩ := isOver after isAfter
    refine ⟨afterNonempty, closed, fun base below first => ?_⟩
    simp only [Reading.run, same, onto base below first]
    rfl
  have stay {mode' : Mode} (isFinal : some (⟨mode', levels⟩ : Reading) = some final)
      (same : ∀ others, Reading.step dialect ⟨mode, others⟩ char = some ⟨mode', others⟩) :
      ReadsOver dialect [char] ⟨mode, levels⟩ final := by
    obtain rfl := Option.some.inj isFinal
    refine ⟨nonempty, fun closed => closed, fun base below _ => ?_⟩
    simp only [Reading.run, same]
    rfl
  cases mode with
  | plain =>
      simp only [Reading.step] at stepped
      split at stepped
      · rename_i isEscape
        exact stay stepped fun others => by simp only [Reading.step, if_pos isEscape]
      · rename_i notEscape
        split at stepped
        · rename_i isBracket
          exact stay stepped fun others => by
            simp only [Reading.step, if_neg notEscape, if_pos isBracket]
        · rename_i notBracket
          split at stepped
          · rename_i isBound
            exact stay stepped fun others => by
              simp only [Reading.step, if_neg notEscape, if_neg notBracket, if_pos isBound]
          · rename_i notBound
            exact lift (fun _ => stacksOver_plainStep nonempty) stepped fun others => by
              simp only [Reading.step, if_neg notEscape, if_neg notBracket, if_neg notBound]
  | escape =>
      exact lift (fun _ => stacksOver_onTop fun _ _ changed => follows_push changed) stepped
        fun others => rfl
  | bracket content =>
      simp only [Reading.step] at stepped
      split at stepped
      · rename_i ends
        exact lift (fun _ => stacksOver_onTop fun _ _ changed => follows_push changed) stepped
          fun others => by simp only [Reading.step, if_pos ends]
      · rename_i goesOn
        exact stay stepped fun others => by simp only [Reading.step, if_neg goesOn]
  | bound content =>
      simp only [Reading.step] at stepped
      split at stepped
      · rename_i ends
        exact lift (fun _ => stacksOver_onTop fun _ _ changed => follows_quantify changed) stepped
          fun others => by simp only [Reading.step, if_pos ends]
      · rename_i goesOn
        exact stay stepped fun others => by simp only [Reading.step, if_neg goesOn]

theorem run_append (pattern other : List Char) (reading : Reading) :
    reading.run dialect (pattern ++ other) =
      (reading.run dialect pattern).bind (Reading.run dialect other) := by
  induction pattern generalizing reading with
  | nil => rfl
  | cons char rest inductionHypothesis =>
      rw [List.cons_append, Reading.run, Reading.run]
      cases reading.step dialect char with
      | none => rfl
      | some next => exact inductionHypothesis next

theorem readsOver_run (nonempty : reading.levels ≠ [])
    (isRun : reading.run dialect pattern = some final) :
    ReadsOver dialect pattern reading final := by
  induction pattern generalizing reading with
  | nil =>
      obtain rfl := Option.some.inj isRun
      exact ⟨nonempty, fun closed => closed, fun base below _ => rfl⟩
  | cons char rest inductionHypothesis =>
      obtain ⟨next, stepped, ofRest⟩ := Option.bind_eq_some_iff.mp isRun
      have first := readsOver_step nonempty stepped
      have others := inductionHypothesis first.nonempty ofRest
      refine ⟨others.nonempty, fun closed => first.closed (others.closed closed),
        fun base below ok => ?_⟩
      have stepOver := first.onto base below (ok.imp_right others.closed)
      rw [← List.singleton_append, run_append, stepOver]
      exact others.onto base below ok

/-- What a complete pattern reads inside of another one. -/
theorem Reads.run (reads : Reads dialect pattern after)
    (ok : base.parts = [] ∨ after.closed = []) :
    Reading.run dialect pattern ⟨.plain, base :: below⟩ = some ⟨.plain, base.onto after :: below⟩ := by
  have onto := (readsOver_run (List.cons_ne_nil _ _) reads).onto base below ok
  have same : base.onto .start = base := rfl
  simpa only [stackOver, same] using onto

end Over

section Compose

variable {dialect : Dialect} {level other : Level} {pattern behind : List Char}

theorem sequenceLanguage_append (parts before : List (Language Char)) :
    sequenceLanguage (parts ++ before) = sequenceLanguage before * sequenceLanguage parts := by
  induction parts with
  | nil => exact (mul_one _).symm
  | cons last parts inductionHypothesis =>
      rw [List.cons_append, sequenceLanguage, inductionHypothesis, sequenceLanguage, mul_assoc]

theorem closedLanguage_append (alternatives before : List (List (Language Char))) :
    closedLanguage (alternatives ++ before) =
      closedLanguage before + closedLanguage alternatives := by
  induction alternatives with
  | nil => exact (add_zero _).symm
  | cons last alternatives inductionHypothesis =>
      rw [List.cons_append, closedLanguage, inductionHypothesis, closedLanguage, add_assoc]

theorem Level.language_bar_over (level other : Level) :
    (level.bar.onto other).language = level.language + other.language := by
  simp only [Level.language, Level.onto, Level.bar, List.append_nil]
  rw [closedLanguage_append, closedLanguage, add_assoc]

theorem Level.language_over (single : level.closed = []) (otherSingle : other.closed = []) :
    (level.onto other).language = level.language * other.language := by
  simp only [Level.language, Level.onto, single, otherSingle, List.append_nil, closedLanguage,
    zero_add]
  exact sequenceLanguage_append _ _

theorem Level.language_push (part : Language Char) : (Level.start.push part).language = part := by
  simp [Level.language, Level.start, Level.push, closedLanguage, sequenceLanguage]

theorem Reads.unique (reads : Reads dialect pattern level) (again : Reads dialect pattern other) :
    level = other := by
  have same := reads.symm.trans again
  simpa using same

/-- Two alternatives. -/
theorem Reads.bar (reads : Reads dialect pattern level) (readsBehind : Reads dialect behind other) :
    Reads dialect (pattern ++ '|' :: behind) (level.bar.onto other) := by
  unfold Reads
  rw [run_append, show Reading.run dialect pattern _ = _ from reads]
  exact readsBehind.run (Or.inl rfl)

theorem Reads.group (reads : Reads dialect pattern level) :
    Reads dialect ('(' :: pattern ++ [')']) (Level.start.push level.language) := by
  have inside := @Reads.run dialect .start level [.start] pattern reads (Or.inl rfl)
  have same : Level.start.onto level = level := by simp [Level.onto, Level.start]
  unfold Reads
  rw [same] at inside
  rw [List.cons_append, Reading.run]
  change Reading.run dialect (pattern ++ [')']) ⟨.plain, [.start, .start]⟩ = _
  rw [run_append, inside]
  rfl

/-- A group that is repeated. -/
theorem Reads.quantified (reads : Reads dialect pattern level) {char : Char}
    {change : Language Char → Language Char}
    (quantifies : ∀ levels, Reading.step dialect ⟨.plain, levels⟩ char =
      (onTop (Level.quantify change) levels).map (⟨.plain, ·⟩)) :
    Reads dialect ('(' :: pattern ++ [')'] ++ [char]) (Level.start.push (change level.language)) := by
  unfold Reads
  rw [run_append, show Reading.run dialect ('(' :: pattern ++ [')']) _ = _ from reads.group,
    Option.bind_some, Reading.run, quantifies]
  rfl

/-- One pattern behind the other; both have one alternative. -/
theorem Reads.append (reads : Reads dialect pattern level)
    (readsBehind : Reads dialect behind other) (otherSingle : other.closed = []) :
    Reads dialect (pattern ++ behind) (level.onto other) := by
  unfold Reads
  rw [run_append, show Reading.run dialect pattern _ = _ from reads]
  exact readsBehind.run (Or.inr otherSingle)

end Compose

end SysrepoAugeas.Data
