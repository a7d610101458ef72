import SysrepoAugeas.Pattern.Vbar

/-!
# Identifiers from an optional group of alternatives

The word without the group is assembled from what the expansion of the group
left in the buffer, which is nothing, and from the text on one side of the group.
-/

namespace SysrepoAugeas.Pattern

open SysrepoAugeas.Label (Text)

/-- Neither an operator nor the beginning of a bracket. -/
def isWordChar (char : Char) : Bool := !(['(', ')', '|', '?', '['].contains char)

/-- `before(branch|branch|...)?post`, shorter than an identifier may be. -/
structure OptionalToken where
  before : Text
  branches : List Text
  post : Text
  plain : ∀ text ∈ before :: post :: branches, text.all isWordChar = true
  several : 2 ≤ branches.length
  filled : ∀ branch ∈ branches, branch ≠ []
  short : (before ++ '(' :: (joined branches ++ ')' :: '?' :: post)).length < ayMaxIdentSize

namespace OptionalToken

def print (token : OptionalToken) : Text :=
  token.before ++ '(' :: (joined token.branches ++ ')' :: '?' :: token.post)

/-- The words with the group. -/
def words (token : OptionalToken) : List Text :=
  token.branches.map fun branch => token.before ++ branch ++ token.post

end OptionalToken

theorem wordChar_ne {char : Char} (plain : isWordChar char = true) :
    char ≠ '(' ∧ char ≠ ')' ∧ char ≠ '|' ∧ char ≠ '?' ∧ char ≠ '[' := by
  simpa [isWordChar] using plain

theorem isPiece_plain {text : Text} (plain : text.all isWordChar = true) : isPiece 0 text = true := by
  induction text with
  | nil => rfl
  | cons char rest inductionHypothesis =>
      rw [List.all_cons, Bool.and_eq_true] at plain
      obtain ⟨notOpen, notClose, notBar, -⟩ := wordChar_ne plain.1
      rw [isPiece, if_neg notOpen, if_neg notClose, inductionHypothesis plain.2, Bool.and_true,
        Bool.or_eq_true, bne_iff_ne]
      exact .inl notBar

theorem not_mem_plain {text : Text} (plain : text.all isWordChar = true) {char : Char}
    (operator : isWordChar char = false) : char ∉ text := by
  intro member
  rw [List.all_eq_true.mp plain char member] at operator
  cases operator

theorem mem_joined {pieces : List Text} {char : Char} (member : char ∈ joined pieces) :
    char = '|' ∨ ∃ piece ∈ pieces, char ∈ piece := by
  cases pieces with
  | nil => cases member
  | cons first pieces =>
      rw [joined, withBars, List.mem_append, List.mem_flatMap] at member
      obtain inFirst | ⟨piece, inPieces, inPiece⟩ := member
      · exact .inr ⟨first, List.mem_cons_self, inFirst⟩
      · obtain rfl | inPiece := List.mem_cons.mp inPiece
        · exact .inl rfl
        · exact .inr ⟨piece, List.mem_cons_of_mem first inPieces, inPiece⟩

theorem length_le_joined {pieces : List Text} {piece : Text} (member : piece ∈ pieces) :
    piece.length ≤ (joined pieces).length := by
  obtain ⟨front, behind, rfl⟩ := List.append_of_mem member
  cases front with
  | nil =>
      rw [List.nil_append, joined, List.length_append]
      exact Nat.le_add_right _ _
  | cons first front =>
      simp only [List.cons_append, joined, withBars, List.flatMap_append, List.flatMap_cons,
        List.length_append, List.length_cons]
      omega

theorem countP_range_getElem? (text : Text) (char : Char) :
    (List.range text.length).countP (fun i => text[i]? == some char) = text.count char := by
  induction text with
  | nil => rfl
  | cons first rest inductionHypothesis =>
      rw [List.length_cons, List.range_succ_eq_map, List.countP_cons, List.countP_map,
        List.count_cons, ← inductionHypothesis]
      rfl

/-- All variations are written when none hits the limit. -/
theorem vbarFrom_words {ptoken : Text} {len : Nat} {words : List Text}
    (each : ∀ idx ≤ words.length,
      ayPatternIdentifierVbarAt ptoken len idx = some (words[idx]?.elim .identNotFound .ident))
    (texts : ∀ word ∈ words, word ≠ [] ∧ '[' ∉ word) {idx left : Nat}
    (within : idx + left = words.length) (idents : List Text) :
    ayPatternIdentifierVbarFrom ptoken len idx idents = some ⟨true, idents ++ words.drop idx, []⟩ := by
  induction left generalizing idx idents with
  | zero =>
      have reached := each idx (by omega)
      have last : words[idx]? = none := List.getElem?_eq_none_iff.mpr (by omega)
      rw [last] at reached
      rw [vbarFrom_notFound reached, List.drop_eq_nil_of_le (by omega), List.append_nil]
  | succ left inductionHypothesis =>
      have reached := each idx (by omega)
      have inside : idx < words.length := by omega
      obtain ⟨nonempty, noBracket⟩ := texts words[idx] (List.getElem_mem inside)
      rw [List.getElem?_eq_getElem inside] at reached
      rw [vbarFrom_ident reached, ayPatternIdentifierAdd, if_neg nonempty,
        ayTransSubstrConversion_eq noBracket, inductionHypothesis (by omega),
        List.drop_eq_getElem_cons inside, List.append_assoc, List.singleton_append]

namespace OptionalToken

variable (token : OptionalToken)

theorem plain_before : token.before.all isWordChar = true := token.plain _ List.mem_cons_self

theorem plain_post : token.post.all isWordChar = true :=
  token.plain _ (List.mem_cons_of_mem _ List.mem_cons_self)

theorem plain_branch {branch : Text} (member : branch ∈ token.branches) :
    branch.all isWordChar = true :=
  token.plain branch (List.mem_cons_of_mem _ (List.mem_cons_of_mem _ member))

theorem branches_ne_nil : token.branches ≠ [] := by
  intro none
  have several := token.several
  rw [none] at several
  cases several

theorem alternatives : ∀ branch ∈ token.branches, IsAlternative branch := fun branch member =>
  ⟨isPiece_plain (token.plain_branch member), token.filled branch member⟩

theorem not_mem_branches {char : Char} (operator : isWordChar char = false) (notBar : char ≠ '|') :
    char ∉ joined token.branches := by
  intro member
  obtain isBar | ⟨branch, inBranches, inBranch⟩ := mem_joined member
  · exact notBar isBar
  · exact not_mem_plain (token.plain_branch inBranches) operator inBranch

/-- There is nothing to convert in the parts of the token. -/
theorem noBracket : '[' ∉ token.print := by
  have ofBefore := not_mem_plain token.plain_before (show isWordChar '[' = false from rfl)
  have ofPost := not_mem_plain token.plain_post (show isWordChar '[' = false from rfl)
  have ofBranches := token.not_mem_branches (show isWordChar '[' = false from rfl) (by decide)
  simp [print, ofBefore, ofPost, ofBranches]

theorem word_text {word : Text} (member : word ∈ token.words) : word ≠ [] ∧ '[' ∉ word := by
  obtain ⟨branch, inBranches, rfl⟩ := List.mem_map.mp member
  have ofBefore := not_mem_plain token.plain_before (show isWordChar '[' = false from rfl)
  have ofPost := not_mem_plain token.plain_post (show isWordChar '[' = false from rfl)
  have ofBranch := not_mem_plain (token.plain_branch inBranches) (show isWordChar '[' = false from rfl)
  simp [token.filled branch inBranches, ofBefore, ofPost, ofBranch]

variable {text : Text}

/-- A variation is written, since none is longer than the token. -/
theorem vbarAt_word (follows : Follows text) (idx : Nat) :
    ayPatternIdentifierVbarAt (token.print ++ text) token.print.length idx =
      some (token.words[idx]?.elim .identNotFound .ident) := by
  have noOpen := not_mem_plain token.plain_before (show isWordChar '(' = false from rfl)
  have noClose := not_mem_plain token.plain_before (show isWordChar ')' = false from rfl)
  have firstClose := token.not_mem_branches (show isWordChar ')' = false from rfl) (by decide)
  have group := vbarAt_group follows noOpen noClose firstClose
    (.inl rfl : ['?'] = ['?'] ∨ _ ∧ '?' ∉ token.post) idx
  have ends : ')' :: '?' :: (token.post ++ text) = [] ∨
      (')' :: '?' :: (token.post ++ text)).head? = some ')' := .inr rfl
  have found := unionToken_joined token.branches_ne_nil token.alternatives ends idx
  have short := token.short
  rw [List.length_append, List.length_cons, List.length_append, List.length_cons,
    List.length_cons] at short
  have printed : token.print = token.before ++
      '(' :: (joined token.branches ++ ')' :: (['?'] ++ token.post)) := rfl
  have inText : joined token.branches ++ ')' :: (['?'] ++ token.post) ++ text =
      joined token.branches ++ ')' :: '?' :: (token.post ++ text) := by simp
  rw [printed, group, if_neg (by omega), inText, found, words, List.getElem?_map]
  cases nth : token.branches[idx]? with
  | none => rfl
  | some branch =>
      have within := length_le_joined (List.mem_of_getElem? nth)
      simp only [Option.map_some, Option.elim_some, take_joined nth]
      rw [if_neg (by omega), if_neg (by omega)]

theorem vbar_words (follows : Follows text) (idents : List Text) :
    ayPatternIdentifierVbar (token.print ++ text) token.print.length idents =
      some ⟨true, idents ++ token.words, []⟩ :=
  vbarFrom_words (fun idx _ => token.vbarAt_word follows idx) (fun _ member => token.word_text member)
    (Nat.zero_add _) idents

/-- What is in front of the question mark. -/
def group (token : OptionalToken) : Text := token.before ++ '(' :: (joined token.branches ++ [')'])

theorem print_eq : token.print = token.group ++ '?' :: token.post := by
  simp [print, group]

theorem group_parens : token.group.count '(' = 1 ∧ token.group.count ')' = 1 := by
  have noOpen := List.count_eq_zero.mpr
    (not_mem_plain token.plain_before (show isWordChar '(' = false from rfl))
  have noOpenInside := List.count_eq_zero.mpr
    (token.not_mem_branches (show isWordChar '(' = false from rfl) (by decide))
  have noClose := List.count_eq_zero.mpr
    (not_mem_plain token.plain_before (show isWordChar ')' = false from rfl))
  have noCloseInside := List.count_eq_zero.mpr
    (token.not_mem_branches (show isWordChar ')' = false from rfl) (by decide))
  constructor
  · simp [group, noOpen, noOpenInside]
  · simp [group, noClose, noCloseInside]

theorem count_print {char : Char} (operator : isWordChar char = false) (notMark : char ≠ '?') :
    token.print.count char = token.group.count char := by
  have notInPost := List.count_eq_zero.mpr (not_mem_plain token.plain_post operator)
  rw [print_eq, List.count_append, List.count_cons_of_ne notMark.symm, notInPost, Nat.add_zero]

theorem not_nocase (text : Text) : ayIdentCharacterNocase (token.print ++ text) = false := by
  have noBracket := token.noBracket
  cases printed : token.print with
  | nil => exact absurd printed (by simp [print])
  | cons char rest =>
      have notBracket : char ≠ '[' := by
        rintro rfl
        exact noBracket (printed ▸ List.mem_cons_self)
      unfold ayIdentCharacterNocase
      split
      · rename_i same
        exact absurd (List.cons.inj same).1 notBracket
      · rfl

/-- The token has one group, and it is optional. -/
theorem isValid (text : Text) :
    ayPatternUnionTokenIsValid (token.print ++ text) token.print.length = true := by
  have groups : ((token.print ++ text).take token.print.length).count '(' = 1 := by
    rw [List.take_left, token.count_print rfl (by decide), token.group_parens.1]
  have marks : (List.range token.print.length).countP (fun i =>
      (token.print ++ text)[i]? == some ')' && (token.print ++ text)[i + 1]? == some '?') ≤ 1 := by
    have closes : token.print.count ')' = 1 := by
      rw [token.count_print rfl (by decide), token.group_parens.2]
    rw [← closes, ← countP_range_getElem?]
    apply List.countP_mono_left
    intro i inside both
    rw [Bool.and_eq_true, List.getElem?_append_left (List.mem_range.mp inside)] at both
    exact both.1
  rw [ayPatternUnionTokenIsValid, token.not_nocase, groups]
  generalize (List.range token.print.length).countP _ = qm at marks ⊢
  have cases : qm = 0 ∨ qm = 1 := by omega
  rcases cases with rfl | rfl <;> simp

theorem idxOf_mark : token.print.idxOf? '?' = some token.group.length := by
  have notBefore := not_mem_plain token.plain_before (show isWordChar '?' = false from rfl)
  have notInside := token.not_mem_branches (show isWordChar '?' = false from rfl) (by decide)
  rw [print_eq]
  apply idxOf?_append
  simp [group, notBefore, notInside]

theorem idxOf_open : token.print.idxOf? '(' = some token.before.length :=
  idxOf?_append (not_mem_plain token.plain_before rfl) _

/-- The word that is added for the token without its group. -/
def lastWord (token : OptionalToken) : Text := if token.post = [] then token.before else token.post

theorem vbarQm_eq (follows : Follows text) (idents : List Text) :
    ayPatternIdentifierVbarQm (token.print ++ text) token.print.length idents =
      some (ayPatternIdentifierAdd (idents ++ token.words) token.lastWord) := by
  have short : token.print.length < ayMaxIdentSize := token.short
  have length : token.print.length = token.group.length + 1 + token.post.length := by
    rw [print_eq, List.length_append, List.length_cons]
    omega
  have ofGroup : token.before.length ≤ token.group.length := by
    rw [group, List.length_append]
    exact Nat.le_add_right _ _
  have behind : token.print.drop (token.group.length + 1) = token.post := by
    rw [print_eq, ← List.drop_drop, List.drop_left]
    rfl
  have front : token.print.take token.before.length = token.before := by
    rw [print, List.take_left]
  have inFront : (token.print ++ text).take token.before.length = token.before := by
    rw [List.take_append_of_le_length (by omega), front]
  rw [ayPatternIdentifierVbarQm, List.take_left, token.idxOf_mark, Option.bind_some,
    token.vbar_words follows, Option.bind_some, token.idxOf_open, lastWord]
  by_cases last : token.post = []
  · rw [last, List.length_nil] at length
    rw [if_pos last, if_pos (by omega), Option.bind_some, if_neg (by omega), inFront]
    rfl
  · have positive := List.length_pos_iff.mpr last
    rw [if_neg last, if_neg (by omega), if_neg (by omega), behind]
    rfl

/-- The words that are stored for the token. -/
def added (token : OptionalToken) : List Text :=
  token.words ++ if token.lastWord = [] then [] else [token.lastWord]

theorem vbarQm_added (follows : Follows text) (idents : List Text) :
    ayPatternIdentifierVbarQm (token.print ++ text) token.print.length idents =
      some (idents ++ token.added) := by
  have noBracket : '[' ∉ token.lastWord := by
    rw [lastWord]
    split
    · exact not_mem_plain token.plain_before rfl
    · exact not_mem_plain token.plain_post rfl
  rw [token.vbarQm_eq follows, ayPatternIdentifierAdd, added]
  split
  · rw [List.append_nil]
  · rw [ayTransSubstrConversion_eq noBracket, List.append_assoc]

theorem mem_added {word : Text} :
    word ∈ token.added ↔
      (∃ branch ∈ token.branches, word = token.before ++ branch ++ token.post) ∨
        word = token.lastWord ∧ word ≠ [] := by
  have ofWords : word ∈ token.words ↔
      ∃ branch ∈ token.branches, word = token.before ++ branch ++ token.post := by
    rw [words, List.mem_map]
    simp only [eq_comm]
  rw [added, List.mem_append, ofWords]
  apply or_congr_right
  split
  · rename_i empty
    rw [empty]
    simp
  · rename_i nonempty
    rw [List.mem_singleton]
    constructor
    · rintro rfl
      exact ⟨rfl, nonempty⟩
    · exact And.left

/-- The words of the token: those with the group and, when it is not empty, the one without. -/
def IsWord (token : OptionalToken) (word : Text) : Prop :=
  (∃ branch ∈ token.branches, word = token.before ++ branch ++ token.post) ∨
    word = token.before ++ token.post ∧ word ≠ []

theorem added_iff :
    (∀ word, word ∈ token.added ↔ token.IsWord word) ↔ token.before = [] ∨ token.post = [] := by
  constructor
  · intro same
    by_contra! neither
    have nonempty : token.before ++ token.post ≠ [] :=
      List.append_ne_nil_of_left_ne_nil neither.1 token.post
    have stored := (same (token.before ++ token.post)).mpr (.inr ⟨rfl, nonempty⟩)
    obtain ⟨branch, inBranches, isBranch⟩ | ⟨isLast, -⟩ := token.mem_added.mp stored
    · rw [List.append_assoc, List.append_cancel_left_eq] at isBranch
      exact token.filled branch inBranches (List.self_eq_append_left.mp isBranch)
    · rw [lastWord, if_neg neither.2] at isLast
      exact neither.1 (List.append_left_eq_self.mp isLast)
  · intro oneSide word
    have isLast : token.lastWord = token.before ++ token.post := by
      rw [lastWord]
      obtain noBefore | noPost := oneSide
      · rw [noBefore, List.nil_append]
        split
        · rename_i noPost
          exact noPost.symm
        · rfl
      · rw [noPost, if_pos rfl, List.append_nil]
    rw [mem_added, isLast, IsWord]

end OptionalToken

/-- What is stored behind the identifiers that are there, whatever these are. -/
def Stores (ptoken : Text) (len : Nat) (isWord : Text → Prop) : Prop :=
  ∀ idents, ∃ added, ayPatternIdentifierVbarQm ptoken len idents = some (idents ++ added) ∧
    ∀ word, word ∈ added ↔ isWord word

/-- The token is accepted, and its words are stored when there is nothing on one side. -/
theorem ayPatternIdentifierVbarQm_stores (token : OptionalToken) {text : Text}
    (follows : Follows text) :
    ayPatternUnionTokenIsValid (token.print ++ text) token.print.length = true ∧
      (Stores (token.print ++ text) token.print.length token.IsWord ↔
        token.before = [] ∨ token.post = []) := by
  refine ⟨token.isValid text, ?_⟩
  rw [← token.added_iff]
  constructor
  · intro stores word
    obtain ⟨added, result, words⟩ := stores []
    rw [token.vbarQm_added follows, Option.some.injEq, List.append_cancel_left_eq] at result
    rw [result, words]
  · intro words idents
    exact ⟨token.added, token.vbarQm_added follows idents, words⟩

/-- `a(b|c)?d` -/
def middleGroup : OptionalToken where
  before := ['a']
  branches := [['b'], ['c']]
  post := ['d']
  plain := by decide
  several := by decide
  filled := by decide
  short := by decide

/-- `a(b|c)?` in front of another token. -/
def lastGroup : OptionalToken where
  before := ['a']
  branches := [['b'], ['c']]
  post := []
  plain := by decide
  several := by decide
  filled := by decide
  short := by decide

theorem ayPatternIdentifierVbarQm_stores_lastGroup :
    Stores (lastGroup.print ++ ['|', 'e']) lastGroup.print.length lastGroup.IsWord :=
  (ayPatternIdentifierVbarQm_stores lastGroup (.inr rfl)).2.mpr (.inr rfl)

/-- `d` is stored in place of `ad`. -/
theorem middleGroup_misread :
    ayPatternUnionTokenIsValid middleGroup.print middleGroup.print.length = true ∧
      ayPatternIdentifierVbarQm middleGroup.print middleGroup.print.length [] =
        some [['a', 'b', 'd'], ['a', 'c', 'd'], ['d']] ∧
      ¬ Stores middleGroup.print middleGroup.print.length middleGroup.IsWord := by
  have result : ayPatternIdentifierVbarQm middleGroup.print middleGroup.print.length [] =
      some [['a', 'b', 'd'], ['a', 'c', 'd'], ['d']] := by decide +kernel
  refine ⟨by decide, result, ?_⟩
  intro stores
  obtain ⟨added, stored, words⟩ := stores []
  rw [result, Option.some.injEq, List.nil_append] at stored
  have missing := (words ['a', 'd']).mpr (.inr ⟨rfl, by decide⟩)
  rw [← stored] at missing
  exact absurd missing (by decide)

end SysrepoAugeas.Pattern
