import SysrepoAugeas.Pnode.Resolve

/-!
# The recursion over references

`ay_pnode_set_ref` goes through all identifiers of a term and then through the
terms that they are referred to.  A term that has a value is resolved with as
much recursion as references are nested in its value.
-/

namespace SysrepoAugeas.Pnode

open SysrepoAugeas.Data
open SysrepoAugeas.Label (Text)
open SysrepoAugeas.Term (Regex Quant)

/-- How deep references are nested. -/
def refDepth : Regex → Nat
  | .union left right | .minus left right | .concat left right | .pair _ left right =>
      max (refDepth left) (refDepth right)
  | .rep child _ | .outer _ child => refDepth child
  | .reference target => refDepth target + 1
  | .string _ | .regexp _ | .compiled _ | .test => 0

@[simp]
theorem refDepth_binary (tag : BinaryTag) (left right : Regex) :
    refDepth (tag.regex left right) = max (refDepth left) (refDepth right) := by
  cases tag <;> rfl

variable {tree : List AyPnode} {decls : List Bind} {modules : List AugModule}

section References

/-- What an identifier is referred to. -/
inductive Referred (tree : List AyPnode) (modules : List AugModule) (position : Nat) (name : Text) :
    PnodeRef → Prop where
  | regexp {pattern} : ayPnodeRegexpLookupInDiffMod modules name = some pattern →
      Referred tree modules position name (.regexp pattern)
  | ref {target} : ayPnodeRegexpLookupInDiffMod modules name = none →
      identTarget tree position name = some (some target) →
      Referred tree modules position name (.ref target)

theorem Referred.unique {position : Nat} {name : Text} {ref other : PnodeRef}
    (referred : Referred tree modules position name ref)
    (otherReferred : Referred tree modules position name other) : ref = other := by
  cases referred with
  | regexp found =>
      cases otherReferred with
      | regexp otherFound => rw [Option.some.inj (found.symm.trans otherFound)]
      | ref missing => cases found.symm.trans missing
  | ref missing target =>
      cases otherReferred with
      | regexp found => cases found.symm.trans missing
      | ref _ otherTarget => rw [Option.some.inj (Option.some.inj (target.symm.trans otherTarget))]

/-- References that have been set so far. -/
structure Proper (tree : List AyPnode) (modules : List AugModule) (refs : List (Option PnodeRef)) :
    Prop where
  length : refs.length = tree.length
  referred : ∀ position name ref, (tree[position]?).map AyPnode.term = some (.aIdent name) →
    refs[position]? = some (some ref) → Referred tree modules position name ref

/-- No reference is lost or changed. -/
def Grown (refs others : List (Option PnodeRef)) : Prop :=
  ∀ (position : Nat) (ref : PnodeRef), refs[position]? = some (some ref) →
    others[position]? = some (some ref)

theorem Grown.trans {refs others last : List (Option PnodeRef)} (grown : Grown refs others)
    (more : Grown others last) : Grown refs last :=
  fun position ref found => more position ref (grown position ref found)

theorem Shows.mono {refs others : List (Option PnodeRef)} (grown : Grown refs others)
    {position : Nat} {regex : Regex} (shows : Shows tree refs position regex) :
    Shows tree others position regex := by
  induction shows with
  | binary found termIs child second _ _ left right =>
      exact .binary found termIs child second left right
  | letIn found termIs child second _ _ left right =>
      exact .letIn found termIs child second left right
  | rep found termIs child _ inner => exact .rep found termIs child inner
  | bracket found termIs child _ inner => exact .bracket found termIs child inner
  | func found termIs child _ inner => exact .func found termIs child inner
  | value found termIs regex => exact .value found termIs regex
  | reference found termIs ref _ target =>
      exact .reference found termIs (grown _ _ ref) target
  | compiled found termIs ref => exact .compiled found termIs (grown _ _ ref)

variable {refs : List (Option PnodeRef)} {position : Nat} {name : Text} {ref : PnodeRef}

/-- Setting a reference that is right. -/
theorem Proper.set (proper : Proper tree modules refs)
    (isIdent : (tree[position]?).map AyPnode.term = some (.aIdent name))
    (referred : Referred tree modules position name ref) :
    Proper tree modules (refs.set position (some ref)) ∧
      Grown refs (refs.set position (some ref)) ∧
      (refs.set position (some ref))[position]? = some (some ref) := by
  obtain ⟨node, found, -⟩ := Option.map_eq_some_iff.mp isIdent
  have inside : position < refs.length := by
    rw [proper.length]
    exact (List.getElem?_eq_some_iff.mp found).1
  have here := List.getElem?_set_self (a := some ref) inside
  refine ⟨⟨(List.length_set ..).trans proper.length, fun other otherName otherRef otherIs set => ?_⟩,
    fun other otherRef set => ?_, here⟩
  · by_cases same : position = other
    · subst same
      obtain rfl := TermNode.aIdent.inj (Option.some.inj (otherIs.symm.trans isIdent))
      rw [here] at set
      rwa [← Option.some.inj (Option.some.inj set)]
    · rw [List.getElem?_set_ne same] at set
      exact proper.referred other otherName otherRef otherIs set
  · by_cases same : position = other
    · subst same
      rw [here, referred.unique (proper.referred _ _ _ isIdent set)]
    · rwa [List.getElem?_set_ne same]

end References

section Subterms

theorem Stands.node (mirrors : Mirrors tree decls) {bind position : Nat} {env : Env} {term : Term}
    (stands : Stands modules decls bind position env term) :
    ∃ node, tree[position]? = some node ∧ node.term = term.node ∧
      node.descendants + 1 = term.size ∧
      node.child = if term.size = 1 then none else some (position + 1) := by
  obtain ⟨hole, rest, filled, rfl⟩ := stands.placed
  obtain ⟨kids, forest, count⟩ := term.exists_forest rest
  rw [forest] at filled
  obtain ⟨node, found, termIs, descendants, -, -, child⟩ := mirrors.node filled
  refine ⟨node, found, termIs, by omega, ?_⟩
  rw [child]
  by_cases leaf : kids.size = 0
  · rw [if_pos leaf, if_pos (by omega)]
  · rw [if_neg leaf, if_neg (by omega)]

theorem Stands.eq_ident (mirrors : Mirrors tree decls) {bind position : Nat} {env : Env} {term : Term}
    (stands : Stands modules decls bind position env term) {name : Text}
    (isIdent : (tree[position]?).map AyPnode.term = some (.aIdent name)) : term = .ident name := by
  obtain ⟨node, found, termIs, -⟩ := stands.node mirrors
  rw [found, Option.map_some, termIs, Option.some.injEq] at isIdent
  cases term with
  | ident other => rw [TermNode.aIdent.inj isIdent]
  | binary tag left right | letIn param body right | rep rexp quant | bracket rexp
  | func param rexp | value content => cases isIdent

theorem Stands.exists_later (mirrors : Mirrors tree decls) {bind position : Nat} {env : Env}
    {term : Term} (stands : Stands modules decls bind position env term) {name : Text}
    (notIdent : term ≠ .ident name) {offset : Nat}
    (isIdent : (tree[position + offset]?).map AyPnode.term = some (.aIdent name)) :
    ∃ more, offset = more + 1 := by
  apply Nat.exists_eq_add_one_of_ne_zero
  rintro rfl
  exact notIdent (stands.eq_ident mirrors isIdent)

/-- The identifiers of a term that has a value have values with no more references. -/
theorem Stands.exists_ident (mirrors : Mirrors tree decls) {bind position : Nat} {env : Env}
    {term : Term} (stands : Stands modules decls bind position env term) {regex : Regex}
    (meaning : term.meaning modules env = some regex) {offset : Nat} (inside : offset < term.size)
    {name : Text}
    (isIdent : (tree[position + offset]?).map AyPnode.term = some (.aIdent name)) :
    ∃ inner value, Stands modules decls bind (position + offset) inner (.ident name) ∧
      (Term.ident name).meaning modules inner = some value ∧ refDepth value ≤ refDepth regex := by
  induction term generalizing position env regex offset with
  | binary tag left right leftHypothesis rightHypothesis =>
      simp only [Term.meaning, Option.bind_eq_bind, Option.bind_eq_some_iff,
        Option.some.injEq] at meaning
      obtain ⟨leftRegex, leftMeaning, rightRegex, rightMeaning, rfl⟩ := meaning
      obtain ⟨offset, rfl⟩ := stands.exists_later mirrors nofun isIdent
      rw [refDepth_binary]
      rw [Term.size_binary] at inside
      by_cases inLeft : offset < left.size
      · rw [Nat.add_comm offset, ← Nat.add_assoc] at isIdent ⊢
        obtain ⟨inner, value, found, valueIs, bound⟩ :=
          leftHypothesis (.left stands) leftMeaning inLeft isIdent
        exact ⟨inner, value, found, valueIs, bound.trans (Nat.le_max_left _ _)⟩
      · obtain ⟨offset, rfl⟩ := Nat.exists_eq_add_of_le (Nat.le_of_not_lt inLeft)
        have place : position + (left.size + offset + 1) = position + 1 + left.size + offset := by
          omega
        rw [place] at isIdent ⊢
        obtain ⟨inner, value, found, valueIs, bound⟩ :=
          rightHypothesis (.right stands) rightMeaning (by omega) isIdent
        exact ⟨inner, value, found, valueIs, bound.trans (Nat.le_max_right _ _)⟩
  | letIn param body right bodyHypothesis rightHypothesis =>
      simp only [Term.meaning, Option.bind_eq_bind, Option.bind_eq_some_iff,
        Option.some.injEq] at meaning
      obtain ⟨boundRegex, rightMeaning, bodyRegex, bodyMeaning, rfl⟩ := meaning
      obtain ⟨offset, rfl⟩ := stands.exists_later mirrors nofun isIdent
      rw [Term.size_letIn] at inside
      have notFunc : offset ≠ 0 := by
        rintro rfl
        obtain ⟨node, found, termIs, -⟩ := (mirrors.below_letFunc stands.placed).inner
        rw [found, Option.map_some, termIs] at isIdent
        cases isIdent
      obtain ⟨offset, rfl⟩ := Nat.exists_eq_add_one_of_ne_zero notFunc
      by_cases inBody : offset < body.size
      · have place : position + (offset + 1 + 1) = position + 2 + offset := by omega
        have bodyStands := Stands.letBody stands
        rw [rightMeaning] at bodyStands
        rw [place] at isIdent ⊢
        obtain ⟨inner, value, found, valueIs, bound⟩ :=
          bodyHypothesis bodyStands bodyMeaning inBody isIdent
        exact ⟨inner, value, found, valueIs, bound.trans (Nat.le_max_left _ _)⟩
      · obtain ⟨offset, rfl⟩ := Nat.exists_eq_add_of_le (Nat.le_of_not_lt inBody)
        have place : position + (body.size + offset + 1 + 1) = position + 2 + body.size + offset := by
          omega
        rw [place] at isIdent ⊢
        obtain ⟨inner, value, found, valueIs, bound⟩ :=
          rightHypothesis (.letRight stands) rightMeaning (by omega) isIdent
        exact ⟨inner, value, found, valueIs, bound.trans (Nat.le_max_right _ _)⟩
  | rep rexp quant inductionHypothesis =>
      rw [Term.meaning, Option.map_eq_some_iff] at meaning
      obtain ⟨child, childMeaning, rfl⟩ := meaning
      obtain ⟨offset, rfl⟩ := stands.exists_later mirrors nofun isIdent
      rw [Nat.add_comm offset, ← Nat.add_assoc] at isIdent ⊢
      exact inductionHypothesis (.rep stands) childMeaning (by simpa using inside) isIdent
  | bracket brexp inductionHypothesis =>
      rw [Term.meaning, Option.map_eq_some_iff] at meaning
      obtain ⟨child, childMeaning, rfl⟩ := meaning
      obtain ⟨offset, rfl⟩ := stands.exists_later mirrors nofun isIdent
      rw [Nat.add_comm offset, ← Nat.add_assoc] at isIdent ⊢
      exact inductionHypothesis (.bracket stands) childMeaning (by simpa using inside) isIdent
  | func param body inductionHypothesis =>
      rw [Term.meaning, Option.map_eq_some_iff] at meaning
      obtain ⟨child, childMeaning, rfl⟩ := meaning
      obtain ⟨offset, rfl⟩ := stands.exists_later mirrors nofun isIdent
      rw [Nat.add_comm offset, ← Nat.add_assoc] at isIdent ⊢
      exact inductionHypothesis (.func stands) childMeaning (by simpa using inside) isIdent
  | value content =>
      obtain ⟨offset, rfl⟩ := stands.exists_later mirrors nofun isIdent
      exact absurd inside (by simp)
  | ident other =>
      obtain rfl := Nat.lt_one_iff.mp inside
      obtain rfl := Term.ident.inj (stands.eq_ident mirrors isIdent)
      exact ⟨env, regex, stands, meaning, Nat.le_refl _⟩

end Subterms

section Compose

/-- The identifier at a position shows its value, if references in it are not nested deeper. -/
def Settled (tree : List AyPnode) (modules : List AugModule) (decls : List Bind) (depth : Nat)
    (refs : List (Option PnodeRef)) (position : Nat) : Prop :=
  ∀ bind env name regex, Stands modules decls bind position env (.ident name) →
    (Term.ident name).meaning modules env = some regex → refDepth regex ≤ depth →
    Shows tree refs position regex

theorem Settled.mono {depth position : Nat} {refs others : List (Option PnodeRef)}
    (grown : Grown refs others) (settled : Settled tree modules decls depth refs position) :
    Settled tree modules decls depth others position :=
  fun bind env name regex stands meaning bound =>
    (settled bind env name regex stands meaning bound).mono grown

/-- Where the second of two terms is found. -/
theorem Mirrors.next_left (mirrors : Mirrors tree decls) {position : Nat} {tag : BinaryTag}
    {left right : Term} (placed : Placed decls position (.binary tag left right)) :
    (tree[position + 1]?).bind AyPnode.next = some (position + 1 + left.size) := by
  obtain ⟨hole, rest, filled, rfl⟩ := placed
  obtain ⟨kids, forest, count⟩ := left.exists_forest (right.forest .nil)
  have inner : moduleForest decls =
      (Forest.Hole.under (.binary tag) rest hole).fill (left.forest (right.forest .nil)) := filled
  rw [forest] at inner
  obtain ⟨node, found, -, -, -, next, -⟩ := mirrors.node inner
  have some : (right.forest .nil).size ≠ 0 := right.size_pos.ne'
  rw [if_neg some] at next
  rw [Forest.Hole.index] at found next
  rw [found, Option.bind_some, next, Option.some.injEq]
  omega

/-- A term shows its value when its identifiers do. -/
theorem Stands.shows (mirrors : Mirrors tree decls) {bind position : Nat} {env : Env} {term : Term}
    (stands : Stands modules decls bind position env term) {regex : Regex}
    (meaning : term.meaning modules env = some regex) {depth : Nat} (bound : refDepth regex ≤ depth)
    {refs : List (Option PnodeRef)}
    (settled : ∀ offset < term.size, Settled tree modules decls depth refs (position + offset)) :
    Shows tree refs position regex := by
  -- the settled identifiers of a term inside
  have within {start size : Nat} {term : Term} (inside : start + size ≤ term.size)
      {position : Nat}
      (settled : ∀ offset < term.size, Settled tree modules decls depth refs (position + offset)) :
      ∀ offset < size, Settled tree modules decls depth refs (position + start + offset) := by
    intro offset small
    rw [Nat.add_assoc]
    exact settled _ (by omega)
  induction term generalizing position env regex with
  | binary tag left right leftHypothesis rightHypothesis =>
      simp only [Term.meaning, Option.bind_eq_bind, Option.bind_eq_some_iff,
        Option.some.injEq] at meaning
      obtain ⟨leftRegex, leftMeaning, rightRegex, rightMeaning, rfl⟩ := meaning
      obtain ⟨node, found, termIs, -, child⟩ := stands.node mirrors
      have positive := left.size_pos
      have size := Term.size_binary tag left right
      rw [refDepth_binary] at bound
      rw [if_neg (by omega)] at child
      refine .binary found termIs child (mirrors.next_left stands.placed) ?_ ?_
      · exact leftHypothesis (.left stands) leftMeaning (by omega) (within (by omega) settled)
      · have settledRight := @within (1 + left.size) right.size _ (by omega) _ settled
        rw [← Nat.add_assoc] at settledRight
        exact rightHypothesis (.right stands) rightMeaning (by omega) settledRight
  | letIn param body right bodyHypothesis rightHypothesis =>
      simp only [Term.meaning, Option.bind_eq_bind, Option.bind_eq_some_iff,
        Option.some.injEq] at meaning
      obtain ⟨boundRegex, rightMeaning, bodyRegex, bodyMeaning, rfl⟩ := meaning
      obtain ⟨node, found, termIs, -, child⟩ := stands.node mirrors
      obtain ⟨next, func, foundFunc, isFunc, funcChild⟩ := mirrors.next_letFunc stands.placed
      have size : (Term.letIn param body right).size = body.size + right.size + 2 := by simp
      have both : max (refDepth bodyRegex) (refDepth boundRegex) ≤ depth := bound
      rw [if_neg (by omega)] at child
      refine .letIn found termIs child next (.func foundFunc isFunc funcChild ?_) ?_
      · have bodyStands := Stands.letBody stands
        rw [rightMeaning] at bodyStands
        exact bodyHypothesis bodyStands bodyMeaning (by omega) (within (by omega) settled)
      · have settledRight := @within (2 + body.size) right.size _ (by omega) _ settled
        rw [← Nat.add_assoc] at settledRight
        exact rightHypothesis (.letRight stands) rightMeaning (by omega) settledRight
  | rep rexp quant inductionHypothesis =>
      rw [Term.meaning, Option.map_eq_some_iff] at meaning
      obtain ⟨regex, innerMeaning, rfl⟩ := meaning
      obtain ⟨node, found, termIs, -, child⟩ := stands.node mirrors
      have size := Term.size_rep rexp quant
      have positive := rexp.size_pos
      rw [if_neg (by omega)] at child
      exact .rep found termIs child
        (inductionHypothesis (.rep stands) innerMeaning bound (within (by omega) settled))
  | bracket brexp inductionHypothesis =>
      rw [Term.meaning, Option.map_eq_some_iff] at meaning
      obtain ⟨regex, innerMeaning, rfl⟩ := meaning
      obtain ⟨node, found, termIs, -, child⟩ := stands.node mirrors
      have size := Term.size_bracket brexp
      have positive := brexp.size_pos
      rw [if_neg (by omega)] at child
      exact .bracket found termIs child
        (inductionHypothesis (.bracket stands) innerMeaning bound (within (by omega) settled))
  | func param body inductionHypothesis =>
      rw [Term.meaning, Option.map_eq_some_iff] at meaning
      obtain ⟨regex, innerMeaning, rfl⟩ := meaning
      obtain ⟨node, found, termIs, -, child⟩ := stands.node mirrors
      have size : (Term.func param body).size = body.size + 1 := by simp
      have positive := body.size_pos
      rw [if_neg (by omega)] at child
      exact .func found termIs child
        (inductionHypothesis (.func stands) innerMeaning bound (within (by omega) settled))
  | value content =>
      obtain ⟨node, found, termIs, -⟩ := stands.node mirrors
      exact .value found termIs meaning
  | ident name => exact settled 0 Nat.one_pos bind env name regex stands meaning bound

end Compose

section Run

/-- A loop over indices that keeps an invariant. -/
theorem exists_foldlM_range {State : Type} {step : State → Nat → Option State}
    {invariant : Nat → State → Prop} {count : Nat} {start : State} (holds : invariant 0 start)
    (keeps : ∀ index state, index < count → invariant index state →
      ∃ after, step state index = some after ∧ invariant (index + 1) after) :
    ∃ final, (List.range count).foldlM step start = some final ∧ invariant count final := by
  induction count with
  | zero => exact ⟨start, rfl, holds⟩
  | succ count inductionHypothesis =>
      obtain ⟨middle, run, reached⟩ := inductionHypothesis fun index state small =>
        keeps index state (by omega)
      obtain ⟨after, stepped, kept⟩ := keeps count middle (Nat.lt_succ_self _) reached
      refine ⟨after, ?_, kept⟩
      rw [List.range_succ, List.foldlM_append, run]
      simp [stepped]

/-- An identifier with a value is referred to a term with this value. -/
theorem Stands.identTarget (mirrors : Mirrors tree decls) (distinct : (decls.map Bind.bname).Nodup)
    {bind position : Nat} {env : Env} {name : Text} {regex : Regex}
    (stands : Stands modules decls bind position env (.ident name)) (value : env name = some regex) :
    ∃ target binding outer other, identTarget tree position name = some (some target) ∧
      Stands modules decls binding target outer other ∧
      other.meaning modules outer = some regex := by
  obtain ⟨target, binding, outer, other, finds, found⟩ :=
    stands.finds mirrors distinct value fun _ => nofun
  have bindIs := stands.bind_eq mirrors Nat.one_pos
  exact ⟨target, binding, outer, other, finds.identTarget bindIs, found⟩

section Step

variable {setRef : Nat → List (Option PnodeRef) → Option (List (Option PnodeRef))}
  {refs : List (Option PnodeRef)} {position : Nat} {name : Text}

theorem setIdentRef_other {node : AyPnode} (found : tree[position]? = some node)
    (notIdent : ∀ name, node.term ≠ .aIdent name) :
    setIdentRef tree modules setRef refs position = some refs := by
  rw [setIdentRef, found, Option.bind_eq_bind, Option.bind_some]
  cases termIs : node.term with
  | aIdent name => exact absurd termIs (notIdent name)
  | aModule | aBind bname | binary tag | aLet | aRep quant | aBracket | aFunc param
  | aValue content => rfl

theorem setIdentRef_regexp (isIdent : (tree[position]?).map AyPnode.term = some (.aIdent name))
    {pattern : Text} (compiled : ayPnodeRegexpLookupInDiffMod modules name = some pattern) :
    setIdentRef tree modules setRef refs position =
      some (refs.set position (some (.regexp pattern))) := by
  obtain ⟨node, found, termIs⟩ := Option.map_eq_some_iff.mp isIdent
  rw [setIdentRef, found, Option.bind_eq_bind, Option.bind_some, termIs]
  simp only [compiled]

theorem setIdentRef_ref (isIdent : (tree[position]?).map AyPnode.term = some (.aIdent name))
    (missing : ayPnodeRegexpLookupInDiffMod modules name = none) {target : Nat}
    (targetIs : identTarget tree position name = some (some target)) :
    setIdentRef tree modules setRef refs position =
      setRef target (refs.set position (some (.ref target))) := by
  obtain ⟨node, found, termIs⟩ := Option.map_eq_some_iff.mp isIdent
  rw [setIdentRef, found, Option.bind_eq_bind, Option.bind_some, termIs]
  simp only [missing, targetIs, Option.bind_eq_bind, Option.bind_some]

end Step

/-- Terms with fewer nested references are resolved by the recursive call. -/
def Recurses (tree : List AyPnode) (modules : List AugModule) (decls : List Bind) (depth fuel : Nat) :
    Prop :=
  ∀ {bind position : Nat} {env : Env} {term : Term} {regex : Regex} {refs : List (Option PnodeRef)},
    Stands modules decls bind position env term → term.meaning modules env = some regex →
    refDepth regex < depth → Proper tree modules refs →
    ∃ resolved, ayPnodeSetRef tree modules fuel position refs = some resolved ∧
      Proper tree modules resolved ∧ Grown refs resolved ∧ Shows tree resolved position regex

/-- One round of the loop settles an identifier. -/
theorem Recurses.settles (mirrors : Mirrors tree decls) (distinct : (decls.map Bind.bname).Nodup)
    {depth fuel : Nat} (recurses : Recurses tree modules decls depth fuel)
    {refs : List (Option PnodeRef)} (proper : Proper tree modules refs) {bind position : Nat}
    {env : Env} {name : Text} {regex : Regex}
    (stands : Stands modules decls bind position env (.ident name))
    (meaning : (Term.ident name).meaning modules env = some regex) (bound : refDepth regex ≤ depth) :
    ∃ after, setIdentRef tree modules (ayPnodeSetRef tree modules fuel) refs position = some after ∧
      Proper tree modules after ∧ Grown refs after ∧
      Settled tree modules decls depth after position := by
  obtain ⟨node, found, termIs, -⟩ := stands.node mirrors
  have isIdent : (tree[position]?).map AyPnode.term = some (.aIdent name) := by
    rw [found, Option.map_some, termIs]
    rfl
  rw [Term.meaning] at meaning
  cases compiled : ayPnodeRegexpLookupInDiffMod modules name with
  | some pattern =>
      obtain ⟨properSet, grown, here⟩ := proper.set isIdent (.regexp compiled)
      refine ⟨_, setIdentRef_regexp isIdent compiled, properSet, grown, ?_⟩
      intro binding inner other value otherStands valueIs _
      obtain rfl := Term.ident.inj (otherStands.eq_ident mirrors isIdent)
      rw [Term.meaning, compiled] at valueIs
      obtain rfl := Option.some.inj valueIs
      exact .compiled found termIs here
  | none =>
      rw [compiled] at meaning
      obtain ⟨value, valueIs, rfl⟩ := Option.map_eq_some_iff.mp meaning
      obtain ⟨target, binding, outer, term, targetIs, targetStands, targetMeaning⟩ :=
        stands.identTarget mirrors distinct valueIs
      obtain ⟨properSet, grown, here⟩ := proper.set isIdent (.ref compiled targetIs)
      obtain ⟨after, run, properAfter, grownAfter, -⟩ :=
        recurses targetStands targetMeaning bound properSet
      refine ⟨after, (setIdentRef_ref isIdent compiled targetIs).trans run, properAfter,
        grown.trans grownAfter, ?_⟩
      intro otherBind inner other otherRegex otherStands otherMeaning otherBound
      obtain rfl := Term.ident.inj (otherStands.eq_ident mirrors isIdent)
      rw [Term.meaning, compiled] at otherMeaning
      obtain ⟨otherValue, otherIs, rfl⟩ := Option.map_eq_some_iff.mp otherMeaning
      obtain ⟨again, _, _, _, againIs, againStands, againMeaning⟩ :=
        otherStands.identTarget mirrors distinct otherIs
      obtain rfl := Option.some.inj (Option.some.inj (targetIs.symm.trans againIs))
      obtain ⟨same, runSame, -, -, shows⟩ := recurses againStands againMeaning otherBound properSet
      obtain rfl := Option.some.inj (run.symm.trans runSame)
      exact .reference found termIs (grownAfter _ _ here) shows

/-- Resolving a term ends, and then it shows its value. -/
theorem exists_setRef (mirrors : Mirrors tree decls) (distinct : (decls.map Bind.bname).Nodup)
    (depth : Nat) {bind position : Nat} {env : Env} {term : Term} {regex : Regex}
    (stands : Stands modules decls bind position env term)
    (meaning : term.meaning modules env = some regex) (bound : refDepth regex ≤ depth)
    {fuel : Nat} (enough : depth < fuel) {refs : List (Option PnodeRef)}
    (proper : Proper tree modules refs) :
    ∃ resolved, ayPnodeSetRef tree modules fuel position refs = some resolved ∧
      Proper tree modules resolved ∧ Grown refs resolved ∧ Shows tree resolved position regex := by
  induction depth using Nat.strongRecOn generalizing bind position env term regex fuel refs with
  | ind depth inductionHypothesis =>
  obtain ⟨fuel, rfl⟩ := Nat.exists_eq_add_one_of_ne_zero (Nat.ne_zero_of_lt enough)
  obtain ⟨node, found, -, count, -⟩ := stands.node mirrors
  -- every identifier in front is settled
  let invariant (index : Nat) (state : List (Option PnodeRef)) : Prop :=
    Proper tree modules state ∧ Grown refs state ∧
      ∀ offset < index, Settled tree modules decls depth state (position + offset)
  have holds : invariant 0 refs := ⟨proper, fun _ _ set => set, fun _ small => nomatch small⟩
  have loop := @exists_foldlM_range _
    (fun refs i => setIdentRef tree modules (ayPnodeSetRef tree modules fuel) refs (position + i))
    invariant term.size refs holds ?_
  · obtain ⟨resolved, run, properAfter, grown, settled⟩ := loop
    refine ⟨resolved, ?_, properAfter, grown, stands.shows mirrors meaning bound settled⟩
    rw [ayPnodeSetRef, found, Option.bind_eq_bind, Option.bind_some, count]
    exact run
  · rintro index state small ⟨properState, grownState, settled⟩
    have recurses : Recurses tree modules decls depth fuel :=
      fun stands meaning less proper => inductionHypothesis _ less stands meaning (Nat.le_refl _)
        (by omega) proper
    obtain ⟨inner, foundInner, -⟩ := Option.map_eq_some_iff.mp (stands.bind_eq mirrors small)
    by_cases isIdent : ∃ name, inner.term = .aIdent name
    · obtain ⟨name, isIdent⟩ := isIdent
      obtain ⟨env, value, identStands, valueIs, fewer⟩ := stands.exists_ident mirrors meaning small
        (by rw [foundInner, Option.map_some, isIdent])
      obtain ⟨after, run, properAfter, grownAfter, here⟩ :=
        recurses.settles mirrors distinct properState identStands valueIs (fewer.trans bound)
      refine ⟨after, run, properAfter, grownState.trans grownAfter, fun offset inFront => ?_⟩
      rcases Nat.lt_succ_iff_lt_or_eq.mp inFront with further | rfl
      · exact (settled offset further).mono grownAfter
      · exact here
    · refine ⟨state, setIdentRef_other foundInner fun name is => isIdent ⟨name, is⟩, properState,
        grownState, fun offset inFront => ?_⟩
      rcases Nat.lt_succ_iff_lt_or_eq.mp inFront with further | rfl
      · exact settled offset further
      · intro binding env name regex identStands
        obtain ⟨node, found, termIs, -⟩ := identStands.node mirrors
        obtain rfl := Option.some.inj (foundInner.symm.trans found)
        exact absurd ⟨name, termIs⟩ isIdent

theorem proper_none : Proper tree modules (List.replicate tree.length none) where
  length := List.length_replicate
  referred position name ref _ set := by
    rw [List.getElem?_replicate] at set
    split at set
    · cases Option.some.inj set
    · cases set

/-- Where the environment of a term gives it a value, `ay_pnode_set_ref` ends and refers every
identifier to what it stands for there; what was set before is kept. -/
theorem ayPnodeSetRef_shows (distinct : (decls.map Bind.bname).Nodup) {bind position : Nat}
    {env : Env} {term : Term} {regex : Regex} (stands : Stands modules decls bind position env term)
    (meaning : term.meaning modules env = some regex) {fuel : Nat} (enough : refDepth regex < fuel)
    {refs : List (Option PnodeRef)} (proper : Proper (ayPnodeCreate decls) modules refs) :
    ∃ resolved, ayPnodeSetRef (ayPnodeCreate decls) modules fuel position refs = some resolved ∧
      Proper (ayPnodeCreate decls) modules resolved ∧ Grown refs resolved ∧
      Shows (ayPnodeCreate decls) resolved position regex :=
  exists_setRef (ayPnodeCreate_mirrors decls) distinct (refDepth regex) stands meaning
    (Nat.le_refl _) enough proper

/-- `let a = /x/` and `let lns = let b = "y" in a | b . b` -/
def scopedDecls : List Bind :=
  [⟨['a'], .value (.vRegexp ['x'])⟩,
    ⟨['l', 'n', 's'], .letIn ['b']
      (.binary .aUnion (.ident ['a']) (.binary .aConcat (.ident ['b']) (.ident ['b'])))
      (.value (.vString ['y']))⟩]

/-- The environment inside the second declaration. -/
def scopedEnv : Env :=
  Function.update (declsEnv [] (scopedDecls.take 1)) ['b'] (some (.string ['y']))

theorem ayPnodeSetRef_shows_let :
    ∃ resolved, ayPnodeSetRef (ayPnodeCreate scopedDecls) [] 2 6
        (List.replicate (ayPnodeCreate scopedDecls).length none) = some resolved ∧
      Proper (ayPnodeCreate scopedDecls) [] resolved ∧
      Grown (List.replicate (ayPnodeCreate scopedDecls).length none) resolved ∧
      Shows (ayPnodeCreate scopedDecls) resolved 6
        (.union (.reference (.regexp ['x']))
          (.concat (.reference (.string ['y'])) (.reference (.string ['y'])))) := by
  have outer : Stands [] scopedDecls 3 4 _ _ :=
    @Stands.exp [] scopedDecls 3 (scopedDecls.take 1) scopedDecls[1] [] rfl rfl
  exact ayPnodeSetRef_shows (by decide) (.letBody outer) (by decide) (by decide) proper_none

end Run

section Functions

/-- The name occurs, and no `let` inside binds it there. -/
def Term.Uses (name : Text) : Term → Prop
  | .binary _ left right => left.Uses name ∨ right.Uses name
  | .letIn param body right =>
      param ≠ name ∧ body.Uses name ∨ right.node ≠ .aFunc name ∧ right.Uses name
  | .rep inner _ | .bracket inner | .func _ inner => inner.Uses name
  | .value _ => False
  | .ident other => other = name

/-- Where a name occurs, the loop of `ay_pnode_find_func` ends like at the whole term. -/
theorem Stands.exists_use (mirrors : Mirrors tree decls) {bind position : Nat} {env : Env}
    {term : Term} (stands : Stands modules decls bind position env term) {name : Text}
    (uses : term.Uses name) {found : Option Nat} (climbs : Climbs tree bind name position found) :
    ∃ offset inner, offset < term.size ∧
      Stands modules decls bind (position + offset) inner (.ident name) ∧
      Climbs tree bind name (position + offset) found := by
  induction term generalizing position env with
  | binary tag left right leftHypothesis rightHypothesis =>
      rcases uses with inLeft | inRight
      · have leftStands := Stands.left stands
        obtain ⟨offset, inner, inside, use, climbsUse⟩ := leftHypothesis leftStands inLeft
          (climbs.pass (mirrors.below_left stands.placed) leftStands.bind_lt.ne' fun _ => nofun)
        rw [Nat.add_assoc] at use climbsUse
        exact ⟨1 + offset, inner, by rw [Term.size_binary]; omega, use, climbsUse⟩
      · have rightStands := Stands.right stands
        obtain ⟨offset, inner, inside, use, climbsUse⟩ := rightHypothesis rightStands inRight
          (climbs.pass (mirrors.below_right stands.placed) rightStands.bind_lt.ne' fun _ => nofun)
        have place : position + 1 + left.size + offset = position + (1 + left.size + offset) := by
          omega
        rw [place] at use climbsUse
        exact ⟨_, inner, by rw [Term.size_binary]; omega, use, climbsUse⟩
  | letIn param body right bodyHypothesis rightHypothesis =>
      rcases uses with ⟨other, inBody⟩ | ⟨notFunc, inRight⟩
      · have bodyStands := Stands.letBody stands
        have funcNe : position + 1 ≠ bind := by
          have := stands.bind_lt
          omega
        have atFunc := climbs.pass (mirrors.below_letFunc stands.placed) funcNe
          fun isFunc => absurd (TermNode.aFunc.inj isFunc) other
        obtain ⟨offset, inner, inside, use, climbsUse⟩ := bodyHypothesis bodyStands inBody
          (atFunc.pass (mirrors.below_letBody stands.placed) bodyStands.bind_lt.ne' fun _ => nofun)
        rw [Nat.add_assoc] at use climbsUse
        exact ⟨2 + offset, inner, by rw [Term.size_letIn]; omega, use, climbsUse⟩
      · have rightStands := Stands.letRight stands
        obtain ⟨offset, inner, inside, use, climbsUse⟩ := rightHypothesis rightStands inRight
          (climbs.pass (mirrors.below_letRight stands.placed) rightStands.bind_lt.ne'
            fun isFunc => absurd isFunc notFunc)
        have place : position + 2 + body.size + offset = position + (2 + body.size + offset) := by
          omega
        rw [place] at use climbsUse
        exact ⟨_, inner, by rw [Term.size_letIn]; omega, use, climbsUse⟩
  | rep rexp quant inductionHypothesis =>
      have inner := Stands.rep stands
      obtain ⟨hole, rest, filled, rfl⟩ := stands.placed
      obtain ⟨offset, outer, inside, use, climbsUse⟩ := inductionHypothesis inner uses
        (climbs.pass (mirrors.below_only filled) inner.bind_lt.ne' fun _ => nofun)
      rw [Nat.add_assoc] at use climbsUse
      exact ⟨1 + offset, outer, by rw [Term.size_rep]; omega, use, climbsUse⟩
  | bracket brexp inductionHypothesis =>
      have inner := Stands.bracket stands
      obtain ⟨hole, rest, filled, rfl⟩ := stands.placed
      obtain ⟨offset, outer, inside, use, climbsUse⟩ := inductionHypothesis inner uses
        (climbs.pass (mirrors.below_only filled) inner.bind_lt.ne' fun _ => nofun)
      rw [Nat.add_assoc] at use climbsUse
      exact ⟨1 + offset, outer, by rw [Term.size_bracket]; omega, use, climbsUse⟩
  | func param body inductionHypothesis =>
      have inner := Stands.func stands
      obtain ⟨hole, rest, filled, rfl⟩ := stands.placed
      obtain ⟨offset, outer, inside, use, climbsUse⟩ := inductionHypothesis inner uses
        (climbs.pass (mirrors.below_only filled) inner.bind_lt.ne' fun _ => nofun)
      rw [Nat.add_assoc] at use climbsUse
      exact ⟨1 + offset, outer, by rw [Term.size_func]; omega, use, climbsUse⟩
  | value content => exact uses.elim
  | ident other =>
      obtain rfl : other = name := uses
      exact ⟨0, env, Nat.one_pos, stands, climbs⟩

theorem foldlM_range_none {State : Type} {step : State → Nat → Option State} {count index : Nat}
    (inside : index < count) (fails : ∀ state, step state index = none) (start : State) :
    (List.range count).foldlM step start = none := by
  induction count with
  | zero => cases inside
  | succ count inductionHypothesis =>
      rw [List.range_succ, List.foldlM_append]
      rcases Nat.lt_succ_iff_lt_or_eq.mp inside with further | rfl
      · rw [inductionHypothesis further]
        rfl
      · cases (List.range index).foldlM step start with
        | none => rfl
        | some state => simp [fails]

/-- The recursion does not end if it does not end for what an identifier is referred to. -/
theorem setRef_none (mirrors : Mirrors tree decls) {bind position : Nat} {env inner : Env}
    {term : Term} (stands : Stands modules decls bind position env term) {offset : Nat}
    (inside : offset < term.size) {name : Text}
    (use : Stands modules decls bind (position + offset) inner (.ident name)) (plain : '.' ∉ name)
    {target : Nat} (targetIs : identTarget tree (position + offset) name = some (some target))
    {fuel : Nat} (endless : ∀ refs, ayPnodeSetRef tree modules fuel target refs = none)
    (refs : List (Option PnodeRef)) :
    ayPnodeSetRef tree modules (fuel + 1) position refs = none := by
  obtain ⟨node, found, -, count, -⟩ := stands.node mirrors
  obtain ⟨ident, foundIdent, termIs, -⟩ := use.node mirrors
  have isIdent : (tree[position + offset]?).map AyPnode.term = some (.aIdent name) := by
    rw [foundIdent, Option.map_some, termIs]
    rfl
  have missing : ayPnodeRegexpLookupInDiffMod modules name = none := if_neg plain
  rw [ayPnodeSetRef, found, Option.bind_eq_bind, Option.bind_some, count]
  apply foldlM_range_none inside
  intro state
  rw [setIdentRef_ref isIdent missing targetIs, endless]

/-- A function that a `let` defines with a parameter is referred to through this parameter again:
a term that uses the function is never resolved. -/
theorem ayPnodeSetRef_endless {bind position : Nat} {env : Env} {param arg : Text}
    {body inner : Term}
    (stands : Stands modules decls bind position env (.letIn param body (.func arg inner)))
    (plain : '.' ∉ param ∧ '.' ∉ arg) (applied : body.Uses param) (uses : inner.Uses arg)
    (fuel : Nat) (refs : List (Option PnodeRef)) :
    ayPnodeSetRef (ayPnodeCreate decls) modules fuel (position + 2) refs = none := by
  have mirrors := ayPnodeCreate_mirrors decls
  have bodyStands := Stands.letBody stands
  have funcStands := Stands.letRight stands
  have innerStands := Stands.func funcStands
  have belowFunc := mirrors.below_letFunc stands.placed
  have belowRight := mirrors.below_letRight stands.placed
  have funcNe : position + 1 ≠ bind := by
    have := stands.bind_lt
    omega
  -- the parameter of the function leads back to the function
  have argument : funcArgument (ayPnodeCreate decls) (position + 2 + body.size) =
      some (position + 2 + body.size) :=
    funcArgument_eq mirrors stands.placed belowRight
  have climbsArg : Climbs (ayPnodeCreate decls) bind arg (position + 2 + body.size)
      (some (position + 2 + body.size)) := by
    obtain ⟨node, found, termIs, parentIs⟩ := belowRight.inner
    obtain ⟨above, foundAbove, aboveIs⟩ := belowRight.outer
    exact climbs_func funcStands.bind_lt.ne' found termIs parentIs foundAbove aboveIs
  obtain ⟨hole, rest, filled, holeIs⟩ := funcStands.placed
  have belowInner := mirrors.below_only filled
  rw [holeIs] at belowInner
  obtain ⟨offset, env', inside, use, climbsUse⟩ := innerStands.exists_use mirrors uses
    (climbsArg.pass belowInner innerStands.bind_lt.ne' fun _ => nofun)
  rw [Nat.add_assoc] at use climbsUse
  have loops : identTarget (ayPnodeCreate decls) (position + 2 + body.size + (1 + offset)) arg =
      some (some (position + 2 + body.size)) :=
    Finds.identTarget (.inl ⟨_, climbsUse, argument⟩) (use.bind_eq mirrors Nat.one_pos)
  have endless (fuel : Nat) : ∀ refs, ayPnodeSetRef (ayPnodeCreate decls) modules fuel
      (position + 2 + body.size) refs = none := by
    induction fuel with
    | zero => exact fun _ => rfl
    | succ fuel inductionHypothesis =>
        exact setRef_none mirrors funcStands (by rw [Term.size_func]; omega) use plain.2 loops
          inductionHypothesis
  -- the name of the function leads to it
  have climbsParam : Climbs (ayPnodeCreate decls) bind param (position + 1) (some (position + 1)) := by
    obtain ⟨node, found, termIs, parentIs⟩ := belowFunc.inner
    obtain ⟨above, foundAbove, aboveIs⟩ := belowFunc.outer
    exact climbs_func funcNe found termIs parentIs foundAbove aboveIs
  obtain ⟨offset', env'', inside', use', climbsUse'⟩ := bodyStands.exists_use mirrors applied
    (climbsParam.pass (mirrors.below_letBody stands.placed) bodyStands.bind_lt.ne' fun _ => nofun)
  have calls : identTarget (ayPnodeCreate decls) (position + 2 + offset') param =
      some (some (position + 2 + body.size)) :=
    Finds.identTarget (.inl ⟨_, climbsUse', funcArgument_eq mirrors stands.placed belowFunc⟩)
      (use'.bind_eq mirrors Nat.one_pos)
  cases fuel with
  | zero => rfl
  | succ fuel => exact setRef_none mirrors bodyStands inside' use' plain.1 calls (endless fuel) refs

/-- `let lns = let f (x:regexp) = x in f` -/
def functionDecls : List Bind :=
  [⟨['l', 'n', 's'], .letIn ['f'] (.ident ['f']) (.func ['x'] (.ident ['x']))⟩]

theorem ayPnodeSetRef_endless_function :
    ayPnodeSetRef (ayPnodeCreate functionDecls) [] 4096 4
      (List.replicate (ayPnodeCreate functionDecls).length none) = none := by
  have outer : Stands [] functionDecls 1 2 _ _ :=
    @Stands.exp [] functionDecls 1 [] functionDecls[0] [] rfl rfl
  exact ayPnodeSetRef_endless outer (by decide) rfl rfl _ _

end Functions

end SysrepoAugeas.Pnode
