import Mathlib.Data.List.Basic
import SysrepoAugeas.Data.Uproot

/-!
# Forests with shared parts

A node may define a name for the trees below it, and a leaf may call a name
instead of the trees.  Expanding the forest in preorder puts these trees in
place of every call; a name is defined before it is called.
-/

namespace SysrepoAugeas.Data.Forest

universe u v w x

/-- What a node is there for. -/
inductive Role (Name : Type w) where
  | keep
  /-- In place of the trees that the name is defined as. -/
  | call (name : Name)
  /-- For the name of the trees below the node. -/
  | define (name : Name)
  deriving DecidableEq

/-- Names with the trees they are defined as, the last definition first. -/
abbrev Definitions (Name : Type w) (Shape : Type x) := List (Name × Forest Shape)

section All

variable {Label : Type u}

/-- A property of every node with its children. -/
def All (holds : Label → Forest Label → Prop) : Forest Label → Prop
  | nil => True
  | cons label kids rest => holds label kids ∧ kids.All holds ∧ rest.All holds

instance decidableAll {holds : Label → Forest Label → Prop}
    [∀ label kids, Decidable (holds label kids)] :
    (forest : Forest Label) → Decidable (forest.All holds)
  | nil => inferInstanceAs (Decidable True)
  | cons label kids rest =>
      have := @decidableAll holds _ kids
      have := @decidableAll holds _ rest
      inferInstanceAs (Decidable (holds label kids ∧ kids.All holds ∧ rest.All holds))

theorem All.append {holds : Label → Forest Label → Prop} {forest other : Forest Label} :
    (forest.append other).All holds ↔ forest.All holds ∧ other.All holds := by
  induction forest with
  | nil => simp [Forest.append, All]
  | cons label kids rest _ restHypothesis =>
      simp only [Forest.append, All, restHypothesis, and_assoc]

theorem All.mono {holds holdsToo : Label → Forest Label → Prop} {forest : Forest Label}
    (all : forest.All holds) (implies : ∀ label kids, holds label kids → holdsToo label kids) :
    forest.All holdsToo := by
  induction forest with
  | nil => exact trivial
  | cons label kids rest kidsHypothesis restHypothesis =>
      exact ⟨implies _ _ all.1, kidsHypothesis all.2.1, restHypothesis all.2.2⟩

theorem map_append {Other : Type v} (relabel : Label → Other) (forest other : Forest Label) :
    (forest.append other).map relabel = (forest.map relabel).append (other.map relabel) := by
  induction forest with
  | nil => rfl
  | cons label kids rest _ restHypothesis =>
      rw [Forest.append, map, map, Forest.append, restHypothesis]

theorem labels_map {Other : Type v} (relabel : Label → Other) (forest : Forest Label) :
    (forest.map relabel).labels = forest.labels.map relabel := by
  rw [labels, labels, flat_map, List.map_map, List.map_map]
  rfl

theorem eq_nil_of_map {Other : Type v} {relabel : Label → Other} {forest : Forest Label}
    (empty : forest.map relabel = nil) : forest = nil := by
  cases forest with
  | nil => rfl
  | cons _ _ _ => cases empty

theorem All.of_labels {holds : Label → Prop} {forest : Forest Label}
    (all : ∀ label ∈ forest.labels, holds label) :
    forest.All fun label _ => holds label := by
  induction forest with
  | nil => exact trivial
  | cons node kids rest kidsHypothesis restHypothesis =>
      rw [labels_cons, List.forall_mem_cons, List.forall_mem_append] at all
      exact ⟨all.1, kidsHypothesis all.2.1, restHypothesis all.2.2⟩

theorem All.and {holds holdsToo : Label → Forest Label → Prop} {forest : Forest Label}
    (all : forest.All holds)
    (allToo : forest.All holdsToo) : forest.All fun label below => holds label below ∧
      holdsToo label below := by
  induction forest with
  | nil => exact trivial
  | cons node kids rest kidsHypothesis restHypothesis =>
      exact ⟨⟨all.1, allToo.1⟩, kidsHypothesis all.2.1 allToo.2.1,
        restHypothesis all.2.2 allToo.2.2⟩

end All

variable {Label : Type u} {Origin : Type v} {Name : Type w} {Shape : Type x} [DecidableEq Name]

/-- Every call replaced by what its name is defined as, with the definitions that are known
behind the forest. -/
def expand (role : Label → Role Name) (shape : Label → Shape) :
    Definitions Name Shape → Forest Label → Option (Forest Shape × Definitions Name Shape)
  | known, nil => some (nil, known)
  | known, cons label kids rest =>
      match role label with
      | .keep =>
          (expand role shape known kids).bind fun below =>
            (expand role shape below.2 rest).map fun behind =>
              (cons (shape label) below.1 behind.1, behind.2)
      | .call name =>
          (known.lookup name).bind fun trees =>
            (expand role shape known rest).map fun behind => (trees.append behind.1, behind.2)
      | .define name =>
          (expand role shape known kids).bind fun below =>
            expand role shape ((name, below.1) :: below.2) rest

/-- All names of the first definitions are defined as the same trees in the second ones. -/
def Extends (known more : Definitions Name Shape) : Prop :=
  ∀ name trees, known.lookup name = some trees → more.lookup name = some trees

theorem Extends.refl (known : Definitions Name Shape) : Extends known known :=
  fun _ _ found => found

theorem Extends.trans {known more most : Definitions Name Shape} (first : Extends known more)
    (second : Extends more most) : Extends known most :=
  fun name trees found => second name trees (first name trees found)

theorem lookup_cons_self (known : Definitions Name Shape) (name : Name) (trees : Forest Shape) :
    List.lookup name ((name, trees) :: known) = some trees := by
  rw [List.lookup_cons, beq_self_eq_true]

theorem lookup_cons_ne {known : Definitions Name Shape} {name other : Name}
    (different : name ≠ other) (trees : Forest Shape) :
    List.lookup name ((other, trees) :: known) = List.lookup name known := by
  rw [List.lookup_cons, beq_false_of_ne different]

theorem Extends.cons {known more : Definitions Name Shape} (extend : Extends known more)
    (name : Name) (trees : Forest Shape) :
    Extends ((name, trees) :: known) ((name, trees) :: more) := by
  intro other found isFound
  by_cases same : other = name
  · subst same
    rw [lookup_cons_self] at isFound ⊢
    exact isFound
  · rw [lookup_cons_ne same] at isFound ⊢
    exact extend other found isFound

theorem Extends.fresh {known : Definitions Name Shape} {name : Name} (trees : Forest Shape)
    (isFresh : known.lookup name = none) : Extends known ((name, trees) :: known) := by
  intro other found isFound
  have different : other ≠ name := by
    rintro rfl
    rw [isFresh] at isFound
    cases isFound
  rw [lookup_cons_ne different]
  exact isFound

section Unfolds

variable (role : Label → Role Name) (kin : Label → Origin → Prop) (shape : Origin → Shape)
  (fits : Forest Origin → Prop)

/-- A forest with calls stands for a forest without them: a kept node for a node of its kin, a
call for some trees of the shape that its name is defined as. -/
inductive Unfolds : Definitions Name Shape → Forest Label → Forest Origin →
    Definitions Name Shape → Prop
  | nil {known : Definitions Name Shape} : Unfolds known nil nil known
  | keep {known between after : Definitions Name Shape} {label : Label} {origin : Origin}
      {kids rest : Forest Label} {originKids originRest : Forest Origin}
      (isKept : role label = .keep) (isKin : kin label origin)
      (below : Unfolds known kids originKids between)
      (behind : Unfolds between rest originRest after) :
      Unfolds known (cons label kids rest) (cons origin originKids originRest) after
  | call {known after : Definitions Name Shape} {label : Label} {name : Name}
      {rest : Forest Label} {piece originRest : Forest Origin}
      (isCall : role label = .call name) (defined : known.lookup name = some (piece.map shape))
      (isPiece : fits piece) (behind : Unfolds known rest originRest after) :
      Unfolds known (cons label nil rest) (piece.append originRest) after
  | define {known between after : Definitions Name Shape} {label : Label} {name : Name}
      {kids rest : Forest Label} {body originRest : Forest Origin}
      (isDefinition : role label = .define name) (isPiece : fits body)
      (below : Unfolds known kids body between)
      (behind : Unfolds ((name, body.map shape) :: between) rest originRest after) :
      Unfolds known (cons label kids rest) originRest after

variable {role kin shape fits} {known more after : Definitions Name Shape} {forest : Forest Label}
  {origins : Forest Origin}

/-- Expanding the forest gives what it stands for. -/
theorem Unfolds.expand_eq {labelShape : Label → Shape}
    (sameShape : ∀ label origin, kin label origin → labelShape label = shape origin)
    (stands : Unfolds role kin shape fits known forest origins after) :
    expand role labelShape known forest = some (origins.map shape, after) := by
  induction stands with
  | nil => rfl
  | keep isKept isKin _ _ belowHypothesis behindHypothesis =>
      simp only [expand, isKept, belowHypothesis, behindHypothesis, Option.bind_some,
        Option.map_some, map, sameShape _ _ isKin]
  | call isCall defined _ _ behindHypothesis =>
      simp only [expand, isCall, defined, behindHypothesis, Option.bind_some, Option.map_some,
        map_append]
  | define isDefinition _ _ _ belowHypothesis behindHypothesis =>
      simp only [expand, isDefinition, belowHypothesis, Option.bind_some]
      exact behindHypothesis

/-- More definitions do no harm. -/
theorem Unfolds.mono (stands : Unfolds role kin shape fits known forest origins after)
    (extend : Extends known more) :
    ∃ moreAfter, Unfolds role kin shape fits more forest origins moreAfter ∧
      Extends after moreAfter := by
  induction stands generalizing more with
  | nil => exact ⟨more, .nil, extend⟩
  | keep isKept isKin _ _ belowHypothesis behindHypothesis =>
      obtain ⟨between, below, extendBetween⟩ := belowHypothesis extend
      obtain ⟨moreAfter, behind, extendAfter⟩ := behindHypothesis extendBetween
      exact ⟨moreAfter, .keep isKept isKin below behind, extendAfter⟩
  | call isCall defined isPiece _ behindHypothesis =>
      obtain ⟨moreAfter, behind, extendAfter⟩ := behindHypothesis extend
      exact ⟨moreAfter, .call isCall (extend _ _ defined) isPiece behind, extendAfter⟩
  | define isDefinition isPiece _ _ belowHypothesis behindHypothesis =>
      obtain ⟨between, below, extendBetween⟩ := belowHypothesis extend
      obtain ⟨moreAfter, behind, extendAfter⟩ := behindHypothesis (extendBetween.cons _ _)
      exact ⟨moreAfter, .define isDefinition isPiece below behind, extendAfter⟩

theorem Unfolds.append {between : Definitions Name Shape} {others : Forest Label}
    {otherOrigins : Forest Origin}
    (stands : Unfolds role kin shape fits known forest origins between)
    (standsToo : Unfolds role kin shape fits between others otherOrigins after) :
    Unfolds role kin shape fits known (forest.append others) (origins.append otherOrigins)
      after := by
  induction stands with
  | nil => exact standsToo
  | keep isKept isKin below _ _ behindHypothesis =>
      exact .keep isKept isKin below (behindHypothesis standsToo)
  | call isCall defined isPiece _ behindHypothesis =>
      rw [append_assoc]
      exact .call isCall defined isPiece (behindHypothesis standsToo)
  | define isDefinition isPiece below _ _ behindHypothesis =>
      exact .define isDefinition isPiece below (behindHypothesis standsToo)

/-- A forest without definitions leaves the definitions as they are. -/
theorem Unfolds.after_eq (stands : Unfolds role kin shape fits known forest origins after)
    (none : ∀ label ∈ forest.labels, ∀ name, role label ≠ .define name) : after = known := by
  induction stands with
  | nil => rfl
  | keep _ _ _ _ belowHypothesis behindHypothesis =>
      rw [labels_cons] at none
      rw [behindHypothesis fun label member =>
          none label (List.mem_cons_of_mem _ (List.mem_append_right _ member)),
        belowHypothesis fun label member =>
          none label (List.mem_cons_of_mem _ (List.mem_append_left _ member))]
  | call _ _ _ _ behindHypothesis =>
      rw [labels_cons] at none
      exact behindHypothesis fun label member =>
        none label (List.mem_cons_of_mem _ (List.mem_append_right _ member))
  | define isDefinition _ _ _ _ _ =>
      rw [labels_cons] at none
      exact absurd isDefinition (none _ List.mem_cons_self _)

/-- What is defined behind a forest is defined in front of it or in it. -/
theorem Unfolds.defined (stands : Unfolds role kin shape fits known forest origins after)
    {name : Name} (isDefined : after.lookup name ≠ none) :
    known.lookup name ≠ none ∨ ∃ label ∈ forest.labels, role label = .define name := by
  induction stands with
  | nil => exact .inl isDefined
  | keep _ _ _ _ belowHypothesis behindHypothesis =>
      rw [labels_cons]
      rcases behindHypothesis isDefined with between | ⟨label, member, isDefinition⟩
      · rcases belowHypothesis between with before | ⟨label, member, isDefinition⟩
        · exact .inl before
        · exact .inr ⟨label, List.mem_cons_of_mem _ (List.mem_append_left _ member), isDefinition⟩
      · exact .inr ⟨label, List.mem_cons_of_mem _ (List.mem_append_right _ member), isDefinition⟩
  | call _ _ _ _ behindHypothesis =>
      rw [labels_cons]
      rcases behindHypothesis isDefined with before | ⟨label, member, isDefinition⟩
      · exact .inl before
      · exact .inr ⟨label, List.mem_cons_of_mem _ (List.mem_append_right _ member), isDefinition⟩
  | @define _ _ _ top defined _ _ _ _ isDefinition _ _ _ belowHypothesis behindHypothesis =>
      rw [labels_cons]
      rcases behindHypothesis isDefined with between | ⟨label, member, isDefinition⟩
      · by_cases same : name = defined
        · exact .inr ⟨top, List.mem_cons_self, same ▸ isDefinition⟩
        · rw [lookup_cons_ne same] at between
          rcases belowHypothesis between with before | ⟨label, member, isDefinition⟩
          · exact .inl before
          · exact .inr ⟨label, List.mem_cons_of_mem _ (List.mem_append_left _ member),
              isDefinition⟩
      · exact .inr ⟨label, List.mem_cons_of_mem _ (List.mem_append_right _ member), isDefinition⟩

end Unfolds

section Frame

theorem Hole.mem_labels_fill (hole : Hole Label) {filling : Forest Label} {label : Label}
    (member : label ∈ filling.labels) : label ∈ (hole.fill filling).labels := by
  rw [labels, Hole.flat_fill, List.map_append, List.map_append]
  exact List.mem_append_right _ (List.mem_append_left _ member)

/-- Labels of the nodes above a place. -/
def Hole.above : Hole Label → List Label
  | top => []
  | behind _ _ outer => outer.above
  | under label _ outer => label :: outer.above

/-- A property of all that follows behind a place, level by level. -/
def Hole.Rests (holds : Forest Label → Prop) : Hole Label → Prop
  | top => True
  | behind _ _ outer => outer.Rests holds
  | under _ rest outer => holds rest ∧ outer.Rests holds

/-- A property of all nodes in front of a place and above it. -/
def Hole.Fronts (holds : Label → Prop) : Hole Label → Prop
  | top => True
  | behind label kids outer =>
      holds label ∧ (∀ inside ∈ kids.labels, holds inside) ∧ outer.Fronts holds
  | under label _ outer => holds label ∧ outer.Fronts holds

theorem Hole.Fronts.mono {holds holdsToo : Label → Prop} {hole : Hole Label}
    (fronts : hole.Fronts holds) (implies : ∀ label, holds label → holdsToo label) :
    hole.Fronts holdsToo := by
  induction hole with
  | top => exact trivial
  | behind label kids outer inductionHypothesis =>
      exact ⟨implies _ fronts.1, fun inside member => implies _ (fronts.2.1 inside member),
        inductionHypothesis fronts.2.2⟩
  | under label rest outer inductionHypothesis =>
      exact ⟨implies _ fronts.1, inductionHypothesis fronts.2⟩

theorem Hole.Fronts.above {holds : Label → Prop} {hole : Hole Label} (fronts : hole.Fronts holds) :
    ∀ label ∈ hole.above, holds label := by
  induction hole with
  | top => exact fun _ member => nomatch member
  | behind label kids outer inductionHypothesis => exact inductionHypothesis fronts.2.2
  | under label rest outer inductionHypothesis =>
      exact List.forall_mem_cons.mpr ⟨fronts.1, inductionHypothesis fronts.2⟩

theorem Hole.Rests.and {holds holdsToo : Forest Label → Prop} {hole : Hole Label}
    (rests : hole.Rests holds) (restsToo : hole.Rests holdsToo) :
    hole.Rests fun rest => holds rest ∧ holdsToo rest := by
  induction hole with
  | top => exact trivial
  | behind _ _ _ inductionHypothesis => exact inductionHypothesis rests restsToo
  | under _ _ _ inductionHypothesis =>
      exact ⟨⟨rests.1, restsToo.1⟩, inductionHypothesis rests.2 restsToo.2⟩

theorem Hole.Rests.mono {holds holdsToo : Forest Label → Prop} {hole : Hole Label}
    (rests : hole.Rests holds) (implies : ∀ rest, holds rest → holdsToo rest) :
    hole.Rests holdsToo := by
  induction hole with
  | top => exact trivial
  | behind _ _ _ inductionHypothesis => exact inductionHypothesis rests
  | under _ _ _ inductionHypothesis => exact ⟨implies _ rests.1, inductionHypothesis rests.2⟩

theorem Hole.forall_labels_fill {holds : Label → Prop} {hole : Hole Label} {filling : Forest Label}
    (fronts : hole.Fronts holds) (rests : hole.Rests fun rest => ∀ label ∈ rest.labels, holds label)
    (inside : ∀ label ∈ filling.labels, holds label) :
    ∀ label ∈ (hole.fill filling).labels, holds label := by
  induction hole generalizing filling with
  | top => exact inside
  | behind label kids outer inductionHypothesis =>
      apply inductionHypothesis fronts.2.2 rests
      rw [labels_cons]
      exact List.forall_mem_cons.mpr ⟨fronts.1, List.forall_mem_append.mpr ⟨fronts.2.1, inside⟩⟩
  | under label rest outer inductionHypothesis =>
      apply inductionHypothesis fronts.2 rests.2
      rw [labels_cons]
      exact List.forall_mem_cons.mpr ⟨fronts.1, List.forall_mem_append.mpr ⟨inside, rests.1⟩⟩

theorem Hole.forall_labels_of_fill {holds : Label → Prop} {hole : Hole Label}
    {filling : Forest Label} (all : ∀ label ∈ (hole.fill filling).labels, holds label) :
    hole.Fronts holds ∧ hole.Rests (fun rest => ∀ label ∈ rest.labels, holds label) ∧
      ∀ label ∈ filling.labels, holds label := by
  induction hole generalizing filling with
  | top => exact ⟨trivial, trivial, all⟩
  | behind label inside outer inductionHypothesis =>
      obtain ⟨fronts, rests, here⟩ := inductionHypothesis all
      rw [labels_cons, List.forall_mem_cons, List.forall_mem_append] at here
      exact ⟨⟨here.1, here.2.1, fronts⟩, rests, here.2.2⟩
  | under label behind outer inductionHypothesis =>
      obtain ⟨fronts, rests, here⟩ := inductionHypothesis all
      rw [labels_cons, List.forall_mem_cons, List.forall_mem_append] at here
      exact ⟨⟨here.1, fronts⟩, ⟨here.2.2, rests⟩, here.2.1⟩

theorem All.of_fill {holds : Label → Forest Label → Prop} (hole : Hole Label)
    {filling : Forest Label} (nonempty : filling ≠ .nil) (all : (hole.fill filling).All holds) :
    filling.All holds ∧ hole.Rests fun rest => rest.All holds := by
  induction hole generalizing filling with
  | top => exact ⟨all, trivial⟩
  | behind label kids outer inductionHypothesis =>
      obtain ⟨here, rests⟩ := inductionHypothesis (fun empty => by cases empty) all
      exact ⟨here.2.2, rests⟩
  | under label rest outer inductionHypothesis =>
      obtain ⟨here, rests⟩ := inductionHypothesis (fun empty => by cases empty) all
      exact ⟨here.2.1, here.2.2, rests⟩

theorem Hole.map_fill_congr {Other : Type v} (relabel : Label → Other) (hole : Hole Label)
    {filling other : Forest Label} (same : filling.map relabel = other.map relabel) :
    (hole.fill filling).map relabel = (hole.fill other).map relabel := by
  induction hole generalizing filling other with
  | top => exact same
  | behind label kids outer inductionHypothesis =>
      apply inductionHypothesis
      rw [Forest.map, Forest.map, same]
  | under label rest outer inductionHypothesis =>
      apply inductionHypothesis
      rw [Forest.map, Forest.map, same]

/-- Two places with the same in front of them, and what is behind them related. -/
inductive Hole.Pairs (related : Forest Label → Forest Label → Prop) :
    Hole Label → Hole Label → Prop
  | top : Hole.Pairs related .top .top
  | behind {outer other : Hole Label} (label : Label) (kids : Forest Label)
      (pairs : Hole.Pairs related outer other) :
      Hole.Pairs related (.behind label kids outer) (.behind label kids other)
  | under {outer other : Hole Label} {rest otherRest : Forest Label} (label : Label)
      (isRelated : related rest otherRest) (pairs : Hole.Pairs related outer other) :
      Hole.Pairs related (.under label rest outer) (.under label otherRest other)

theorem Hole.Pairs.index_eq {related : Forest Label → Forest Label → Prop}
    {hole other : Hole Label} (pairs : hole.Pairs related other) : other.index = hole.index := by
  induction pairs with
  | top => rfl
  | behind _ _ _ inductionHypothesis => rw [Hole.index, Hole.index, inductionHypothesis]
  | under _ _ _ inductionHypothesis => rw [Hole.index, Hole.index, inductionHypothesis]

theorem Hole.Pairs.above_eq {related : Forest Label → Forest Label → Prop}
    {hole other : Hole Label} (pairs : hole.Pairs related other) : other.above = hole.above := by
  induction pairs with
  | top => rfl
  | behind _ _ _ inductionHypothesis => exact inductionHypothesis
  | under _ _ _ inductionHypothesis => rw [Hole.above, Hole.above, inductionHypothesis]

theorem Hole.Pairs.fronts {related : Forest Label → Forest Label → Prop} {holds : Label → Prop}
    {hole other : Hole Label} (pairs : hole.Pairs related other) (fronts : hole.Fronts holds) :
    other.Fronts holds := by
  induction pairs with
  | top => exact trivial
  | behind _ _ _ inductionHypothesis => exact ⟨fronts.1, fronts.2.1, inductionHypothesis fronts.2.2⟩
  | under _ _ _ inductionHypothesis => exact ⟨fronts.1, inductionHypothesis fronts.2⟩

theorem Hole.Pairs.rests {related : Forest Label → Forest Label → Prop}
    {holds holdsToo : Forest Label → Prop} {hole other : Hole Label}
    (pairs : hole.Pairs related other) (rests : hole.Rests holds)
    (carries : ∀ rest otherRest, related rest otherRest → holds rest → holdsToo otherRest) :
    other.Rests holdsToo := by
  induction pairs with
  | top => exact trivial
  | behind _ _ _ inductionHypothesis => exact inductionHypothesis rests
  | under _ isRelated _ inductionHypothesis =>
      exact ⟨carries _ _ isRelated rests.1, inductionHypothesis rests.2⟩

theorem Hole.Pairs.and {related : Forest Label → Forest Label → Prop}
    {holds : Forest Label → Prop} {hole other : Hole Label} (pairs : hole.Pairs related other)
    (rests : hole.Rests holds) :
    hole.Pairs (fun rest otherRest => related rest otherRest ∧ holds rest) other := by
  induction pairs with
  | top => exact .top
  | behind label kids _ inductionHypothesis => exact .behind label kids (inductionHypothesis rests)
  | under label isRelated _ inductionHypothesis =>
      exact .under label ⟨isRelated, rests.1⟩ (inductionHypothesis rests.2)

variable {role : Label → Role Name} {kin : Label → Origin → Prop} {shape : Origin → Shape}
  {fits : Forest Origin → Prop} {known after : Definitions Name Shape} {filling : Forest Label}
  {origins : Forest Origin}

/-- What stands at a place can be replaced together with what is behind the place, if both stand
for the same as before. -/
theorem Unfolds.of_fill {related : Forest Label → Forest Label → Prop}
    {ready : Definitions Name Shape → Prop} {holds : Origin → Forest Origin → Prop}
    (keeps : ∀ {known after : Definitions Name Shape} {rest otherRest : Forest Label}
      {origins : Forest Origin}, ready known → related rest otherRest → origins.All holds →
        Unfolds role kin shape fits known rest origins after →
        ∃ moreAfter, Unfolds role kin shape fits known otherRest origins moreAfter ∧
          Extends after moreAfter ∧ ready moreAfter)
    (pieces : ∀ piece, fits piece → piece.All holds) (hole : Hole Label)
    (nonempty : filling ≠ .nil)
    (stays : ∀ known name trees, (∃ label ∈ hole.above, role label = .define name) →
      ready known → ready ((name, trees) :: known))
    (stands : Unfolds role kin shape fits known (hole.fill filling) origins after)
    (all : origins.All holds) :
    ∃ here part behind, Unfolds role kin shape fits here filling part behind ∧ part.All holds ∧
      (∀ name, here.lookup name ≠ none → known.lookup name ≠ none ∨
        ∃ label ∈ (hole.fill filling).labels, role label = .define name) ∧
      ∀ other otherFilling otherBehind, hole.Pairs related other →
        Unfolds role kin shape fits here otherFilling part otherBehind →
        Extends behind otherBehind → ready otherBehind →
        ∃ otherAfter, Unfolds role kin shape fits known (other.fill otherFilling) origins
          otherAfter := by
  induction hole generalizing filling with
  | top =>
      refine ⟨known, origins, after, stands, all, fun name found => .inl found, ?_⟩
      intro other otherFilling otherBehind pairs standsToo _ _
      cases pairs
      exact ⟨otherBehind, standsToo⟩
  | behind label kids outer inductionHypothesis =>
      obtain ⟨here, part, behind, standsHere, allHere, names, replace⟩ :=
        inductionHypothesis (fun empty => by cases empty) stays stands
      have inside : ∀ other ∈ (cons label kids filling).labels,
          other ∈ (outer.fill (cons label kids filling)).labels :=
        fun other => outer.mem_labels_fill
      cases standsHere with
      | keep isKept isKin below standsBehind =>
          refine ⟨_, _, _, standsBehind, allHere.2.2, ?_, ?_⟩
          · intro name isDefined
            rcases below.defined isDefined with before | ⟨label, member, isDefinition⟩
            · exact names name before
            · exact .inr ⟨label, inside label (labels_cons _ _ _ ▸
                List.mem_cons_of_mem _ (List.mem_append_left _ member)), isDefinition⟩
          · rintro _ otherFilling otherBehind (_ | ⟨_, _, pairs⟩) standsToo extend isReady
            obtain ⟨otherAfter, filled⟩ :=
              replace _ _ _ pairs (.keep isKept isKin below standsToo) extend isReady
            exact ⟨otherAfter, filled⟩
      | call isCall defined isPiece standsBehind =>
          refine ⟨_, _, _, standsBehind, (All.append.mp allHere).2, names, ?_⟩
          rintro _ otherFilling otherBehind (_ | ⟨_, _, pairs⟩) standsToo extend isReady
          obtain ⟨otherAfter, filled⟩ :=
            replace _ _ _ pairs (.call isCall defined isPiece standsToo) extend isReady
          exact ⟨otherAfter, filled⟩
      | @define _ _ _ _ name _ _ _ _ isDefinition isPiece below standsBehind =>
          refine ⟨_, _, _, standsBehind, allHere, ?_, ?_⟩
          · intro other isDefined
            by_cases same : other = name
            · exact .inr ⟨label, inside label (labels_cons _ _ _ ▸ List.mem_cons_self),
                same ▸ isDefinition⟩
            · rw [lookup_cons_ne same] at isDefined
              rcases below.defined isDefined with before | ⟨label, member, isDefinition⟩
              · exact names other before
              · exact .inr ⟨label, inside label (labels_cons _ _ _ ▸
                  List.mem_cons_of_mem _ (List.mem_append_left _ member)), isDefinition⟩
          · rintro _ otherFilling otherBehind (_ | ⟨_, _, pairs⟩) standsToo extend isReady
            obtain ⟨otherAfter, filled⟩ :=
              replace _ _ _ pairs (.define isDefinition isPiece below standsToo) extend isReady
            exact ⟨otherAfter, filled⟩
  | under label rest outer inductionHypothesis =>
      obtain ⟨here, part, behind, standsHere, allHere, names, replace⟩ :=
        inductionHypothesis (fun empty => by cases empty)
          (fun known name trees ⟨inside, member, isDefinition⟩ =>
            stays known name trees ⟨inside, List.mem_cons_of_mem _ member, isDefinition⟩) stands
      cases standsHere with
      | keep isKept isKin below standsBehind =>
          refine ⟨_, _, _, below, allHere.2.1, names, ?_⟩
          rintro _ otherFilling otherBehind (_ | _ | ⟨_, isRelated, pairs⟩) standsToo extend isReady
          obtain ⟨moreBehind, moved, extendMore⟩ := standsBehind.mono extend
          obtain ⟨most, swapped, extendMost, readyMost⟩ :=
            keeps isReady isRelated allHere.2.2 moved
          obtain ⟨otherAfter, filled⟩ := replace _ _ _ pairs
            (.keep isKept isKin standsToo swapped) (extendMore.trans extendMost) readyMost
          exact ⟨otherAfter, filled⟩
      | call _ _ _ _ => exact absurd rfl nonempty
      | @define _ _ _ _ name _ _ body _ isDefinition isPiece below standsBehind =>
          refine ⟨_, _, _, below, pieces _ isPiece, names, ?_⟩
          rintro _ otherFilling otherBehind (_ | _ | ⟨_, isRelated, pairs⟩) standsToo extend isReady
          have readyThere := stays otherBehind name (body.map shape)
            ⟨label, List.mem_cons_self, isDefinition⟩ isReady
          obtain ⟨moreBehind, moved, extendMore⟩ := standsBehind.mono (extend.cons _ _)
          obtain ⟨most, swapped, extendMost, readyMost⟩ := keeps readyThere isRelated allHere moved
          obtain ⟨otherAfter, filled⟩ := replace _ _ _ pairs
            (.define isDefinition isPiece standsToo swapped) (extendMore.trans extendMost) readyMost
          exact ⟨otherAfter, filled⟩

/-- What stands at a place stands for something. -/
theorem Unfolds.at_hole {holds : Origin → Forest Origin → Prop}
    (pieces : ∀ piece, fits piece → piece.All holds) {hole : Hole Label} (nonempty : filling ≠ .nil)
    (stands : Unfolds role kin shape fits known (hole.fill filling) origins after)
    (all : origins.All holds) :
    ∃ here part behind, Unfolds role kin shape fits here filling part behind ∧ part.All holds := by
  obtain ⟨here, part, behind, standsHere, allHere, -, -⟩ :=
    @Unfolds.of_fill _ _ _ _ _ role kin shape fits known after filling origins (fun _ _ => False)
      (fun _ => False) holds (fun _ isRelated _ _ => isRelated.elim) pieces hole nonempty
      (fun _ _ _ _ impossible => impossible) stands all
  exact ⟨here, part, behind, standsHere, allHere⟩

theorem Unfolds.rests {holds : Origin → Forest Origin → Prop}
    (pieces : ∀ piece, fits piece → piece.All holds) {hole : Hole Label} (nonempty : filling ≠ .nil)
    (stands : Unfolds role kin shape fits known (hole.fill filling) origins after)
    (all : origins.All holds) :
    hole.Rests fun rest => ∃ here part behind,
      Unfolds role kin shape fits here rest part behind ∧ part.All holds := by
  induction hole generalizing filling with
  | top => exact trivial
  | behind label kids outer inductionHypothesis =>
      exact inductionHypothesis (fun empty => by cases empty) stands
  | under label rest outer inductionHypothesis =>
      have notNil : cons label filling rest ≠ .nil := fun empty => by cases empty
      refine ⟨?_, inductionHypothesis notNil stands⟩
      obtain ⟨here, part, behind, standsHere, allHere⟩ :=
        @Unfolds.at_hole _ _ _ _ _ role kin shape fits known after _ origins holds pieces outer
          notNil stands all
      cases standsHere with
      | keep _ _ _ standsRest => exact ⟨_, _, _, standsRest, allHere.2.2⟩
      | call _ _ _ standsRest => exact ⟨_, _, _, standsRest, (All.append.mp allHere).2⟩
      | define _ _ _ standsRest => exact ⟨_, _, _, standsRest, allHere⟩

end Frame

end SysrepoAugeas.Data.Forest
