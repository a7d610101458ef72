import Mathlib.Data.List.Induction
import SysrepoAugeas.Pnode.Scope

/-!
# References agree with the environment

What an identifier is referred to is found from the links alone.  Below, it is
followed through the constructors of terms together with the environment, and
then through the recursion of `ay_pnode_set_ref`, which ends because every
reference that it follows leads to a value with fewer references inside.
-/

namespace SysrepoAugeas.Pnode

open SysrepoAugeas.Data
open SysrepoAugeas.Label (Text)
open SysrepoAugeas.Term (Regex)

variable {tree : List AyPnode} {decls : List Bind} {modules : List AugModule}

section Nodes

/-- The pnode of the first term in a hole. -/
theorem Mirrors.node (mirrors : Mirrors tree decls) {hole : Forest.Hole TermNode} {label : TermNode}
    {kids rest : Forest TermNode} (filled : moduleForest decls = hole.fill (.cons label kids rest)) :
    ∃ node, tree[hole.index]? = some node ∧ node.term = label ∧ node.descendants = kids.size ∧
      node.parent = hole.parent ∧
      node.next = (if rest.size = 0 then none else some (hole.index + kids.size + 1)) ∧
      node.child = if kids.size = 0 then none else some (hole.index + 1) := by
  have cell := hole.getElem_flat_fill label kids rest
  have links := hole.getElem_links_fill label kids rest
  rw [← filled, ← mirrors.cells, List.getElem?_map] at cell
  rw [← filled, ← mirrors.links, List.getElem?_map] at links
  obtain ⟨node, found, cellIs⟩ := Option.map_eq_some_iff.mp cell
  rw [found, Option.map_some, Option.some.injEq] at links
  obtain ⟨termIs, countIs⟩ := Prod.mk.inj cellIs
  exact ⟨node, found, termIs, countIs, congrArg Forest.Links.parent links,
    congrArg Forest.Links.next links, congrArg Forest.Links.child links⟩

theorem Mirrors.length (mirrors : Mirrors tree decls) : tree.length = (moduleForest decls).size := by
  rw [← List.length_map AyPnode.cell, mirrors.cells, Forest.length_flat]

theorem Term.size_pos (term : Term) : 0 < term.size := by
  cases term <;> simp

theorem declsForest_append (before after : List Bind) :
    declsForest (before ++ after) = (declsForest before).append (declsForest after) := by
  induction before with
  | nil => rfl
  | cons decl before inductionHypothesis =>
      rw [List.cons_append, declsForest, declsForest, inductionHypothesis, Forest.append]

/-- The place of a binding. -/
def bindHole (before : List Bind) : Forest.Hole TermNode :=
  (Forest.Hole.under .aModule .nil .top).past (declsForest before)

theorem index_bindHole (before : List Bind) :
    (bindHole before).index = (declsForest before).size + 1 := by
  rw [bindHole, Forest.Hole.index_past, Forest.Hole.index, Forest.Hole.index]
  omega

theorem fill_bindHole (before : List Bind) (decl : Bind) (after : List Bind) :
    moduleForest (before ++ decl :: after) =
      (bindHole before).fill
        (.cons (.aBind decl.bname) (decl.exp.forest .nil) (declsForest after)) := by
  rw [bindHole, Forest.Hole.fill_past, moduleForest, declsForest_append]
  rfl

/-- The terms from a position on stand in a hole of the module. -/
def Placed (decls : List Bind) (position : Nat) (term : Term) : Prop :=
  ∃ hole rest, moduleForest decls = Forest.Hole.fill hole (term.forest rest) ∧
    hole.index = position

theorem Stands.placed {bind position : Nat} {env : Env} {term : Term}
    (stands : Stands modules decls bind position env term) : Placed decls position term := by
  induction stands with
  | @exp before decl after split start =>
      refine ⟨.under (.aBind decl.bname) (declsForest after) (bindHole before), .nil, ?_, ?_⟩
      · rw [split, fill_bindHole]
        rfl
      · rw [Forest.Hole.index, index_bindHole, start]
  | @left position env tag left right _ inductionHypothesis =>
      obtain ⟨hole, rest, filled, rfl⟩ := inductionHypothesis
      exact ⟨.under (.binary tag) rest hole, right.forest .nil, filled, rfl⟩
  | @right position env tag left right _ inductionHypothesis =>
      obtain ⟨hole, rest, filled, rfl⟩ := inductionHypothesis
      refine ⟨(Forest.Hole.under (.binary tag) rest hole).past (left.forest .nil), .nil, ?_, ?_⟩
      · rw [Forest.Hole.fill_past, ← Term.forest_append]
        exact filled
      · rw [Forest.Hole.index_past]
        rfl
  | @letBody position env param body right _ inductionHypothesis =>
      obtain ⟨hole, rest, filled, rfl⟩ := inductionHypothesis
      exact ⟨.under (.aFunc param) (right.forest .nil) (.under .aLet rest hole), .nil, filled, rfl⟩
  | @letRight position env param body right _ inductionHypothesis =>
      obtain ⟨hole, rest, filled, rfl⟩ := inductionHypothesis
      refine ⟨.behind (.aFunc param) (body.forest .nil) (.under .aLet rest hole), .nil, filled, ?_⟩
      rw [Forest.Hole.index, Forest.Hole.index, Term.size]
      omega
  | @rep position env rexp quant _ inductionHypothesis =>
      obtain ⟨hole, rest, filled, rfl⟩ := inductionHypothesis
      exact ⟨.under (.aRep quant) rest hole, .nil, filled, rfl⟩
  | @bracket position env brexp _ inductionHypothesis =>
      obtain ⟨hole, rest, filled, rfl⟩ := inductionHypothesis
      exact ⟨.under .aBracket rest hole, .nil, filled, rfl⟩
  | @func position env param body _ inductionHypothesis =>
      obtain ⟨hole, rest, filled, rfl⟩ := inductionHypothesis
      exact ⟨.under (.aFunc param) rest hole, .nil, filled, rfl⟩

end Nodes

section Binding

theorem declsBinds_append (start : Nat) (before after : List Bind) :
    declsBinds start (before ++ after) =
      declsBinds start before ++ declsBinds (start + (declsForest before).size) after := by
  induction before generalizing start with
  | nil => rfl
  | cons decl before inductionHypothesis =>
      have behind : start + decl.exp.size + 1 + (declsForest before).size =
          start + (declsForest (decl :: before)).size := by
        rw [size_declsForest]
        omega
      rw [List.cons_append, declsBinds, declsBinds, inductionHypothesis, behind]
      simp

theorem length_declsBinds (start : Nat) (decls : List Bind) :
    (declsBinds start decls).length = (declsForest decls).size := by
  induction decls generalizing start with
  | nil => rfl
  | cons decl decls inductionHypothesis =>
      rw [declsBinds, List.length_cons, List.length_append, List.length_replicate,
        inductionHypothesis, size_declsForest]

/-- Every pnode below a binding knows it. -/
theorem Stands.bind_eq (mirrors : Mirrors tree decls) {bind position : Nat} {env : Env} {term : Term}
    (stands : Stands modules decls bind position env term) {offset : Nat}
    (inside : offset < term.size) :
    (tree[position + offset]?).map AyPnode.bind = some (some bind) := by
  induction stands generalizing offset with
  | @exp before decl after split start =>
      have place : bind + 1 + offset = (declsForest before).size + (offset + 1) + 1 := by omega
      have passed : (declsForest before).size ≤ (declsForest before).size + (offset + 1) :=
        Nat.le_add_right _ _
      rw [← List.getElem?_map, mirrors.binds, place, List.getElem?_cons_succ, split,
        declsBinds_append, List.getElem?_append_right (by rw [length_declsBinds]; exact passed),
        length_declsBinds, Nat.add_sub_cancel_left, declsBinds, List.getElem?_cons_succ,
        List.getElem?_append_left (by rwa [List.length_replicate]), List.getElem?_replicate,
        if_pos inside, start, Nat.add_comm]
  | @left position env tag left right _ inductionHypothesis =>
      rw [Nat.add_assoc, Nat.add_comm 1]
      exact inductionHypothesis (by rw [Term.size_binary]; omega)
  | @right position env tag left right _ inductionHypothesis =>
      have place : position + 1 + left.size + offset = position + (1 + left.size + offset) := by omega
      rw [place]
      exact inductionHypothesis (by rw [Term.size_binary]; omega)
  | @letBody position env param body right _ inductionHypothesis =>
      rw [Nat.add_assoc]
      exact inductionHypothesis (by rw [Term.size_letIn]; omega)
  | @letRight position env param body right _ inductionHypothesis =>
      have place : position + 2 + body.size + offset = position + (2 + body.size + offset) := by omega
      rw [place]
      exact inductionHypothesis (by rw [Term.size_letIn]; omega)
  | rep _ inductionHypothesis | bracket _ inductionHypothesis | func _ inductionHypothesis =>
      rw [Nat.add_assoc]
      exact inductionHypothesis (by simp; omega)

theorem Stands.bind_lt {bind position : Nat} {env : Env} {term : Term}
    (stands : Stands modules decls bind position env term) : bind < position := by
  induction stands <;> omega

end Binding

section Climb

/-- The loop of `ay_pnode_find_func` ends like this when it comes to `iter`. -/
def Climbs (tree : List AyPnode) (bind : Nat) (name : Text) (iter : Nat) (found : Option Nat) :
    Prop :=
  ∀ fuel, iter < fuel → findFuncFrom tree (some bind) name fuel iter = some found

variable {bind : Nat} {name : Text}

theorem climbs_bind : Climbs tree bind name bind none := by
  intro fuel enough
  obtain ⟨fuel, rfl⟩ : ∃ more, fuel = more + 1 := ⟨fuel - 1, by omega⟩
  rw [findFuncFrom, if_pos rfl]

theorem climbs_func {iter parent : Nat} {node above : AyPnode} (notBind : iter ≠ bind)
    (found : tree[iter]? = some node) (isFunc : node.term = .aFunc name)
    (parentIs : node.parent = some parent) (foundAbove : tree[parent]? = some above)
    (isLet : above.term = .aLet) : Climbs tree bind name iter (some iter) := by
  intro fuel enough
  obtain ⟨fuel, rfl⟩ : ∃ more, fuel = more + 1 := ⟨fuel - 1, by omega⟩
  rw [findFuncFrom, if_neg (by simpa using notBind), found]
  simp [parentIs, foundAbove, isFunc, isLet]

theorem Climbs.up {iter parent : Nat} {node above : AyPnode} {result : Option Nat}
    (climbs : Climbs tree bind name parent result) (notBind : iter ≠ bind) (upwards : parent < iter)
    (found : tree[iter]? = some node) (parentIs : node.parent = some parent)
    (foundAbove : tree[parent]? = some above)
    (passed : ¬(node.term = .aFunc name ∧ above.term = .aLet)) :
    Climbs tree bind name iter result := by
  intro fuel enough
  obtain ⟨fuel, rfl⟩ : ∃ more, fuel = more + 1 := ⟨fuel - 1, by omega⟩
  rw [findFuncFrom, if_neg (by simpa using notBind), found]
  simp only [Option.bind_eq_bind, Option.bind_some, parentIs, foundAbove, if_neg passed]
  exact climbs fuel (by omega)

end Climb

section Steps

theorem Term.exists_forest (term : Term) (rest : Forest TermNode) :
    ∃ kids, term.forest rest = .cons term.node kids rest ∧ kids.size + 1 = term.size := by
  cases term with
  | binary tag left right =>
      exact ⟨_, rfl, by rw [left.size_forest, Term.size_binary]; rfl⟩
  | letIn param body right =>
      exact ⟨_, rfl, by rw [Forest.size, Term.size_letIn, Term.size, Term.size]⟩
  | rep rexp quant | bracket rexp | func param rexp | value content | ident name =>
      exact ⟨_, rfl, rfl⟩

/-- A pnode and its parent. -/
structure Below (tree : List AyPnode) (parent : Nat) (above : TermNode) (position : Nat)
    (term : TermNode) : Prop where
  inner : ∃ node, tree[position]? = some node ∧ node.term = term ∧ node.parent = some parent
  outer : ∃ node, tree[parent]? = some node ∧ node.term = above
  upwards : parent < position

theorem Mirrors.below (mirrors : Mirrors tree decls) {outer hole : Forest.Hole TermNode}
    {label inner : TermNode} {kids rest innerKids innerRest : Forest TermNode}
    (filled : moduleForest decls = outer.fill (.cons label kids rest))
    (innerFilled : moduleForest decls = hole.fill (.cons inner innerKids innerRest))
    (parentIs : hole.parent = some outer.index) (upwards : outer.index < hole.index) :
    Below tree outer.index label hole.index inner := by
  obtain ⟨above, foundAbove, aboveIs, -⟩ := mirrors.node filled
  obtain ⟨node, found, termIs, -, nodeParent, -⟩ := mirrors.node innerFilled
  exact ⟨⟨node, found, termIs, nodeParent.trans parentIs⟩, ⟨above, foundAbove, aboveIs⟩, upwards⟩

variable {position : Nat} {left right body : Term} {tag : BinaryTag} {param : Text}

theorem Mirrors.below_left (mirrors : Mirrors tree decls)
    (placed : Placed decls position (.binary tag left right)) :
    Below tree position (.binary tag) (position + 1) left.node := by
  obtain ⟨hole, rest, filled, rfl⟩ := placed
  obtain ⟨kids, forest, -⟩ := left.exists_forest (right.forest .nil)
  have inner : moduleForest decls =
      (Forest.Hole.under (.binary tag) rest hole).fill (left.forest (right.forest .nil)) := filled
  rw [forest] at inner
  exact mirrors.below filled inner rfl (Nat.lt_succ_self _)

theorem Mirrors.below_right (mirrors : Mirrors tree decls)
    (placed : Placed decls position (.binary tag left right)) :
    Below tree position (.binary tag) (position + 1 + left.size) right.node := by
  obtain ⟨hole, rest, filled, rfl⟩ := placed
  obtain ⟨kids, forest, -⟩ := right.exists_forest .nil
  have inner : moduleForest decls =
      ((Forest.Hole.under (.binary tag) rest hole).past (left.forest .nil)).fill
        (right.forest .nil) := by
    rw [Forest.Hole.fill_past, ← Term.forest_append]
    exact filled
  have index : ((Forest.Hole.under (.binary tag) rest hole).past (left.forest .nil)).index =
      hole.index + 1 + left.size := by
    rw [Forest.Hole.index_past]
    rfl
  rw [forest] at inner
  rw [← index]
  exact mirrors.below filled inner (Forest.Hole.parent_past _ _) (by rw [index]; omega)

theorem Mirrors.below_letFunc (mirrors : Mirrors tree decls)
    (placed : Placed decls position (.letIn param body right)) :
    Below tree position .aLet (position + 1) (.aFunc param) := by
  obtain ⟨hole, rest, filled, rfl⟩ := placed
  have inner : moduleForest decls = (Forest.Hole.under .aLet rest hole).fill
      (.cons (.aFunc param) (body.forest .nil) (right.forest .nil)) := filled
  exact mirrors.below filled inner rfl (Nat.lt_succ_self _)

theorem Mirrors.below_letBody (mirrors : Mirrors tree decls)
    (placed : Placed decls position (.letIn param body right)) :
    Below tree (position + 1) (.aFunc param) (position + 2) body.node := by
  obtain ⟨hole, rest, filled, rfl⟩ := placed
  obtain ⟨kids, forest, -⟩ := body.exists_forest .nil
  have outer : moduleForest decls = (Forest.Hole.under .aLet rest hole).fill
      (.cons (.aFunc param) (body.forest .nil) (right.forest .nil)) := filled
  have inner : moduleForest decls = (Forest.Hole.under (.aFunc param) (right.forest .nil)
      (.under .aLet rest hole)).fill (body.forest .nil) := filled
  rw [forest] at inner
  exact mirrors.below outer inner rfl (Nat.lt_succ_self _)

theorem Mirrors.below_letRight (mirrors : Mirrors tree decls)
    (placed : Placed decls position (.letIn param body right)) :
    Below tree position .aLet (position + 2 + body.size) right.node := by
  obtain ⟨hole, rest, filled, rfl⟩ := placed
  obtain ⟨kids, forest, -⟩ := right.exists_forest .nil
  have inner : moduleForest decls = (Forest.Hole.behind (.aFunc param) (body.forest .nil)
      (.under .aLet rest hole)).fill (right.forest .nil) := filled
  have index : (Forest.Hole.behind (.aFunc param) (body.forest .nil)
      (.under .aLet rest hole)).index = hole.index + 2 + body.size := by
    rw [Forest.Hole.index, Forest.Hole.index, Term.size]
    omega
  rw [forest] at inner
  rw [← index]
  exact mirrors.below filled inner rfl (by rw [index]; omega)

/-- Terms with one term below. -/
theorem Mirrors.below_only (mirrors : Mirrors tree decls) {hole : Forest.Hole TermNode}
    {label : TermNode} {rest : Forest TermNode}
    (filled : moduleForest decls = hole.fill (.cons label (body.forest .nil) rest)) :
    Below tree hole.index label (hole.index + 1) body.node := by
  obtain ⟨kids, forest, -⟩ := body.exists_forest .nil
  have inner : moduleForest decls =
      (Forest.Hole.under label rest hole).fill (body.forest .nil) := filled
  rw [forest] at inner
  exact mirrors.below filled inner rfl (Nat.lt_succ_self _)

/-- The loop passes a pnode whose parent is no `let`. -/
theorem Climbs.pass {bind parent : Nat} {name : Text} {above term : TermNode} {found : Option Nat}
    (climbs : Climbs tree bind name parent found) (below : Below tree parent above position term)
    (notBind : position ≠ bind) (passed : term = .aFunc name → above ≠ .aLet) :
    Climbs tree bind name position found := by
  obtain ⟨node, found, rfl, parentIs⟩ := below.inner
  obtain ⟨aboveNode, foundAbove, rfl⟩ := below.outer
  exact climbs.up notBind below.upwards found parentIs foundAbove fun both => passed both.1 both.2

end Steps

section Targets

/-- The loop over the bindings finds the first one with the name. -/
theorem findBindFrom_eq (mirrors : Mirrors tree decls) {before between after : List Bind}
    {decl : Bind} (split : decls = before ++ (between ++ decl :: after))
    (first : decl.bname ∉ between.map Bind.bname) {fuel : Nat} (enough : between.length < fuel) :
    findBindFrom tree decl.bname fuel (some ((declsForest before).size + 1)) =
      some (some ((declsForest (before ++ between)).size + 1)) := by
  obtain ⟨fuel, rfl⟩ : ∃ more, fuel = more + 1 := ⟨fuel - 1, by omega⟩
  induction between generalizing before fuel with
  | nil =>
      rw [split, List.nil_append] at mirrors
      obtain ⟨node, found, termIs, -⟩ := mirrors.node (fill_bindHole before decl after)
      rw [index_bindHole] at found
      rw [findBindFrom, found, List.append_nil]
      simp [termIs]
  | cons other between inductionHypothesis =>
      have whole : decls = before ++ other :: (between ++ decl :: after) := split
      have filled := fill_bindHole before other (between ++ decl :: after)
      rw [← whole] at filled
      obtain ⟨node, found, termIs, -, -, nextIs, -⟩ := mirrors.node filled
      have more : (declsForest (between ++ decl :: after)).size ≠ 0 := by
        have := length_le_declsForest (between ++ decl :: after)
        rw [List.length_append, List.length_cons] at this
        omega
      have place : (bindHole before).index + (other.exp.forest .nil).size + 1 =
          (declsForest (before ++ [other])).size + 1 := by
        rw [index_bindHole, declsForest_append, Forest.size_append, size_declsForest, ← Term.size,
          declsForest, Forest.size]
        omega
      rw [if_neg more, place] at nextIs
      rw [index_bindHole] at found
      rw [List.map_cons, List.mem_cons, not_or] at first
      rw [List.length_cons] at enough
      have next := @inductionHypothesis (before ++ [other]) (by rw [whole]; simp) first.2 (fuel - 1)
        (by omega)
      rw [Nat.sub_add_cancel (by omega), List.append_assoc, List.singleton_append] at next
      rw [findBindFrom, found]
      simp [termIs, Ne.symm first.1, nextIs, next]

/-- The binding that a name of the module has. -/
theorem findBind_eq (mirrors : Mirrors tree decls) (distinct : (decls.map Bind.bname).Nodup)
    {before after : List Bind} {decl : Bind} (split : decls = before ++ decl :: after) :
    ayPnodeFindBind tree decl.bname = some (some ((declsForest before).size + 1)) ∧
      (tree[(declsForest before).size + 1]?).bind AyPnode.child =
        some ((declsForest before).size + 2) := by
  constructor
  · obtain ⟨root, foundRoot, -, -, -, -, childIs⟩ := @Mirrors.node _ _ mirrors .top .aModule
      (declsForest decls) .nil rfl
    have length := mirrors.length
    have bound := length_le_declsForest decls
    rw [moduleForest, Forest.size, Forest.size] at length
    have some : (declsForest decls).size ≠ 0 := by
      rw [split, List.length_append, List.length_cons] at bound
      rw [split]
      omega
    have first : decl.bname ∉ before.map Bind.bname := by
      rw [split, List.map_append, List.map_cons, List.nodup_append] at distinct
      exact fun member => distinct.2.2 _ member _ (List.mem_cons_self ..) rfl
    rw [if_neg some, Forest.Hole.index] at childIs
    rw [Forest.Hole.index] at foundRoot
    rw [ayPnodeFindBind, foundRoot]
    simp only [Option.bind_eq_bind, Option.bind_some, childIs]
    exact @findBindFrom_eq _ _ mirrors [] before after decl split first _ (by
      rw [split, List.length_append] at bound
      rw [split] at length
      omega)
  · rw [split] at mirrors
    obtain ⟨node, found, -, -, -, -, childIs⟩ := mirrors.node (fill_bindHole before decl after)
    rw [index_bindHole] at found childIs
    have some : (decl.exp.forest .nil).size ≠ 0 := decl.exp.size_pos.ne'
    rw [found, Option.bind_some, childIs, if_neg some]

theorem Mirrors.next_letFunc (mirrors : Mirrors tree decls) {position : Nat} {param : Text}
    {body right : Term} (placed : Placed decls position (.letIn param body right)) :
    (tree[position + 1]?).bind AyPnode.next = some (position + 2 + body.size) ∧
      ∃ node, tree[position + 1]? = some node ∧ node.term = .aFunc param ∧
        node.child = some (position + 1 + 1) := by
  obtain ⟨hole, rest, filled, rfl⟩ := placed
  have inner : moduleForest decls = (Forest.Hole.under .aLet rest hole).fill
      (.cons (.aFunc param) (body.forest .nil) (right.forest .nil)) := filled
  obtain ⟨node, found, termIs, -, -, next, child⟩ := mirrors.node inner
  have some : (right.forest .nil).size ≠ 0 := right.size_pos.ne'
  have someBody : (body.forest .nil).size ≠ 0 := body.size_pos.ne'
  rw [if_neg some] at next
  rw [if_neg someBody] at child
  rw [Forest.Hole.index] at found next child
  refine ⟨?_, node, found, termIs, child⟩
  rw [found, Option.bind_some, next, Option.some.injEq, Term.size]
  omega

/-- From the terms below a `let`, the argument is the term that it binds its name to. -/
theorem funcArgument_eq (mirrors : Mirrors tree decls) {position func : Nat} {param : Text}
    {body right : Term} {label : TermNode} (placed : Placed decls position (.letIn param body right))
    (below : Below tree position .aLet func label) :
    funcArgument tree func = some (position + 2 + body.size) := by
  obtain ⟨next, -⟩ := mirrors.next_letFunc placed
  obtain ⟨node, found, -, parentIs⟩ := below.inner
  obtain ⟨hole, rest, filled, rfl⟩ := placed
  obtain ⟨above, foundAbove, -, -, -, -, childIs⟩ := mirrors.node filled
  rw [if_neg (by simp [Forest.size])] at childIs
  rw [funcArgument, found]
  simp only [Option.bind_eq_bind, Option.bind_some, parentIs, foundAbove, childIs]
  exact next

/-- What is found for a name when the search begins at a position. -/
def Finds (tree : List AyPnode) (bind : Nat) (name : Text) (position target : Nat) : Prop :=
  (∃ func, Climbs tree bind name position (some func) ∧ funcArgument tree func = some target) ∨
    Climbs tree bind name position none ∧
      ∃ found, ayPnodeFindBind tree name = some (some found) ∧
        (tree[found]?).bind AyPnode.child = some target

variable {bind position target : Nat} {name : Text}

theorem Finds.pass {parent : Nat} {above term : TermNode} (finds : Finds tree bind name parent target)
    (below : Below tree parent above position term) (notBind : position ≠ bind)
    (passed : term = .aFunc name → above ≠ .aLet) : Finds tree bind name position target := by
  rcases finds with ⟨func, climbs, argument⟩ | ⟨climbs, ofModule⟩
  · exact .inl ⟨func, climbs.pass below notBind passed, argument⟩
  · exact .inr ⟨climbs.pass below notBind passed, ofModule⟩

theorem Finds.identTarget (finds : Finds tree bind name position target)
    (bindIs : (tree[position]?).map AyPnode.bind = some (some bind)) :
    identTarget tree position name = some (some target) := by
  obtain ⟨node, found, nodeBind⟩ := Option.map_eq_some_iff.mp bindIs
  have inside : position < tree.length := (List.getElem?_eq_some_iff.mp found).1
  rw [Pnode.identTarget, ayPnodeFindFunc, found]
  simp only [Option.bind_eq_bind, Option.bind_some, nodeBind]
  rcases finds with ⟨func, climbs, argument⟩ | ⟨climbs, binding, foundBinding, child⟩
  · rw [climbs _ inside, Option.bind_some]
    simp only [argument, Option.map_some]
  · rw [climbs _ inside, Option.bind_some]
    simp only [foundBinding, Option.bind_some, child, Option.map_some]

end Targets

section Environment

theorem declsEnv_concat (before : List Bind) (decl : Bind) :
    declsEnv modules (before ++ [decl]) =
      Function.update (declsEnv modules before) decl.bname
        (decl.exp.meaning modules (declsEnv modules before)) := by
  rw [declsEnv, declsEnv, List.foldl_append]
  rfl

/-- A value in scope is that of a declaration in front. -/
theorem exists_of_declsEnv {before : List Bind} {name : Text} {regex : Regex}
    (value : declsEnv modules before name = some regex) :
    ∃ front decl back, before = front ++ decl :: back ∧ decl.bname = name ∧
      decl.exp.meaning modules (declsEnv modules front) = some regex := by
  induction before using List.reverseRecOn with
  | nil => cases value
  | append_singleton before decl inductionHypothesis =>
      rw [declsEnv_concat] at value
      by_cases same : decl.bname = name
      · rw [← same, Function.update_self] at value
        exact ⟨before, decl, [], rfl, same, value⟩
      · rw [Function.update_of_ne (Ne.symm same)] at value
        obtain ⟨front, other, back, rfl, isName, meaning⟩ := inductionHypothesis value
        exact ⟨front, other, back ++ [decl], by simp, isName, meaning⟩

theorem Term.eq_func {term : Term} {param : Text} (isFunc : term.node = .aFunc param) :
    ∃ body, term = .func param body := by
  cases term with
  | func name body =>
      obtain rfl := TermNode.aFunc.inj isFunc
      exact ⟨body, rfl⟩
  | binary tag left right | letIn name body right | rep rexp quant | bracket rexp
  | value content | ident name => cases isFunc

/-- A name with a value is referred to a term with this value. -/
theorem Stands.finds (mirrors : Mirrors tree decls) (distinct : (decls.map Bind.bname).Nodup)
    {bind position : Nat} {env : Env} {term : Term}
    (stands : Stands modules decls bind position env term) {name : Text} {regex : Regex}
    (value : env name = some regex) (visible : ∀ body, term ≠ .func name body) :
    ∃ target binding outer other, Finds tree bind name position target ∧
      Stands modules decls binding target outer other ∧
      other.meaning modules outer = some regex := by
  have notBind := stands.bind_lt.ne'
  induction stands with
  | @exp before decl after split start =>
      obtain ⟨front, other, back, rfl, isName, meaning⟩ := exists_of_declsEnv value
      have whole : decls = front ++ other :: (back ++ decl :: after) := by rw [split]; simp
      obtain ⟨binding, child⟩ := findBind_eq mirrors distinct whole
      have filled := fill_bindHole (front ++ other :: back) decl after
      rw [← split] at filled
      have below := mirrors.below_only filled
      rw [index_bindHole, ← start] at below
      have climbs : Climbs tree bind name (bind + 1) none :=
        climbs_bind.pass below notBind fun _ => nofun
      rw [isName] at binding
      exact ⟨_, _, _, other.exp, .inr ⟨climbs, _, binding, child⟩, .exp whole rfl, meaning⟩
  | @left position env tag left right outer inductionHypothesis =>
      obtain ⟨target, binding, env', other, finds, found⟩ :=
        inductionHypothesis value (fun _ => nofun) outer.bind_lt.ne'
      exact ⟨target, binding, env', other,
        finds.pass (mirrors.below_left outer.placed) notBind fun _ => nofun, found⟩
  | @right position env tag left right outer inductionHypothesis =>
      obtain ⟨target, binding, env', other, finds, found⟩ :=
        inductionHypothesis value (fun _ => nofun) outer.bind_lt.ne'
      exact ⟨target, binding, env', other,
        finds.pass (mirrors.below_right outer.placed) notBind fun _ => nofun, found⟩
  | @letBody position env param body right outer inductionHypothesis =>
      have notFunc : position + 1 ≠ bind := by
        have := outer.bind_lt
        omega
      have belowFunc := mirrors.below_letFunc outer.placed
      have belowBody := mirrors.below_letBody outer.placed
      by_cases same : name = param
      · subst same
        rw [Function.update_self] at value
        obtain ⟨node, found, termIs, parentIs⟩ := belowFunc.inner
        obtain ⟨above, foundAbove, aboveIs⟩ := belowFunc.outer
        have climbs : Climbs tree bind name (position + 1) (some (position + 1)) :=
          climbs_func notFunc found termIs parentIs foundAbove aboveIs
        exact ⟨_, bind, env, right,
          .inl ⟨position + 1, climbs.pass belowBody notBind fun _ => nofun,
            funcArgument_eq mirrors outer.placed belowFunc⟩, .letRight outer, value⟩
      · rw [Function.update_of_ne same] at value
        obtain ⟨target, binding, env', other, finds, found⟩ :=
          inductionHypothesis value (fun _ => nofun) outer.bind_lt.ne'
        have atFunc := finds.pass belowFunc notFunc fun isFunc =>
          absurd (TermNode.aFunc.inj isFunc).symm same
        exact ⟨target, binding, env', other, atFunc.pass belowBody notBind fun _ => nofun, found⟩
  | @letRight position env param body right outer inductionHypothesis =>
      obtain ⟨target, binding, env', other, finds, found⟩ :=
        inductionHypothesis value (fun _ => nofun) outer.bind_lt.ne'
      refine ⟨target, binding, env', other,
        finds.pass (mirrors.below_letRight outer.placed) notBind fun isFunc => ?_, found⟩
      obtain ⟨inner, isFunc⟩ := Term.eq_func isFunc
      exact absurd isFunc (visible inner)
  | @rep position env rexp quant outer inductionHypothesis =>
      obtain ⟨target, binding, env', other, finds, found⟩ :=
        inductionHypothesis value (fun _ => nofun) outer.bind_lt.ne'
      obtain ⟨hole, rest, filled, rfl⟩ := outer.placed
      exact ⟨target, binding, env', other,
        finds.pass (mirrors.below_only filled) notBind fun _ => nofun, found⟩
  | @bracket position env brexp outer inductionHypothesis =>
      obtain ⟨target, binding, env', other, finds, found⟩ :=
        inductionHypothesis value (fun _ => nofun) outer.bind_lt.ne'
      obtain ⟨hole, rest, filled, rfl⟩ := outer.placed
      exact ⟨target, binding, env', other,
        finds.pass (mirrors.below_only filled) notBind fun _ => nofun, found⟩
  | @func position env param body outer inductionHypothesis =>
      have other : name ≠ param := by
        rintro rfl
        rw [Function.update_self] at value
        cases value
      rw [Function.update_of_ne other] at value
      obtain ⟨target, binding, env', term', finds, found⟩ := inductionHypothesis value
        (fun _ same => other (Term.func.inj same).1.symm) outer.bind_lt.ne'
      obtain ⟨hole, rest, filled, rfl⟩ := outer.placed
      exact ⟨target, binding, env', term',
        finds.pass (mirrors.below_only filled) notBind fun _ => nofun, found⟩

end Environment

end SysrepoAugeas.Pnode
