import SysrepoAugeas.Term.Regex
import SysrepoAugeas.Ynode.Encode

/-!
# The pnode array

The parsed module is counted first and then visited in preorder, which gives
the array with the numbers of descendants.  The links are corrected from these
numbers, in the same way as those of the ynodes, and every node below a binding
is told its binding.  `ref` and `regexp` of a pnode are not kept here; they
change later and stand in an array of their own.
-/

namespace SysrepoAugeas.Pnode

open SysrepoAugeas.Data
open SysrepoAugeas.Label (Text)
open SysrepoAugeas.Term (Quant)

/-- Tags with a left and a right term, `A_LET` apart. -/
inductive BinaryTag where
  | aCompose
  | aUnion
  | aMinus
  | aConcat
  | aApp
  deriving DecidableEq

/-- `struct value` of an `A_VALUE` -/
inductive Value where
  | vString (text : Text)
  | vRegexp (pattern : Text)
  | vUnit
  deriving DecidableEq

/-- `struct term` below a binding -/
inductive Term where
  | binary (tag : BinaryTag) (left right : Term)
  /-- `A_LET`; its left term is an `A_FUNC` with the name that the right term is bound to. -/
  | letIn (param : Text) (body right : Term)
  | rep (rexp : Term) (quant : Quant)
  | bracket (brexp : Term)
  | func (param : Text) (body : Term)
  | value (content : Value)
  | ident (name : Text)
  deriving DecidableEq

/-- `A_BIND` -/
structure Bind where
  bname : Text
  exp : Term
  deriving DecidableEq

/-- What a pnode shows of its term; other terms are reached through the links. -/
inductive TermNode where
  | aModule
  | aBind (bname : Text)
  | binary (tag : BinaryTag)
  | aLet
  | aRep (quant : Quant)
  | aBracket
  | aFunc (param : Text)
  | aValue (content : Value)
  | aIdent (name : Text)
  deriving DecidableEq

/-- A term as the visitor gets it. -/
inductive Visited where
  | aModule (decls : List Bind)
  | aBind (decl : Bind)
  /-- The left term of an `A_LET`. -/
  | letFunc (name : Text) (body : Term)
  | inner (term : Term)

/-- `struct ay_pnode` -/
structure AyPnode where
  parent : Option Nat
  next : Option Nat
  child : Option Nat
  descendants : Nat
  bind : Option Nat
  term : TermNode
  deriving DecidableEq

section Code

section Visitor

variable {Data : Type} (func : Visited → Data → Data)

def visitTerm : Term → Data → Data
  | .binary tag left right, data =>
      visitTerm right (visitTerm left (func (.inner (.binary tag left right)) data))
  | .letIn param body right, data =>
      visitTerm right (visitTerm body
        (func (.letFunc param body) (func (.inner (.letIn param body right)) data)))
  | .rep rexp quant, data => visitTerm rexp (func (.inner (.rep rexp quant)) data)
  | .bracket brexp, data => visitTerm brexp (func (.inner (.bracket brexp)) data)
  | .func param body, data => visitTerm body (func (.inner (.func param body)) data)
  | .value content, data => func (.inner (.value content)) data
  | .ident name, data => func (.inner (.ident name)) data

def visitBind (decl : Bind) (data : Data) : Data :=
  visitTerm func decl.exp (func (.aBind decl) data)

/-- `ay_term_visitor` -/
def ayTermVisitor : Visited → Data → Data
  | .aModule decls, data =>
      decls.foldl (fun data decl => visitBind func decl data) (func (.aModule decls) data)
  | .aBind decl, data => visitBind func decl data
  | .letFunc name body, data => visitTerm func body (func (.letFunc name body) data)
  | .inner term, data => visitTerm func term data

end Visitor

/-- `ay_term_count` -/
def ayTermCount (_ : Visited) (cnt : Nat) : Nat := cnt + 1

def Term.node : Term → TermNode
  | .binary tag _ _ => .binary tag
  | .letIn _ _ _ => .aLet
  | .rep _ quant => .aRep quant
  | .bracket _ => .aBracket
  | .func param _ => .aFunc param
  | .value content => .aValue content
  | .ident name => .aIdent name

def Visited.node : Visited → TermNode
  | .aModule _ => .aModule
  | .aBind decl => .aBind decl.bname
  | .letFunc name _ => .aFunc name
  | .inner term => term.node

/-- `ay_pnode_set_term` for the first free place of the array. -/
def ayPnodeSetTerm (visited : Visited) (tree : List AyPnode) : List AyPnode :=
  tree ++ [⟨none, none, none, ayTermVisitor ayTermCount visited 0 - 1, none, visited.node⟩]

/-- Inner loop of `ay_pnode_tree_correction` over the children of `parent`. -/
def correctPnodeChildren (parent descendants : Nat) :
    Nat → Option Nat → Nat → List AyPnode → List AyPnode
  | fuel + 1, some iter, sum, tree =>
      match tree[iter]? with
      | some node =>
          let sum := sum + node.descendants + 1
          let next := if sum ≠ descendants then some (iter + node.descendants + 1) else none
          correctPnodeChildren parent descendants fuel next sum
            (tree.modify iter fun node =>
              { node with
                parent := some parent
                child := if node.descendants ≠ 0 then some (iter + 1) else none
                next := next })
      | none => tree
  | _, _, _, tree => tree

/-- One round of the outer loop. -/
def correctPnode (tree : List AyPnode) (parent : Nat) : List AyPnode :=
  match tree[parent]? with
  | some node =>
      let iter := if node.descendants ≠ 0 then some (parent + 1) else none
      correctPnodeChildren parent node.descendants tree.length iter 0
        (tree.modify parent fun node => { node with child := iter })
  | none => tree

/-- `ay_pnode_tree_correction` -/
def ayPnodeTreeCorrection (tree : List AyPnode) : List AyPnode :=
  (List.range tree.length).foldl correctPnode tree

/-- Loop of `ay_pnode_set_bind` over the bindings. -/
def setBinds : Nat → Option Nat → List AyPnode → List AyPnode
  | fuel + 1, some bind, tree =>
      match tree[bind]? with
      | some node =>
          setBinds fuel node.next
            ((List.range node.descendants).foldl (fun tree i =>
              tree.modify (bind + (i + 1)) fun iter => { iter with bind := some bind }) tree)
      | none => tree
  | _, _, tree => tree

/-- `ay_pnode_set_bind` -/
def ayPnodeSetBind (tree : List AyPnode) : List AyPnode :=
  setBinds tree.length (tree[0]?.bind AyPnode.child) tree

/-- The tree that `ay_pnode_create` builds of the parsed module. -/
def ayPnodeCreate (decls : List Bind) : List AyPnode :=
  ayPnodeSetBind (ayPnodeTreeCorrection (ayTermVisitor ayPnodeSetTerm (.aModule decls) []))

end Code

section Shape

/-- A term in front of its siblings. -/
def Term.forest : Term → Forest TermNode → Forest TermNode
  | .binary tag left right, rest =>
      .cons (.binary tag) (left.forest (right.forest .nil)) rest
  | .letIn param body right, rest =>
      .cons .aLet (.cons (.aFunc param) (body.forest .nil) (right.forest .nil)) rest
  | .rep rexp quant, rest => .cons (.aRep quant) (rexp.forest .nil) rest
  | .bracket brexp, rest => .cons .aBracket (brexp.forest .nil) rest
  | .func param body, rest => .cons (.aFunc param) (body.forest .nil) rest
  | .value content, rest => .cons (.aValue content) .nil rest
  | .ident name, rest => .cons (.aIdent name) .nil rest

/-- Number of terms. -/
def Term.size (term : Term) : Nat := (term.forest .nil).size

def declsForest : List Bind → Forest TermNode
  | [] => .nil
  | decl :: decls => .cons (.aBind decl.bname) (decl.exp.forest .nil) (declsForest decls)

def moduleForest (decls : List Bind) : Forest TermNode := .cons .aModule (declsForest decls) .nil

/-- The binding of every term when the first declaration begins at `start`. -/
def declsBinds (start : Nat) : List Bind → List (Option Nat)
  | [] => []
  | decl :: decls =>
      none :: (List.replicate decl.exp.size (some start) ++
        declsBinds (start + decl.exp.size + 1) decls)

theorem Term.forest_append (term : Term) (rest : Forest TermNode) :
    term.forest rest = (term.forest .nil).append rest := by
  cases term <;> simp [Term.forest, Forest.append]

theorem Term.size_forest (term : Term) (rest : Forest TermNode) :
    (term.forest rest).size = term.size + rest.size := by
  rw [term.forest_append, Forest.size_append, Term.size]

theorem Term.flat_forest (term : Term) (rest : Forest TermNode) :
    (term.forest rest).flat = (term.forest .nil).flat ++ rest.flat := by
  rw [term.forest_append, Forest.flat_append]

section Term

variable (tag : BinaryTag) (left right body : Term) (param : Text) (quant : Quant)
  (content : Value)

@[simp]
theorem Term.size_binary : (Term.binary tag left right).size = left.size + right.size + 1 := by
  rw [Term.size, Term.forest, Forest.size, left.size_forest, Forest.size]
  rfl

@[simp]
theorem Term.size_letIn : (Term.letIn param body right).size = body.size + right.size + 2 := by
  rw [Term.size, Term.forest, Forest.size, Forest.size, Forest.size, ← Term.size, ← Term.size]

@[simp]
theorem Term.size_rep : (Term.rep body quant).size = body.size + 1 := rfl

@[simp]
theorem Term.size_bracket : (Term.bracket body).size = body.size + 1 := rfl

@[simp]
theorem Term.size_func : (Term.func param body).size = body.size + 1 := rfl

@[simp]
theorem Term.size_value : (Term.value content).size = 1 := rfl

@[simp]
theorem Term.size_ident : (Term.ident param).size = 1 := rfl

/-- Nodes of the terms in preorder with the number of terms below. -/
def Term.flat (term : Term) : List (TermNode × Nat) := (term.forest .nil).flat

theorem Term.flat_binary : (Term.binary tag left right).flat =
    (.binary tag, left.size + right.size) :: (left.flat ++ right.flat) := by
  rw [Term.flat, Term.forest, Forest.flat, left.size_forest, left.flat_forest]
  simp [Term.flat, Forest.flat, Term.size]

theorem Term.flat_letIn : (Term.letIn param body right).flat =
    (.aLet, body.size + right.size + 1) :: (.aFunc param, body.size) ::
      (body.flat ++ right.flat) := by
  simp [Term.flat, Term.forest, Forest.flat, Forest.size, Term.size]

theorem Term.flat_rep : (Term.rep body quant).flat = (.aRep quant, body.size) :: body.flat := by
  simp [Term.flat, Term.forest, Forest.flat, Term.size]

theorem Term.flat_bracket : (Term.bracket body).flat = (.aBracket, body.size) :: body.flat := by
  simp [Term.flat, Term.forest, Forest.flat, Term.size]

theorem Term.flat_func : (Term.func param body).flat = (.aFunc param, body.size) :: body.flat := by
  simp [Term.flat, Term.forest, Forest.flat, Term.size]

end Term

def AyPnode.links (node : AyPnode) : Forest.Links := ⟨node.parent, node.next, node.child⟩

def AyPnode.cell (node : AyPnode) : TermNode × Nat := (node.term, node.descendants)

/-- The array is the preorder sequence of the terms, linked like them. -/
structure Mirrors (tree : List AyPnode) (decls : List Bind) : Prop where
  cells : tree.map AyPnode.cell = (moduleForest decls).flat
  links : tree.map AyPnode.links = (moduleForest decls).links 0 none
  binds : tree.map AyPnode.bind = none :: declsBinds 1 decls

end Shape

section Visit

/-- A pnode as it is written. -/
def AyPnode.written (cell : TermNode × Nat) : AyPnode := ⟨none, none, none, cell.2, none, cell.1⟩

theorem visitTerm_count (term : Term) (cnt : Nat) :
    visitTerm ayTermCount term cnt = cnt + term.size := by
  induction term generalizing cnt with
  | binary tag left right leftHypothesis rightHypothesis =>
      rw [visitTerm, leftHypothesis, rightHypothesis, ayTermCount, Term.size_binary]
      omega
  | letIn param body right bodyHypothesis rightHypothesis =>
      rw [visitTerm, bodyHypothesis, rightHypothesis, ayTermCount, ayTermCount, Term.size_letIn]
      omega
  | rep rexp quant inductionHypothesis =>
      rw [visitTerm, inductionHypothesis, ayTermCount, Term.size_rep]
      omega
  | bracket brexp inductionHypothesis =>
      rw [visitTerm, inductionHypothesis, ayTermCount, Term.size_bracket]
      omega
  | func param body inductionHypothesis =>
      rw [visitTerm, inductionHypothesis, ayTermCount, Term.size_func]
      omega
  | value content | ident name => rfl

theorem visitBind_count (decl : Bind) (cnt : Nat) :
    visitBind ayTermCount decl cnt = cnt + 1 + decl.exp.size := by
  rw [visitBind, visitTerm_count, ayTermCount]

theorem size_declsForest (decl : Bind) (decls : List Bind) :
    (declsForest (decl :: decls)).size = decl.exp.size + (declsForest decls).size + 1 := rfl

theorem length_le_declsForest (decls : List Bind) : decls.length ≤ (declsForest decls).size := by
  induction decls with
  | nil => exact Nat.zero_le _
  | cons decl decls inductionHypothesis =>
      rw [size_declsForest, List.length_cons]
      omega

theorem visitModule_count (decls : List Bind) :
    ayTermVisitor ayTermCount (.aModule decls) 0 = (moduleForest decls).size := by
  have loop (cnt : Nat) : decls.foldl (fun cnt decl => visitBind ayTermCount decl cnt) cnt =
      cnt + (declsForest decls).size := by
    induction decls generalizing cnt with
    | nil => rfl
    | cons decl decls inductionHypothesis =>
        rw [List.foldl_cons, visitBind_count, inductionHypothesis, size_declsForest]
        omega
  rw [ayTermVisitor, loop, ayTermCount, moduleForest, Forest.size, Forest.size]
  omega

/-- Every visited term gets the number of terms below it. -/
theorem setTerm_inner (term : Term) (tree : List AyPnode) {descendants : Nat}
    (count : term.size = descendants + 1) :
    ayPnodeSetTerm (.inner term) tree = tree ++ [.written (term.node, descendants)] := by
  rw [ayPnodeSetTerm, ayTermVisitor, visitTerm_count, Nat.zero_add, count, Nat.add_sub_cancel,
    AyPnode.written, Visited.node]

theorem setTerm_letFunc (param : Text) (body : Term) (tree : List AyPnode) :
    ayPnodeSetTerm (.letFunc param body) tree =
      tree ++ [AyPnode.written (.aFunc param, body.size)] := by
  rw [ayPnodeSetTerm, ayTermVisitor, visitTerm_count, ayTermCount, Nat.zero_add,
    Nat.add_sub_cancel_left, AyPnode.written, Visited.node]

theorem visitTerm_setTerm (term : Term) (tree : List AyPnode) :
    visitTerm ayPnodeSetTerm term tree = tree ++ term.flat.map AyPnode.written := by
  induction term generalizing tree with
  | binary tag left right leftHypothesis rightHypothesis =>
      rw [visitTerm, leftHypothesis, rightHypothesis, setTerm_inner _ _ (Term.size_binary _ _ _),
        Term.flat_binary]
      simp [Term.node]
  | letIn param body right bodyHypothesis rightHypothesis =>
      rw [visitTerm, bodyHypothesis, rightHypothesis, setTerm_inner _ _ (Term.size_letIn _ _ _),
        setTerm_letFunc, Term.flat_letIn]
      simp [Term.node]
  | rep rexp quant inductionHypothesis =>
      rw [visitTerm, inductionHypothesis, setTerm_inner _ _ (Term.size_rep _ _), Term.flat_rep]
      simp [Term.node]
  | bracket brexp inductionHypothesis =>
      rw [visitTerm, inductionHypothesis, setTerm_inner _ _ (Term.size_bracket _),
        Term.flat_bracket]
      simp [Term.node]
  | func param body inductionHypothesis =>
      rw [visitTerm, inductionHypothesis, setTerm_inner _ _ (Term.size_func _ _), Term.flat_func]
      simp [Term.node]
  | value content =>
      rw [visitTerm, setTerm_inner _ _ (Term.size_value _)]
      rfl
  | ident name =>
      rw [visitTerm, setTerm_inner _ _ (Term.size_ident _)]
      rfl

theorem visitModule_setTerm (decls : List Bind) :
    ayTermVisitor ayPnodeSetTerm (.aModule decls) [] =
      (moduleForest decls).flat.map AyPnode.written := by
  have loop (tree : List AyPnode) :
      decls.foldl (fun tree decl => visitBind ayPnodeSetTerm decl tree) tree =
        tree ++ (declsForest decls).flat.map AyPnode.written := by
    induction decls generalizing tree with
    | nil => simp [declsForest, Forest.flat]
    | cons decl decls inductionHypothesis =>
        have count := visitBind_count decl 0
        rw [List.foldl_cons, inductionHypothesis, visitBind, visitTerm_setTerm, ayPnodeSetTerm,
          ayTermVisitor, count]
        simp [AyPnode.written, Visited.node, Term.size, Term.flat, declsForest, Forest.flat]
  rw [ayTermVisitor, loop, ayPnodeSetTerm, visitModule_count]
  simp [AyPnode.written, Visited.node, moduleForest, Forest.flat, Forest.size]

end Visit

section Correction

/-- The links of a pnode and its number of descendants in a ynode. -/
def AyPnode.asYnode (node : AyPnode) : Ynode.AyYnode :=
  { Ynode.AyYnode.blank 0 with
    parent := node.parent
    next := node.next
    child := node.child
    descendants := node.descendants }

theorem map_modify {Alpha Beta : Type} {view : Alpha → Beta} {change : Alpha → Alpha}
    {viewed : Beta → Beta} (same : ∀ element, view (change element) = viewed (view element))
    (list : List Alpha) (index : Nat) :
    (list.modify index change).map view = (list.map view).modify index viewed := by
  refine List.ext_getElem? fun position => ?_
  simp only [List.getElem?_map, List.getElem?_modify]
  cases list[position]? with
  | none => rfl
  | some element => by_cases here : index = position <;> simp [here, same]

theorem correctPnodeChildren_asYnode (parent descendants fuel : Nat) (iter : Option Nat) (sum : Nat)
    (tree : List AyPnode) :
    (correctPnodeChildren parent descendants fuel iter sum tree).map AyPnode.asYnode =
      Ynode.correctChildren parent descendants fuel iter sum (tree.map AyPnode.asYnode) := by
  induction fuel generalizing iter sum tree with
  | zero => rfl
  | succ fuel inductionHypothesis =>
      cases iter with
      | none => rfl
      | some iter =>
          rw [correctPnodeChildren, Ynode.correctChildren, List.getElem?_map]
          cases tree[iter]? with
          | none => rfl
          | some node =>
              simp only [Option.map_some, inductionHypothesis]
              congr 1
              apply map_modify
              exact fun _ => rfl

theorem correctPnode_asYnode (tree : List AyPnode) (parent : Nat) :
    (correctPnode tree parent).map AyPnode.asYnode =
      Ynode.correctParent (tree.map AyPnode.asYnode) parent := by
  rw [correctPnode, Ynode.correctParent, List.getElem?_map]
  cases tree[parent]? with
  | none => rfl
  | some node =>
      simp only [Option.map_some, correctPnodeChildren_asYnode, List.length_map]
      congr 1
      apply map_modify
      exact fun _ => rfl

/-- The correction is the same as that of the ynodes. -/
theorem treeCorrection_asYnode (tree : List AyPnode) :
    (ayPnodeTreeCorrection tree).map AyPnode.asYnode =
      Ynode.ayYnodeTreeCorrection (tree.map AyPnode.asYnode) := by
  rw [ayPnodeTreeCorrection, Ynode.ayYnodeTreeCorrection, List.length_map]
  generalize List.range tree.length = parents
  induction parents generalizing tree with
  | nil => rfl
  | cons parent rest inductionHypothesis =>
      rw [List.foldl_cons, List.foldl_cons, inductionHypothesis, correctPnode_asYnode]

section Unchanged

variable {View : Type} {view : AyPnode → View} {change : AyPnode → AyPnode}

theorem map_modify_same (same : ∀ node, view (change node) = view node) (tree : List AyPnode)
    (index : Nat) : (tree.modify index change).map view = tree.map view := by
  rw [@map_modify _ _ view change id same, List.modify_id]

variable (linksAside : ∀ node parent next child,
  view { node with parent := parent, next := next, child := child } = view node)

include linksAside

theorem correctPnodeChildren_same (parent descendants fuel : Nat) (iter : Option Nat) (sum : Nat)
    (tree : List AyPnode) :
    (correctPnodeChildren parent descendants fuel iter sum tree).map view = tree.map view := by
  induction fuel generalizing iter sum tree with
  | zero => rfl
  | succ fuel inductionHypothesis =>
      cases iter with
      | none => rfl
      | some iter =>
          rw [correctPnodeChildren]
          cases tree[iter]? with
          | none => rfl
          | some node =>
              simp only [inductionHypothesis]
              exact map_modify_same (fun node => linksAside node _ _ _) tree iter

theorem treeCorrection_same (tree : List AyPnode) :
    (ayPnodeTreeCorrection tree).map view = tree.map view := by
  rw [ayPnodeTreeCorrection]
  generalize List.range tree.length = parents
  induction parents generalizing tree with
  | nil => rfl
  | cons parent rest inductionHypothesis =>
      rw [List.foldl_cons, inductionHypothesis, correctPnode]
      cases tree[parent]? with
      | none => rfl
      | some node =>
          simp only [correctPnodeChildren_same linksAside]
          exact map_modify_same (fun node => linksAside node node.parent node.next _) tree parent

end Unchanged

/-- The tree before the bindings are set. -/
def linkedTree (decls : List Bind) : List AyPnode :=
  ayPnodeTreeCorrection (ayTermVisitor ayPnodeSetTerm (.aModule decls) [])

theorem linkedTree_cells (decls : List Bind) :
    (linkedTree decls).map AyPnode.cell = (moduleForest decls).flat := by
  rw [linkedTree, treeCorrection_same fun _ _ _ _ => rfl, visitModule_setTerm, List.map_map]
  exact List.map_id _

theorem linkedTree_binds (decls : List Bind) :
    (linkedTree decls).map AyPnode.bind = List.replicate (moduleForest decls).size none := by
  rw [linkedTree, treeCorrection_same fun _ _ _ _ => rfl, visitModule_setTerm, List.map_map,
    ← Forest.length_flat]
  exact List.map_const

theorem linkedTree_links (decls : List Bind) :
    (linkedTree decls).map AyPnode.links = (moduleForest decls).links 0 none := by
  let blank : TermNode → Ynode.Core := fun _ => .blank 0
  have viewed : (linkedTree decls).map AyPnode.links =
      ((linkedTree decls).map AyPnode.asYnode).map Ynode.AyYnode.links := by
    rw [List.map_map]
    rfl
  have cells : Ynode.cells (((moduleForest decls).flat.map AyPnode.written).map AyPnode.asYnode) =
      ((moduleForest decls).map blank).flat := by
    rw [Forest.flat_map, Ynode.cells, List.map_map, List.map_map]
    rfl
  have encoded := @Ynode.encodes_correction _ (.blank 0) ((declsForest decls).map blank) cells (by
    rintro root rootIs
    obtain rfl : _ = root := Option.some.inj rootIs
    exact ⟨rfl, rfl⟩)
  have links := encoded.links
  rw [viewed, linkedTree, treeCorrection_asYnode, visitModule_setTerm, links]
  exact Forest.links_map blank (moduleForest decls) 0 none

end Correction

section Binds

theorem foldl_modify_range {change : AyPnode → AyPnode} (kids before rest : List AyPnode) :
    (List.range kids.length).foldl (fun tree i => tree.modify (before.length + i) change)
        (before ++ (kids ++ rest)) = before ++ (kids.map change ++ rest) := by
  induction kids generalizing before with
  | nil => rfl
  | cons node kids inductionHypothesis =>
      have next := inductionHypothesis (before ++ [change node])
      have shifted (i : Nat) : before.length + (i + 1) = (before ++ [change node]).length + i := by
        rw [List.length_append, List.length_singleton]
        omega
      rw [List.length_cons, List.range_succ_eq_map, List.foldl_cons, List.foldl_map,
        List.cons_append, Nat.add_zero, modify_split]
      simp only [Nat.succ_eq_add_one, shifted]
      simpa using next

/-- The loop over the bindings of some declarations. -/
theorem setBinds_eq (decls : List Bind) (nonempty : decls ≠ []) {fuel : Nat}
    (enough : decls.length ≤ fuel) {before nodes : List AyPnode} (start : Nat)
    (place : before.length = start)
    (cells : nodes.map AyPnode.cell = (declsForest decls).flat)
    (links : nodes.map AyPnode.links = (declsForest decls).links start (some 0))
    (unbound : nodes.map AyPnode.bind = List.replicate (declsForest decls).size none) :
    ∃ bound, setBinds fuel (some start) (before ++ nodes) = before ++ bound ∧
      bound.map AyPnode.cell = nodes.map AyPnode.cell ∧
      bound.map AyPnode.links = nodes.map AyPnode.links ∧
      bound.map AyPnode.bind = declsBinds start decls := by
  induction decls generalizing fuel before nodes start with
  | nil => exact absurd rfl nonempty
  | cons decl decls inductionHypothesis =>
      obtain ⟨fuel, rfl⟩ : ∃ more, fuel = more + 1 :=
        ⟨fuel - 1, (Nat.sub_add_cancel (by simp at enough; omega)).symm⟩
      rw [declsForest, Forest.flat] at cells
      obtain ⟨node, tail, rfl, nodeCell, tailCells⟩ := List.map_eq_cons_iff.mp cells
      obtain ⟨kids, rest, rfl, kidCells, restCells⟩ := List.map_eq_append_iff.mp tailCells
      have kidsLength : kids.length = decl.exp.size := by
        rw [Term.size, ← Forest.length_flat, ← kidCells, List.length_map]
      have restLength : rest.length = (declsForest decls).size := by
        rw [← Forest.length_flat, ← restCells, List.length_map]
      have descendants : node.descendants = kids.length := by
        rw [kidsLength]
        exact congrArg Prod.snd nodeCell
      rw [declsForest, Forest.links, List.map_cons, List.map_append, List.cons.injEq] at links
      obtain ⟨nodeLinks, tailLinks⟩ := links
      obtain ⟨kidsLinks, restLinks⟩ := List.append_inj tailLinks (by
        rw [List.length_map, Forest.length_links, kidsLength, Term.size])
      rw [declsForest, Forest.size, ← Term.size, ← kidsLength, List.map_cons, List.map_append,
        List.replicate_succ, List.replicate_add, List.cons.injEq] at unbound
      obtain ⟨nodeUnbound, tailUnbound⟩ := unbound
      obtain ⟨-, restUnbound⟩ := List.append_inj tailUnbound (by
        rw [List.length_map, List.length_replicate])
      -- this binding
      let mark (iter : AyPnode) : AyPnode := { iter with bind := some start }
      have found : (before ++ node :: (kids ++ rest))[start]? = some node := by
        rw [← place, List.getElem?_append_right (Nat.le_refl _), Nat.sub_self,
          List.getElem?_cons_zero]
      have marked := @foldl_modify_range mark kids (before ++ [node]) rest
      have behind (i : Nat) : (before ++ [node]).length + i = start + (i + 1) := by
        rw [List.length_append, List.length_singleton, place]
        omega
      simp only [behind, List.append_assoc, List.singleton_append] at marked
      have markedCells : (kids.map mark).map AyPnode.cell = kids.map AyPnode.cell := by
        rw [List.map_map]
        rfl
      have markedLinks : (kids.map mark).map AyPnode.links = kids.map AyPnode.links := by
        rw [List.map_map]
        rfl
      have markedBinds : (kids.map mark).map AyPnode.bind =
          List.replicate decl.exp.size (some start) := by
        rw [List.map_map, ← kidsLength]
        exact List.map_const
      have nextIs : node.next =
          if (declsForest decls).size = 0 then none else some (start + decl.exp.size + 1) :=
        congrArg Forest.Links.next nodeLinks
      have step : setBinds (fuel + 1) (some start) (before ++ node :: (kids ++ rest)) =
          setBinds fuel node.next (before ++ node :: (kids.map mark ++ rest)) := by
        rw [setBinds, found]
        simp only [descendants]
        exact congrArg _ marked
      rw [step]
      -- the bindings behind it
      by_cases last : decls = []
      · subst last
        obtain rfl : rest = [] := List.eq_nil_of_length_eq_zero restLength
        have noNext : node.next = none := nextIs
        refine ⟨node :: kids.map mark, ?_, ?_, ?_, ?_⟩
        · rw [noNext, List.append_nil]
          cases fuel <;> rfl
        · simp [markedCells]
        · simp [markedLinks]
        · simp [declsBinds, markedBinds, nodeUnbound]
      · have more : (declsForest decls).size ≠ 0 := by
          cases decls with
          | nil => exact absurd rfl last
          | cons other others => simp [declsForest, Forest.size]
        rw [if_neg more] at nextIs
        obtain ⟨bound, set, sameCells, sameLinks, binds⟩ :=
          @inductionHypothesis last fuel (by simpa using enough) (before ++ node :: kids.map mark) rest
            (start + decl.exp.size + 1) (by simp [place, kidsLength]; omega) restCells restLinks
            restUnbound
        refine ⟨node :: (kids.map mark ++ bound), ?_, ?_, ?_, ?_⟩
        · rw [nextIs]
          simpa using set
        · rw [List.map_cons, List.map_append, markedCells, sameCells, List.map_cons,
            List.map_append]
        · rw [List.map_cons, List.map_append, markedLinks, sameLinks, List.map_cons,
            List.map_append]
        · rw [List.map_cons, List.map_append, markedBinds, binds, nodeUnbound, declsBinds]

/-- The pnodes are the terms of the module in preorder, with their numbers of descendants, linked
like the terms, and each of them knows the binding that it is below. -/
theorem ayPnodeCreate_mirrors (decls : List Bind) : Mirrors (ayPnodeCreate decls) decls := by
  have cells := linkedTree_cells decls
  have links := linkedTree_links decls
  have unbound := linkedTree_binds decls
  have length : (linkedTree decls).length = (declsForest decls).size + 1 := by
    rw [← List.length_map AyPnode.cell, cells, Forest.length_flat]
    rfl
  have create : ayPnodeCreate decls = setBinds (linkedTree decls).length
      ((linkedTree decls)[0]?.bind AyPnode.child) (linkedTree decls) := rfl
  revert create
  cases built : linkedTree decls with
  | nil =>
      rw [built] at length
      cases length
  | cons root nodes =>
      intro create
      rw [built] at cells links unbound length
      rw [moduleForest, Forest.flat, List.map_cons, List.cons.injEq] at cells
      rw [moduleForest, Forest.links, List.map_cons, List.cons.injEq] at links
      rw [moduleForest, Forest.size, Forest.size, List.map_cons, List.replicate_succ,
        List.cons.injEq] at unbound
      simp only [Forest.flat, Forest.links, List.append_nil, Nat.zero_add]
        at cells links unbound
      have childIs : root.child = if (declsForest decls).size = 0 then none else some 1 :=
        congrArg Forest.Links.child links.1
      rw [List.getElem?_cons_zero, Option.bind_some, childIs] at create
      by_cases empty : decls = []
      · subst empty
        obtain rfl : nodes = [] := List.eq_nil_of_length_eq_zero (Nat.succ.inj length)
        have same : ayPnodeCreate [] = [root] := create
        rw [same]
        exact ⟨by simp [moduleForest, declsForest, Forest.flat, Forest.size, cells.1],
          by simp [moduleForest, declsForest, Forest.links, Forest.size, links.1],
          by simp [declsBinds, unbound.1]⟩
      · have some : (declsForest decls).size ≠ 0 := by
          cases decls with
          | nil => exact absurd rfl empty
          | cons other others => simp [declsForest, Forest.size]
        have enough : decls.length ≤ (root :: nodes).length := by
          have := length_le_declsForest decls
          omega
        rw [if_neg some] at create
        obtain ⟨bound, set, sameCells, sameLinks, binds⟩ :=
          @setBinds_eq decls empty _ enough [root] nodes 1 rfl cells.2 links.2 unbound.2
        rw [List.singleton_append, List.singleton_append] at set
        rw [create, set]
        exact ⟨by simp [moduleForest, Forest.flat, cells.1, sameCells, cells.2],
          by simp [moduleForest, Forest.links, Forest.size, links.1, sameLinks, links.2, some],
          by simp [binds, unbound.1]⟩

end Binds

end SysrepoAugeas.Pnode
