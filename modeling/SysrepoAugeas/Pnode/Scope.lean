import Mathlib.Logic.Function.Basic
import SysrepoAugeas.Pnode.Tree

/-!
# References of identifiers

An identifier of a regular expression is looked up in another module that is
compiled already, then among the parameters of the `let` terms that it is below,
and last among the bindings of its own module.  Where the environment of the
language gives an identifier a value, this is the term that it is referred to.
-/

namespace SysrepoAugeas.Pnode

open SysrepoAugeas.Data
open SysrepoAugeas.Label (Text)
open SysrepoAugeas.Term (Regex Quant)

section Code

/-- `struct module` of Augeas with what `V_REGEXP` bindings are bound to. -/
structure AugModule where
  name : Text
  bindings : List (Text × Option Text)
  deriving DecidableEq

/-- `ay_get_module` -/
def ayGetModule (modules : List AugModule) (modname : Text) (modnameLen : Nat) : Option AugModule :=
  let len := if modnameLen ≠ 0 then modnameLen else modname.length
  modules.find? fun mod => mod.name.take len = modname.take len

/-- `ay_get_regexp_by_lensname` -/
def ayGetRegexpByLensname (mod : AugModule) (lensname : Text) : Option Text :=
  mod.bindings.findSome? fun binding => if binding.1 = lensname then binding.2 else none

/-- `ay_pnode_regexp_lookup_in_diff_mod` -/
def ayPnodeRegexpLookupInDiffMod (modules : List AugModule) (ident : Text) : Option Text :=
  if '.' ∈ ident then do
    let mod ← ayGetModule modules ident (ident.takeWhile (· ≠ '.')).length
    ayGetRegexpByLensname mod ((ident.dropWhile (· ≠ '.')).drop 1)
  else none

/-- What `ref` and `regexp` of a pnode share their place for. -/
inductive PnodeRef where
  | ref (target : Nat)
  /-- With `AY_PNODE_HAS_REGEXP`. -/
  | regexp (pattern : Text)
  deriving DecidableEq

variable (tree : List AyPnode)

/-- Loop of `ay_pnode_find_func` from `iter` up to `bind`. -/
def findFuncFrom (bind : Option Nat) (name : Text) : Nat → Nat → Option (Option Nat)
  | 0, _ => none
  | fuel + 1, iter =>
      if some iter = bind then some none
      else do
        let node ← tree[iter]?
        let parent ← node.parent
        let above ← tree[parent]?
        if node.term = .aFunc name ∧ above.term = .aLet then some (some iter)
        else findFuncFrom bind name fuel parent

/-- `ay_pnode_find_func` -/
def ayPnodeFindFunc (ident : Nat) (name : Text) : Option (Option Nat) := do
  let node ← tree[ident]?
  findFuncFrom tree node.bind name tree.length ident

/-- Loop of `ay_pnode_find_bind`. -/
def findBindFrom (name : Text) : Nat → Option Nat → Option (Option Nat)
  | _, none => some none
  | 0, some _ => none
  | fuel + 1, some iter => do
      let node ← tree[iter]?
      match node.term with
      | .aBind bname => if bname = name then some (some iter) else findBindFrom name fuel node.next
      | _ => none

/-- `ay_pnode_find_bind` -/
def ayPnodeFindBind (name : Text) : Option (Option Nat) := do
  let root ← tree[0]?
  findBindFrom tree name tree.length root.child

/-- `func->parent->child->next` -/
def funcArgument (func : Nat) : Option Nat := do
  let node ← tree[func]?
  let parent ← tree[← node.parent]?
  let child ← tree[← parent.child]?
  child.next

/-- The pnode that `ay_pnode_set_ref` refers an identifier to. -/
def identTarget (ident : Nat) (name : Text) : Option (Option Nat) := do
  match ← ayPnodeFindFunc tree ident name with
  | some func => (funcArgument tree func).map some
  | none =>
      match ← ayPnodeFindBind tree name with
      | some bind => (tree[bind]?.bind AyPnode.child).map some
      | none => some none

variable (modules : List AugModule)

/-- One round of the loop of `ay_pnode_set_ref`; the recursive call is a parameter. -/
def setIdentRef (setRef : Nat → List (Option PnodeRef) → Option (List (Option PnodeRef)))
    (refs : List (Option PnodeRef)) (ident : Nat) : Option (List (Option PnodeRef)) := do
  let node ← tree[ident]?
  match node.term with
  | .aIdent name =>
      match ayPnodeRegexpLookupInDiffMod modules name with
      | some re => some (refs.set ident (some (.regexp re)))
      | none =>
          match ← identTarget tree ident name with
          | some target => setRef target (refs.set ident (some (.ref target)))
          | none => some refs
  | _ => some refs

/-- `ay_pnode_set_ref`; without fuel, that is when the recursion does not end, there is no result. -/
def ayPnodeSetRef : Nat → Nat → List (Option PnodeRef) → Option (List (Option PnodeRef))
  | 0, _, _ => none
  | fuel + 1, regex, refs => do
      let node ← tree[regex]?
      (List.range (node.descendants + 1)).foldlM
        (fun refs i => setIdentRef tree modules (ayPnodeSetRef fuel) refs (regex + i)) refs

end Code

section Language

/-- Values of the names in scope. -/
abbrev Env := Text → Option Regex

def Value.regex : Value → Option Regex
  | .vString text => some (.string text)
  | .vRegexp pattern => some (.regexp pattern)
  | .vUnit => none

def BinaryTag.regex : BinaryTag → Regex → Regex → Regex
  | .aCompose => .pair .aCompose
  | .aUnion => .union
  | .aMinus => .minus
  | .aConcat => .concat
  | .aApp => .pair .aApp

variable (modules : List AugModule)

/-- The regular expression that a term stands for, if all its names have a value. -/
def Term.meaning : Term → Env → Option Regex
  | .binary tag left right, env => do
      let leftRegex ← left.meaning env
      let rightRegex ← right.meaning env
      some (tag.regex leftRegex rightRegex)
  | .letIn param body right, env => do
      let bound ← right.meaning env
      let inside ← body.meaning (Function.update env param (some bound))
      some (.pair .aLet (.outer .aFunc inside) bound)
  | .rep rexp quant, env => (rexp.meaning env).map fun regex => .rep regex quant
  | .bracket brexp, env => (brexp.meaning env).map (.outer .aBracket)
  -- a parameter has no value, and hides the name outside
  | .func param body, env => (body.meaning (Function.update env param none)).map (.outer .aFunc)
  | .value content, _ => content.regex
  | .ident name, env =>
      match ayPnodeRegexpLookupInDiffMod modules name with
      | some pattern => some (.compiled pattern)
      | none => (env name).map .reference

/-- The environment behind some declarations. -/
def declsEnv (decls : List Bind) : Env :=
  decls.foldl (fun env decl => Function.update env decl.bname (decl.exp.meaning modules env))
    fun _ => none

/-- The pnode at a position below a binding has this term, with these names in scope. -/
inductive Stands (decls : List Bind) (bind : Nat) : Nat → Env → Term → Prop where
  | exp {before decl after} : decls = before ++ decl :: after → bind = (declsForest before).size + 1 →
      Stands decls bind (bind + 1) (declsEnv modules before) decl.exp
  | left {position env tag left right} : Stands decls bind position env (.binary tag left right) →
      Stands decls bind (position + 1) env left
  | right {position env tag left right} : Stands decls bind position env (.binary tag left right) →
      Stands decls bind (position + 1 + left.size) env right
  | letBody {position env param body right} :
      Stands decls bind position env (.letIn param body right) →
      Stands decls bind (position + 2) (Function.update env param (right.meaning modules env)) body
  | letRight {position env param body right} :
      Stands decls bind position env (.letIn param body right) →
      Stands decls bind (position + 2 + body.size) env right
  | rep {position env rexp quant} : Stands decls bind position env (.rep rexp quant) →
      Stands decls bind (position + 1) env rexp
  | bracket {position env brexp} : Stands decls bind position env (.bracket brexp) →
      Stands decls bind (position + 1) env brexp
  | func {position env param body} : Stands decls bind position env (.func param body) →
      Stands decls bind (position + 1) (Function.update env param none) body

/-- The pnodes from a position on, with what is referred to, are a regular expression. -/
inductive Shows (tree : List AyPnode) (refs : List (Option PnodeRef)) : Nat → Regex → Prop where
  | binary {position tag node second left right} : tree[position]? = some node →
      node.term = .binary tag → node.child = some (position + 1) →
      (tree[position + 1]?).bind AyPnode.next = some second →
      Shows tree refs (position + 1) left → Shows tree refs second right →
      Shows tree refs position (tag.regex left right)
  | letIn {position node second left right} : tree[position]? = some node →
      node.term = .aLet → node.child = some (position + 1) →
      (tree[position + 1]?).bind AyPnode.next = some second →
      Shows tree refs (position + 1) left → Shows tree refs second right →
      Shows tree refs position (.pair .aLet left right)
  | rep {position quant node child} : tree[position]? = some node → node.term = .aRep quant →
      node.child = some (position + 1) → Shows tree refs (position + 1) child →
      Shows tree refs position (.rep child quant)
  | bracket {position node child} : tree[position]? = some node → node.term = .aBracket →
      node.child = some (position + 1) → Shows tree refs (position + 1) child →
      Shows tree refs position (.outer .aBracket child)
  | func {position param node child} : tree[position]? = some node → node.term = .aFunc param →
      node.child = some (position + 1) → Shows tree refs (position + 1) child →
      Shows tree refs position (.outer .aFunc child)
  | value {position content node regex} : tree[position]? = some node →
      node.term = .aValue content → content.regex = some regex → Shows tree refs position regex
  | reference {position name node target regex} : tree[position]? = some node →
      node.term = .aIdent name → refs[position]? = some (some (.ref target)) →
      Shows tree refs target regex → Shows tree refs position (.reference regex)
  | compiled {position name node pattern} : tree[position]? = some node →
      node.term = .aIdent name → refs[position]? = some (some (.regexp pattern)) →
      Shows tree refs position (.compiled pattern)

end Language

end SysrepoAugeas.Pnode
