import SysrepoAugeas.Data.Numbering
import SysrepoAugeas.Ident.Iter
import SysrepoAugeas.Pattern.Qm

/-!
# Numbers for duplicate identifiers

After the identifiers of all ynodes are resolved, those that occur again in one
scope get a number.  The numbering only changes identifiers: they stand beside
the ynode array here.  `none` as a result stands for an error, a failed
assertion, an access through a null pointer or a write behind the buffer.
-/

namespace SysrepoAugeas.Ident

open SysrepoAugeas.Data
open SysrepoAugeas.Data.Numbering
open SysrepoAugeas.Ynode
open SysrepoAugeas.Pattern (ayMaxIdentSize)

/-- `ident` of the nodes; null is `none`. -/
abbrev Idents := List (Option Name)

/-- What `ay_yang_ident_duplications` counts. -/
structure Duplicates where
  rnk : Int
  cnt : Nat
  prev : Int
  deriving DecidableEq

section Code

/-- `for (ch1 = iter->ident, ch2 = node_ident; *ch1 && *ch2; ch1++, ch2++)`: what is left of both. -/
def compareIdents : Name → Name → Name × Name
  | ch1 :: rest1, ch2 :: rest2 =>
      if ch1.isDigit || ch2.isDigit || ch1 != ch2 then (ch1 :: rest1, ch2 :: rest2)
      else compareIdents rest1 rest2
  | left1, left2 => (left1, left2)

/-- `strtol`, when nothing is left and the number is no larger than `LONG_MAX`. -/
def identNumber (digits : Name) : Option Nat :=
  if digits.all Char.isDigit && Nat.ofDigitChars 10 digits 0 < 2 ^ 63 then
    some (Nat.ofDigitChars 10 digits 0)
  else none

/-- Comparison with the identifier of another node. -/
def Duplicates.compare (nodeIdent : Name) (found : Duplicates) (iterIdent : Name) : Duplicates :=
  match compareIdents iterIdent nodeIdent with
  | (ch1 :: rest, []) =>
      if ch1.isDigit then
        match identNumber (ch1 :: rest) with
        | some tmp =>
            { found with
              prev := if 0 ≤ found.rnk then found.prev else tmp
              cnt := found.cnt + 1 }
        | none => found
      else found
  | ([], []) => { found with cnt := found.cnt + 1 }
  | _ => found

/-- Identifier of a node that is compared with others. -/
def nameOf (nodes : List AyYnode) (idents : Idents) (iter : Nat) : Option Name :=
  nodes[iter]?.bind fun node =>
    if node.type = .ynKey ∨ node.type = .ynLeafref then none else idents[iter]?.join

/-- Loop of `ay_ynode_get_grouping`. -/
def findGrouping (nodes : List AyYnode) (id : YnodeId) : Nat → Option Nat → Option Nat
  | fuel + 1, some iter =>
      nodes[iter]?.bind fun node =>
        if node.type = .ynGrouping ∧ node.id = id then some iter
        else findGrouping nodes id fuel node.next
  | _, _ => none

/-- `ay_ynode_get_grouping` -/
def ayYnodeGetGrouping (nodes : List AyYnode) (id : YnodeId) : Option Nat :=
  nodes[0]?.bind fun root => findGrouping nodes id nodes.length root.child

/-- `for (iter = node->parent; iter && (iter->type == YN_CASE); iter = iter->parent)` -/
def identRoot (nodes : List AyYnode) : Nat → Option Nat → Option Nat
  | fuel + 1, some iter =>
      nodes[iter]?.bind fun node =>
        if node.type = .ynCase then identRoot nodes fuel node.parent else some iter
  | _, _ => none

/-- The duplicates of an identifier in the first level of a grouping. -/
def groupingDuplicates (nodes : List AyYnode) (again : Nat → Option (Int × Nat)) (iter : Nat)
    (found : Duplicates) : Option Duplicates :=
  nodes[iter]?.bind fun uses =>
    if uses.type = .ynUses then do
      let grouping ← ayYnodeGetGrouping nodes uses.ref
      let gr ← nodes[grouping]?
      let (tmpRnk, tmpCnt) ← again (← gr.child)
      some { found with
        rnk := if found.rnk = -1 then tmpRnk else found.rnk
        cnt := found.cnt + tmpCnt }
    else some found

/-- One round of the loop over the nodes of a scope. -/
def duplicatesStep (nodes : List AyYnode) (idents : Idents) (again : Nat → Option (Int × Nat))
    (node : Nat) (nodeIdent : Name) (found : Duplicates) (iter : Nat) : Option Duplicates :=
  match nameOf nodes idents iter with
  | none => some found
  | some iterIdent =>
      if iter = node then some { found with rnk := found.cnt }
      else do
        let found ← groupingDuplicates nodes again iter found
        some (found.compare nodeIdent iterIdent)

/-- `ay_yang_ident_duplications`: rank and count. -/
def ayYangIdentDuplications (nodes : List AyYnode) (idents : Idents) (nodeIdent : Name) :
    Nat → Nat → Option (Int × Nat)
  | 0, _ => none
  | depth + 1, node => do
      let self ← nodes[node]?
      if self.type = .ynCase then some (0, 0)
      else
        let root ← identRoot nodes nodes.length self.parent
        let iters ← identIters nodes root nodes.length none
        let again := ayYangIdentDuplications nodes idents nodeIdent depth
        let found ← iters.foldlM (duplicatesStep nodes idents again node nodeIdent) ⟨-1, 0, -1⟩
        some (if 0 ≤ found.prev then found.prev else found.rnk, found.cnt)

/-- `sprintf(buffer + strlen(buffer), "%" PRId64, dupl_rank + 1)` behind the checks for its room. -/
def appendRank (ident : Name) (duplRank : Int) : Option Name :=
  let digits := Nat.toDigits 10 (duplRank.toNat + 1)
  let checked := if duplRank < 10 then 1 else 2
  if duplRank ≤ 0 ∨ 100 ≤ duplRank ∨ ayMaxIdentSize < ident.length + checked + 1 ∨
      -- the ranks 9 and 99 have one digit more than was checked
      ayMaxIdentSize < ident.length + digits.length + 1 then none
  else some (ident ++ digits)

/-- One round of the loop that makes identifiers unique. -/
def numberIdent (nodes : List AyYnode) (idents : Idents) (i : Nat) : Option Idents := do
  let node ← nodes[i]?
  let ident ← idents[i]?.join
  let (duplRank, duplCount) ← ayYangIdentDuplications nodes idents ident (nodes.length + 1) i
  if duplCount = 0 then some idents
  else
    let buffer ← if node.type = .ynKey then some ['i', 'd']
      else if duplRank ≠ 0 then appendRank ident duplRank
      else some ident
    some (idents.set i (some buffer))

/-- Last loop of `ay_ynode_idents`. -/
def numberIdents (nodes : List AyYnode) (idents : Idents) : Option Idents :=
  (List.range' 1 (nodes.length - 1)).foldlM (numberIdent nodes) idents

end Code

section Compare

variable {name ident nodeIdent : Name} {found : Duplicates}

/-- The comparison goes through a name without digits. -/
theorem compareIdents_clean (clean : stem name = name) {digits : Name}
    (areDigits : ∀ char ∈ digits, char.isDigit = true) :
    compareIdents (name ++ digits) name = (digits, []) := by
  have noDigits : ∀ char ∈ name, (!char.isDigit) = true := List.takeWhile_eq_self_iff.mp clean
  clear clean
  induction name with
  | nil =>
      rw [List.nil_append]
      cases digits <;> rfl
  | cons char rest inductionHypothesis =>
      rw [List.forall_mem_cons] at noDigits
      have noDigit : char.isDigit = false := by simpa using noDigits.1
      rw [List.cons_append, compareIdents, if_neg (by simp [noDigit])]
      exact inductionHypothesis noDigits.2

/-- Nothing is left of the second name: it has no digits and begins the first one. -/
theorem compareIdents_matched {left : Name} (compared : compareIdents ident name = (left, [])) :
    ident = name ++ left ∧ stem name = name := by
  fun_induction compareIdents ident name with
  | case1 ch1 rest1 ch2 rest2 _ => cases compared
  | case2 ch1 rest1 ch2 rest2 same inductionHypothesis =>
      obtain ⟨rfl, clean⟩ := inductionHypothesis compared
      simp only [Bool.or_eq_true, bne_iff_ne, not_or, Bool.not_eq_true, ne_eq, not_not] at same
      obtain ⟨⟨-, noDigit⟩, rfl⟩ := same
      refine ⟨rfl, ?_⟩
      rw [stem, List.takeWhile_cons, noDigit]
      exact congrArg (ch1 :: ·) clean
  | case3 left1 left2 notBoth =>
      obtain ⟨rfl, rfl⟩ := Prod.mk.inj compared
      exact ⟨rfl, rfl⟩

/-- Names with other stems are not counted. -/
theorem compare_other (apart : stem ident ≠ stem nodeIdent) :
    found.compare nodeIdent ident = found := by
  have notStem {digits : Name} (areDigits : ∀ char ∈ digits, char.isDigit = true) :
      compareIdents ident nodeIdent ≠ (digits, []) := by
    intro compared
    obtain ⟨rfl, clean⟩ := compareIdents_matched compared
    rw [stem_append_of_clean clean areDigits, clean] at apart
    exact apart rfl
  rw [Duplicates.compare]
  split
  · rename_i ch1 rest compared
    split
    · split
      · rename_i tmp isNumber
        rw [identNumber] at isNumber
        split at isNumber
        · rename_i areDigits
          rw [Bool.and_eq_true, List.all_eq_true] at areDigits
          exact absurd compared (notStem areDigits.1)
        · cases isNumber
      · rfl
    · rfl
  · rename_i compared
    exact absurd compared (notStem fun char member => absurd member List.not_mem_nil)
  · rfl

/-- The name itself and its numbered occurrences are counted. -/
theorem compare_numbered (clean : stem name = name) {others : Nat} (few : others < 2 ^ 62) :
    found.compare name (numbered name others) =
      { found with
        prev := if others = 0 ∨ 0 ≤ found.rnk then found.prev else others + 1
        cnt := found.cnt + 1 } := by
  rw [Duplicates.compare, numbered]
  by_cases isFirst : others = 0
  · have compared := @compareIdents_clean name clean [] fun char member =>
      absurd member List.not_mem_nil
    rw [List.append_nil] at compared
    rw [if_pos isFirst, compared]
    simp [isFirst]
  · have areDigits := @isDigit_of_mem_number (others + 1)
    have compared := compareIdents_clean clean areDigits
    rw [if_neg isFirst, compared]
    cases digits : Nat.toDigits 10 (others + 1) with
    | nil => exact absurd digits Nat.toDigits_ne_nil
    | cons digit rest =>
        rw [digits] at areDigits
        have isNumber : identNumber (digit :: rest) = some (others + 1) := by
          have all : (digit :: rest).all Char.isDigit = true := List.all_eq_true.mpr areDigits
          have value : Nat.ofDigitChars 10 (digit :: rest) 0 = others + 1 := by
            rw [← digits, Nat.ofDigitChars_ten_toDigits]
          rw [identNumber, all, value, if_pos]
          rw [Bool.true_and, decide_eq_true_eq]
          omega
        simp only [areDigits digit List.mem_cons_self, if_true, isNumber, isFirst, false_or]
        rfl

end Compare

section Count

variable {names front back : List Name} {name : Name} {found : Duplicates}

/-- In front of the node the numbers of the same name are counted, the last one is kept. -/
theorem compare_front (separate : Separate (names ++ [name])) (few : names.count name < 2 ^ 62) :
    (numberFrom [] names).foldl (Duplicates.compare name) ⟨-1, 0, -1⟩ =
      ⟨-1, names.count name, if names.count name < 2 then -1 else names.count name⟩ := by
  induction names using List.reverseRecOn with
  | nil => rfl
  | append_singleton front other inductionHypothesis =>
      have inFront : Separate (front ++ [name]) := by
        apply List.Pairwise.sublist _ separate
        simp
      rw [List.count_append] at few
      rw [numberFrom_concat, List.foldl_append, inductionHypothesis inFront (by omega)]
      rw [List.foldl_cons, List.foldl_nil]
      by_cases same : stem other = stem name
      · obtain ⟨rfl, clean⟩ := @Separate.apart (front ++ [other]) [] name separate other
          (by simp) same
        have short : front.count other < 2 ^ 62 := by omega
        rw [compare_numbered clean short, List.count_append, List.count_singleton_self]
        by_cases none : front.count other = 0
        · simp [none]
        · have notRanked : ¬(front.count other = 0 ∨ (0 : Int) ≤ -1) := by simp [none]
          have again : ¬front.count other + 1 < 2 := by omega
          rw [if_neg notRanked, if_neg again]
          rfl
      · have differs : name ≠ other := fun equal => same (congrArg stem equal.symm)
        have notCounted : (front ++ [other]).count name = front.count name := by
          have notOther : [other].count name = 0 :=
            List.count_eq_zero_of_not_mem (by simpa using differs)
          rw [List.count_append, notOther, Nat.add_zero]
        rw [compare_other (by rwa [stem_numbered]), notCounted]

/-- Behind the node only the count changes. -/
theorem compare_behind (ranked : 0 ≤ found.rnk) :
    ∃ more, names.foldl (Duplicates.compare name) found = { found with cnt := found.cnt + more } := by
  induction names generalizing found with
  | nil => exact ⟨0, rfl⟩
  | cons other rest inductionHypothesis =>
      have step : ∃ more, found.compare name other = { found with cnt := found.cnt + more } := by
        rw [Duplicates.compare]
        split
        · split
          · split
            · exact ⟨1, rfl⟩
            · exact ⟨0, rfl⟩
          · exact ⟨0, rfl⟩
        · exact ⟨1, rfl⟩
        · exact ⟨0, rfl⟩
      obtain ⟨more, isStep⟩ := step
      obtain ⟨others, isRest⟩ := @inductionHypothesis { found with cnt := found.cnt + more } ranked
      rw [List.foldl_cons, isStep, isRest]
      exact ⟨more + others, by simp [Nat.add_assoc]⟩

end Count

section Scope

variable {nodes : List AyYnode} {idents : Idents} {root node : Nat} {front back iters : List Nat}
  {again : Nat → Option (Int × Nat)} {found : Duplicates} {name : Name}

/-- Identifiers of some nodes, without those that are not compared. -/
def namesOf (nodes : List AyYnode) (idents : Idents) (iters : List Nat) : List Name :=
  iters.filterMap (nameOf nodes idents)

def NoUses (nodes : List AyYnode) (iters : List Nat) : Prop :=
  ∀ iter ∈ iters, ∀ self ∈ nodes[iter]?, self.type ≠ .ynUses

instance (nodes : List AyYnode) (iters : List Nat) : Decidable (NoUses nodes iters) :=
  inferInstanceAs (Decidable (∀ iter ∈ iters, ∀ self ∈ nodes[iter]?, self.type ≠ .ynUses))

/-- Other nodes of the scope are compared one after the other. -/
theorem foldlM_others (noUses : NoUses nodes iters) (absent : node ∉ iters) :
    iters.foldlM (duplicatesStep nodes idents again node name) found =
      some ((namesOf nodes idents iters).foldl (Duplicates.compare name) found) := by
  induction iters generalizing found with
  | nil => rfl
  | cons iter rest inductionHypothesis =>
      rw [List.mem_cons, not_or] at absent
      have others : NoUses nodes rest := fun other member =>
        noUses other (List.mem_cons_of_mem _ member)
      rw [List.foldlM_cons, duplicatesStep, namesOf]
      cases named : nameOf nodes idents iter with
      | none =>
          rw [List.filterMap_cons_none named]
          exact inductionHypothesis others absent.2
      | some ident =>
          obtain ⟨self, isSelf, -⟩ := Option.bind_eq_some_iff.mp named
          have plain : groupingDuplicates nodes again iter found = some found := by
            rw [groupingDuplicates, isSelf, Option.bind_some,
              if_neg (noUses iter List.mem_cons_self self isSelf)]
          rw [List.filterMap_cons_some named, List.foldl_cons]
          simp only [if_neg (Ne.symm absent.1), plain, Option.bind_eq_bind, Option.bind_some]
          exact inductionHypothesis others absent.2

/-- The rank is the number of the same names in front, once those have their numbers. -/
theorem foldlM_scope (noUses : NoUses nodes (front ++ node :: back))
    (distinct : (front ++ node :: back).Nodup) (named : nameOf nodes idents node = some name)
    {names : List Name} (numbers : namesOf nodes idents front = numberFrom [] names)
    (separate : Separate (names ++ [name])) (few : names.count name < 2 ^ 62) :
    ∃ found, (front ++ node :: back).foldlM (duplicatesStep nodes idents again node name)
        ⟨-1, 0, -1⟩ = some found ∧
      (if 0 ≤ found.prev then found.prev else found.rnk) = names.count name ∧
      (found.cnt = 0 → names.count name = 0) := by
  have apart := List.nodup_append.mp distinct
  have notInFront : node ∉ front := fun member =>
    apart.2.2 node member node List.mem_cons_self rfl
  have notBehind : node ∉ back := (List.nodup_cons.mp apart.2.1).1
  have first := @foldlM_others nodes idents node front again ⟨-1, 0, -1⟩ name
    (fun iter member => noUses iter (List.mem_append_left _ member)) notInFront
  rw [numbers, compare_front separate few] at first
  have last (found : Duplicates) := @foldlM_others nodes idents node back again found name
    (fun iter member => noUses iter (List.mem_append_right _ (List.mem_cons_of_mem _ member)))
    notBehind
  obtain ⟨more, behind⟩ := @compare_behind (namesOf nodes idents back) name
    ⟨names.count name, names.count name,
      if names.count name < 2 then -1 else names.count name⟩ (Int.natCast_nonneg _)
  refine ⟨⟨names.count name, names.count name + more,
    if names.count name < 2 then -1 else names.count name⟩, ?_, ?_, ?_⟩
  · rw [List.foldlM_append, first, Option.bind_eq_bind, Option.bind_some, List.foldlM_cons,
      duplicatesStep, named]
    simp only [if_true, Option.bind_eq_bind, Option.bind_some]
    rw [last, behind]
  · dsimp only
    by_cases once : names.count name < 2
    · rw [if_pos once]
      rfl
    · rw [if_neg once, if_pos (Int.natCast_nonneg _)]
  · intro none
    exact Nat.eq_zero_of_add_eq_zero_right none

end Scope

section Run

variable {nodes : List AyYnode} {idents current next : Idents} {root time : Nat}
  {front back iters : List Nat} {name : Name}

/-- The cases above a node lead to the root of its scope. -/
theorem identRoot_of_reached {forest : Forest Core} (encodes : Encodes nodes forest)
    {rootNode : AyYnode} (isRoot : nodes[root]? = some rootNode) (noCase : rootNode.type ≠ .ynCase)
    {iter : Nat} {node : AyYnode} (reached : Reached nodes root iter)
    (found : nodes[iter]? = some node) {fuel : Nat} (enough : iter ≤ fuel) :
    identRoot nodes fuel node.parent = some root := by
  induction reached generalizing node fuel with
  | child foundAgain isChild =>
      rw [found, Option.some.injEq] at foundAgain
      subst foundAgain
      have above := parent_lt encodes found isChild
      obtain ⟨fuel, rfl⟩ : ∃ less, fuel = less + 1 := ⟨fuel - 1, by omega⟩
      rw [isChild, identRoot, isRoot, Option.bind_some, if_neg noCase]
  | inCase reached caseFound isCase foundAgain isChild inductionHypothesis =>
      rw [found, Option.some.injEq] at foundAgain
      subst foundAgain
      have above := parent_lt encodes found isChild
      obtain ⟨fuel, rfl⟩ : ∃ less, fuel = less + 1 := ⟨fuel - 1, by omega⟩
      rw [isChild, identRoot, caseFound, Option.bind_some, if_pos isCase]
      exact inductionHypothesis caseFound (by omega)

/-- A scope: what the iterator gives, without references to groupings. -/
structure Scope (nodes : List AyYnode) (root : Nat) (iters : List Nat) : Prop where
  iterates : identIters nodes root nodes.length none = some iters
  sorted : iters.Pairwise (· < ·)
  noUses : NoUses nodes iters
  inside : ∀ iter ∈ iters, 0 < iter ∧ iter < nodes.length
  above : ∀ iter ∈ iters, ∀ node, nodes[iter]? = some node →
    node.type ≠ .ynCase ∧ identRoot nodes nodes.length node.parent = some root

/-- What is done when the loop comes to a node. -/
structure Numbered (nodes : List AyYnode) (iters : List Nat) (idents current : Idents)
    (time : Nat) : Prop where
  kept : ∀ iter, time ≤ iter → current[iter]? = idents[iter]?
  done : ∀ front iter back, iters = front ++ iter :: back → iter < time →
    ∀ name ∈ nameOf nodes idents iter, (namesOf nodes idents front).count name < 100 ∧
      nameOf nodes current iter =
        some (numbered name ((namesOf nodes idents front).count name))
  skipped : ∀ iter, nameOf nodes idents iter = none → nameOf nodes current iter = none

theorem Scope.start (scope : Scope nodes root iters) (idents : Idents) :
    Numbered nodes iters idents idents 1 where
  kept := fun _ _ => rfl
  done := by
    rintro front iter back rfl early
    have := (scope.inside iter (by simp)).1
    omega
  skipped := fun _ none => none

theorem namesOf_concat (front : List Nat) (iter : Nat) :
    namesOf nodes idents (front ++ [iter]) =
      namesOf nodes idents front ++ (nameOf nodes idents iter).toList := by
  rw [namesOf, namesOf, List.filterMap_append]
  cases named : nameOf nodes idents iter with
  | none => rw [List.filterMap_cons_none named]; rfl
  | some name => rw [List.filterMap_cons_some named]; rfl

/-- The nodes in front have their numbers. -/
theorem Numbered.names (numbered : Numbered nodes iters idents current time)
    (split : iters = front ++ back) (early : ∀ iter ∈ front, iter < time) :
    namesOf nodes current front = numberFrom [] (namesOf nodes idents front) := by
  induction front using List.reverseRecOn generalizing back with
  | nil => rfl
  | append_singleton front iter inductionHypothesis =>
      have regroup : iters = front ++ iter :: back := by simpa using split
      have before := inductionHypothesis regroup fun other member =>
        early other (List.mem_append_left _ member)
      rw [namesOf_concat, namesOf_concat, before]
      cases named : nameOf nodes idents iter with
      | none => rw [numbered.skipped iter named, Option.toList_none, List.append_nil, List.append_nil]
      | some name =>
          have isDone := (numbered.done front iter back regroup (early iter (by simp)) name named).2
          rw [isDone, Option.toList_some, Option.toList_some, numberFrom_concat]

/-- The numbers in front were below the limit. -/
theorem Numbered.few (numbered : Numbered nodes iters idents current time)
    (split : iters = front ++ back) (early : ∀ iter ∈ front, iter < time) (name : Name) :
    (namesOf nodes idents front).count name ≤ 100 := by
  induction front using List.reverseRecOn generalizing back with
  | nil => exact Nat.zero_le _
  | append_singleton front iter inductionHypothesis =>
      have regroup : iters = front ++ iter :: back := by simpa using split
      have before := inductionHypothesis regroup fun other member =>
        early other (List.mem_append_left _ member)
      rw [namesOf_concat]
      cases named : nameOf nodes idents iter with
      | none => rwa [Option.toList_none, List.append_nil]
      | some other =>
          rw [Option.toList_some, List.count_append]
          by_cases same : other = name
          · obtain rfl := same
            have below := (numbered.done front iter back regroup (early iter (by simp)) other named).1
            rw [List.count_singleton_self]
            omega
          · have notOther : [other].count name = 0 :=
              List.count_eq_zero_of_not_mem (by simpa using Ne.symm same)
            omega

/-- What the buffer holds behind the rank that was computed. -/
theorem appendRank_eq {buffer : Name} {others : Nat} (positive : others ≠ 0)
    (written : appendRank name others = some buffer) :
    others < 100 ∧ buffer = numbered name others := by
  rw [appendRank] at written
  rw [Option.ite_none_left_eq_some] at written
  obtain ⟨inRange, isBuffer⟩ := written
  rw [not_or, not_or, Int.not_le, Int.not_le] at inRange
  rw [Option.some.injEq, Int.toNat_natCast] at isBuffer
  refine ⟨by omega, ?_⟩
  rw [numbered, if_neg positive, isBuffer]

/-- The number of one node. -/
theorem numberIdent_cases {i : Nat} (stepped : numberIdent nodes current i = some next) :
    ∃ node ident duplRank duplCount, nodes[i]? = some node ∧ current[i]?.join = some ident ∧
      ayYangIdentDuplications nodes current ident (nodes.length + 1) i =
        some (duplRank, duplCount) ∧
      (duplCount = 0 ∧ next = current ∨
        ∃ buffer, next = current.set i (some buffer) ∧
          (node.type = .ynKey ∨ duplRank ≠ 0 ∧ appendRank ident duplRank = some buffer ∨
            duplRank = 0 ∧ buffer = ident)) := by
  simp only [numberIdent, Option.bind_eq_bind, Option.bind_eq_some_iff] at stepped
  obtain ⟨node, isNode, ident, isIdent, ⟨duplRank, duplCount⟩, counted, written⟩ := stepped
  refine ⟨node, ident, duplRank, duplCount, isNode, isIdent, counted, ?_⟩
  split at written
  · rename_i none
    exact .inl ⟨none, (Option.some.inj written).symm⟩
  · split at written
    · rename_i isKey
      obtain ⟨buffer, -, isNext⟩ := Option.bind_eq_some_iff.mp written
      exact .inr ⟨buffer, (Option.some.inj isNext).symm, .inl isKey⟩
    · split at written
      · rename_i ranked
        obtain ⟨buffer, isBuffer, isNext⟩ := Option.bind_eq_some_iff.mp written
        exact .inr ⟨buffer, (Option.some.inj isNext).symm, .inr (.inl ⟨ranked, isBuffer⟩)⟩
      · rename_i first
        obtain ⟨buffer, isBuffer, isNext⟩ := Option.bind_eq_some_iff.mp written
        exact .inr ⟨buffer, (Option.some.inj isNext).symm,
          .inr (.inr ⟨not_not.mp first, (Option.some.inj isBuffer).symm⟩)⟩

theorem nameOf_congr {iter : Nat} (same : next[iter]? = current[iter]?) :
    nameOf nodes next iter = nameOf nodes current iter := by
  rw [nameOf, nameOf, same]

/-- The rank and the count of a node of the scope whose turn it is. -/
theorem Numbered.counted (scope : Scope nodes root iters)
    (separate : Separate (namesOf nodes idents iters))
    (numbered : Numbered nodes iters idents current time)
    (split : iters = front ++ time :: back) (named : nameOf nodes idents time = some name)
    {depth : Nat} :
    ∃ duplCount, ayYangIdentDuplications nodes current name (depth + 1) time =
        some (((namesOf nodes idents front).count name : Int), duplCount) ∧
      (duplCount = 0 → (namesOf nodes idents front).count name = 0) := by
  have sorted := scope.sorted
  rw [split] at sorted
  have early : ∀ iter ∈ front, iter < time := fun iter member =>
    (List.pairwise_append.mp sorted).2.2 iter member time List.mem_cons_self
  have member : time ∈ iters := by simp [split]
  obtain ⟨node, isNode, isNamed⟩ := Option.bind_eq_some_iff.mp named
  obtain ⟨noCase, above⟩ := scope.above time member node isNode
  have separateFront : Separate (namesOf nodes idents front ++ [name]) := by
    apply List.Pairwise.sublist _ separate
    rw [split, namesOf, namesOf, List.filterMap_append, List.filterMap_cons_some named]
    simp
  have few := numbered.few split early name
  have noUses := scope.noUses
  rw [split] at noUses
  obtain ⟨found, counted, ranked, isNone⟩ := @foldlM_scope nodes current time front back
    (ayYangIdentDuplications nodes current name depth) name noUses
    (sorted.imp fun less => Nat.ne_of_lt less)
    ((nameOf_congr (numbered.kept time (Nat.le_refl _))).trans named)
    (namesOf nodes idents front) (numbered.names split early) separateFront (by omega)
  refine ⟨found.cnt, ?_, isNone⟩
  rw [← split] at counted
  rw [ayYangIdentDuplications]
  simp only [isNode, Option.bind_eq_bind, Option.bind_some, if_neg noCase, above, scope.iterates,
    counted, ranked]

/-- One round numbers one node. -/
theorem Numbered.step (scope : Scope nodes root iters)
    (separate : Separate (namesOf nodes idents iters))
    (numbered : Numbered nodes iters idents current time)
    (stepped : numberIdent nodes current time = some next) :
    Numbered nodes iters idents next (time + 1) := by
  obtain ⟨node, ident, duplRank, duplCount, isNode, isIdent, counted, outcome⟩ :=
    numberIdent_cases stepped
  have others : ∀ iter, iter ≠ time → next[iter]? = current[iter]? := by
    intro iter differs
    rcases outcome with ⟨-, rfl⟩ | ⟨buffer, rfl, -⟩
    · rfl
    · exact List.getElem?_set_ne (Ne.symm differs)
  have written (buffer : Name) (isSet : next = current.set time (some buffer))
      (compared : ¬(node.type = .ynKey ∨ node.type = .ynLeafref)) :
      nameOf nodes next time = some buffer := by
    have bound : time < current.length := by
      by_contra outside
      rw [List.getElem?_eq_none (Nat.le_of_not_lt outside)] at isIdent
      cases isIdent
    rw [nameOf, isNode, Option.bind_some, if_neg compared, isSet, List.getElem?_set_self bound]
    rfl
  have keptIdent : idents[time]?.join = some ident := by
    rw [← numbered.kept time (Nat.le_refl _)]
    exact isIdent
  refine ⟨fun iter late => ?_, fun front iter back split early name named => ?_, fun iter none => ?_⟩
  · rw [others iter (by omega)]
    exact numbered.kept iter (by omega)
  · by_cases isTime : iter = time
    · obtain rfl := isTime
      have compared : ¬(node.type = .ynKey ∨ node.type = .ynLeafref) := by
        intro isKey
        rw [nameOf, isNode, Option.bind_some, if_pos isKey] at named
        cases named
      obtain rfl : ident = name := by
        rw [nameOf, isNode, Option.bind_some, if_neg compared, keptIdent] at named
        exact Option.some.inj named
      obtain ⟨count, ranked, isNone⟩ :=
        @Numbered.counted nodes idents current root iter front back iters ident scope separate
          numbered split named nodes.length
      rw [counted, Option.some.injEq, Prod.mk.injEq] at ranked
      obtain ⟨rfl, rfl⟩ := ranked
      have current_name : nameOf nodes current iter = some ident :=
        (nameOf_congr (numbered.kept iter (Nat.le_refl _))).trans named
      rcases outcome with ⟨none, rfl⟩ | ⟨buffer, isSet, isKey | ⟨positive, appended⟩ | ⟨first, rfl⟩⟩
      · rw [isNone none]
        exact ⟨by omega, current_name⟩
      · exact absurd (Or.inl isKey) compared
      · obtain ⟨few, rfl⟩ := appendRank_eq (by exact_mod_cast positive) appended
        exact ⟨few, written _ isSet compared⟩
      · have isFirst : (namesOf nodes idents front).count buffer = 0 := by exact_mod_cast first
        rw [isFirst]
        exact ⟨by omega, written buffer isSet compared⟩
    · rw [nameOf_congr (others iter isTime)]
      exact numbered.done front iter back split (by omega) name named
  · by_cases isTime : iter = time
    · obtain rfl := isTime
      rw [nameOf, isNode, Option.bind_some] at none ⊢
      split at none
      · rename_i isKey
        rw [if_pos isKey]
      · rw [keptIdent] at none
        cases none
    · rw [nameOf_congr (others iter isTime)]
      exact numbered.skipped iter none

/-- A run numbers the nodes in the order of the array. -/
theorem Numbered.run (scope : Scope nodes root iters)
    (separate : Separate (namesOf nodes idents iters)) (count : Nat) {final : Idents}
    (numbered : Numbered nodes iters idents current time)
    (ran : (List.range' time count).foldlM (numberIdent nodes) current = some final) :
    Numbered nodes iters idents final (time + count) := by
  induction count generalizing time current with
  | zero =>
      obtain rfl := Option.some.inj ran
      exact numbered
  | succ count inductionHypothesis =>
      rw [List.range'_succ, List.foldlM_cons] at ran
      obtain ⟨next, stepped, ranRest⟩ := Option.bind_eq_some_iff.mp ran
      have further := inductionHypothesis (numbered.step scope separate stepped) ranRest
      have place : time + 1 + count = time + (count + 1) := by omega
      rwa [place] at further

end Run

section Result

variable {nodes : List AyYnode} {idents final : Idents} {hole : Forest.Hole Core} {label : Core}
  {kids rest : Forest Core}

/-- The iterator gives what is below the root without the cases. -/
theorem identIters_uncased (encodes : Encodes nodes (hole.fill (.cons label kids rest)))
    (full : ∀ case ∈ nodes, case.type = .ynCase → case.child ≠ none) :
    identIters nodes hole.index nodes.length none = some (uncasedIndices (hole.index + 1) kids) := by
  obtain ⟨node, found, -, -, -, -, childEq⟩ := encodes.node_in
  have kidsEncode : Encodes nodes ((Forest.Hole.under label rest hole).fill kids) := encodes
  have kidsFull := casesFull_of_encodes kidsEncode full
  have inTree := (List.getElem?_eq_some_iff.mp found).1
  apply identIters_eq
  · rw [ayYangIdentIter, found, Option.bind_some, childEq]
    split
    · rename_i noKids
      rw [Forest.eq_nil_of_size noKids]
      rfl
    · rename_i hasKids
      exact enterCase_eq kidsFull hasKids kidsEncode
  · rw [← finished_root encodes inTree]
    exact follows_uncased kidsFull kidsEncode (Nat.lt_succ_self _)
  · have length := length_of_cells encodes.cells
    have short := length_uncasedIndices_le kids (hole.index + 1)
    rw [Forest.Hole.size_fill, Forest.size] at length
    omega

theorem scope_of_encodes {forest : Forest Core} (encodes : Encodes nodes forest)
    (full : ∀ case ∈ nodes, case.type = .ynCase → case.child ≠ none) {root : Nat}
    {rootNode : AyYnode} (isRoot : nodes[root]? = some rootNode) (noCase : rootNode.type ≠ .ynCase)
    {iters : List Nat} (iterates : identIters nodes root nodes.length none = some iters)
    (noUses : NoUses nodes iters) : Scope nodes root iters := by
  have bound : root < forest.size := by
    rw [← length_of_cells encodes.cells]
    exact (List.getElem?_eq_some_iff.mp isRoot).1
  obtain ⟨hole, label, kids, rest, rfl, rfl⟩ := Forest.Hole.exists_of_lt_size bound
  have kidsEncode : Encodes nodes ((Forest.Hole.under label rest hole).fill kids) := encodes
  rw [identIters_uncased encodes full, Option.some.injEq] at iterates
  subst iterates
  refine ⟨identIters_uncased encodes full, uncasedIndices_increasing _ _, noUses,
    fun iter member => ?_, fun iter member node found => ?_⟩
  · obtain ⟨-, node, found, -⟩ := reached_of_mem_uncased kidsEncode rfl (.inl rfl) member
    have above := (bounds_of_mem_uncased member).1
    exact ⟨by omega, (List.getElem?_eq_some_iff.mp found).1⟩
  · obtain ⟨reached, other, foundAgain, isNoCase⟩ :=
      reached_of_mem_uncased kidsEncode rfl (.inl rfl) member
    rw [found, Option.some.injEq] at foundAgain
    subst foundAgain
    exact ⟨isNoCase, identRoot_of_reached encodes isRoot noCase reached found
      (Nat.le_of_lt (List.getElem?_eq_some_iff.mp found).1)⟩

/-- In a scope without references to groupings the numbers make the identifiers different. -/
theorem numberIdents_unique {forest : Forest Core} (encodes : Encodes nodes forest)
    (full : ∀ case ∈ nodes, case.type = .ynCase → case.child ≠ none) {root : Nat}
    {rootNode : AyYnode} (isRoot : nodes[root]? = some rootNode) (noCase : rootNode.type ≠ .ynCase)
    {iters : List Nat} (iterates : identIters nodes root nodes.length none = some iters)
    (noUses : NoUses nodes iters) (separate : Separate (namesOf nodes idents iters))
    (numbered : numberIdents nodes idents = some final) :
    namesOf nodes final iters = numberFrom [] (namesOf nodes idents iters) ∧
      (namesOf nodes final iters).Nodup := by
  have scope := scope_of_encodes encodes full isRoot noCase iterates noUses
  have ran := (scope.start idents).run scope separate (nodes.length - 1) numbered
  have names : namesOf nodes final iters = numberFrom [] (namesOf nodes idents iters) := by
    apply ran.names (List.append_nil iters).symm
    intro iter member
    have := (scope.inside iter member).2
    omega
  rw [names]
  exact ⟨rfl, nodup_numberFrom separate⟩

/-- Two leaves of one name in a case, and the third one and another leaf behind it. -/
def leafNodes : List AyYnode :=
  ayYnodeTreeCorrection [unlinkedNode .ynRoot 7, unlinkedNode .ynList 6, unlinkedNode .ynKey 0,
    unlinkedNode .ynCase 2, unlinkedNode .ynLeaf 0, unlinkedNode .ynLeaf 0, unlinkedNode .ynLeaf 0,
    unlinkedNode .ynLeaf 0]

def leafForest : Forest Core :=
  let core (type : YangType) : Core := { Core.blank 0 with type := type }
  .cons (core .ynRoot)
    (.cons (core .ynList)
      (.cons (core .ynKey) .nil (.cons (core .ynCase)
        (.cons (core .ynLeaf) .nil (.cons (core .ynLeaf) .nil .nil))
        (.cons (core .ynLeaf) .nil (.cons (core .ynLeaf) .nil .nil)))) .nil) .nil

def leafIdents : Idents :=
  [none, some "files".toList, some "b".toList, some "b".toList, some "b".toList, some "b".toList,
    some "b".toList, some "c1".toList]

def leafNumbered : Idents :=
  [none, some "files".toList, some "id".toList, some "b".toList, some "b".toList, some "b2".toList,
    some "b3".toList, some "c1".toList]

theorem numberIdents_unique_leaves :
    namesOf leafNodes leafNumbered [2, 4, 5, 6, 7] =
        numberFrom [] (namesOf leafNodes leafIdents [2, 4, 5, 6, 7]) ∧
      (namesOf leafNodes leafNumbered [2, 4, 5, 6, 7]).Nodup := by
  have encodes : Encodes leafNodes leafForest := ⟨by decide, by decide⟩
  have isRoot : ∃ node, leafNodes[1]? = some node ∧ node.type ≠ .ynCase := by decide
  obtain ⟨node, isNode, noCase⟩ := isRoot
  exact numberIdents_unique encodes (by decide) isNode noCase (by decide) (by decide)
    (by decide) (by decide)

end Result

end SysrepoAugeas.Ident
