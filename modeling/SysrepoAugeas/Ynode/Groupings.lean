import SysrepoAugeas.Data.Backwards
import SysrepoAugeas.Ynode.Ids
import SysrepoAugeas.Ynode.Move

/-!
# The order of groupings

A grouping can be placed once the groupings that it uses are placed.  The uses
of a grouping are those in its subtree but not in a grouping in there; the
order is found by passes over the groupings that are left.
-/

namespace SysrepoAugeas.Ynode

open SysrepoAugeas.Data

section Code

/-- Inner loop over the nodes of a grouping: `left` nodes from `index` on, the inner groupings
are skipped. -/
def usesWithin (nodes : List AyYnode) (index left : Nat) : List AyYnode :=
  match left with
  | 0 => []
  | left + 1 =>
      match nodes[index]? with
      | some iter =>
          if iter.type = .ynUses then iter :: usesWithin nodes (index + 1) left
          else if iter.type = .ynGrouping then
            usesWithin nodes (index + iter.descendants + 1) (left - iter.descendants)
          else usesWithin nodes (index + 1) left
      | none => []
termination_by left

/-- Key of the dictionary with its values.  The uses of a grouping are inserted directly after its
key, so `ay_dnode_insert` puts every item at the end.  A key is set to null once it is resolved. -/
structure GroupingKey where
  gr : Option AyYnode
  uses : List AyYnode

/-- Fill 'dict' for one node. -/
def groupingKey (nodes : List AyYnode) (i : Nat) : Option GroupingKey :=
  nodes[i]?.bind fun gr =>
    if gr.type = .ynGrouping then some ⟨some gr, usesWithin nodes (i + 1) gr.descendants⟩ else none

/-- Fill 'dict'. -/
def fillDict (nodes : List AyYnode) : List GroupingKey :=
  ((List.range nodes.length).drop 1).filterMap (groupingKey nodes)

/-- One pass over the keys. -/
def resolvePass : List GroupingKey → List YnodeId → List GroupingKey × List YnodeId
  | [], sort => ([], sort)
  | key :: rest, sort =>
      match key.gr with
      | none => Prod.map (key :: ·) id (resolvePass rest sort)
      | some gr =>
          if key.uses.all fun us => sort.contains us.ref then
            Prod.map (⟨none, key.uses⟩ :: ·) id (resolvePass rest (sort ++ [gr.id]))
          else Prod.map (key :: ·) id (resolvePass rest sort)

/-- `while (cnt < keys)`; a pass that resolves nothing would be repeated forever. -/
def fillSort (keys : Nat) : Nat → List GroupingKey → List YnodeId → Option (List YnodeId)
  | 0, _, sort => if sort.length < keys then none else some sort
  | fuel + 1, dict, sort =>
      if sort.length < keys then
        let passed := resolvePass dict sort
        fillSort keys fuel passed.1 passed.2
      else some sort

/-- Move one grouping: the first node with the id becomes the last child of the root. -/
def moveGrouping (tree : YnodeTree) (id : YnodeId) : Option YnodeTree :=
  (((List.range tree.nodes.length).drop 1).find? fun j =>
    tree.nodes[j]?.any fun node => node.id == id).elim (some tree)
      (ayYnodeMoveSubtreeAsLastChild tree 0)

/-- Move main list. -/
def moveMainList (tree : YnodeTree) : Option YnodeTree :=
  tree.nodes[0]?.bind fun root =>
    root.child.bind fun child =>
      tree.nodes[child]?.bind fun main =>
        if main.type = .ynList then
          (ayYnodeGetLast root.child tree.nodes).bind fun last =>
            tree.nodes[last]?.bind fun lastNode =>
              if lastNode.type ≠ .ynList then ayYnodeMoveSubtreeAsSibling tree last child
              else some tree
        else none

/-- `ay_ynode_groupings_ahead` -/
def ayYnodeGroupingsAhead (tree : YnodeTree) : Option YnodeTree :=
  let keys := (tree.nodes.drop 1).countP fun node => node.type = .ynGrouping
  let cnt := (tree.nodes.drop 1).countP fun node => node.type = .ynUses
  if keys = 0 then if cnt = 0 then some tree else none
  else
    (fillSort keys keys (fillDict tree.nodes) []).bind fun sort =>
      (sort.foldlM moveGrouping tree).bind moveMainList

end Code

section Order

variable {refers : YnodeId → YnodeId → Prop} {dict : List GroupingKey} {sort : List YnodeId}

/-- Ids of the keys that are not resolved. -/
def pending (dict : List GroupingKey) : List YnodeId :=
  dict.filterMap fun key => key.gr.map AyYnode.id

/-- The values of each key are what its grouping refers to. -/
def Keyed (refers : YnodeId → YnodeId → Prop) (dict : List GroupingKey) : Prop :=
  ∀ key ∈ dict, ∀ gr, key.gr = some gr →
    ∀ other, refers gr.id other ↔ ∃ us ∈ key.uses, us.ref = other

/-- What a pass over the keys does to them and to 'sort'. -/
structure Passed (refers : YnodeId → YnodeId → Prop) (dict : List GroupingKey)
    (sort : List YnodeId) (passed : List GroupingKey × List YnodeId) : Prop where
  keyed : Keyed refers passed.1
  backwards : Backwards refers passed.2
  kept : (passed.2 ++ pending passed.1).Perm (sort ++ pending dict)
  grows : sort <+: passed.2
  ready : ∀ id ∈ pending dict, (∀ other, refers id other → other ∈ sort) → id ∈ passed.2

theorem resolvePass_passed (keyed : Keyed refers dict) (backwards : Backwards refers sort) :
    Passed refers dict sort (resolvePass dict sort) := by
  induction dict generalizing sort with
  | nil =>
      constructor
      · exact keyed
      · exact backwards
      · exact List.Perm.refl _
      · exact List.prefix_refl _
      · intro id member
        simp [pending] at member
  | cons key rest inductionHypothesis =>
      have restKeyed : Keyed refers rest := fun other member => keyed other (.tail _ member)
      have keptKey : ∀ kept : GroupingKey, (∀ gr, kept.gr = some gr → kept = key) →
          Keyed refers (kept :: (resolvePass rest sort).1) := by
        intro kept same other member gr isGr
        rcases List.mem_cons.mp member with rfl | inRest
        · rw [same gr isGr]
          rw [same gr isGr] at isGr
          exact keyed key (.head _) gr isGr
        · exact (inductionHypothesis restKeyed backwards).keyed other inRest gr isGr
      cases resolved : key.gr with
      | none =>
          have passed := inductionHypothesis restKeyed backwards
          have noKey : ∀ keys, pending (key :: keys) = pending keys := by
            intro keys
            simp [pending, resolved]
          simp only [resolvePass, resolved]
          constructor
          · exact keptKey key fun _ _ => rfl
          · exact passed.backwards
          · simpa only [Prod.map, id_eq, noKey] using passed.kept
          · exact passed.grows
          · simpa only [Prod.map, id_eq, noKey] using passed.ready
      | some gr =>
          have withKey : pending (key :: rest) = gr.id :: pending rest := by
            simp [pending, resolved]
          have refersTo := keyed key (.head _) gr resolved
          simp only [resolvePass, resolved]
          split
          · rename_i allSorted
            have sorted : ∀ other, refers gr.id other → other ∈ sort := by
              intro other referred
              obtain ⟨us, inUses, rfl⟩ := (refersTo other).mp referred
              have found := List.all_eq_true.mp allSorted us inUses
              simpa using found
            have passed := inductionHypothesis restKeyed (backwards.concat sorted)
            have noKey : ∀ keys, pending (⟨none, key.uses⟩ :: keys) = pending keys := fun _ => rfl
            constructor
            · intro other member gr isGr
              rcases List.mem_cons.mp member with rfl | inRest
              · cases isGr
              · exact passed.keyed other inRest gr isGr
            · exact passed.backwards
            · rw [withKey, List.append_cons sort gr.id (pending rest)]
              simpa only [Prod.map, id_eq, noKey] using passed.kept
            · exact (List.prefix_append sort [gr.id]).trans passed.grows
            · intro id member ready
              rw [withKey] at member
              rcases List.mem_cons.mp member with rfl | inRest
              · exact passed.grows.subset (by simp)
              · exact passed.ready id inRest fun other referred =>
                  List.mem_append_left _ (ready other referred)
          · rename_i notSorted
            have passed := inductionHypothesis restKeyed backwards
            have stillKey : ∀ keys, pending (key :: keys) = gr.id :: pending keys := by
              intro keys
              simp [pending, resolved]
            constructor
            · exact keptKey key fun _ _ => rfl
            · exact passed.backwards
            · simp only [Prod.map, id_eq, stillKey]
              refine List.perm_middle.trans ((passed.kept.cons gr.id).trans ?_)
              exact List.perm_middle.symm
            · exact passed.grows
            · intro id member ready
              rw [withKey] at member
              rcases List.mem_cons.mp member with rfl | inRest
              · refine absurd (List.all_eq_true.mpr fun us inUses => ?_) notSorted
                have found := ready us.ref ((refersTo _).mpr ⟨us, inUses, rfl⟩)
                simpa using found
              · exact passed.ready id inRest ready

/-- Once there are as many ids as keys, all of them are sorted. -/
theorem perm_of_full (full : ¬ sort.length < (sort ++ pending dict).length) :
    sort.Perm (sort ++ pending dict) := by
  have none : pending dict = [] := by
    apply List.eq_nil_of_length_eq_zero
    rw [List.length_append] at full
    omega
  rw [none, List.append_nil]

/-- Every pass resolves a grouping, so that there are not more passes than keys. -/
theorem fillSort_sorts (acyclic : Acyclic refers) (keyed : Keyed refers dict)
    (backwards : Backwards refers sort) (distinct : (sort ++ pending dict).Nodup)
    (resolved : ∀ id other, refers id other → other ∈ sort ++ pending dict) {fuel : Nat}
    (enough : (sort ++ pending dict).length ≤ sort.length + fuel) :
    ∃ sorted, fillSort (sort ++ pending dict).length fuel dict sort = some sorted ∧
      Backwards refers sorted ∧ sorted.Perm (sort ++ pending dict) := by
  induction fuel generalizing dict sort with
  | zero =>
      have full : ¬ sort.length < (sort ++ pending dict).length := by omega
      rw [fillSort, if_neg full]
      exact ⟨sort, rfl, backwards, perm_of_full full⟩
  | succ fuel inductionHypothesis =>
      by_cases full : ¬ sort.length < (sort ++ pending dict).length
      · rw [fillSort, if_neg full]
        exact ⟨sort, rfl, backwards, perm_of_full full⟩
      · have left : pending dict ≠ [] := by
          intro none
          simp [none] at full
        obtain ⟨id, isPending, free⟩ := acyclic.exists_ready left
        have passed := resolvePass_passed keyed backwards
        have sortedNow := passed.ready id isPending fun other referred =>
          (List.mem_append.mp (resolved id other referred)).resolve_right fun member =>
            free other member referred
        have longer : sort.length < (resolvePass dict sort).2.length := by
          apply Nat.lt_of_le_of_ne passed.grows.length_le
          intro same
          rw [← passed.grows.eq_of_length same] at sortedNow
          exact (List.nodup_append.mp distinct).2.2 id sortedNow id isPending rfl
        have sameLength := passed.kept.length_eq
        obtain ⟨sorted, ran, inOrder, perm⟩ := inductionHypothesis passed.keyed passed.backwards
          (passed.kept.nodup_iff.mpr distinct)
          (fun id other referred => passed.kept.mem_iff.mpr (resolved id other referred))
          (by omega)
        rw [fillSort, if_pos (by omega)]
        refine ⟨sorted, ?_, inOrder, perm.trans passed.kept⟩
        rw [← ran, sameLength]

end Order

section Places

/-! ### Where nodes stand -/

def isGrouping (core : Core) : Bool := core.type = .ynGrouping

/-- The nodes of a sequence that are no groupings. -/
def plainRoots (forest : Forest Core) : List Core :=
  forest.roots.filter fun core => !isGrouping core

/-- The uses that are not in inner groupings. -/
def directUses : Forest Core → List Core
  | .nil => []
  | .cons label kids rest =>
      if label.type = .ynUses then label :: (directUses kids ++ directUses rest)
      else if label.type = .ynGrouping then directUses rest
      else directUses kids ++ directUses rest

/-- A node with what it keeps when groupings are moved. -/
structure Place where
  node : Core
  /-- The children that are no groupings. -/
  kids : List Core
  /-- The uses below, outside of groupings in there. -/
  uses : List Core
  deriving DecidableEq

def places : Forest Core → List Place
  | .nil => []
  | .cons label kids rest =>
      ⟨label, plainRoots kids, directUses kids⟩ :: (places kids ++ places rest)

/-- One grouping directly contains a uses of the other. -/
def Refers (nodes : List AyYnode) (forest : Forest Core) (id other : YnodeId) : Prop :=
  ∃ place ∈ places forest, isGrouping place.node = true ∧ place.node.id = id ∧
    ∃ us ∈ nodes, us.core ∈ place.uses ∧ us.ref = other

theorem places_append (forest other : Forest Core) :
    places (forest.append other) = places forest ++ places other := by
  induction forest with
  | nil => rfl
  | cons label kids rest _ inductionHypothesis =>
      rw [Forest.append, places, places, inductionHypothesis]
      simp

theorem plainRoots_append (forest other : Forest Core) :
    plainRoots (forest.append other) = plainRoots forest ++ plainRoots other := by
  rw [plainRoots, Forest.roots_append, List.filter_append]
  rfl

theorem map_node_places (forest : Forest Core) :
    (places forest).map Place.node = forest.labels := by
  induction forest with
  | nil => rfl
  | cons label kids rest ofKids ofRest => simp [places, ofKids, ofRest]

theorem mem_places_fill (hole : Forest.Hole Core) {filling : Forest Core} {place : Place}
    (member : place ∈ places filling) : place ∈ places (hole.fill filling) := by
  induction hole generalizing filling with
  | top => exact member
  | behind label kids outer inductionHypothesis =>
      apply inductionHypothesis
      simp [places, member]
  | under label rest outer inductionHypothesis =>
      apply inductionHypothesis
      simp [places, member]

theorem type_of_mem_directUses {forest : Forest Core} {core : Core}
    (member : core ∈ directUses forest) : core.type = .ynUses := by
  induction forest with
  | nil => cases member
  | cons label kids rest ofKids ofRest =>
      rw [directUses] at member
      split at member
      · rename_i isUses
        rcases List.mem_cons.mp member with rfl | below
        · exact isUses
        · exact (List.mem_append.mp below).elim ofKids ofRest
      · split at member
        · exact ofRest member
        · exact (List.mem_append.mp member).elim ofKids ofRest

theorem type_of_mem_uses {forest : Forest Core} {place : Place} (isPlace : place ∈ places forest)
    {core : Core} (member : core ∈ place.uses) : core.type = .ynUses := by
  induction forest with
  | nil => cases isPlace
  | cons label kids rest ofKids ofRest =>
      rw [places] at isPlace
      rcases List.mem_cons.mp isPlace with rfl | below
      · exact type_of_mem_directUses member
      · exact (List.mem_append.mp below).elim ofKids ofRest

/-- A part of a forest from which trees have been taken that are not seen from above. -/
structure Takes (filling left : Forest Core) (taken : List Place) : Prop where
  roots : plainRoots filling = plainRoots left
  uses : directUses filling = directUses left
  places : (places filling).Perm (places left ++ taken)

theorem Takes.fill {filling left : Forest Core} {taken : List Place}
    (takes : Takes filling left taken) (hole : Forest.Hole Core) :
    Takes (hole.fill filling) (hole.fill left) taken := by
  induction hole generalizing filling left with
  | top => exact takes
  | behind label kids outer inductionHypothesis =>
      apply inductionHypothesis
      constructor
      · simpa only [plainRoots, Forest.roots, List.filter_cons] using
          congrArg (fun roots => if !isGrouping label then label :: roots else roots) takes.roots
      · rw [directUses, directUses, takes.uses]
      · rw [Ynode.places, Ynode.places, List.cons_append, List.append_assoc]
        exact (takes.places.append_left _).cons _
  | under label rest outer inductionHypothesis =>
      apply inductionHypothesis
      constructor
      · rfl
      · rw [directUses, directUses, takes.uses]
      · rw [Ynode.places, Ynode.places, takes.roots, takes.uses, List.cons_append,
          List.append_assoc]
        refine ((takes.places.append_right _).trans ?_).cons _
        rw [List.append_assoc]
        exact List.perm_append_comm.append_left _

/-- A grouping can be taken out. -/
theorem takes_grouping {label : Core} (grouping : isGrouping label = true)
    (kids rest : Forest Core) :
    Takes (.cons label kids rest) rest (places (.cons label kids .nil)) := by
  have isType : label.type = .ynGrouping := by simpa [isGrouping] using grouping
  constructor
  · simp [plainRoots, Forest.roots, grouping]
  · simp [directUses, isType]
  · rw [places, places, places, List.append_nil, ← List.cons_append]
    exact List.perm_append_comm

end Places

section Scan

variable {nodes : List AyYnode}

/-- The nodes of a hole's filling. -/
theorem exists_filling_nodes {hole : Forest.Hole Core} {filling : Forest Core}
    (encoded : cells nodes = (hole.fill filling).flat) :
    ∃ front block back, nodes = front ++ (block ++ back) ∧ front.length = hole.index ∧
      cells block = filling.flat := by
  rw [Forest.Hole.flat_fill] at encoded
  obtain ⟨front, rest, rfl, frontCells, restCells⟩ := List.map_eq_append_iff.mp encoded
  obtain ⟨block, back, rfl, blockCells, -⟩ := List.map_eq_append_iff.mp restCells
  refine ⟨front, block, back, rfl, ?_, blockCells⟩
  rw [← Forest.Hole.length_front hole filling.size, ← frontCells, List.length_map]

theorem mem_of_mem_usesWithin {index left : Nat} {us : AyYnode}
    (member : us ∈ usesWithin nodes index left) : us ∈ nodes.drop index := by
  have passed : ∀ {index later}, index ≤ later → us ∈ nodes.drop later → us ∈ nodes.drop index :=
    fun ahead isLater => List.drop_subset_drop_left nodes ahead isLater
  fun_induction usesWithin nodes index left with
  | case1 => cases member
  | case2 index left iter found _ inductionHypothesis =>
      rcases List.mem_cons.mp member with rfl | later
      · apply List.mem_of_getElem? (i := 0)
        simpa using found
      · exact passed (Nat.le_succ _) (inductionHypothesis later)
  | case3 index left iter _ _ _ inductionHypothesis =>
      exact passed (by omega) (inductionHypothesis member)
  | case4 index left iter _ _ _ inductionHypothesis =>
      exact passed (by omega) (inductionHypothesis member)
  | case5 => cases member

/-- The loop over the nodes of a forest finds its uses. -/
theorem map_core_usesWithin (filling : Forest Core) {front block back : List AyYnode}
    (encoded : cells block = filling.flat) (more : Nat) :
    (usesWithin (front ++ (block ++ back)) front.length (filling.size + more)).map AyYnode.core =
      directUses filling ++
        (usesWithin (front ++ (block ++ back)) (front.length + filling.size) more).map
          AyYnode.core := by
  induction filling generalizing front block back more with
  | nil => simp [Forest.size, directUses]
  | cons label kids rest ofKids ofRest =>
      obtain ⟨node, kidNodes, restNodes, rfl, nodeCell, kidCells, restCells⟩ :=
        exists_split_of_cells encoded
      have core : node.core = label := congrArg Prod.fst nodeCell
      have type : node.type = label.type := congrArg Core.type core
      have count : node.descendants = kids.size := congrArg Prod.snd nodeCell
      have found : (front ++ (node :: (kidNodes ++ restNodes) ++ back))[front.length]? =
          some node := by simp
      have within := @ofKids (front ++ [node]) kidNodes (restNodes ++ back) kidCells
        (rest.size + more)
      have behind := @ofRest (front ++ node :: kidNodes) restNodes back restCells more
      have afterKids : front.length + 1 + kids.size = front.length + kids.size + 1 := by omega
      simp only [List.length_append, List.length_cons, List.length_nil, length_of_cells kidCells,
        List.append_assoc, List.cons_append, List.nil_append, Nat.zero_add, ← Nat.add_assoc,
        afterKids] at within behind found ⊢
      have sizes : (Forest.cons label kids rest).size + more =
          kids.size + rest.size + more + 1 := by
        rw [Forest.size]
        omega
      have ends : front.length + (Forest.cons label kids rest).size =
          front.length + kids.size + 1 + rest.size := by
        rw [Forest.size]
        omega
      have skipped : kids.size + rest.size + more - kids.size = rest.size + more := by omega
      rw [sizes, ends, usesWithin, found, directUses]
      simp only [type, count, skipped]
      split
      · rw [List.map_cons, core, within, behind]
        simp
      · split
        · rw [behind]
        · rw [within, behind]
          simp

theorem mem_indices {length index : Nat} :
    index ∈ (List.range length).drop 1 ↔ 0 < index ∧ index < length := by
  cases length with
  | zero => simp
  | succ length =>
      rw [List.range_eq_range', List.range'_succ, List.drop_one, List.tail_cons,
        List.mem_range'_1]
      omega

/-- Looking up the indices of a list goes through the list. -/
theorem filterMap_range' {Alpha Beta : Type} (pick : Alpha → Option Beta)
    (front list : List Alpha) :
    (List.range' front.length list.length).filterMap (fun i => (front ++ list)[i]?.bind pick) =
      list.filterMap pick := by
  induction list generalizing front with
  | nil => rfl
  | cons head rest inductionHypothesis =>
      have later := inductionHypothesis (front ++ [head])
      simp only [List.length_append, List.length_cons, List.length_nil, List.append_assoc,
        List.cons_append, List.nil_append] at later
      rw [List.length_cons, List.range'_succ, List.filterMap_cons, List.filterMap_cons, later]
      simp

/-- Ids of the groupings below the root. -/
def groupingIds (nodes : List AyYnode) : List YnodeId :=
  nodes.filterMap fun node => if node.type = .ynGrouping then some node.id else none

theorem mem_groupingIds {id : YnodeId} :
    id ∈ groupingIds nodes ↔ ∃ gr ∈ nodes, gr.type = .ynGrouping ∧ gr.id = id := by
  simp [groupingIds, List.mem_filterMap]

theorem groupingIds_sublist (nodes : List AyYnode) : (groupingIds nodes).Sublist (ids nodes) := by
  induction nodes with
  | nil => exact List.Sublist.slnil
  | cons node rest inductionHypothesis =>
      rw [groupingIds, List.filterMap_cons, ids, List.map_cons]
      split
      · exact inductionHypothesis.cons _
      · rename_i id isId
        split at isId
        · cases isId
          exact inductionHypothesis.cons_cons _
        · cases isId

theorem length_groupingIds (nodes : List AyYnode) :
    (groupingIds nodes).length = nodes.countP fun node => node.type = .ynGrouping := by
  induction nodes with
  | nil => rfl
  | cons node rest inductionHypothesis =>
      rw [groupingIds, List.filterMap_cons, List.countP_cons, ← inductionHypothesis]
      by_cases grouping : node.type = .ynGrouping <;> simp [grouping, groupingIds]

theorem pending_fillDict (root : AyYnode) (nodes : List AyYnode) :
    pending (fillDict (root :: nodes)) = groupingIds nodes := by
  have picked := filterMap_range' (fun node : AyYnode =>
    if node.type = .ynGrouping then some node.id else none) [root] nodes
  rw [groupingIds, ← picked, pending, fillDict, List.filterMap_filterMap, List.length_cons,
    List.range_eq_range', List.range'_succ, List.drop_one, List.tail_cons]
  apply List.filterMap_congr
  intro i _
  rw [groupingKey, List.cons_append, List.nil_append]
  cases (root :: nodes)[i]? with
  | none => rfl
  | some node => by_cases grouping : node.type = .ynGrouping <;> simp [grouping]

theorem ids_of_cells {forest : Forest Core} (encoded : cells nodes = forest.flat) :
    ids nodes = forest.labels.map Core.id := by
  rw [Forest.labels, ← encoded, cells, List.map_map, List.map_map]
  rfl

theorem eq_of_place_id {forest : Forest Core} (encoded : cells nodes = forest.flat)
    (distinct : (ids nodes).Nodup) {place other : Place} (isPlace : place ∈ places forest)
    (isOther : other ∈ places forest) (same : place.node.id = other.node.id) : place = other := by
  rw [ids_of_cells encoded, ← map_node_places, List.map_map] at distinct
  exact List.inj_on_of_nodup_map distinct isPlace isOther same

/-- The dictionary holds what the groupings refer to. -/
theorem keyed_fillDict {root : AyYnode} {kids : Forest Core} (encoded : cells nodes = kids.flat)
    (distinct : (ids nodes).Nodup) : Keyed (Refers nodes kids) (fillDict (root :: nodes)) := by
  intro key member gr isGr other
  obtain ⟨i, inRange, isKey⟩ := List.mem_filterMap.mp member
  rw [groupingKey, Option.bind_eq_some_iff] at isKey
  obtain ⟨node, found, isKey⟩ := isKey
  split at isKey
  case isFalse => cases isKey
  rename_i grouping
  cases isKey
  cases isGr
  obtain ⟨positive, below⟩ := mem_indices.mp inRange
  obtain ⟨position, rfl⟩ : ∃ position, i = position + 1 := ⟨i - 1, by omega⟩
  have bound : position < nodes.length := by
    rw [List.length_cons] at below
    omega
  obtain ⟨hole, label, grKids, rest, rfl, rfl⟩ :=
    Forest.Hole.exists_of_lt_size (length_of_cells encoded ▸ bound)
  obtain ⟨front, block, back, rfl, frontLength, blockCells⟩ := exists_filling_nodes encoded
  obtain ⟨node, kidNodes, restNodes, rfl, nodeCell, kidCells, -⟩ :=
    exists_split_of_cells blockCells
  have regrouped : front ++ (node :: (kidNodes ++ restNodes) ++ back) =
      front ++ node :: (kidNodes ++ (restNodes ++ back)) := by simp
  rw [regrouped] at encoded distinct found ⊢
  rw [← frontLength] at found ⊢
  obtain rfl : node = gr := by simpa using found
  have core : node.core = label := congrArg Prod.fst nodeCell
  have count : node.descendants = grKids.size := congrArg Prod.snd nodeCell
  -- the values of the key are the uses of the place
  have scanned := @map_core_usesWithin grKids (root :: (front ++ [node])) kidNodes
    (restNodes ++ back) kidCells 0
  simp only [List.length_append, List.length_cons, List.length_nil, List.append_assoc,
    List.cons_append, List.nil_append, Nat.zero_add, Nat.add_zero, usesWithin, List.map_nil,
    List.append_nil] at scanned
  rw [count]
  have atPlace : ⟨label, plainRoots grKids, directUses grKids⟩ ∈
      places (hole.fill (.cons label grKids rest)) := by
    apply mem_places_fill
    rw [places]
    exact .head _
  have below : ∀ us ∈ usesWithin (root :: (front ++ node :: (kidNodes ++ (restNodes ++ back))))
      (front.length + 1 + 1) grKids.size,
      us ∈ front ++ node :: (kidNodes ++ (restNodes ++ back)) := by
    intro us isUse
    have later := mem_of_mem_usesWithin isUse
    rw [List.drop_succ_cons] at later
    exact List.mem_of_mem_drop later
  constructor
  · rintro ⟨place, inPlaces, -, sameId, us, isNode, isUse, rfl⟩
    have here : place = ⟨label, plainRoots grKids, directUses grKids⟩ := by
      refine eq_of_place_id encoded distinct inPlaces atPlace ?_
      rw [sameId, ← core]
      rfl
    rw [here, ← scanned] at isUse
    obtain ⟨found, isFound, sameCore⟩ := List.mem_map.mp isUse
    refine ⟨found, isFound, congrArg AyYnode.ref ?_⟩
    exact List.inj_on_of_nodup_map distinct (below found isFound) isNode
      (congrArg Core.id sameCore)
  · rintro ⟨us, isUse, rfl⟩
    refine ⟨_, atPlace, ?_, ?_, us, ?_, ?_, rfl⟩
    · rw [← core]
      exact decide_eq_true grouping
    · rw [← core]
      rfl
    · exact below us isUse
    · rw [← scanned]
      exact List.mem_map_of_mem isUse

end Scan

end SysrepoAugeas.Ynode
