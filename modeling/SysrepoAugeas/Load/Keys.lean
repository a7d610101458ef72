import SysrepoAugeas.Load.Instances

/-!
# Keys in a whole load

What each of the load functions does to the instances of one implicit list,
and from it what is there at the end of a load.
-/

namespace SysrepoAugeas.Load

open SysrepoAugeas.Data
open SysrepoAugeas.Label (Text)

/-- The effect of a step together with the labels that are left. -/
def Affects (list : Nat) (shared : Bool) (order : List Nat) (frames : List Frame) (here : Prop)
    (labels : Matches) (state : LoadState) (after : Matches) (final : LoadState) : Prop :=
  Effect list shared order frames here state final ∧ (allIds after).Sublist (allIds labels)

/-- A call at a place of the module has the effect that its augnodes allow. -/
def CallAffects (top : Forest Augnode) (list : Nat) (shared : Bool) (order : List Nat)
    (again : LabelsR) : Prop :=
  ∀ frames augnodes labels state after final,
    again frames augnodes labels state = some (after, final) → Path top frames augnodes →
    OldFrames frames state → Tidy state → (allIds labels).Sublist order →
    Affects list shared order frames (list ∈ rootIds augnodes) labels state after final

/-- The same for the children of an augnode. -/
def ChildAffects (top : Forest Augnode) (list : Nat) (shared : Bool) (order : List Nat)
    (children : Forest Augnode)
    (childLabels : List Frame → Matches → LoadState → Option (Matches × LoadState)) : Prop :=
  ∀ frames labels state after final,
    childLabels frames labels state = some (after, final) → Path top frames children →
    OldFrames frames state → Tidy state → (allIds labels).Sublist order →
    Affects list shared order frames (list ∈ rootIds children) labels state after final

section Compose

variable {list : Nat} {shared : Bool} {order : List Nat} {frames : List Frame} {here there : Prop}
  {labels after last others othersAfter : Matches} {state middle final : LoadState}

theorem Effect.mono (effect : Effect list shared order frames here state final)
    (imp : here → there) : Effect list shared order frames there state final where
  tidy := effect.tidy
  fresh := effect.fresh
  nodes := effect.nodes
  frame := fun parent old notOpen notThere =>
    effect.frame parent old notOpen fun both => notThere ⟨imp both.1, both.2⟩
  sound := fun sound empty counted => effect.sound sound (fun isHere => empty (imp isHere)) counted
  idle := effect.idle

theorem Effect.seq (old : OldFrames frames state)
    (first : Effect list shared order frames False state middle)
    (second : Effect list shared order frames False middle final) :
    Effect list shared order frames False state final :=
  (first.trans old second (fun both => both.1) False.elim).mono fun either => either.elim id id

theorem Affects.refl (tidy : Tidy state) (labels : Matches) :
    Affects list shared order frames here labels state labels state :=
  ⟨.refl tidy here, List.Sublist.refl _⟩

theorem Affects.append (old : OldFrames frames state)
    (first : Affects list shared order frames False labels state after middle)
    (second : Affects list shared order frames False others middle othersAfter final) :
    Affects list shared order frames False (labels ++ others) state (after ++ othersAfter) final := by
  refine ⟨first.1.seq old second.1, ?_⟩
  rw [allIds_append, allIds_append]
  exact first.2.append second.2

theorem sublist_head {entry : Option (Label × Forest Label)}
    (sublist : (allIds (entry :: labels)).Sublist order) : (allIds [entry]).Sublist order := by
  rw [← List.singleton_append, allIds_append] at sublist
  exact (List.sublist_append_left _ _).trans sublist

theorem sublist_tail {entry : Option (Label × Forest Label)}
    (sublist : (allIds (entry :: labels)).Sublist order) : (allIds labels).Sublist order := by
  rw [← List.singleton_append, allIds_append] at sublist
  exact (List.sublist_append_right _ _).trans sublist

theorem free_addNode {parent : Option Nat} {schema : Nat} {value : Option Value} {origin : Origin}
    (tidy : Tidy state) :
    ((state.addNode parent schema value origin).free state.fresh).nodes = state.nodes := by
  have old : state.nodes.filter (fun other => other.id != state.fresh) = state.nodes := by
    rw [List.filter_eq_self]
    intro node member
    simpa using Nat.ne_of_lt (tidy node member).1
  rw [LoadState.free, LoadState.addNode, List.filter_append, old]
  simp

/-- A speculative instance without children leaves nothing behind. -/
theorem childless {parent : Option Nat} {schema : Nat} {value : Option Value} {origin : Origin}
    {frame : Frame} (tidy : Tidy state) (isNew : frame.node = state.fresh)
    (child : Effect list shared order (frame :: frames) here
      (state.addNode parent schema value origin) final)
    (noChild : ¬final.hasChild state.fresh) :
    final.nodes = (state.addNode parent schema value origin).nodes ∧
      (final.free state.fresh).nodes = state.nodes := by
  obtain ⟨new, nodes, hasChild⟩ := child.nodes
  have nothing : new = [] := by
    by_contra nonempty
    obtain ⟨node, member, isChild⟩ := hasChild nonempty
    apply noChild
    refine List.any_eq_true.mpr ⟨node, ?_, ?_⟩
    · rw [nodes]
      exact List.mem_append_right _ member
    · rw [isChild, parentOf, List.head?_cons, Option.map_some, isNew]
      exact beq_self_eq_true _
  rw [nothing, List.append_nil] at nodes
  refine ⟨nodes, ?_⟩
  rw [LoadState.free, nodes]
  exact free_addNode tidy

/-- A state whose nodes are those from before. -/
theorem Effect.unchanged (tidy : Tidy state) (nodes : final.nodes = state.nodes)
    (fresh : state.fresh ≤ final.fresh)
    (index : (openAt shared list frames).isSome → final.nextIdx list = state.nextIdx list) :
    Effect list shared order frames False state final where
  tidy := by
    intro node member
    rw [nodes] at member
    obtain ⟨id, parents⟩ := tidy node member
    exact ⟨id.trans_le fresh, fun parent isParent => (parents parent isParent).trans_le fresh⟩
  fresh := fresh
  nodes := ⟨[], by rw [nodes, List.append_nil], fun nonempty => absurd rfl nonempty⟩
  frame := fun _ _ _ _ => by rw [nodes]
  sound := by
    intro sound _ counted
    rw [nodes]
    refine ⟨sound, fun parent isOpen => ?_⟩
    unfold Counted
    rw [nodes, index (Option.isSome_of_mem isOpen)]
    exact counted parent isOpen
  idle := fun _ isOpen => index isOpen

theorem neutral_setNextIdx {other index : Nat} {parent : Option Nat} (tidy : Tidy state)
    (differs : other ≠ list) : Neutral list parent state (state.setNextIdx other index) :=
  ⟨tidy, Nat.le_refl _, ⟨[], (List.append_nil _).symm,
    fun _ member => absurd member List.not_mem_nil, fun nonempty => absurd rfl nonempty⟩,
    if_neg (Ne.symm differs)⟩

theorem OldFrames.cons {frame : Frame} (old : OldFrames frames state)
    (isOld : frame.node < state.fresh) : OldFrames (frame :: frames) state :=
  List.forall_mem_cons.mpr ⟨isOld, old⟩

end Compose

section Foreign

/-! Augnodes that are not the list. -/

variable {libyang : Libyang} {again : LabelsR} {top children rest : Forest Augnode} {list : Nat}
  {shared : Bool} {order : List Nat} {augnode : Augnode} {frames : List Frame}
  {state final : LoadState} {labels after : Matches}
  {childLabels : List Frame → Matches → LoadState → Option (Matches × LoadState)}

theorem visitChildren_affects (calls : CallAffects top list shared order again)
    {below : Forest Label} {node : Option Nat} {middle : LoadState}
    (path : Path top frames (.cons augnode children rest)) (old : OldFrames frames state)
    (tidy : Tidy state) (differs : augnode.schema.id ≠ list)
    (neutral : Neutral list (parentOf frames) state middle)
    (isNew : ∀ id ∈ node, id = state.fresh ∧ id < middle.fresh ∧ middle.nodes ≠ state.nodes)
    (ordered : (below.labels.map Label.id).Sublist order)
    (visited : visitChildren again augnode children frames node below middle = some final) :
    Effect list shared order frames False state final := by
  unfold visitChildren at visited
  cases children with
  | nil =>
      obtain rfl := Option.some.inj visited
      exact neutral.effect False
  | cons child grandchildren others =>
      cases node with
      | none => cases visited
      | some node =>
          obtain ⟨rfl, below, created⟩ := isNew node rfl
          obtain ⟨⟨left, called⟩, isCalled, same⟩ := Option.bind_eq_some_iff.mp visited
          obtain rfl := Option.some.inj same
          have ofChildren := calls _ _ _ _ _ _ isCalled (path.down _)
            ((old.mono neutral.fresh).cons below) neutral.tidy
            ((allIds_augMatch _).trans ordered)
          exact (Effect.below tidy neutral created (Nat.le_refl _) (fun _ => differs)
            ofChildren.1).of_same rfl rfl rfl

theorem valueR_affects (calls : CallAffects top list shared order again) {path : Text}
    (place : Path top frames (.cons augnode children rest)) (differs : augnode.schema.id ≠ list)
    (old : OldFrames frames state) (tidy : Tidy state) (ordered : (allIds labels).Sublist order)
    (loaded : augdsAug2yangAugnodeLabelsValueR libyang again augnode path children frames labels
      state = some (after, final)) :
    Affects list shared order frames False labels state after final := by
  induction labels generalizing state after with
  | nil =>
      obtain ⟨rfl, rfl⟩ := Prod.mk.inj (Option.some.inj loaded)
      exact .refl tidy _
  | cons entry labels inductionHypothesis =>
      cases entry with
      | none =>
          obtain ⟨⟨restAfter, middle⟩, ofRest, same⟩ := Option.bind_eq_some_iff.mp loaded
          obtain ⟨rfl, rfl⟩ := Prod.mk.inj (Option.some.inj same)
          exact Affects.append old (.refl tidy [none])
            (inductionHypothesis old tidy (sublist_tail ordered) ofRest)
      | some tree =>
          obtain ⟨label, below⟩ := tree
          rw [augdsAug2yangAugnodeLabelsValueR] at loaded
          split at loaded
          · obtain ⟨rfl, rfl⟩ := Prod.mk.inj (Option.some.inj loaded)
            exact .refl tidy _
          · cases primary : primaryValue augnode path label with
            | none =>
                rw [primary] at loaded
                obtain ⟨rfl, rfl⟩ := Prod.mk.inj (Option.some.inj loaded)
                exact .refl tidy _
            | some value =>
                rw [primary] at loaded
                obtain ⟨⟨node, middle⟩, created, loaded⟩ := Option.bind_eq_some_iff.mp loaded
                obtain ⟨second, createdSecond, loaded⟩ := Option.bind_eq_some_iff.mp loaded
                obtain ⟨visitedState, visited, loaded⟩ := Option.bind_eq_some_iff.mp loaded
                obtain ⟨neutral, isNew⟩ := neutral_label tidy old created createdSecond
                have orderedBelow : (below.labels.map Label.id).Sublist order := by
                  have whole := sublist_head ordered
                  simp only [allIds, treeIds, List.filterMap_cons, id_eq, List.filterMap_nil,
                    List.flatMap_cons, List.flatMap_nil, List.append_nil] at whole
                  exact (List.sublist_cons_self _ _).trans whole
                have used : Affects list shared order frames False [some (label, below)] state
                    [none] visitedState :=
                  ⟨visitChildren_affects calls place old tidy differs neutral isNew orderedBelow
                    visited, List.nil_sublist _⟩
                split at loaded
                · obtain ⟨rfl, rfl⟩ := Prod.mk.inj (Option.some.inj loaded)
                  exact used.append old (.refl used.1.tidy labels)
                · obtain ⟨⟨restAfter, last⟩, ofRest, same⟩ := Option.bind_eq_some_iff.mp loaded
                  obtain ⟨rfl, rfl⟩ := Prod.mk.inj (Option.some.inj same)
                  exact used.append old (inductionHypothesis (old.mono used.1.fresh) used.1.tidy
                    (sublist_tail ordered) ofRest)

/-- A node of another augnode with its children below it. -/
theorem inner_affects {value : Option Value} {origin : Origin} {node : Option Nat} {id : Nat}
    {middle : LoadState} {here : Prop}
    (childEffect : ∀ frames state after final,
      childLabels frames labels state = some (after, final) → Path top frames children →
      OldFrames frames state → Tidy state →
      Affects list shared order frames here labels state after final)
    (place : Path top frames (.cons augnode children rest)) (differs : augnode.schema.id ≠ list)
    (old : OldFrames frames state) (tidy : Tidy state)
    (foreign : ForeignOrigin list augnode.schema.id origin)
    (created : augdsAug2yangAugnodeCreateNode libyang augnode.schema value (parentOf frames) origin
      state = some (node, middle)) (isNode : node = some id)
    (loaded : childLabels (⟨augnode, children, id⟩ :: frames) labels middle = some (after, final)) :
    Affects list shared order frames False labels state after final := by
  obtain ⟨neutral, isNew⟩ := neutral_createNode tidy old.parentOf foreign created
  obtain ⟨rfl, below, differsNodes⟩ := isNew id isNode
  have ofChildren := childEffect _ _ _ _ loaded (place.down _)
    ((old.mono neutral.fresh).cons below) neutral.tidy
  exact ⟨Effect.below tidy neutral differsNodes (Nat.le_refl _) (fun _ => differs) ofChildren.1,
    ofChildren.2⟩

theorem listLoop_foreign (child : ChildAffects top list shared order children childLabels)
    (place : Path top frames (.cons augnode children rest)) (differs : augnode.schema.id ≠ list)
    (isList : augnode.schema.nodetype = .list) {index : Option Nat} (old : OldFrames frames state)
    (tidy : Tidy state) (ordered : (allIds labels).Sublist order)
    (loaded : listLoop libyang augnode children frames childLabels index labels state =
      some (after, final)) :
    Affects list shared order frames False labels state after final := by
  induction labels generalizing index state after with
  | nil =>
      obtain ⟨rfl, rfl⟩ := Prod.mk.inj (Option.some.inj loaded)
      exact .refl tidy _
  | cons entry labels inductionHypothesis =>
      cases entry with
      | none =>
          obtain ⟨⟨restAfter, middle⟩, ofRest, same⟩ := Option.bind_eq_some_iff.mp loaded
          obtain ⟨rfl, rfl⟩ := Prod.mk.inj (Option.some.inj same)
          exact Affects.append old (.refl tidy [none])
            (inductionHypothesis old tidy (sublist_tail ordered) ofRest)
      | some tree =>
          obtain ⟨label, below⟩ := tree
          obtain ⟨started, slice, middle, restAfter, counted, ofChild, rfl, ofRest⟩ :=
            listLoop_round isList loaded
          have starts : Neutral list (parentOf frames) state started := by
            rw [counted]
            split
            · exact neutral_setNextIdx tidy differs
            · exact .refl tidy
          have sameNodes : started.nodes = state.nodes := by
            rw [counted]
            split <;> rfl
          have creates := @Neutral.add _ _ _ _ _ _
            (some (.index (index.getD (state.nextIdx augnode.schema.id)))) _ starts
            (old.parentOf.mono starts.fresh) (foreign_instance differs label.id) (Or.inr rfl)
          have ofSlice := child _ _ _ _ _ ofChild (place.down _)
            ((old.mono creates.fresh).cons (Nat.lt_succ_self _)) creates.tidy (sublist_head ordered)
          rcases ofRest with ⟨-, ofRest⟩ | ⟨noChild, ofRest⟩
          · have kept : Affects list shared order frames False [some (label, below)] state slice
                middle :=
              ⟨Effect.below tidy creates (fun same => addNode_ne started (same.trans sameNodes.symm))
                starts.fresh (fun _ => differs) ofSlice.1, ofSlice.2⟩
            exact kept.append old (inductionHypothesis (old.mono kept.1.fresh) kept.1.tidy
              (sublist_tail ordered) ofRest)
          · obtain ⟨middleNodes, freedNodes⟩ := childless starts.tidy rfl ofSlice.1 noChild
            generalize isFreed : (if index.isNone then
              (middle.free started.fresh).setNextIdx augnode.schema.id
                ((middle.free started.fresh).nextIdx augnode.schema.id - 1)
              else middle.free started.fresh) = freed at ofRest
            have effect : Effect list shared order frames False state freed := by
              apply Effect.unchanged tidy
              · rw [← isFreed, ← sameNodes, ← freedNodes]
                split <;> rfl
              · have fresh := creates.fresh.trans ofSlice.1.fresh
                rw [← isFreed]
                split <;> exact fresh
              · intro isOpen
                have sameOpen : openAt shared list (⟨augnode, children, started.fresh⟩ :: frames) =
                    openAt shared list frames := openAt_cons fun _ => differs
                rw [← sameOpen] at isOpen
                have index : freed.nextIdx list = middle.nextIdx list := by
                  rw [← isFreed]
                  split
                  · exact if_neg (Ne.symm differs)
                  · rfl
                rw [index, ofSlice.1.idle middleNodes isOpen]
                exact starts.index
            have dropped : Affects list shared order frames False [some (label, below)] state slice
                freed := ⟨effect, ofSlice.2⟩
            exact dropped.append old (inductionHypothesis (old.mono effect.fresh) effect.tidy
              (sublist_tail ordered) ofRest)

end Foreign

section Own

/-! The loop over the labels of the list itself. -/

/-- What holds between the rounds of the loop: the next key is behind the instances, and with a
local index the labels of the instances are before the labels that are left. -/
structure Filling (list : Nat) (order : List Nat) (parent : Option Nat) (index : Option Nat)
    (labels : Matches) (state : LoadState) : Prop where
  sound : Sound list index.isNone order state.nodes
  next : (instances list parent state.nodes).length + 1 = index.getD (state.nextIdx list)
  before : index.isNone = false →
    ((instances list parent state.nodes).filterMap DataNode.instanceLabel ++
      allIds labels).Sublist order

/-- What the rounds of the loop do. -/
structure Fills (list : Nat) (shared : Bool) (order : List Nat) (parent : Option Nat) (ready : Prop)
    (state final : LoadState) : Prop where
  tidy : Tidy final
  fresh : state.fresh ≤ final.fresh
  nodes : ∃ new, final.nodes = state.nodes ++ new ∧
    (new ≠ [] → ∃ node ∈ new, node.parent = parent)
  frame : ∀ other, Old state other → other ≠ parent →
    instances list other final.nodes = instances list other state.nodes
  sound : ready → Sound list shared order final.nodes

variable {libyang : Libyang} {top children rest : Forest Augnode} {list : Nat}
  {shared : Bool} {order : List Nat} {own : Augnode} {frames : List Frame}
  {state started middle final : LoadState} {labels after : Matches} {index : Option Nat}
  {parent : Option Nat} {ready there : Prop} {label : Label} {below : Forest Label}
  {childLabels : List Frame → Matches → LoadState → Option (Matches × LoadState)}

theorem Fills.trans (first : Fills list shared order parent there state middle)
    (second : Fills list shared order parent ready middle final) (imp : there → ready) :
    Fills list shared order parent there state final where
  tidy := second.tidy
  fresh := first.fresh.trans second.fresh
  nodes := by
    obtain ⟨new, newNodes, child⟩ := first.nodes
    obtain ⟨more, moreNodes, moreChild⟩ := second.nodes
    refine ⟨new ++ more, by rw [moreNodes, newNodes, List.append_assoc], fun nonempty => ?_⟩
    by_cases nothing : new = []
    · rw [nothing, List.nil_append] at nonempty
      obtain ⟨node, member, isChild⟩ := moreChild nonempty
      exact ⟨node, List.mem_append_right _ member, isChild⟩
    · obtain ⟨node, member, isChild⟩ := child nothing
      exact ⟨node, List.mem_append_left _ member, isChild⟩
  frame := fun other old differs => by
    rw [second.frame other (old.mono first.fresh) differs, first.frame other old differs]
  sound := fun isReady => second.sound (imp isReady)

/-- The loop starts without instances. -/
theorem Fills.effect (closed : openAt shared list frames = none)
    (start : Sound list shared order state.nodes →
      instances list (parentOf frames) state.nodes = [] → ready)
    (fills : Fills list shared order (parentOf frames) ready state final) :
    Effect list shared order frames True state final where
  tidy := fills.tidy
  fresh := fills.fresh
  nodes := fills.nodes
  frame := fun other old _ notHere => fills.frame other old fun same => notHere ⟨trivial, same⟩
  sound := by
    intro sound empty _
    refine ⟨fills.sound (start sound (empty trivial)), fun parent isOpen => ?_⟩
    rw [closed] at isOpen
    cases isOpen
  idle := by
    intro _ isOpen
    rw [closed] at isOpen
    cases isOpen

theorem openAt_self (frame : Frame) :
    openAt shared frame.augnode.schema.id (frame :: frames) =
      if shared then some (parentOf frames) else none := by
  unfold openAt
  rw [augdsAug2yangAugnodeLeafrefParent, if_pos rfl]
  rfl

theorem Old.ne (old : Old state parent) {node : Nat} (new : state.fresh ≤ node) :
    parent ≠ some node := fun same => Nat.not_lt.mpr new (old node same)

section Instance

/-! A new instance of the list, with what is done below it. -/

variable {frame : Frame} {key : Nat} {here : Prop}

theorem instance_frame (isNew : frame.node = state.fresh)
    (child : Effect frame.augnode.schema.id shared order (frame :: frames) here
      (state.addNode (parentOf frames) frame.augnode.schema.id (some (.index key))
        (.instance_ label.id)) final)
    {other : Option Nat} (old : Old state other) (differs : other ≠ parentOf frames) :
    instances frame.augnode.schema.id other final.nodes =
      instances frame.augnode.schema.id other state.nodes := by
  have notOpen : openAt shared frame.augnode.schema.id (frame :: frames) ≠ some other := by
    rw [openAt_self]
    split
    · intro same
      exact differs (Option.some.inj same).symm
    · intro same
      cases same
  have isChild : parentOf (frame :: frames) = some state.fresh := congrArg some isNew
  have same := child.frame other (old.mono (Nat.le_succ _)) notOpen fun both =>
    old.ne (Nat.le_refl _) (both.2.trans isChild)
  rw [same, LoadState.addNode, instances_append, instances_other (Ne.symm differs), List.append_nil]

theorem instance_sound (tidy : Tidy state) (old : OldFrames frames state)
    (isNew : frame.node = state.fresh)
    (child : Effect frame.augnode.schema.id shared order (frame :: frames) here
      (state.addNode (parentOf frames) frame.augnode.schema.id (some (.index key))
        (.instance_ label.id)) final)
    (sound : Sound frame.augnode.schema.id shared order state.nodes)
    (isKey : (instances frame.augnode.schema.id (parentOf frames) state.nodes).length + 1 = key)
    (ordered : shared = false →
      ((instances frame.augnode.schema.id (parentOf frames) state.nodes).filterMap
        DataNode.instanceLabel ++ [label.id]).Sublist order)
    (counts : shared = true → state.nextIdx frame.augnode.schema.id = key + 1) :
    Sound frame.augnode.schema.id shared order final.nodes ∧
      (shared = true → Counted frame.augnode.schema.id (parentOf frames) final) := by
  have created : Sound frame.augnode.schema.id shared order
      (state.addNode (parentOf frames) frame.augnode.schema.id (some (.index key))
        (.instance_ label.id)).nodes := by
    rw [← isKey]
    exact sound.instance_ ordered
  have noInstances : instances frame.augnode.schema.id (some state.fresh)
      (state.addNode (parentOf frames) frame.augnode.schema.id (some (.index key))
        (.instance_ label.id)).nodes = [] := by
    rw [LoadState.addNode, instances_append, instances_new tidy (Nat.le_refl _), List.nil_append]
    exact instances_other (old.parentOf.ne (Nat.le_refl _))
  have counted : ∀ parent ∈ openAt shared frame.augnode.schema.id (frame :: frames),
      Counted frame.augnode.schema.id parent (state.addNode (parentOf frames)
        frame.augnode.schema.id (some (.index key)) (.instance_ label.id)) := by
    intro parent isOpen
    rw [openAt_self] at isOpen
    split at isOpen
    · rename_i isShared
      obtain rfl := Option.some.inj isOpen
      unfold Counted
      have one : (instances frame.augnode.schema.id (parentOf frames)
          [⟨state.fresh, parentOf frames, frame.augnode.schema.id, some (.index key),
            .instance_ label.id⟩]).length = 1 := by
        simp [instances, DataNode.instanceLabel]
      rw [LoadState.addNode, instances_append, List.length_append, one, isKey]
      exact (counts isShared).symm
    · cases isOpen
  have isChild : parentOf (frame :: frames) = some state.fresh := congrArg some isNew
  obtain ⟨soundFinal, countedFinal⟩ := child.sound created (fun _ => isChild ▸ noInstances) counted
  refine ⟨soundFinal, fun isShared => countedFinal _ ?_⟩
  rw [openAt_self, if_pos isShared]
  rfl

end Instance

/-- The instance of a round is kept. -/
theorem Filling.kept (filling : Filling own.schema.id order (parentOf frames) index
      (some (label, below) :: labels) state)
    (tidy : Tidy state) (old : OldFrames frames state)
    (sameNodes : started.nodes = state.nodes) (sameFresh : started.fresh = state.fresh)
    (counts : index.isNone = true →
      started.nextIdx own.schema.id = index.getD (state.nextIdx own.schema.id) + 1)
    (child : Effect own.schema.id index.isNone order (⟨own, children, started.fresh⟩ :: frames)
      there
      (started.addNode (parentOf frames) own.schema.id
        (some (.index (index.getD (state.nextIdx own.schema.id)))) (.instance_ label.id)) middle) :
    Filling own.schema.id order (parentOf frames) (index.map (· + 1)) labels middle := by
  have startedTidy : Tidy started := by
    unfold Tidy
    rw [sameNodes, sameFresh]
    exact tidy
  have startedOld : OldFrames frames started := old.mono (Nat.le_of_eq sameFresh.symm)
  have labelFirst : allIds (some (label, below) :: labels) =
      [label.id] ++ (below.labels.map Label.id ++ allIds labels) := rfl
  have ofInstance := @instance_sound index.isNone order frames started middle label
    ⟨own, children, started.fresh⟩ _ there startedTidy startedOld rfl child
    (sameNodes.symm ▸ filling.sound) (sameNodes.symm ▸ filling.next)
    (fun isLocal => by
      rw [sameNodes]
      refine List.Sublist.trans ?_ (filling.before isLocal)
      rw [labelFirst, ← List.append_assoc]
      exact List.sublist_append_left _ _)
    counts
  cases index with
  | none =>
      exact ⟨ofInstance.1, ofInstance.2 rfl, fun isLocal => by cases isLocal⟩
  | some count =>
      -- below the instance nothing is added to the parent
      have atParent : instances own.schema.id (parentOf frames) middle.nodes =
          instances own.schema.id (parentOf frames) state.nodes ++
            [⟨started.fresh, parentOf frames, own.schema.id, some (.index count),
              .instance_ label.id⟩] := by
        rw [child.frame (parentOf frames) (startedOld.parentOf.mono (Nat.le_succ _))
          (fun same => by cases same)
          fun both => startedOld.parentOf.ne (Nat.le_refl _) both.2, LoadState.addNode,
          instances_append, sameNodes]
        congr 1
        simp [instances, DataNode.instanceLabel]
      refine ⟨ofInstance.1, ?_, fun isLocal => ?_⟩
      · rw [atParent, List.length_append, List.length_singleton, filling.next]
        rfl
      · rw [atParent, List.filterMap_append, List.append_assoc]
        refine List.Sublist.trans ?_ (filling.before rfl)
        rw [labelFirst]
        exact ((List.sublist_append_right _ _).append_left _).append_left _

/-- The instance of a round is freed again. -/
theorem Filling.dropped (filling : Filling own.schema.id order (parentOf frames) index
      (some (label, below) :: labels) state)
    (nodes : final.nodes = state.nodes)
    (counts : index.isNone = true → final.nextIdx own.schema.id = state.nextIdx own.schema.id) :
    Filling own.schema.id order (parentOf frames) index labels final where
  sound := nodes.symm ▸ filling.sound
  next := by
    rw [nodes, filling.next]
    cases index with
    | none => exact (counts rfl).symm
    | some count => rfl
  before := by
    intro isLocal
    rw [nodes]
    refine List.Sublist.trans (List.Sublist.append_left ?_ _) (filling.before isLocal)
    exact List.sublist_append_right (treeIds (label, below)) (allIds labels)

theorem Fills.refl (tidy : Tidy state) (sound : ready → Sound list shared order state.nodes) :
    Fills list shared order parent ready state state :=
  ⟨tidy, Nat.le_refl _, ⟨[], (List.append_nil _).symm, fun nonempty => absurd rfl nonempty⟩,
    fun _ _ _ => rfl, sound⟩

theorem listLoop_own
    (child : ChildAffects top own.schema.id index.isNone order children childLabels)
    (place : Path top frames (.cons own children rest)) (isList : own.schema.nodetype = .list)
    (old : OldFrames frames state) (tidy : Tidy state) (ordered : (allIds labels).Sublist order)
    (loaded : listLoop libyang own children frames childLabels index labels state =
      some (after, final)) :
    Fills own.schema.id index.isNone order (parentOf frames)
        (Filling own.schema.id order (parentOf frames) index labels state) state final ∧
      (allIds after).Sublist (allIds labels) := by
  induction labels generalizing index state after with
  | nil =>
      obtain ⟨rfl, rfl⟩ := Prod.mk.inj (Option.some.inj loaded)
      exact ⟨.refl tidy Filling.sound, List.Sublist.refl _⟩
  | cons entry labels inductionHypothesis =>
      cases entry with
      | none =>
          obtain ⟨⟨restAfter, middle⟩, ofRest, same⟩ := Option.bind_eq_some_iff.mp loaded
          obtain ⟨rfl, rfl⟩ := Prod.mk.inj (Option.some.inj same)
          obtain ⟨fills, left⟩ := inductionHypothesis child old tidy (sublist_tail ordered) ofRest
          have filled := (Fills.refl tidy Filling.sound).trans fills
            fun filling : Filling own.schema.id order (parentOf frames) index (none :: labels)
              state => ⟨filling.sound, filling.next, filling.before⟩
          exact ⟨filled, left⟩
      | some tree =>
          obtain ⟨label, below⟩ := tree
          obtain ⟨started, slice, middle, restAfter, counted, ofChild, rfl, ofRest⟩ :=
            listLoop_round isList loaded
          have sameNodes : started.nodes = state.nodes := by
            rw [counted]
            split <;> rfl
          have sameFresh : started.fresh = state.fresh := by
            rw [counted]
            split <;> rfl
          have counts : index.isNone = true →
              started.nextIdx own.schema.id = index.getD (state.nextIdx own.schema.id) + 1 := by
            intro isShared
            rw [counted, if_pos isShared]
            exact if_pos rfl
          have startedTidy : Tidy started := by
            unfold Tidy
            rw [sameNodes, sameFresh]
            exact tidy
          have startedOld : OldFrames frames started := old.mono (Nat.le_of_eq sameFresh.symm)
          have ofSlice := child _ _ _ _ _ ofChild (place.down _)
            ((startedOld.mono (Nat.le_succ _)).cons (Nat.lt_succ_self _))
            (tidy_addNode startedTidy startedOld.parentOf) (sublist_head ordered)
          have fresh : state.fresh ≤ middle.fresh := by
            rw [← sameFresh]
            exact (Nat.le_succ _).trans ofSlice.1.fresh
          have left {rest : Matches} (ofTail : (allIds rest).Sublist (allIds labels)) :
              (allIds (slice ++ rest)).Sublist (allIds (some (label, below) :: labels)) := by
            rw [← List.singleton_append, allIds_append, allIds_append]
            exact ofSlice.2.append ofTail
          rcases ofRest with ⟨-, ofRest⟩ | ⟨noChild, ofRest⟩
          · have isNone : (index.map (· + 1)).isNone = index.isNone := Option.isNone_map
            obtain ⟨fills, ofTail⟩ := inductionHypothesis (isNone.symm ▸ child) (old.mono fresh)
              ofSlice.1.tidy (sublist_tail ordered) ofRest
            rw [isNone] at fills
            have kept : Fills own.schema.id index.isNone order (parentOf frames)
                (Filling own.schema.id order (parentOf frames) index
                  (some (label, below) :: labels) state) state middle := by
              refine ⟨ofSlice.1.tidy, fresh, ?_, fun other isOld differs => ?_, fun filling => ?_⟩
              · obtain ⟨new, nodes, -⟩ := ofSlice.1.nodes
                refine ⟨⟨started.fresh, parentOf frames, own.schema.id,
                  some (.index (index.getD (state.nextIdx own.schema.id))),
                  .instance_ label.id⟩ :: new, ?_, fun _ => ⟨_, List.mem_cons_self, rfl⟩⟩
                rw [nodes, LoadState.addNode, sameNodes, List.append_assoc]
                rfl
              · rw [← sameNodes]
                exact @instance_frame _ _ _ _ _ _ ⟨own, children, started.fresh⟩ _ _ rfl ofSlice.1
                  _ (isOld.mono (Nat.le_of_eq sameFresh.symm)) differs
              · have next := (filling.kept tidy old sameNodes sameFresh counts ofSlice.1).sound
                rwa [isNone] at next
            exact ⟨kept.trans fills fun filling =>
              filling.kept tidy old sameNodes sameFresh counts ofSlice.1, left ofTail⟩
          · obtain ⟨middleNodes, freedNodes⟩ := childless startedTidy rfl ofSlice.1 noChild
            generalize isFreed : (if index.isNone then
              (middle.free started.fresh).setNextIdx own.schema.id
                ((middle.free started.fresh).nextIdx own.schema.id - 1)
              else middle.free started.fresh) = freed at ofRest
            have nodes : freed.nodes = state.nodes := by
              rw [← isFreed, ← sameNodes, ← freedNodes]
              split <;> rfl
            have freedFresh : state.fresh ≤ freed.fresh := by
              rw [← isFreed]
              split <;> exact fresh
            have back : index.isNone = true →
                freed.nextIdx own.schema.id = state.nextIdx own.schema.id := by
              intro isShared
              have isOpen : (openAt index.isNone own.schema.id
                  (⟨own, children, started.fresh⟩ :: frames)).isSome := by
                rw [openAt_self ⟨own, children, started.fresh⟩, if_pos isShared]
                rfl
              have idle := ofSlice.1.idle middleNodes isOpen
              have atStart : middle.nextIdx own.schema.id = state.nextIdx own.schema.id + 1 := by
                rw [idle]
                refine (counts isShared).trans ?_
                rw [Option.isNone_iff_eq_none.mp isShared]
                rfl
              rw [← isFreed, if_pos isShared]
              refine (if_pos rfl).trans ?_
              change middle.nextIdx own.schema.id - 1 = _
              rw [atStart, Nat.add_sub_cancel]
            have freedTidy : Tidy freed :=
              (@Effect.unchanged own.schema.id false order frames _ _ tidy nodes freedFresh
                fun isOpen => by cases isOpen).tidy
            obtain ⟨fills, ofTail⟩ := inductionHypothesis child (old.mono freedFresh) freedTidy
              (sublist_tail ordered) ofRest
            have dropped : Fills own.schema.id index.isNone order (parentOf frames)
                (Filling own.schema.id order (parentOf frames) index
                  (some (label, below) :: labels) state) state freed :=
              ⟨freedTidy, freedFresh, ⟨[], by rw [nodes, List.append_nil],
                fun nonempty => absurd rfl nonempty⟩, fun _ _ _ => by rw [nodes],
                fun filling => nodes.symm ▸ filling.sound⟩
            exact ⟨dropped.trans fills fun filling => filling.dropped nodes back, left ofTail⟩

end Own

section Calls

variable {libyang : Libyang} {file : Text} {again : LabelsR}
  {top augnodes children rest ownChildren : Forest Augnode} {own augnode : Augnode} {shared : Bool}
  {order : List Nat} {frames front outer : List Frame} {frame : Frame} {state final : LoadState}
  {labels after : Matches}
  {childLabels : List Frame → Matches → LoadState → Option (Matches × LoadState)}

/-- All labels of the list. -/
theorem listR_own (implicit : ImplicitList top own ownChildren shared)
    (closed : openAt shared own.schema.id frames = none)
    (child : ChildAffects top own.schema.id shared order ownChildren childLabels)
    (place : Path top frames (.cons own ownChildren rest)) (old : OldFrames frames state)
    (tidy : Tidy state) (ordered : (allIds labels).Sublist order)
    (loaded : augdsAug2yangAugnodeLabelsListR libyang own ownChildren frames childLabels labels
      state = some (after, final)) :
    Affects own.schema.id shared order frames True labels state after final := by
  unfold augdsAug2yangAugnodeLabelsListR at loaded
  cases shared with
  | false =>
      have isId : own.schema.key = .id := implicit.key
      rw [isId] at loaded
      obtain ⟨fills, left⟩ := @listLoop_own _ _ _ _ _ _ _ _ _ _ _ (some 1) _ child place
        implicit.isList old tidy ordered loaded
      refine ⟨fills.effect closed fun sound empty => ⟨sound, ?_, fun _ => ?_⟩, left⟩
      · rw [empty]
        rfl
      · rw [empty]
        exact ordered
  | true =>
      have isRecursive : own.schema.key = .rId := implicit.key
      rw [isRecursive] at loaded
      have startedOld : OldFrames frames (state.setNextIdx own.schema.id 1) := old
      obtain ⟨fills, left⟩ := @listLoop_own _ _ _ _ _ _ _ _ _ _ _ none _ child place
        implicit.isList startedOld tidy ordered loaded
      have filled : Fills own.schema.id true order (parentOf frames) _ state final :=
        ⟨fills.tidy, fills.fresh, fills.nodes, fills.frame, fills.sound⟩
      refine ⟨filled.effect closed fun sound empty =>
        ⟨sound, ?_, fun isLocal => by cases isLocal⟩, left⟩
      have noInstances : instances own.schema.id (parentOf frames)
          (state.setNextIdx own.schema.id 1).nodes = [] := empty
      rw [noInstances]
      exact (if_pos rfl).symm

theorem listR_affects (implicit : ImplicitList top own ownChildren shared)
    (distinct : (augnodeIds top).Nodup)
    (child : ChildAffects top own.schema.id shared order children childLabels)
    (place : Path top frames (.cons augnode children rest))
    (isList : augnode.schema.nodetype = .list) (old : OldFrames frames state)
    (tidy : Tidy state) (ordered : (allIds labels).Sublist order)
    (loaded : augdsAug2yangAugnodeLabelsListR libyang augnode children frames childLabels labels
      state = some (after, final)) :
    Affects own.schema.id shared order frames (augnode.schema.id = own.schema.id) labels state
      after final := by
  by_cases same : augnode.schema.id = own.schema.id
  · have closed := implicit.closed distinct place (by
      rw [← same, augnodeIds, Forest.labels_cons]
      exact List.mem_cons_self)
    obtain ⟨rfl, rfl⟩ := implicit.eq distinct place same
    obtain ⟨effect, left⟩ := listR_own implicit closed child place old tidy ordered loaded
    exact ⟨effect.mono fun _ => rfl, left⟩
  · unfold augdsAug2yangAugnodeLabelsListR at loaded
    split at loaded
    · obtain ⟨effect, left⟩ := listLoop_foreign child place same isList old tidy ordered loaded
      exact ⟨effect.mono False.elim, left⟩
    · have starts : Effect own.schema.id shared order frames False state
          (state.setNextIdx augnode.schema.id 1) := (neutral_setNextIdx tidy same).effect False
      obtain ⟨effect, left⟩ := listLoop_foreign child place same isList (old.mono starts.fresh)
        starts.tidy ordered loaded
      exact ⟨(starts.seq old effect).mono False.elim, left⟩
    · cases loaded

/-- Another augnode than the list. -/
theorem ImplicitList.ne (implicit : ImplicitList top own ownChildren shared)
    (distinct : (augnodeIds top).Nodup) (place : Path top frames (.cons augnode children rest))
    (differs : augnode ≠ own) : augnode.schema.id ≠ own.schema.id :=
  fun same => differs (implicit.eq distinct place same).1

theorem caseLoop_affects (implicit : ImplicitList top own ownChildren shared)
    (distinct : (augnodeIds top).Nodup)
    (child : ChildAffects top own.schema.id shared order children childLabels)
    (place : Path top frames (.cons augnode children rest)) {label : Label}
    {caseNodes : List CaseNode} (old : OldFrames frames state) (tidy : Tidy state)
    (ordered : (allIds labels).Sublist order)
    (loaded : caseLoop libyang augnode children frames childLabels label labels caseNodes state =
      some (after, final)) :
    Affects own.schema.id shared order frames (augnode.schema.id = own.schema.id) labels state
      after final := by
  induction caseNodes generalizing state with
  | nil =>
      obtain ⟨rfl, rfl⟩ := Prod.mk.inj (Option.some.inj loaded)
      exact .refl tidy _
  | cons caseNode caseNodes inductionHypothesis =>
      rw [caseLoop] at loaded
      split at loaded
      · exact inductionHypothesis old tidy loaded
      · split at loaded
        · cases loaded
        · rename_i isInner
          obtain ⟨⟨node, created⟩, createdNode, loaded⟩ := Option.bind_eq_some_iff.mp loaded
          have notTerm : augnode.schema.nodetype.isTerm = false := by
            by_contra term
            cases type : augnode.schema.nodetype <;> simp_all [Nodetype.isTerm]
          obtain ⟨rfl, rfl⟩ := createNode_inner notTerm
            (fun isContainer => by rw [isContainer, if_neg (by decide)]) createdNode
          obtain ⟨_, isNode, loaded⟩ := Option.bind_eq_some_iff.mp loaded
          obtain rfl := Option.some.inj isNode
          generalize isValue :
            (if augnode.schema.nodetype = .list then some (Value.index 1) else none) = value at *
          have freed : Effect own.schema.id shared order frames False state
              ((state.addNode (parentOf frames) augnode.schema.id value .around).free
                state.fresh) :=
            .unchanged tidy (free_addNode tidy) (Nat.le_succ _) fun _ => rfl
          have behind {last : LoadState} (step : Affects own.schema.id shared order frames
              (augnode.schema.id = own.schema.id) labels
              ((state.addNode (parentOf frames) augnode.schema.id value .around).free state.fresh)
              after last) :
              Affects own.schema.id shared order frames (augnode.schema.id = own.schema.id) labels
                state after last := by
            refine ⟨(freed.trans old step.1 (fun both => both.1) fun same => ?_).mono
              fun either => either.resolve_left id, step.2⟩
            refine implicit.closed distinct place ?_
            rw [← same, augnodeIds, Forest.labels_cons]
            exact List.mem_cons_self
          by_cases whenTrue : !libyang.whenTrue augnode.schema
            (state.addNode (parentOf frames) augnode.schema.id value .around)
          · rw [if_pos whenTrue] at loaded
            exact behind (inductionHypothesis (old.mono freed.fresh) freed.tidy loaded)
          · rw [if_neg whenTrue] at loaded
            by_cases isList : augnode.schema.nodetype = .list
            · rw [if_pos isList] at loaded
              exact behind (listR_affects implicit distinct child place isList
                (old.mono freed.fresh) freed.tidy ordered loaded)
            · rw [if_neg isList] at loaded
              have differs := implicit.ne distinct place fun same =>
                isList (same ▸ implicit.isList)
              obtain ⟨effect, left⟩ := inner_affects
                (fun frames state after final loaded path old tidy =>
                  child frames labels state after final loaded path old tidy ordered)
                place differs old tidy foreign_around createdNode rfl loaded
              exact ⟨effect.mono False.elim, left⟩

end Calls

section Reference

/-! A leafref and the list that it leads to. -/

variable {libyang : Libyang} {again : LabelsR} {top children rest ownChildren : Forest Augnode}
  {own augnode : Augnode} {shared : Bool} {order : List Nat} {front outer : List Frame}
  {frame : Frame} {state middle final : LoadState} {labels after : Matches} {list : Nat}
  {parent : Option Nat}

theorem instances_reference {other : Option Nat} {schema target : Nat} {value : Option Value} :
    instances list parent (state.addNode other schema value (.leafref target)).nodes =
      instances list parent state.nodes := by
  rw [LoadState.addNode, instances_append]
  simp [instances, DataNode.instanceLabel]

/-- The frames from the list on are those of a call for a leafref to it. -/
theorem ImplicitList.shared_of_leafref (implicit : ImplicitList top own ownChildren shared)
    (distinct : (augnodeIds top).Nodup)
    (place : Path top (front ++ frame :: outer) (.cons augnode children rest))
    (recursive : frame.augnode.schema.key = .rId)
    (same : frame.augnode.schema.id = own.schema.id) : shared = true := by
  obtain ⟨frameRest, above⟩ := place.stands
  have isOwn := (implicit.eq distinct above same).1
  have key := implicit.key
  rw [← isOwn, recursive] at key
  cases shared with
  | false => cases key
  | true => rfl

theorem openAt_of_first (isShared : shared = true)
    (first : ∀ other ∈ front, other.augnode.schema.id ≠ frame.augnode.schema.id) :
    openAt shared frame.augnode.schema.id (front ++ frame :: outer) = some (parentOf outer) := by
  unfold openAt
  rw [if_pos isShared, leafrefParent_append first, augdsAug2yangAugnodeLeafrefParent, if_pos rfl]
  rfl

/-- The call for the list of a leafref is inside of the same instances. -/
theorem ImplicitList.openAt_again (implicit : ImplicitList top own ownChildren shared)
    (distinct : (augnodeIds top).Nodup)
    (place : Path top (front ++ frame :: outer) (.cons augnode children rest))
    (first : ∀ other ∈ front, other.augnode.schema.id ≠ frame.augnode.schema.id)
    (target : augnode.schema.leafref = some frame.augnode.schema.id)
    (isList : frame.augnode.schema.nodetype = .list)
    (recursive : frame.augnode.schema.key = .rId) (node : Nat) :
    openAt shared own.schema.id ({ frame with node := node } :: outer) =
      openAt shared own.schema.id (front ++ frame :: outer) := by
  by_cases same : frame.augnode.schema.id = own.schema.id
  · have isShared := implicit.shared_of_leafref distinct place recursive same
    have here := @openAt_self shared outer { frame with node := node }
    rw [if_pos isShared] at here
    rw [← same, openAt_of_first isShared first]
    exact here
  · exact implicit.jump distinct place target isList recursive same node

/-- A new instance of the list of a leafref and what is below it. -/
def startAgain (frame : Frame) (outer : List Frame) (label : Nat) (state : LoadState) : LoadState :=
  (state.setNextIdx frame.augnode.schema.id (state.nextIdx frame.augnode.schema.id + 1)).addNode
    (parentOf outer) frame.augnode.schema.id
    (some (.index (state.nextIdx frame.augnode.schema.id))) (.instance_ label)

theorem again_frame (implicit : ImplicitList top own ownChildren shared)
    (distinct : (augnodeIds top).Nodup)
    (place : Path top (front ++ frame :: outer) (.cons augnode children rest))
    (first : ∀ other ∈ front, other.augnode.schema.id ≠ frame.augnode.schema.id)
    (recursive : frame.augnode.schema.key = .rId) (label : Nat)
    (notOpen : openAt shared own.schema.id (front ++ frame :: outer) ≠ some parent) :
    instances own.schema.id parent (startAgain frame outer label state).nodes =
      instances own.schema.id parent state.nodes := by
  rw [startAgain, LoadState.addNode, instances_append]
  refine (congrArg _ ?_).trans (List.append_nil _)
  by_cases same : frame.augnode.schema.id = own.schema.id
  · have isShared := implicit.shared_of_leafref distinct place recursive same
    refine instances_other fun isParent => notOpen ?_
    rw [← same, openAt_of_first isShared first]
    exact congrArg some isParent
  · refine instances_foreign fun node member => ?_
    rw [List.mem_singleton.mp member]
    exact (foreign_instance same label).foreign _

theorem again_sound (implicit : ImplicitList top own ownChildren shared)
    (distinct : (augnodeIds top).Nodup)
    (place : Path top (front ++ frame :: outer) (.cons augnode children rest))
    (first : ∀ other ∈ front, other.augnode.schema.id ≠ frame.augnode.schema.id)
    (target : augnode.schema.leafref = some frame.augnode.schema.id)
    (isList : frame.augnode.schema.nodetype = .list)
    (recursive : frame.augnode.schema.key = .rId) {label : Label} {here : Prop} {node : Nat}
    (old : OldFrames outer state) (tidy : Tidy state) (isNew : node = state.fresh)
    (child : Effect own.schema.id shared order ({ frame with node := node } :: outer) here
      (startAgain frame outer label.id state) middle)
    (sound : Sound own.schema.id shared order state.nodes)
    (counted : ∀ parent ∈ openAt shared own.schema.id (front ++ frame :: outer),
      Counted own.schema.id parent state) :
    Sound own.schema.id shared order middle.nodes ∧
      ∀ parent ∈ openAt shared own.schema.id (front ++ frame :: outer),
        Counted own.schema.id parent middle := by
  by_cases same : frame.augnode.schema.id = own.schema.id
  · have isShared := implicit.shared_of_leafref distinct place recursive same
    rw [← same, openAt_of_first isShared first] at counted ⊢
    rw [← same] at child sound
    have started := @instance_sound shared order outer
      (state.setNextIdx frame.augnode.schema.id (state.nextIdx frame.augnode.schema.id + 1)) middle
      label { frame with node := node } _ here tidy old isNew child sound (counted _ rfl)
      (fun isLocal => by rw [isShared] at isLocal; cases isLocal) fun _ => if_pos rfl
    refine ⟨started.1, fun parent isOpen => ?_⟩
    obtain rfl := Option.some.inj isOpen
    exact started.2 isShared
  · have foreign : ∀ node ∈ [(⟨state.fresh, parentOf outer, frame.augnode.schema.id,
        some (.index (state.nextIdx frame.augnode.schema.id)), .instance_ label.id⟩ : DataNode)],
        Foreign own.schema.id node := fun node member => by
      rw [List.mem_singleton.mp member]
      exact (foreign_instance same label.id).foreign _
    have unchanged (parent : Option Nat) :
        instances own.schema.id parent (startAgain frame outer label.id state).nodes =
          instances own.schema.id parent state.nodes := by
      rw [startAgain, LoadState.addNode, instances_append]
      exact (congrArg _ (instances_foreign foreign)).trans (List.append_nil _)
    have sameOpen := implicit.openAt_again distinct place first target isList recursive node
    have below := child.sound (sound.foreign foreign)
      (fun _ => by
        change instances own.schema.id (some node) _ = []
        rw [unchanged]
        exact instances_new tidy (Nat.le_of_eq isNew.symm))
      (by
        intro parent isOpen
        rw [sameOpen] at isOpen
        unfold Counted
        rw [unchanged]
        exact (counted parent isOpen).trans (if_neg (Ne.symm same)).symm)
    rwa [sameOpen] at below

theorem createNode_reference {value : Value} {target : Nat} {node : Option Nat}
    (isLeaf : augnode.schema.nodetype = .leaf)
    (created : augdsAug2yangAugnodeCreateNode libyang augnode.schema (some value) parent
      (.leafref target) state = some (node, final)) :
    final = state.addNode parent augnode.schema.id (some value) (.leafref target) := by
  rcases createNode_cases created with ⟨-, -, -, nothing, -⟩ | ⟨-, -, ⟨isContainer, -⟩ | ⟨-, rfl⟩⟩
  · cases nothing
  · rw [isLeaf] at isContainer
    cases isContainer
  · rfl

/-- The instance for a label of a leafref is kept and referred to. -/
theorem reference_effect (implicit : ImplicitList top own ownChildren shared)
    (distinct : (augnodeIds top).Nodup)
    (place : Path top (front ++ frame :: outer) (.cons augnode children rest))
    (first : ∀ other ∈ front, other.augnode.schema.id ≠ frame.augnode.schema.id)
    (target : augnode.schema.leafref = some frame.augnode.schema.id)
    (isList : frame.augnode.schema.nodetype = .list)
    (recursive : frame.augnode.schema.key = .rId) {label : Label} {here : Prop}
    (old : OldFrames (front ++ frame :: outer) state) (tidy : Tidy state)
    (child : Effect own.schema.id shared order ({ frame with node := state.fresh } :: outer) here
      (startAgain frame outer label.id state) middle) :
    Effect own.schema.id shared order (front ++ frame :: outer) False state
      (middle.addNode (parentOf (front ++ frame :: outer)) augnode.schema.id
        (some (.index (state.nextIdx frame.augnode.schema.id)))
        (.leafref frame.augnode.schema.id)) := by
  have oldOuter : OldFrames outer state := fun other member =>
    old other (List.mem_append_right _ (List.mem_cons_of_mem _ member))
  have fresh : state.fresh ≤ middle.fresh := (Nat.le_succ _).trans child.fresh
  have counted_reference {parent : Option Nat} (counted : Counted own.schema.id parent middle) :
      Counted own.schema.id parent (middle.addNode (parentOf (front ++ frame :: outer))
        augnode.schema.id (some (.index (state.nextIdx frame.augnode.schema.id)))
        (.leafref frame.augnode.schema.id)) := by
    unfold Counted
    rw [instances_reference]
    exact counted
  obtain ⟨new, nodes, -⟩ := child.nodes
  have inside : (⟨state.fresh, parentOf outer, frame.augnode.schema.id,
      some (.index (state.nextIdx frame.augnode.schema.id)), .instance_ label.id⟩ : DataNode) ∈
      middle.nodes := by
    rw [nodes]
    exact List.mem_append_left _ (List.mem_append_right _ (List.mem_singleton.mpr rfl))
  refine ⟨tidy_addNode child.tidy (old.parentOf.mono fresh), fresh.trans (Nat.le_succ _),
    ⟨⟨state.fresh, parentOf outer, frame.augnode.schema.id,
      some (.index (state.nextIdx frame.augnode.schema.id)), .instance_ label.id⟩ :: new ++
      [⟨middle.fresh, parentOf (front ++ frame :: outer), augnode.schema.id,
        some (.index (state.nextIdx frame.augnode.schema.id)),
        .leafref frame.augnode.schema.id⟩], ?_,
      fun _ => ⟨_, List.mem_append_right _ (List.mem_singleton.mpr rfl), rfl⟩⟩,
    fun other isOld notOpen _ => ?_, fun sound _ counted => ?_, fun same _ => ?_⟩
  · rw [LoadState.addNode, nodes, startAgain, LoadState.addNode, List.append_assoc,
      List.append_assoc]
    rfl
  · rw [instances_reference]
    refine Eq.trans (child.frame other (isOld.mono (Nat.le_succ _)) ?_ fun both =>
      isOld.ne (Nat.le_refl _) both.2)
      (again_frame implicit distinct place first recursive label.id notOpen)
    rwa [implicit.openAt_again distinct place first target isList recursive]
  · have atMiddle := again_sound implicit distinct place first target isList recursive oldOuter tidy rfl
      child sound counted
    refine ⟨?_, fun parent isOpen => counted_reference (atMiddle.2 parent isOpen)⟩
    by_cases same : frame.augnode.schema.id = own.schema.id
    · exact atMiddle.1.leafref (congrArg Origin.leafref same) inside same rfl rfl
    · refine atMiddle.1.foreign fun node member => ?_
      rw [List.mem_singleton.mp member]
      exact ⟨fun _ => rfl, fun isRef => same (Origin.leafref.inj isRef)⟩
  · have counts := congrArg List.length same
    rw [LoadState.addNode, nodes, startAgain, LoadState.addNode] at counts
    simp only [List.length_append, List.length_singleton] at counts
    change state.nodes.length + 1 + new.length + 1 = state.nodes.length at counts
    omega

/-- The instance for a label of a leafref is freed again. -/
theorem again_unchanged (implicit : ImplicitList top own ownChildren shared)
    (distinct : (augnodeIds top).Nodup)
    (place : Path top (front ++ frame :: outer) (.cons augnode children rest))
    (first : ∀ other ∈ front, other.augnode.schema.id ≠ frame.augnode.schema.id)
    (target : augnode.schema.leafref = some frame.augnode.schema.id)
    (isList : frame.augnode.schema.nodetype = .list)
    (recursive : frame.augnode.schema.key = .rId) {label : Label} {here : Prop} (tidy : Tidy state)
    (child : Effect own.schema.id shared order ({ frame with node := state.fresh } :: outer) here
      (startAgain frame outer label.id state) middle)
    (noChild : ¬middle.hasChild state.fresh) :
    Effect own.schema.id shared order (front ++ frame :: outer) False state
      ((middle.free state.fresh).setNextIdx frame.augnode.schema.id
        ((middle.free state.fresh).nextIdx frame.augnode.schema.id - 1)) := by
  have startedTidy : Tidy (state.setNextIdx frame.augnode.schema.id
    (state.nextIdx frame.augnode.schema.id + 1)) := tidy
  obtain ⟨middleNodes, freedNodes⟩ := childless startedTidy rfl child noChild
  refine .unchanged tidy freedNodes ((Nat.le_succ _).trans child.fresh) fun isOpen => ?_
  have sameOpen := implicit.openAt_again distinct place first target isList recursive state.fresh
  have idle := child.idle middleNodes (by rwa [sameOpen])
  by_cases same : own.schema.id = frame.augnode.schema.id
  · rw [same] at idle ⊢
    refine (if_pos rfl).trans ?_
    change middle.nextIdx frame.augnode.schema.id - 1 = _
    rw [idle]
    change (if frame.augnode.schema.id = frame.augnode.schema.id then _ else _) - 1 = _
    rw [if_pos rfl, Nat.add_sub_cancel]
  · refine (if_neg same).trans ?_
    change middle.nextIdx own.schema.id = _
    rw [idle]
    exact if_neg same

theorem recursiveLoop_affects (implicit : ImplicitList top own ownChildren shared)
    (distinct : (augnodeIds top).Nodup) (calls : CallAffects top own.schema.id shared order again)
    (place : Path top (front ++ frame :: outer) (.cons augnode children rest))
    (first : ∀ other ∈ front, other.augnode.schema.id ≠ frame.augnode.schema.id)
    (target : augnode.schema.leafref = some frame.augnode.schema.id)
    (recursive : frame.augnode.schema.key = .rId) (isList : frame.augnode.schema.nodetype = .list)
    (isLeaf : augnode.schema.nodetype = .leaf) (old : OldFrames (front ++ frame :: outer) state)
    (tidy : Tidy state) (ordered : (allIds labels).Sublist order)
    (loaded : recursiveLoop libyang again augnode frame outer (front ++ frame :: outer) labels
      state = some (after, final)) :
    Affects own.schema.id shared order (front ++ frame :: outer) False labels state after final := by
  obtain ⟨frameRest, above⟩ := place.stands
  induction labels generalizing state after with
  | nil =>
      obtain ⟨rfl, rfl⟩ := Prod.mk.inj (Option.some.inj loaded)
      exact .refl tidy _
  | cons entry labels inductionHypothesis =>
      have ordersTail := sublist_tail ordered
      cases entry with
      | none =>
          obtain ⟨⟨restAfter, middle⟩, ofRest, same⟩ := Option.bind_eq_some_iff.mp loaded
          obtain ⟨rfl, rfl⟩ := Prod.mk.inj (Option.some.inj same)
          exact Affects.append old (.refl tidy [none])
            (inductionHypothesis old tidy ordersTail ofRest)
      | some tree =>
          obtain ⟨label, below⟩ := tree
          rcases recursiveLoop_round isList loaded with ⟨restAfter, rfl, ofRest⟩ |
            ⟨started, slice, middle, restAfter, rfl, ofChild, rfl, ofRest⟩
          · exact Affects.append old (.refl tidy [some (label, below)])
              (inductionHypothesis old tidy ordersTail ofRest)
          · have oldOuter : OldFrames outer state := fun other member =>
              old other (List.mem_append_right _ (List.mem_cons_of_mem _ member))
            have ofSlice := calls _ _ _ (startAgain frame outer label.id state) _ _ ofChild
              (above.down _) ((oldOuter.mono (Nat.le_succ _)).cons (Nat.lt_succ_self _))
              (tidy_addNode tidy oldOuter.parentOf) (sublist_head ordered)
            rcases ofRest with ⟨node, referred, -, createdReference, ofRest⟩ | ⟨noChild, ofRest⟩
            · obtain rfl := createNode_reference isLeaf createdReference
              have effect := reference_effect implicit distinct place first target isList recursive old
                tidy ofSlice.1
              have kept : Affects own.schema.id shared order (front ++ frame :: outer) False
                  [some (label, below)] state slice _ := ⟨effect, ofSlice.2⟩
              exact kept.append old (inductionHypothesis (old.mono effect.fresh) effect.tidy
                ordersTail ofRest)
            · have effect := again_unchanged implicit distinct place first target isList recursive tidy
                ofSlice.1 noChild
              have dropped : Affects own.schema.id shared order (front ++ frame :: outer) False
                  [some (label, below)] state slice _ := ⟨effect, ofSlice.2⟩
              exact dropped.append old (inductionHypothesis (old.mono effect.fresh) effect.tidy
                ordersTail ofRest)

end Reference

section Rounds

variable {libyang : Libyang} {file : Text} {again : LabelsR}
  {top augnodes children rest ownChildren : Forest Augnode} {own augnode : Augnode} {shared : Bool}
  {order : List Nat} {frames : List Frame} {state final : LoadState} {labels after : Matches}
  {childLabels : List Frame → Matches → LoadState → Option (Matches × LoadState)}

theorem recursiveR_affects (implicit : ImplicitList top own ownChildren shared)
    (distinct : (augnodeIds top).Nodup) (calls : CallAffects top own.schema.id shared order again)
    (place : Path top frames (.cons augnode children rest)) (isLeaf : augnode.schema.nodetype = .leaf)
    (old : OldFrames frames state) (tidy : Tidy state) (ordered : (allIds labels).Sublist order)
    (loaded : augdsAug2yangAugnodeRecursiveLabelsR libyang again augnode frames labels state =
      some (after, final)) :
    Affects own.schema.id shared order frames False labels state after final := by
  unfold augdsAug2yangAugnodeRecursiveLabelsR at loaded
  obtain ⟨list, target, ofList⟩ := Option.bind_eq_some_iff.mp loaded
  obtain ⟨⟨frame, outer⟩, found, ofFrame⟩ := Option.bind_eq_some_iff.mp ofList
  obtain ⟨front, isSplit, same, first⟩ := exists_of_leafrefParent found
  dsimp only at ofFrame
  by_cases isRecursive : frame.augnode.schema.nodetype = .list ∧
      frame.augnode.schema.hasParent = true ∧ frame.augnode.schema.key = .rId ∧
      state.nextIdx list ≠ 0
  · rw [if_pos isRecursive] at ofFrame
    subst isSplit same
    exact recursiveLoop_affects implicit distinct calls place first target isRecursive.2.2.1
      isRecursive.1 isLeaf old tidy ordered ofFrame
  · rw [if_neg isRecursive] at ofFrame
    cases ofFrame

theorem labelsOf_affects (implicit : ImplicitList top own ownChildren shared)
    (distinct : (augnodeIds top).Nodup) (calls : CallAffects top own.schema.id shared order again)
    (child : ChildAffects top own.schema.id shared order children childLabels)
    (place : Path top frames (.cons augnode children rest)) (old : OldFrames frames state)
    (tidy : Tidy state) (ordered : (allIds labels).Sublist order)
    (loaded : labelsOf libyang file again augnode children frames childLabels labels state =
      some (after, final)) :
    Affects own.schema.id shared order frames (augnode.schema.id = own.schema.id) labels state
      after final := by
  have other (differs : augnode ≠ own) (affects : augnode.schema.id ≠ own.schema.id →
      Affects own.schema.id shared order frames False labels state after final) :
      Affects own.schema.id shared order frames (augnode.schema.id = own.schema.id) labels state
        after final := by
    obtain ⟨effect, left⟩ := affects (implicit.ne distinct place differs)
    exact ⟨effect.mono False.elim, left⟩
  unfold labelsOf at loaded
  split at loaded
  · rename_i path hasPath
    refine other (fun same => ?_) fun differs =>
      valueR_affects calls place differs old tidy ordered loaded
    rw [same, implicit.noPath] at hasPath
    cases hasPath
  · split at loaded
    · rename_i isFiles
      split at loaded
      · cases loaded
      · obtain ⟨⟨node, created⟩, createdNode, loaded⟩ := Option.bind_eq_some_iff.mp loaded
        obtain ⟨_, isNode, loaded⟩ := Option.bind_eq_some_iff.mp loaded
        refine other (fun same => ?_) fun differs => inner_affects
          (fun frames state after final loaded path old tidy =>
            child frames labels state after final loaded path old tidy ordered)
          place differs old tidy foreign_around createdNode isNode loaded
        have noParent := isFiles.2
        rw [same, implicit.hasParent] at noParent
        cases noParent
    · split at loaded
      · unfold augdsAug2yangAugnodeLabelsCaseR at loaded
        split at loaded
        · exact caseLoop_affects implicit distinct child place old tidy ordered loaded
        · obtain ⟨rfl, rfl⟩ := Prod.mk.inj (Option.some.inj loaded)
          exact .refl tidy _
      · split at loaded
        · rename_i isList
          exact listR_affects implicit distinct child place isList old tidy ordered loaded
        · rename_i isLeaf
          refine other (fun same => ?_) fun _ =>
            recursiveR_affects implicit distinct calls place isLeaf old tidy ordered loaded
          rw [same, implicit.isList] at isLeaf
          cases isLeaf
        · rename_i isContainer
          obtain ⟨⟨node, created⟩, createdNode, loaded⟩ := Option.bind_eq_some_iff.mp loaded
          obtain ⟨_, isNode, loaded⟩ := Option.bind_eq_some_iff.mp loaded
          refine other (fun same => ?_) fun differs => inner_affects
            (fun frames state after final loaded path old tidy =>
              child frames labels state after final loaded path old tidy ordered)
            place differs old tidy foreign_around createdNode isNode loaded
          rw [same, implicit.isList] at isContainer
          cases isContainer
        · cases loaded

theorem labelsLoop_affects (implicit : ImplicitList top own ownChildren shared)
    (distinct : (augnodeIds top).Nodup) (calls : CallAffects top own.schema.id shared order again) :
    CallAffects top own.schema.id shared order (labelsLoop libyang file again) := by
  intro frames augnodes labels state after final loaded place old tidy ordered
  induction augnodes generalizing frames labels state after final with
  | nil =>
      obtain ⟨rfl, rfl⟩ := Prod.mk.inj (Option.some.inj loaded)
      exact .refl tidy _
  | cons augnode children rest childrenHypothesis restHypothesis =>
      rw [labelsLoop] at loaded
      obtain ⟨⟨middleLabels, middle⟩, ofNode, ofRest⟩ := Option.bind_eq_some_iff.mp loaded
      have child : ChildAffects top own.schema.id shared order children
          fun frames labels state => labelsLoop libyang file again frames children labels state :=
        childrenHypothesis
      obtain ⟨first, firstLeft⟩ := labelsOf_affects implicit distinct calls child place old tidy
        ordered ofNode
      obtain ⟨second, secondLeft⟩ := restHypothesis _ _ _ _ _ ofRest place.rest
        (old.mono first.fresh) first.tidy (firstLeft.trans ordered)
      have inRest (member : own.schema.id ∈ rootIds rest) : own.schema.id ∈ augnodeIds rest := by
        obtain ⟨node, isRoot, same⟩ := List.mem_map.mp member
        exact List.mem_map.mpr ⟨node, Forest.roots_sublist rest |>.subset isRoot, same⟩
      refine ⟨(first.trans old second ?_ fun member =>
        implicit.closed distinct place.rest (inRest member)).mono fun either => ?_,
        secondLeft.trans firstLeft⟩
      · rintro ⟨same, member⟩
        have nodup := place.distinct distinct
        rw [augnodeIds, Forest.labels_cons, List.map_cons, List.nodup_cons] at nodup
        refine nodup.1 ?_
        rw [same, List.map_append]
        exact List.mem_append_right _ (inRest member)
      · rw [rootIds, Forest.roots, List.map_cons]
        rcases either with same | member
        · rw [same]
          exact List.mem_cons_self
        · exact List.mem_cons_of_mem _ member

theorem labelsR_affects (implicit : ImplicitList top own ownChildren shared)
    (distinct : (augnodeIds top).Nodup) (depth : Nat) :
    CallAffects top own.schema.id shared order (augdsAug2yangAugnodeLabelsR libyang file depth) := by
  induction depth with
  | zero =>
      intro frames augnodes labels state after final loaded
      cases loaded
  | succ depth inductionHypothesis => exact labelsLoop_affects implicit distinct inductionHypothesis

end Rounds

section Load

/-- A list that stands for no label itself. -/
structure IsImplicit (own : Augnode) : Prop where
  noPath : own.dataPath = none
  isList : own.schema.nodetype = .list
  hasParent : own.schema.hasParent = true

/-- A list with a leafref to it below. -/
structure IsRecursive (own : Augnode) (children : Forest Augnode) : Prop where
  isList : own.schema.nodetype = .list
  key : own.schema.key = .rId
  leafref : ∃ leafref ∈ children.labels, leafref.schema.leafref = some own.schema.id

/-- No leafref to the list is inside of another recursive list. -/
def LeafrefsApart (top : Forest Augnode) (own : Augnode) : Prop :=
  ∀ other children, (other, children) ∈ subtrees top → other.schema.id ≠ own.schema.id →
    IsRecursive other children → ∀ leafref ∈ children.labels,
      leafref.schema.leafref ≠ some own.schema.id

variable {libyang : Libyang} {file : Text} {depth : Nat} {module_ : AugModule} {tree : AugTree}
  {final : LoadState} {own : Augnode} {children : Forest Augnode} {shared : Bool}

theorem implicitList_id (member : (own, children) ∈ subtrees module_.augnodes)
    (implicit : IsImplicit own) (isId : own.schema.key = .id) :
    ImplicitList module_.augnodes own children false :=
  ⟨member, implicit.noPath, implicit.isList, implicit.hasParent, isId, fun isShared => by
    cases isShared⟩

theorem implicitList_rId (member : (own, children) ∈ subtrees module_.augnodes)
    (implicit : IsImplicit own) (recursive : IsRecursive own children)
    (apart : LeafrefsApart module_.augnodes own) :
    ImplicitList module_.augnodes own children true := by
  refine ⟨member, implicit.noPath, implicit.isList, implicit.hasParent, recursive.key,
    fun _ leafref inside target isTarget outer outerChildren outerMember same isList key ownInside => ?_⟩
  by_cases isOwn : outer.schema.id = own.schema.id
  · obtain ⟨rfl, rfl⟩ := eq_of_mem_subtrees module_.distinct outerMember member isOwn
    exact not_mem_labels_self module_.distinct outerMember ownInside
  · have subset := labels_subset_of_inside module_.distinct outerMember member ownInside
    have outerRecursive : IsRecursive outer outerChildren :=
      ⟨isList, key, leafref, subset inside, same.symm ▸ isTarget⟩
    obtain ⟨back, inChildren, toOwn⟩ := recursive.leafref
    exact apart outer outerChildren outerMember isOwn outerRecursive back (subset inChildren) toOwn

theorem load_sound (implicit : ImplicitList module_.augnodes own children shared)
    (loaded : load libyang file depth module_.augnodes tree.below = some final) :
    Sound own.schema.id shared (tree.below.labels.map Label.id) final.nodes := by
  have start : Sound own.schema.id shared (tree.below.labels.map Label.id)
      LoadState.initial.nodes :=
    ⟨fun _ => rfl, fun _ _ => List.nil_sublist _, fun _ member => absurd member List.not_mem_nil⟩
  unfold load augdsAug2yangAugnodeR at loaded
  split at loaded
  · obtain rfl := Option.some.inj loaded
    exact start
  · obtain ⟨⟨labels, last⟩, called, same⟩ := Option.bind_eq_some_iff.mp loaded
    obtain rfl := Option.some.inj same
    have affects := labelsR_affects implicit module_.distinct depth _ _ _ _ _ _ called .top
      (fun _ member => absurd member List.not_mem_nil) (fun _ member => absurd member List.not_mem_nil)
      (allIds_augMatch tree.below)
    refine (affects.1.sound start (fun _ => rfl) fun parent isOpen => ?_).1
    unfold openAt at isOpen
    split at isOpen <;> cases isOpen

/-- Keys of the implicit lists in all data that can be loaded. -/
theorem load_keys (loaded : load libyang file depth module_.augnodes tree.below = some final) :
    (∀ own children, (own, children) ∈ subtrees module_.augnodes → IsImplicit own →
      own.schema.key = .id → ∀ parent,
        (instances own.schema.id parent final.nodes).map DataNode.value =
            (List.range (instances own.schema.id parent final.nodes).length).map
              (fun count => some (.index (count + 1))) ∧
          ((instances own.schema.id parent final.nodes).filterMap
            DataNode.instanceLabel).Sublist (tree.below.labels.map Label.id)) ∧
      ∀ own children, (own, children) ∈ subtrees module_.augnodes → IsImplicit own →
        IsRecursive own children → LeafrefsApart module_.augnodes own →
          (∀ parent, ((instances own.schema.id parent final.nodes).map DataNode.value).Nodup) ∧
            ∀ node ∈ final.nodes, node.origin = .leafref own.schema.id →
              ∃ other ∈ final.nodes, other.schema = own.schema.id ∧ other.instanceLabel.isSome ∧
                other.value = node.value := by
  constructor
  · intro own children member implicit isId parent
    have sound := load_sound (implicitList_id member implicit isId) loaded
    exact ⟨sound.keys parent, sound.labels rfl parent⟩
  · intro own children member implicit recursive apart
    have sound := load_sound (implicitList_rId member implicit recursive apart) loaded
    refine ⟨fun parent => ?_, sound.refs⟩
    rw [sound.keys parent]
    refine List.Nodup.map (fun first second same => ?_) List.nodup_range
    injection Option.some.inj same with counts
    exact Nat.succ.inj counts

/-- The list of files with an implicit list of leafs `i` and a recursive list, in which `b` refers
to further instances. -/
def recursiveModule : AugModule where
  augnodes :=
    .cons ⟨none, fun _ => true, filesSchema, none, []⟩
      (.cons ⟨none, fun _ => true, { leafSchema with id := 5, nodetype := .list, key := .id }, none, []⟩
        (.cons ⟨some ['i'], fun _ => true, { leafSchema with id := 6 }, none, []⟩ .nil .nil)
        (.cons ⟨none, fun _ => true, { leafSchema with nodetype := .list, key := .rId }, none, []⟩
          (.cons ⟨some ['a'], fun _ => true, { leafSchema with id := 2 }, none, []⟩ .nil
            (.cons ⟨some ['b'], fun _ => true, { leafSchema with id := 3, nodetype := .container },
                none, []⟩
              (.cons ⟨none, fun _ => true, { leafSchema with id := 4, leafref := some 1 }, none, []⟩
                .nil .nil) .nil)) .nil)) .nil
  distinct := by decide

/-- A file with `i` and with `b` around an `a` before another `a`. -/
def recursiveFile : AugTree where
  below :=
    .cons ⟨0, ['i'], some ['v']⟩ .nil
      (.cons ⟨1, ['b'], none⟩ (.cons ⟨2, ['a'], some ['v']⟩ .nil .nil)
        (.cons ⟨3, ['a'], some ['v']⟩ .nil .nil))
  distinct := by decide

theorem load_keys_recursiveModule :
    ∃ final, load lenient ['f'] 3 recursiveModule.augnodes recursiveFile.below = some final ∧
      ∀ own children, (own, children) ∈ subtrees recursiveModule.augnodes → IsImplicit own →
        IsRecursive own children → LeafrefsApart recursiveModule.augnodes own →
          (∀ parent, ((instances own.schema.id parent final.nodes).map DataNode.value).Nodup) ∧
            ∀ node ∈ final.nodes, node.origin = .leafref own.schema.id →
              ∃ other ∈ final.nodes, other.schema = own.schema.id ∧ other.instanceLabel.isSome ∧
                other.value = node.value := by
  have returns : (load lenient ['f'] 3 recursiveModule.augnodes recursiveFile.below).isSome := by
    decide +kernel
  obtain ⟨final, loaded⟩ := Option.isSome_iff_exists.mp returns
  exact ⟨final, loaded, (load_keys loaded).2⟩

example :
    (load lenient ['f'] 3 recursiveModule.augnodes recursiveFile.below).map (fun final =>
      ((instances 1 (some 0) final.nodes).map DataNode.value,
        (final.nodes.filter fun node => node.schema = 4).map DataNode.value)) =
      some ([some (.index 1), some (.index 2), some (.index 3)], [some (.index 2)]) := by
  decide +kernel

end Load

end SysrepoAugeas.Load
