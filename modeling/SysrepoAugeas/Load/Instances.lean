import SysrepoAugeas.Load.Path

/-!
# Keys of implicit lists

The instances of an implicit list below one parent have the keys one, two and
so on.  For a recursive list the counter is in the augnode, and while the
instances below a parent are created it is always one more than their number:
a rollback finds no instance behind the one it frees.
-/

namespace SysrepoAugeas.Load

open SysrepoAugeas.Data
open SysrepoAugeas.Label (Text)

/-- The label that a list instance was created for. -/
def DataNode.instanceLabel (node : DataNode) : Option Nat :=
  match node.origin with
  | .instance_ label => some label
  | _ => none

/-- Instances of a list below a parent, in the order of their creation. -/
def instances (list : Nat) (parent : Option Nat) (nodes : List DataNode) : List DataNode :=
  nodes.filter fun node => node.schema == list && node.parent == parent && node.instanceLabel.isSome

/-- Instances of a list have keys without gaps, those with a local index in the order of their
labels, and references to the list have the key of an instance. -/
structure Sound (list : Nat) (shared : Bool) (order : List Nat) (nodes : List DataNode) : Prop where
  keys : ∀ parent, (instances list parent nodes).map DataNode.value =
    (List.range (instances list parent nodes).length).map fun count => some (.index (count + 1))
  labels : shared = false → ∀ parent,
    ((instances list parent nodes).filterMap DataNode.instanceLabel).Sublist order
  refs : ∀ node ∈ nodes, node.origin = .leafref list →
    ∃ other ∈ nodes, other.schema = list ∧ other.instanceLabel.isSome ∧ other.value = node.value

/-- The node is neither an instance of the list nor a reference to it. -/
def Foreign (list : Nat) (node : DataNode) : Prop :=
  (node.schema = list → node.instanceLabel = none) ∧ node.origin ≠ .leafref list

section Nodes

variable {list : Nat} {shared : Bool} {order : List Nat} {nodes new : List DataNode}
  {node : DataNode} {parent : Option Nat}

theorem instances_append (list : Nat) (parent : Option Nat) (nodes new : List DataNode) :
    instances list parent (nodes ++ new) = instances list parent nodes ++ instances list parent new :=
  List.filter_append ..

theorem instances_foreign (foreign : ∀ node ∈ new, Foreign list node) :
    instances list parent new = [] := by
  refine List.filter_eq_nil_iff.mpr fun node member => ?_
  intro isInstance
  simp only [Bool.and_eq_true, beq_iff_eq] at isInstance
  rw [(foreign node member).1 isInstance.1.1] at isInstance
  cases isInstance.2

theorem instances_other {other : Option Nat} (differs : node.parent ≠ other) :
    instances list other [node] = [] := by
  refine List.filter_eq_nil_iff.mpr fun only member => ?_
  obtain rfl := List.mem_singleton.mp member
  simp [differs]

theorem Sound.foreign (sound : Sound list shared order nodes)
    (foreign : ∀ node ∈ new, Foreign list node) : Sound list shared order (nodes ++ new) where
  keys := by
    intro parent
    rw [instances_append, instances_foreign foreign, List.append_nil]
    exact sound.keys parent
  labels := by
    intro isLocal parent
    rw [instances_append, instances_foreign foreign, List.append_nil]
    exact sound.labels isLocal parent
  refs := by
    intro node member isRef
    rcases List.mem_append.mp member with old | isNew
    · obtain ⟨other, inNodes, isInstance⟩ := sound.refs node old isRef
      exact ⟨other, List.mem_append_left _ inNodes, isInstance⟩
    · exact absurd isRef (foreign node isNew).2

/-- The next instance. -/
theorem Sound.instance_ (sound : Sound list shared order nodes) {label id : Nat}
    (ordered : shared = false →
      ((instances list parent nodes).filterMap DataNode.instanceLabel ++ [label]).Sublist order) :
    Sound list shared order (nodes ++ [⟨id, parent, list,
      some (.index ((instances list parent nodes).length + 1)), .instance_ label⟩]) := by
  have added : instances list parent [⟨id, parent, list,
      some (.index ((instances list parent nodes).length + 1)), .instance_ label⟩] =
      [⟨id, parent, list, some (.index ((instances list parent nodes).length + 1)),
        .instance_ label⟩] := by
    simp [instances, DataNode.instanceLabel]
  refine ⟨fun other => ?_, fun isLocal other => ?_, fun node member isRef => ?_⟩
  · rw [instances_append]
    by_cases same : other = parent
    · rw [same, added, List.map_append, sound.keys, List.length_append, List.length_singleton,
        List.range_succ, List.map_append]
      rfl
    · rw [instances_other (Ne.symm same), List.append_nil]
      exact sound.keys other
  · rw [instances_append]
    by_cases same : other = parent
    · rw [same, added, List.filterMap_append]
      exact ordered isLocal
    · rw [instances_other (Ne.symm same), List.append_nil]
      exact sound.labels isLocal other
  · rcases List.mem_append.mp member with old | isNew
    · obtain ⟨other, inNodes, isInstance⟩ := sound.refs node old isRef
      exact ⟨other, List.mem_append_left _ inNodes, isInstance⟩
    · rw [List.mem_singleton.mp isNew] at isRef
      cases isRef

/-- A reference to an instance. -/
theorem Sound.leafref (sound : Sound list shared order nodes) (isRef : node.origin = .leafref list)
    {other : DataNode} (member : other ∈ nodes) (isList : other.schema = list)
    (isInstance : other.instanceLabel.isSome) (same : other.value = node.value) :
    Sound list shared order (nodes ++ [node]) := by
  have noInstance : node.instanceLabel = none := by
    unfold DataNode.instanceLabel
    rw [isRef]
  have added (parent : Option Nat) : instances list parent [node] = [] := by
    refine List.filter_eq_nil_iff.mpr fun only inNode => ?_
    rw [List.mem_singleton.mp inNode]
    simp [noInstance]
  refine ⟨fun parent => ?_, fun isLocal parent => ?_, fun ref inNodes _ => ?_⟩
  · rw [instances_append, added, List.append_nil]
    exact sound.keys parent
  · rw [instances_append, added, List.append_nil]
    exact sound.labels isLocal parent
  · rcases List.mem_append.mp inNodes with old | isNew
    · rename_i refers
      obtain ⟨found, inFound, isFound⟩ := sound.refs ref old refers
      exact ⟨found, List.mem_append_left _ inFound, isFound⟩
    · rw [List.mem_singleton.mp isNew]
      exact ⟨other, List.mem_append_left _ member, isList, isInstance, same⟩

end Nodes

section Effect

/-- Nodes and their parents were created before. -/
def Tidy (state : LoadState) : Prop :=
  ∀ node ∈ state.nodes, node.id < state.fresh ∧ ∀ parent ∈ node.parent, parent < state.fresh

def Old (state : LoadState) (parent : Option Nat) : Prop := ∀ node ∈ parent, node < state.fresh

/-- The nodes of the frames were created before. -/
def OldFrames (frames : List Frame) (state : LoadState) : Prop :=
  ∀ frame ∈ frames, frame.node < state.fresh

/-- Parent of the instances of a list with shared counter that are being created. -/
def openAt (shared : Bool) (list : Nat) (frames : List Frame) : Option (Option Nat) :=
  if shared then (augdsAug2yangAugnodeLeafrefParent list frames).map fun found => parentOf found.2
  else none

/-- The counter is behind the instances. -/
def Counted (list : Nat) (parent : Option Nat) (state : LoadState) : Prop :=
  (instances list parent state.nodes).length + 1 = state.nextIdx list

/-- What a step under the frames can do to the instances of a list; `here` says that the list
is among the augnodes of the step. -/
structure Effect (list : Nat) (shared : Bool) (order : List Nat) (frames : List Frame)
    (here : Prop) (state final : LoadState) : Prop where
  tidy : Tidy final
  fresh : state.fresh ≤ final.fresh
  nodes : ∃ new, final.nodes = state.nodes ++ new ∧
    (new ≠ [] → ∃ node ∈ new, node.parent = parentOf frames)
  frame : ∀ parent, Old state parent → openAt shared list frames ≠ some parent →
    ¬(here ∧ parent = parentOf frames) →
    instances list parent final.nodes = instances list parent state.nodes
  sound : Sound list shared order state.nodes →
    (here → instances list (parentOf frames) state.nodes = []) →
    (∀ parent ∈ openAt shared list frames, Counted list parent state) →
    Sound list shared order final.nodes ∧
      ∀ parent ∈ openAt shared list frames, Counted list parent final
  idle : final.nodes = state.nodes → (openAt shared list frames).isSome →
    final.nextIdx list = state.nextIdx list

variable {list : Nat} {shared : Bool} {order : List Nat} {frames : List Frame} {here there : Prop}
  {state middle final : LoadState} {parent : Option Nat}

theorem OldFrames.mono (old : OldFrames frames state) (fresh : state.fresh ≤ final.fresh) :
    OldFrames frames final := fun frame member => (old frame member).trans_le fresh

theorem OldFrames.parentOf (old : OldFrames frames state) : Old state (parentOf frames) := by
  intro node isNode
  unfold Load.parentOf at isNode
  cases frames with
  | nil => cases isNode
  | cons frame frames =>
      obtain rfl := Option.some.inj isNode
      exact old frame List.mem_cons_self

theorem Old.mono (old : Old state parent) (fresh : state.fresh ≤ final.fresh) : Old final parent :=
  fun node isNode => (old node isNode).trans_le fresh

theorem Effect.refl (tidy : Tidy state) (here : Prop) :
    Effect list shared order frames here state state where
  tidy := tidy
  fresh := Nat.le_refl _
  nodes := ⟨[], (List.append_nil _).symm, fun nonempty => absurd rfl nonempty⟩
  frame := fun _ _ _ _ => rfl
  sound := fun sound _ counted => ⟨sound, counted⟩
  idle := fun _ _ => rfl

/-- Only nodes and counter matter. -/
theorem Effect.of_same (effect : Effect list shared order frames here state middle)
    (nodes : final.nodes = middle.nodes) (fresh : final.fresh = middle.fresh)
    (index : final.nextIdx list = middle.nextIdx list) :
    Effect list shared order frames here state final where
  tidy := by
    unfold Tidy
    rw [nodes, fresh]
    exact effect.tidy
  fresh := fresh ▸ effect.fresh
  nodes := nodes ▸ effect.nodes
  frame := nodes ▸ effect.frame
  sound := by
    unfold Counted
    rw [nodes, index]
    exact effect.sound
  idle := by
    rw [nodes, index]
    exact effect.idle

/-- Two steps one after the other; the list is not among the augnodes of both. -/
theorem Effect.trans (old : OldFrames frames state)
    (first : Effect list shared order frames here state middle)
    (second : Effect list shared order frames there middle final) (apart : ¬(here ∧ there))
    (closed : there → openAt shared list frames = none) :
    Effect list shared order frames (here ∨ there) state final where
  tidy := second.tidy
  fresh := first.fresh.trans second.fresh
  nodes := by
    obtain ⟨new, newNodes, child⟩ := first.nodes
    obtain ⟨more, moreNodes, moreChild⟩ := second.nodes
    refine ⟨new ++ more, by rw [moreNodes, newNodes, List.append_assoc], fun nonempty => ?_⟩
    by_cases nothing : new = []
    · rw [nothing, List.nil_append] at nonempty
      obtain ⟨node, member, isChild⟩ := moreChild nonempty
      exact ⟨node, List.mem_append_right _ member, isChild⟩
    · obtain ⟨node, member, isChild⟩ := child nothing
      exact ⟨node, List.mem_append_left _ member, isChild⟩
  frame := by
    intro parent isOld notOpen notHere
    rw [second.frame parent (isOld.mono first.fresh) notOpen fun both =>
      notHere ⟨Or.inr both.1, both.2⟩]
    exact first.frame parent isOld notOpen fun both => notHere ⟨Or.inl both.1, both.2⟩
  sound := by
    intro sound empty counted
    obtain ⟨soundMiddle, countedMiddle⟩ := first.sound sound (fun isHere => empty (Or.inl isHere))
      counted
    refine second.sound soundMiddle (fun isThere => ?_) countedMiddle
    rw [first.frame _ old.parentOf (by simp [closed isThere])
      fun both => apart ⟨both.1, isThere⟩]
    exact empty (Or.inr isThere)
  idle := by
    intro same isOpen
    obtain ⟨new, newNodes, -⟩ := first.nodes
    obtain ⟨more, moreNodes, -⟩ := second.nodes
    have nothing : new ++ more = [] := by
      rw [moreNodes, newNodes, List.append_assoc] at same
      exact List.append_right_eq_self.mp same
    obtain ⟨rfl, rfl⟩ := List.append_eq_nil_iff.mp nothing
    rw [List.append_nil] at newNodes moreNodes
    rw [second.idle moreNodes isOpen, first.idle newNodes isOpen]

/-- Nodes are created that the list has nothing to do with. -/
structure Neutral (list : Nat) (parent : Option Nat) (state final : LoadState) : Prop where
  tidy : Tidy final
  fresh : state.fresh ≤ final.fresh
  nodes : ∃ new, final.nodes = state.nodes ++ new ∧ (∀ node ∈ new, Foreign list node) ∧
    (new ≠ [] → ∃ node ∈ new, node.parent = parent)
  index : final.nextIdx list = state.nextIdx list

theorem Neutral.refl (tidy : Tidy state) : Neutral list parent state state :=
  ⟨tidy, Nat.le_refl _, ⟨[], (List.append_nil _).symm, fun _ member => absurd member List.not_mem_nil,
    fun nonempty => absurd rfl nonempty⟩, rfl⟩

theorem Neutral.instances (neutral : Neutral list parent state final) (other : Option Nat) :
    instances list other final.nodes = Load.instances list other state.nodes := by
  obtain ⟨new, nodes, foreign, -⟩ := neutral.nodes
  rw [nodes, instances_append, instances_foreign foreign, List.append_nil]

theorem Neutral.effect (neutral : Neutral list (parentOf frames) state final) (here : Prop) :
    Effect list shared order frames here state final where
  tidy := neutral.tidy
  fresh := neutral.fresh
  nodes := by
    obtain ⟨new, nodes, -, child⟩ := neutral.nodes
    exact ⟨new, nodes, child⟩
  frame := fun other _ _ _ => neutral.instances other
  sound := by
    intro sound _ counted
    refine ⟨?_, fun parent isOpen => ?_⟩
    · obtain ⟨new, nodes, foreign, -⟩ := neutral.nodes
      rw [nodes]
      exact sound.foreign foreign
    · unfold Counted
      rw [neutral.instances, neutral.index]
      exact counted parent isOpen
  idle := fun _ _ => neutral.index

theorem openAt_cons {frame : Frame} (closed : shared = true → frame.augnode.schema.id ≠ list) :
    openAt shared list (frame :: frames) = openAt shared list frames := by
  unfold openAt
  split
  · rename_i isShared
    rw [augdsAug2yangAugnodeLeafrefParent, if_neg (closed isShared)]
  · rfl

theorem instances_new (tidy : Tidy state) {node : Nat} (new : state.fresh ≤ node) :
    instances list (some node) state.nodes = [] := by
  refine List.filter_eq_nil_iff.mpr fun other member isInstance => ?_
  simp only [Bool.and_eq_true, beq_iff_eq] at isInstance
  have := (tidy other member).2 node isInstance.1.2
  omega

/-- A step under a new node. -/
theorem Effect.below {frame : Frame} (tidy : Tidy state)
    (neutral : Neutral list (parentOf frames) state middle)
    (created : middle.nodes ≠ state.nodes) (new : state.fresh ≤ frame.node)
    (closed : shared = true → frame.augnode.schema.id ≠ list)
    (child : Effect list shared order (frame :: frames) there middle final) :
    Effect list shared order frames here state final where
  tidy := child.tidy
  fresh := neutral.fresh.trans child.fresh
  nodes := by
    obtain ⟨added, nodes, -, isChild⟩ := neutral.nodes
    obtain ⟨more, moreNodes, -⟩ := child.nodes
    refine ⟨added ++ more, by rw [moreNodes, nodes, List.append_assoc], fun _ => ?_⟩
    obtain ⟨node, member, ofParent⟩ := isChild fun nothing =>
      created (by rw [nodes, nothing, List.append_nil])
    exact ⟨node, List.mem_append_left _ member, ofParent⟩
  frame := by
    intro parent isOld notOpen _
    have notNew : parent ≠ some frame.node := fun same => by
      have := isOld frame.node same
      omega
    rw [child.frame parent (isOld.mono neutral.fresh) (by rwa [openAt_cons closed])
      fun both => notNew both.2, neutral.instances]
  sound := by
    intro sound _ counted
    obtain ⟨soundMiddle, countedMiddle⟩ := (neutral.effect False).sound sound False.elim counted
    have ofChild := child.sound soundMiddle
      (fun _ => by
        change instances list (some frame.node) middle.nodes = []
        rw [neutral.instances]
        exact instances_new tidy new)
      (by rwa [openAt_cons closed])
    rwa [openAt_cons closed] at ofChild
  idle := by
    intro same _
    obtain ⟨added, nodes, -⟩ := neutral.nodes
    obtain ⟨more, moreNodes, -⟩ := child.nodes
    rw [moreNodes, nodes, List.append_assoc] at same
    have nothing := List.append_eq_nil_iff.mp (List.append_right_eq_self.mp same)
    rw [nothing.1, List.append_nil] at nodes
    exact absurd nodes created

end Effect

section Create

variable {libyang : Libyang} {list : Nat} {frames : List Frame} {state middle final : LoadState}
  {parent other : Option Nat} {schema : Nat} {value : Option Value} {origin : Origin}
  {node : Option Nat}

/-- The origin of a node of the schema node has nothing to do with the list. -/
def ForeignOrigin (list schema : Nat) (origin : Origin) : Prop :=
  (schema = list → ∀ label, origin ≠ .instance_ label) ∧ origin ≠ .leafref list

theorem ForeignOrigin.foreign (foreign : ForeignOrigin list schema origin) (id : Nat) :
    Foreign list ⟨id, parent, schema, value, origin⟩ := by
  refine ⟨fun isList => ?_, foreign.2⟩
  unfold DataNode.instanceLabel
  cases origin with
  | instance_ label => exact absurd rfl (foreign.1 isList label)
  | around => rfl
  | label id => rfl
  | leafref list => rfl

theorem foreign_around : ForeignOrigin list schema .around :=
  ⟨fun _ _ same => (by cases same), fun same => (by cases same)⟩

theorem foreign_label (label : Nat) : ForeignOrigin list schema (.label label) :=
  ⟨fun _ _ same => (by cases same), fun same => (by cases same)⟩

theorem foreign_instance (differs : schema ≠ list) (label : Nat) :
    ForeignOrigin list schema (.instance_ label) :=
  ⟨fun same => absurd same differs, fun same => (by cases same)⟩

theorem tidy_addNode (tidy : Tidy state) (old : Old state other) :
    Tidy (state.addNode other schema value origin) := by
  intro node member
  rcases List.mem_append.mp member with isOld | isNew
  · obtain ⟨id, parents⟩ := tidy node isOld
    exact ⟨Nat.lt_succ_of_lt id, fun parent isParent => Nat.lt_succ_of_lt (parents parent isParent)⟩
  · rw [List.mem_singleton.mp isNew]
    exact ⟨Nat.lt_succ_self _, fun parent isParent => Nat.lt_succ_of_lt (old parent isParent)⟩

/-- One more node, below the parent or behind a node that is. -/
theorem Neutral.add (neutral : Neutral list parent state middle) (old : Old middle other)
    (foreign : ForeignOrigin list schema origin)
    (anchored : middle.nodes ≠ state.nodes ∨ other = parent) :
    Neutral list parent state (middle.addNode other schema value origin) where
  tidy := tidy_addNode neutral.tidy old
  fresh := neutral.fresh.trans (Nat.le_succ _)
  nodes := by
    obtain ⟨new, nodes, allForeign, child⟩ := neutral.nodes
    refine ⟨new ++ [⟨middle.fresh, other, schema, value, origin⟩],
      by rw [LoadState.addNode, nodes, List.append_assoc], fun node member => ?_, fun _ => ?_⟩
    · rcases List.mem_append.mp member with inNew | isAdded
      · exact allForeign node inNew
      · rw [List.mem_singleton.mp isAdded]
        exact foreign.foreign _
    · rcases anchored with created | same
      · obtain ⟨node, member, isChild⟩ := child fun nothing =>
          created (by rw [nodes, nothing, List.append_nil])
        exact ⟨node, List.mem_append_left _ member, isChild⟩
      · exact ⟨_, List.mem_append_right _ (List.mem_singleton.mpr rfl), same⟩
  index := neutral.index

theorem addNode_ne (state : LoadState) :
    (state.addNode parent schema value origin).nodes ≠ state.nodes := by
  intro same
  have := congrArg List.length same
  simp [LoadState.addNode] at this

theorem neutral_createNode {schema : Schema} (tidy : Tidy state) (old : Old state parent)
    (foreign : ForeignOrigin list schema.id origin)
    (created : augdsAug2yangAugnodeCreateNode libyang schema value parent origin state =
      some (node, final)) :
    Neutral list parent state final ∧
      ∀ id ∈ node, id = state.fresh ∧ id < final.fresh ∧ final.nodes ≠ state.nodes := by
  rcases createNode_cases created with ⟨rfl, rfl, -⟩ | ⟨rfl, -, ⟨-, rfl⟩ | ⟨-, rfl⟩⟩
  · exact ⟨.refl tidy, fun _ isNode => by cases isNode⟩
  · have first := @Neutral.add list state state parent parent schema.id none origin
      (.refl tidy) old foreign (Or.inr rfl)
    cases value with
    | none =>
        refine ⟨first, fun id isNode => ?_⟩
        obtain rfl := Option.some.inj isNode
        exact ⟨rfl, Nat.lt_succ_self _, addNode_ne state⟩
    | some value =>
        refine ⟨first.add ?_ foreign_around (Or.inl (addNode_ne state)), fun id isNode => ?_⟩
        · intro id isNode
          obtain rfl := Option.some.inj isNode
          exact Nat.lt_succ_self _
        · obtain rfl := Option.some.inj isNode
          refine ⟨rfl, (Nat.lt_succ_self _).trans (Nat.lt_succ_self _), fun same => ?_⟩
          have := congrArg List.length same
          simp [addFirstChild, LoadState.addNode] at this
  · refine ⟨(Neutral.refl tidy).add old foreign (Or.inr rfl), fun id isNode => ?_⟩
    obtain rfl := Option.some.inj isNode
    exact ⟨rfl, Nat.lt_succ_self _, addNode_ne state⟩

theorem Neutral.trans (first : Neutral list parent state middle)
    (second : Neutral list parent middle final) : Neutral list parent state final where
  tidy := second.tidy
  fresh := first.fresh.trans second.fresh
  nodes := by
    obtain ⟨new, newNodes, foreign, child⟩ := first.nodes
    obtain ⟨more, moreNodes, moreForeign, moreChild⟩ := second.nodes
    refine ⟨new ++ more, by rw [moreNodes, newNodes, List.append_assoc], fun node member => ?_,
      fun nonempty => ?_⟩
    · exact (List.mem_append.mp member).elim (foreign node) (moreForeign node)
    · by_cases nothing : new = []
      · rw [nothing, List.nil_append] at nonempty
        obtain ⟨node, member, isChild⟩ := moreChild nonempty
        exact ⟨node, List.mem_append_right _ member, isChild⟩
      · obtain ⟨node, member, isChild⟩ := child nothing
        exact ⟨node, List.mem_append_left _ member, isChild⟩
  index := second.index.trans first.index

/-- Nodes behind one that was created below the parent. -/
theorem Neutral.behind (first : Neutral list parent state middle)
    (created : middle.nodes ≠ state.nodes) (second : Neutral list other middle final) :
    Neutral list parent state final where
  tidy := second.tidy
  fresh := first.fresh.trans second.fresh
  nodes := by
    obtain ⟨new, newNodes, foreign, child⟩ := first.nodes
    obtain ⟨more, moreNodes, moreForeign, -⟩ := second.nodes
    refine ⟨new ++ more, by rw [moreNodes, newNodes, List.append_assoc], fun node member => ?_,
      fun _ => ?_⟩
    · exact (List.mem_append.mp member).elim (foreign node) (moreForeign node)
    · obtain ⟨node, member, isChild⟩ := child fun nothing =>
        created (by rw [newNodes, nothing, List.append_nil])
      exact ⟨node, List.mem_append_left _ member, isChild⟩
  index := second.index.trans first.index

/-- The primary and the second node of a label. -/
theorem neutral_label {augnode : Augnode} {label : Label} {second : LoadState}
    (tidy : Tidy state) (old : OldFrames frames state)
    (created : augdsAug2yangAugnodeCreateNode libyang augnode.schema value (parentOf frames)
      (.label label.id) state = some (node, middle))
    (createdSecond : createSecond libyang augnode label frames node (middle.use augnode label) =
      some second) :
    Neutral list (parentOf frames) state second ∧
      ∀ id ∈ node, id = state.fresh ∧ id < second.fresh ∧ second.nodes ≠ state.nodes := by
  obtain ⟨first, isNew⟩ := neutral_createNode tidy old.parentOf (foreign_label label.id) created
  have used : Neutral list (parentOf frames) state (middle.use augnode label) :=
    ⟨first.tidy, first.fresh, first.nodes, first.index⟩
  unfold createSecond at createdSecond
  split at createdSecond
  · obtain ⟨⟨secondNode, _⟩, createdNode, rfl⟩ := Option.map_eq_some_iff.mp createdSecond
    split at createdNode
    · obtain ⟨more, -⟩ := neutral_createNode used.tidy
        (old.parentOf.mono used.fresh) foreign_around createdNode
      have both := used.trans more
      refine ⟨both, fun id isNode => ?_⟩
      obtain ⟨isFresh, below, differs⟩ := isNew id isNode
      refine ⟨isFresh, below.trans_le more.fresh, fun same => differs ?_⟩
      obtain ⟨new, newNodes, -⟩ := first.nodes
      obtain ⟨added, addedNodes, -⟩ := more.nodes
      rw [addedNodes, LoadState.use, newNodes, List.append_assoc] at same
      have nothing := List.append_eq_nil_iff.mp (List.append_right_eq_self.mp same)
      rw [newNodes, nothing.1, List.append_nil]
    · rename_i notTerm
      rcases createNode_cases created with ⟨-, -, term, -⟩ | ⟨rfl, -, -⟩
      · exact absurd term notTerm
      · obtain ⟨-, below, differs⟩ := isNew _ rfl
        obtain ⟨more, -⟩ := neutral_createNode used.tidy
          (fun id isNode => by obtain rfl := Option.some.inj isNode; exact below)
          foreign_around createdNode
        refine ⟨used.behind differs more, fun id isNode => ?_⟩
        obtain rfl := Option.some.inj isNode
        refine ⟨rfl, below.trans_le more.fresh, fun same => differs ?_⟩
        obtain ⟨new, newNodes, -⟩ := first.nodes
        obtain ⟨added, addedNodes, -⟩ := more.nodes
        rw [addedNodes, LoadState.use, newNodes, List.append_assoc] at same
        have nothing := List.append_eq_nil_iff.mp (List.append_right_eq_self.mp same)
        rw [newNodes, nothing.1, List.append_nil]
  · obtain rfl := Option.some.inj createdSecond
    exact ⟨used, isNew⟩

end Create

/-- A list without Augeas data of its own; no leafref below a list with shared counter leads to
a list above it. -/
structure ImplicitList (top : Forest Augnode) (own : Augnode) (children : Forest Augnode)
    (shared : Bool) : Prop where
  member : (own, children) ∈ subtrees top
  noPath : own.dataPath = none
  isList : own.schema.nodetype = .list
  hasParent : own.schema.hasParent = true
  key : own.schema.key = if shared then .rId else .id
  direct : shared = true → ∀ leafref ∈ children.labels, ∀ target ∈ leafref.schema.leafref,
    ∀ outer outerChildren, (outer, outerChildren) ∈ subtrees top → outer.schema.id = target →
      outer.schema.nodetype = .list → outer.schema.key = .rId → own ∉ outerChildren.labels

section Place

variable {top augnodes children rest ownChildren : Forest Augnode} {own augnode : Augnode}
  {shared : Bool} {frames front outer : List Frame} {frame : Frame}

theorem ImplicitList.eq (implicit : ImplicitList top own ownChildren shared)
    (distinct : (augnodeIds top).Nodup) (path : Path top frames (.cons augnode children rest))
    (same : augnode.schema.id = own.schema.id) : augnode = own ∧ children = ownChildren :=
  eq_of_mem_subtrees distinct path.mem_subtrees implicit.member same

/-- Inside of the list it does not come up again. -/
theorem ImplicitList.closed (implicit : ImplicitList top own ownChildren shared)
    (distinct : (augnodeIds top).Nodup) (path : Path top frames augnodes)
    (member : own.schema.id ∈ augnodeIds augnodes) :
    openAt shared own.schema.id frames = none := by
  unfold openAt
  split
  · cases found : augdsAug2yangAugnodeLeafrefParent own.schema.id frames with
    | none => rfl
    | some place =>
        obtain ⟨frame, outer⟩ := place
        obtain ⟨front, rfl, same, -⟩ := exists_of_leafrefParent found
        obtain ⟨rest, above⟩ := path.stands
        have nodup := above.distinct distinct
        rw [augnodeIds, Forest.labels_cons, List.map_cons, List.nodup_cons] at nodup
        refine absurd ?_ nodup.1
        rw [same, List.map_append]
        refine List.mem_append_left _ ?_
        obtain ⟨inside, isInside, insideSame⟩ := List.mem_map.mp member
        rw [← insideSame]
        exact List.mem_map_of_mem (f := fun node : Augnode => node.schema.id)
          (path.subset (List.mem_append_right front List.mem_cons_self) isInside)
  · rfl

/-- A leafref to another list stays inside of the list. -/
theorem ImplicitList.jump (implicit : ImplicitList top own ownChildren shared)
    (distinct : (augnodeIds top).Nodup)
    (path : Path top (front ++ frame :: outer) (.cons augnode children rest))
    (target : augnode.schema.leafref = some frame.augnode.schema.id)
    (isList : frame.augnode.schema.nodetype = .list) (recursive : frame.augnode.schema.key = .rId)
    (differs : frame.augnode.schema.id ≠ own.schema.id) (node : Nat) :
    openAt shared own.schema.id ({ frame with node := node } :: outer) =
      openAt shared own.schema.id (front ++ frame :: outer) := by
  have closed : shared = true →
      ({ frame with node := node } : Frame).augnode.schema.id ≠ own.schema.id := fun _ => differs
  rw [openAt_cons closed]
  unfold openAt
  split
  · rename_i isShared
    congr 1
    cases found : augdsAug2yangAugnodeLeafrefParent own.schema.id front with
    | none =>
        have others : ∀ other ∈ front ++ [frame], other.augnode.schema.id ≠ own.schema.id := by
          intro other member
          rcases List.mem_append.mp member with inFront | isFrame
          · exact ne_of_leafrefParent found inFront
          · rw [List.mem_singleton.mp isFrame]
            exact differs
        have split : front ++ frame :: outer = (front ++ [frame]) ++ outer := by simp
        rw [split, leafrefParent_append others]
    | some place =>
        -- the list would be inside of the frame that the leafref leads to
        obtain ⟨inner, between⟩ := place
        obtain ⟨before, rfl, same, -⟩ := exists_of_leafrefParent found
        have toInner : before ++ inner :: between ++ frame :: outer =
            before ++ inner :: (between ++ frame :: outer) := by simp
        rw [toInner] at path
        obtain ⟨innerRest, aboveInner⟩ := path.stands
        obtain ⟨isSelf, isChildren⟩ := implicit.eq distinct aboveInner same
        have leafrefInside : augnode ∈ ownChildren.labels := by
          rw [← isChildren]
          refine path.subset (List.mem_append_right before List.mem_cons_self) ?_
          rw [Forest.labels_cons]
          exact List.mem_cons_self
        have selfInside : own ∈ frame.children.labels := by
          refine aboveInner.subset (List.mem_append_right between List.mem_cons_self) ?_
          rw [Forest.labels_cons, isSelf]
          exact List.mem_cons_self
        obtain ⟨frameRest, aboveFrame⟩ := aboveInner.stands
        exact absurd selfInside (implicit.direct isShared augnode leafrefInside _ target
          frame.augnode frame.children aboveFrame.mem_subtrees rfl isList recursive)
  · rfl

end Place

end SysrepoAugeas.Load
