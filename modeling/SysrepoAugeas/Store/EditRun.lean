import SysrepoAugeas.Store.Agree

/-!
# Runs of insertions, deletions and renamings

Whatever order the edits come in, YANG and Augeas agree after every one of
them.  The paths of sequential nodes carry no index, so their labels must not
repeat.
-/

namespace SysrepoAugeas.Store

variable {T : Type}

/-- What an insertion, a deletion or a renaming presupposes of the list. -/
def DiffOp.Edits (data : List (Entry T)) : DiffOp T → Prop
  | .insert entry keyMeta =>
      entry.id ∉ data.map Entry.id ∧
        ∀ key, keyMeta = .after key → key ∈ data.map Entry.id
  | .delete id => id ∈ data.map Entry.id
  | .rename id _ => ∃ entry ∈ data, entry.id = id ∧ entry.schema.type = .label
  | .move _ _ => False

instance (data : List (Entry T)) (op : DiffOp T) : Decidable (op.Edits data) :=
  match op with
  | .insert entry .absent =>
      decidable_of_iff (entry.id ∉ data.map Entry.id) (by simp [DiffOp.Edits])
  | .insert entry .first =>
      decidable_of_iff (entry.id ∉ data.map Entry.id) (by simp [DiffOp.Edits])
  | .insert entry (.after key) =>
      decidable_of_iff (entry.id ∉ data.map Entry.id ∧ key ∈ data.map Entry.id)
        (by simp [DiffOp.Edits])
  | .delete id => inferInstanceAs (Decidable (id ∈ data.map Entry.id))
  | .rename id _ =>
      inferInstanceAs (Decidable (∃ entry ∈ data, entry.id = id ∧ entry.schema.type = .label))
  | .move _ _ => isFalse id

/-- A sequence of edits such that every list on the way is `allowed`. -/
def EditRun (allowed : List (Entry T) → Prop) : List (Entry T) → List (DiffOp T) → Prop
  | data, [] => allowed data
  | data, op :: rest =>
      allowed data ∧ op.Edits data ∧
        ∀ next, augdsStoreDiffDataUpdate data op = some next → EditRun allowed next rest

instance decidableEditRun (allowed : List (Entry T) → Prop) [DecidablePred allowed] :
    (data : List (Entry T)) → (ops : List (DiffOp T)) → Decidable (EditRun allowed data ops)
  | data, [] => inferInstanceAs (Decidable (allowed data))
  | data, op :: rest =>
      have : Decidable (∀ next, augdsStoreDiffDataUpdate data op = some next →
          EditRun allowed next rest) :=
        match augdsStoreDiffDataUpdate data op with
        | none => isTrue (by simp)
        | some next =>
            have := decidableEditRun allowed next rest
            decidable_of_iff (EditRun allowed next rest) (by simp)
      inferInstanceAs (Decidable (allowed data ∧ op.Edits data ∧
        ∀ next, augdsStoreDiffDataUpdate data op = some next → EditRun allowed next rest))

theorem EditRun.allowed_start {allowed : List (Entry T) → Prop} {data : List (Entry T)}
    {ops : List (DiffOp T)} (run : EditRun allowed data ops) : allowed data := by
  cases ops with
  | nil => exact run
  | cons op rest => exact run.1

/-- The YANG list after a sequence of diff nodes. -/
def diffDataRun : List (Entry T) → List (DiffOp T) → Option (List (Entry T))
  | data, [] => some data
  | data, op :: rest => (augdsStoreDiffDataUpdate data op).bind fun next => diffDataRun next rest

/-- After every step the store has succeeded and Augeas equals the edited YANG list. -/
def AgreesThroughout (store : StoreState T) (ops : List (DiffOp T)) : Prop :=
  ∀ steps ≤ ops.length, ∃ reached,
    augdsStoreRun store (ops.take steps) = some reached ∧
      diffDataRun store.yang (ops.take steps) = some reached.yang ∧ Agree reached

/-- Lists in which labels name schema nodes and sequential labels do not repeat. -/
def Indexable (data : List (Entry T)) : Prop := Consistent data ∧ SequentialUnique data

instance (data : List (Entry T)) : Decidable (Indexable data) :=
  inferInstanceAs (Decidable (Consistent data ∧ SequentialUnique data))

/-- One edit of agreeing sequences gives agreeing sequences. -/
theorem augdsStoreDiff_agree {data : List (Entry T)} {op : DiffOp T}
    (edits : op.Edits data) (indexable : Indexable data)
    (indexableNext : ∀ next, augdsStoreDiffDataUpdate data op = some next → Indexable next) :
    ∃ next, augdsStoreDiffDataUpdate data op = some next ∧
      augdsStoreDiff ⟨data, data.map Entry.toAug⟩ op =
        some ⟨next, next.map Entry.toAug⟩ := by
  obtain ⟨consistent, unique⟩ := indexable
  cases op with
  | insert entry keyMeta =>
      obtain ⟨fresh, known⟩ := edits
      have keys : UniqueKeys (data ++ entry :: []) := by
        have shifted : UniqueKeys (entry :: data) := List.nodup_cons.mpr ⟨fresh, consistent.keys⟩
        exact shifted.of_perm (List.perm_append_singleton entry data)
      obtain ⟨front, back, others, placed⟩ :=
        placeInstance_split keys keyMeta (by simpa using known)
      rw [List.append_nil] at others
      have updated : augdsStoreDiffDataUpdate data (.insert entry keyMeta) =
          some (front ++ entry :: back) := placed
      obtain ⟨consistentNext, uniqueNext⟩ := indexableNext _ updated
      exact ⟨_, updated, augdsStoreDiff_insert updated others consistentNext uniqueNext⟩
  | delete id =>
      obtain ⟨front, entry, back, rfl, rfl⟩ := exists_split_of_mem_keys edits
      refine ⟨front ++ back, ?_, augdsStoreDiff_delete consistent unique⟩
      simp [augdsStoreDiffDataUpdate, consistent.keys.find_id, consistent.keys.eraseP_id]
  | rename id term =>
      obtain ⟨entry, membership, rfl, -⟩ := edits
      obtain ⟨front, back, rfl⟩ := List.append_of_mem membership
      have updated : augdsStoreDiffDataUpdate (front ++ entry :: back) (.rename entry.id term) =
          some (front ++ { entry with term := term } :: back) := by
        simp only [augdsStoreDiffDataUpdate, consistent.keys.find_id, Option.map_some,
          map_rename_split consistent.keys]
      exact ⟨_, updated, augdsStoreDiff_rename consistent unique (indexableNext _ updated).1⟩
  | move id keyMeta => exact False.elim edits

/-- Any sequence of insertions at any position, deletions and renamings of entries
keeps the Augeas siblings equal to the YANG list after every step. -/
theorem editRun_agreesThroughout {store : StoreState T} {ops : List (DiffOp T)}
    (agree : Agree store) (run : EditRun Indexable store.yang ops) :
    AgreesThroughout store ops := by
  induction ops generalizing store with
  | nil =>
      intro steps bound
      obtain rfl : steps = 0 := by simpa using bound
      exact ⟨store, rfl, rfl, agree⟩
  | cons op rest inductionHypothesis =>
      intro steps bound
      cases steps with
      | zero => exact ⟨store, rfl, rfl, agree⟩
      | succ steps =>
          obtain ⟨data, aug⟩ := store
          obtain rfl : aug = data.map Entry.toAug := agree
          obtain ⟨indexable, edits, runNext⟩ := run
          obtain ⟨next, updated, stored⟩ := augdsStoreDiff_agree edits indexable
            fun next updated => (runNext next updated).allowed_start
          obtain ⟨reached, reachedRun, reachedData, reachedAgree⟩ :=
            @inductionHypothesis ⟨next, next.map Entry.toAug⟩ rfl
              (runNext next updated) steps (by simpa using bound)
          refine ⟨reached, ?_, ?_, reachedAgree⟩
          · simp [augdsStoreRun, stored, reachedRun]
          · simp only [List.take_succ_cons, diffDataRun, updated, Option.bind_some]
            exact reachedData

/-- Lines of a file with repeated labels: a new first `nameserver`, one between the
others, a renamed variable and a deletion. -/
theorem editRun_agreesThroughout_repeatedLabels :
    let nameserver : SchemaNode := ⟨"nameserver", .value, "nameserver", false⟩
    let variable_ : SchemaNode := ⟨"variable", .label, "$$", false⟩
    let entry (id : Nat) (schema : SchemaNode) (term value : String) : Entry Unit :=
      ⟨id, schema, term, ⟨some value, []⟩⟩
    let data := [entry 1 nameserver "" "10.0.0.1", entry 2 variable_ "search" "x",
      entry 3 nameserver "" "10.0.0.3"]
    let ops := [.insert (entry 4 nameserver "" "10.0.0.4") .first,
      .insert (entry 5 nameserver "" "10.0.0.5") (.after 2), .rename 2 "domain", .delete 1]
    AgreesThroughout ⟨data, data.map Entry.toAug⟩ ops ∧
      diffDataRun data ops =
        some [entry 4 nameserver "" "10.0.0.4", entry 2 variable_ "domain" "x",
          entry 5 nameserver "" "10.0.0.5", entry 3 nameserver "" "10.0.0.3"] :=
  ⟨editRun_agreesThroughout rfl (by decide), by decide⟩

/-- A second record with the label of a sequential one gets a path that matches both. -/
theorem editRun_repeatedSequential_fails :
    ¬ ∀ (store : StoreState Unit) (ops : List (DiffOp Unit)), Agree store →
      EditRun Consistent store.yang ops → AgreesThroughout store ops := by
  intro holds
  let record (id : Nat) : Entry Unit :=
    ⟨id, ⟨"record-svc", .label, "$$", true⟩, "1", ⟨none, []⟩⟩
  obtain ⟨reached, stored, -⟩ := holds ⟨[record 1], [record 1].map Entry.toAug⟩
    [.insert (record 2) (.after 1)] rfl (by decide) 1 (by decide)
  have failed : augdsStoreRun ⟨[record 1], [record 1].map Entry.toAug⟩
      [.insert (record 2) (.after 1)] = none := by decide
  simp only [List.take_succ_cons, List.take_nil] at stored
  rw [failed] at stored
  cases stored

end SysrepoAugeas.Store
