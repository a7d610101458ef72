import SysrepoAugeas.Label.Emit

/-!
# The buffer for a prepared path

`augds_store_diff_apply_prepare_path` with the memory it works on.  The cells
of an allocation hold whatever the allocator left in them.  `none` stands for
an access outside of the size that was last passed to `malloc` or `realloc`.
-/

namespace SysrepoAugeas.Label

open SysrepoAugeas.Data

section Memory

def nul : Char := Char.ofNat 0

/-- What the cells of the n-th allocation hold before they are written. -/
abbrev Allocator := Nat → Nat → Char

def malloc (allocator : Allocator) (allocation size : Nat) : Text :=
  (List.range size).map (allocator allocation)

/-- The cells up to the smaller of both sizes are kept. -/
def realloc (allocator : Allocator) (allocation size : Nat) (cells : Text) : Text :=
  cells.take size ++ ((List.range size).map (allocator allocation)).drop cells.length

/-- Position of the terminator; without one the access leaves the buffer. -/
def strlen (cells : Text) : Option Nat := cells.findIdx? (· = nul)

/-- Write a text at a position. -/
def store (position : Nat) (text cells : Text) : Option Text :=
  if position + text.length ≤ cells.length then
    some (cells.take position ++ text ++ cells.drop (position + text.length))
  else none

end Memory

/-- Local variables of `augds_store_diff_apply_prepare_path`. -/
structure Preparation where
  pathD : Option Text
  j : Nat
  allocations : Nat

/-- Case `','` of the loop. -/
def Preparation.encodeChar (allocator : Allocator) (augPath : Text) (i : Nat)
    (state : Preparation) : Option Preparation :=
  (if state.j = 0 then some (malloc allocator state.allocations (augPath.length + 2))
    else state.pathD.bind fun cells => (strlen cells).map fun len =>
      realloc allocator state.allocations (len + 2) cells).bind fun cells =>
  -- copy path start
  (if state.j = 0 ∧ i ≠ 0 then (store 0 (augPath.take i) cells).map (·, i)
    else some (cells, state.j)).bind fun (cells, j) =>
  (store j ['\\', ','] cells).map fun cells => ⟨some cells, j + 2, state.allocations + 1⟩

/-- Other characters are copied as soon as there is a buffer. -/
def Preparation.copyChar (char : Char) (state : Preparation) : Option Preparation :=
  if state.j = 0 then some state
  else
    state.pathD.bind fun cells => (store state.j [char] cells).map fun cells =>
      { state with pathD := some cells, j := state.j + 1 }

def Preparation.loop (allocator : Allocator) (augPath : Text) :
    Nat → Text → Preparation → Option Preparation
  | _, [], state => some state
  | i, char :: rest, state =>
      (if char = ',' then state.encodeChar allocator augPath i else state.copyChar char).bind
        (loop allocator augPath (i + 1) rest)

/-- Terminate the buffer and read it as a string. -/
def Preparation.finish (augPath : Text) (state : Preparation) : Option Text :=
  match state.pathD with
  | some cells => (store state.j [nul] cells).map (·.takeWhile (· ≠ nul))
  | none => some augPath

/-- The context before the path. -/
def Preparation.begin (allocator : Allocator) (context augPath : Text) : Option Preparation :=
  if needsContext augPath then
    (store 0 (context ++ ['/', nul])
      (malloc allocator 0 (context.length + 1 + augPath.length + 1))).map fun cells =>
        ⟨some cells, context.length + 1, 1⟩
  else some ⟨none, 0, 0⟩

/-- `augds_store_diff_apply_prepare_path` with its memory. -/
def augdsStoreDiffApplyPreparePathMem (allocator : Allocator) (context augPath : Text) :
    Option Text :=
  (Preparation.begin allocator context augPath).bind fun state =>
    (state.loop allocator augPath 0 augPath).bind (Preparation.finish augPath)

section Memory

theorem store_middle (front old : Text) {text : Text} (back : Text)
    (lengths : old.length = text.length) :
    store front.length text (front ++ (old ++ back)) = some (front ++ (text ++ back)) := by
  rw [store, if_pos (by simp only [List.length_append]; omega), ← lengths,
    List.take_left' rfl, ← List.append_assoc front old back,
    List.drop_left' (by rw [List.length_append]), List.append_assoc]

theorem store_full (cells : Text) (char : Char) (rest : Text) :
    store cells.length (char :: rest) cells = none := by
  rw [store, if_neg (by simp)]

theorem strlen_open {text : Text} (clean : nul ∉ text) : strlen text = none := by
  rw [strlen, List.findIdx?_eq_none_iff]
  intro char membership
  have : char ≠ nul := fun equality => clean (equality ▸ membership)
  simpa using this

theorem strlen_terminated {text : Text} (back : Text) (clean : nul ∉ text) :
    strlen (text ++ nul :: back) = some text.length := by
  rw [strlen, List.findIdx?_append, ← strlen, strlen_open clean, List.findIdx?_cons]
  simp

theorem length_malloc (allocator : Allocator) (allocation size : Nat) :
    (malloc allocator allocation size).length = size := by
  simp [malloc]

/-- A buffer with the given text at its front. -/
theorem store_front {text cells : Text} (fits : text.length ≤ cells.length) :
    store 0 text cells = some (text ++ cells.drop text.length) := by
  rw [store, if_pos (by omega)]
  simp

end Memory

section Loop

variable {allocator : Allocator} {augPath : Text}

/-- Before the first comma nothing happens. -/
theorem loop_unallocated {front : Text} (noComma : ',' ∉ front) (rest : Text) : (i : Nat) →
    Preparation.loop allocator augPath i (front ++ rest) ⟨none, 0, 0⟩ =
      Preparation.loop allocator augPath (i + front.length) rest ⟨none, 0, 0⟩ := by
  induction front with
  | nil => simp
  | cons char front inductionHypothesis =>
      intro i
      have notComma : char ≠ ',' := fun equality => noComma (equality ▸ List.mem_cons_self)
      have noMore : ',' ∉ front := fun membership => noComma (List.mem_cons_of_mem _ membership)
      rw [List.cons_append, Preparation.loop, if_neg notComma, Preparation.copyChar, if_pos rfl,
        Option.bind_some, inductionHypothesis noMore, List.length_cons, Nat.add_assoc,
        Nat.add_comm 1]

theorem copyChar_eq {text : Text} (char other : Char) (spare : Text) (allocations : Nat)
    (begun : text ≠ []) :
    Preparation.copyChar char ⟨some (text ++ other :: spare), text.length, allocations⟩ =
      some ⟨some (text ++ [char] ++ spare), (text ++ [char]).length, allocations⟩ := by
  have stored : store text.length [char] (text ++ ([other] ++ spare)) = _ :=
    store_middle text [other] spare rfl
  rw [List.singleton_append, List.singleton_append] at stored
  rw [Preparation.copyChar, if_neg (by simpa using begun)]
  simp only [Option.bind_some]
  rw [stored]
  simp

/-- Text without commas is copied behind the one that is there. -/
theorem loop_copies {rest : Text} (noComma : ',' ∉ rest) (allocations : Nat) :
    (i : Nat) → (text spare : Text) → text ≠ [] → rest.length ≤ spare.length →
    Preparation.loop allocator augPath i rest ⟨some (text ++ spare), text.length, allocations⟩ =
      some ⟨some (text ++ rest ++ spare.drop rest.length), (text ++ rest).length, allocations⟩ := by
  induction rest with
  | nil => simp [Preparation.loop]
  | cons char rest inductionHypothesis =>
      intro i text spare begun fits
      have notComma : char ≠ ',' := fun equality => noComma (equality ▸ List.mem_cons_self)
      have noMore : ',' ∉ rest := fun membership => noComma (List.mem_cons_of_mem _ membership)
      cases spare with
      | nil => simp at fits
      | cons other spare =>
          rw [Preparation.loop, if_neg notComma, copyChar_eq char other spare allocations begun,
            Option.bind_some, inductionHypothesis noMore (i + 1) (text ++ [char]) spare (by simp)
              (by simpa using fits)]
          simp

/-- The first comma allocates the buffer. -/
theorem encodeChar_first (front back : Text) :
    Preparation.encodeChar allocator (front ++ ',' :: back) front.length ⟨none, 0, 0⟩ =
      some ⟨some (front ++ ['\\', ','] ++
        (malloc allocator 0 ((front ++ ',' :: back).length + 2)).drop (front.length + 2)),
        (front ++ ['\\', ',']).length, 1⟩ := by
  have size := length_malloc allocator 0 ((front ++ ',' :: back).length + 2)
  rw [Preparation.encodeChar, if_pos rfl, Option.bind_some]
  generalize malloc allocator 0 ((front ++ ',' :: back).length + 2) = cells at size
  rw [List.length_append, List.length_cons] at size
  have copied : (if 0 = 0 ∧ front.length ≠ 0 then
      (store 0 ((front ++ ',' :: back).take front.length) cells).map (·, front.length)
        else some (cells, 0)) = some (front ++ cells.drop front.length, front.length) := by
    rw [List.take_left' rfl, store_front (by omega)]
    split
    · rfl
    · rename_i empty
      have : front = [] := by simpa using empty
      simp [this]
  refine (congrArg (Option.bind · _) copied).trans ?_
  obtain ⟨first, second, spare, split⟩ : ∃ first second spare,
      cells.drop front.length = first :: second :: spare := by
    match tailEq : cells.drop front.length with
    | [] | [_] =>
        have := congrArg List.length tailEq
        simp only [List.length_drop, List.length_cons, List.length_nil] at this
        omega
    | first :: second :: spare => exact ⟨first, second, spare, rfl⟩
  have stored : store front.length ['\\', ','] (front ++ ([first, second] ++ spare)) = _ :=
    store_middle front [first, second] spare rfl
  simp only [split, Option.bind_some]
  rw [show first :: second :: spare = [first, second] ++ spare from rfl, stored, ← List.drop_drop,
    split]
  simp

theorem finish_eq {text : Text} (clean : nul ∉ text) (other : Char) (spare : Text)
    (allocations : Nat) :
    Preparation.finish augPath ⟨some (text ++ other :: spare), text.length, allocations⟩ =
      some text := by
  have stored : store text.length [nul] (text ++ ([other] ++ spare)) = _ :=
    store_middle text [other] spare rfl
  rw [List.singleton_append, List.singleton_append] at stored
  have before : ∀ char ∈ text, decide (char ≠ nul) = true := by
    intro char membership
    have : char ≠ nul := fun equality => clean (equality ▸ membership)
    simpa using this
  rw [Preparation.finish]
  simp only
  rw [stored, Option.map_some, List.takeWhile_append_of_pos before,
    List.takeWhile_cons_of_neg (by simp), List.append_nil]

end Loop

section Zeros

/-! An allocator that clears its memory: the terminator seems to stand right behind the text,
and a second allocation is too small. -/

variable {augPath : Text}

def zeros : Allocator := fun _ _ => nul

theorem malloc_zeros (allocation size : Nat) :
    malloc zeros allocation size = List.replicate size nul := by
  rw [malloc, show zeros allocation = fun _ => nul from rfl, List.map_const', List.length_range]

/-- Without room for the next character the loop does not get to its end. -/
theorem loop_full {text : Text} (clean : nul ∉ text) (begun : text ≠ []) (i : Nat) (rest : Text)
    (allocations : Nat) :
    (Preparation.loop zeros augPath i rest ⟨some text, text.length, allocations⟩).bind
      (Preparation.finish augPath) = none := by
  have notZero : text.length ≠ 0 := by simpa using begun
  cases rest with
  | nil =>
      rw [Preparation.loop, Option.bind_some, Preparation.finish]
      simp only
      rw [store_full, Option.map_none]
  | cons char rest =>
      rw [Preparation.loop]
      split
      · rw [Preparation.encodeChar, if_neg notZero, Option.bind_some, strlen_open clean]
        rfl
      · rw [Preparation.copyChar, if_neg notZero, Option.bind_some, store_full]
        rfl

theorem realloc_zeros {text : Text} (room allocation : Nat) :
    realloc zeros allocation (text.length + 2) (text ++ List.replicate (room + 2) nul) =
      text ++ [nul, nul] := by
  rw [realloc, List.take_append, List.take_of_length_le (by omega), Nat.add_sub_cancel_left,
    List.take_replicate, Nat.min_eq_left (by omega), List.drop_of_length_le (by simp)]
  simp

/-- A comma after the buffer is allocated. -/
theorem loop_again (allocations : Nat) (rest : Text) : (i room : Nat) → (text : Text) →
    nul ∉ text → nul ∉ rest → text ≠ [] → ',' ∈ rest →
    (Preparation.loop zeros augPath i rest
      ⟨some (text ++ List.replicate (rest.length + 1 + room) nul), text.length, allocations⟩).bind
        (Preparation.finish augPath) = none := by
  induction rest with
  | nil => simp
  | cons char rest inductionHypothesis =>
      intro i room text clean cleanRest begun comma
      have notZero : text.length ≠ 0 := by simpa using begun
      have spareEq : (char :: rest).length + 1 + room = rest.length + room + 2 := by
        rw [List.length_cons]
        omega
      rw [Preparation.loop, spareEq]
      by_cases isComma : char = ','
      · have measured : strlen (text ++ List.replicate (rest.length + room + 2) nul) =
            some text.length := by
          rw [List.replicate_succ, strlen_terminated _ clean]
        have stored : store text.length ['\\', ','] (text ++ ([nul, nul] ++ [])) = _ :=
          store_middle text [nul, nul] [] rfl
        rw [List.append_nil, List.append_nil] at stored
        rw [if_pos isComma, Preparation.encodeChar, if_neg notZero, Option.bind_some, measured,
          Option.map_some, Option.bind_some, if_neg (fun both => notZero both.1), Option.bind_some,
          realloc_zeros]
        simp only
        rw [stored, Option.map_some, Option.bind_some]
        have cleanMarked : nul ∉ text ++ ['\\', ','] := by
          rw [List.mem_append, not_or]
          exact ⟨clean, by decide⟩
        have full := @loop_full augPath _ cleanMarked (by simp) (i + 1) rest (allocations + 1)
        rw [List.length_append] at full
        exact full
      · rw [if_neg isComma, List.replicate_succ, copyChar_eq _ _ _ _ begun, Option.bind_some]
        have inRest : ',' ∈ rest := by
          rcases List.mem_cons.mp comma with equality | inRest
          · exact absurd equality.symm isComma
          · exact inRest
        have next := inductionHypothesis (i + 1) room (text ++ [char])
          (by
            rw [List.mem_append, List.mem_singleton]
            rintro (inText | rfl)
            · exact clean inText
            · exact cleanRest List.mem_cons_self)
          (fun membership => cleanRest (List.mem_cons_of_mem _ membership)) (by simp) inRest
        rw [show rest.length + room + 1 = rest.length + 1 + room by omega]
        exact next

end Zeros

section Exact

variable {context augPath : Text}

theorem prepare_behind_context (allocator : Allocator) (cleanContext : nul ∉ context)
    (cleanPath : nul ∉ augPath) (needs : needsContext augPath = true) (noComma : ',' ∉ augPath) :
    augdsStoreDiffApplyPreparePathMem allocator context augPath =
      some (context ++ ['/'] ++ augPath) := by
  have size := length_malloc allocator 0 (context.length + 1 + augPath.length + 1)
  rw [augdsStoreDiffApplyPreparePathMem, Preparation.begin, if_pos needs]
  generalize malloc allocator 0 (context.length + 1 + augPath.length + 1) = cells at size
  have regroup (spare : Text) : context ++ ['/', nul] ++ spare = context ++ ['/'] ++ nul :: spare := by
    simp
  rw [store_front (by simp only [List.length_append, List.length_cons, List.length_nil]; omega),
    Option.map_some, Option.bind_some, regroup,
    show context.length + 1 = (context ++ ['/']).length by simp,
    loop_copies noComma 1 0 _ _ (by simp) (by
      simp only [List.length_cons, List.length_drop, List.length_append, List.length_nil]
      omega), Option.bind_some]
  obtain ⟨other, spare, spareEq⟩ : ∃ other spare,
      (nul :: cells.drop (context ++ ['/', nul]).length).drop augPath.length = other :: spare := by
    refine List.exists_cons_of_ne_nil (List.ne_nil_of_length_pos ?_)
    simp only [List.length_cons, List.length_drop, List.length_append, List.length_nil]
    omega
  rw [spareEq, finish_eq]
  simp only [List.mem_append, List.mem_singleton, not_or]
  exact ⟨⟨cleanContext, by decide⟩, cleanPath⟩

theorem prepare_one_comma (allocator : Allocator) {front back : Text}
    (cleanFront : nul ∉ front) (cleanBack : nul ∉ back)
    (plain : needsContext (front ++ ',' :: back) = false) (noComma : ',' ∉ front)
    (noMore : ',' ∉ back) :
    augdsStoreDiffApplyPreparePathMem allocator context (front ++ ',' :: back) =
      some (front ++ ['\\', ','] ++ back) := by
  have size := length_malloc allocator 0 ((front ++ ',' :: back).length + 2)
  rw [augdsStoreDiffApplyPreparePathMem, Preparation.begin, if_neg (by simp [plain]),
    Option.bind_some, loop_unallocated noComma, Nat.zero_add, Preparation.loop, if_pos rfl,
    encodeChar_first, Option.bind_some]
  generalize malloc allocator 0 ((front ++ ',' :: back).length + 2) = cells at size
  rw [List.length_append, List.length_cons] at size
  rw [loop_copies noMore 1 _ _ _ (by simp) (by rw [List.length_drop]; omega), Option.bind_some]
  obtain ⟨other, spare, spareEq⟩ : ∃ other spare,
      (cells.drop (front.length + 2)).drop back.length = other :: spare := by
    refine List.exists_cons_of_ne_nil (List.ne_nil_of_length_pos ?_)
    simp only [List.length_drop]
    omega
  rw [spareEq, finish_eq]
  simp only [List.mem_append, not_or]
  exact ⟨⟨cleanFront, by decide⟩, cleanBack⟩

theorem prepare_zeros_context (cleanContext : nul ∉ context) (cleanPath : nul ∉ augPath)
    (needs : needsContext augPath = true) (comma : ',' ∈ augPath) :
    augdsStoreDiffApplyPreparePathMem zeros context augPath = none := by
  have again := @loop_again augPath 1 augPath 0 0 (context ++ ['/'])
    (by simp only [List.mem_append, not_or]; exact ⟨cleanContext, by decide⟩) cleanPath (by simp)
    comma
  rw [augdsStoreDiffApplyPreparePathMem, Preparation.begin, if_pos needs, malloc_zeros,
    store_front (by simp only [List.length_append, List.length_cons, List.length_nil,
      List.length_replicate]; omega), Option.map_some, Option.bind_some, List.drop_replicate]
  have cells : context ++ ['/', nul] ++ List.replicate
      (context.length + 1 + augPath.length + 1 - (context ++ ['/', nul]).length) nul =
        context ++ ['/'] ++ List.replicate (augPath.length + 1 + 0) nul := by
    have rest : context.length + 1 + augPath.length + 1 - (context ++ ['/', nul]).length =
        augPath.length := by
      simp only [List.length_append, List.length_cons, List.length_nil]
      omega
    rw [rest, Nat.add_zero, List.replicate_succ]
    simp
  rw [cells, show context.length + 1 = (context ++ ['/']).length by simp]
  exact again

theorem prepare_zeros_again {front back : Text} (cleanFront : nul ∉ front) (cleanBack : nul ∉ back)
    (plain : needsContext (front ++ ',' :: back) = false) (noComma : ',' ∉ front)
    (comma : ',' ∈ back) :
    augdsStoreDiffApplyPreparePathMem zeros context (front ++ ',' :: back) = none := by
  have again := @loop_again (front ++ ',' :: back) 1 back (front.length + 1) 0
    (front ++ ['\\', ',']) (by simp only [List.mem_append, not_or]; exact ⟨cleanFront, by decide⟩)
    cleanBack (by simp) comma
  rw [augdsStoreDiffApplyPreparePathMem, Preparation.begin, if_neg (by simp [plain]),
    Option.bind_some, loop_unallocated noComma, Nat.zero_add, Preparation.loop, if_pos rfl,
    encodeChar_first, Option.bind_some, malloc_zeros, List.drop_replicate,
    show (front ++ ',' :: back).length + 2 - (front.length + 2) = back.length + 1 + 0 by
      rw [List.length_append, List.length_cons]; omega]
  exact again

end Exact

/-- Strings have no terminator inside. -/
abbrev CText := { text : Text // nul ∉ text }

theorem augdsStoreDiffApplyPreparePathMem_eq {context augPath : Text} (cleanContext : nul ∉ context)
    (cleanPath : nul ∉ augPath)
    (few : augPath.count ',' ≤ if needsContext augPath then 0 else 1) (allocator : Allocator) :
    augdsStoreDiffApplyPreparePathMem allocator context augPath =
      some (contextPrefix context augPath ++ Escape.writeName '\\' isComma augPath) := by
  rw [contextPrefix]
  by_cases needs : needsContext augPath = true
  · rw [if_pos needs, Nat.le_zero] at few
    rw [if_pos needs, prepare_behind_context allocator cleanContext cleanPath needs
      (List.count_eq_zero.mp few), writeName_isComma few]
  · rw [if_neg needs] at few ⊢
    rw [List.nil_append]
    by_cases comma : ',' ∈ augPath
    · obtain ⟨front, back, rfl, noComma⟩ := List.eq_append_cons_of_mem comma
      have cleanFront : nul ∉ front := fun membership => cleanPath (by simp [membership])
      have cleanBack : nul ∉ back := fun membership => cleanPath (by simp [membership])
      rw [List.count_append, List.count_cons_self] at few
      have noMore : back.count ',' = 0 := by omega
      rw [prepare_one_comma allocator cleanFront cleanBack (by simpa using needs) noComma
        (List.count_eq_zero.mp noMore), Escape.writeName_append,
        writeName_isComma (List.count_eq_zero.mpr noComma), Escape.writeName,
        if_pos (by simp [isComma]), writeName_isComma noMore]
      simp
    · have idle := @loop_unallocated allocator augPath _ comma [] 0
      rw [List.append_nil] at idle
      rw [augdsStoreDiffApplyPreparePathMem, Preparation.begin, if_neg needs, Option.bind_some,
        idle, writeName_isComma (List.count_eq_zero.mpr comma)]
      rfl

/-- Where the function without memory has a result, the one with memory has the same. -/
theorem augdsStoreDiffApplyPreparePath_refines (context augPath : CText) {prepared : Text}
    (found : augdsStoreDiffApplyPreparePath context augPath = some prepared) (allocator : Allocator) :
    augdsStoreDiffApplyPreparePathMem allocator context augPath = some prepared := by
  rw [augdsStoreDiffApplyPreparePath_eq] at found
  by_cases few : augPath.1.count ',' ≤ if needsContext augPath.1 then 0 else 1
  · rw [if_pos few] at found
    rw [augdsStoreDiffApplyPreparePathMem_eq context.2 augPath.2 few, found]
  · rw [if_neg few] at found
    cases found

/-- Whatever memory it gets, the function returns the path with its commas escaped and stays
inside its buffer, exactly if it has to allocate once at most. -/
theorem augdsStoreDiffApplyPreparePathMem_iff (context augPath : CText) :
    (∀ allocator, augdsStoreDiffApplyPreparePathMem allocator context augPath =
      some (contextPrefix context augPath ++ Escape.writeName '\\' isComma augPath)) ↔
      augPath.1.count ',' ≤ if needsContext augPath then 0 else 1 := by
  obtain ⟨context, cleanContext⟩ := context
  obtain ⟨augPath, cleanPath⟩ := augPath
  refine ⟨fun prepared => ?_, augdsStoreDiffApplyPreparePathMem_eq cleanContext cleanPath⟩
  change augPath.count ',' ≤ _
  by_contra many
  -- cleared memory breaks the second allocation
  have failed : augdsStoreDiffApplyPreparePathMem zeros context augPath = none := by
    by_cases needs : needsContext augPath = true
    · rw [if_pos needs, Nat.le_zero, List.count_eq_zero, not_not] at many
      exact prepare_zeros_context cleanContext cleanPath needs many
    · rw [if_neg needs] at many
      obtain ⟨front, back, rfl, noComma⟩ := List.eq_append_cons_of_mem
        (List.count_pos_iff.mp (show 0 < augPath.count ',' by omega))
      rw [List.count_append, List.count_eq_zero.mpr noComma, List.count_cons_self] at many
      refine prepare_zeros_again (fun membership => cleanPath (by simp [membership]))
        (fun membership => cleanPath (by simp [membership])) (by simpa using needs) noComma
        (List.count_pos_iff.mp ?_)
      omega
  rw [prepared zeros] at failed
  cases failed

/-- A second comma with cleared memory: the buffer shrinks to what has been written. -/
theorem augdsStoreDiffApplyPreparePathMem_fails :
    ¬∀ allocator, augdsStoreDiffApplyPreparePathMem allocator "/files".toList "a,b,c".toList =
      some "a\\,b\\,c".toList := by
  intro prepared
  have failed : augdsStoreDiffApplyPreparePathMem zeros "/files".toList "a,b,c".toList = none := by
    decide +kernel
  rw [prepared zeros] at failed
  cases failed

end SysrepoAugeas.Label
