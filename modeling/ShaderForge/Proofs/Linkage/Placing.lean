import Mathlib.Data.List.Basic
import ShaderForge.Linkage.Order

/-!
Placing by counts. Sorting keeps for every function the number of callees it waits for; that number
is what a look at the graph would give, so the counts lead to the same order as looking for the
lowest function whose callees are all placed.
-/

namespace ShaderForge.CallGraph

variable {g : CallGraph} {placed : FunctionSet} {id callee : FunctionId}

def Calls (g : CallGraph) (caller callee : FunctionId) : Prop :=
  ∃ callees, g[caller]? = some callees ∧ callee ∈ callees

theorem Calls.mem (call : g.Calls id callee) : id ∈ g := by
  obtain ⟨callees, found, _⟩ := call
  exact Std.ExtTreeMap.mem_iff_isSome_getElem?.2 (Option.isSome_of_eq_some found)

theorem mem_insert_id {other : FunctionId} :
    other ∈ placed.insert id ↔ other = id ∨ other ∈ placed := by
  rw [Std.ExtTreeSet.mem_insert, Std.LawfulEqCmp.compare_eq_iff_eq, eq_comm]

/-! ### Looking for what is ready -/

/-- A function that is not placed yet, unlike all that it calls. -/
def Ready (g : CallGraph) (placed : FunctionSet) (id : FunctionId) : Prop :=
  id ∈ g ∧ id ∉ placed ∧ ∀ callee, g.Calls id callee → callee ∈ placed

/-- The lowest function not placed yet whose callees all are. -/
def ready? (g : CallGraph) (placed : FunctionSet) : Option FunctionId :=
  (g.toList.find? fun (id, callees) =>
    !placed.contains id && callees.toList.all placed.contains).map Prod.fst

/-- Places ready functions after those already placed, at most `fuel` of them. -/
def placeFrom (g : CallGraph) : Nat → FunctionSet → List FunctionId
  | 0, _ => []
  | fuel + 1, placed =>
    match g.ready? placed with
    | some id => id :: g.placeFrom fuel (placed.insert id)
    | none => []

/-- The functions that can be placed, callees first. -/
def place (g : CallGraph) : List FunctionId := g.placeFrom g.size ∅

theorem ready_iff {callees : FunctionSet} (entry : (id, callees) ∈ g.toList) :
    (!placed.contains id && callees.toList.all placed.contains) = true ↔ g.Ready placed id := by
  have found := Std.ExtTreeMap.mem_toList_iff_getElem?_eq_some.1 entry
  have known : id ∈ g := Std.ExtTreeMap.mem_iff_isSome_getElem?.2 (Option.isSome_of_eq_some found)
  simp only [Bool.and_eq_true, Bool.not_eq_true', List.all_eq_true, Std.ExtTreeSet.mem_toList, Ready, Calls,
    found, Option.some.injEq, exists_eq_left', known, true_and, Std.ExtTreeSet.contains_iff_mem,
    ← Bool.not_eq_true]

theorem ready?_some (h : g.ready? placed = some id) : g.Ready placed id := by
  unfold ready? at h
  obtain ⟨⟨_, callees⟩, found, rfl⟩ := Option.map_eq_some_iff.1 h
  have passes := List.find?_some found
  exact (ready_iff (List.mem_of_find?_eq_some found)).1 passes

theorem ready?_le (h : g.ready? placed = some id) {other : FunctionId} (ready : g.Ready placed other) :
    id ≤ other := by
  unfold ready? at h
  obtain ⟨⟨_, callees⟩, found, rfl⟩ := Option.map_eq_some_iff.1 h
  obtain ⟨_, before, after, split, skipped⟩ := List.find?_eq_some_iff_append.1 found
  obtain ⟨others, entry⟩ :=
    Option.isSome_iff_exists.1 (Std.ExtTreeMap.mem_iff_isSome_getElem?.1 ready.1)
  have listed := Std.ExtTreeMap.mem_toList_iff_getElem?_eq_some.2 entry
  have ascending := Std.ExtTreeMap.ordered_keys_toList (t := g)
  have passes := (ready_iff listed).2 ready
  rw [split] at listed ascending
  rcases List.mem_append.1 listed with early | late
  · have fails := skipped _ early
    simp only [passes, Bool.not_true, Bool.false_eq_true] at fails
  · rcases List.mem_cons.1 late with same | later
    · cases same
      exact UInt32.le_refl _
    · have below := List.rel_of_pairwise_cons (List.pairwise_append.1 ascending).2.1 later
      exact UInt32.le_of_lt (Std.compare_eq_lt.1 below)

/-- Where nothing can be placed, whatever is not placed waits for something else. -/
theorem ready?_none (h : g.ready? placed = none) (known : id ∈ g) (waiting : id ∉ placed) :
    ∃ callee, g.Calls id callee ∧ callee ∉ placed := by
  unfold ready? at h
  rw [Option.map_eq_none_iff, List.find?_eq_none] at h
  obtain ⟨callees, entry⟩ := Option.isSome_iff_exists.1 (Std.ExtTreeMap.mem_iff_isSome_getElem?.1 known)
  have listed := Std.ExtTreeMap.mem_toList_iff_getElem?_eq_some.2 entry
  by_contra every
  push Not at every
  exact h (id, callees) listed ((ready_iff listed).2 ⟨known, waiting, every⟩)

/-! ### Counting what is waited for -/

def waiting (placed callees : FunctionSet) : Nat :=
  callees.toList.countP fun callee => !placed.contains callee

theorem waiting_eq_zero {callees : FunctionSet} :
    waiting placed callees = 0 ↔ ∀ callee ∈ callees, callee ∈ placed := by
  simp [waiting, List.countP_eq_zero]

theorem waiting_empty (callees : FunctionSet) : waiting ∅ callees = callees.size := by
  simp [waiting]

theorem waiting_insert {callees : FunctionSet} (called : id ∈ callees) (new : id ∉ placed) :
    waiting placed callees = waiting (placed.insert id) callees + 1 := by
  have once : callees.toList.Nodup :=
    Std.ExtTreeSet.ordered_toList.imp fun below same => by simp [same] at below
  obtain ⟨before, after, split⟩ := List.append_of_mem (Std.ExtTreeSet.mem_toList.2 called)
  have others : ∀ items : List FunctionId, id ∉ items →
      items.countP (fun callee => !placed.contains callee) =
        items.countP fun callee => !(placed.insert id).contains callee := by
    intro items absent
    refine List.countP_congr fun callee member => ?_
    have differs : id ≠ callee := fun same => absent (same ▸ member)
    simp [Std.ExtTreeSet.contains_insert, differs]
  rw [split] at once
  have parts := List.nodup_append.1 once
  have early : id ∉ before := fun member => parts.2.2 id member id List.mem_cons_self rfl
  have late : id ∉ after := (List.nodup_cons.1 parts.2.1).1
  unfold waiting
  have absent : placed.contains id = false := by
    rw [← Bool.not_eq_true, Std.ExtTreeSet.contains_iff_mem]
    exact new
  rw [split, List.countP_append, List.countP_append, List.countP_cons, List.countP_cons, others before early,
    others after late, absent, Std.ExtTreeSet.contains_insert_self]
  simp only [Bool.not_false, ↓reduceIte, Bool.not_true, Bool.false_eq_true]
  omega

theorem waiting_insert_of_notMem {callees : FunctionSet} (uncalled : id ∉ callees) :
    waiting (placed.insert id) callees = waiting placed callees := by
  refine List.countP_congr fun callee member => ?_
  have differs : id ≠ callee := fun same => uncalled (same ▸ Std.ExtTreeSet.mem_toList.1 member)
  simp [Std.ExtTreeSet.contains_insert, differs]

theorem mem_callers {caller : FunctionId} : caller ∈ g.callers id ↔ g.Calls caller id := by
  simp only [callers, List.mem_map, List.mem_filter, Prod.exists, exists_and_right, exists_eq_right,
    Std.ExtTreeMap.mem_toList_iff_getElem?_eq_some, Std.ExtTreeSet.contains_iff_mem, Calls]

theorem callers_nodup (g : CallGraph) (id : FunctionId) : (g.callers id).Nodup := by
  have keys : (g.toList.map Prod.fst).Nodup := by
    rw [Std.ExtTreeMap.map_fst_toList_eq_keys]
    exact Std.ExtTreeMap.nodup_keys
  exact keys.sublist (List.filter_sublist.map _)

namespace Placement

/-- The counts are what is left to wait for, and what is ready waits for nothing. -/
structure Tracks (g : CallGraph) (placed : FunctionSet) (p : Placement) : Prop where
  pending : ∀ id : FunctionId, p.pending[id]? = (g[id]?).map (waiting placed)
  ready : ∀ id, id ∈ p.ready ↔ g.Ready placed id
  closed : ∀ caller ∈ placed, ∀ callee, g.Calls caller callee → callee ∈ placed

/-- In the middle of placing `id`: the callers in `done` are told. -/
structure Releases (g : CallGraph) (placed : FunctionSet) (id : FunctionId) (done : List FunctionId)
    (p : Placement) : Prop where
  pending : ∀ other : FunctionId, p.pending[other]? =
    (g[other]?).map (waiting (if other ∈ done then placed.insert id else placed))
  ready : ∀ other, other ∈ p.ready ↔ other ∈ g ∧ other ∉ placed.insert id ∧
    ∀ callee, g.Calls other callee → callee ∈ placed ∨ callee = id ∧ other ∈ done

variable {p : Placement} {done : List FunctionId} {caller : FunctionId}

theorem Tracks.put (tracks : Tracks g placed p) : Releases g placed id [] (p.put id) := by
  refine ⟨fun other => ?_, fun other => ?_⟩
  · rw [if_neg List.not_mem_nil]
    exact tracks.pending other
  simp only [Placement.put, Std.ExtTreeSet.mem_erase, Std.compare_eq_iff_eq, tracks.ready, Ready, mem_insert_id,
    List.not_mem_nil, and_false, or_false, not_or, eq_comm (a := id), ne_eq]
  tauto

/-- The count of a caller that is not told yet includes the function just placed. -/
theorem Releases.count (releases : Releases g placed id done p) (new : id ∉ placed)
    (call : g.Calls caller id) (untold : caller ∉ done) :
    ∃ callees, g[caller]? = some callees ∧ p.pending[caller]? = some (waiting (placed.insert id) callees + 1) := by
  obtain ⟨callees, found, called⟩ := call
  refine ⟨callees, found, ?_⟩
  rw [releases.pending, found, Option.map_some, if_neg untold, waiting_insert called new]

/-- What one caller is told: it waits for one function less, and is ready when that was the last. -/
theorem release_count {n : Nat} (count : p.pending[caller]? = some (n + 1)) :
    (p.release caller).pending = p.pending.insert caller n ∧
      ∀ other, other ∈ (p.release caller).ready ↔ other ∈ p.ready ∨ other = caller ∧ n = 0 := by
  unfold release
  rw [count]
  refine ⟨rfl, fun other => ?_⟩
  by_cases last : n = 0
  · simp [last, or_comm, eq_comm (a := caller)]
  · simp [last]

theorem Releases.release (releases : Releases g placed id done p) (new : id ∉ placed)
    (closed : ∀ caller ∈ placed, ∀ callee, g.Calls caller callee → callee ∈ placed)
    (ready : ∀ callee, g.Calls id callee → callee ∈ placed)
    (call : g.Calls caller id) (untold : caller ∉ done) :
    Releases g placed id (done ++ [caller]) (p.release caller) := by
  obtain ⟨callees, found, count⟩ := releases.count new call untold
  have fresh : caller ∉ placed.insert id := by
    rw [mem_insert_id]
    rintro (rfl | old)
    · exact new (ready _ call)
    · exact new (closed caller old id call)
  obtain ⟨pending, told⟩ := release_count count
  refine ⟨fun other => ?_, fun other => ?_⟩
  · rw [pending, Std.ExtTreeMap.getElem?_insert, releases.pending]
    by_cases same : caller = other
    · subst same
      simp [found]
    · simp [same, Ne.symm same]
  · rw [told, releases.ready, waiting_eq_zero]
    by_cases same : other = caller
    · subst same
      have calls : ∀ callee, g.Calls other callee ↔ callee ∈ callees := by
        simp [Calls, found]
      simp only [calls, call.mem, fresh, not_false_eq_true, true_and, untold, and_false, or_false,
        List.mem_append, List.mem_singleton, or_true, and_true, mem_insert_id]
      constructor
      · rintro (all | all) callee member
        · exact Or.inl (all callee member)
        · exact (all callee member).symm
      · intro all
        exact Or.inr fun callee member => (all callee member).symm
    · simp [same]

theorem Releases.tracks (releases : Releases g placed id done p) (all : ∀ caller, g.Calls caller id → caller ∈ done)
    (only : ∀ caller ∈ done, g.Calls caller id)
    (closed : ∀ caller ∈ placed, ∀ callee, g.Calls caller callee → callee ∈ placed)
    (ready : ∀ callee, g.Calls id callee → callee ∈ placed) : Tracks g (placed.insert id) p := by
  refine ⟨fun other => ?_, fun other => ?_, ?_⟩
  · rw [releases.pending]
    cases found : g[other]? with
    | none => rfl
    | some callees =>
      by_cases told : other ∈ done
      · simp [told]
      · have uncalled : id ∉ callees := fun called => told (all other ⟨callees, found, called⟩)
        simp [told, waiting_insert_of_notMem uncalled]
  · rw [releases.ready]
    unfold Ready
    refine and_congr_right fun _ => and_congr_right fun _ => forall₂_congr fun callee call => ?_
    rw [mem_insert_id]
    constructor
    · rintro (old | ⟨rfl, _⟩)
      · exact Or.inr old
      · exact Or.inl rfl
    · rintro (rfl | old)
      · exact Or.inr ⟨rfl, all other call⟩
      · exact Or.inl old
  · intro caller member callee call
    rw [mem_insert_id] at member ⊢
    rcases member with rfl | old
    · exact Or.inr (ready callee call)
    · exact Or.inr (closed caller old callee call)

/-- The counts that some callers have just before they are told, one after the other. -/
def counts (p : Placement) : List FunctionId → List (Option Nat)
  | [] => []
  | caller :: rest => p.pending[caller]? :: (p.release caller).counts rest

/-- Callers are told one by one, and none of them counts zero before it is. -/
theorem Releases.foldl (releases : Releases g placed id done p) (new : id ∉ placed)
    (closed : ∀ caller ∈ placed, ∀ callee, g.Calls caller callee → callee ∈ placed)
    (ready : ∀ callee, g.Calls id callee → callee ∈ placed) {later : List FunctionId}
    (calls : ∀ caller ∈ later, g.Calls caller id) (once : (done ++ later).Nodup) :
    Releases g placed id (done ++ later) (later.foldl Placement.release p) ∧
      ∀ count ∈ p.counts later, ∃ n, count = some (n + 1) := by
  induction later generalizing done p with
  | nil =>
    rw [List.append_nil]
    exact ⟨releases, by simp [counts]⟩
  | cons caller rest ih =>
    have untold : caller ∉ done := fun told =>
      (List.nodup_append.1 once).2.2 caller told caller List.mem_cons_self rfl
    have call := calls caller List.mem_cons_self
    obtain ⟨callees, _, count⟩ := releases.count new call untold
    rw [List.append_cons] at once ⊢
    obtain ⟨told, counted⟩ := ih (releases.release new closed ready call untold)
      (fun other member => calls other (List.mem_cons_of_mem _ member)) once
    rw [counts, List.forall_mem_cons]
    exact ⟨told, ⟨_, count⟩, counted⟩

theorem Tracks.round (tracks : Tracks g placed p) (ready : g.Ready placed id) :
    Tracks g (placed.insert id) ((g.callers id).foldl release (p.put id)) := by
  obtain ⟨_, new, callees⟩ := ready
  have told := tracks.put.foldl new tracks.closed callees (fun _ => mem_callers.1) (callers_nodup g id)
  exact told.1.tracks (fun _ => mem_callers.2) (fun _ => mem_callers.1) tracks.closed callees

/-- The lowest function that waits for nothing is the lowest ready one. -/
theorem Tracks.next? (tracks : Tracks g placed p) : p.next? = g.ready? placed := by
  rw [Placement.next?, Std.ExtTreeSet.head?_toList]
  cases found : g.ready? placed with
  | none =>
    rw [Std.ExtTreeSet.min?_eq_none_iff, Std.ExtTreeSet.eq_empty_iff_forall_not_mem]
    intro id member
    obtain ⟨known, waits, all⟩ := (tracks.ready id).1 member
    obtain ⟨callee, call, absent⟩ := ready?_none found known waits
    exact absent (all callee call)
  | some id =>
    refine Std.ExtTreeSet.min?_eq_some_iff_mem_and_forall.2 ⟨(tracks.ready id).2 (ready?_some found), ?_⟩
    intro other member
    exact (Std.LawfulOrderOrd.isLE_compare id other).2 (ready?_le found ((tracks.ready other).1 member))

theorem tracks_start (g : CallGraph) : Tracks g ∅ g.start := by
  have pending : ∀ id : FunctionId, g.start.pending[id]? = (g[id]?).map (waiting ∅) := by
    intro id
    rw [start, Std.ExtTreeMap.getElem?_map]
    exact congrArg (Option.map · g[id]?) (funext fun callees => (waiting_empty callees).symm)
  refine ⟨pending, fun id => ?_, fun _ member => absurd member Std.ExtTreeSet.not_mem_empty⟩
  have listed : id ∈ g.start.ready ↔ g.start.pending[id]? = some 0 := by
    simp [start, Std.ExtTreeSet.mem_ofList, Std.ExtTreeMap.mem_toList_iff_getElem?_eq_some]
  rw [listed, pending, Option.map_eq_some_iff]
  simp only [waiting_eq_zero, Ready, Calls, Std.ExtTreeSet.not_mem_empty, not_false_eq_true, true_and]
  constructor
  · rintro ⟨callees, found, none⟩
    refine ⟨Std.ExtTreeMap.mem_iff_isSome_getElem?.2 (Option.isSome_of_eq_some found), ?_⟩
    rintro callee ⟨others, same, member⟩
    rw [found, Option.some.injEq] at same
    exact none callee (same ▸ member)
  · rintro ⟨known, none⟩
    obtain ⟨callees, found⟩ := Option.isSome_iff_exists.1 (Std.ExtTreeMap.mem_iff_isSome_getElem?.1 known)
    exact ⟨callees, found, fun callee member => none callee ⟨callees, found, member⟩⟩

theorem order_foldl_release (later : List FunctionId) (p : Placement) :
    (later.foldl release p).order = p.order := by
  induction later generalizing p with
  | nil => rfl
  | cons caller rest ih =>
    rw [List.foldl_cons, ih]
    unfold release
    split <;> rfl

/-- Counting places the functions that looking for ready ones would, and keeps its counts right. -/
theorem Tracks.run (tracks : Tracks g placed p) (rounds : Nat) :
    (p.run g rounds).order = p.order ++ g.placeFrom rounds placed ∧
      ∃ placed', Tracks g placed' (p.run g rounds) := by
  induction rounds generalizing placed p with
  | zero => exact ⟨(List.append_nil _).symm, placed, tracks⟩
  | succ rounds ih =>
    rw [Placement.run, placeFrom, tracks.next?]
    cases found : g.ready? placed with
    | none => exact ⟨(List.append_nil _).symm, placed, tracks⟩
    | some id =>
      obtain ⟨order, later⟩ := ih (tracks.round (ready?_some found))
      refine ⟨?_, later⟩
      rw [order, order_foldl_release, Placement.put, List.append_assoc]
      rfl

theorem Tracks.keys (tracks : Tracks g placed p) : p.pending.keys = g.keys := by
  have same : p.pending = g.map fun _ => waiting placed :=
    Std.ExtTreeMap.ext_getElem? fun id => by rw [tracks.pending, Std.ExtTreeMap.getElem?_map]
  rw [same, Std.ExtTreeMap.keys_map]

theorem counts_positive (g : CallGraph) (rounds : Nat) (id : FunctionId)
    (next : (g.start.run g rounds).next? = some id) :
    ∀ count ∈ ((g.start.run g rounds).put id).counts (g.callers id), ∃ n, count = some (n + 1) := by
  obtain ⟨_, placed, tracks⟩ := (tracks_start g).run rounds
  rw [tracks.next?] at next
  obtain ⟨_, new, callees⟩ := ready?_some next
  exact (tracks.put.foldl new tracks.closed callees (fun _ => mem_callers.1) (callers_nodup g id)).2

end Placement

theorem calleeFirst_eq (g : CallGraph) :
    g.calleeFirst = if g.place.length = g.size then .ok g.place
      else .error (g.keys.filter fun id => !g.place.contains id) := by
  obtain ⟨order, _, tracks⟩ := (Placement.tracks_start g).run g.size
  have placed : (g.start.run g g.size).order = g.place := order
  have size : (g.start.run g g.size).pending.size = g.size := by
    rw [← Std.ExtTreeMap.length_keys, tracks.keys, Std.ExtTreeMap.length_keys]
  simp only [calleeFirst, placed, size, tracks.keys]

end ShaderForge.CallGraph
