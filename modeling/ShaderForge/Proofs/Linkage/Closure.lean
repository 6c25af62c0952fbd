import ShaderForge.Proofs.Linkage.Records

/-!
Linking closes some functions under calls. An addition that sorts leaves a unit with all that its
functions call, callees first; which functions these are and how they stand depends on the calls of
the registry only, and so does whether linking succeeds.
-/

namespace ShaderForge.Linkage

open Relation

variable {r : Registry} {f : Function} {u v : Linkage} {pending : List Function}
  {entries : List FunctionId} {id : FunctionId}

/-! ### Answers -/

/-- Where all that pending functions reach can be processed, only a number that the registry does not
have stands in the way. -/
theorem Passes.answers {fuel : Nat} {answer : Except LinkFault Bool}
    (passes : Passes r fuel pending u answer v) (coherent : Coherent u)
    (registered : ∀ f ∈ pending, r.get? f.id = some f)
    (processes : ∀ id f, r.Reaches (pending.map (·.id)) id → r.get? id = some f → Processes f) :
    (∃ added, answer = .ok added) ∨
      ∃ id, answer = .error (.unknownCallable id) ∧ r.Reaches (pending.map (·.id)) id ∧ r.get? id = none := by
  induction passes with
  | done | spent => exact Or.inl ⟨false, rfl⟩
  | @skip _ f rest _ _ _ _ _ ih =>
    have wider : rest.map (·.id) ⊆ (f :: rest).map (·.id) := List.subset_cons_self _ _
    refine (ih coherent (fun g member => registered g (List.mem_cons_of_mem _ member))
      fun id g reached => processes id g (reached.mono wider)).imp_right ?_
    rintro ⟨id, failed, reached, absent⟩
    exact ⟨id, failed, reached.mono wider, absent⟩
  | @fail _ f rest _ _ _ _ failed =>
    have first : r.Reaches ((f :: rest).map (·.id)) f.id := Registry.reaches_of_mem List.mem_cons_self
    have found := registered f List.mem_cons_self
    obtain ⟨id, rfl, call, absent⟩ :=
      (addOne_failed failed).2.2 (processes f.id f first found) coherent.layered
    exact Or.inr ⟨id, rfl, first.tail ((Registry.calls_iff found).2 call), absent⟩
  | add new one later ih =>
    obtain ⟨registered', reached⟩ := addOne_pending registered one
    rcases ih (coherent.addOne (contains_eq_false_iff.2 new) one) registered'
      (fun id g there => processes id g (there.trans reached)) with ⟨added, rfl⟩ | ⟨id, rfl, there, absent⟩
    · exact Or.inl ⟨true, rfl⟩
    · exact Or.inr ⟨id, rfl, there.trans reached, absent⟩

/-! ### Sorting -/

def arranged (u : Linkage) : Linkage := { u with functions := u.dependencies.place.filterMap u.function? }

theorem sort_cases (u : Linkage) :
    Succeeds sort u ⟨⟩ (arranged u) ∧ u.dependencies.Closed ∧ u.dependencies.Acyclic ∨
      (∃ names, outcome sort u = (.error (.cycle names), u)) ∧
        ¬ (u.dependencies.Closed ∧ u.dependencies.Acyclic) := by
  unfold Succeeds sort
  rw [outcome_get_bind]
  rcases CallGraph.calleeFirst_cases u.dependencies with ⟨sorted, good⟩ | ⟨⟨stuck, failed⟩, bad⟩
  · rw [sorted]
    exact Or.inl ⟨rfl, good⟩
  · rw [failed]
    exact Or.inr ⟨⟨_, rfl⟩, bad⟩

theorem Records.function? (records : Records r u) (known : id ∈ u.dependencies) :
    ∃ g, u.function? id = some g ∧ g.id = id := by
  obtain ⟨g, member, rfl⟩ := List.mem_map.1 ((records.known id).1 known)
  cases found : u.function? g.id with
  | none => exact absurd (List.find?_eq_none.1 found g member) (by simp)
  | some g' => exact ⟨g', rfl, by simpa using List.find?_some found⟩

theorem Records.arranged_ids (records : Records r u) :
    (arranged u).functions.map (·.id) = u.dependencies.place := by
  have each : ∀ ids : List FunctionId, (∀ id ∈ ids, id ∈ u.dependencies) →
      (ids.filterMap u.function?).map (·.id) = ids := by
    intro ids known
    induction ids with
    | nil => rfl
    | cons id rest ih =>
      obtain ⟨g, found, same⟩ := records.function? (known id List.mem_cons_self)
      rw [List.filterMap_cons_some found, List.map_cons, same,
        ih fun other member => known other (List.mem_cons_of_mem _ member)]
  exact each _ fun id => CallGraph.mem_of_mem_place

/-- A unit in order: it has all that its functions call, and callees come first. -/
structure Settled (u : Linkage) : Prop where
  closed : u.dependencies.Closed
  acyclic : u.dependencies.Acyclic
  order : u.functions.map (·.id) = u.dependencies.place

theorem Records.arranged (records : Records r u) (closed : u.dependencies.Closed)
    (acyclic : u.dependencies.Acyclic) : Records r (arranged u) := by
  have ids := records.arranged_ids
  refine ⟨?_, ?_, ?_, records.calls⟩
  · rw [ids]
    exact CallGraph.placeFrom_nodup _ _ _
  · intro id
    rw [ids]
    exact ⟨CallGraph.place_complete closed acyclic id, CallGraph.mem_of_mem_place⟩
  · intro g member
    obtain ⟨id, _, found⟩ := List.mem_filterMap.1 member
    exact records.prepared g (function?_mem found)

/-! ### Adding by number -/

/-- What adding a number answers, with the unit it leaves. -/
inductive Adds (r : Registry) (id : FunctionId) (u : Linkage) : Except LinkFault PUnit.{1} → Linkage → Prop
  | unknown (absent : r.get? id = none) : Adds r id u (.error (.unknownCallable id)) u
  | again {f : Function} (found : r.get? id = some f) (known : id ∈ u.dependencies) : Adds r id u (.ok ⟨⟩) u
  | fail {f : Function} {v : Linkage} {e : LinkFault} (found : r.get? id = some f)
      (new : id ∉ u.dependencies) (passes : Passes r (addBound r) [f] u (.error e) v) :
      Adds r id u (.error e) v
  | sort {f : Function} {v : Linkage} (found : r.get? id = some f) (new : id ∉ u.dependencies)
      (passes : Passes r (addBound r) [f] u (.ok true) v) (closed : v.dependencies.Closed)
      (acyclic : v.dependencies.Acyclic) : Adds r id u (.ok ⟨⟩) (arranged v)
  | stuck {f : Function} {v : Linkage} {names : List String} (found : r.get? id = some f)
      (new : id ∉ u.dependencies) (passes : Passes r (addBound r) [f] u (.ok true) v)
      (bad : ¬ (v.dependencies.Closed ∧ v.dependencies.Acyclic)) : Adds r id u (.error (.cycle names)) v

theorem Passes.of_known {fuel : Nat} {answer : Except LinkFault Bool} (known : f.id ∈ u.dependencies)
    (passes : Passes r (fuel + 1) [f] u answer v) : answer = .ok false ∧ v = u := by
  cases passes with
  | skip _ later =>
    cases later <;> exact ⟨rfl, rfl⟩
  | fail new | add new => exact absurd known new

theorem Passes.of_new {fuel : Nat} {added : Bool} (new : f.id ∉ u.dependencies)
    (passes : Passes r (fuel + 1) [f] u (.ok added) v) : added = true := by
  generalize same : Except.ok added = answer at passes
  cases passes with
  | skip known => exact absurd known new
  | fail => cases same
  | @add _ _ _ _ _ _ _ answer =>
    cases answer <;> cases same
    rfl

theorem adds_add (r : Registry) (id : FunctionId) (u : Linkage) :
    Adds r id u (outcome (add r id) u).1 (outcome (add r id) u).2 := by
  unfold add
  cases found : r.get? id with
  | none => exact .unknown found
  | some f =>
    have same := r.keyed id f found
    have passes := passes_addPending r (addBound r) [f] u
    -- The bound is positive, so the function is looked at: a known one is left alone, a new one is
    -- added and the unit sorted.
    obtain ⟨fuel, bound⟩ : ∃ fuel, addBound r = fuel + 1 := ⟨_, Nat.add_comm _ _⟩
    simp only [outcome_bind]
    generalize outcome (addPending r (addBound r) [f]) u = result at passes ⊢
    obtain ⟨answer, v⟩ := result
    by_cases known : id ∈ u.dependencies
    · rw [bound] at passes
      obtain ⟨rfl, rfl⟩ := Passes.of_known (same ▸ known) passes
      exact .again found known
    · cases answer with
      | error e => exact .fail found known passes
      | ok added =>
        have new := Passes.of_new (same ▸ known) (bound ▸ passes)
        subst new
        rcases sort_cases v with ⟨sorted, closed, acyclic⟩ | ⟨⟨names, failed⟩, bad⟩
        · have answer : outcome sort v = (.ok ⟨⟩, arranged v) := sorted
          simp only [if_true, answer]
          exact .sort found known passes closed acyclic
        · simp only [if_true, failed]
          exact .stuck found known passes bad

theorem registered_entry (found : r.get? id = some f) :
    ∀ g ∈ [f], r.get? g.id = some g := by
  intro g member
  rw [List.mem_singleton.1 member, r.keyed id f found]
  exact found

/-- A run through a number that succeeds has added it, and whatever is new calls only what the unit
has. -/
theorem Passes.entry (records : Records r u) (found : r.get? id = some f) {added : Bool}
    (passes : Passes r (addBound r) [f] u (.ok added) v) :
    id ∈ v.dependencies ∧ ∀ caller ∈ v.dependencies, caller ∉ u.dependencies →
      ∀ callee, r.Calls caller callee → callee ∈ v.dependencies := by
  obtain ⟨all, closed⟩ :=
    passes.closes rfl records (registered_entry found) (debt_le_addBound r u)
  exact ⟨r.keyed id f found ▸ all f List.mem_cons_self, closed⟩

theorem Adds.gains {answer : Except LinkFault PUnit.{1}} (adds : Adds r id u answer v)
    (records : Records r u) : Gains r [id] u v := by
  have pending : ∀ {f : Function} {w : Linkage} {answer : Except LinkFault Bool}, r.get? id = some f →
      Passes r (addBound r) [f] u answer w → Gains r [id] u w := by
    intro f w answer found passes
    have gains := passes.gains records (registered_entry found)
    rw [List.map_singleton, r.keyed id f found] at gains
    exact gains
  cases adds with
  | unknown | again => exact .refl records
  | fail found _ passes | stuck found _ passes => exact pending found passes
  | sort found _ passes closed acyclic =>
    obtain ⟨records, kept, reached⟩ := pending found passes
    exact ⟨records.arranged closed acyclic, kept, reached⟩

theorem Adds.settled (adds : Adds r id u (.ok ⟨⟩) v) (records : Records r u) :
    id ∈ v.dependencies ∧ (id ∈ u.dependencies ∧ v = u ∨ id ∉ u.dependencies ∧ Settled v) := by
  cases adds with
  | again _ known => exact ⟨known, Or.inl ⟨known, rfl⟩⟩
  | @sort f v found new passes closed acyclic =>
    have gains := passes.gains records (registered_entry found)
    exact ⟨(passes.entry records found).1, Or.inr ⟨new, closed, acyclic, gains.records.arranged_ids⟩⟩

/-! ### Calls of a unit in order -/

theorem Records.mem_of_reaches (records : Records r u) (closed : u.dependencies.Closed)
    (start : ∀ entry ∈ entries, entry ∈ u.dependencies) (reached : r.Reaches entries id) :
    id ∈ u.dependencies :=
  reached.mem start fun caller callee known call => closed caller callee ((records.calls _ _).2 ⟨known, call⟩)

theorem Records.calleesFirst (records : Records r u) (settled : Settled u) :
    CalleesFirst r.Calls (u.functions.map (·.id)) := by
  intro before id after split callee call
  have known : id ∈ u.dependencies := by
    rw [records.known, split]
    exact List.mem_append_right _ List.mem_cons_self
  rw [settled.order] at split
  exact CallGraph.place_calleesFirst _ before id after split callee ((records.calls _ _).2 ⟨known, call⟩)

theorem Records.acyclic (records : Records r u)
    (straight : ∀ id ∈ u.dependencies, ¬ TransGen r.Calls id id) : u.dependencies.Acyclic := by
  intro id cycle
  obtain ⟨_, call, _⟩ := TransGen.head'_iff.1 cycle
  exact straight id call.mem
    (TransGen.mono (fun caller callee call => ((records.calls caller callee).1 call).2) _ _ cycle)

/-- Where a unit has all that its functions call, a cycle of the registry that meets it is one of
the unit. -/
theorem Records.straight (records : Records r u) (closed : u.dependencies.Closed)
    (acyclic : u.dependencies.Acyclic) (known : id ∈ u.dependencies) : ¬ TransGen r.Calls id id := by
  intro cycle
  have inside : ∀ other, TransGen r.Calls id other →
      TransGen u.dependencies.Calls id other ∧ other ∈ u.dependencies := by
    intro other path
    induction path with
    | single call =>
      have call := (records.calls _ _).2 ⟨known, call⟩
      exact ⟨.single call, closed _ _ call⟩
    | tail _ call ih =>
      have call := (records.calls _ _).2 ⟨ih.2, call⟩
      exact ⟨ih.1.tail call, closed _ _ call⟩
  exact acyclic id (inside id cycle).1

/-! ### Adding one number after another -/

/-- A unit after successful additions of some numbers. -/
structure Linked (r : Registry) (entries : List FunctionId) (u : Linkage) : Prop where
  made : Reached r u
  records : Records r u
  settled : Settled u
  entered : ∀ id ∈ entries, id ∈ u.dependencies
  reached : ∀ id ∈ u.dependencies, r.Reaches entries id

theorem linked_fresh (r : Registry) : Linked r [] {} := by
  refine ⟨.fresh, records_fresh r, ⟨?_, ?_, rfl⟩, by simp, by simp⟩
  · rintro caller callee ⟨_, found, _⟩
    simp at found
  · exact (records_fresh r).acyclic (by simp)

theorem Linked.mem_iff (linked : Linked r entries u) : id ∈ u.dependencies ↔ r.Reaches entries id :=
  ⟨linked.reached id, linked.records.mem_of_reaches linked.settled.closed linked.entered⟩

theorem adds_of_succeeds (h : Succeeds (add r id) u ⟨⟩ v) : Adds r id u (.ok ⟨⟩) v := by
  have adds := adds_add r id u
  rw [show outcome (add r id) u = (.ok ⟨⟩, v) from h] at adds
  exact adds

theorem Linked.add (linked : Linked r entries u) (h : Succeeds (add r id) u ⟨⟩ v) :
    Linked r (entries ++ [id]) v := by
  have adds := adds_of_succeeds h
  obtain ⟨records, kept, reached⟩ := adds.gains linked.records
  obtain ⟨known, settled⟩ := adds.settled linked.records
  refine ⟨linked.made.add_number h, records, ?_, ?_, ?_⟩
  · rcases settled with ⟨_, rfl⟩ | ⟨_, settled⟩
    · exact linked.settled
    · exact settled
  · intro other member
    rcases List.mem_append.1 member with old | here
    · exact kept other (linked.entered other old)
    · rw [List.mem_singleton.1 here]
      exact known
  · intro other member
    rcases reached other member with old | reached
    · exact (linked.reached other old).mono (List.subset_append_left _ _)
    · exact reached.mono (List.subset_append_right _ _)

theorem Linked.addAll (linked : Linked r entries u) {ids : List FunctionId}
    (h : Succeeds (ids.forM (Linkage.add r)) u ⟨⟩ v) : Linked r (entries ++ ids) v := by
  induction ids generalizing entries u with
  | nil =>
    obtain ⟨_, rfl⟩ := Succeeds.of_pure.1 h
    rw [List.append_nil]
    exact linked
  | cons id rest ih =>
    rw [List.forM] at h
    obtain ⟨_, w, first, h⟩ := Succeeds.bind_iff.1 h
    rw [List.append_cons]
    exact ih (linked.add first) h

/-- A number that can be linked: its function can be processed and does not call itself, directly or
not. -/
def Linkable (r : Registry) (id : FunctionId) : Prop :=
  (∃ f, r.get? id = some f ∧ Processes f) ∧ ¬ TransGen r.Calls id id

theorem Linkable.known (linkable : Linkable r id) : r.get? id ≠ none := by
  obtain ⟨f, found, _⟩ := linkable.1
  simp [found]

theorem Linked.linkable (linked : Linked r entries u) (reached : r.Reaches entries id) : Linkable r id := by
  have known := linked.mem_iff.2 reached
  exact ⟨linked.records.registered known,
    linked.records.straight linked.settled.closed linked.settled.acyclic known⟩

theorem Passes.closed (records : Records r u) (closed : u.dependencies.Closed)
    (found : r.get? id = some f) {added : Bool} (passes : Passes r (addBound r) [f] u (.ok added) v) :
    v.dependencies.Closed := by
  obtain ⟨records', kept, _⟩ := passes.gains records (registered_entry found)
  obtain ⟨_, new⟩ := passes.entry records found
  intro caller callee call
  obtain ⟨known, call⟩ := (records'.calls caller callee).1 call
  by_cases old : caller ∈ u.dependencies
  · exact kept callee (closed caller callee ((records.calls caller callee).2 ⟨old, call⟩))
  · exact new caller known old callee call

/-- Where all that a number reaches can be processed, adding it fails halfway only at a number that the
registry does not have. -/
theorem Passes.unknown (coherent : Coherent u) (found : r.get? id = some f)
    (processes : ∀ other g, r.Reaches [id] other → r.get? other = some g → Processes g) {e : LinkFault}
    (passes : Passes r (addBound r) [f] u (.error e) v) :
    ∃ other, e = .unknownCallable other ∧ r.Reaches [id] other ∧ r.get? other = none := by
  have same := r.keyed id f found
  have answers := passes.answers coherent (registered_entry found)
  rw [List.map_singleton, same] at answers
  rcases answers processes with ⟨_, ok⟩ | ⟨other, failed, reached⟩
  · cases ok
  · cases failed
    exact ⟨other, rfl, reached⟩

theorem Linked.add_runs (linked : Linked r entries u)
    (linkable : ∀ other, r.Reaches (entries ++ [id]) other → Linkable r other) :
    ∃ v, Succeeds (Linkage.add r id) u ⟨⟩ v := by
  have before : ∀ other, r.Reaches entries other → Linkable r other := fun other reached =>
    linkable other (reached.mono (List.subset_append_left _ _))
  have here : ∀ other, r.Reaches [id] other → Linkable r other := fun other reached =>
    linkable other (reached.mono (List.subset_append_right _ _))
  have processes : ∀ other g, r.Reaches [id] other → r.get? other = some g → Processes g := by
    intro other g reached found
    obtain ⟨g', found', processes⟩ := (here other reached).1
    rw [found, Option.some.injEq] at found'
    exact found' ▸ processes
  have adds := adds_add r id u
  unfold Succeeds
  generalize outcome (Linkage.add r id) u = result at adds ⊢
  obtain ⟨answer, v⟩ := result
  have gains := adds.gains linked.records
  cases adds with
  | unknown absent => exact ((here id (Registry.reaches_of_mem List.mem_cons_self)).known absent).elim
  | again | sort => exact ⟨_, rfl⟩
  | fail found _ passes =>
    obtain ⟨other, _, reached, absent⟩ := passes.unknown linked.made.coherent found processes
    exact ((here other reached).known absent).elim
  | stuck found _ passes bad =>
    -- A cycle would lie in what the old numbers reach or in what the new one does.
    refine (bad ⟨passes.closed linked.records linked.settled.closed found, ?_⟩).elim
    refine gains.records.acyclic fun other known => ?_
    rcases gains.reached other known with old | reached
    · exact (before other (linked.reached other old)).2
    · exact (here other reached).2

theorem Linked.addAll_runs (linked : Linked r entries u) {ids : List FunctionId}
    (linkable : ∀ other, r.Reaches (entries ++ ids) other → Linkable r other) :
    ∃ v, Succeeds (ids.forM (Linkage.add r)) u ⟨⟩ v := by
  induction ids generalizing entries u with
  | nil => exact ⟨u, Succeeds.of_pure.2 ⟨rfl, rfl⟩⟩
  | cons id rest ih =>
    rw [List.append_cons] at linkable
    obtain ⟨w, first⟩ := linked.add_runs fun other reached =>
      linkable other (reached.mono (List.subset_append_left _ _))
    obtain ⟨v, later⟩ := ih (linked.add first) linkable
    exact ⟨v, Succeeds.bind_iff.2 ⟨⟨⟩, w, first, later⟩⟩

theorem linked_of_link (linked : link r entries = .ok u) : Linked r entries u :=
  (linked_fresh r).addAll (link_ok_iff.1 linked)

/-- Linking succeeds just where all that the entries reach can be linked. -/
theorem exists_link_iff (r : Registry) (entries : List FunctionId) :
    (∃ u, link r entries = .ok u) ↔ ∀ id, r.Reaches entries id → Linkable r id := by
  constructor
  · rintro ⟨u, linked⟩ id reached
    exact (linked_of_link linked).linkable reached
  · intro linkable
    obtain ⟨u, run⟩ : ∃ u, Succeeds (entries.forM (Linkage.add r)) {} ⟨⟩ u :=
      (linked_fresh r).addAll_runs linkable
    exact ⟨u, link_ok_iff.2 run⟩

/-! ### The closure -/

theorem Records.functions_ext (records : Records r u) (others : Records r v)
    (ids : v.functions.map (·.id) = u.functions.map (·.id)) : v.functions = u.functions := by
  refine List.ext_getElem? fun n => ?_
  have here : (v.functions[n]?).map (·.id) = (u.functions[n]?).map (·.id) := by
    rw [← List.getElem?_map, ids, List.getElem?_map]
  cases found : u.functions[n]? with
  | none =>
    rw [found] at here
    exact Option.map_eq_none_iff.1 here
  | some g =>
    rw [found] at here
    obtain ⟨g', found', id⟩ := Option.map_eq_some_iff.1 here
    obtain ⟨f, known, preparing, _⟩ := records.prepared g (List.mem_of_getElem? found)
    obtain ⟨f', known', preparing', _⟩ := others.prepared g' (List.mem_of_getElem? found')
    rw [id, known, Option.some.injEq] at known'
    subst known'
    rw [found', (Prod.mk.inj (preparing.symm.trans preparing')).2]

theorem Linked.unique {others : List FunctionId} (linked : Linked r entries u) (linked' : Linked r others v)
    (same : ∀ id, r.Reaches others id ↔ r.Reaches entries id) :
    v.functions = u.functions ∧ v.dependencies = u.dependencies := by
  have members : ∀ id, id ∈ v.dependencies ↔ id ∈ u.dependencies := fun id => by
    rw [linked.mem_iff, linked'.mem_iff, same]
  have dependencies : v.dependencies = u.dependencies := CallGraph.ext_calls members fun caller callee => by
    rw [linked.records.calls, linked'.records.calls, members]
  refine ⟨linked.records.functions_ext linked'.records ?_, dependencies⟩
  rw [linked.settled.order, linked'.settled.order, dependencies]

/-- A unit that closes some numbers under calls: it has exactly the functions they reach, prepared,
each once and after all that it calls, with exactly what it calls. -/
structure Closes (r : Registry) (entries : List FunctionId) (u : Linkage) : Prop where
  reached : ∀ id, id ∈ u.functions.map (·.id) ↔ r.Reaches entries id
  once : (u.functions.map (·.id)).Nodup
  calleesFirst : CalleesFirst r.Calls (u.functions.map (·.id))
  prepared : ∀ g ∈ u.functions, ∃ f, r.get? g.id = some f ∧ Succeeds Function.prepare f () g
  recorded : ∀ id, id ∈ u.dependencies ↔ r.Reaches entries id
  calls : ∀ id callees, u.dependencies[id]? = some callees → ∀ callee, callee ∈ callees ↔ r.Calls id callee

theorem Linked.closes (linked : Linked r entries u) : Closes r entries u := by
  have records := linked.records
  refine ⟨fun id => ?_, records.once, records.calleesFirst linked.settled, fun g member => ?_,
    fun id => linked.mem_iff, fun id callees found callee => ?_⟩
  · rw [← records.known, linked.mem_iff]
  · obtain ⟨f, found, preparing, _⟩ := records.prepared g member
    exact ⟨f, found, preparing⟩
  · have known : id ∈ u.dependencies :=
      Std.ExtTreeMap.mem_iff_isSome_getElem?.2 (Option.isSome_of_eq_some found)
    have calls := records.calls id callee
    simp only [CallGraph.Calls, found, Option.some.injEq, exists_eq_left', known, true_and] at calls
    exact calls

/-- Adding a number to a fresh unit, where all it reaches can be processed: a number is missing, or
all are there and the unit is in order or has a cycle. -/
theorem add_fresh_cases (processes : ∀ other f, r.Reaches [id] other → r.get? other = some f → Processes f) :
    (∃ other, ((add r id).apply {}).1 = .error (.unknownCallable other) ∧ r.Reaches [id] other ∧
        r.get? other = none) ∨
      (∀ other, r.Reaches [id] other → r.get? other ≠ none) ∧
        (((add r id).apply {}).1 = .ok ⟨⟩ ∧ (∀ other, r.Reaches [id] other → ¬ TransGen r.Calls other other) ∨
          (∃ names, ((add r id).apply {}).1 = .error (.cycle names)) ∧
            ∃ other, r.Reaches [id] other ∧ TransGen r.Calls other other) := by
  have adds := adds_add r id {}
  have records := records_fresh r
  change (∃ other, (outcome (add r id) {}).1 = _ ∧ _) ∨ _ ∧ ((outcome (add r id) {}).1 = _ ∧ _ ∨
    (∃ names, (outcome (add r id) {}).1 = _) ∧ _)
  generalize run : outcome (add r id) {} = result at adds ⊢
  obtain ⟨answer, v⟩ := result
  have gains := adds.gains records
  cases adds with
  | unknown absent => exact Or.inl ⟨id, rfl, Registry.reaches_of_mem List.mem_cons_self, absent⟩
  | again _ known => simp at known
  | fail found _ passes =>
    obtain ⟨other, rfl, reached, absent⟩ := passes.unknown coherent_fresh found processes
    exact Or.inl ⟨other, rfl, reached, absent⟩
  | sort =>
    have linked : Linked r [id] _ := (linked_fresh r).add run
    exact Or.inr ⟨fun other reached => (linked.linkable reached).known,
      Or.inl ⟨rfl, fun other reached => (linked.linkable reached).2⟩⟩
  | @stuck f v names found _ passes bad =>
    have closed := passes.closed records (linked_fresh r).settled.closed found
    have entered : ∀ entry ∈ [id], entry ∈ v.dependencies := fun entry here =>
      List.mem_singleton.1 here ▸ (passes.entry records found).1
    refine Or.inr ⟨fun other reached absent => ?_, Or.inr ⟨⟨names, rfl⟩, ?_⟩⟩
    · obtain ⟨f, found, _⟩ := gains.records.registered (gains.records.mem_of_reaches closed entered reached)
      rw [absent] at found
      cases found
    · by_contra straight
      refine bad ⟨closed, gains.records.acyclic fun other known cycle => straight ⟨other, ?_, cycle⟩⟩
      exact (gains.reached other known).resolve_left (by simp)

theorem link_perm (linked : link r entries = .ok u) {others : List FunctionId}
    (perm : others.Perm entries) :
    ∃ v, link r others = .ok v ∧ v.functions = u.functions ∧ v.dependencies = u.dependencies := by
  have first := linked_of_link linked
  have same : ∀ id, r.Reaches others id ↔ r.Reaches entries id := fun id => by
    simp only [Registry.Reaches, perm.mem_iff]
  obtain ⟨v, linked'⟩ := (exists_link_iff r others).2 fun id reached =>
    first.linkable ((same id).1 reached)
  exact ⟨v, linked', first.unique (linked_of_link linked') same⟩

/-- Linking closes its entries under calls, in whatever order they come. Where everything reached can be
processed, a number fails to be added to a fresh unit just for one reached that the registry does not
have or, where it has all, for a cycle. -/
theorem link_closure (r : Registry) :
    (∀ entries u, link r entries = .ok u → Closes r entries u ∧
      ∀ others, others.Perm entries → ∃ v, link r others = .ok v ∧ v.functions = u.functions ∧
        v.dependencies = u.dependencies ∧ ∀ id, v.symbol? id = u.symbol? id) ∧
    ∀ id, (∀ other f, r.Reaches [id] other → r.get? other = some f → Processes f) →
      ((∃ other, ((add r id).apply {}).1 = .error (.unknownCallable other)) ↔
        ∃ other, r.Reaches [id] other ∧ r.get? other = none) ∧
      ((∃ names, ((add r id).apply {}).1 = .error (.cycle names)) ↔
        (∀ other, r.Reaches [id] other → r.get? other ≠ none) ∧
          ∃ other, r.Reaches [id] other ∧ TransGen r.Calls other other) ∧
      (((add r id).apply {}).1 = .ok ⟨⟩ ↔ (∀ other, r.Reaches [id] other → r.get? other ≠ none) ∧
        ∀ other, r.Reaches [id] other → ¬ TransGen r.Calls other other) := by
  refine ⟨fun entries u linked => ⟨(linked_of_link linked).closes, fun others perm => ?_⟩,
    fun id processes => ?_⟩
  · obtain ⟨v, linked', functions, dependencies⟩ := link_perm linked perm
    refine ⟨v, linked', functions, dependencies, fun id => ?_⟩
    unfold symbol? function?
    rw [functions]
  · rcases add_fresh_cases processes with ⟨other, answer, reached, absent⟩ |
      ⟨known, ⟨answer, straight⟩ | ⟨⟨names, answer⟩, other, reached, cycle⟩⟩ <;> rw [answer]
    · refine ⟨iff_of_true ⟨other, rfl⟩ ⟨other, reached, absent⟩, iff_of_false ?_ ?_, iff_of_false ?_ ?_⟩
      · rintro ⟨_, ⟨⟩⟩
      · exact fun ⟨known, _⟩ => known other reached absent
      · rintro ⟨⟩
      · exact fun ⟨known, _⟩ => known other reached absent
    · refine ⟨iff_of_false ?_ ?_, iff_of_false ?_ ?_, iff_of_true rfl ⟨known, straight⟩⟩
      · rintro ⟨_, ⟨⟩⟩
      · exact fun ⟨other, reached, absent⟩ => known other reached absent
      · rintro ⟨_, ⟨⟩⟩
      · exact fun ⟨_, other, reached, cycle⟩ => straight other reached cycle
    · refine ⟨iff_of_false ?_ ?_, iff_of_true ⟨names, rfl⟩ ⟨known, other, reached, cycle⟩, iff_of_false ?_ ?_⟩
      · rintro ⟨_, ⟨⟩⟩
      · exact fun ⟨other, reached, absent⟩ => known other reached absent
      · rintro ⟨⟩
      · exact fun ⟨_, straight⟩ => straight other reached cycle

/-! ### A registry by its calls -/

def calling (callees : List FunctionId) : Buffer :=
  .ofContent (callees.map (fun id => .call id .null .null) ++ [.ret .null]) [] []

/-- Procedures under ascending numbers, with what each of them calls. -/
def callers (graph : List (List FunctionId)) : Registry :=
  graph.foldl (fun r callees => (r.register "f" (calling callees)).2) .empty

/-- Two ways from 3 to 0, a call of a number that nothing has, and two procedures that call each
other. -/
def crossroads : Registry := callers [[], [0], [0], [1, 2], [9], [6], [5, 0]]

theorem crossroads_closure :
    (∃ u, link crossroads [3, 1] = .ok u ∧ u.functions.map (·.id) = [0, 1, 2, 3] ∧
      Closes crossroads [3, 1] u ∧ ∃ v, link crossroads [1, 3] = .ok v ∧ v.functions = u.functions) ∧
    (∃ other, ((add crossroads 4).apply {}).1 = .error (.unknownCallable other)) ∧
    ∃ names, ((add crossroads 5).apply {}).1 = .error (.cycle names) := by
  obtain ⟨closes, fails⟩ := link_closure crossroads
  have every : ∀ f ∈ crossroads.functions, Processes f := by decide +kernel
  have processes : ∀ id other f, crossroads.Reaches [id] other → crossroads.get? other = some f →
      Processes f :=
    fun _ _ f _ found => every f (mem_functions found)
  refine ⟨?_, ?_, ?_⟩
  · have passes : ((link crossroads [3, 1]).toOption.any fun u =>
        decide (u.functions.map (·.id) = [0, 1, 2, 3])) = true := by decide +kernel
    obtain ⟨u, linked, ids⟩ := (Option.any_eq_true _ _).1 passes
    rw [Except.toOption_eq_some_iff] at linked
    obtain ⟨closed, permuted⟩ := closes [3, 1] u linked
    obtain ⟨v, linked', functions, _⟩ := permuted [1, 3] (.swap 3 1 [])
    exact ⟨u, linked, of_decide_eq_true ids, closed, v, linked', functions⟩
  · refine (fails 4 (processes 4)).1.2 ⟨9, ?_, by decide +kernel⟩
    have call : crossroads.Calls 4 9 := Registry.calls_iff_mem.2 (by decide +kernel)
    exact (Registry.reaches_of_mem List.mem_cons_self).tail call
  · refine (fails 5 (processes 5)).2.1.2
      ⟨fun other reached => ?_, 5, Registry.reaches_of_mem List.mem_cons_self, ?_⟩
    · have inside : other ∈ [0, 5, 6] := reached.within (by decide +kernel) (by decide +kernel)
      have known : ([0, 5, 6].all fun id => (crossroads.get? id).isSome) = true := by decide +kernel
      exact Option.isSome_iff_ne_none.1 (List.all_eq_true.1 known other inside)
    · have there : crossroads.Calls 5 6 := Registry.calls_iff_mem.2 (by decide +kernel)
      have back : crossroads.Calls 6 5 := Registry.calls_iff_mem.2 (by decide +kernel)
      exact .tail (.single there) back

end ShaderForge.Linkage
