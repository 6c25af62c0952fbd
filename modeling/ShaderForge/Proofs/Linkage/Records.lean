import ShaderForge.Proofs.Linkage.CallOrder
import ShaderForge.Proofs.Linkage.Fold

/-!
What a unit records of a registry. Whether additions succeed or not, the unit lists prepared
functions of the registry, each once and with exactly the calls of its atoms, and all of them can be
reached from what was added.
-/

namespace ShaderForge

open Buffer Linkage

/-! ### Calls of a registry -/

namespace Function

def CallsTo (f : Function) (id : FunctionId) : Prop :=
  ∃ (n : Nat) (ty args : Index), f.buffer.atoms[n]? = some (.call id ty args)

def callees (f : Function) : List FunctionId :=
  f.buffer.atoms.toList.filterMap fun
    | .call id _ _ => some id
    | _ => none

theorem callsTo_iff_mem {f : Function} {id : FunctionId} : f.CallsTo id ↔ id ∈ f.callees := by
  unfold callees CallsTo
  rw [List.mem_filterMap]
  constructor
  · rintro ⟨n, ty, args, found⟩
    exact ⟨_, Array.mem_toList_iff.2 (Array.mem_of_getElem? found), rfl⟩
  · rintro ⟨a, member, called⟩
    obtain ⟨n, found⟩ := Array.mem_iff_getElem?.1 (Array.mem_toList_iff.1 member)
    split at called
    · cases called
      exact ⟨n, _, _, found⟩
    · cases called

theorem Prepared.shown_of_effect {f : Function} (prepared : f.Prepared) {n : Nat} {a : Atom}
    (found : f.buffer.atoms[n]? = some a) (effect : a.isSideEffect = true) :
    .ref n ∈ visibleAtoms f.buffer :=
  mem_visibleAtoms_of_marked
    (prepared.marked_of_root found fun _ => Liveness.isRoot_of_effect effect)

end Function

namespace Registry

variable {r : Registry} {f : Function} {caller callee id : FunctionId}

def Calls (r : Registry) (caller callee : FunctionId) : Prop :=
  ∃ f, r.get? caller = some f ∧ f.CallsTo callee

theorem calls_iff (found : r.get? caller = some f) : r.Calls caller callee ↔ f.CallsTo callee := by
  constructor
  · rintro ⟨g, same, call⟩
    rw [found, Option.some.injEq] at same
    exact same ▸ call
  · intro call
    exact ⟨f, found, call⟩

def callees (r : Registry) (id : FunctionId) : List FunctionId := ((r.get? id).map Function.callees).getD []

theorem calls_iff_mem : r.Calls caller callee ↔ callee ∈ r.callees caller := by
  unfold callees
  cases found : r.get? caller with
  | none => simp [Calls, found]
  | some f => exact (calls_iff found).trans Function.callsTo_iff_mem

def Reaches (r : Registry) (entries : List FunctionId) (id : FunctionId) : Prop :=
  ∃ entry ∈ entries, Relation.ReflTransGen r.Calls entry id

theorem reaches_of_mem {entries : List FunctionId} (member : id ∈ entries) : r.Reaches entries id :=
  ⟨id, member, .refl⟩

theorem Reaches.tail {entries : List FunctionId} (reached : r.Reaches entries caller)
    (call : r.Calls caller callee) : r.Reaches entries callee := by
  obtain ⟨entry, member, path⟩ := reached
  exact ⟨entry, member, path.tail call⟩

theorem Reaches.trans {entries others : List FunctionId} (reached : r.Reaches others id)
    (each : ∀ other ∈ others, r.Reaches entries other) : r.Reaches entries id := by
  obtain ⟨other, member, path⟩ := reached
  induction path with
  | refl => exact each other member
  | tail _ call ih => exact ih.tail call

theorem Reaches.mono {entries others : List FunctionId} (reached : r.Reaches entries id)
    (wider : entries ⊆ others) : r.Reaches others id :=
  reached.trans fun _ member => reaches_of_mem (wider member)

/-- A set that holds some numbers and is closed under calls holds all they reach. -/
theorem Reaches.mem {entries : List FunctionId} {P : FunctionId → Prop} (reached : r.Reaches entries id)
    (start : ∀ entry ∈ entries, P entry)
    (closed : ∀ caller callee, P caller → r.Calls caller callee → P callee) : P id := by
  obtain ⟨entry, member, path⟩ := reached
  induction path with
  | refl => exact start entry member
  | tail _ call ih => exact closed _ _ ih call

theorem Reaches.within {entries ids : List FunctionId} (reached : r.Reaches entries id)
    (start : (entries.all ids.contains) = true)
    (closed : (ids.all fun caller => (r.callees caller).all ids.contains) = true) : id ∈ ids := by
  simp only [List.all_eq_true, List.contains_iff_mem] at start closed
  exact reached.mem start fun caller callee member call => closed caller member callee (calls_iff_mem.1 call)

end Registry

namespace Linkage

variable {r : Registry} {f g : Function} {u v w : Linkage} {needed pending : List Function}
  {id caller callee : FunctionId}

theorem contains_iff_mem : u.contains id = true ↔ id ∈ u.dependencies := Std.ExtTreeMap.contains_iff_mem

theorem contains_eq_false_iff : u.contains id = false ↔ id ∉ u.dependencies := by
  rw [← contains_iff_mem, Bool.not_eq_true]

/-- A function that can be prepared and then scanned into a fresh unit. -/
def Processes (f : Function) : Prop :=
  ∃ g callees u, Succeeds Function.prepare f () g ∧ Succeeds (scan g) {} callees u

instance (f : Function) : Decidable (Processes f) :=
  decidable_of_iff ((match Function.prepare.apply f with
    | (.ok _, g) => ((scan g).apply {}).1.isOk
    | (.error _, _) => false) = true) (by
    unfold Processes Succeeds
    change (match outcome Function.prepare f with
      | (.ok _, g) => (outcome (scan g) {}).1.isOk
      | (.error _, _) => false) = true ↔ _
    constructor
    · intro passes
      split at passes
      · rename_i g prepared
        generalize scanned : outcome (scan g) {} = result at passes
        obtain ⟨answer, u⟩ := result
        cases answer with
        | error => cases passes
        | ok callees => exact ⟨g, callees, u, prepared, scanned⟩
      · cases passes
    · rintro ⟨g, callees, u, prepared, scanned⟩
      rw [prepared]
      simp only [scanned]
      rfl)

theorem processes_of_scan {callees : FunctionSet} (preparing : Succeeds Function.prepare f () g)
    (scanning : Succeeds (scan g) u callees v) : Processes f := by
  have prepared := (Function.prepared_of_prepare preparing).1
  obtain ⟨callees, w, ran⟩ :=
    scan_runs prepared (scannable_of_scan prepared scanning) coherent_fresh.layered
  exact ⟨g, callees, w, preparing, ran⟩

theorem mem_callees_iff {callees : FunctionSet} (preparing : Succeeds Function.prepare f () g)
    (scanning : Succeeds (scan g) u callees v) : id ∈ callees ↔ f.CallsTo id := by
  obtain ⟨prepared, _, _, atoms⟩ := Function.prepared_of_prepare preparing
  rw [(scan_calls scanning).1 id]
  constructor
  · rintro ⟨i, _, ty, args, found⟩
    cases i with
    | null => cases found
    | ref n =>
      rw [get?_ref, atoms] at found
      exact ⟨n, ty, args, found⟩
  · rintro ⟨n, ty, args, found⟩
    rw [← atoms] at found
    exact ⟨.ref n, prepared.shown_of_effect found rfl, ty, args, found⟩

/-! ### One function -/

theorem missing_failed {ids : List FunctionId} {e : LinkFault}
    (h : outcome (missing r ids) u = (.error e, v)) :
    v = u ∧ ∃ id ∈ ids, e = .unknownCallable id ∧ r.get? id = none := by
  unfold missing at h
  rw [outcome_get_bind] at h
  obtain ⟨id, member, failed⟩ := outcome_mapM_error (by
    intro id f v answered
    cases found : r.get? id with
    | none =>
      rw [found] at answered
      exact (Succeeds.of_throw answered).elim
    | some g =>
      rw [found] at answered
      exact (Succeeds.of_pure.1 answered).2.symm) h
  cases found : r.get? id with
  | none =>
    rw [found] at failed
    cases failed
    exact ⟨rfl, id, (List.mem_filter.1 member).1, rfl, found⟩
  | some f =>
    rw [found] at failed
    cases failed

theorem addOne_lists (h : Succeeds (addOne r f) u needed v) :
    ∃ g callees, Succeeds Function.prepare f () g ∧ Processes f ∧ (∀ id, id ∈ callees ↔ f.CallsTo id) ∧
      v.functions = u.functions ++ [g] ∧ v.dependencies = u.dependencies.insert f.id callees ∧
      List.Forall₂ (fun id f => r.get? id = some f)
        (callees.toList.filter fun id => !u.contains id) needed := by
  obtain ⟨g, callees, w, preparing, scanning, known, rfl⟩ := addOne_succeeds.1 h
  obtain ⟨functions, dependencies⟩ := scan_frame scanning
  have same : g.id = f.id := (Function.prepared_of_prepare preparing).2.1
  refine ⟨g, callees, preparing, processes_of_scan preparing scanning,
    fun id => mem_callees_iff preparing scanning, ?_, ?_, ?_⟩
  · simp only [functions]
  · simp only [dependencies, same]
  · simpa only [contains, dependencies] using known

theorem mem_addOne (h : Succeeds (addOne r f) u needed v) :
    id ∈ v.dependencies ↔ id = f.id ∨ id ∈ u.dependencies := by
  obtain ⟨_, callees, _, _, _, _, dependencies, _⟩ := addOne_lists h
  rw [dependencies, Std.ExtTreeMap.mem_insert, Std.LawfulEqCmp.compare_eq_iff_eq, eq_comm]

/-- A function that cannot be added leaves the lists as they are, and no cycle is the reason. Where it
can be processed, it calls a number that the registry does not have. -/
theorem addOne_failed {e : LinkFault} (h : outcome (addOne r f) u = (.error e, v)) :
    listed v = listed u ∧ Local e ∧ (Processes f → Aggregates.Layered u.aggregates →
      ∃ id, e = .unknownCallable id ∧ f.CallsTo id ∧ r.get? id = none) := by
  unfold addOne at h
  generalize prepared : Function.prepare.apply f = result at h
  obtain ⟨answer, g⟩ := result
  rcases outcome_bind_error h with failed | ⟨_, _, asked, h⟩
  · cases answer with
    | ok => cases failed
    | error fault =>
      cases failed
      refine ⟨rfl, fun _ same => (nomatch same), ?_⟩
      rintro ⟨_, _, _, preparing, _⟩ _
      cases (show outcome Function.prepare f = _ from prepared).symm.trans preparing
  · obtain ⟨rfl, rfl⟩ := ask_succeeds.1 asked
    have preparing : Succeeds Function.prepare f () g := prepared
    rcases outcome_bind_error h with failed | ⟨callees, w, scanning, h⟩
    · have kept := (scan_confined g).keeps u
      rw [failed] at kept
      refine ⟨kept, (scan_confined g).fails u e (congrArg Prod.fst failed), ?_⟩
      rintro ⟨g', _, _, preparing', scanning⟩ layered
      cases (Prod.mk.inj (preparing.symm.trans preparing')).2
      have ready := (Function.prepared_of_prepare preparing).1
      obtain ⟨_, _, ran⟩ := scan_runs ready (scannable_of_scan ready scanning) layered
      cases failed.symm.trans ran
    · rcases outcome_bind_error h with failed | ⟨_, _, _, h⟩
      · obtain ⟨rfl, id, member, rfl, absent⟩ := missing_failed failed
        obtain ⟨functions, dependencies⟩ := scan_frame scanning
        refine ⟨Prod.ext functions dependencies, fun _ same => (nomatch same),
          fun _ _ => ⟨id, rfl, ?_, absent⟩⟩
        exact (mem_callees_iff preparing scanning).1 (Std.ExtTreeSet.mem_toList.1 member)
      · cases h

/-! ### The list of pending functions -/

/-- A run through pending functions: what it answers and the unit it leaves. -/
inductive Passes (r : Registry) : Nat → List Function → Linkage → Except LinkFault Bool → Linkage → Prop
  | done {fuel : Nat} {u : Linkage} : Passes r fuel [] u (.ok false) u
  | spent {pending : List Function} {u : Linkage} : Passes r 0 pending u (.ok false) u
  | skip {fuel : Nat} {f : Function} {rest : List Function} {u v : Linkage} {answer : Except LinkFault Bool}
      (known : f.id ∈ u.dependencies) (later : Passes r fuel rest u answer v) :
      Passes r (fuel + 1) (f :: rest) u answer v
  | fail {fuel : Nat} {f : Function} {rest : List Function} {u v : Linkage} {e : LinkFault}
      (new : f.id ∉ u.dependencies) (failed : outcome (addOne r f) u = (.error e, v)) :
      Passes r (fuel + 1) (f :: rest) u (.error e) v
  | add {fuel : Nat} {f : Function} {rest needed : List Function} {u v w : Linkage}
      {answer : Except LinkFault Bool} (new : f.id ∉ u.dependencies)
      (added : Succeeds (addOne r f) u needed w) (later : Passes r fuel (rest ++ needed) w answer v) :
      Passes r (fuel + 1) (f :: rest) u (answer.map fun _ => true) v

theorem passes_addPending (r : Registry) (fuel : Nat) (pending : List Function) (u : Linkage) :
    Passes r fuel pending u (outcome (addPending r fuel pending) u).1
      (outcome (addPending r fuel pending) u).2 := by
  induction fuel generalizing pending u with
  | zero =>
    have stopped : addPending r 0 pending = pure false := by cases pending <;> rfl
    rw [stopped]
    exact .spent
  | succ fuel ih =>
    cases pending with
    | nil => exact .done
    | cons f rest =>
      have opened : outcome (addPending r (fuel + 1) (f :: rest)) u =
          outcome (if u.contains f.id then addPending r fuel rest else do
            let needed ← addOne r f
            let _ ← addPending r fuel (rest ++ needed)
            return true) u := rfl
      rw [opened]
      split
      · rename_i known
        exact .skip (contains_iff_mem.1 known) (ih rest u)
      · rename_i unknown
        rw [contains_iff_mem] at unknown
        rw [outcome_bind]
        cases one : outcome (addOne r f) u with
        | mk answer w =>
          cases answer with
          | error e => exact .fail unknown one
          | ok needed =>
            have later := Passes.add unknown one (ih (rest ++ needed) w)
            simp only [outcome_bind]
            generalize outcome (addPending r fuel (rest ++ needed)) w = result at later ⊢
            obtain ⟨answer, v⟩ := result
            cases answer <;> exact later

/-! ### Records -/

/-- What a unit lists: functions of the registry, each prepared and listed once, with exactly what
their atoms call. -/
structure Records (r : Registry) (u : Linkage) : Prop where
  once : (u.functions.map (·.id)).Nodup
  known : ∀ id, id ∈ u.dependencies ↔ id ∈ u.functions.map (·.id)
  prepared : ∀ g ∈ u.functions, ∃ f, r.get? g.id = some f ∧ Succeeds Function.prepare f () g ∧
    Processes f
  calls : ∀ caller callee, u.dependencies.Calls caller callee ↔
    caller ∈ u.dependencies ∧ r.Calls caller callee

theorem records_fresh (r : Registry) : Records r {} := by
  refine ⟨List.nodup_nil, fun id => ?_, fun g member => absurd member List.not_mem_nil,
    fun caller callee => ?_⟩
  · simp
  · simp [CallGraph.Calls]

theorem Records.registered (records : Records r u) (known : id ∈ u.dependencies) :
    ∃ f, r.get? id = some f ∧ Processes f := by
  obtain ⟨g, member, rfl⟩ := List.mem_map.1 ((records.known id).1 known)
  obtain ⟨f, found, _, processes⟩ := records.prepared g member
  exact ⟨f, found, processes⟩

theorem Records.of_listed (records : Records r u) (same : listed v = listed u) : Records r v := by
  obtain ⟨functions, dependencies⟩ := Prod.mk.inj same
  obtain ⟨once, known, prepared, calls⟩ := records
  rw [← functions] at once known prepared
  rw [← dependencies] at known calls
  exact ⟨once, known, prepared, calls⟩

theorem Records.addOne (records : Records r u) (found : r.get? f.id = some f) (new : f.id ∉ u.dependencies)
    (h : Succeeds (addOne r f) u needed v) : Records r v := by
  obtain ⟨g, callees, preparing, processes, members, functions, dependencies, _⟩ := addOne_lists h
  have same : g.id = f.id := (Function.prepared_of_prepare preparing).2.1
  refine ⟨?_, ?_, ?_, ?_⟩
  · rw [functions, List.map_append, List.map_singleton, List.nodup_append]
    refine ⟨records.once, List.nodup_singleton _, fun id old other here clash => new ?_⟩
    rw [records.known, ← same, ← List.mem_singleton.1 here, ← clash]
    exact old
  · intro id
    rw [mem_addOne h, records.known, functions, List.map_append, List.mem_append, List.map_singleton,
      List.mem_singleton, same, or_comm]
  · intro other member
    rw [functions, List.mem_append, List.mem_singleton] at member
    rcases member with old | rfl
    · exact records.prepared other old
    · exact ⟨f, same ▸ found, preparing, processes⟩
  · intro caller callee
    rw [mem_addOne h, dependencies, CallGraph.calls_insert, records.calls, members]
    constructor
    · rintro (⟨rfl, call⟩ | ⟨_, old, call⟩)
      · exact ⟨Or.inl rfl, (Registry.calls_iff found).2 call⟩
      · exact ⟨Or.inr old, call⟩
    · rintro ⟨listed, call⟩
      by_cases here : caller = f.id
      · subst here
        exact Or.inl ⟨rfl, (Registry.calls_iff found).1 call⟩
      · exact Or.inr ⟨here, listed.resolve_left here, call⟩

/-- A unit that has got functions reached from some numbers and has lost none. -/
structure Gains (r : Registry) (entries : List FunctionId) (u v : Linkage) : Prop where
  records : Records r v
  kept : ∀ id ∈ u.dependencies, id ∈ v.dependencies
  reached : ∀ id ∈ v.dependencies, id ∈ u.dependencies ∨ r.Reaches entries id

theorem Gains.refl {entries : List FunctionId} (records : Records r u) : Gains r entries u u :=
  ⟨records, fun _ member => member, fun _ member => Or.inl member⟩

theorem Gains.of_listed {entries : List FunctionId} (gains : Gains r entries u v)
    (same : listed w = listed v) : Gains r entries u w := by
  refine ⟨gains.records.of_listed same, ?_, ?_⟩ <;> rw [(Prod.mk.inj same).2]
  · exact gains.kept
  · exact gains.reached

theorem Gains.trans {entries others : List FunctionId} (first : Gains r entries u v)
    (second : Gains r others v w) (each : ∀ other ∈ others, r.Reaches entries other) :
    Gains r entries u w := by
  refine ⟨second.records, fun id member => second.kept id (first.kept id member), fun id member => ?_⟩
  rcases second.reached id member with old | reached
  · exact first.reached id old
  · exact Or.inr (reached.trans each)

theorem get?_of_needed {ids : List FunctionId}
    (known : List.Forall₂ (fun id f => r.get? id = some f) ids needed) :
    (∀ f ∈ needed, r.get? f.id = some f) ∧ needed.map (·.id) = ids := by
  induction known with
  | nil => exact ⟨fun f member => absurd member List.not_mem_nil, rfl⟩
  | @cons id f _ _ first _ ih =>
    have same := r.keyed id f first
    refine ⟨fun g member => ?_, by rw [List.map_cons, same, ih.2]⟩
    rcases List.mem_cons.1 member with rfl | later
    · rw [same]
      exact first
    · exact ih.1 g later

/-- What one addition asks for: just what the function calls and the unit does not have. -/
theorem addOne_needs (h : Succeeds (addOne r f) u needed v) :
    (∀ g ∈ needed, r.get? g.id = some g) ∧
      ∀ id, id ∈ needed.map (·.id) ↔ f.CallsTo id ∧ id ∉ u.dependencies := by
  obtain ⟨_, callees, _, _, members, _, _, known⟩ := addOne_lists h
  obtain ⟨registered, ids⟩ := get?_of_needed known
  refine ⟨registered, fun id => ?_⟩
  rw [ids, List.mem_filter, Std.ExtTreeSet.mem_toList, members, Bool.not_eq_true',
    contains_eq_false_iff]

/-- Of what is pending after an addition, all is registered and reached from what was pending before. -/
theorem addOne_pending {rest : List Function}
    (registered : ∀ g ∈ f :: rest, r.get? g.id = some g) (h : Succeeds (addOne r f) u needed v) :
    (∀ g ∈ rest ++ needed, r.get? g.id = some g) ∧
      ∀ other ∈ (rest ++ needed).map (·.id), r.Reaches ((f :: rest).map (·.id)) other := by
  obtain ⟨known, ids⟩ := addOne_needs h
  refine ⟨fun g member => ?_, fun other member => ?_⟩
  · rcases List.mem_append.1 member with old | asked
    · exact registered g (List.mem_cons_of_mem _ old)
    · exact known g asked
  · rw [List.map_append, List.mem_append] at member
    rcases member with old | asked
    · exact Registry.reaches_of_mem (List.mem_cons_of_mem _ old)
    · have call := (Registry.calls_iff (registered f List.mem_cons_self)).2 ((ids other).1 asked).1
      exact (Registry.reaches_of_mem List.mem_cons_self).tail call

theorem Gains.addOne (records : Records r u) (found : r.get? f.id = some f) (new : f.id ∉ u.dependencies)
    (h : Succeeds (addOne r f) u needed v) : Gains r [f.id] u v := by
  refine ⟨records.addOne found new h, fun id member => (mem_addOne h).2 (Or.inr member), fun id member => ?_⟩
  rcases (mem_addOne h).1 member with rfl | old
  · exact Or.inr (Registry.reaches_of_mem List.mem_cons_self)
  · exact Or.inl old

/-- However a run through pending functions ends, it has only added what they reach. -/
theorem Passes.gains {fuel : Nat} {answer : Except LinkFault Bool}
    (passes : Passes r fuel pending u answer v) (records : Records r u)
    (registered : ∀ f ∈ pending, r.get? f.id = some f) : Gains r (pending.map (·.id)) u v := by
  induction passes with
  | done | spent => exact .refl records
  | skip _ _ ih =>
    have later := ih records fun g member => registered g (List.mem_cons_of_mem _ member)
    exact (Gains.refl records).trans later fun _ member =>
      Registry.reaches_of_mem (List.mem_cons_of_mem _ member)
  | fail new failed => exact (Gains.refl records).of_listed (addOne_failed failed).1
  | @add _ f rest needed _ _ _ _ new added _ ih =>
    have one := Gains.addOne records (registered f List.mem_cons_self) new added
    obtain ⟨registered', reached⟩ := addOne_pending registered added
    refine ((Gains.refl records).trans one fun other here => ?_).trans (ih one.records registered') reached
    rw [List.mem_singleton.1 here]
    exact Registry.reaches_of_mem List.mem_cons_self

/-- With steps to spare, a run that succeeds has added all pending functions, and whatever it has
added calls only what the unit has. -/
theorem Passes.closes {fuel : Nat} {answer : Except LinkFault Bool} {added : Bool}
    (passes : Passes r fuel pending u answer v) (succeeded : answer = .ok added) (records : Records r u)
    (registered : ∀ f ∈ pending, r.get? f.id = some f) (enough : pending.length + debt r u ≤ fuel) :
    (∀ f ∈ pending, f.id ∈ v.dependencies) ∧ ∀ caller ∈ v.dependencies, caller ∉ u.dependencies →
      ∀ callee, r.Calls caller callee → callee ∈ v.dependencies := by
  induction passes generalizing added with
  | done => exact ⟨fun f member => absurd member List.not_mem_nil, fun _ here gone => absurd here gone⟩
  | @spent pending _ =>
    have none : pending = [] := List.length_eq_zero_iff.1 (by omega)
    subst none
    exact ⟨fun f member => absurd member List.not_mem_nil, fun _ here gone => absurd here gone⟩
  | skip known later ih =>
    have registered' := fun g member => registered g (List.mem_cons_of_mem _ member)
    rw [List.length_cons] at enough
    obtain ⟨all, closed⟩ := ih succeeded records registered' (by omega)
    refine ⟨fun g member => ?_, closed⟩
    rcases List.mem_cons.1 member with rfl | member
    · exact (later.gains records registered').kept _ known
    · exact all g member
  | fail => cases succeeded
  | @add _ f rest needed u v w answer new one later ih =>
    have found := registered f List.mem_cons_self
    have gains := Gains.addOne records found new one
    obtain ⟨_, ids⟩ := addOne_needs one
    obtain ⟨registered', _⟩ := addOne_pending registered one
    -- What the function asks for is paid from its share of the debt, so the steps left are enough.
    obtain ⟨cost, _⟩ := debt_addOne (mem_functions found) (contains_eq_false_iff.2 new) one
    obtain ⟨added', ok⟩ : ∃ added', answer = .ok added' := by
      cases answer with
      | error e => cases succeeded
      | ok added' => exact ⟨added', rfl⟩
    rw [List.length_cons] at enough
    obtain ⟨all, closed⟩ := ih ok gains.records registered' (by rw [List.length_append]; omega)
    have kept := (later.gains gains.records registered').kept
    refine ⟨fun g member => ?_, fun caller here gone callee call => ?_⟩
    · rcases List.mem_cons.1 member with rfl | member
      · exact kept _ ((mem_addOne one).2 (Or.inl rfl))
      · exact all g (List.mem_append_left _ member)
    -- A new caller is the function itself, whose callees are there or asked for, or a later one.
    · by_cases same : caller = f.id
      · subst same
        by_cases old : callee ∈ u.dependencies
        · exact kept _ (gains.kept _ old)
        · obtain ⟨g, member, rfl⟩ := List.mem_map.1 ((ids callee).2 ⟨(Registry.calls_iff found).1 call, old⟩)
          exact all g (List.mem_append_right _ member)
      · refine closed caller here (fun old => ?_) callee call
        exact ((mem_addOne one).1 old).elim same gone

end Linkage

end ShaderForge
