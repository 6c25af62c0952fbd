import ShaderForge.Proofs.Linkage.Closure

/-!
Additions after failed ones. A failure keeps what was listed before it, and a function that is listed
counts as added: later additions neither complete what it calls nor place it.
-/

namespace ShaderForge.Linkage

open Relation

variable {r : Registry} {u v : Linkage} {pending : List Function} {ids : List FunctionId} {id : FunctionId}

/-- The unit that attempts to add some numbers leave, whether they succeed or not. -/
def attempts (r : Registry) (ids : List FunctionId) : Linkage :=
  ids.foldl (fun u id => ((add r id).apply u).2) {}

theorem attempts_concat (r : Registry) (ids : List FunctionId) (id : FunctionId) :
    attempts r (ids ++ [id]) = (outcome (add r id) (attempts r ids)).2 := by
  unfold attempts
  rw [List.foldl_append]
  rfl

theorem attempts_gains (r : Registry) (ids : List FunctionId) : Gains r ids {} (attempts r ids) := by
  induction ids using List.reverseRecOn with
  | nil => exact .refl (records_fresh r)
  | append_singleton ids id ih =>
    rw [attempts_concat]
    have wider : Gains r (ids ++ [id]) {} (attempts r ids) :=
      (Gains.refl (records_fresh r)).trans ih fun other member =>
        Registry.reaches_of_mem (List.mem_append_left _ member)
    exact wider.trans ((adds_add r id (attempts r ids)).gains ih.records) fun other member =>
      Registry.reaches_of_mem (List.mem_append_right _ member)

theorem Passes.local {fuel : Nat} {answer : Except LinkFault Bool} {e : LinkFault}
    (passes : Passes r fuel pending u answer v) (failed : answer = .error e) : Local e := by
  induction passes with
  | done | spent => cases failed
  | skip _ _ ih => exact ih failed
  | fail _ one =>
    cases failed
    exact (addOne_failed one).2.1
  | @add _ _ _ _ _ _ _ answer _ _ _ ih =>
    cases answer with
    | ok => cases failed
    | error =>
      cases failed
      exact ih rfl

/-- All that a number reaches is there, and callees come first. -/
structure Complete (r : Registry) (id : FunctionId) (u : Linkage) : Prop where
  present : ∀ other, r.Reaches [id] other → other ∈ u.functions.map (·.id)
  calleesFirst : CalleesFirst r.Calls (u.functions.map (·.id))

theorem Records.complete (records : Records r u) (settled : Settled u) (known : id ∈ u.dependencies) :
    Complete r id u := by
  refine ⟨fun other reached => ?_, records.calleesFirst settled⟩
  rw [← records.known]
  exact records.mem_of_reaches settled.closed (fun entry here => List.mem_singleton.1 here ▸ known) reached

/-- A unit that cannot be sorted has a cycle of the registry or lacks something that one of its
functions calls. -/
theorem Records.unsortable (records : Records r u)
    (bad : ¬ (u.dependencies.Closed ∧ u.dependencies.Acyclic)) :
    (∃ other ∈ u.dependencies, TransGen r.Calls other other) ∨
      ∃ caller callee, caller ∈ u.dependencies ∧ r.Calls caller callee ∧ callee ∉ u.dependencies := by
  by_contra neither
  rw [not_or] at neither
  obtain ⟨straight, closed⟩ := neither
  refine bad ⟨fun caller callee call => ?_,
    records.acyclic fun other known cycle => straight ⟨other, known, cycle⟩⟩
  by_contra absent
  obtain ⟨known, call⟩ := (records.calls caller callee).1 call
  exact closed ⟨caller, callee, known, call, absent⟩

/-- After any attempts, a number that is added without a fault is complete just where it is new or was
complete before. A cycle that is answered is one that the attempts reach, or else some function was
listed before and calls a number that still is not. -/
theorem add_attempted (r : Registry) (ids : List FunctionId) (id : FunctionId) :
    (∀ v, (add r id).apply (attempts r ids) = (.ok ⟨⟩, v) →
      (Complete r id v ↔ id ∉ (attempts r ids).dependencies ∨ Complete r id (attempts r ids))) ∧
    ∀ names v, (add r id).apply (attempts r ids) = (.error (.cycle names), v) →
      (∃ other, r.Reaches (ids ++ [id]) other ∧ TransGen r.Calls other other) ∨
        ∃ caller callee, caller ∈ (attempts r ids).dependencies ∧ r.Calls caller callee ∧
          callee ∉ v.dependencies := by
  have before := attempts_gains r ids
  have adds := adds_add r id (attempts r ids)
  have after := attempts_gains r (ids ++ [id])
  rw [attempts_concat] at after
  refine ⟨fun v run => ?_, fun names v run => ?_⟩ <;>
    rw [show outcome (add r id) (attempts r ids) = _ from run] at adds after
  · rcases adds.settled before.records with ⟨known, ⟨old, rfl⟩ | ⟨new, settled⟩⟩
    · simp [old]
    · exact iff_of_true (after.records.complete settled known) (Or.inl new)
  · generalize fault : (Except.error (.cycle names) : Except LinkFault PUnit.{1}) = answer at adds
    cases adds with
    | unknown | again | sort => cases fault
    | fail _ _ passes =>
      -- Only sorting answers a cycle.
      cases fault
      exact (passes.local rfl names rfl).elim
    | stuck found _ passes bad =>
      rcases after.records.unsortable bad with ⟨other, known, cycle⟩ | ⟨caller, callee, known, call, absent⟩
      · exact Or.inl ⟨other, (after.reached other known).resolve_left (by simp), cycle⟩
      · refine Or.inr ⟨caller, callee, ?_, call, absent⟩
        -- What this addition has listed calls only what is listed, so the caller stood there before.
        by_contra new
        exact absent ((passes.entry before.records found).2 caller known new callee call)

/-! ### Failures -/

def answersCycle : Except LinkFault PUnit × Linkage → Bool
  | (.error (.cycle _), _) => true
  | _ => false

theorem answersCycle_iff {result : Except LinkFault PUnit × Linkage} :
    answersCycle result = true ↔ ∃ names v, result = (.error (.cycle names), v) := by
  constructor
  · intro passes
    unfold answersCycle at passes
    split at passes
    · exact ⟨_, _, rfl⟩
    · cases passes
  · rintro ⟨names, v, rfl⟩
    rfl

/-- The first procedure calls a number that nothing has, the next two are a chain, the last two call
each other. -/
def interrupted : Registry := callers [[7], [2], [], [4], [3]]

/-- A failure that lists nothing does no harm. -/
theorem interrupted_attempted :
    (∃ v, (add interrupted 1).apply (attempts interrupted [0]) = (.ok ⟨⟩, v) ∧ Complete interrupted 1 v) ∧
    (∃ names v, (add interrupted 3).apply (attempts interrupted [0]) = (.error (.cycle names), v)) ∧
    ∃ other, interrupted.Reaches [0, 3] other ∧ TransGen interrupted.Calls other other := by
  have nothing : ∀ id, id ∉ (attempts interrupted [0]).dependencies := by
    have empty : (attempts interrupted [0]).dependencies = ∅ := by decide +kernel
    simp [empty]
  have added : ((add interrupted 1).apply (attempts interrupted [0])).1.isOk = true := by decide +kernel
  have cyclic : answersCycle ((add interrupted 3).apply (attempts interrupted [0])) = true := by
    decide +kernel
  refine ⟨?_, answersCycle_iff.1 cyclic, ?_⟩
  · generalize run : (add interrupted 1).apply (attempts interrupted [0]) = result at added ⊢
    obtain ⟨answer, v⟩ := result
    cases answer with
    | error => cases added
    | ok =>
      have complete := ((add_attempted interrupted [0] 1).1 v run).2 (Or.inl (nothing 1))
      exact ⟨v, rfl, complete⟩
  · obtain ⟨names, v, run⟩ := answersCycle_iff.1 cyclic
    rcases (add_attempted interrupted [0] 3).2 names v run with
      cycle | ⟨caller, _, listed, _⟩
    · exact cycle
    · exact (nothing caller listed).elim

theorem not_cycle_of_ascending
    (ascending : (r.functions.all fun f => f.callees.all fun callee => f.id < callee) = true) :
    ¬ TransGen r.Calls id id := by
  simp only [List.all_eq_true, decide_eq_true_eq] at ascending
  have later : ∀ caller callee, r.Calls caller callee → caller < callee := by
    rintro caller callee ⟨f, found, call⟩
    rw [← r.keyed caller f found]
    exact ascending f (mem_functions found) callee (Function.callsTo_iff_mem.1 call)
  have rises : ∀ other, TransGen r.Calls id other → id < other := by
    intro other path
    induction path with
    | single call => exact later _ _ call
    | tail _ call ih => exact UInt32.lt_trans ih (later _ _ call)
  exact fun cycle => UInt32.lt_irrefl id (rises id cycle)

/-- A procedure calls another one, which calls a number that nothing has; a third one calls nothing. -/
def dangling : Registry := callers [[1], [7], []]

/-- The first attempt lists the procedure and fails at what it calls. Attempted again, it is taken as
added though what it calls is missing; and a procedure that calls nothing meets a cycle that is none. -/
theorem dangling_not_complete :
    (∃ v, (add dangling 0).apply (attempts dangling [0]) = (.ok ⟨⟩, v) ∧ ¬ Complete dangling 0 v) ∧
    (∃ names v, (add dangling 2).apply (attempts dangling [0]) = (.error (.cycle names), v)) ∧
    ∀ other, ¬ TransGen dangling.Calls other other := by
  have again : (((add dangling 0).apply (attempts dangling [0])).1.isOk &&
      decide (((add dangling 0).apply (attempts dangling [0])).2.functions.map (·.id) = [0])) = true := by
    decide +kernel
  have cyclic : answersCycle ((add dangling 2).apply (attempts dangling [0])) = true := by decide +kernel
  refine ⟨?_, answersCycle_iff.1 cyclic, fun other =>
    not_cycle_of_ascending (by decide +kernel)⟩
  generalize (add dangling 0).apply (attempts dangling [0]) = result at again ⊢
  obtain ⟨answer, v⟩ := result
  rw [Bool.and_eq_true, decide_eq_true_eq] at again
  cases answer with
  | error => cases again.1
  | ok =>
    refine ⟨v, rfl, fun complete => ?_⟩
    have call : dangling.Calls 0 1 := Registry.calls_iff_mem.2 (by decide +kernel)
    have present := complete.present 1 ((Registry.reaches_of_mem List.mem_cons_self).tail call)
    rw [again.2] at present
    simp at present

end ShaderForge.Linkage
