import ShaderForge.Optimizer.Pipeline
import ShaderForge.Proofs.Optimizer.Forwards
import ShaderForge.Proofs.Optimizer.Passes
import ShaderForge.Proofs.Optimizer.Removal
import ShaderForge.Proofs.Typing.Names

/-!
What a pass can do, whatever it answers. It types the buffer at most, unless it reports a change;
then atoms are merged, reads are forwarded or dead atoms are removed. Each of the three leaves a
valid buffer.
-/

namespace ShaderForge

open Buffer

variable {b c : Buffer} {α : Type}

/-! ### Failures -/

theorem Edit.query_outcome {f : Buffer → Except Fault α} {β : Type} {g : α → Edit β}
    {answer : Except Fault β} (h : outcome (Edit.query f >>= g) b = (answer, c)) :
    (∃ e, f b = .error e ∧ answer = .error e ∧ c = b) ∨ ∃ a, f b = .ok a ∧ outcome (g a) b = (answer, c) := by
  rw [outcome_bind, Edit.outcome_query] at h
  cases found : f b with
  | error e =>
    rw [found] at h
    cases h
    exact Or.inl ⟨e, rfl, rfl, rfl⟩
  | ok a =>
    rw [found] at h
    exact Or.inr ⟨a, rfl, h⟩

/-- A buffer is put in place of another one only when that is reported. -/
theorem Edit.replace_outcome {done : Prop} [Decidable done] {next : Buffer → Except Fault Buffer}
    {answer : Except Fault Bool}
    (h : outcome (if done then pure false else do
      set (← Edit.query next)
      return true : Edit Bool) b = (answer, c)) :
    (answer ≠ .ok true ∧ c = b) ∨ (¬ done ∧ answer = .ok true ∧ next b = .ok c) := by
  split at h
  · cases h
    exact Or.inl ⟨nofun, rfl⟩
  · rename_i undone
    rcases Edit.query_outcome h with ⟨e, _, rfl, rfl⟩ | ⟨d, found, h⟩
    · exact Or.inl ⟨nofun, rfl⟩
    · cases h
      exact Or.inr ⟨undone, rfl, found⟩

namespace Optimizer

/-- A pass that needs types fails in typing, or does the rest on the typed buffer. -/
theorem whenTyped_outcome {rest : Edit Bool} {answer : Except Fault Bool}
    (h : outcome (whenTyped rest) b = (answer, c)) :
    ((answer = .ok false ∨ ∃ e, answer = .error e ∧ Typing.analyze b = .error e) ∧ c = b) ∨
      ∃ d, Readied b d ∧ outcome rest d = (answer, c) := by
  unfold whenTyped at h
  rw [outcome_bind] at h
  change outcome (if b.isEmpty then pure false else _) b = _ at h
  split at h
  · cases h
    exact Or.inl ⟨Or.inl rfl, rfl⟩
  · rename_i present
    rw [outcome_bind] at h
    change outcome (if !b.isAnalyzed then _ else _) b = _ at h
    have nonempty : b.isEmpty = false := Bool.eq_false_iff.2 present
    cases analyzed : b.isAnalyzed with
    | true =>
      rw [analyzed] at h
      exact Or.inr ⟨b, ⟨nonempty, by rw [if_pos analyzed]⟩, h⟩
    | false =>
      rw [analyzed] at h
      change outcome (Buffer.analyze >>= fun _ => rest) b = _ at h
      rw [outcome_bind] at h
      cases typed : outcome Buffer.analyze b with
      | mk typing d =>
        rw [typed] at h
        cases typing with
        | ok _ =>
          refine Or.inr ⟨d, ⟨nonempty, ?_⟩, h⟩
          rw [analyzed]
          exact typed
        | error e =>
          cases h
          unfold Buffer.analyze at typed
          rw [outcome_bind] at typed
          rcases Edit.query_outcome typed with ⟨_, failed, same, left⟩ | ⟨_, _, set⟩
          · cases same
            exact Or.inl ⟨Or.inr ⟨e, rfl, failed⟩, left⟩
          · cases set

/-! ### Changes -/

/-- The change that a pass reports. -/
inductive Rewrites (b c : Buffer) : Prop
  | merged {firsts : List Index} (occurrences : Occurrences b firsts)
      (fewer : (kept firsts).length ≠ firsts.length)
      (rebuilt : b.rebuild (kept firsts) (mergeMap (kept firsts) firsts) = .ok c)
  | forwarded {divert : Index → Index} (diverts : Diverts b divert)
      (moved : ∃ a ∈ b.atoms.toList, divert a.addresses.1 < a.addresses.1 ∨
        divert a.addresses.2 < a.addresses.2)
      (changed : c = (diverted b divert).invalidate)
  | dropped {kept : IndexSet} (found : alive b = .ok kept) (fewer : kept.toList.length ≠ b.size)
      (rebuilt : b.rebuild kept.toList (removalMap b kept.toList) = .ok c)

theorem ForwardTable.lower {written : IndexSet} {forward : IndexMap Index} {i : Index}
    (backward : b.Backward) (table : ForwardTable b written forward b.size)
    (entered : forward.contains i = true) : forward.getD i i < i := by
  obtain ⟨v, entry⟩ : ∃ v, forward[i]? = some v := by
    rw [← Option.isSome_iff_exists, Std.ExtTreeMap.isSome_getElem?_eq_contains]
    exact entered
  obtain ⟨n, a, item, rfl, _, _, early, rfl⟩ := table.entry backward entry
  rw [Std.ExtTreeMap.getD_eq_getD_getElem?, entry]
  exact Nat.lt_of_le_of_lt ((table.diverts backward).lower item) early

theorem forwardReads_outcome (backward : b.Backward) {answer : Except Fault Bool}
    (h : outcome forwardReads b = (answer, c)) :
    (answer ≠ .ok true ∧ c = b) ∨ (answer = .ok true ∧ Rewrites b c) := by
  unfold forwardReads at h
  rcases Edit.query_outcome h with ⟨e, _, rfl, rfl⟩ | ⟨forward, found, h⟩
  · exact Or.inl ⟨nofun, rfl⟩
  obtain ⟨written, _, table⟩ := forwards_table backward found
  rw [outcome_bind] at h
  change outcome (if (b.atoms.any fun a => [a.addresses.1, a.addresses.2].any fun i =>
    forward.contains i) = true then _ else _) b = _ at h
  split at h
  · rename_i moved
    cases h
    refine Or.inr ⟨congrArg Except.ok moved, .forwarded (table.diverts backward) ?_ rfl⟩
    obtain ⟨n, inside, used⟩ := Array.any_eq_true.1 moved
    refine ⟨b.atoms[n], Array.getElem_mem_toList inside, ?_⟩
    simp only [List.any_cons, List.any_nil, Bool.or_false, Bool.or_eq_true] at used
    exact used.imp (table.lower backward) (table.lower backward)
  · rename_i still
    cases h
    exact Or.inl ⟨fun same => still (Except.ok.inj same), rfl⟩

theorem dropDead_outcome {answer : Except Fault Bool} (h : outcome dropDead b = (answer, c)) :
    (answer ≠ .ok true ∧ c = b) ∨ (answer = .ok true ∧ Rewrites b c) := by
  unfold dropDead at h
  rcases Edit.query_outcome h with ⟨e, _, rfl, rfl⟩ | ⟨kept, found, h⟩
  · exact Or.inl ⟨nofun, rfl⟩
  rw [outcome_bind] at h
  rcases Edit.replace_outcome h with still | ⟨fewer, changed, rebuilt⟩
  · exact Or.inl still
  · exact Or.inr ⟨changed, .dropped found fewer rebuilt⟩

theorem Readied.valid (readied : Readied b c) (valid : b.validate = .ok ()) : c.validate = .ok () := by
  obtain rfl | ⟨types, hints, found, rfl⟩ := readied.cases
  · exact valid
  · exact validate_withAnalysis valid found

/-- All that a pass can do to a valid buffer: it may type it, and makes a change when it says so. -/
theorem run_cases {p : Pass} {answer : Except Fault Bool} (valid : b.validate = .ok ())
    (h : outcome p.run b = (answer, c)) :
    ∃ d, (d = b ∨ Readied b d) ∧ d.validate = .ok () ∧
      ((answer ≠ .ok true ∧ c = d) ∨ (answer = .ok true ∧ Rewrites d c)) := by
  have typedFirst : ∀ {rest : Edit Bool}, outcome (whenTyped rest) b = (answer, c) →
      (∀ d, d.validate = .ok () → outcome rest d = (answer, c) →
        (answer ≠ .ok true ∧ c = d) ∨ (answer = .ok true ∧ Rewrites d c)) →
      ∃ d, (d = b ∨ Readied b d) ∧ d.validate = .ok () ∧
        ((answer ≠ .ok true ∧ c = d) ∨ (answer = .ok true ∧ Rewrites d c)) := by
    intro rest h cases
    rcases whenTyped_outcome h with ⟨still, same⟩ | ⟨d, readied, h⟩
    · refine ⟨b, Or.inl rfl, valid, Or.inl ⟨?_, same⟩⟩
      rcases still with rfl | ⟨e, rfl, _⟩ <;> nofun
    · exact ⟨d, Or.inr readied, readied.valid valid, cases d (readied.valid valid) h⟩
  cases p with
  | compaction =>
    refine ⟨b, Or.inl rfl, valid, ?_⟩
    rw [Pass.run, compact] at h
    rcases Edit.query_outcome h with ⟨e, _, rfl, rfl⟩ | ⟨firsts, found, h⟩
    · exact Or.inl ⟨nofun, rfl⟩
    · rcases Edit.replace_outcome h with still | ⟨fewer, changed, rebuilt⟩
      · exact Or.inl still
      · have occurrences := occurrences_of_firstOccurrences (backward_of_validate valid) found
        exact Or.inr ⟨changed, .merged occurrences fewer rebuilt⟩
  | elision =>
    rw [Pass.run, elide_eq] at h
    exact typedFirst h fun d valid h => forwardReads_outcome (backward_of_validate valid) h
  | deadCode =>
    rw [Pass.run, eliminate_eq] at h
    exact typedFirst h fun d _ h => dropDead_outcome h

/-! ### Validity -/

theorem Diverts.valid {divert : Index → Index} (diverts : Diverts b divert) (valid : b.validate = .ok ()) :
    (diverted b divert).validate = .ok () := by
  obtain ⟨checked, noted⟩ := validate_ok_iff.1 valid
  have backward := diverts.backward (backward_of_validate valid)
  refine validate_ok_iff.2 ⟨fun n a found => ⟨fun o used => ?_, ?_⟩, fun i notes => ?_⟩
  · obtain ⟨k, rfl, early⟩ := backward n a found o used
    exact Index.ref_lt_ref.2 early
  · rintro kind cond failto rfl
    rw [diverted_getElem?] at found
    obtain ⟨a, before, same⟩ := Option.map_eq_some_iff.1 found
    cases a with
    | branch kind' cond' failto' =>
      cases same
      rcases (checked n _ before).2 kind cond' failto' rfl with rfl | ⟨later, kind', cond'', next, target⟩
      · exact Or.inl diverts.null
      · cases failto' with
        | null => cases target
        | ref t =>
          rw [diverts.fixed target rfl]
          refine Or.inr ⟨later, kind', divert cond'', divert next, ?_⟩
          rw [get?_ref, diverted_getElem?, ← get?_ref, target]
          rfl
    | _ => cases same
  · obtain ⟨a, found⟩ := noted i notes
    cases i with
    | null => cases found
    | ref n =>
      refine ⟨a.mapAddresses divert, ?_⟩
      rw [get?_ref, diverted_getElem?, ← get?_ref, found]
      rfl

theorem Rewrites.valid (rewrites : Rewrites b c) (valid : b.validate = .ok ()) : c.validate = .ok () := by
  cases rewrites with
  | merged occurrences _ rebuilt => exact occurrences.valid valid rebuilt
  | forwarded diverts _ changed =>
    subst changed
    exact validate_congr (diverts.valid valid) rfl rfl rfl
  | dropped found _ rebuilt =>
    obtain ⟨_, _, surviving⟩ := surviving_of_alive found
    exact surviving.kernel.valid valid rebuilt

theorem run_valid {p : Pass} {answer : Except Fault Bool} (valid : b.validate = .ok ())
    (h : outcome p.run b = (answer, c)) : c.validate = .ok () := by
  obtain ⟨d, _, valid', ⟨_, rfl⟩ | ⟨_, rewrites⟩⟩ := run_cases valid h
  · exact valid'
  · exact rewrites.valid valid'

end Optimizer

end ShaderForge
