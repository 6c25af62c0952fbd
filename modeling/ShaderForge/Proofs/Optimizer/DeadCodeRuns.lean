import ShaderForge.Proofs.Optimizer.Answers
import ShaderForge.Proofs.Optimizer.Passes
import ShaderForge.Proofs.Optimizer.Removal
import ShaderForge.Proofs.Typing.Names

/-!
What dead code elimination does to the answers of native code. Atoms are marked from anchored and
from captured ones, and only the anchored ones are sure to stay. Where the captured ones stay too, so
does everything marked; a captured atom that nothing uses is removed, and with it goes the mark of
what it captures.
-/

namespace ShaderForge.Optimizer

open Buffer Linkage Native

def CapturesStay (f : Function) : Prop :=
  ∀ kept, alive f.buffer = .ok kept → ∀ i ∈ f.buffer.synthesized, i ∈ kept

theorem readied_iff {raw f : Function} (made : Succeeds Function.prepare raw () f) {d : Buffer} :
    Readied f.buffer d ↔ f.buffer.size ≠ 0 ∧ d = f.buffer := by
  unfold Readied
  by_cases empty : f.buffer.size = 0
  · simp [isEmpty, Array.eq_empty_of_size_eq_zero empty, empty]
  · have typed := (Function.prepared_of_prepare made).1.typed empty
    have present : f.buffer.isEmpty = false := by simpa [isEmpty, size] using empty
    rw [if_pos (typed.isAnalyzed empty), present]
    simp [empty]

theorem exists_eliminate {raw f : Function} (made : Succeeds Function.prepare raw () f) :
    ∃ changed c, Succeeds eliminate f.buffer changed c := by
  rw [eliminate_eq]
  by_cases empty : f.buffer.size = 0
  · have absent : f.buffer.isEmpty = true := by simpa [isEmpty, size] using empty
    exact ⟨false, f.buffer, whenTyped_iff.2 (Or.inl ⟨absent, rfl, rfl⟩)⟩
  · obtain ⟨kept, found⟩ := exists_alive (((Function.prepared_of_prepare made).1.typed empty).isAnalyzed empty)
    obtain ⟨_, _, surviving⟩ := surviving_of_alive found
    obtain ⟨c, rebuilt⟩ := surviving.kernel.rebuild (Function.valid_of_prepare made)
    have dropped : ∃ changed c, Succeeds dropDead f.buffer changed c := by
      by_cases all : kept.toList.length = f.buffer.size
      · exact ⟨false, f.buffer, dropDead_iff.2 ⟨kept, found, by rw [if_pos all]; exact ⟨rfl, rfl⟩⟩⟩
      · exact ⟨true, c, dropDead_iff.2 ⟨kept, found, by rw [if_neg all]; exact ⟨rfl, rebuilt⟩⟩⟩
    obtain ⟨changed, c, dropped⟩ := dropped
    exact ⟨changed, c, whenTyped_iff.2 (Or.inr ⟨_, (readied_iff made).2 ⟨empty, rfl⟩, dropped⟩)⟩

theorem root_stays {f : Function} {g : Buffer} {kept safe : IndexSet} (exempted : exempt f.buffer = .ok safe)
    (surviving : Surviving f.buffer safe kept) (captured : ∀ i ∈ f.buffer.synthesized, i ∈ kept)
    (typed : f.buffer.Typed) (typed' : g.Typed) (types : g.types = f.buffer.types)
    (synthesized : g.synthesized = f.buffer.synthesized) {n : Nat} {a : Atom}
    (there : f.buffer.atoms[n]? = some a) (live : Liveness.isRoot g (.ref n) a = .ok true) :
    .ref n ∈ kept := by
  have live := Liveness.isRoot_congr typed' typed types synthesized live
  unfold Liveness.isRoot at live
  split at live
  · rename_i bound
    exact captured _ (Std.ExtTreeSet.contains_iff_mem.1 bound)
  · exact surviving.exempt _ a there ((mem_exempt exempted there).2 live)

theorem standsFor_eliminate {raw f : Function} {c : Buffer} {changed : Bool}
    (made : Succeeds Function.prepare raw () f) (eliminated : Succeeds eliminate f.buffer changed c)
    (stay : CapturesStay f) : StandsFor { f with buffer := c } f := by
  rw [eliminate_eq] at eliminated
  obtain ⟨_, _, rfl⟩ | ⟨d, readied, dropped⟩ := whenTyped_iff.1 eliminated
  · exact StandsFor.refl f
  obtain ⟨nonempty, rfl⟩ := (readied_iff made).1 readied
  have typed := (Function.prepared_of_prepare made).1.typed nonempty
  obtain ⟨kept, found, dropped⟩ := dropDead_iff.1 dropped
  split at dropped
  · rw [dropped.2]
    exact StandsFor.refl f
  obtain ⟨_, rebuilt⟩ := dropped
  obtain ⟨safe, exempted, surviving⟩ := surviving_of_alive found
  have kernel := surviving.kernel
  have stays : ∀ {n : Nat}, Kept (removedPlace kept.toList) (.ref n) ↔ .ref n ∈ kept :=
    kept_iff.trans Std.ExtTreeSet.mem_toList
  refine ⟨rfl, fun g again => ?_⟩
  obtain ⟨valid, types, hints, marked, args, returns, analyzed, _, _, _, shape⟩ :=
    (Function.prepare_succeeds nonempty).1 again
  obtain ⟨_, known⟩ := Typing.analyze_complete typed (backward_of_validate valid) (c := f.buffer) rfl
  rw [analyzed, Except.ok.injEq, Prod.mk.injEq] at known
  have types' : g.buffer.types = f.buffer.types := by
    rw [shape]
    simp [withAnalysis, known.1]
  have typed' : g.buffer.Typed := (Function.prepared_of_prepare again).1.typed (by rw [shape]; exact nonempty)
  obtain ⟨g', prepared, goes⟩ := Function.prepare_fold again nonempty (fun _ => rebuild_fresh rebuilt)
    (kernel.valid valid rebuilt) (kernel.folds valid rebuilt)
    (fun n a there live => stays.2 (root_stays exempted surviving (stay kept found) typed typed' types'
      (by rw [shape]; rfl) there live))
    (fun n k _ below first second => kernel.order (kept_iff.1 (first.kept kernel.null))
      (kept_iff.1 (second.kept kernel.null)) (Index.ref_lt_ref.2 below))
    (fun n a there remains _ => removedPlace_solo (kept_iff.1 remains))
    (fun n remains _ => removedPlace_solo (kept_iff.1 remains))
  exact ⟨g', _, prepared, goes⟩

/-- Elimination always succeeds, and preserves the answers of every function of a registry as long as
it removes no captured atom. -/
theorem eliminate_sameAnswers {r : Registry} {name : String} {id : FunctionId} {b : Buffer}
    {f : Function} (built : Function.build name id b = .ok f) (known : r.get? id = some f) :
    ∃ changed c, eliminate.apply f.buffer = (.ok changed, c) ∧
      (CapturesStay f → SameAnswers r (r.put { f with buffer := c })) := by
  have made := build_succeeds built
  have same : f.id = id := (Function.prepared_of_prepare made).2.1
  obtain ⟨changed, c, eliminated⟩ := exists_eliminate made
  refine ⟨changed, c, eliminated, fun stay => ?_⟩
  exact sameAnswers_of_echoes (echoes_put (same ▸ known) (standsFor_eliminate made eliminated stay))

/-! ### Two functions -/

/-- A number that nothing uses, and the double of a parameter, captured before a store to the
parameter and returned after it. -/
def captured : Buffer :=
  .ofContent [.type .i32 .null .null, .qualifier (.ref 0) .parameter 0, .literal (.i32 7),
    .operation .addition (.ref 1) (.ref 1), .operation .negation (.ref 1) .null,
    .store (.ref 1) (.ref 4), .ret (.ref 3)] [.ref 3] []

/-- The number is removed. -/
theorem captured_sameAnswers :
    ∃ f changed c, Function.build "f" 0 captured = .ok f ∧
      eliminate.apply f.buffer = (.ok changed, c) ∧ c.size = 6 ∧
      Optimizer.answer? (only f) "f" [3] = some [6] ∧
      SameAnswers (only f) ((only f).put { f with buffer := c }) := by
  obtain ⟨f, changed, c, built, eliminated, holds⟩ := exists_edited eliminate captured (fun f g =>
    (alive f.buffer).toOption.any (·.contains (.ref 3)) && f.buffer.synthesized.toList == [.ref 3] &&
      g.buffer.size == 6 && f.id == 0 && Optimizer.answer? (only f) "f" [3] == some [6]) (by decide +kernel)
  simp only [Bool.and_eq_true, beq_iff_eq, Option.any_eq_true, Except.toOption_eq_some_iff] at holds
  obtain ⟨⟨⟨⟨⟨kept, found, stays⟩, synthesized⟩, size⟩, id⟩, answer⟩ := holds
  have known : (only f).get? 0 = some f := by simp [only, Registry.get?, Registry.put, id]
  obtain ⟨_, c', eliminated', same⟩ := eliminate_sameAnswers built known
  obtain rfl : c = c' := (Prod.mk.inj (eliminated.symm.trans eliminated')).2
  refine ⟨f, changed, c, built, eliminated, size, answer, same fun others found' i member => ?_⟩
  rw [found, Except.ok.injEq] at found'
  rw [← Std.ExtTreeSet.mem_toList, synthesized, List.mem_singleton] at member
  rw [← found', member]
  exact Std.ExtTreeSet.contains_iff_mem.1 stays

/-- The double of a parameter, captured before a store to the parameter and returned after it. -/
def uncaptured : Buffer :=
  .ofContent [.type .i32 .null .null, .qualifier (.ref 0) .parameter 0,
    .operation .addition (.ref 1) (.ref 1), .construct (.ref 2) .null .transient,
    .operation .negation (.ref 1) .null, .store (.ref 1) (.ref 4), .ret (.ref 2)] [.ref 3] []

/-- The sum has its own slot before, and is computed at the return after: 6 becomes -6. -/
theorem uncaptured_not_sameAnswers :
    ∃ f changed c, Function.build "f" 0 uncaptured = .ok f ∧
      eliminate.apply f.buffer = (.ok changed, c) ∧
      Optimizer.answer? (only f) "f" [3] = some [6] ∧
      Optimizer.answer? ((only f).put { f with buffer := c }) "f" [3] = some [4294967290] ∧
      ¬ SameAnswers (only f) ((only f).put { f with buffer := c }) := by
  obtain ⟨f, changed, c, built, eliminated, holds⟩ := exists_edited eliminate uncaptured (fun f g =>
    Optimizer.answer? (only f) "f" [3] == some [6] &&
      Optimizer.answer? ((only f).put g) "f" [3] == some [4294967290]) (by decide +kernel)
  simp only [Bool.and_eq_true, beq_iff_eq] at holds
  refine ⟨f, changed, c, built, eliminated, holds.1, holds.2, fun same => ?_⟩
  have kept := same.answer? holds.1
  rw [holds.2] at kept
  cases kept

end ShaderForge.Optimizer
