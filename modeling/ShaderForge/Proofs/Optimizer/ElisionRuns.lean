import ShaderForge.Proofs.Optimizer.ElisionModules

/-!
What constructor elision does to the answers of native code.
-/

namespace ShaderForge.Optimizer

open Buffer Linkage Native

/-- Elision preserves the answers of a function whose forwarded reads have the types of their arguments and read
what was there before, as long as no other statements show. -/
theorem elide_keepsAnswers {r : Registry} {name : String} {id : FunctionId} {b c : Buffer} {f : Function} {changed : Bool}
    {written : IndexSet} (built : Function.build name id b = .ok f) (known : r.get? f.id = some f)
    (elided : elide.apply f.buffer = (.ok changed, c)) (elidable : Elidable f.buffer written)
    (types : ∀ i ty, f.buffer.typeOf i = .ok ty → f.buffer.typeOf (replacement f.buffer i) = .ok ty)
    (settled : settles f.buffer written {} (statements f) = true) (stay : StatementsStay f { f with buffer := c }) :
    KeepsAnswers f.id r (r.put { f with buffer := c }) := by
  have becomes := becomes_of_elide (build_succeeds built) elided elidable types settled stay
  exact keepsAnswers_of_becomes (registered_put known rfl becomes fun g _ => Or.inl (StandsFor.refl g))

/-! ### Two structs -/

/-- A struct of a parameter, read after a store to a variable. -/
def keepsake : Buffer :=
  .ofContent [.type .nil .null .null, .type .i32 .null (.ref 0), .type .nil (.ref 1) .null, .type .i32 .null .null,
    .qualifier (.ref 3) .parameter 0, .construct (.ref 3) .null .normal, .list (.ref 4) .null,
    .construct (.ref 2) (.ref 6) .normal, .literal (.i32 5), .store (.ref 5) (.ref 8), .load (.ref 7) 0,
    .operation .addition (.ref 10) (.ref 5), .ret (.ref 11)] [] []

theorem keepsake_keepsAnswers :
    ∃ f changed c, Function.build "f" 0 keepsake = .ok f ∧ elide.apply f.buffer = (.ok changed, c) ∧
      (f.buffer.get? (.ref 11), c.get? (.ref 11)) =
        (some (.operation .addition (.ref 10) (.ref 5)), some (.operation .addition (.ref 4) (.ref 5))) ∧
      Optimizer.answer? (only f) "f" [3] = some [8] ∧
      Optimizer.answer? ((only f).put { f with buffer := c }) "f" [3] = some [8] := by
  obtain ⟨f, changed, c, built, elided, holds⟩ := exists_edited elide keepsake (fun f g =>
    decide ((f.buffer.get? (.ref 11), g.buffer.get? (.ref 11)) =
      (some (.operation .addition (.ref 10) (.ref 5)), some (.operation .addition (.ref 4) (.ref 5)))) &&
    Optimizer.answer? (only f) "f" [3] == some [8] && f.buffer.size == 13 && keepsTypes f.buffer && keepsStatements f g &&
    ((link (only f) [0]).toOption.all fun u => u.functions.all fun f => decide (Trusted u f)) &&
    (writtenStorage f.buffer).toOption.any fun written => isElidable f.buffer written &&
      settles f.buffer written {} (statements f)) (by decide +kernel)
  simp only [Bool.and_eq_true, beq_iff_eq, decide_eq_true_eq, Option.any_eq_true, Except.toOption_eq_some_iff] at holds
  obtain ⟨⟨⟨⟨⟨⟨leads, answer⟩, size⟩, types⟩, stay⟩, trusted⟩, written, stores, elidable, settled⟩ := holds
  have known : (only f).get? f.id = some f := by simp [only, Registry.get?, Registry.put]
  have prepared := (Function.prepared_of_prepare (build_succeeds built)).1
  have kept := elide_keepsAnswers built known elided (elidable_of_isElidable stores elidable)
    (typeOf_of_keepsTypes (prepared.typed (by rw [size]; decide)) prepared.backward types) settled
    (statementsStay_of_keepsStatements stay)
  refine ⟨f, changed, c, built, elided, leads, answer, kept.answer? (fun u linked f' member _ => ?_) answer⟩
  rw [linked] at trusted
  simpa using List.all_eq_true.1 trusted f' member

/-- A struct of a parameter, read after a store to what stands for the parameter. -/
def snapshot : Buffer :=
  { atoms := #[.type .nil .null .null, .type .i32 .null (.ref 0), .type .nil (.ref 1) .null,
      .type .i32 .null .null, .qualifier (.ref 3) .parameter 0, .construct (.ref 4) .null .transient,
      .list (.ref 4) .null, .construct (.ref 2) (.ref 6) .normal, .literal (.i32 5),
      .store (.ref 5) (.ref 8), .load (.ref 7) 0, .ret (.ref 10)] }

/-- The field keeps the old value, the parameter that takes its place does not. -/
theorem snapshot_not_sameAnswers :
    ∃ f changed c, Function.build "f" 0 snapshot = .ok f ∧ fieldwise f.buffer = true ∧
      elide.apply f.buffer = (.ok changed, c) ∧
      ¬ SameAnswers (only f) ((only f).put { f with buffer := c }) := by
  obtain ⟨f, changed, c, built, elided, holds⟩ := exists_edited elide snapshot (fun f g =>
    fieldwise f.buffer && Optimizer.answer? (only f) "f" [3] == some [3] &&
      Optimizer.answer? ((only f).put g) "f" [3] == some [5]) (by decide +kernel)
  simp only [Bool.and_eq_true, beq_iff_eq] at holds
  refine ⟨f, changed, c, built, holds.1.1, elided, fun same => ?_⟩
  have kept := same.answer? holds.1.2
  rw [holds.2] at kept
  cases kept

end ShaderForge.Optimizer
