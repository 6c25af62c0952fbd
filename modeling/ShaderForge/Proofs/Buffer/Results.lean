import ShaderForge.Proofs.Liveness.Fold
import ShaderForge.Proofs.Typing.Derivation

/-!
Remembered results. Every operation on a buffer keeps the types and marks it remembers as they would
be found now, whether it succeeds or fails, with one exception: a renumbering that meets a removed
atom has changed the atoms before it, and keeps what was found for the old ones.
-/

namespace ShaderForge

namespace Liveness

variable {b c : Buffer}

theorem leads_congr (synthesized : b.synthesized = c.synthesized) (i : Index) (a : Atom) :
    leads b i a = leads c i a := by
  unfold leads Buffer.isSynthesized
  rw [synthesized]

theorem step_congr (atoms : b.atoms = c.atoms) (synthesized : b.synthesized = c.synthesized)
    (r : Reached) (t : Task) : (step b r t).toOption = (step c r t).toOption := by
  cases t with
  | force i =>
    simp only [step]
    split
    · rfl
    · rw [Except.toOption_bind, Except.toOption_bind, Buffer.atom_congr atoms]
  | forceStorage i =>
    simp only [step]
    rw [Except.toOption_bind, Except.toOption_bind, Buffer.storage_congr atoms]
  | visit i =>
    simp only [step]
    split
    · rfl
    · simp only [Except.toOption_bind, Buffer.atom_congr atoms, leads_congr synthesized]

theorem run_congr (atoms : b.atoms = c.atoms) (synthesized : b.synthesized = c.synthesized)
    (fuel : Nat) (r : Reached) (pending : List Task) :
    (run b fuel r pending).toOption = (run c fuel r pending).toOption := by
  induction fuel generalizing r pending with
  | zero => cases pending <;> rfl
  | succ fuel ih =>
    cases pending with
    | nil => rfl
    | cons t rest =>
      simp only [run, Except.toOption_bind, step_congr atoms synthesized, ih]

theorem mark_congr (typed : b.Typed) (typed' : c.Typed) (atoms : b.atoms = c.atoms)
    (types : b.types = c.types) (synthesized : b.synthesized = c.synthesized) :
    (mark b).toOption = (mark c).toOption := by
  have size : fuel b = fuel c := by rw [fuel, fuel, Buffer.size, Buffer.size, atoms]
  have indexed : b.indexed = c.indexed := by rw [Buffer.indexed, Buffer.indexed, atoms]
  have roots : ∀ i a, (isRoot b i a).toOption = (isRoot c i a).toOption := fun i a =>
    Except.toOption_congr fun _ => ⟨isRoot_congr typed typed' types synthesized,
      isRoot_congr typed' typed types.symm synthesized.symm⟩
  unfold mark
  rw [Except.toOption_bind, Except.toOption_bind, indexed]
  congr 1
  apply Except.toOption_foldlM_congr
  rintro ⟨i, a⟩ _ r
  rw [Except.toOption_bind, Except.toOption_bind, roots]
  congr 1
  funext live
  cases live with
  | false => rfl
  | true => simp only [↓reduceIte, root, size, run_congr atoms synthesized]

end Liveness

namespace Buffer

variable {b c : Buffer}

/-! ### Results that are up to date -/

def Remembers (b : Buffer) : Prop :=
  ∃ before hints, before.atoms = b.atoms ∧ Typing.analyze before = .ok (b.types.toList, hints)

namespace Remembers

theorem congr (remembers : b.Remembers) (atoms : c.atoms = b.atoms) (types : c.types = b.types) :
    c.Remembers := by
  obtain ⟨before, hints, same, found⟩ := remembers
  exact ⟨before, hints, same.trans atoms.symm, by rw [types]; exact found⟩

theorem typed (remembers : b.Remembers) : b.Typed := by
  obtain ⟨before, hints, same, found⟩ := remembers
  exact typed_of_analyze found same.symm (Array.toArray_toList).symm

theorem derived (remembers : b.Remembers) :
    ∃ log, Typing.Derived b log ∧ Typing.found? log = b.table := by
  obtain ⟨before, hints, same, found⟩ := remembers
  obtain ⟨log, derived, all⟩ := Typing.analyze_derived found
  rw [Array.toArray_toList] at all
  exact ⟨log, derived.congr same, all⟩

theorem infer_eq (remembers : b.Remembers) {n : Nat} {ty : Ty} (known : b.types[n]? = some ty) :
    Typing.infer b (.ref n) = .ok ty := by
  obtain ⟨log, derived, all⟩ := remembers.derived
  exact derived.infer_eq (by rw [all]; exact known)

theorem analyze_eq (remembers : b.Remembers) (atoms : c.atoms = b.atoms) :
    ∃ hints, Typing.analyze c = .ok (b.types.toList, hints) := by
  obtain ⟨log, derived, all⟩ := remembers.derived
  refine (derived.congr atoms.symm).analyze_eq ?_ (by rw [all, Array.toArray_toList]; rfl)
  rw [Array.length_toList, remembers.typed.complete, size, size, atoms]

theorem mark_eq (remembers : b.Remembers) (atoms : c.atoms = b.atoms) (types : c.types = b.types)
    (synthesized : c.synthesized = b.synthesized) {marked : IndexSet}
    (found : Liveness.mark b = .ok marked) : Liveness.mark c = .ok marked := by
  rw [← Except.toOption_eq_some_iff] at found ⊢
  rw [← found]
  exact Liveness.mark_congr (remembers.congr atoms types).typed remembers.typed atoms types synthesized

end Remembers

/-- Types and marks, where there are any, are those of the atoms at hand. -/
structure Current (b : Buffer) : Prop where
  types : b.types = #[] ∨ b.Remembers
  marked : b.marked = ∅ ∨ b.Remembers ∧ Liveness.mark b = .ok b.marked

/-- A buffer that remembers nothing. -/
structure Bare (b : Buffer) : Prop where
  types : b.types = #[]
  marked : b.marked = ∅

theorem Bare.current (bare : b.Bare) : b.Current := ⟨Or.inl bare.types, Or.inl bare.marked⟩

theorem bare_invalidate (b : Buffer) : b.invalidate.Bare := ⟨rfl, rfl⟩

theorem bare_emit (b : Buffer) (a : Atom) : (b.emit a).Bare := ⟨rfl, rfl⟩

theorem Current.remembers (current : b.Current) (analyzed : b.isAnalyzed = true) : b.Remembers := by
  rcases current.types with none | remembers
  · simp only [isAnalyzed, none, isEmpty, Bool.and_eq_true, Bool.not_eq_true', beq_iff_eq] at analyzed
    simp [Array.isEmpty, ← analyzed.2] at analyzed
  · exact remembers

/-! ### Operations -/

inductive Operation where
  | emit (a : Atom)
  | emitUnique (a : Atom)
  | replace (i : Index) (a : Atom)
  | synthesize (i : Index)
  | decorate (i : Index) (d : Decoration)
  | renumber (m : Renumbering)
  | rebuild (kept : List Index) (m : Renumbering)
  | analyze
  | mark
  | clear

namespace Operation

def edit : Operation → Edit Unit
  | emit a => modify (·.emit a)
  | emitUnique a => modify fun b => (b.emitUnique a).2
  | replace i a => Buffer.replace i a
  | synthesize i => modify (·.synthesize i)
  | decorate i d => modify (·.decorate i d)
  | renumber m => Buffer.renumber m
  | rebuild kept m => do set (← Edit.query (·.rebuild kept m))
  | analyze => Buffer.analyze
  | mark => Buffer.mark
  | clear => set ({} : Buffer)

/-- What an operation leaves, whether it succeeds or fails. -/
def leaves (op : Operation) (b : Buffer) : Buffer := (op.edit.apply b).2

def fails (op : Operation) (b : Buffer) : Bool := !(op.edit.apply b).1.isOk

def run (ops : List Operation) (b : Buffer) : Buffer := ops.foldl (fun b op => op.leaves b) b

/-- A renumbering that fails with results at hand and has changed atoms by then. -/
def Spoils (op : Operation) (b : Buffer) : Prop :=
  match op with
  | renumber _ => op.fails b = true ∧ (op.leaves b).atoms ≠ b.atoms ∧ ¬ b.Bare
  | _ => False

/-- No operation of a sequence spoils the results that it finds. -/
def Calm : List Operation → Buffer → Prop
  | [], _ => True
  | op :: rest, b => ¬ op.Spoils b ∧ Calm rest (op.leaves b)

end Operation

/-- An edit that puts what a question answers in place leaves the buffer alone when there is no answer. -/
theorem query_leaves {α : Type} {f : Buffer → Except Fault α} {g : α → Edit Unit} {P : Buffer → Prop}
    (unanswered : P b) (answered : ∀ a, f b = .ok a → P (outcome (g a) b).2) :
    P (outcome (Edit.query f >>= g) b).2 := by
  rw [outcome_bind, Edit.outcome_query]
  cases answer : f b with
  | error e => exact unanswered
  | ok a => exact answered a answer

theorem outcome_renumber (m : Renumbering) (b : Buffer) :
    (∃ e atoms, outcome (renumber m) b = (.error e, { b with atoms })) ∨
      ∃ c, outcome (renumber m) b = (.ok ⟨⟩, c) ∧ c.Bare := by
  unfold renumber
  rw [outcome_get_bind]
  rcases m.atoms 0 b.atoms.toList with ⟨atoms, failure⟩
  cases failure with
  | some left => exact Or.inl ⟨_, _, rfl⟩
  | none => exact Or.inr ⟨_, rfl, bare_invalidate _⟩

theorem bare_rebuild {kept : List Index} {m : Renumbering} (h : b.rebuild kept m = .ok c) : c.Bare := by
  obtain ⟨atoms, _, h⟩ := Except.bind_ok h
  obtain ⟨_, done⟩ := Edit.exec_ok_iff.1 h
  rcases outcome_renumber m _ with ⟨e, atoms, failed⟩ | ⟨d, succeeded, bare⟩
  · rw [Succeeds, failed] at done
    cases done
  · rw [Succeeds, succeeded] at done
    cases done
    exact bare

/-! ### What one operation keeps -/

theorem Current.synthesize (current : b.Current) (i : Index) : (b.synthesize i).Current :=
  ⟨current.types.imp id fun remembers => remembers.congr rfl rfl, Or.inl rfl⟩

theorem Current.decorate (current : b.Current) (i : Index) (d : Decoration) :
    (b.decorate i d).Current :=
  ⟨current.types.imp id fun remembers => remembers.congr rfl rfl,
    current.marked.imp id fun ⟨remembers, found⟩ =>
      ⟨remembers.congr rfl rfl, remembers.mark_eq (c := b.decorate i d) rfl rfl rfl found⟩⟩

theorem Current.emitUnique (current : b.Current) (a : Atom) : (b.emitUnique a).2.Current := by
  unfold Buffer.emitUnique
  split
  · exact current
  · exact (bare_emit b a).current

theorem Current.replace (current : b.Current) (i : Index) (a : Atom) :
    (outcome (replace i a) b).2.Current := by
  unfold Buffer.replace
  rw [outcome_get_bind]
  cases i with
  | null => exact current
  | ref n =>
    change (outcome (if n < b.size then _ else _) b).2.Current
    split
    · exact Bare.current ⟨rfl, rfl⟩
    · exact current

theorem Current.analyze (current : b.Current) : (outcome analyze b).2.Current := by
  unfold Buffer.analyze
  rw [outcome_bind]
  change (outcome (Edit.query Typing.analyze >>= _) b).2.Current
  refine query_leaves current fun (types, hints) found => ?_
  change (b.withAnalysis types hints).Current
  have remembers : (b.withAnalysis types hints).Remembers := ⟨b, hints, rfl, found⟩
  refine ⟨Or.inr remembers, current.marked.imp id fun ⟨before, live⟩ => ⟨remembers, ?_⟩⟩
  -- the types were remembered already and are found again
  obtain ⟨_, again⟩ := before.analyze_eq rfl
  rw [found, Except.ok.injEq, Prod.mk.injEq] at again
  refine before.mark_eq (c := b.withAnalysis types hints) rfl ?_ rfl live
  change types.toArray = b.types
  rw [again.1, Array.toArray_toList]

theorem mark_of_empty (empty : b.isEmpty = true) : Liveness.mark b = .ok ∅ := by
  have none : b.atoms = #[] := Array.isEmpty_iff.1 empty
  unfold Liveness.mark indexed
  rw [none]
  rfl

theorem Current.marking (current : b.Current) (ready : b.isEmpty = true ∨ b.isAnalyzed = true) :
    (outcome (Edit.query Liveness.mark >>= fun marked => modify ({ · with marked })) b).2.Current := by
  refine query_leaves current fun marked found => ?_
  change ({ b with marked } : Buffer).Current
  refine ⟨current.types.imp id fun remembers => remembers.congr rfl rfl, ?_⟩
  rcases ready with empty | analyzed
  · rw [mark_of_empty empty] at found
    exact Or.inl (Except.ok.inj found).symm
  · have remembers := current.remembers analyzed
    exact Or.inr ⟨remembers.congr rfl rfl, remembers.mark_eq (c := { b with marked }) rfl rfl rfl found⟩

theorem isAnalyzed_of_analyze (nonempty : b.isEmpty = false) (h : Succeeds analyze b () c) :
    c.isAnalyzed = true := by
  obtain ⟨types, hints, found, rfl⟩ := analyze_succeeds.1 h
  have typed : (b.withAnalysis types hints).Typed := typed_of_analyze found rfl rfl
  refine typed.isAnalyzed ?_
  change b.atoms.size ≠ 0
  simpa [isEmpty, Array.isEmpty] using nonempty

theorem Current.mark (current : b.Current) : (outcome mark b).2.Current := by
  unfold Buffer.mark
  rw [outcome_bind]
  change (outcome (do
    if !b.isAnalyzed && !b.isEmpty then Buffer.analyze
    let marked ← Edit.query Liveness.mark
    modify ({ · with marked })) b).2.Current
  by_cases due : (!b.isAnalyzed && !b.isEmpty) = true
  · rw [if_pos due, outcome_bind]
    rw [Bool.and_eq_true, Bool.not_eq_true', Bool.not_eq_true'] at due
    have analyzed := current.analyze
    rcases run : outcome Buffer.analyze b with ⟨answer, c⟩
    rw [run] at analyzed
    cases answer with
    | error e => exact analyzed
    | ok _ => exact analyzed.marking (Or.inr (isAnalyzed_of_analyze due.2 run))
  · rw [if_neg due]
    apply current.marking
    cases empty : b.isEmpty with
    | true => exact Or.inl rfl
    | false => exact Or.inr (by simpa [empty] using due)

/-- An operation keeps results current unless it is a renumbering that spoils them. -/
theorem Current.step (current : b.Current) {op : Operation} (calm : ¬ op.Spoils b) :
    (op.leaves b).Current := by
  cases op with
  | emit a => exact (bare_emit b a).current
  | emitUnique a => exact current.emitUnique a
  | replace i a => exact current.replace i a
  | synthesize i => exact current.synthesize i
  | decorate i d => exact current.decorate i d
  | renumber m =>
    change (outcome (Buffer.renumber m) b).2.Current
    rcases outcome_renumber m b with ⟨e, atoms, failed⟩ | ⟨c, succeeded, bare⟩
    · rw [failed]
      by_cases bare : b.Bare
      · exact Bare.current ⟨bare.types, bare.marked⟩
      · have fails : Operation.fails (.renumber m) b = true := by
          change (!(outcome (Buffer.renumber m) b).1.isOk) = true
          rw [failed]
          rfl
        have leaves : Operation.leaves (.renumber m) b = { b with atoms } := congrArg Prod.snd failed
        have same : atoms = b.atoms := by
          by_contra changed
          exact calm ⟨fails, by rw [leaves]; exact changed, bare⟩
        rw [same]
        exact current
    · rw [succeeded]
      exact bare.current
  | rebuild kept m => exact query_leaves current fun c rebuilt => (bare_rebuild rebuilt).current
  | analyze => exact current.analyze
  | mark => exact current.mark
  | clear => exact Bare.current ⟨rfl, rfl⟩

theorem Current.run {ops : List Operation} (current : b.Current) (calm : Operation.Calm ops b) :
    (Operation.run ops b).Current := by
  induction ops generalizing b with
  | nil => exact current
  | cons op rest ih => exact ih (current.step calm.1) calm.2

/-! ### Fresh results -/

/-- Every remembered type is what would be inferred from nothing, and the marks, if there are any, are
what marking would find, with the remembered types as well as without them. -/
structure Fresh (b : Buffer) : Prop where
  types : b.isAnalyzed = true → ∀ n < b.size, ∃ ty,
    b.cachedType? (.ref n) = some ty ∧ Typing.infer b (.ref n) = .ok ty
  marked : b.marked = ∅ ∨ ∀ start ∈ [b, b.invalidate], ∃ c,
    Succeeds Buffer.mark start () c ∧ c.marked = b.marked

theorem isAnalyzed_invalidate (nonempty : b.isEmpty = false) : b.invalidate.isAnalyzed = false := by
  simp only [isAnalyzed, isEmpty, invalidate, Bool.and_eq_false_iff, beq_eq_false_iff_ne]
  right
  intro none
  simp [isEmpty, Array.isEmpty, ← none] at nonempty

theorem mark_invalidated (remembers : b.Remembers) {marked : IndexSet}
    (found : Liveness.mark b = .ok marked) (nonempty : b.isEmpty = false) :
    ∃ c, Succeeds Buffer.mark b.invalidate () c ∧ c.marked = marked := by
  obtain ⟨hints, again⟩ := remembers.analyze_eq (c := b.invalidate) rfl
  let d := b.invalidate.withAnalysis b.types.toList hints
  have analyzed : Succeeds Buffer.analyze b.invalidate () d := analyze_succeeds.2 ⟨_, _, again, rfl⟩
  have same : Liveness.mark d = .ok marked :=
    remembers.mark_eq (c := d) rfl (Array.toArray_toList) rfl found
  refine ⟨{ d with marked }, Succeeds.get_bind.2 ?_, rfl⟩
  rw [if_pos (by rw [isAnalyzed_invalidate nonempty]; simpa [isEmpty, invalidate] using nonempty)]
  refine Succeeds.bind_iff.2 ⟨(), d, analyzed, ?_⟩
  exact Edit.query_bind.2 ⟨marked, same, Succeeds.of_modify.2 rfl⟩

theorem Current.fresh (current : b.Current) : b.Fresh := by
  constructor
  · intro analyzed n inside
    have remembers := current.remembers analyzed
    have remembered : n < b.types.size := by rw [remembers.typed.complete]; exact inside
    have known : b.types[n]? = some b.types[n] := Array.getElem?_eq_getElem remembered
    exact ⟨b.types[n], known, remembers.infer_eq known⟩
  · rcases current.marked with none | ⟨remembers, found⟩
    · exact Or.inl none
    · cases empty : b.isEmpty with
      | true =>
        rw [mark_of_empty empty] at found
        exact Or.inl (Except.ok.inj found).symm
      | false =>
        right
        intro start member
        rcases List.mem_cons.1 member with same | member
        · subst same
          have nonempty : start.size ≠ 0 := by simpa [isEmpty, Array.isEmpty, size] using empty
          exact ⟨_, (Function.mark_succeeds remembers.typed nonempty).2 ⟨_, found, rfl⟩, rfl⟩
        · obtain rfl := List.mem_singleton.1 member
          exact mark_invalidated remembers found empty

/-- From a buffer that remembers nothing, as an empty one does and every changed one, the results are
fresh after any operations, succeeding or failing, of which none is a renumbering that fails with
results at hand and has changed atoms by then. -/
theorem results_fresh (bare : b.Bare) (ops : List Operation) (calm : Operation.Calm ops b) :
    (Operation.run ops b).Fresh :=
  (bare.current.run calm).fresh

/-- A float, an integer, the negated float and its return. -/
def negatedFloat : List Operation :=
  [.emit (.literal (.f32 0)), .emit (.literal (.i32 1)), .emit (.operation .negation (.ref 0) .null),
    .emit (.ret (.ref 2))]

/-- Puts the integer in the place of the float and removes the negation, which the return still uses. -/
def dropNegation : Renumbering := (Renumbering.set {} (.ref 0) (.ref 1)).remove (.ref 2)

/-- The failed renumbering found nothing remembered: what is found later is found for the changed atoms. -/
theorem dropped_first_fresh :
    Operation.fails (.renumber dropNegation) (Operation.run negatedFloat {}) = true ∧
    (Operation.run (negatedFloat ++ [.renumber dropNegation, .analyze, .mark]) {}).isAnalyzed = true ∧
    (Operation.run (negatedFloat ++ [.renumber dropNegation, .analyze, .mark]) {}).Fresh := by
  refine ⟨by decide +kernel, by decide +kernel, results_fresh ⟨rfl, rfl⟩ _ ?_⟩
  exact ⟨id, id, id, id, fun spoils => spoils.2.2 ⟨rfl, rfl⟩, id, id, trivial⟩

/-- The failed renumbering made the negated float a negated integer, and its type is still remembered
as that of a float. -/
theorem dropped_last_not_fresh :
    ¬ (Operation.run (negatedFloat ++ [.analyze, .renumber dropNegation]) {}).Fresh := by
  intro fresh
  have analyzed : (Operation.run (negatedFloat ++ [.analyze, .renumber dropNegation]) {}).isAnalyzed = true := by
    decide +kernel
  obtain ⟨ty, cached, inferred⟩ := fresh.types analyzed 2 (by decide +kernel)
  have float : (Operation.run (negatedFloat ++ [.analyze, .renumber dropNegation]) {}).cachedType? (.ref 2) =
      some (.prim .f32) := by decide +kernel
  have integer : (Typing.infer (Operation.run (negatedFloat ++ [.analyze, .renumber dropNegation]) {})
      (.ref 2)).toOption = some (.prim .i32) := by decide +kernel
  rw [inferred] at integer
  rw [float] at cached
  cases cached
  cases integer

end Buffer

end ShaderForge
