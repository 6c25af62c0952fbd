import ShaderForge.Optimizer.DeadCode
import ShaderForge.Optimizer.Elision
import ShaderForge.Proofs.Typing.Table

/-!
The passes step by step. Elision and dead code elimination need types: they find them first, unless
the buffer has them.
-/

namespace ShaderForge.Optimizer

open Buffer

variable {b c : Buffer}

/-- What the passes that need types do before anything else. -/
def whenTyped (rest : Edit Bool) : Edit Bool := do
  if (← get).isEmpty then return false
  if !(← get).isAnalyzed then Buffer.analyze
  rest

/-- Forwards reads in a typed buffer. -/
def forwardReads : Edit Bool := do
  let forward ← Edit.query forwards
  let b ← get
  let atoms := b.atoms.map fun a => a.mapAddresses fun i => forward.getD i i
  let changed := b.atoms.any fun a =>
    [a.addresses.1, a.addresses.2].any fun i => forward.contains i
  if changed then set ({ b with atoms } : Buffer).invalidate
  return changed

/-- Removes dead atoms of a typed buffer. -/
def dropDead : Edit Bool := do
  let kept := (← Edit.query alive).toList
  if kept.length = (← get).size then return false
  set (← Edit.query fun b => b.rebuild kept (removalMap b kept))
  return true

theorem elide_eq : elide = whenTyped forwardReads := rfl

theorem eliminate_eq : eliminate = whenTyped dropDead := rfl

/-- The buffer with the types of its atoms, unless there are no atoms. -/
def Readied (b c : Buffer) : Prop :=
  b.isEmpty = false ∧ if b.isAnalyzed then c = b else Succeeds Buffer.analyze b () c

theorem whenTyped_iff {rest : Edit Bool} {changed : Bool} :
    Succeeds (whenTyped rest) b changed c ↔ (b.isEmpty = true ∧ changed = false ∧ c = b) ∨
      ∃ d, Readied b d ∧ Succeeds rest d changed c := by
  unfold whenTyped Readied
  rw [Succeeds.get_bind]
  cases empty : b.isEmpty with
  | true =>
    rw [if_pos rfl, Succeeds.of_pure]
    constructor
    · rintro ⟨rfl, rfl⟩
      exact Or.inl ⟨rfl, rfl, rfl⟩
    · rintro (⟨_, rfl, rfl⟩ | ⟨_, ⟨clash, _⟩, _⟩)
      · exact ⟨rfl, rfl⟩
      · cases clash
  | false =>
    rw [if_neg Bool.false_ne_true, Succeeds.get_bind]
    cases analyzed : b.isAnalyzed with
    | true => simp
    | false =>
      simp only [Bool.not_false, ↓reduceIte, Succeeds.bind_iff, Bool.false_eq_true, false_and, false_or,
        true_and]
      constructor
      · rintro ⟨_, d, typed, h⟩
        exact ⟨d, typed, h⟩
      · rintro ⟨d, typed, h⟩
        exact ⟨⟨⟩, d, typed, h⟩

theorem Readied.cases (readied : Readied b c) : c = b ∨
    ∃ types hints, Typing.analyze b = .ok (types, hints) ∧ c = b.withAnalysis types hints := by
  obtain ⟨_, h⟩ := readied
  split at h
  · exact Or.inl h
  · exact Or.inr (analyze_succeeds.1 h)

theorem Readied.atoms (readied : Readied b c) : c.atoms = b.atoms := by
  obtain rfl | ⟨_, _, _, rfl⟩ := readied.cases <;> rfl

theorem Readied.synthesized (readied : Readied b c) : c.synthesized = b.synthesized := by
  obtain rfl | ⟨_, _, _, rfl⟩ := readied.cases <;> rfl

theorem Readied.isAnalyzed (readied : Readied b c) : c.isEmpty = false ∧ c.isAnalyzed = true := by
  have nonempty : c.isEmpty = false := by
    rw [isEmpty, readied.atoms]
    exact readied.1
  refine ⟨nonempty, ?_⟩
  obtain ⟨_, h⟩ := readied
  split at h
  · rename_i analyzed
    rw [h]
    exact analyzed
  · obtain ⟨types, hints, found, rfl⟩ := analyze_succeeds.1 h
    have length := (Typing.analyze_sound found).1
    rw [Buffer.isAnalyzed, nonempty]
    simpa [withAnalysis, size] using length

theorem Readied.iff_of_typed (readied : Readied b c) {d : Buffer} : Readied c d ↔ d = c := by
  obtain ⟨nonempty, analyzed⟩ := readied.isAnalyzed
  unfold Readied
  rw [nonempty, analyzed]
  simp

theorem dropDead_iff {changed : Bool} :
    Succeeds dropDead b changed c ↔ ∃ kept, alive b = .ok kept ∧
      if kept.toList.length = b.size then changed = false ∧ c = b
      else changed = true ∧ b.rebuild kept.toList (removalMap b kept.toList) = .ok c := by
  unfold dropDead
  rw [Edit.query_bind]
  refine exists_congr fun kept => and_congr_right fun _ => ?_
  rw [Succeeds.get_bind]
  exact Edit.replace_unless

end ShaderForge.Optimizer
