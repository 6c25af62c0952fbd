import ShaderForge.Optimizer.Pipeline
import ShaderForge.Proofs.Optimizer.Distinct
import ShaderForge.Proofs.Optimizer.Passes
import ShaderForge.Proofs.Optimizer.Removal
import ShaderForge.Proofs.Typing.Names

/-!
Optimizing what has been optimized. The last sweep finds nothing to do, but it types the buffer
on the way and so passes names on, after compaction has compared atoms with their names. What a
second run finds to do is decided by the atoms that are equal with the names of the result.
-/

namespace ShaderForge.Optimizer

open Buffer

variable {b c : Buffer}

/-! ### One pass -/

theorem Readied.nameless (readied : Readied b c) (nameless : b.decorations = ∅) :
    c.decorations = ∅ := by
  obtain rfl | ⟨types, hints, found, rfl⟩ := readied.cases
  · exact nameless
  · rw [Std.ExtTreeMap.eq_empty_iff_forall_not_mem]
    intro i named
    rcases (mem_withAnalysis types).1 named with old | passed
    · rw [nameless] at old
      exact Std.ExtTreeMap.not_mem_empty old
    · obtain ⟨_, n, _, source, _⟩ := (Typing.mem_hints_iff found).1 passed
      rw [nameless] at source
      exact Std.ExtTreeMap.not_mem_empty source

theorem alive_size_le {kept : IndexSet} (h : alive b = .ok kept) : kept.toList.length ≤ b.size := by
  obtain ⟨_, _, surviving⟩ := surviving_of_alive h
  exact surviving.kernel.length_le

theorem rebuild_nameless {kept : List Index} {m : Renumbering} (h : b.rebuild kept m = .ok c)
    (nameless : b.decorations = ∅) : c.decorations = ∅ := by
  obtain ⟨_, _, rfl⟩ := rebuild_ok h
  rw [Std.ExtTreeMap.eq_empty_iff_forall_not_mem]
  intro i named
  obtain ⟨j, old, _⟩ := Renumbering.mem_indexMap named
  rw [nameless] at old
  exact Std.ExtTreeMap.not_mem_empty old

/-- What no pass adds: atoms, and names where there are none. -/
structure Shrinks (b c : Buffer) : Prop where
  size : c.size ≤ b.size
  nameless : b.decorations = ∅ → c.decorations = ∅

theorem Shrinks.refl (b : Buffer) : Shrinks b b := ⟨Nat.le_refl _, id⟩

theorem Shrinks.trans {d : Buffer} (first : Shrinks b c) (later : Shrinks c d) : Shrinks b d :=
  ⟨Nat.le_trans later.size first.size, later.nameless ∘ first.nameless⟩

theorem Readied.shrinks (readied : Readied b c) : Shrinks b c :=
  ⟨by rw [size, size, readied.atoms], readied.nameless⟩

theorem compact_shrinks {changed : Bool} (h : Succeeds compact b changed c) : Shrinks b c := by
  obtain ⟨firsts, found, h⟩ := compact_iff.1 h
  split at h
  · rw [h.2]
    exact .refl b
  · refine ⟨?_, rebuild_nameless h.2⟩
    rw [rebuild_size h.2, ← (firstOccurrences_distinct found).1]
    exact kept_length_le firsts

theorem forwardReads_cases {changed : Bool} (h : Succeeds forwardReads b changed c) :
    (changed = false ∧ c = b) ∨ (changed = true ∧ Shrinks b c) := by
  unfold forwardReads at h
  obtain ⟨forward, _, asked, h⟩ := Succeeds.bind_iff.1 h
  obtain ⟨_, rfl⟩ := Edit.query_succeeds.1 asked
  obtain ⟨_, _, read, h⟩ := Succeeds.bind_iff.1 h
  obtain ⟨rfl, rfl⟩ := Succeeds.of_get.1 read
  simp only at h
  split at h
  · rename_i moved
    obtain ⟨_, _, stored, h⟩ := Succeeds.bind_iff.1 h
    obtain rfl := Succeeds.of_set.1 stored
    obtain ⟨rfl, rfl⟩ := Succeeds.of_pure.1 h
    refine Or.inr ⟨moved, ?_, id⟩
    simp [size, invalidate]
  · rename_i still
    obtain ⟨rfl, rfl⟩ := Succeeds.of_pure.1 h
    exact Or.inl ⟨Bool.eq_false_iff.2 still, rfl⟩

theorem dropDead_cases {changed : Bool} (h : Succeeds dropDead b changed c) :
    (changed = false ∧ c = b) ∨ (changed = true ∧ Shrinks b c) := by
  obtain ⟨kept, found, h⟩ := dropDead_iff.1 h
  split at h
  · exact Or.inl h
  · obtain ⟨rfl, rebuilt⟩ := h
    refine Or.inr ⟨rfl, ?_, rebuild_nameless rebuilt⟩
    rw [rebuild_size rebuilt]
    exact alive_size_le found

theorem run_shrinks {p : Pass} {changed : Bool} (h : Succeeds p.run b changed c) : Shrinks b c := by
  have typedFirst : ∀ {rest : Edit Bool}, (∀ {d : Buffer}, Succeeds rest d changed c →
      (changed = false ∧ c = d) ∨ (changed = true ∧ Shrinks d c)) →
      Succeeds (whenTyped rest) b changed c → Shrinks b c := by
    intro rest cases h
    obtain ⟨_, _, rfl⟩ | ⟨d, readied, h⟩ := whenTyped_iff.1 h
    · exact .refl c
    · rcases cases h with ⟨_, rfl⟩ | ⟨_, shrinks⟩
      · exact readied.shrinks
      · exact readied.shrinks.trans shrinks
  cases p with
  | compaction => exact compact_shrinks h
  | elision =>
    rw [Pass.run, elide_eq] at h
    exact typedFirst forwardReads_cases h
  | deadCode =>
    rw [Pass.run, eliminate_eq] at h
    exact typedFirst dropDead_cases h

/-! ### Sweeps -/

theorem sweep_cons {p : Pass} {rest : List Pass} {changed : Bool} :
    Succeeds (sweep (p :: rest)) b changed c ↔ ∃ first later d, Succeeds p.run b first d ∧
      Succeeds (sweep rest) d later c ∧ (first || later) = changed := by
  rw [sweep, Succeeds.bind_iff]
  simp only [Succeeds.bind_iff, Succeeds.of_pure]
  constructor
  · rintro ⟨first, d, ran, later, _, others, same, rfl⟩
    exact ⟨first, later, d, ran, others, same⟩
  · rintro ⟨first, later, d, ran, others, same⟩
    exact ⟨first, d, ran, later, c, others, same, rfl⟩

theorem sweep_shrinks {ps : List Pass} {changed : Bool} (h : Succeeds (sweep ps) b changed c) :
    Shrinks b c := by
  induction ps generalizing b changed with
  | nil =>
    obtain ⟨_, rfl⟩ := Succeeds.of_pure.1 h
    exact .refl b
  | cons p rest ih =>
    obtain ⟨_, _, d, ran, others, _⟩ := sweep_cons.1 h
    exact (run_shrinks ran).trans (ih others)

theorem settle_succ {ps : List Pass} {fuel : Nat} {changed : Bool} :
    Succeeds (settle ps (fuel + 1)) b changed c ↔
      (changed = false ∧ Succeeds (sweep ps) b false c) ∨
      (changed = true ∧ ∃ d last, Succeeds (sweep ps) b true d ∧ Succeeds (settle ps fuel) d last c) := by
  rw [settle, Succeeds.bind_iff]
  constructor
  · rintro ⟨swept, d, ran, h⟩
    cases swept with
    | false =>
      obtain ⟨rfl, rfl⟩ := Succeeds.of_pure.1 h
      exact Or.inl ⟨rfl, ran⟩
    | true =>
      obtain ⟨last, _, others, h⟩ := Succeeds.bind_iff.1 h
      obtain ⟨rfl, rfl⟩ := Succeeds.of_pure.1 h
      exact Or.inr ⟨rfl, d, last, ran, others⟩
  · rintro (⟨rfl, ran⟩ | ⟨rfl, d, last, ran, others⟩)
    · exact ⟨false, c, ran, Succeeds.of_pure.2 ⟨rfl, rfl⟩⟩
    · exact ⟨true, d, ran, Succeeds.bind_iff.2 ⟨last, c, others, Succeeds.of_pure.2 ⟨rfl, rfl⟩⟩⟩

theorem settle_last {ps : List Pass} {fuel : Nat} {changed : Bool}
    (h : Succeeds (settle ps fuel) b changed c) :
    ∃ d, Shrinks b d ∧ Succeeds (sweep ps) d false c := by
  induction fuel generalizing b changed with
  | zero =>
    rw [settle] at h
    obtain ⟨_, _, _, h⟩ := Succeeds.bind_iff.1 h
    exact (Succeeds.of_throw h).elim
  | succ fuel ih =>
    obtain ⟨_, last⟩ | ⟨_, d, _, swept, others⟩ := settle_succ.1 h
    · exact ⟨b, .refl b, last⟩
    · obtain ⟨e, shrinks, last⟩ := ih others
      exact ⟨e, (sweep_shrinks swept).trans shrinks, last⟩

theorem settle_shrinks {ps : List Pass} {fuel : Nat} {changed : Bool}
    (h : Succeeds (settle ps fuel) b changed c) : Shrinks b c := by
  obtain ⟨d, shrinks, last⟩ := settle_last h
  exact shrinks.trans (sweep_shrinks last)

theorem settle_size_lt {rest : List Pass} {fuel : Nat} {changed : Bool} (clash : ¬ Distinct b)
    (h : Succeeds (settle (.compaction :: rest) fuel) b changed c) : c.size < b.size := by
  have swept : ∀ {again : Bool} {d : Buffer}, Succeeds (sweep (.compaction :: rest)) b again d →
      d.size < b.size := by
    intro again d h
    obtain ⟨_, _, e, compacted, others, _⟩ := sweep_cons.1 h
    exact Nat.lt_of_le_of_lt (sweep_shrinks others).size (compact_size_lt compacted clash)
  cases fuel with
  | zero =>
    obtain ⟨_, _, _, h⟩ := Succeeds.bind_iff.1 h
    exact (Succeeds.of_throw h).elim
  | succ fuel =>
    obtain ⟨_, last⟩ | ⟨_, d, _, first, others⟩ := settle_succ.1 h
    · exact swept last
    · exact Nat.lt_of_le_of_lt (settle_shrinks others).size (swept first)

/-- What a pass that finds nothing leaves: the same buffer, typed if it has atoms. -/
theorem whenTyped_quiet {rest : Edit Bool} (quiet : ∀ {d e : Buffer}, Succeeds rest d false e → e = d)
    (h : Succeeds (whenTyped rest) b false c) :
    Succeeds (whenTyped rest) c false c ∧ (c = b ∧ c.isEmpty = true ∨ Readied b c) := by
  obtain ⟨empty, _, rfl⟩ | ⟨d, readied, h⟩ := whenTyped_iff.1 h
  · exact ⟨whenTyped_iff.2 (Or.inl ⟨empty, rfl, rfl⟩), Or.inl ⟨rfl, empty⟩⟩
  · obtain rfl := quiet h
    exact ⟨whenTyped_iff.2 (Or.inr ⟨c, readied.iff_of_typed.2 rfl, h⟩), Or.inr readied⟩

theorem forwardReads_quiet (h : Succeeds forwardReads b false c) : c = b := by
  rcases forwardReads_cases h with ⟨_, same⟩ | ⟨clash, _⟩
  · exact same
  · cases clash

theorem dropDead_quiet (h : Succeeds dropDead b false c) : c = b := by
  rcases dropDead_cases h with ⟨_, same⟩ | ⟨clash, _⟩
  · exact same
  · cases clash

/-- A sweep that finds nothing leaves the atoms as they are, with nothing to forward and nothing
dead among them. -/
theorem sweep_quiet (h : Succeeds (sweep [.compaction, .elision, .deadCode]) b false c) :
    Distinct b ∧ (∃ firsts, firstOccurrences b = .ok firsts) ∧ c.atoms = b.atoms ∧
      c.synthesized = b.synthesized ∧ Succeeds elide c false c ∧ Succeeds eliminate c false c := by
  obtain ⟨first, _, d, compacted, h, none⟩ := sweep_cons.1 h
  obtain ⟨rfl, rfl⟩ := Bool.or_eq_false_iff.1 none
  obtain ⟨second, _, e, elided, h, none⟩ := sweep_cons.1 h
  obtain ⟨rfl, rfl⟩ := Bool.or_eq_false_iff.1 none
  obtain ⟨third, _, f, eliminated, h, none⟩ := sweep_cons.1 h
  obtain ⟨rfl, rfl⟩ := Bool.or_eq_false_iff.1 none
  obtain ⟨_, rfl⟩ := Succeeds.of_pure.1 h
  obtain ⟨rfl, found, distinct⟩ := compact_quiet compacted
  obtain ⟨still, typed⟩ := whenTyped_quiet forwardReads_quiet elided
  obtain ⟨still', typed'⟩ := whenTyped_quiet dropDead_quiet eliminated
  -- elision has typed what there is to type
  have same : f = e := by
    rcases typed' with ⟨same, _⟩ | readied
    · exact same
    · rcases typed with ⟨_, empty⟩ | before
      · rw [readied.1] at empty
        cases empty
      · exact before.iff_of_typed.1 readied
  subst same
  refine ⟨distinct, found, ?_, ?_, still, still'⟩
  · rcases typed with ⟨same, _⟩ | readied
    · rw [same]
    · exact readied.atoms
  · rcases typed with ⟨same, _⟩ | readied
    · rw [same]
    · exact readied.synthesized

theorem passes_of_ne_none {level : OptLevel} (on : level ≠ .none) :
    passes level = [.compaction, .elision, .deadCode] := by
  cases level with
  | none => exact (on rfl).elim
  | basic | full => rfl

theorem optimize_iff {level : OptLevel} {changed : Bool} :
    Succeeds (optimize level) b changed c ↔
      Succeeds (settle (passes level) (sweepBound b.size)) b changed c :=
  Succeeds.get_bind

theorem agrees_size (h : b.agrees c = true) : b.size = c.size := by
  simp only [agrees, content, beq_iff_eq, Prod.mk.injEq] at h
  rw [size, size, ← Array.length_toList, h.1, Array.length_toList]

theorem agrees_self (b : Buffer) : b.agrees b = true := by
  simp [agrees]

/-- What a second run does is decided by the atoms that are equal with the names of the result: if
there are two that may be merged, they are, and otherwise nothing happens. In a buffer without
names there are none. -/
theorem optimize_again_iff {level : OptLevel} (on : level ≠ .none) {changed : Bool}
    (ran : (optimize level).apply b = (.ok changed, c)) :
    ((∃ again d, (optimize level).apply c = (.ok again, d) ∧ d.agrees c = true) ↔ Distinct c) ∧
      (Distinct c → (optimize level).apply c = (.ok false, c)) ∧
      (b.decorations = ∅ → Distinct c) := by
  obtain ⟨e, shrinks, last⟩ := settle_last (optimize_iff.1 ran)
  rw [passes_of_ne_none on] at last
  obtain ⟨distinct, found, atoms, synthesized, elided, eliminated⟩ := sweep_quiet last
  have still : Distinct c → (optimize level).apply c = (.ok false, c) := by
    intro apart
    refine optimize_iff.2 (settle_succ.2 (Or.inl ⟨rfl, ?_⟩))
    rw [passes_of_ne_none on]
    have compacted := compact_still (exists_firstOccurrences_congr atoms.symm synthesized.symm found) apart
    refine sweep_cons.2 ⟨false, false, c, compacted, ?_, rfl⟩
    refine sweep_cons.2 ⟨false, false, c, elided, ?_, rfl⟩
    exact sweep_cons.2 ⟨false, false, c, eliminated, Succeeds.of_pure.2 ⟨rfl, rfl⟩, rfl⟩
  refine ⟨⟨?_, fun apart => ⟨false, c, still apart, agrees_self c⟩⟩, still, fun nameless => ?_⟩
  · rintro ⟨again, d, ran', same⟩
    by_contra clash
    have ran' := optimize_iff.1 ran'
    rw [passes_of_ne_none on] at ran'
    exact Nat.ne_of_lt (settle_size_lt clash ran') (agrees_size same)
  · have none := shrinks.nameless nameless
    exact distinct.congr atoms.symm synthesized.symm (none.trans ((sweep_shrinks last).nameless none).symm)

/-! ### Two structs alike -/

/-- A buffer that passes a check after one run and after another. -/
theorem exists_optimized (b : Buffer) (check : Buffer → Buffer → Bool)
    (passes : (((optimize .basic).exec b).toOption.any fun c =>
      ((optimize .basic).exec c).toOption.any fun d => check c d) = true) :
    ∃ changed c again d, (optimize .basic).apply b = (.ok changed, c) ∧
      (optimize .basic).apply c = (.ok again, d) ∧ check c d = true := by
  obtain ⟨c, ran, passes⟩ := (Option.any_eq_true _ _).1 passes
  obtain ⟨d, ran', passes⟩ := (Option.any_eq_true _ _).1 passes
  obtain ⟨changed, first⟩ := Edit.exec_ok_iff.1 (Except.toOption_eq_some_iff.1 ran)
  obtain ⟨again, second⟩ := Edit.exec_ok_iff.1 (Except.toOption_eq_some_iff.1 ran')
  exact ⟨changed, c, again, d, first, second, passes⟩

def twins (names : List (Index × Decoration)) : Buffer :=
  { atoms := #[.type .nil .null .null, .type .i32 .null (.ref 0), .type .i32 .null (.ref 0),
      .type .nil (.ref 1) .null, .type .nil (.ref 2) .null, .qualifier (.ref 3) .parameter 0,
      .qualifier (.ref 4) .parameter 1, .ret (.ref 5)]
    decorations := Std.ExtTreeMap.ofList names }

/-- Without names the structs are merged in the first run. -/
theorem twins_nameless_again :
    ∃ changed c, (optimize .basic).apply (twins []) = (.ok changed, c) ∧ c.size = 6 ∧
      (optimize .basic).apply c = (.ok false, c) := by
  obtain ⟨changed, c, _, _, ran, _, size⟩ := exists_optimized (twins [])
    (fun c _ => c.size == 6) (by decide +kernel)
  obtain ⟨_, still, nameless⟩ := optimize_again_iff (by decide) ran
  exact ⟨changed, c, ran, beq_iff_eq.1 size, still (nameless rfl)⟩

/-- The name of the first parameter reaches its struct only when the structs have been compared. -/
theorem twins_named_not_again :
    ∃ changed c, (twins [(.ref 2, { name := "S" }), (.ref 5, { name := "S" })]).validate = .ok () ∧
      (optimize .basic).apply (twins [(.ref 2, { name := "S" }), (.ref 5, { name := "S" })]) =
        (.ok changed, c) ∧
      ¬ ∃ again d, (optimize .basic).apply c = (.ok again, d) ∧ d.agrees c = true := by
  obtain ⟨changed, c, again, d, ran, ran', sizes⟩ := exists_optimized
    (twins [(.ref 2, { name := "S" }), (.ref 5, { name := "S" })])
    (fun c d => c.size == 8 && d.size == 6) (by decide +kernel)
  simp only [Bool.and_eq_true, beq_iff_eq] at sizes
  refine ⟨changed, c, Except.toOption_eq_some_iff.1 (by decide +kernel), ran, ?_⟩
  rintro ⟨again', d', ran'', same⟩
  rw [ran', Prod.mk.injEq] at ran''
  rw [← ran''.2] at same
  have := agrees_size same
  omega

end ShaderForge.Optimizer
