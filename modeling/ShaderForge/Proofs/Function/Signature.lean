import ShaderForge.Proofs.Function.Fold

/-!
Signatures of prepared functions: the arguments are the types of the parameters, in order, and every
return yields the result.
-/

namespace ShaderForge.Function

theorem returnType_agrees {name : String} {b : Buffer} {known result : Option Ty}
    {items : List (Index × Atom)} (h : returnType name b known items = .ok result) :
    (∀ ty, known = some ty → result = some ty) ∧
      ∀ i value, (i, Atom.ret value) ∈ items → ∃ own, b.typeOf value = .ok own ∧ result = some own.bare := by
  induction items generalizing known with
  | nil =>
    cases h
    exact ⟨fun _ same => same, fun _ _ member => absurd member List.not_mem_nil⟩
  | cons p rest ih =>
    obtain ⟨i, a⟩ := p
    unfold returnType at h
    split at h
    · rename_i value
      obtain ⟨own, answer, h⟩ := Except.bind_ok h
      have later : (∀ ty, some own.bare = some ty → result = some ty) →
          (∀ j v, (j, Atom.ret v) ∈ rest → ∃ own, b.typeOf v = .ok own ∧ result = some own.bare) →
          ∀ j v, (j, Atom.ret v) ∈ (i, Atom.ret value) :: rest →
            ∃ own, b.typeOf v = .ok own ∧ result = some own.bare := by
        intro kept each j v member
        rcases List.mem_cons.1 member with same | member
        · cases same
          exact ⟨own, answer, kept _ rfl⟩
        · exact each j v member
      cases known with
      | none =>
        obtain ⟨kept, each⟩ := ih h
        exact ⟨nofun, later kept each⟩
      | some previous =>
        simp only at h
        split at h
        · cases h
        · rename_i same
          obtain ⟨kept, each⟩ := ih h
          refine ⟨kept, later (fun ty there => kept ty ?_) each⟩
          rw [← there, Classical.not_not.1 same]
    · rename_i other
      obtain ⟨kept, each⟩ := ih h
      refine ⟨kept, fun j v member => ?_⟩
      rcases List.mem_cons.1 member with same | member
      · cases same
        exact absurd rfl (other v)
      · exact each j v member

theorem Prepared.returned {f : Function} (prepared : f.Prepared) {n : Nat} {value : Index}
    (found : f.buffer.atoms[n]? = some (.ret value)) :
    ∃ own, f.buffer.typeOf value = .ok own ∧ own.bare = f.returns := by
  obtain ⟨raw, made⟩ := prepared.made
  by_cases nonempty : raw.buffer.size = 0
  · have signed := (prepare_empty_succeeds nonempty made).2
    rw [signed] at found
    have inside : n < raw.buffer.size := (Array.getElem?_eq_some_iff.1 found).1
    omega
  · obtain ⟨_, types, hints, marked, args, returns, _, _, _, returned, rfl⟩ :=
      (prepare_succeeds nonempty).1 made
    obtain ⟨own, answer, same⟩ := (returnType_agrees returned).2 (.ref n) value
      (Buffer.mem_indexed.2 ⟨n, rfl, found⟩)
    exact ⟨own, answer, by rw [same]; rfl⟩

theorem returnType_known {name : String} {b : Buffer} {known : Option Ty} {items : List (Index × Atom)}
    (none : ∀ i value, (i, Atom.ret value) ∉ items) : returnType name b known items = .ok known := by
  induction items with
  | nil => rfl
  | cons p rest ih =>
    obtain ⟨i, a⟩ := p
    unfold returnType
    split
    · exact absurd List.mem_cons_self (none i _)
    · exact ih fun j value member => none j value (List.mem_cons_of_mem _ member)

/-- The result of a function is nothing, or what one of its returns yields. -/
theorem Prepared.result {f : Function} (prepared : f.Prepared) :
    f.returns = .nil ∨ ∃ (n : Nat) (value : Index) (own : Ty), f.buffer.atoms[n]? = some (.ret value) ∧
      f.buffer.typeOf value = .ok own ∧ f.returns = own.bare := by
  by_cases leaves : ∃ (n : Nat) (value : Index), f.buffer.atoms[n]? = some (.ret value)
  · obtain ⟨n, value, found⟩ := leaves
    obtain ⟨own, answer, same⟩ := prepared.returned found
    exact Or.inr ⟨n, value, own, found, answer, same.symm⟩
  · left
    obtain ⟨raw, made⟩ := prepared.made
    by_cases nonempty : raw.buffer.size = 0
    · rw [(prepare_empty_succeeds nonempty made).2]
    · obtain ⟨_, types, hints, marked, args, returns, _, _, _, returned, rfl⟩ :=
        (prepare_succeeds nonempty).1 made
      rw [returnType_known, Except.ok.injEq] at returned
      · rw [← returned]
        rfl
      · intro i value member
        obtain ⟨n, rfl, found⟩ := Buffer.mem_indexed.1 member
        exact leaves ⟨n, value, found⟩

theorem argumentTypes_each {name : String} {b : Buffer} {parameters : List (Index × Nat)} {expected : Nat}
    {args : List Ty} (h : argumentTypes name b expected parameters = .ok args) :
    List.Forall₂ (fun p ty => b.typeOf p.1 = .ok ty) parameters args := by
  induction parameters generalizing expected args with
  | nil =>
    cases h
    exact .nil
  | cons p rest ih =>
    obtain ⟨i, position⟩ := p
    unfold argumentTypes at h
    split at h
    · cases h
    · obtain ⟨own, known, h⟩ := Except.bind_ok h
      obtain ⟨later, others, h⟩ := Except.bind_ok h
      cases h
      exact .cons known (ih others)

theorem Prepared.arguments {f : Function} (prepared : f.Prepared) :
    List.Forall₂ (fun p ty => f.buffer.typeOf p.1 = .ok ty) f.parameters f.args := by
  obtain ⟨raw, made⟩ := prepared.made
  by_cases nonempty : raw.buffer.size = 0
  · have signed := (prepare_empty_succeeds nonempty made).2
    have none : f.parameters = [] := by
      refine List.eq_nil_iff_forall_not_mem.2 fun p member => ?_
      obtain ⟨n, a, _, found, _⟩ := mem_parametersOf.1 member
      rw [signed] at found
      have inside : n < raw.buffer.size := (Array.getElem?_eq_some_iff.1 found).1
      omega
    rw [none, signed]
    exact .nil
  · obtain ⟨_, types, hints, marked, args, returns, _, _, arguments, _, rfl⟩ :=
      (prepare_succeeds nonempty).1 made
    exact argumentTypes_each arguments

end ShaderForge.Function
