import ShaderForge.Proofs.Optimizer.Rewrites
import ShaderForge.Proofs.Typing.Recursion

/-!
Why passes fail. On a buffer whose addresses lead backwards every walk comes to an end, that to the
storage of an expression too, which nothing else bounds. So a pass that fails reports what it found
there, and never that something leads in a circle.
-/

namespace ShaderForge

open Buffer Typing

variable {b c : Buffer}

/-! ### Walks -/

namespace Buffer

/-- A step for each atom up to the expression, or for each atom, is more than the walk takes. -/
theorem storageFrom_definite (backward : b.Backward) {start i : Index} {fuel : Nat}
    (enough : min i.rank b.size < fuel) : FailsFor Fault.Definite (b.storageFrom start fuel i) := by
  induction fuel generalizing i with
  | zero => omega
  | succ fuel ih =>
    rw [storageFrom]
    refine .bind (fun _ => atom_definite) fun a found => ?_
    cases i with
    | null => cases found
    | ref n =>
      have there : b.atoms[n]? = some a := atom_ok_iff.1 found
      have inside : n < b.size := (Array.getElem?_eq_some_iff.1 there).1
      have next : ∀ {src}, src = a.addresses.1 → min src.rank b.size < fuel := by
        intro src own
        have early : src.rank < n + 1 := backward.address_lt there (Or.inl own)
        rw [Index.rank] at enough
        omega
      split
      · exact ih (next rfl)
      · exact ih (next rfl)
      · exact ih (next rfl)
      · exact .of_ok _

theorem storage_definite (backward : b.Backward) (i : Index) : FailsFor Fault.Definite (b.storage i) :=
  storageFrom_definite backward (by omega)

theorem typeOf_definite (backward : b.Backward) (i : Index) : FailsFor Fault.Definite (b.typeOf i) := by
  unfold Buffer.typeOf
  split
  · exact .of_ok _
  · rw [infer_eq_direct backward]
    exact fun _ => direct_definite backward

theorem rebuild_definite (kept : List Index) (m : Renumbering) : FailsFor Fault.Definite (b.rebuild kept m) := by
  refine .bind (.mapM fun _ _ _ => atom_definite) fun atoms _ => ?_
  simp only [Edit.exec]
  split
  · exact .of_ok _
  · rename_i e d failed
    refine .of_error ?_
    have failed : outcome (renumber m) _ = (.error e, d) := failed
    unfold renumber at failed
    rw [outcome_get_bind] at failed
    simp only at failed
    split at failed
    · cases failed
      rfl
    · cases failed

end Buffer

namespace Optimizer

/-! ### What passes ask -/

theorem writtenThrough_definite (a : Atom) : FailsFor Fault.Definite (writtenThrough b a) := by
  unfold writtenThrough
  split
  · exact .of_ok _
  · exact fun _ => expandList_definite
  · exact .bind (fun _ => expandList_definite) fun _ _ => .of_ok _
  · exact .bind (fun _ => expandList_definite) fun _ _ => .of_ok _
  · exact .of_ok _

theorem writtenStorage_definite (backward : b.Backward) : FailsFor Fault.Definite (writtenStorage b) :=
  .foldlM (fun a _ _ => .bind (writtenThrough_definite a) fun _ _ =>
    .foldlM (fun i _ _ => .bind (storage_definite backward i) fun _ _ => .of_ok _) _) _

theorem isMergeable_definite (backward : b.Backward) (written : IndexSet) (i : Index) (a : Atom) :
    FailsFor Fault.Definite (isMergeable b written i a) := by
  unfold isMergeable
  split
  · exact .of_ok _
  · split
    all_goals first | exact .of_ok _ | exact .bind (storage_definite backward i) fun _ _ => .of_ok _

theorem firstOccurrences_definite (backward : b.Backward) : FailsFor Fault.Definite (firstOccurrences b) :=
  .bind (writtenStorage_definite backward) fun written _ =>
    .bind (.foldlM (fun e _ _ => .bind (isMergeable_definite backward written e.1 e.2) fun _ _ => .of_ok _) _)
      fun _ _ => .of_ok _

theorem allOf_definite (backward : b.Backward) (p : Prim) (items : List Index) :
    FailsFor Fault.Definite (allOf b p items) := by
  induction items with
  | nil => exact .of_ok _
  | cons i rest ih =>
    refine .bind (typeOf_definite backward i) fun ty _ => ?_
    split
    · exact ih
    · exact .of_ok _

theorem isScalarSplit_definite (backward : b.Backward) (src : Index) (items : List Index) :
    FailsFor Fault.Definite (isScalarSplit b src items) := by
  refine .bind (typeOf_definite backward src) fun ty _ => ?_
  split
  · exact .of_ok _
  · split
    · exact .of_ok _
    · exact allOf_definite backward _ _

theorem readsWrittenFrom_definite (written seen : IndexSet) (pending : List Index) :
    FailsFor Fault.Definite (readsWrittenFrom b written seen pending) := by
  fun_induction readsWrittenFrom b written seen pending with
  | case1 | case3 => exact .of_ok _
  | case2 _ _ _ _ ih | case4 _ _ _ _ _ _ ih | case5 _ _ _ _ _ _ _ _ ih => exact ih
  | case6 _ _ _ _ _ _ e failed => exact .of_error (atom_definite failed)

theorem forwarded?_definite (backward : b.Backward) (written : IndexSet) (i : Index) (a : Atom) :
    FailsFor Fault.Definite (forwarded? b written i a) := by
  unfold forwarded?
  split
  · exact .of_ok _
  split
  · split
    · refine .bind (fun _ => expandList_definite) fun items _ => ?_
      split
      · refine .bind ?_ fun fits _ => ?_
        · split
          · exact isScalarSplit_definite backward _ _
          · exact .of_ok _
        · split
          · exact .of_ok _
          · refine .bind (readsWrittenFrom_definite _ _ _) fun stale _ => ?_
            split <;> exact .of_ok _
      · exact .of_ok _
    · exact .of_ok _
  · exact .of_ok _

theorem forwards_definite (backward : b.Backward) : FailsFor Fault.Definite (forwards b) := by
  refine .bind (writtenStorage_definite backward) fun written _ => .foldlM (fun e _ _ => ?_) _
  refine .bind (forwarded?_definite backward written e.1 e.2) fun item _ => ?_
  split <;> exact .of_ok _

theorem isAnchored_definite (backward : b.Backward) (i : Index) (a : Atom) :
    FailsFor Fault.Definite (Liveness.isAnchored b i a) := by
  unfold Liveness.isAnchored
  split
  · exact .of_ok _
  · exact .of_ok _
  · refine .bind (typeOf_definite backward i) fun ty _ => ?_
    split <;> exact .of_ok _
  · exact .of_ok _

theorem alive_definite (backward : b.Backward) : FailsFor Fault.Definite (alive b) := by
  refine .bind (.foldlM (fun e _ _ => ?_) _) fun _ _ => .of_ok _
  exact .bind (isAnchored_definite backward e.1 e.2) fun _ _ => .of_ok _

/-! ### Passes -/

theorem replace_definite {done : Prop} [Decidable done] {next : Buffer → Except Fault Buffer} {e : Fault}
    (definite : FailsFor Fault.Definite (next b))
    (h : outcome (if done then pure false else do
      set (← Edit.query next)
      return true : Edit Bool) b = (.error e, c)) : e.Definite := by
  split at h
  · cases h
  · rcases Edit.query_outcome h with ⟨e', failed, same, _⟩ | ⟨d, _, h⟩
    · cases same
      exact definite e failed
    · cases h

/-- Passes fail on valid buffers for what they find, and never because something leads in a circle. -/
theorem run_definite {p : Pass} {e : Fault} (valid : b.validate = .ok ())
    (h : outcome p.run b = (.error e, c)) : e.Definite := by
  have typedFirst : ∀ {rest : Edit Bool}, outcome (whenTyped rest) b = (.error e, c) →
      (∀ d, d.Backward → outcome rest d = (.error e, c) → e.Definite) → e.Definite := by
    intro rest h later
    rcases whenTyped_outcome h with ⟨none | ⟨e', same, failed⟩, _⟩ | ⟨d, readied, h⟩
    · cases none
    · cases same
      exact analyze_definite (backward_of_validate valid) e failed
    · exact later d (backward_of_validate (readied.valid valid)) h
  cases p with
  | compaction =>
    rw [Pass.run, compact] at h
    rcases Edit.query_outcome h with ⟨e', failed, same, _⟩ | ⟨firsts, _, h⟩
    · cases same
      exact firstOccurrences_definite (backward_of_validate valid) e failed
    · exact replace_definite (rebuild_definite _ _) h
  | elision =>
    rw [Pass.run, elide_eq] at h
    refine typedFirst h fun d backward h => ?_
    unfold forwardReads at h
    rcases Edit.query_outcome h with ⟨e', failed, same, _⟩ | ⟨forward, _, h⟩
    · cases same
      exact forwards_definite backward e failed
    · rw [outcome_bind] at h
      change outcome (if (d.atoms.any fun a => [a.addresses.1, a.addresses.2].any fun i =>
        forward.contains i) = true then _ else _) d = _ at h
      generalize (d.atoms.any fun a => [a.addresses.1, a.addresses.2].any fun i => forward.contains i) = moved at h
      cases moved <;> cases h
  | deadCode =>
    rw [Pass.run, eliminate_eq] at h
    refine typedFirst h fun d backward h => ?_
    unfold dropDead at h
    rcases Edit.query_outcome h with ⟨e', failed, same, _⟩ | ⟨kept, _, h⟩
    · cases same
      exact alive_definite backward e failed
    · rw [outcome_bind] at h
      exact replace_definite (rebuild_definite _ _) h

end Optimizer

end ShaderForge
