import ShaderForge.Proofs.Liveness.Fold
import ShaderForge.Proofs.Liveness.Least

/-!
When marking succeeds. Every expression that has a value has storage, so typed buffers can be marked as
long as what is stored to has.
-/

namespace ShaderForge.Liveness

open Buffer Inquiry Typing

variable {b : Buffer} {n : Nat} {a : Atom} {i src : Index} {ty : Ty}

theorem storage_present {j : Index} (run : StorageRun b.atoms i j) : ∃ a, b.get? j = some a := by
  induction run with
  | here found _ => exact ⟨_, found⟩
  | step _ _ _ ih => exact ih

theorem read_nothing {table : Index → Option Ty} (read : a.through? = some src) (nothing : table src = some .nil)
    (ruled : (rule b i a).value? table = some ty) : ty = .nil ∧ ∃ field, a = .load src field := by
  cases a <;> cases read
  · simp only [rule, value?_bind, value?_typeOf, nothing, Option.bind_some] at ruled
    cases ruled
  · rename_i field
    simp only [rule, value?_bind, value?_typeOf, nothing, Option.bind_some] at ruled
    unfold load at ruled
    split at ruled
    · cases ruled
      exact ⟨rfl, field, rfl⟩
    · cases ruled
  · simp only [rule, value?_bind, value?_typeOf, nothing, Option.bind_some] at ruled
    cases ruled

theorem exists_source {table : Index → Option Ty} (read : a.through? = some src)
    (ruled : (rule b i a).value? table = some ty) : ∃ own, table src = some own := by
  cases known : table src with
  | some own => exact ⟨own, rfl⟩
  | none =>
    cases a <;> cases read <;>
      simp only [rule, value?_bind, value?_typeOf, known, Option.bind_none] at ruled <;> cases ruled

section

variable (typed : b.Typed) (backward : b.Backward)

include typed

theorem exists_entry (found : b.atoms[n]? = some a) : ∃ ty, b.table (.ref n) = some ty := by
  have inside : n < b.types.size := by
    rw [typed.complete]
    exact (Array.getElem?_eq_some_iff.1 found).1
  exact ⟨_, Array.getElem?_eq_getElem inside⟩

theorem ruled_of_found (found : b.atoms[n]? = some a) (known : b.table (.ref n) = some ty) :
    (rule b (.ref n) a).value? b.table = some ty := by
  rw [typed.confirmed n a found, ← table_ref, known]

include backward

theorem exists_storageRun (found : b.atoms[n]? = some a) (known : b.table (.ref n) = some ty) (value : ty ≠ .nil) :
    ∃ j, StorageRun b.atoms (.ref n) j := by
  induction n using Nat.strongRecOn generalizing a ty with
  | ind n ih =>
    cases read : a.through? with
    | none => exact ⟨_, .here found read⟩
    | some src =>
      have ruled := ruled_of_found typed found known
      obtain ⟨own, source⟩ := exists_source read ruled
      have given : own ≠ .nil := by
        rintro rfl
        exact value (read_nothing read source ruled).1
      cases src with
      | null =>
        rw [table_null, Option.some.injEq] at source
        exact absurd source.symm given
      | ref k =>
        have below : k < n := Index.ref_lt_ref.1 (backward.address_lt found (Or.inl (Atom.through?_addresses read)))
        have inside := (Array.getElem?_eq_some_iff.1 found).1
        obtain ⟨j, run⟩ := ih k below (Array.getElem?_eq_getElem (Nat.lt_trans below inside)) source given
        exact ⟨j, .step found read run⟩

theorem access_answers {loc : Index} (found : b.atoms[n]? = some (.access src loc)) : ∃ j, b.storage src = .ok j := by
  have inside := (Array.getElem?_eq_some_iff.1 found).1
  obtain ⟨ty, known⟩ := exists_entry typed found
  have ruled := ruled_of_found typed found known
  obtain ⟨own, source⟩ := exists_source rfl ruled
  have given : own ≠ .nil := by
    rintro rfl
    obtain ⟨_, _, same⟩ := read_nothing rfl source ruled
    cases same
  cases src with
  | null =>
    rw [table_null, Option.some.injEq] at source
    exact absurd source.symm given
  | ref k =>
    have below : k < n := Index.ref_lt_ref.1 (backward.address_lt found (Or.inl rfl))
    obtain ⟨j, run⟩ := exists_storageRun typed backward (Array.getElem?_eq_getElem (Nat.lt_trans below inside)) source given
    exact ⟨j, (storage_ok_iff backward).2 run⟩

omit backward in
theorem exists_isRoot (found : b.atoms[n]? = some a) : ∃ live, isRoot b (.ref n) a = .ok live := by
  unfold isRoot
  split
  · exact ⟨true, rfl⟩
  · cases a with
    | construct ty args mode =>
      obtain ⟨ty, known⟩ := exists_entry typed found
      unfold isAnchored
      simp only [typed.typeOf_ok_iff.2 known, Except.ok_bind]
      split <;> exact ⟨_, rfl⟩
    | qualifier underlying kind number => cases kind <;> exact ⟨_, rfl⟩
    | _ => exact ⟨_, rfl⟩

omit typed in
theorem operand_present {m : Nat} (found : b.atoms[m]? = some a)
    (address : i = a.addresses.1 ∨ i = a.addresses.2 ∧ a.isBranch = false) : i = .null ∨ ∃ a, b.get? i = some a := by
  cases i with
  | null => exact Or.inl rfl
  | ref k =>
    have below : k < m := Index.ref_lt_ref.1 (backward.address_lt found address)
    exact Or.inr ⟨_, Array.getElem?_eq_getElem (Nat.lt_trans below (Array.getElem?_eq_some_iff.1 found).1)⟩

theorem exists_mark (stores : ∀ (n : Nat) (dst src : Index), b.atoms[n]? = some (.store dst src) →
    ∃ j, b.storage dst = .ok j) : ∃ marked, mark b = .ok marked := by
  have needed : ∀ {m : Nat} {a : Atom} {t : Task}, b.atoms[m]? = some a → t ∈ needs a → Answers b t := by
    intro m a t found member
    have address := needs_address member
    cases t with
    | force i | visit i => exact operand_present backward found address
    | forceStorage i =>
      have assigned := forceStorage_mem_needs.1 member
      cases a with
      | store dst src =>
        cases assigned
        exact stores m _ src found
      | access src loc =>
        cases assigned
        exact access_answers typed backward found
      | _ => cases assigned
  refine mark_of_answers (fun t due => ?_) fun n a found => exists_isRoot typed found
  induction due with
  | root found _ => exact Or.inr ⟨_, found⟩
  | storage _ stored _ =>
    exact Or.inr (storage_present (storageRun_of_storageFrom stored))
  | force _ found member _ => exact needed found member
  | visit due found member ih =>
    rcases leads_needs member with rfl | member
    · exact ih
    · exact needed found member

end

end ShaderForge.Liveness
