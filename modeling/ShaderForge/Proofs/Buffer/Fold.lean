import ShaderForge.Proofs.Typing.Complete

/-!
Buffers folded onto smaller ones. Every atom goes to one that does the same on folded
addresses, so lists, field chains and the storage of an expression fold with it.
-/

namespace ShaderForge

/-- The source of a read of part of a value. -/
def Atom.through? : Atom → Option Index
  | .swizzle src _ | .load src _ | .access src _ => some src
  | _ => none

theorem Atom.through?_addresses {a : Atom} {src : Index} (h : a.through? = some src) :
    src = a.addresses.1 := by
  cases a <;> cases h <;> rfl

theorem Atom.through?_mapAddresses (a : Atom) (f : Index → Index) :
    (a.mapAddresses f).through? = a.through?.map f := by
  cases a <;> rfl

namespace Buffer

variable {b c : Buffer}

/-! ### Storage -/

inductive StorageRun (atoms : Array Atom) : Index → Index → Prop
  | here {n : Nat} {a : Atom} (found : atoms[n]? = some a) (own : a.through? = none) :
      StorageRun atoms (.ref n) (.ref n)
  | step {n : Nat} {a : Atom} {src j : Index} (found : atoms[n]? = some a)
      (read : a.through? = some src) (rest : StorageRun atoms src j) : StorageRun atoms (.ref n) j

theorem storageFrom_succ (b : Buffer) (start : Index) (fuel n : Nat) {a : Atom}
    (found : b.atoms[n]? = some a) :
    b.storageFrom start (fuel + 1) (.ref n) =
      match a.through? with
      | some src => b.storageFrom start fuel src
      | none => .ok (.ref n) := by
  have answer : b.atom (.ref n) = .ok a := atom_ok_iff.2 found
  rw [storageFrom, answer]
  cases a <;> rfl

theorem storageRun_of_storageFrom {start i j : Index} {fuel : Nat}
    (h : b.storageFrom start fuel i = .ok j) : StorageRun b.atoms i j := by
  induction fuel generalizing i with
  | zero => cases h
  | succ fuel ih =>
    cases i with
    | null => cases h
    | ref n =>
      cases found : b.atoms[n]? with
      | none =>
        have answer : b.atom (.ref n) = .error (b.fault (.unresolved (.ref n))) := by
          simp [atom, found]
        rw [storageFrom, answer] at h
        cases h
      | some a =>
        rw [storageFrom_succ b start fuel n found] at h
        cases read : a.through? with
        | none =>
          rw [read] at h
          cases h
          exact .here found read
        | some src =>
          rw [read] at h
          exact .step found read (ih h)

theorem storageFrom_of_run {start i j : Index} (backward : b.Backward)
    (run : StorageRun b.atoms i j) {fuel : Nat} (enough : i < .ref fuel) :
    b.storageFrom start fuel i = .ok j := by
  induction run generalizing fuel with
  | @here n a found own =>
    rw [Index.ref_lt_ref] at enough
    obtain ⟨fuel, rfl⟩ : ∃ m, fuel = m + 1 := ⟨fuel - 1, by omega⟩
    rw [storageFrom_succ b start fuel n found, own]
  | @step n a src j found read rest ih =>
    rw [Index.ref_lt_ref] at enough
    obtain ⟨fuel, rfl⟩ : ∃ m, fuel = m + 1 := ⟨fuel - 1, by omega⟩
    rw [storageFrom_succ b start fuel n found, read]
    apply ih
    have early := backward.address_lt found (Or.inl (Atom.through?_addresses read))
    exact Nat.lt_of_lt_of_le early (Nat.succ_le_succ (by omega))

theorem storage_ok_iff (backward : b.Backward) {i j : Index} :
    b.storage i = .ok j ↔ StorageRun b.atoms i j := by
  constructor
  · exact storageRun_of_storageFrom
  · intro run
    apply storageFrom_of_run backward run
    cases run with
    | here found | step found =>
      have inside := (Array.getElem?_eq_some_iff.1 found).1
      rw [Index.ref_lt_ref, size]
      omega

theorem storageFrom_congr (same : b.atoms = c.atoms) (start i : Index) (fuel : Nat) :
    (b.storageFrom start fuel i).toOption = (c.storageFrom start fuel i).toOption := by
  induction fuel generalizing i with
  | zero => rfl
  | succ fuel ih =>
    rw [storageFrom, storageFrom, Except.toOption_bind, Except.toOption_bind, atom_congr same]
    refine congrArg _ (funext fun a => ?_)
    cases a with
    | swizzle src | load src | access src => exact ih src
    | _ => rfl

theorem storage_congr (same : b.atoms = c.atoms) (i : Index) :
    (b.storage i).toOption = (c.storage i).toOption := by
  have size : b.size = c.size := congrArg Array.size same
  rw [storage, storage, size]
  exact storageFrom_congr same i i _

/-! ### Folding -/

/-- An address that is not lost: only null goes to null. -/
def Kept (fold : Index → Index) (i : Index) : Prop := (fold i).isNull = i.isNull

/-- An address that shares its place with no other. -/
def Solo (fold : Index → Index) (i : Index) : Prop := ∀ j, fold j = fold i → j = i

/-- Every kept atom goes to one that does the same on folded addresses, and uses kept ones only. -/
structure Folds (b c : Buffer) (fold : Index → Index) : Prop where
  null : fold .null = .null
  atoms : ∀ (n : Nat) (a : Atom), b.atoms[n]? = some a → Kept fold (.ref n) →
    c.get? (fold (.ref n)) = some (a.mapAddresses fold)
  closed : b.UseClosed (Kept fold)
  onto : ∀ k, k < c.size → ∃ n, n < b.size ∧ fold (.ref n) = .ref k
  captured : ∀ n, n < b.size → Kept fold (.ref n) →
    c.isSynthesized (fold (.ref n)) = b.isSynthesized (.ref n)
  backward : c.Backward

theorem kept_of_place {fold : Index → Index} {n k : Nat} (place : fold (.ref n) = .ref k) :
    Kept fold (.ref n) := by
  unfold Kept
  rw [place]
  rfl

namespace Folds

variable {fold : Index → Index} {i j : Index} {n : Nat} {a : Atom}

theorem kept_null (folds : Folds b c fold) : Kept fold .null := by
  unfold Kept
  rw [folds.null]

theorem kept_address (folds : Folds b c fold) (found : b.atoms[n]? = some a) (kept : Kept fold (.ref n))
    {o : Index} (used : o = a.addresses.1 ∨ o = a.addresses.2 ∧ a.isBranch = false) : Kept fold o := by
  cases o with
  | null => exact folds.kept_null
  | ref k => exact folds.closed n a kept found _ (Atom.mem_operands.2 ⟨rfl, used⟩)

theorem atom_at (folds : Folds b c fold) (found : b.atoms[n]? = some a) (kept : Kept fold (.ref n)) :
    ∃ k, fold (.ref n) = .ref k ∧ c.atoms[k]? = some (a.mapAddresses fold) := by
  have image := folds.atoms n a found kept
  cases place : fold (.ref n) with
  | null => rw [place] at image; cases image
  | ref k => rw [place] at image; exact ⟨k, rfl, image⟩

theorem items (folds : Folds b c fold) {items : List Index} (kept : Kept fold i)
    (run : ItemRun b.atoms i items) :
    ItemRun c.atoms (fold i) (items.map fold) ∧ ∀ item ∈ items, Kept fold item := by
  induction run with
  | nil =>
    rw [folds.null]
    exact ⟨.nil, fun _ member => by cases member⟩
  | @last n item cell =>
    obtain ⟨k, place, image⟩ := folds.atom_at cell kept
    have first : Kept fold item := folds.kept_address cell kept (Or.inl rfl)
    rw [place]
    simp only [Atom.mapAddresses, folds.null] at image
    exact ⟨.last image, by simpa using first⟩
  | @cons n m item rest cell below tail ih =>
    obtain ⟨k, place, image⟩ := folds.atom_at cell kept
    have first : Kept fold item := folds.kept_address cell kept (Or.inl rfl)
    have next : Kept fold (.ref m) := folds.kept_address cell kept (Or.inr ⟨rfl, rfl⟩)
    obtain ⟨tail', later⟩ := ih next
    have inside : m < b.size := by
      have := (Array.getElem?_eq_some_iff.1 cell).1
      unfold size
      omega
    obtain ⟨k', place', _⟩ := folds.atom_at (Array.getElem?_eq_getElem inside) next
    rw [place'] at tail'
    simp only [Atom.mapAddresses, place'] at image
    have early : Index.ref k' < .ref k := folds.backward.address_lt image (Or.inr ⟨rfl, rfl⟩)
    rw [place]
    exact ⟨.cons image (Index.ref_lt_ref.1 early) tail', by simpa using ⟨first, later⟩⟩

theorem expandList (folds : Folds b c fold) {items : List Index} (kept : Kept fold i)
    (listed : b.expandList i = .ok items) : c.expandList (fold i) = .ok (items.map fold) :=
  expandList_ok_iff.2 (folds.items kept (expandList_ok_iff.1 listed)).1

theorem kept_items (folds : Folds b c fold) {items : List Index} (kept : Kept fold i)
    (listed : b.expandList i = .ok items) : ∀ item ∈ items, Kept fold item :=
  (folds.items kept (expandList_ok_iff.1 listed)).2

theorem links (folds : Folds b c fold) {fields : List Index} (kept : Kept fold i)
    (run : FieldRun b.atoms i fields) : FieldRun c.atoms (fold i) (fields.map fold) := by
  induction run with
  | @closed n marker =>
    obtain ⟨k, place, image⟩ := folds.atom_at marker kept
    rw [place]
    simp only [Atom.mapAddresses, folds.null] at image
    exact .closed image
  | @link n m item down rest node below tail ih =>
    obtain ⟨k, place, image⟩ := folds.atom_at node kept
    have next : Kept fold (.ref m) := folds.kept_address node kept (Or.inr ⟨rfl, rfl⟩)
    have tail' := ih next
    have inside : m < b.size := by
      have := (Array.getElem?_eq_some_iff.1 node).1
      unfold size
      omega
    obtain ⟨k', place', _⟩ := folds.atom_at (Array.getElem?_eq_getElem inside) next
    rw [place'] at tail'
    simp only [Atom.mapAddresses, place'] at image
    have early : Index.ref k' < .ref k := folds.backward.address_lt image (Or.inr ⟨rfl, rfl⟩)
    rw [List.map_cons, place]
    exact .link image (Index.ref_lt_ref.1 early) tail'

theorem fieldChain (folds : Folds b c fold) {fields : List Index} (kept : Kept fold i)
    (chain : b.fieldChain i = .ok fields) : c.fieldChain (fold i) = .ok (fields.map fold) := by
  obtain ⟨run, nonempty⟩ := fieldChain_ok_iff.1 chain
  exact fieldChain_ok_iff.2 ⟨folds.links kept run, by simpa using nonempty⟩

theorem storage (folds : Folds b c fold) (kept : Kept fold i) (found : b.storage i = .ok j) :
    c.storage (fold i) = .ok (fold j) ∧ Kept fold j := by
  rw [storage_ok_iff folds.backward]
  have run : StorageRun b.atoms i j := storageRun_of_storageFrom found
  clear found
  induction run with
  | @here n a present own =>
    obtain ⟨k, place, image⟩ := folds.atom_at present kept
    refine ⟨?_, kept⟩
    rw [place]
    exact .here image (by rw [Atom.through?_mapAddresses, own]; rfl)
  | @step n a src j present read rest ih =>
    obtain ⟨k, place, image⟩ := folds.atom_at present kept
    obtain ⟨rest', last⟩ := ih (folds.kept_address present kept (Or.inl (Atom.through?_addresses read)))
    refine ⟨?_, last⟩
    rw [place]
    exact .step image (by rw [Atom.through?_mapAddresses, read]; rfl) rest'

theorem kept_struct (folds : Folds b c fold) (typed : b.Typed) (backward : b.Backward) {head : Index}
    {ty : Ty} (kept : Kept fold i) (known : b.table i = some ty) (carried : ty.struct? = some head) :
    Kept fold head := by
  cases i with
  | null => cases known; cases carried
  | ref n =>
    obtain ⟨_, _, _, inner, _⟩ := typed.struct_head backward folds.closed n kept known carried
    exact inner

/-- A fold that keeps the targets of branches behind them leaves a valid buffer. -/
theorem valid (folds : Folds b c fold) (valid : b.validate = .ok ())
    (targets : ∀ (n t : Nat) (kind : BranchKind) (cond : Index),
      b.atoms[n]? = some (.branch kind cond (.ref t)) → Kept fold (.ref n) → n < t →
      Kept fold (.ref t) ∧ fold (.ref n) < fold (.ref t))
    (notes : ∀ i, i ∈ c.synthesized ∨ i ∈ c.decorations →
      ∃ (n : Nat) (a : Atom), b.atoms[n]? = some a ∧ Kept fold (.ref n) ∧ fold (.ref n) = i) :
    c.validate = .ok () := by
  have checked := (validate_ok_iff.1 valid).1
  refine validate_ok_iff.2 ⟨fun k a' found' => ⟨?_, ?_⟩, ?_⟩
  · intro o member
    obtain ⟨j, rfl, early⟩ := folds.backward k a' found' o member
    exact Index.ref_lt_ref.2 early
  · rintro kind cond' failto' rfl
    obtain ⟨n, inside, place⟩ := folds.onto k (Array.getElem?_eq_some_iff.1 found').1
    obtain ⟨a, found⟩ := exists_atom inside
    have kept := kept_of_place place
    have image := folds.atoms n a found kept
    rw [place, get?_ref, found', Option.some.injEq] at image
    cases a with
    | branch kind cond failto =>
      cases image
      rcases (checked n _ found).2 kind cond failto rfl with rfl | ⟨later, kind', cond', next, target⟩
      · exact Or.inl folds.null
      · cases failto with
        | null => cases target
        | ref t =>
          obtain ⟨kept', order⟩ := targets n t kind cond found kept (Index.ref_lt_ref.1 later)
          rw [place] at order
          exact Or.inr ⟨order, kind', _, _, folds.atoms t _ target kept'⟩
    | _ => cases image
  · intro i noted
    obtain ⟨n, a, found, kept, rfl⟩ := notes i noted
    exact ⟨_, folds.atoms n a found kept⟩

end Folds

end Buffer

end ShaderForge
