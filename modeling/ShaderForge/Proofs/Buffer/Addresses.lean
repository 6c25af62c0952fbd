import ShaderForge.Proofs.Effects

/-!
Addresses lead backwards. A validated buffer uses earlier atoms only, apart from branch
targets; argument lists and field chains descend from their first link, and what they
contain depends on the atoms alone.
-/

namespace ShaderForge

namespace Index

@[simp] theorem ref_lt_ref {k n : Nat} : (Index.ref k < Index.ref n) ↔ k < n := by
  change k + 1 < n + 1 ↔ k < n
  omega

@[simp] theorem ref_le_ref {k n : Nat} : (Index.ref k ≤ Index.ref n) ↔ k ≤ n := by
  change k + 1 ≤ n + 1 ↔ k ≤ n
  omega

theorem compare_eq_lt {i j : Index} : compare i j = .lt ↔ i < j := Nat.compare_eq_lt

theorem compare_eq_eq {i j : Index} : compare i j = .eq ↔ i = j := Std.compare_eq_iff_eq

instance : Std.LawfulBEqCmp (compare : Index → Index → Ordering) where
  compare_eq_iff_beq {i j} := by rw [compare_eq_eq, beq_iff_eq]

theorem eq_ref_of_isNull_false {i : Index} (present : i.isNull = false) : ∃ n, i = .ref n := by
  cases i with
  | null => cases present
  | ref n => exact ⟨n, rfl⟩

end Index

theorem Atom.mem_operands {a : Atom} {o : Index} :
    o ∈ a.operands ↔
      o.isNull = false ∧ (o = a.addresses.1 ∨ (o = a.addresses.2 ∧ a.isBranch = false)) := by
  cases a <;> simp [Atom.operands, Atom.addresses, Atom.isBranch, List.mem_filter] <;>
    cases o <;> simp [Index.isNull]

namespace Buffer

variable {b c : Buffer}

@[simp] theorem get?_ref (b : Buffer) (n : Nat) : b.get? (.ref n) = b.atoms[n]? := rfl

@[simp] theorem get?_null (b : Buffer) : b.get? .null = none := rfl

theorem mem_indexed {i : Index} {a : Atom} :
    (i, a) ∈ b.indexed ↔ ∃ n, i = .ref n ∧ b.atoms[n]? = some a := by
  simp only [indexed, List.mem_map, Prod.exists, Prod.mk.injEq]
  constructor
  · rintro ⟨a', n, member, rfl, rfl⟩
    have found := List.mk_mem_zipIdx_iff_getElem?.1 member
    exact ⟨n, rfl, by simpa using found⟩
  · rintro ⟨n, rfl, found⟩
    exact ⟨a, n, List.mk_mem_zipIdx_iff_getElem?.2 (by simpa using found), rfl, rfl⟩

theorem indexed_getElem? (b : Buffer) (n : Nat) :
    b.indexed[n]? = b.atoms[n]?.map fun a => (.ref n, a) := by
  simp only [indexed, List.getElem?_map, List.getElem?_zipIdx, Option.map_map, Nat.zero_add,
    Array.getElem?_toList]
  rfl

@[simp] theorem indexed_length (b : Buffer) : b.indexed.length = b.size := by
  simp [indexed, size]

/-- Every operand stands before the atom that uses it. -/
def Backward (b : Buffer) : Prop :=
  ∀ (n : Nat) (a : Atom), b.atoms[n]? = some a → ∀ o ∈ a.operands, ∃ k, o = .ref k ∧ k < n

theorem exists_atom {n : Nat} (inside : n < b.size) : ∃ a, b.atoms[n]? = some a :=
  ⟨_, Array.getElem?_eq_getElem inside⟩

def Targets (b : Buffer) (i : Index) (a : Atom) : Prop :=
  ∀ kind cond failto, a = .branch kind cond failto → failto = .null ∨
    i < failto ∧ ∃ kind' cond' next, b.get? failto = some (.branch kind' cond' next)

theorem addressDefect?_eq_none_iff {i : Index} {a : Atom} :
    b.addressDefect? i a = none ↔ (∀ o ∈ a.operands, o < i) ∧ b.Targets i a := by
  have early : ∀ o : Index, (!o.isNull && decide (i ≤ o)) = false ↔ (o.isNull = false → o < i) := by
    intro o
    cases absent : o.isNull with
    | true => simp
    | false =>
      rw [Bool.not_false, Bool.true_and, decide_eq_false_iff_not]
      exact ⟨fun late _ => Nat.lt_of_not_le late, fun before => Nat.not_le_of_lt (before rfl)⟩
  have operands : (∀ o ∈ a.operands, o < i) ↔ ∀ o, (o = a.addresses.1 ∨
      (o = a.addresses.2 ∧ a.isBranch = false)) → o.isNull = false → o < i := by
    simp only [Atom.mem_operands]
    exact ⟨fun all o used present => all o ⟨present, used⟩, fun all o member => all o member.2 member.1⟩
  rw [operands]
  unfold addressDefect?
  split
  case h_1 kind cond failto =>
    have target : b.Targets i (.branch kind cond failto) ↔ failto = .null ∨
        i < failto ∧ ∃ kind' cond' next, b.get? failto = some (.branch kind' cond' next) := by
      constructor
      · intro targets
        exact targets kind cond failto rfl
      · rintro known _ _ _ same
        cases same
        exact known
    rw [target]
    simp only [Atom.addresses, Atom.isBranch, Bool.true_eq_false, and_false, or_false, forall_eq]
    rw [← early]
    cases late : (!cond.isNull && decide (i ≤ cond)) with
    | true => simp
    | false =>
      cases failto with
      | null => simp [Index.isNull]
      | ref n =>
        simp only [Bool.false_eq_true, ↓reduceIte, Index.isNull, reduceCtorEq, true_and, false_or]
        split
        · rename_i kind' cond' next found
          simp [found]
        · rename_i other
          simp only [reduceCtorEq, false_iff, not_and, not_exists]
          intro _ kind' cond' next found
          exact other kind' cond' next found
  case h_2 plain =>
    have branchless : a.isBranch = false := by
      cases a with
      | branch kind cond failto => exact (plain kind cond failto rfl).elim
      | _ => rfl
    have targets : b.Targets i a := fun kind cond failto same => (plain kind cond failto same).elim
    rw [List.findSome?_eq_none_iff]
    simp only [List.mem_cons, List.not_mem_nil, or_false, ite_eq_right_iff, reduceCtorEq, imp_false,
      Bool.not_eq_true, early, branchless, and_true, targets]

theorem validate_ok_iff : b.validate = .ok () ↔
    (∀ (n : Nat) (a : Atom), b.atoms[n]? = some a →
      (∀ o ∈ a.operands, o < .ref n) ∧ b.Targets (.ref n) a) ∧
    ∀ i, i ∈ b.synthesized ∨ i ∈ b.decorations → ∃ a, b.get? i = some a := by
  have sound : b.validate = .ok () ↔ b.defect? = none := by
    unfold validate
    cases b.defect? <;> simp
  rw [sound]
  unfold defect?
  simp only [Option.orElse_eq_orElse, Option.orElse_eq_or, Option.or_eq_none_iff,
    List.findSome?_eq_none_iff, Prod.forall, mem_indexed, addressDefect?_eq_none_iff,
    List.mem_append, Std.ExtTreeSet.mem_toList, Std.ExtTreeMap.mem_keys, ite_eq_right_iff,
    reduceCtorEq, imp_false, Bool.not_eq_true, Option.isNone_eq_false_iff, Option.isSome_iff_exists]
  refine and_congr ?_ Iff.rfl
  constructor
  · intro all n a found
    exact all _ a ⟨n, rfl, found⟩
  · rintro all _ a ⟨n, rfl, found⟩
    exact all n a found

/-- Every address of a valid buffer leads to an atom, those of branch targets too. -/
theorem exists_of_address (valid : b.validate = .ok ()) {n : Nat} {a : Atom} {o : Index}
    (found : b.atoms[n]? = some a) (used : o = a.addresses.1 ∨ o = a.addresses.2)
    (given : o.isNull = false) : ∃ a', b.get? o = some a' := by
  obtain ⟨early, targets⟩ := (validate_ok_iff.1 valid).1 n a found
  have operand : (o = a.addresses.1 ∨ o = a.addresses.2 ∧ a.isBranch = false) → ∃ a', b.get? o = some a' := by
    intro position
    have below := early o (Atom.mem_operands.2 ⟨given, position⟩)
    obtain ⟨k, rfl⟩ := Index.eq_ref_of_isNull_false given
    rw [Index.ref_lt_ref] at below
    exact exists_atom (Nat.lt_trans below (Array.getElem?_eq_some_iff.1 found).1)
  rcases used with first | second
  · exact operand (Or.inl first)
  · cases a with
    | branch kind cond failto =>
      rcases targets kind cond failto rfl with rfl | ⟨_, kind', cond', next, target⟩
      · rw [second] at given
        cases given
      · rw [second]
        exact ⟨_, target⟩
    | _ => exact operand (Or.inr ⟨second, rfl⟩)

theorem validate_congr (valid : b.validate = .ok ()) (atoms : c.atoms = b.atoms)
    (synthesized : c.synthesized = b.synthesized) (decorations : c.decorations = b.decorations) :
    c.validate = .ok () := by
  have same : c.get? = b.get? := by
    funext i
    cases i with
    | null => rfl
    | ref n => rw [get?_ref, get?_ref, atoms]
  rw [validate_ok_iff] at valid ⊢
  unfold Targets at valid ⊢
  rw [atoms, synthesized, decorations, same]
  exact valid

theorem backward_of_validate (valid : b.validate = .ok ()) : b.Backward := by
  intro n a found o member
  have early := ((validate_ok_iff.1 valid).1 n a found).1 o member
  obtain ⟨k, rfl⟩ := Index.eq_ref_of_isNull_false (Atom.mem_operands.1 member).1
  exact ⟨k, rfl, Index.ref_lt_ref.1 early⟩

theorem Backward.of_atoms_eq (backward : b.Backward) (same : b.atoms = c.atoms) : c.Backward := by
  intro n a found
  exact backward n a (by rw [same]; exact found)

/-! ### Argument lists and field chains -/

/-- The items of a list from one cell on; every cell continues at an earlier one. -/
inductive ItemRun (atoms : Array Atom) : Index → List Index → Prop
  | nil : ItemRun atoms .null []
  | last {n : Nat} {item : Index} (cell : atoms[n]? = some (.list item .null)) :
      ItemRun atoms (.ref n) [item]
  | cons {n k : Nat} {item : Index} {rest : List Index} (cell : atoms[n]? = some (.list item (.ref k)))
      (below : k < n) (tail : ItemRun atoms (.ref k) rest) : ItemRun atoms (.ref n) (item :: rest)

/-- The fields of a chain from one link on; every link leads to an earlier one and a nil
marker closes the chain. -/
inductive FieldRun (atoms : Array Atom) : Index → List Index → Prop
  | closed {n : Nat} (marker : atoms[n]? = some (.type .nil .null .null)) :
      FieldRun atoms (.ref n) []
  | link {n k : Nat} {item : Prim} {down : Index} {rest : List Index}
      (node : atoms[n]? = some (.type item down (.ref k))) (below : k < n)
      (tail : FieldRun atoms (.ref k) rest) : FieldRun atoms (.ref n) (.ref n :: rest)

theorem expandList_ok_iff {i : Index} {items : List Index} :
    b.expandList i = .ok items ↔ ItemRun b.atoms i items := by
  constructor
  · intro h
    fun_induction b.expandList i generalizing items with
    | case1 => cases h; exact .nil
    | case2 n item found => cases h; exact .last found
    | case3 n item k below found ih =>
      obtain ⟨rest, walked, h⟩ := Except.bind_ok h
      cases h
      exact .cons found below (ih walked)
    | case4 => cases h
    | case5 => cases h
    | case6 => cases h
  · intro run
    induction run with
    | nil => rw [expandList]
    | last cell => rw [expandList, get?_ref, cell]
    | cons cell below tail ih =>
      rw [expandList, get?_ref, cell]
      simp only [below, ↓reduceIte, ih]
      rfl

theorem fieldsFrom_ok_iff {head i : Index} {fields : List Index} :
    b.fieldsFrom head i = .ok fields ↔ FieldRun b.atoms i fields := by
  constructor
  · intro h
    fun_induction b.fieldsFrom head i generalizing fields with
    | case1 => cases h
    | case2 n item down found closed =>
      cases h
      obtain ⟨rfl, rfl⟩ := closed
      exact .closed found
    | case3 => cases h
    | case4 n item down k found below ih =>
      obtain ⟨rest, walked, h⟩ := Except.bind_ok h
      cases h
      exact .link found below (ih walked)
    | case5 => cases h
    | case6 => cases h
    | case7 => cases h
  · intro run
    induction run with
    | closed marker =>
      rw [fieldsFrom, get?_ref, marker]
      simp
    | link node below tail ih =>
      rw [fieldsFrom, get?_ref, node]
      simp only [below, ↓reduceIte, ih]
      rfl

theorem fieldChain_ok_iff {head : Index} {fields : List Index} :
    b.fieldChain head = .ok fields ↔ FieldRun b.atoms head fields ∧ fields ≠ [] := by
  rw [← @fieldsFrom_ok_iff b head]
  unfold fieldChain
  cases b.fieldsFrom head head with
  | error e => simp [bind, Except.bind]
  | ok found =>
    simp only [bind, Except.bind, Except.ok.injEq]
    cases found with
    | nil =>
      simp only [List.isEmpty_nil, ↓reduceIte, reduceCtorEq, false_iff, not_and]
      rintro rfl nonempty
      exact nonempty rfl
    | cons first rest =>
      simp only [List.isEmpty_cons, Bool.false_eq_true, ↓reduceIte, pure, Except.pure, Except.ok.injEq]
      constructor
      · rintro rfl; exact ⟨rfl, by simp⟩
      · exact fun h => h.1

theorem fieldChain_congr (same : b.atoms = c.atoms) (head : Index) :
    (b.fieldChain head).toOption = (c.fieldChain head).toOption := by
  apply Except.toOption_congr
  intro fields
  rw [fieldChain_ok_iff, fieldChain_ok_iff, same]

theorem expandList_congr (same : b.atoms = c.atoms) (i : Index) :
    (b.expandList i).toOption = (c.expandList i).toOption := by
  apply Except.toOption_congr
  intro items
  rw [expandList_ok_iff, expandList_ok_iff, same]

theorem atom_ok_iff {i : Index} {a : Atom} : b.atom i = .ok a ↔ b.get? i = some a := by
  unfold atom
  cases b.get? i <;> simp

theorem atom_congr (same : b.atoms = c.atoms) (i : Index) :
    (b.atom i).toOption = (c.atom i).toOption := by
  apply Except.toOption_congr
  intro a
  cases i <;> simp [atom_ok_iff, same]

namespace FieldRun

variable {atoms : Array Atom} {i : Index} {fields : List Index}

/-- What holds of the first link and passes from a link to the next holds of every field. -/
theorem forall_mem {P : Index → Prop} (run : FieldRun atoms i fields) (first : P i)
    (step : ∀ (n k : Nat) (item : Prim) (down : Index),
      P (.ref n) → atoms[n]? = some (.type item down (.ref k)) → P (.ref k)) :
    ∀ node ∈ fields, P node := by
  induction run with
  | closed => intro node member; cases member
  | link found below tail ih =>
    intro node member
    rcases List.mem_cons.1 member with rfl | later
    · exact first
    · exact ih (step _ _ _ _ first found) node later

/-- Every field is a link of the chain, not after its first one. -/
theorem mem_link (run : FieldRun atoms i fields) :
    ∀ node ∈ fields, ∃ n k item down,
      node = .ref n ∧ atoms[n]? = some (.type item down (.ref k)) ∧ node ≤ i := by
  induction run with
  | closed => intro node member; cases member
  | @link n k item down rest found below tail ih =>
    intro node member
    rcases List.mem_cons.1 member with rfl | later
    · exact ⟨n, k, item, down, rfl, found, Nat.le_refl _⟩
    · obtain ⟨m, next, item', down', rfl, found', order⟩ := ih node later
      refine ⟨m, next, item', down', rfl, found', ?_⟩
      rw [Index.ref_le_ref] at order ⊢
      omega

theorem head?_eq (run : FieldRun atoms i fields) (some : fields ≠ []) : fields.head? = .some i := by
  cases run with
  | closed => exact (some rfl).elim
  | link => rfl

end FieldRun

end Buffer

end ShaderForge
