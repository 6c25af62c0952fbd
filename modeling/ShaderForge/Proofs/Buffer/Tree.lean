import ShaderForge.Proofs.Optimizer.Skeleton

/-!
Expressions as trees. What stands at an address is unfolded through operands, with the names of the
atoms on the way. A fold that keeps names keeps trees.
-/

namespace ShaderForge

/-- The operand slots of an atom; a branch's target is none of them. -/
def Atom.slots (a : Atom) : Index × Index :=
  (a.addresses.1, if a.isBranch then .null else a.addresses.2)

theorem Atom.slots_mapAddresses {f : Index → Index} (null : f .null = .null) (a : Atom) :
    (a.mapAddresses f).slots = (f a.slots.1, f a.slots.2) := by
  cases a <;> simp [slots, addresses, mapAddresses, isBranch, null]

/-- An expression: what an atom holds besides addresses, its name, and what stands in its slots. -/
inductive Tree where
  | absent
  | node (shape : Atom) (name : Option Decoration) (first second : Tree)
deriving DecidableEq, Repr

namespace Buffer

variable {b c : Buffer} {n : Nat} {a : Atom}

/-- The tree at an address.  A slot that does not lead backwards ends it. -/
def tree (b : Buffer) (i : Index) : Tree :=
  match i with
  | .null => .absent
  | .ref n =>
    match b.atoms[n]? with
    | none => .absent
    | some a =>
      .node a.shape (b.decoration? (.ref n))
        (if a.slots.1 < .ref n then b.tree a.slots.1 else .absent)
        (if a.slots.2 < .ref n then b.tree a.slots.2 else .absent)
termination_by i.rank

theorem tree_null (b : Buffer) : b.tree .null = .absent := by
  rw [tree]

theorem tree_missing (missing : b.atoms[n]? = none) : b.tree (.ref n) = .absent := by
  rw [tree, missing]

theorem Backward.slots_lt (backward : b.Backward) (found : b.atoms[n]? = some a) :
    a.slots.1 < .ref n ∧ a.slots.2 < .ref n := by
  refine ⟨backward.address_lt found (Or.inl rfl), ?_⟩
  unfold Atom.slots
  split
  · exact Nat.zero_lt_succ n
  · rename_i other
    exact backward.address_lt found (Or.inr ⟨rfl, Bool.eq_false_iff.2 other⟩)

theorem tree_ref (backward : b.Backward) (found : b.atoms[n]? = some a) :
    b.tree (.ref n) =
      .node a.shape (b.decoration? (.ref n)) (b.tree a.slots.1) (b.tree a.slots.2) := by
  obtain ⟨first, second⟩ := backward.slots_lt found
  rw [tree, found]
  simp only [first, second, ↓reduceIte]

theorem Folds.kept_slots {fold : Index → Index} (folds : Folds b c fold) (found : b.atoms[n]? = some a)
    (kept : Kept fold (.ref n)) : Kept fold a.slots.1 ∧ Kept fold a.slots.2 := by
  refine ⟨folds.kept_address found kept (Or.inl rfl), ?_⟩
  unfold Atom.slots
  split
  · exact folds.kept_null
  · rename_i other
    exact folds.kept_address found kept (Or.inr ⟨rfl, Bool.eq_false_iff.2 other⟩)

/-- A fold that keeps the names of what it keeps unfolds there to the same trees. -/
theorem Folds.tree_eq {fold : Index → Index} (folds : Folds b c fold) (backward : b.Backward)
    (names : ∀ n, n < b.size → Kept fold (.ref n) →
      c.decoration? (fold (.ref n)) = b.decoration? (.ref n)) {n : Nat} (inside : n < b.size)
    (kept : Kept fold (.ref n)) : c.tree (fold (.ref n)) = b.tree (.ref n) := by
  induction n using Nat.strongRecOn with
  | ind n ih =>
    obtain ⟨a, found⟩ := exists_atom inside
    obtain ⟨k, place, image⟩ := folds.atom_at found kept
    have slot : ∀ o, o < .ref n → Kept fold o → c.tree (fold o) = b.tree o := by
      intro o early kept'
      cases o with
      | null => rw [folds.null, tree_null, tree_null]
      | ref m =>
        rw [Index.ref_lt_ref] at early
        exact ih m early (by omega) kept'
    obtain ⟨first, second⟩ := backward.slots_lt found
    obtain ⟨kept₁, kept₂⟩ := folds.kept_slots found kept
    have name := names n inside kept
    rw [place] at name ⊢
    rw [tree_ref folds.backward image, tree_ref backward found, Atom.shape_mapAddresses, name,
      Atom.slots_mapAddresses folds.null, slot _ first kept₁, slot _ second kept₂]

end Buffer

end ShaderForge
