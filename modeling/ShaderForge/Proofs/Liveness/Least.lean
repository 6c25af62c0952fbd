import Mathlib.Logic.Relation
import ShaderForge.Proofs.Buffer.Fold
import ShaderForge.Proofs.Liveness.Due

/-!
What marking finds. An atom is forced when it is a root, when a forced statement needs its declaration
or stores to it, or when it is used and printed on its own; it is used when a forced statement or an
inlined expression reads it. Marking finds the least set with these rules, whatever the order of the
roots, and so everything printed that a marked atom reaches through operands is marked.
-/

namespace ShaderForge

namespace Atom

/-- The atoms whose declarations a statement needs. -/
def declares : Atom → List Index
  | .qualifier underlying _ _ => [underlying]
  | .type _ down next => [down, next]
  | .construct ty _ _ | .call _ ty _ => [ty]
  | _ => []

/-- The expression whose storage a statement reaches into. -/
def assigns? : Atom → Option Index
  | .store dst _ => some dst
  | .access src _ => some src
  | _ => none

/-- The values that a statement or expression reads. -/
def reads : Atom → List Index
  | .qualifier .. | .type .. => []
  | .construct _ args _ | .call _ _ args => [args]
  | a => a.operands

/-- Printed on its own wherever it is used. -/
def StandsAlone : Atom → Prop
  | .qualifier .. | .type .. | .call .. | .store .. | .ret _ | .branch .. => True
  | .construct _ _ mode => mode = .normal
  | .intrinsic code _ => code.isSideEffect = true ∨ code.isLayout = true
  | _ => False

theorem mem_declares_or_reads {a : Atom} {o : Index} (used : o ∈ a.operands) :
    o ∈ a.declares ∨ o ∈ a.reads := by
  obtain ⟨_, position⟩ := mem_operands.1 used
  cases a with
  | qualifier | type | construct | call =>
    simp only [addresses, isBranch, and_true] at position
    simp only [declares, reads, List.mem_cons, List.not_mem_nil, or_false]
    grind [Index.isNull]
  | _ => exact Or.inr used

end Atom

namespace Liveness

open Buffer

/-! ### Rules -/

/-- Atoms with an effect or a binding of their own. -/
inductive Anchored (b : Buffer) (i : Index) : Atom → Prop
  | parameter (underlying : Index) (number : Int32) :
      Anchored b i (.qualifier underlying .parameter number)
  | accelerationStructure (underlying : Index) (number : Int32) :
      Anchored b i (.qualifier underlying .accelerationStructure number)
  | reference {ty args : Index} {mode : Mode} {base : Data} {id : Int32}
      (typed : b.typeOf i = .ok (.reference base id)) : Anchored b i (.construct ty args mode)
  | store (dst src : Index) : Anchored b i (.store dst src)
  | ret (value : Index) : Anchored b i (.ret value)
  | branch (kind : BranchKind) (cond failto : Index) : Anchored b i (.branch kind cond failto)
  | call (callee : FunctionId) (ty args : Index) : Anchored b i (.call callee ty args)
  | intrinsic {code : Intrinsic} {args : Index}
      (effect : code.isSideEffect = true ∨ code.isLayout = true) : Anchored b i (.intrinsic code args)

theorem isAnchored_iff {b : Buffer} {i : Index} {a : Atom} :
    isAnchored b i a = .ok true ↔ Anchored b i a := by
  constructor
  · intro h
    unfold isAnchored at h
    split at h
    · exact .parameter _ _
    · exact .accelerationStructure _ _
    · obtain ⟨ty, typed, h⟩ := Except.bind_ok h
      split at h
      · exact .reference typed
      · cases h
    · have effect : a.isSideEffect = true := Except.ok.inj h
      cases a with
      | store dst src => exact .store dst src
      | ret value => exact .ret value
      | branch kind cond failto => exact .branch kind cond failto
      | call callee ty args => exact .call callee ty args
      | intrinsic code args => exact .intrinsic (Bool.or_eq_true_iff.1 effect)
      | _ => cases effect
  · intro anchored
    cases anchored with
    | reference typed => rw [isAnchored, typed]; rfl
    | intrinsic effect => exact congrArg Except.ok (Bool.or_eq_true_iff.2 effect)
    | _ => rfl

theorem isRoot_iff {b : Buffer} {i : Index} {a : Atom} :
    isRoot b i a = .ok true ↔ i ∈ b.synthesized ∨ Anchored b i a := by
  unfold isRoot isSynthesized
  rw [← Std.ExtTreeSet.contains_iff_mem]
  split
  · rename_i captured
    exact ⟨fun _ => Or.inl captured, fun _ => rfl⟩
  · rename_i free
    rw [isAnchored_iff]
    exact ⟨Or.inr, fun either => either.resolve_left free⟩

/-- An atom that is printed on its own, or captured where it stands. -/
def Printed (b : Buffer) (n : Nat) (a : Atom) : Prop := .ref n ∈ b.synthesized ∨ a.StandsAlone

mutual

/-- The atoms that are statements or declarations of a live function. -/
inductive Forced (b : Buffer) : Nat → Prop
  | captured {n : Nat} (inside : n < b.size) (member : .ref n ∈ b.synthesized) : Forced b n
  | anchored {n : Nat} {a : Atom} (found : b.atoms[n]? = some a) (anchored : Anchored b (.ref n) a) :
      Forced b n
  | declared {m n : Nat} {a : Atom} (forced : Forced b m) (found : b.atoms[m]? = some a)
      (member : .ref n ∈ a.declares) : Forced b n
  | storage {m n : Nat} {a : Atom} {i : Index} (forced : Forced b m) (found : b.atoms[m]? = some a)
      (assigned : a.assigns? = some i) (run : StorageRun b.atoms i (.ref n)) : Forced b n
  | printed {n : Nat} {a : Atom} (used : Used b n) (found : b.atoms[n]? = some a)
      (own : Printed b n a) : Forced b n
  | carried {m n : Nat} {a : Atom} (used : Used b m) (found : b.atoms[m]? = some a)
      (inlined : ¬ Printed b m a) (member : .ref n ∈ a.declares) : Forced b n

/-- The atoms whose values a live function reads. -/
inductive Used (b : Buffer) : Nat → Prop
  | read {m n : Nat} {a : Atom} (forced : Forced b m) (found : b.atoms[m]? = some a)
      (member : .ref n ∈ a.reads) : Used b n
  | inlined {m n : Nat} {a : Atom} (used : Used b m) (found : b.atoms[m]? = some a)
      (inlined : ¬ Printed b m a) (member : .ref n ∈ a.reads) : Used b n

end

variable {b : Buffer} {n : Nat} {a : Atom} {t : Task}

theorem force_mem_needs {k : Nat} : .force (.ref k) ∈ needs a ↔ .ref k ∈ a.declares := by
  cases a <;> simp [needs, Atom.declares]

theorem forceStorage_mem_needs {i : Index} : .forceStorage i ∈ needs a ↔ a.assigns? = some i := by
  cases a <;> simp [needs, Atom.assigns?, eq_comm]

theorem visit_mem_needs {k : Nat} : .visit (.ref k) ∈ needs a ↔ .ref k ∈ a.reads := by
  cases a <;> simp [needs, Atom.reads, Atom.mem_operands, Atom.addresses, Atom.isBranch, Index.isNull]

theorem leads_printed (own : Printed b n a) : leads b (.ref n) a = [.force (.ref n)] := by
  unfold leads isSynthesized
  split
  · rfl
  · rename_i free
    rcases own with captured | alone
    · exact absurd (Std.ExtTreeSet.contains_iff_mem.2 captured) free
    · cases a with
      | qualifier | type | call | store | ret | branch => rfl
      | construct ty args mode =>
        cases (alone : mode = .normal)
        rfl
      | intrinsic code args =>
        have effect : (Atom.intrinsic code args).isSideEffect = true := Bool.or_eq_true_iff.2 alone
        simp only [effect, ↓reduceIte]
      | literal | swizzle | operation | list | load | access => exact alone.elim

theorem leads_inlined (inlined : ¬ Printed b n a) :
    leads b (.ref n) a = a.declares.map .force ++ a.reads.map .visit := by
  obtain ⟨free, apart⟩ := not_or.1 inlined
  have free : b.isSynthesized (.ref n) = false :=
    Bool.eq_false_iff.2 fun captured => free (Std.ExtTreeSet.contains_iff_mem.1 captured)
  unfold leads
  rw [free, if_neg Bool.false_ne_true]
  cases a with
  | qualifier | type | call | store | ret | branch => exact absurd trivial apart
  | construct ty args mode =>
    cases mode with
    | normal => exact absurd rfl apart
    | transient => rfl
  | intrinsic code args =>
    have pure : (Atom.intrinsic code args).isSideEffect = false :=
      Bool.eq_false_iff.2 fun effect => apart (Bool.or_eq_true_iff.1 effect)
    simp only [pure, Bool.false_eq_true, ↓reduceIte]
    rfl
  | literal | swizzle | operation | list | load | access => rfl

/-! ### The tasks of marking are the rules -/

mutual

theorem due_of_forced (backward : b.Backward) {n : Nat} : Forced b n → Due b (.force (.ref n))
  | .captured inside member =>
    .root (Array.getElem?_eq_getElem inside) (isRoot_iff.2 (Or.inl member))
  | .anchored found anchored => .root found (isRoot_iff.2 (Or.inr anchored))
  | .declared forced found member =>
    .force (due_of_forced backward forced) found (force_mem_needs.2 member)
  | .storage forced found assigned run =>
    .storage (.force (due_of_forced backward forced) found (forceStorage_mem_needs.2 assigned))
      ((storage_ok_iff backward).2 run)
  | .printed used found own =>
    .visit (due_of_used backward used) found (by rw [leads_printed own]; exact List.mem_singleton_self _)
  | .carried used found inlined member =>
    .visit (due_of_used backward used) found
      (by rw [leads_inlined inlined]; exact List.mem_append_left _ (List.mem_map_of_mem member))

theorem due_of_used (backward : b.Backward) {n : Nat} : Used b n → Due b (.visit (.ref n))
  | .read forced found member =>
    .force (due_of_forced backward forced) found (visit_mem_needs.2 member)
  | .inlined used found inlined member =>
    .visit (due_of_used backward used) found
      (by rw [leads_inlined inlined]; exact List.mem_append_right _ (List.mem_map_of_mem member))

end

def Task.Ruled (b : Buffer) : Task → Prop
  | .force i => ∀ n, i = .ref n → Forced b n
  | .forceStorage i => ∀ n, b.storage i = .ok (.ref n) → Forced b n
  | .visit i => ∀ n, i = .ref n → Used b n

theorem ruled_of_due (due : Due b t) : t.Ruled b := by
  induction due with
  | root found live =>
    rintro n same
    cases same
    rcases isRoot_iff.1 live with captured | anchored
    · exact .captured (Array.getElem?_eq_some_iff.1 found).1 captured
    · exact .anchored found anchored
  | storage _ found ih =>
    rintro n rfl
    exact ih n found
  | @force m a t _ found member ih =>
    have forced := ih m rfl
    cases t with
    | force i =>
      rintro n rfl
      exact .declared forced found (force_mem_needs.1 member)
    | forceStorage i =>
      intro n stored
      exact .storage forced found (forceStorage_mem_needs.1 member) (storageRun_of_storageFrom stored)
    | visit i =>
      rintro n rfl
      exact .read forced found (visit_mem_needs.1 member)
  | @visit m a t _ found member ih =>
    have used := ih m rfl
    by_cases own : Printed b m a
    · rw [leads_printed own, List.mem_singleton] at member
      subst member
      rintro n same
      cases same
      exact .printed used found own
    · rw [leads_inlined own, List.mem_append, List.mem_map, List.mem_map] at member
      rcases member with ⟨i, declared, rfl⟩ | ⟨i, read, rfl⟩
      · rintro n rfl
        exact .carried used found own declared
      · rintro n rfl
        exact .inlined used found own read

theorem Marks.mem_iff_forced {marked : IndexSet} (marks : Marks b marked) (backward : b.Backward)
    {i : Index} : i ∈ marked ↔ ∃ n, i = .ref n ∧ Forced b n := by
  constructor
  · intro member
    obtain ⟨n, rfl, _⟩ := marks.present i member
    exact ⟨n, rfl, ruled_of_due ((marks.mem_iff n).1 member) n rfl⟩
  · rintro ⟨n, rfl, forced⟩
    exact (marks.mem_iff n).2 (due_of_forced backward forced)

/-! ### What marked atoms reach -/

def Uses (b : Buffer) (m n : Nat) : Prop := ∃ a, b.atoms[m]? = some a ∧ .ref n ∈ a.operands

theorem forced_or_used_of_uses {m n : Nat} (reached : Forced b m ∨ Used b m) (uses : Uses b m n) :
    Forced b n ∨ Used b n := by
  obtain ⟨a, found, operand⟩ := uses
  have forced : Forced b m → Forced b n ∨ Used b n := by
    intro forced
    rcases Atom.mem_declares_or_reads operand with declared | read
    · exact Or.inl (.declared forced found declared)
    · exact Or.inr (.read forced found read)
  rcases reached with reached | used
  · exact forced reached
  · by_cases own : Printed b m a
    · exact forced (.printed used found own)
    · rcases Atom.mem_declares_or_reads operand with declared | read
      · exact Or.inl (.carried used found own declared)
      · exact Or.inr (.inlined used found own read)

theorem Forced.of_reaches {m n : Nat} {a : Atom} (forced : Forced b m)
    (reaches : Relation.ReflTransGen (Uses b) m n) (found : b.atoms[n]? = some a)
    (own : Printed b n a) : Forced b n := by
  have reached : Forced b n ∨ Used b n := by
    clear found own
    induction reaches with
    | refl => exact Or.inl forced
    | tail _ uses ih => exact forced_or_used_of_uses ih uses
  rcases reached with forced | used
  · exact forced
  · exact .printed used found own

/-- Marking finds exactly what the rules generate, in whatever order the roots are taken; what is
printed on its own and reached through operands from a marked atom is marked. -/
theorem mark_least {marked : IndexSet} (valid : b.validate = .ok ()) (marking : mark b = .ok marked) :
    (∀ i, i ∈ marked ↔ ∃ n, i = .ref n ∧ Forced b n) ∧
      (∀ order, (∀ p, p ∈ order ↔ p ∈ b.indexed) → ∃ r, walk b order {} = .ok r ∧ r.marked = marked) ∧
      ∀ m n a, .ref m ∈ marked → Relation.ReflTransGen (Uses b) m n → b.atoms[n]? = some a →
        Printed b n a → .ref n ∈ marked := by
  have backward := backward_of_validate valid
  have marks := marks_of_mark marking
  refine ⟨fun i => marks.mem_iff_forced backward, fun order same => ?_, ?_⟩
  · obtain ⟨r, walked⟩ := walk_of_answers marks.answers marks.decided (fun p => (same p).1) progress_fresh
    refine ⟨r, walked, Std.ExtTreeSet.ext_mem fun i => ?_⟩
    rw [(marks_of_walk same walked).mem_iff_forced backward, marks.mem_iff_forced backward]
  · intro m n a member reaches found own
    obtain ⟨_, same, forced⟩ := (marks.mem_iff_forced backward).1 member
    cases same
    exact (marks.mem_iff_forced backward).2 ⟨n, rfl, forced.of_reaches reaches found own⟩

/-- A vector that is read, and then stored to in part. -/
def reread : Buffer :=
  .ofContent [.type .vec3 .null .null, .construct (.ref 0) .null .transient,
    .qualifier (.ref 0) .parameter 0, .store (.ref 2) (.ref 1), .load (.ref 1) (-1),
    .store (.ref 4) (.ref 2), .ret (.ref 1)] [] []

/-- The vector is inlined in the first store and the storage of the second, which marks it. -/
theorem reread_least :
    reread.validate = .ok () ∧ ∃ marked, mark reread = .ok marked ∧ .ref 1 ∈ marked ∧ .ref 4 ∉ marked ∧
      Forced reread 1 ∧ ¬ Forced reread 4 ∧
      ∃ r, walk reread reread.indexed.reverse {} = .ok r ∧ r.marked = marked := by
  have valid : reread.validate = .ok () := Except.toOption_eq_some_iff.1 (by decide +kernel)
  have known : (mark reread).toOption.any (fun marked =>
      marked.contains (.ref 1) && !marked.contains (.ref 4)) = true := by decide +kernel
  simp only [Option.any_eq_true, Except.toOption_eq_some_iff, Bool.and_eq_true, Bool.not_eq_true'] at known
  obtain ⟨marked, marking, vector, read⟩ := known
  rw [Std.ExtTreeSet.contains_iff_mem] at vector
  have read : .ref 4 ∉ marked := by
    rw [← Std.ExtTreeSet.contains_iff_mem, read]
    exact Bool.false_ne_true
  obtain ⟨least, orders, _⟩ := mark_least valid marking
  obtain ⟨_, same, forced⟩ := (least _).1 vector
  cases same
  exact ⟨valid, marked, marking, vector, read, forced, fun forced => read ((least _).2 ⟨4, rfl, forced⟩),
    orders _ fun p => List.mem_reverse⟩

end Liveness

end ShaderForge
