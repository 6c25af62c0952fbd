import Mathlib.Logic.Relation
import Mathlib.Order.Bounds.Defs
import ShaderForge.Proofs.Linkage.Visible
import ShaderForge.Proofs.Typing.Table

/-!
The sweep for visible atoms as a closure. It goes over the atoms once, last to first, and asks the very
set that it extends; in a prepared function that is enough to find all that marked atoms depend on.
-/

namespace ShaderForge.Linkage

open Buffer

def DependsOn (b : Buffer) (i o : Index) : Prop := ∃ a, b.get? i = some a ∧ o ∈ a.operands

variable {b : Buffer}

theorem useClosed_iff {P : Index → Prop} : b.UseClosed P ↔ ∀ i o, P i → DependsOn b i o → P o := by
  constructor
  · rintro closed (_ | n) o known ⟨a, found, used⟩
    · cases found
    · exact closed n a known found o used
  · intro closed n a known found o used
    exact closed (.ref n) o known ⟨a, found, used⟩

theorem useClosed_reached (start : IndexSet) :
    b.UseClosed fun i => ∃ m ∈ start, Relation.ReflTransGen (DependsOn b) m i := by
  rw [useClosed_iff]
  rintro i o ⟨m, member, path⟩ depends
  exact ⟨m, member, path.tail depends⟩

theorem mem_of_reached {P : Index → Prop} (closed : b.UseClosed P) {m i : Index} (known : P m)
    (path : Relation.ReflTransGen (DependsOn b) m i) : P i := by
  rw [useClosed_iff] at closed
  induction path with
  | refl => exact known
  | tail _ depends ih => exact closed _ _ ih depends

theorem foldr_reveal_eq {start : IndexSet} (closed : b.UseClosed (· ∈ start)) {items : List (Index × Atom)}
    (inside : ∀ p ∈ items, p ∈ b.indexed) : items.foldr reveal start = start := by
  induction items with
  | nil => rfl
  | cons first rest ih =>
    rw [List.foldr_cons, ih fun p member => inside p (List.mem_cons_of_mem _ member)]
    apply Std.ExtTreeSet.ext_mem
    intro o
    rw [mem_reveal]
    constructor
    · rintro (known | ⟨shown, used⟩)
      · exact known
      · obtain ⟨n, same, found⟩ := mem_indexed.1 (inside first List.mem_cons_self)
        rw [same] at shown
        exact closed n _ shown found o used
    · exact Or.inl

/-- The visible atoms of a prepared function are the least set that holds the marked ones and with an atom
its operands: all that marked atoms depend on, directly or not. A second sweep would find nothing more. -/
theorem visibleAtoms_isLeast {raw f : Function} (prepared : Succeeds Function.prepare raw () f) :
    IsLeast {visible : Set Index | (∀ i ∈ f.buffer.marked, i ∈ visible) ∧ f.buffer.UseClosed (· ∈ visible)}
      {i | i ∈ visibleAtoms f.buffer} ∧
    (∀ i, i ∈ visibleAtoms f.buffer ↔ ∃ m ∈ f.buffer.marked, Relation.ReflTransGen (DependsOn f.buffer) m i) ∧
    f.buffer.indexed.foldr reveal (visibleAtoms f.buffer) = visibleAtoms f.buffer := by
  have backward := (Function.prepared_of_prepare prepared).1.backward
  have closed := visibleAtoms_useClosed backward
  refine ⟨⟨⟨fun i => mem_visibleAtoms_of_marked, closed⟩, ?_⟩, ?_, ?_⟩
  · rintro visible ⟨marked, under⟩ i shown
    exact visibleAtoms_least marked under i shown
  · intro i
    constructor
    · exact visibleAtoms_least (fun m member => ⟨m, member, .refl⟩) (useClosed_reached _) i
    · rintro ⟨m, member, path⟩
      exact mem_of_reached closed (mem_visibleAtoms_of_marked member) path
  · exact foldr_reveal_eq closed fun _ member => member

/-- A conditional return, and two numbers of which only the first is returned. -/
def earlyReturn : Buffer :=
  .ofContent [.literal (.bool true), .literal (.i32 1), .operation .negation (.ref 1) .null,
    .operation .negation (.ref 2) .null, .branch .ifThen (.ref 0) (.ref 6), .ret (.ref 2),
    .branch .close .null .null, .ret (.ref 2)] [] []

theorem earlyReturn_isLeast :
    ∃ f, Succeeds Function.prepare { name := "f", id := 0, buffer := earlyReturn } () f ∧
      f.buffer.marked.toList = [.ref 4, .ref 5, .ref 6, .ref 7] ∧
      (visibleAtoms f.buffer).toList = [.ref 0, .ref 1, .ref 2, .ref 4, .ref 5, .ref 6, .ref 7] ∧
      (∃ m ∈ f.buffer.marked, Relation.ReflTransGen (DependsOn f.buffer) m (.ref 1)) ∧
      ∀ m ∈ f.buffer.marked, ¬ Relation.ReflTransGen (DependsOn f.buffer) m (.ref 3) := by
  have passes : ((Function.build "f" 0 earlyReturn).toOption.any fun f =>
      decide (f.buffer.marked.toList = [.ref 4, .ref 5, .ref 6, .ref 7] ∧
        (visibleAtoms f.buffer).toList = [.ref 0, .ref 1, .ref 2, .ref 4, .ref 5, .ref 6, .ref 7])) = true := by
    decide +kernel
  obtain ⟨f, built, passes⟩ := (Option.any_eq_true _ _).1 passes
  obtain ⟨marked, visible⟩ := of_decide_eq_true passes
  have prepared := Function.build_ok_iff.1 (Except.toOption_eq_some_iff.1 built)
  obtain ⟨_, reached, _⟩ := visibleAtoms_isLeast prepared
  have shown : Index.ref 1 ∈ visibleAtoms f.buffer := by
    rw [← Std.ExtTreeSet.mem_toList, visible]
    decide
  have hidden : Index.ref 3 ∉ visibleAtoms f.buffer := by
    rw [← Std.ExtTreeSet.mem_toList, visible]
    decide
  exact ⟨f, prepared, marked, visible, (reached _).1 shown,
    fun m member path => hidden ((reached _).2 ⟨m, member, path⟩)⟩

end ShaderForge.Linkage
