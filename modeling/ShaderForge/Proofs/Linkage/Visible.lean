import ShaderForge.Member
import ShaderForge.Proofs.Typing.Structs

/-!
Visible atoms. One sweep from the end of a buffer closes the marked atoms under use, since
operands stand before the atoms that use them.
-/

namespace ShaderForge.Linkage

open Buffer

def reveal (item : Index × Atom) (visible : IndexSet) : IndexSet :=
  if visible.contains item.1 then visible.insertMany item.2.operands else visible

theorem mem_reveal {item : Index × Atom} {visible : IndexSet} {i : Index} :
    i ∈ reveal item visible ↔ i ∈ visible ∨ (item.1 ∈ visible ∧ i ∈ item.2.operands) := by
  unfold reveal
  split
  · rename_i shown
    rw [Std.ExtTreeSet.contains_iff_mem] at shown
    simp [Std.ExtTreeSet.mem_insertMany_list, shown]
  · rename_i hidden
    rw [Std.ExtTreeSet.contains_iff_mem] at hidden
    simp [hidden]

/-- Atoms in order, each using smaller addresses only. -/
def Descending (items : List (Index × Atom)) : Prop :=
  items.Pairwise (fun p q => p.1 < q.1) ∧ ∀ p ∈ items, ∀ o ∈ p.2.operands, o < p.1

theorem foldr_reveal_closed {items : List (Index × Atom)} (ordered : Descending items)
    (start : IndexSet) :
    ∀ p ∈ items, p.1 ∈ items.foldr reveal start → ∀ o ∈ p.2.operands, o ∈ items.foldr reveal start := by
  induction items with
  | nil => intro p member; cases member
  | cons first rest ih =>
    obtain ⟨increasing, backward⟩ := ordered
    rw [List.pairwise_cons] at increasing
    have closed := ih ⟨increasing.2, fun p member => backward p (List.mem_cons_of_mem _ member)⟩
    intro p member shown o used
    rw [List.foldr_cons, mem_reveal] at shown ⊢
    rcases List.mem_cons.1 member with rfl | later
    · rcases shown with shown | ⟨_, self⟩
      · exact Or.inr ⟨shown, used⟩
      · exact (Nat.lt_irrefl _ (backward p List.mem_cons_self _ self)).elim
    · rcases shown with shown | ⟨_, early⟩
      · exact Or.inl (closed p later shown o used)
      · have below := backward first List.mem_cons_self _ early
        exact (Nat.lt_asymm below (increasing.1 p later)).elim

theorem indexed_descending {b : Buffer} (backward : b.Backward) : Descending b.indexed := by
  constructor
  · rw [List.pairwise_iff_getElem]
    intro i j _ _ below
    have first := b.indexed_getElem? i
    have second := b.indexed_getElem? j
    rw [List.getElem?_eq_getElem ‹_›] at first second
    obtain ⟨a, _, same⟩ := Option.map_eq_some_iff.1 first.symm
    obtain ⟨c, _, same'⟩ := Option.map_eq_some_iff.1 second.symm
    rw [← same, ← same']
    exact Index.ref_lt_ref.2 below
  · rintro ⟨i, a⟩ member o used
    obtain ⟨n, rfl, found⟩ := mem_indexed.1 member
    obtain ⟨k, rfl, below⟩ := backward n a found o used
    exact Index.ref_lt_ref.2 below

theorem visibleAtoms_useClosed {b : Buffer} (backward : b.Backward) :
    b.UseClosed (· ∈ visibleAtoms b) := by
  intro n a shown found o used
  exact foldr_reveal_closed (indexed_descending backward) b.marked (.ref n, a)
    (mem_indexed.2 ⟨n, rfl, found⟩) shown o used

theorem foldr_reveal_mem {items : List (Index × Atom)} {start : IndexSet} {i : Index}
    (member : i ∈ start) : i ∈ items.foldr reveal start := by
  induction items with
  | nil => exact member
  | cons first rest ih => exact mem_reveal.2 (Or.inl ih)

theorem mem_visibleAtoms_of_marked {b : Buffer} {i : Index} (member : i ∈ b.marked) :
    i ∈ visibleAtoms b :=
  foldr_reveal_mem member

/-- The visible atoms are the least set that holds the marked ones and is closed under use. -/
theorem visibleAtoms_least {b : Buffer} {P : Index → Prop} (marked : ∀ i ∈ b.marked, P i)
    (closed : b.UseClosed P) : ∀ i ∈ visibleAtoms b, P i := by
  have sweep : ∀ items : List (Index × Atom), (∀ p ∈ items, p ∈ b.indexed) →
      ∀ i ∈ items.foldr reveal b.marked, P i := by
    intro items
    induction items with
    | nil => exact fun _ => marked
    | cons first rest ih =>
      intro inside i shown
      have later := ih fun p member => inside p (List.mem_cons_of_mem _ member)
      rcases mem_reveal.1 shown with old | ⟨user, used⟩
      · exact later i old
      · obtain ⟨n, same, found⟩ := mem_indexed.1 (inside first List.mem_cons_self)
        have reached := later _ user
        rw [same] at reached
        exact closed n _ reached found i used
  exact sweep b.indexed fun _ member => member

def Shown (f : Function) (i : Index) : Prop := i = .null ∨ i ∈ visibleAtoms f.buffer

theorem atom_found {m : Member} {i : Index} {a : Atom} (h : m.atom i = .ok a) :
    ∃ n, i = .ref n ∧ m.function.buffer.atoms[n]? = some a := by
  unfold Member.atom at h
  rw [TargetFault.ofFault_ok_iff, atom_ok_iff] at h
  cases i with
  | null => cases h
  | ref n => exact ⟨n, rfl, h⟩

theorem Shown.visible {f : Function} {n : Nat} (shown : Shown f (.ref n)) :
    Index.ref n ∈ visibleAtoms f.buffer :=
  shown.resolve_left (by simp)

theorem Shown.operand {f : Function} (closed : f.buffer.UseClosed (· ∈ visibleAtoms f.buffer)) {a : Atom}
    {n : Nat} {o : Index} (shown : Shown f (.ref n)) (found : f.buffer.atoms[n]? = some a)
    (address : o = a.addresses.1 ∨ o = a.addresses.2 ∧ a.isBranch = false) : Shown f o := by
  cases o with
  | null => exact Or.inl rfl
  | ref k =>
    exact Or.inr (closed n a shown.visible found _ (Atom.mem_operands.2 ⟨rfl, address⟩))

theorem Shown.items {m : Member} {args : Index} {items : List Index} (shown : Shown m.function args)
    (listed : m.items args = .ok items) (closed : m.buffer.UseClosed (· ∈ visibleAtoms m.buffer)) :
    ∀ item ∈ items, Shown m.function item := by
  unfold Member.items at listed
  rw [TargetFault.ofFault_ok_iff] at listed
  exact closed.items listed shown

end ShaderForge.Linkage
