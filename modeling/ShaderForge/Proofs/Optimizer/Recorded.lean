import ShaderForge.Proofs.Liveness.Due
import ShaderForge.Proofs.Native.Passage
import ShaderForge.Proofs.Optimizer.Aliases

/-!
What the check for written storage comes to in native code. An expression that passes it draws on no
variable that a store writes, where each written variable is recorded under all its names.
-/

namespace ShaderForge.Optimizer

open Buffer Linkage Native

variable {b : Buffer} {written : IndexSet} {i : Index}

/-! ### The check -/

/-- Atoms that are not written and whose operands have been looked at, up to those still pending. -/
def Looked (b : Buffer) (written seen : IndexSet) (pending : List Index) : Prop :=
  ∀ i ∈ seen, i ∉ written ∧ (b.isSynthesized i = false →
    ∃ a, b.atom i = .ok a ∧ ∀ o ∈ followed a, o ∈ seen ∨ o ∈ pending)

theorem mem_operands_of_followed {a : Atom} {o : Index} (member : o ∈ followed a) : o ∈ a.operands := by
  unfold followed at member
  split at member
  · cases member
  · cases member
  · cases member
  · exact member

/-- What has been looked at already, or is null, need not be looked at again. -/
theorem Looked.skip {seen : IndexSet} {rest : List Index} (looked : Looked b written seen (i :: rest))
    (known : i.isNull = true ∨ i ∈ seen) : Looked b written seen rest := by
  intro j member
  refine ⟨(looked j member).1, fun loose => ?_⟩
  obtain ⟨a, found, ops⟩ := (looked j member).2 loose
  refine ⟨a, found, fun o used => (ops o used).elim Or.inl fun pending => ?_⟩
  rcases List.mem_cons.1 pending with rfl | later
  · have present := (Atom.mem_operands.1 (mem_operands_of_followed used)).1
    exact Or.inl (known.resolve_left (by simp [present]))
  · exact Or.inr later

/-- An atom joins those looked at, its operands those still pending. -/
theorem Looked.join {seen : IndexSet} {rest : List Index} (looked : Looked b written seen (i :: rest))
    (clear : i ∉ written) (more : List Index)
    (own : b.isSynthesized i = false → ∃ a, b.atom i = .ok a ∧ ∀ o ∈ followed a, o ∈ more) :
    Looked b written (seen.insert i) (more ++ rest) := by
  intro j member
  rcases Liveness.mem_insert_index.1 member with rfl | old
  · refine ⟨clear, fun loose => ?_⟩
    obtain ⟨a, found, ops⟩ := own loose
    exact ⟨a, found, fun o used => Or.inr (List.mem_append_left _ (ops o used))⟩
  · refine ⟨(looked j old).1, fun loose => ?_⟩
    obtain ⟨a, found, ops⟩ := (looked j old).2 loose
    refine ⟨a, found, fun o used => ?_⟩
    rcases ops o used with seen | pending
    · exact Or.inl (Liveness.mem_insert_index.2 (Or.inr seen))
    · rcases List.mem_cons.1 pending with rfl | later
      · exact Or.inl (Liveness.mem_insert_index.2 (Or.inl rfl))
      · exact Or.inr (List.mem_append_right _ later)

/-- An expression is only found clear when all that it comes to has been looked at. -/
theorem readsWrittenFrom_looked {seen : IndexSet} {pending : List Index} (looked : Looked b written seen pending)
    (h : readsWrittenFrom b written seen pending = .ok false) :
    ∃ seen', Looked b written seen' [] ∧ ∀ j, j.isNull = false → j ∈ seen ∨ j ∈ pending → j ∈ seen' := by
  have kept : ∀ {seen : IndexSet} {i j : Index} {rest : List Index} (more : List Index), j ∈ seen ∨ j ∈ i :: rest →
      j ∈ seen.insert i ∨ j ∈ more ++ rest := by
    rintro seen i j rest more (old | pending)
    · exact Or.inl (Liveness.mem_insert_index.2 (Or.inr old))
    · rcases List.mem_cons.1 pending with rfl | later
      · exact Or.inl (Liveness.mem_insert_index.2 (Or.inl rfl))
      · exact Or.inr (List.mem_append_right _ later)
  fun_induction readsWrittenFrom b written seen pending with
  | case1 seen => exact ⟨seen, looked, fun j _ before => before.resolve_right List.not_mem_nil⟩
  | case2 seen i rest known ih =>
    simp only [Bool.or_eq_true, Std.ExtTreeSet.contains_iff_mem] at known
    obtain ⟨seen', done, all⟩ := ih (looked.skip known) h
    refine ⟨seen', done, fun j present before => all j present (before.elim Or.inl fun pending => ?_)⟩
    rcases List.mem_cons.1 pending with rfl | later
    · exact Or.inl (known.resolve_left (by simp [present]))
    · exact Or.inr later
  | case3 => cases h
  | case4 seen i rest _ clear bound ih =>
    have clear := mt Std.ExtTreeSet.contains_iff_mem.2 clear
    obtain ⟨seen', done, all⟩ :=
      ih (looked.join clear [] fun loose => by rw [bound] at loose; cases loose) h
    exact ⟨seen', done, fun j present before => all j present (kept [] before)⟩
  | case5 seen i rest _ clear _ a found ih =>
    have clear := mt Std.ExtTreeSet.contains_iff_mem.2 clear
    obtain ⟨seen', done, all⟩ := ih (looked.join clear _ fun _ => ⟨a, found, fun o used => used⟩) h
    exact ⟨seen', done, fun j present before => all j present (kept _ before)⟩
  | case6 => cases h

theorem readsWritten_looked (h : readsWritten b written i = .ok false) :
    ∃ seen, Looked b written seen [] ∧ (i.isNull = false → i ∈ seen) := by
  obtain ⟨seen, looked, all⟩ := readsWrittenFrom_looked (fun j member => by simp at member) h
  exact ⟨seen, looked, fun present => all i present (Or.inr (List.mem_singleton_self i))⟩

/-! ### Variables -/

/-- The atom whose variable holds the place of another one, at most `depth` reads deep. -/
def ownerAt (b : Buffer) : Nat → Index → Index
  | 0, i => i
  | depth + 1, i =>
    match (b.get? i).bind (beneath? b) with
    | some o => ownerAt b depth o
    | none => i

def owner (b : Buffer) (i : Index) : Index := ownerAt b (b.size + 1) i

theorem owner_of_last (last : (b.get? i).bind (beneath? b) = none) : owner b i = i := by
  rw [owner, ownerAt, last]

theorem owner_of_beneath {n : Nat} {a : Atom} {o : Index} (found : b.atoms[n]? = some a)
    (beneath : beneath? b a = some o) (last : (b.get? o).bind (beneath? b) = none) : owner b (.ref n) = o := by
  obtain ⟨size, same⟩ : ∃ k, b.size = k + 1 := by
    have inside : n < b.size := (Array.getElem?_eq_some_iff.1 found).1
    exact ⟨b.size - 1, by omega⟩
  rw [owner, ownerAt, get?_ref, found, Option.bind_some, beneath, same]
  simp only
  rw [ownerAt, last]

theorem ownerAt_last (backward : b.Backward) {depth : Nat} (early : i.rank ≤ depth) :
    (b.get? (ownerAt b depth i)).bind (beneath? b) = none := by
  induction depth generalizing i with
  | zero =>
    cases i with
    | null => rfl
    | ref n => exact absurd early (Nat.not_succ_le_zero n)
  | succ depth ih =>
    rw [ownerAt]
    cases below : (b.get? i).bind (beneath? b) with
    | none => exact below
    | some o =>
      obtain ⟨a, found, beneath⟩ := Option.bind_eq_some_iff.1 below
      cases i with
      | null => cases found
      | ref n =>
        have : o < .ref n := backward.address_lt found (Or.inl (beneath?_address beneath))
        exact ih (Nat.lt_succ_iff.1 (Nat.lt_of_lt_of_le this early))

theorem placeAt_owner {s : Scope} {depth : Nat} {p : Scope.Place} (h : s.placeAt depth i = .ok p) :
    p.owner = ownerAt s.buffer depth i := by
  induction depth generalizing i p with
  | zero => cases h
  | succ depth ih =>
    have owned : ∀ {a : Atom}, s.ownSlot i a = .ok p → p.owner = i := by
      intro a h
      unfold Scope.ownSlot at h
      split at h
      · cases h; rfl
      · cases h
    unfold Scope.placeAt at h
    obtain ⟨a, found, h⟩ := Except.bind_ok h
    obtain ⟨n, rfl, there⟩ := atom_found found
    have present : s.buffer.get? (.ref n) = some a := there
    rw [ownerAt, present, Option.bind_some]
    cases a with
    | swizzle src code =>
      obtain ⟨base, inner, h⟩ := Except.bind_ok h
      refine Eq.trans ?_ (ih inner)
      split at h
      · cases h; rfl
      · cases h
    | load src field =>
      obtain ⟨base, inner, h⟩ := Except.bind_ok h
      refine Eq.trans ?_ (ih inner)
      split at h
      · cases h; rfl
      · obtain ⟨⟨start, stop⟩, _, h⟩ := Except.bind_ok h
        simp only at h
        split at h
        · cases h
        · cases h; rfl
    | construct ty args mode =>
      simp only at h
      split at h
      · rename_i placeholder
        rw [beneath?_construct.2 ⟨placeholder, rfl⟩]
        exact ih h
      · rename_i made
        rw [Option.eq_none_iff_forall_ne_some.2 fun o beneath => made (beneath?_construct.1 beneath).1]
        exact owned h
    | _ => exact owned h

def stored (b : Buffer) : List Index :=
  b.atoms.toList.filterMap fun
    | .store dst _ => some (owner b dst)
    | _ => none

/-- Whether an atom holds a variable of its own: a parameter, or a marked value. -/
def owns (b : Buffer) (i : Index) : Bool :=
  b.isMarked i &&
    match b.get? i with
    | some (.qualifier _ .parameter _) => true
    | some a => fills b i a
    | none => false

theorem owns_list {n : Nat} {item next : Index} (found : b.atoms[n]? = some (.list item next)) :
    owns b (.ref n) = false := by
  unfold owns
  rw [get?_ref, found]
  exact Bool.and_false _

def isRecorded (b : Buffer) (written : IndexSet) : Bool :=
  b.indexed.all fun (i, a) =>
    match a with
    | .swizzle .. | .load .. => true
    | _ => !(stored b).contains (owner b i) || written.contains i

/-- Whether the check for written storage stops only where a value is kept, at declarations, and at what
stands for a parameter. -/
def isSealed (b : Buffer) : Bool :=
  b.indexed.all fun (i, a) =>
    !b.isSynthesized i || owns b i ||
      match a with
      | .qualifier .. | .type .. => true
      | .construct _ .null .transient => (beneath? b a).isSome
      | _ => false

theorem mem_written_of_name (recorded : isRecorded b written = true) {a : Atom} (found : b.get? i = some a)
    (name : ∀ src code, a ≠ .swizzle src code) (name' : ∀ src field, a ≠ .load src field)
    (writes : owner b i ∈ stored b) : i ∈ written := by
  obtain ⟨n, rfl⟩ : ∃ n, i = .ref n := by
    cases i with
    | null => cases found
    | ref n => exact ⟨n, rfl⟩
  have here := List.all_eq_true.1 recorded (.ref n, a) (mem_indexed.2 ⟨n, rfl, found⟩)
  cases a with
  | swizzle src code => exact (name src code rfl).elim
  | load src field => exact (name' src field rfl).elim
  | _ => simpa [writes] using here

theorem beneath?_of_stored (backward : b.Backward) (writes : i ∈ stored b) : (b.get? i).bind (beneath? b) = none := by
  obtain ⟨a, member, here⟩ := List.mem_filterMap.1 writes
  split at here
  · cases here
    obtain ⟨n, found⟩ := Array.mem_iff_getElem?.1 (Array.mem_toList_iff.1 member)
    have early := backward.address_lt found (Or.inl rfl)
    have inside := (Array.getElem?_eq_some_iff.1 found).1
    exact ownerAt_last backward (Nat.le_trans (Nat.le_of_lt early) (Nat.succ_le_succ (Nat.le_of_lt inside)))
  · cases here

theorem mem_written_of_stored (backward : b.Backward) (recorded : isRecorded b written = true) {a : Atom}
    (found : b.get? i = some a) (writes : i ∈ stored b) : i ∈ written := by
  have last := beneath?_of_stored backward writes
  refine mem_written_of_name recorded found ?_ ?_ (by rwa [owner_of_last last])
  · rintro src code rfl
    rw [found] at last
    cases last
  · rintro src field rfl
    rw [found] at last
    cases last

/-! ### What is drawn on -/

/-- The atoms looked at, and the parameters for which some of them stand. -/
def Clear (b : Buffer) (seen : IndexSet) (j : Index) : Prop :=
  j = .null ∨ j ∈ seen ∨
    (∃ underlying kind number, b.get? j = some (.qualifier underlying kind number)) ∧ j ∉ stored b

theorem isolated_cases {s : Scope} (isolated : isSealed s.buffer = true) {n : Nat} {a : Atom}
    (bound : s.buffer.isSynthesized (.ref n) = true) (unowned : owns s.buffer (.ref n) = false)
    (found : s.buffer.atoms[n]? = some a) :
    (∃ underlying kind number, a = .qualifier underlying kind number) ∨
      (∃ item down next, a = .type item down next) ∨
      ∃ ty, a = .construct ty .null .transient ∧ s.isPlaceholder ty .transient = true := by
  have here := List.all_eq_true.1 isolated (.ref n, a) (mem_indexed.2 ⟨n, rfl, found⟩)
  simp only [bound, unowned, Bool.not_true, Bool.false_or] at here
  split at here
  · exact Or.inl ⟨_, _, _, rfl⟩
  · exact Or.inr (Or.inl ⟨_, _, _, rfl⟩)
  · rename_i ty
    obtain ⟨o, beneath⟩ := Option.isSome_iff_exists.1 here
    exact Or.inr (Or.inr ⟨ty, rfl, (beneath?_construct.1 beneath).1⟩)
  · cases here

theorem exists_qualifier_of_placeholder {m : Member} {ty : Index} {mode : Mode} (stands : m.isPlaceholder ty mode = true) :
    ∃ underlying kind number, m.buffer.get? ty = some (.qualifier underlying kind number) := by
  unfold Member.isPlaceholder at stands
  rw [Bool.and_eq_true] at stands
  split at stands
  · exact ⟨_, _, _, ‹_›⟩
  · cases stands.2

section

variable {s : Scope} (recorded : isRecorded s.buffer written = true) (isolated : isSealed s.buffer = true)
  (owned : ∀ j, owns s.buffer j = true → (s.slots[j]?).isSome) {seen : IndexSet}
  (looked : Looked s.buffer written seen [])

include recorded isolated owned looked

/-- What native code computes again for atoms that have been looked at has been looked at too. -/
theorem Looked.closed : s.Closed (Clear s.buffer seen) := by
  have operand : ∀ {n : Nat} {a : Atom}, Index.ref n ∈ seen → s.buffer.isSynthesized (.ref n) = false →
      s.buffer.atoms[n]? = some a → ∀ o ∈ followed a, Clear s.buffer seen o := by
    intro n a member loose found o used
    obtain ⟨a', found', ops⟩ := (looked _ member).2 loose
    obtain rfl := Option.some.inj (found.symm.trans (atom_ok_iff.1 found'))
    exact Or.inr (Or.inl ((ops o used).resolve_right List.not_mem_nil))
  refine ⟨Or.inl rfl, ?_, ?_⟩
  · rintro n a own free found ⟨value, e, computed⟩ o used
    have answer : s.atom (.ref n) = .ok a := by
      unfold Member.atom
      rw [TargetFault.ofFault_ok_iff, atom_ok_iff]
      exact found
    unfold Scope.expression at computed
    rw [answer, Except.ok_bind] at computed
    rcases own with absent | member | ⟨⟨_, _, _, found'⟩, _⟩
    · cases absent
    · by_cases bound : s.buffer.isSynthesized (.ref n) = true
      · have unowned : owns s.buffer (.ref n) = false := by
          refine Bool.eq_false_iff.2 fun holds => ?_
          have := owned _ holds
          rw [free] at this
          cases this
        rcases isolated_cases isolated bound unowned found with ⟨_, _, _, rfl⟩ | ⟨_, _, _, rfl⟩ | ⟨ty, rfl, stands⟩
        · cases computed
        · cases computed
        · -- the placeholder is a name of its parameter, so the parameter is not written either
          obtain rfl : o = ty := by
            rcases (Atom.mem_operands.1 used).2 with same | ⟨rfl, _⟩
            · exact same
            · cases (Atom.mem_operands.1 used).1
          obtain ⟨underlying, kind, number, qualifier⟩ := exists_qualifier_of_placeholder stands
          refine Or.inr (Or.inr ⟨⟨underlying, kind, number, qualifier⟩, fun writes => ?_⟩)
          have names : owner s.buffer (.ref n) = o :=
            owner_of_beneath found (beneath?_construct.2 ⟨stands, rfl⟩) (by rw [qualifier]; rfl)
          exact (looked _ member).1 (mem_written_of_name recorded found (by rintro _ _ ⟨⟩) (by rintro _ _ ⟨⟩)
            (names ▸ writes))
      · refine operand member (by simpa using bound) found o ?_
        cases a with
        | qualifier | type => cases computed
        | literal v => cases used
        | _ => exact used
    · obtain rfl := Option.some.inj (found.symm.trans found')
      cases computed
  · intro n item next own found
    rcases own with absent | member | ⟨⟨_, _, _, found'⟩, _⟩
    · cases absent
    · have loose : s.buffer.isSynthesized (.ref n) = false := by
        refine Bool.eq_false_iff.2 fun bound => ?_
        rcases isolated_cases isolated bound (owns_list found) found with ⟨_, _, _, same⟩ | ⟨_, _, _, same⟩ | ⟨_, same, _⟩ <;>
          cases same
      have ops := operand member loose found
      exact ⟨Scope.address_of_operands (Or.inl rfl) ops (Or.inl rfl),
        Scope.address_of_operands (Or.inl rfl) ops (Or.inr ⟨rfl, rfl⟩)⟩
    · cases found.symm.trans found'

end

theorem draws_of_clear {s : Scope} {e : Expr} (orderly : s.Orderly) (recorded : isRecorded s.buffer written = true)
    (isolated : isSealed s.buffer = true) (owned : ∀ j, owns s.buffer j = true → (s.slots[j]?).isSome)
    (present : ∀ j ts, s.slots[j]? = some ts → ∃ a, s.buffer.get? j = some a) (early : i.rank ≤ s.buffer.size + 1)
    (clear : readsWritten s.buffer written i = .ok false) (h : s.value i = .ok e) :
    e.Draws s.unit s.slots (· ∉ stored s.buffer) := by
  obtain ⟨seen, looked, start⟩ := readsWritten_looked clear
  have own : Clear s.buffer seen i := by
    cases i with
    | null => exact Or.inl rfl
    | ref n => exact Or.inr (Or.inl (start rfl))
  refine (orderly.value (looked.closed recorded isolated owned) (fun _ _ => rfl) own early h).2.imp ?_
  rintro j ts held (rfl | member | ⟨_, unwritten⟩) writes
  · rw [orderly.named] at held
    cases held
  · obtain ⟨a, found⟩ := present j ts held
    exact (looked j member).1 (mem_written_of_stored orderly.backward recorded found writes)
  · exact unwritten writes

end ShaderForge.Optimizer
