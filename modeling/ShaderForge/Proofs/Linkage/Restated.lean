import ShaderForge.Proofs.Linkage.Scannable
import ShaderForge.Proofs.Typing.Complete

/-!
Functions that are scanned alike. A scan reads lists, literals, qualifiers and the types below them; where
another function has the same, it can be scanned too.
-/

namespace ShaderForge.Linkage

open Buffer

section

variable {b c : Buffer} {via : Index → Index} {Q : Index → Prop} {i args : Index} {code : Intrinsic}

theorem size_ok_iff {site arg : Index} {n : Nat} : Control.size b site code arg = .ok n ↔
    ∃ v, b.get? arg = some (.literal v) ∧ v.integer? = some (.ofNat n) ∧ n < 0x100000000 := by
  unfold Control.size
  constructor
  · intro h
    obtain ⟨a, found, h⟩ := Except.bind_ok h
    rw [atom_ok_iff] at found
    cases a with
    | literal v =>
      simp only [Atom.literal?, Option.bind_some] at h
      split at h
      · rename_i size
        split at h
        · rename_i small
          cases h
          exact ⟨v, found, size, small⟩
        · cases h
      · cases h
    | _ => cases h
  · rintro ⟨v, found, size, small⟩
    rw [atom_ok_iff.2 found, Except.ok_bind]
    simp only [Atom.literal?, Option.bind_some, size, if_pos small]
    rfl

theorem sizes_along {i' : Index} {items : List Index} {sizes : List Nat}
    (literals : ∀ item ∈ items, ∀ v, b.get? item = some (.literal v) → c.get? (via item) = some (.literal v))
    (h : items.mapM (Control.size b i code) = .ok sizes) : (items.map via).mapM (Control.size c i' code) = .ok sizes := by
  rw [Except.mapM_ok_iff] at h ⊢
  refine List.forall₂_map_left_iff.2 ?_
  induction h with
  | nil => exact .nil
  | cons first _ ih =>
    obtain ⟨v, found, size⟩ := size_ok_iff.1 first
    exact .cons (size_ok_iff.2 ⟨v, literals _ List.mem_cons_self v found, size⟩)
      (ih fun item member => literals item (List.mem_cons_of_mem _ member))

theorem apply_along {i' args' : Index} {control : Control} {answer : Control × List Warning}
    (lists : ∀ items, b.expandList args = .ok items → c.expandList args' = .ok (items.map via) ∧
      ∀ item ∈ items, ∀ v, b.get? item = some (.literal v) → c.get? (via item) = some (.literal v))
    (h : control.apply b i code args = .ok answer) : control.apply c i' code args' = .ok answer := by
  unfold Control.apply at h ⊢
  obtain ⟨items, listed, h⟩ := Except.bind_ok h
  obtain ⟨sizes, given, h⟩ := Except.bind_ok h
  obtain ⟨listed', literals⟩ := lists items listed
  rw [listed', Except.ok_bind, sizes_along literals given, Except.ok_bind]
  cases code with
  | layoutLocalSize =>
    match sizes with
    | [x] | [x, y] | [x, y, z] => exact h
    | [] | _ :: _ :: _ :: _ :: _ => cases h
  | layoutMeshShaderSizes =>
    match sizes with
    | [x, y] => exact h
    | [] | [_] | _ :: _ :: _ :: _ => cases h
  | _ => cases h

theorem resourceFrom_along (backward : c.Backward) {answer : Qualifier × Int}
    (qualifiers : ∀ i underlying kind number, Q i → b.get? i = some (.qualifier underlying kind number) →
      c.get? (via i) = some (.qualifier (via underlying) kind number) ∧ Q underlying)
    {fuel fuel' : Nat} (inside : Q i) (early : (via i).rank ≤ fuel') (h : resourceFrom b fuel i = .ok answer) :
    resourceFrom c fuel' (via i) = .ok answer := by
  induction fuel generalizing i fuel' with
  | zero => cases h
  | succ fuel ih =>
    unfold resourceFrom at h
    obtain ⟨a, found, h⟩ := Except.bind_ok h
    cases a with
    | qualifier underlying kind number =>
      obtain ⟨image, below⟩ := qualifiers i underlying kind number inside (atom_ok_iff.1 found)
      cases place : via i with
      | null => rw [place] at image; cases image
      | ref k =>
        rw [place] at image early
        obtain ⟨fuel', rfl⟩ : ∃ m, fuel' = m + 1 := ⟨fuel' - 1, (Nat.sub_add_cancel (Nat.le_trans (Nat.succ_pos k) early)).symm⟩
        rw [resourceFrom, atom_ok_iff.2 image, Except.ok_bind]
        simp only at h ⊢
        split at h
        · rename_i wrapping
          rw [if_pos wrapping]
          have lower : (via underlying).rank < k + 1 := backward.address_lt image (Or.inl rfl)
          exact ih below (Nat.le_of_lt_succ (Nat.lt_of_lt_of_le lower early)) h
        · rename_i plain
          rw [if_neg plain]
          exact h
    | _ => cases h

theorem resourceOf_along (backward : c.Backward) {answer : Qualifier × Int}
    (qualifiers : ∀ i underlying kind number, Q i → b.get? i = some (.qualifier underlying kind number) →
      c.get? (via i) = some (.qualifier (via underlying) kind number) ∧ Q underlying)
    (inside : Q i) (h : resourceOf b i = .ok answer) : resourceOf c (via i) = .ok answer := by
  refine resourceFrom_along backward qualifiers inside ?_ h
  unfold resourceOf resourceFrom at h
  obtain ⟨a, found, h⟩ := Except.bind_ok h
  cases a with
  | qualifier underlying kind number =>
    obtain ⟨image, _⟩ := qualifiers i underlying kind number inside (atom_ok_iff.1 found)
    cases place : via i with
    | null => exact Nat.zero_le _
    | ref k =>
      rw [place] at image
      exact Nat.succ_le_succ (Nat.le_of_lt (Array.getElem?_eq_some_iff.1 image).1)
  | _ => cases h

end

/-- What a scan asks of one function has the same answers in another, where `via` leads. -/
structure Restates (f g : Function) (via : Index → Index) (Q : Index → Prop) : Prop where
  source : ∀ (k : Nat) (a' : Atom), .ref k ∈ visibleAtoms g.buffer → g.buffer.atoms[k]? = some a' →
    ∃ (n : Nat) (a : Atom), .ref n ∈ visibleAtoms f.buffer ∧ f.buffer.atoms[n]? = some a ∧ a' = a.mapAddresses via
  used : ∀ (n : Nat) (a : Atom), .ref n ∈ visibleAtoms f.buffer → f.buffer.atoms[n]? = some a → Q a.addresses.1
  items : ∀ args items, Q args → f.buffer.expandList args = .ok items →
    g.buffer.expandList (via args) = .ok (items.map via) ∧ ∀ item ∈ items, Q item
  literals : ∀ i v, Q i → f.buffer.get? i = some (.literal v) → g.buffer.get? (via i) = some (.literal v)
  qualifiers : ∀ i underlying kind number, Q i → f.buffer.get? i = some (.qualifier underlying kind number) →
    g.buffer.get? (via i) = some (.qualifier (via underlying) kind number) ∧ Q underlying
  values : ∀ i ty d, Q i → f.buffer.table i = some ty → ty.data? = some d → d ≠ .prim .nil →
    ∃ ty' d', g.buffer.table (via i) = some ty' ∧ ty'.data? = some d' ∧ d' ≠ .prim .nil

theorem Scannable.restated {f g : Function} {via : Index → Index} {Q : Index → Prop} (scannable : Scannable f)
    (restates : Restates f g via Q) (backward : g.buffer.Backward)
    (present : ∀ i ∈ visibleAtoms g.buffer, ∃ a, g.buffer.get? i = some a) : Scannable g := by
  refine ⟨present, ?_, ?_, ?_⟩
  · intro k code args shown found layout control
    obtain ⟨n, a, shown', there, same⟩ := restates.source k _ shown found
    have inside := restates.used n a shown' there
    cases a with
    | intrinsic code' args' =>
      cases same
      obtain ⟨answer, applied⟩ := scannable.layouts n code args' shown' there layout control
      have lists : ∀ items, f.buffer.expandList args' = .ok items → g.buffer.expandList (via args') = .ok (items.map via) ∧
          ∀ item ∈ items, ∀ v, f.buffer.get? item = some (.literal v) → g.buffer.get? (via item) = some (.literal v) := by
        intro items listed
        obtain ⟨listed', each⟩ := restates.items args' items inside listed
        exact ⟨listed', fun item member v => restates.literals item v (each item member)⟩
      exact ⟨answer, apply_along lists applied⟩
    | _ => cases same
  · intro k underlying kind number shown found modifies
    obtain ⟨n, a, shown', there, same⟩ := restates.source k _ shown found
    have inside := restates.used n a shown' there
    cases a with
    | qualifier underlying' kind' number' =>
      cases same
      obtain ⟨answer, resource⟩ := scannable.resources n underlying' kind number shown' there modifies
      exact ⟨answer, resourceOf_along backward restates.qualifiers inside resource⟩
    | _ => cases same
  · intro k underlying number shown found
    obtain ⟨n, a, shown', there, same⟩ := restates.source k _ shown found
    have inside := restates.used n a shown' there
    cases a with
    | qualifier underlying' kind' number' =>
      cases same
      obtain ⟨ty, d, known, value, given⟩ := scannable.bases n underlying' number shown' there
      exact restates.values underlying' ty d inside known value given
    | _ => cases same

end ShaderForge.Linkage
