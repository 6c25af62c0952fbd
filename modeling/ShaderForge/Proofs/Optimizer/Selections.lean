import ShaderForge.Proofs.Native.Construction
import ShaderForge.Proofs.Optimizer.ElisionTypes

/-!
What forwarded reads select. A read of a construction with an argument for each part selects the part of
one argument.
-/

namespace ShaderForge.Optimizer

open Buffer Linkage Native

variable {b : Buffer} {written : IndexSet} {i src item : Index}

/-- The construction that a forwarded read reads, and the argument that takes its place. -/
def selection? (b : Buffer) (written : IndexSet) (i : Index) : Option (Index × Index) := do
  let a ← b.get? i
  let (src, _) ← slot? a
  let item ← (← (forwarded? b written i a).toOption)
  return (src, item)

/-- A read of one part of a construction from arguments, none of which is written. -/
structure Selection (b : Buffer) (written : IndexSet) (i src item : Index) (a : Atom) (slot : Nat) (ty args : Index)
    (mode : Mode) (items : List Index) : Prop where
  found : b.get? i = some a
  reads : slot? a = some (src, slot)
  built : b.get? src = some (.construct ty args mode)
  given : args.isNull = false
  unwritten : src ∉ written
  listed : b.expandList args = .ok items
  selected : items[slot]? = some item
  whole : ∀ code, a = .swizzle src code → isScalarSplit b src items = .ok true
  clear : readsWritten b written item = .ok false

theorem selection?_eq_some (h : selection? b written i = some (src, item)) :
    ∃ a slot ty args mode items, Selection b written i src item a slot ty args mode items := by
  unfold selection? at h
  simp only [Option.bind_eq_bind, Option.bind_eq_some_iff, Except.toOption_eq_some_iff, Option.pure_def,
    Option.some.injEq, Prod.mk.injEq] at h
  obtain ⟨a, found, ⟨src', slot⟩, reads, item?, decided, item', rfl, rfl, rfl⟩ := h
  have forwarded := forwarded?_eq_some decided
  obtain ⟨src, slot', ty, args, mode, items, reads', built, given, unwritten, listed, selected, whole⟩ := forwarded.read
  obtain ⟨rfl, rfl⟩ := Prod.mk.inj (Option.some.inj (reads.symm.trans reads'))
  exact ⟨a, slot, ty, args, mode, items, found, reads, built, given, unwritten, listed, selected, whole,
    forwarded.settled⟩

theorem Selection.address {a : Atom} {slot : Nat} {ty args : Index} {mode : Mode} {items : List Index}
    (selection : Selection b written i src item a slot ty args mode items) : src = a.addresses.1 := by
  rcases slot?_eq_some selection.reads with ⟨field, rfl, _⟩ | ⟨code, rfl, _⟩ <;> rfl

/-- The argument stands before the construction, and that before the read. -/
theorem Selection.lt {a : Atom} {slot : Nat} {ty args : Index} {mode : Mode} {items : List Index}
    (selection : Selection b written i src item a slot ty args mode items) (backward : b.Backward) :
    src < i ∧ item < src := by
  constructor
  · cases i with
    | null => cases selection.found
    | ref n => exact backward.address_lt selection.found (Or.inl selection.address)
  · cases src with
    | null => cases selection.built
    | ref k =>
      have inside : args < .ref k := backward.address_lt selection.built (Or.inr ⟨rfl, rfl⟩)
      exact Buffer.expandList_lt backward inside selection.listed item (List.mem_of_getElem? selection.selected)

theorem selection?_lt (backward : b.Backward) (h : selection? b written i = some (src, item)) : src < i ∧ item < src := by
  obtain ⟨_, _, _, _, _, _, selection⟩ := selection?_eq_some h
  exact selection.lt backward

theorem UseClosed.selected {P : Index → Prop} (closed : b.UseClosed P) (h : selection? b written i = some (src, item))
    (inside : i = .null ∨ P i) : (src = .null ∨ P src) ∧ (item = .null ∨ P item) := by
  obtain ⟨a, slot, ty, args, mode, items, selection⟩ := selection?_eq_some h
  have operand : ∀ {j o : Index} {a : Atom}, b.get? j = some a → (j = .null ∨ P j) →
      (o = a.addresses.1 ∨ o = a.addresses.2 ∧ a.isBranch = false) → o = .null ∨ P o := by
    intro j o a found inside position
    cases j with
    | null => cases found
    | ref n =>
      cases o with
      | null => exact Or.inl rfl
      | ref k => exact Or.inr (closed n a (inside.resolve_left nofun) found _ (Atom.mem_operands.2 ⟨rfl, position⟩))
  have source := operand selection.found inside (Or.inl selection.address)
  exact ⟨source, closed.items selection.listed (operand selection.built source (Or.inr ⟨rfl, rfl⟩)) item
    (List.mem_of_getElem? selection.selected)⟩

/-- A read that selects an argument leads to where the argument leads; nothing else leads anywhere. -/
theorem replacement_eq {forward : IndexMap Index} (backward : b.Backward) (stored : writtenStorage b = .ok written)
    (known : forwards b = .ok forward) (i : Index) :
    replacement b i = match selection? b written i with
      | some (_, item) => replacement b item
      | none => i := by
  obtain ⟨written', stored', table⟩ := forwards_table backward known
  obtain rfl := Except.ok.inj (stored.symm.trans stored')
  have leads : ∀ j, replacement b j = forward.getD j j := by
    intro j
    rw [replacement, known]
  have fixed : ∀ {j : Index}, forward[j]? = none → forward.getD j j = j := by
    intro j absent
    rw [Std.ExtTreeMap.getD_eq_getD_getElem?, absent]
    rfl
  rw [leads]
  cases i with
  | null =>
    refine fixed (Option.eq_none_iff_forall_ne_some.2 fun v entry => ?_)
    obtain ⟨n, same, _⟩ := table.keys _ v entry
    cases same
  | ref n =>
    cases found : b.atoms[n]? with
    | none =>
      have absent : selection? b written (.ref n) = none := by
        unfold selection?
        rw [get?_ref, found]
        rfl
      rw [absent]
      refine fixed (Option.eq_none_iff_forall_ne_some.2 fun v entry => ?_)
      obtain ⟨k, same, inside⟩ := table.keys _ v entry
      cases same
      rw [Array.getElem?_eq_none_iff] at found
      exact Nat.not_lt.2 found inside
    | some a =>
      obtain ⟨item?, decided, entry⟩ := table.decided n a (Array.getElem?_eq_some_iff.1 found).1 found
      cases item? with
      | none =>
        have absent : selection? b written (.ref n) = none := by
          unfold selection?
          simp only [get?_ref, found, Option.bind_eq_bind, Option.bind_some, decided]
          cases slot? a <;> rfl
        rw [absent]
        exact fixed entry
      | some item =>
        obtain ⟨src, slot, _, _, _, _, reads, _⟩ := (forwarded?_eq_some decided).read
        have selects : selection? b written (.ref n) = some (src, item) := by
          unfold selection?
          simp only [get?_ref, found, Option.bind_eq_bind, Option.bind_some, reads, decided, Except.toOption,
            Option.pure_def]
        rw [selects, Std.ExtTreeMap.getD_eq_getD_getElem?, entry]
        exact (leads item).symm

/-! ### What native code computes -/

/-- Whether every struct that is built from arguments has one for each field, of its type. -/
def fieldwise (b : Buffer) : Bool :=
  b.indexed.all fun (i, a) =>
    match a, b.typeOf i with
    | .construct _ (.ref args) _, .ok (.data (.struct head)) =>
      match b.expandList (.ref args), b.fieldChain head with
      | .ok items, .ok fields =>
        items.map (fun item => (b.typeOf item).toOption) ==
          fields.map fun field => (b.typeOf field).toOption.map Ty.bare
      | _, _ => false
    | _, _ => true

/-- Whether an atom constructs a value of a type that is given by a type atom. -/
def isProper (b : Buffer) (i : Index) : Bool :=
  match b.get? i with
  | some (.construct ty _ _) =>
    match b.get? ty with
    | some (.type ..) => true
    | _ => false
  | _ => false

theorem allOf_ok {p : Prim} {items : List Index} (h : allOf b p items = .ok true) :
    ∀ item ∈ items, ∃ ty, b.typeOf item = .ok ty ∧ ty.bare = .prim p := by
  induction items with
  | nil => exact fun item member => absurd member List.not_mem_nil
  | cons first rest ih =>
    obtain ⟨ty, known, h⟩ := Except.bind_ok h
    split at h
    · rename_i shape
      intro item member
      rcases List.mem_cons.1 member with rfl | later
      · exact ⟨ty, known, Ty.prim?_eq_some_iff.1 shape⟩
      · exact ih h item later
    · cases h

theorem isScalarSplit_ok {items : List Index} (h : isScalarSplit b src items = .ok true) :
    ∃ ty vector, b.typeOf src = .ok ty ∧ ty.bare = .prim vector ∧ vector.isVector = true ∧
      items.length = vector.components ∧ allOf b vector.scalar items = .ok true := by
  unfold isScalarSplit at h
  obtain ⟨ty, known, h⟩ := Except.bind_ok h
  split at h
  · cases h
  · rename_i vector shape
    split at h
    · cases h
    · rename_i fits
      simp only [Bool.or_eq_true, Bool.not_eq_true', bne_iff_ne, ne_eq, not_or, Bool.not_eq_false, not_not] at fits
      exact ⟨ty, vector, known, Ty.prim?_eq_some_iff.1 shape, fits.1, fits.2, h⟩

theorem mapM_scalars {s : Scope} {items nodes : List Index} {parts : List (List Prim)}
    (types : items.map (fun item => (s.buffer.typeOf item).toOption) =
      nodes.map fun node => (s.buffer.typeOf node).toOption.map Ty.bare)
    (each : nodes.mapM s.scalars = .ok parts) : items.mapM s.scalars = .ok parts := by
  have typeOf : ∀ {j : Index} {ty : Ty}, (s.buffer.typeOf j).toOption = some ty ↔ s.typeOf j = .ok ty := by
    intro j ty
    rw [Except.toOption_eq_some_iff]
    unfold Member.typeOf
    rw [TargetFault.ofFault_ok_iff]
  rw [Except.mapM_ok_iff] at each ⊢
  induction each generalizing items with
  | nil =>
    rw [List.map_nil, List.map_eq_nil_iff] at types
    subst types
    exact .nil
  | @cons node part nodes parts first _ ih =>
    cases items with
    | nil => cases types
    | cons item items =>
      rw [List.map_cons, List.map_cons, List.cons.injEq] at types
      refine .cons ?_ (ih types.2)
      obtain ⟨linked, resolved, _⟩ := Except.bind_ok first
      obtain ⟨ty, known, _⟩ := Except.bind_ok resolved
      have known' := types.1
      rw [typeOf.2 known] at known'
      rw [Scope.scalars_eq (typeOf.1 known'), Scope.typeScalars_bare, ← Scope.scalars_eq known]
      exact first

section

variable {s : Scope} {a : Atom} {slot : Nat} {ty args : Index} {mode : Mode} {items : List Index}
  (g : s.Grounded) (selection : Selection s.buffer written i src item a slot ty args mode items)

include selection

theorem Selection.atom : s.atom src = .ok (.construct ty args mode) := by
  unfold Member.atom
  rw [TargetFault.ofFault_ok_iff, atom_ok_iff]
  exact selection.built

theorem Selection.expanded : s.items args = .ok items := by
  unfold Member.items
  rw [TargetFault.ofFault_ok_iff]
  exact selection.listed

variable (proper : isProper s.buffer src = true)

include proper

theorem Selection.constructs : s.isPlaceholder ty mode = false ∧ ∃ item down next, s.buffer.get? ty = some (.type item down next) := by
  have node := proper
  unfold isProper at node
  simp only [selection.built] at node
  split at node
  · rename_i item down next there
    refine ⟨?_, item, down, next, there⟩
    unfold Member.isPlaceholder
    rw [there, Bool.and_false]
  · cases node

/-- A component of a vector that is built from scalars selects the component's argument. -/
theorem Selection.component {code : Swizzle} (swizzle : a = .swizzle src code) : s.Selects i src item := by
  subst swizzle
  have single : code.components = [slot] := by
    rcases slot?_eq_some selection.reads with ⟨field, same, _⟩ | ⟨code', same, single⟩
    · cases same
    · cases same
      exact single
  obtain ⟨source, vector, known, bare, isVector, length, all⟩ := isScalarSplit_ok (selection.whole code rfl)
  have asked : ∀ {j : Index} {ty : Ty}, s.buffer.typeOf j = .ok ty → s.typeOf j = .ok ty := by
    intro j ty known
    unfold Member.typeOf
    rwa [TargetFault.ofFault_ok_iff]
  have inside : slot < vector.components := length ▸ (List.getElem?_eq_some_iff.1 selection.selected).1
  have wide : vector ≠ .accelerationStructure ∧ vector.isMatrix = false := by
    revert isVector
    cases vector <;> decide
  obtain ⟨plain, one⟩ := Prim.parts_scalar isVector
  rw [wide.2, if_neg Bool.false_ne_true, List.replicate_one] at one
  have each : items.mapM s.scalars = .ok (List.replicate vector.components [vector.scalar]) := by
    rw [Except.mapM_ok_iff, ← length, ← List.map_const', List.forall₂_map_right_iff, List.forall₂_same]
    intro item member
    obtain ⟨ty, known, bare⟩ := allOf_ok all item member
    rw [Scope.scalars_eq (asked known), Scope.typeScalars_prim bare, scalarsOfData_prim plain, one]
  refine ⟨items, _, slot, [vector.scalar],
    ⟨⟨ty, args, mode, selection.atom, (selection.constructs proper).1, selection.expanded⟩, each, ?_⟩,
    selection.selected, List.getElem?_replicate_of_lt inside, fun value e h => ?_⟩
  · rw [Scope.scalars_eq (asked known), Scope.typeScalars_prim bare, scalarsOfData_prim wide.1, List.flatten_replicate_singleton]
    rfl
  · have answer : s.atom i = .ok (.swizzle src code) := by
      unfold Member.atom
      rw [TargetFault.ofFault_ok_iff, atom_ok_iff]
      exact selection.found
    unfold Scope.expression at h
    rw [answer, Except.ok_bind] at h
    obtain ⟨base, first, h⟩ := Except.bind_ok h
    split at h
    · cases h
      refine ⟨base, first, ?_⟩
      rw [single, List.take_replicate, List.flatten_replicate_singleton, List.length_replicate,
        Nat.min_eq_left (Nat.le_of_lt inside)]
      rfl
    · cases h

include g

theorem Selection.data : ∃ d, s.typeOf src = .ok (.data d) := by
  obtain ⟨_, item, down, next, there⟩ := selection.constructs proper
  obtain ⟨typed, own, known, ruled⟩ := g.ruled selection.atom
  cases ty with
  | null => cases there
  | ref k =>
    have node := typed.confirmed k _ there
    rw [← table_ref] at node
    have shape : ∃ d, own = .data d := by
      cases mode <;> simp only [Typing.rule, Inquiry.value?_bind, Inquiry.value?_typeOf] at ruled <;>
        obtain ⟨given, found, ruled⟩ := Option.bind_eq_some_iff.1 ruled <;>
        rw [found] at node <;> obtain ⟨d, rfl | rfl, _⟩ := Typing.typeNode_value node <;> cases ruled <;>
        exact ⟨d, rfl⟩
    obtain ⟨d, rfl⟩ := shape
    exact ⟨d, known⟩

theorem Selection.field (fields : fieldwise s.buffer = true) (shown : Shown s.function i) {field : Int32}
    (load : a = .load src field) {d : Nat} {x : Expr} (computed : s.expression (s.valueAt d) i = .ok x) :
    s.Selects i src item := by
  subst load
  obtain ⟨present, rfl⟩ : ¬ field < 0 ∧ slot = field.toInt.toNat := by
    rcases slot?_eq_some selection.reads with ⟨field, same, present, rfl⟩ | ⟨code, same, _⟩
    · cases same
      exact ⟨present, rfl⟩
    · cases same
  have answer : s.atom i = .ok (.load src field) := by
    unfold Member.atom
    rw [TargetFault.ofFault_ok_iff, atom_ok_iff]
    exact selection.found
  obtain ⟨n, rfl, there⟩ := atom_found answer
  -- what the read of the field was lowered to
  have lowered : ∀ {value : Index → Lowered Expr} {e : Expr}, s.expression value (.ref n) = .ok e →
      ∃ base range, value src = .ok base ∧ s.fieldRange src field = .ok range ∧
        e = .pick base (List.range' range.1 (range.2 - range.1)) := by
    intro value e h
    unfold Scope.expression at h
    rw [answer, Except.ok_bind] at h
    obtain ⟨base, first, h⟩ := Except.bind_ok h
    rw [if_neg present] at h
    obtain ⟨⟨start, stop⟩, range, h⟩ := Except.bind_ok h
    simp only at h
    split at h
    · cases h
    · cases h
      exact ⟨base, (start, stop), first, range, rfl⟩
  obtain ⟨base, range, first, covers, _⟩ := lowered computed
  obtain ⟨ts, known, _⟩ := g.valueAt_faithful d src base (shown.operand g.closed there (Or.inl rfl)) first
  obtain ⟨source, head, nodes, parts, own, asked, bare, chain, each, rfl, at_field, starts, stops, _⟩ :=
    g.fields shown answer present covers known
  refine ⟨items, parts, field.toInt.toNat, own,
    ⟨⟨ty, args, mode, selection.atom, (selection.constructs proper).1, selection.expanded⟩, ?_, known⟩,
    selection.selected, at_field, fun value e h => ?_⟩
  · obtain ⟨data, asked'⟩ := selection.data g proper
    obtain rfl := Except.ok.inj (asked.symm.trans asked')
    cases bare
    refine mapM_scalars ?_ each
    obtain ⟨k, rfl, made⟩ : ∃ k, src = .ref k ∧ s.buffer.atoms[k]? = some (.construct ty args mode) :=
      atom_found selection.atom
    have here := List.all_eq_true.1 fields (.ref k, _) (mem_indexed.2 ⟨k, rfl, made⟩)
    obtain ⟨m, rfl⟩ := Index.eq_ref_of_isNull_false selection.given
    unfold Member.typeOf at asked
    rw [TargetFault.ofFault_ok_iff] at asked
    simp only [asked, selection.listed, chain, beq_iff_eq] at here
    exact here
  · obtain ⟨base', range', first', covers', rfl⟩ := lowered h
    obtain rfl := Except.ok.inj (covers.symm.trans covers')
    refine ⟨base', first', ?_⟩
    rw [starts, stops, starts, Nat.add_sub_cancel_left]

end

theorem selects_of_selection? {s : Scope} (g : s.Grounded) (fields : fieldwise s.buffer = true)
    (shown : Shown s.function i) (h : selection? s.buffer written i = some (src, item))
    (proper : isProper s.buffer src = true) {d : Nat} {x : Expr} (computed : s.expression (s.valueAt d) i = .ok x) :
    s.Selects i src item := by
  obtain ⟨a, slot, ty, args, mode, items, selection⟩ := selection?_eq_some h
  rcases slot?_eq_some selection.reads with ⟨field, load, _⟩ | ⟨code, swizzle, _⟩
  · exact selection.field g proper fields shown load computed
  · exact selection.component proper swizzle

end ShaderForge.Optimizer
