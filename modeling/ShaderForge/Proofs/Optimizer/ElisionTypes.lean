import ShaderForge.Proofs.Optimizer.Forwards

/-!
Types after constructor elision. An atom that reads an argument in place of a forwarded read is
typed by the argument; argument lists and field chains stay what they were.
-/

namespace ShaderForge.Optimizer

open Typing Inquiry Buffer

section

variable {b : Buffer} {divert : Index → Index}

theorem typeNode_links (typed : b.Typed) {n : Nat} {item : Prim} {down next : Index}
    (found : b.atoms[n]? = some (.type item down next)) :
    (down = .null ∨ ∃ fields, b.fieldChain down = .ok fields) ∧
      (next = .null ∨ ∃ item down further, b.get? next = some (.type item down further)) := by
  have inside : n < b.types.size := by
    rw [typed.complete]
    exact (Array.getElem?_eq_some_iff.1 found).1
  have ruled := typed.confirmed n _ found
  rw [Array.getElem?_eq_getElem inside] at ruled
  change (typeNode b (.ref n) item down next).value? b.table = _ at ruled
  obtain ⟨d, _, kind⟩ := typeNode_value ruled
  constructor
  · rcases kind with ⟨absent, _⟩ | ⟨_, _, chain⟩
    · cases down with
      | null => exact Or.inl rfl
      | ref k => cases absent
    · exact Or.inr chain
  · unfold typeNode at ruled
    rw [value?_bind] at ruled
    obtain ⟨d, _, ruled⟩ := Option.bind_eq_some_iff.1 ruled
    split at ruled
    · rename_i absent
      cases next with
      | null => exact Or.inl rfl
      | ref k => cases absent
    · rw [value?_bind, value?_ofExcept] at ruled
      obtain ⟨a, present, ruled⟩ := Option.bind_eq_some_iff.1 ruled
      rw [Except.toOption_eq_some_iff, atom_ok_iff] at present
      split at ruled
      · exact Or.inr ⟨_, _, _, present⟩
      · cases ruled

theorem Diverts.fieldChain (diverts : Diverts b divert) {head : Index} {fields : List Index}
    (chain : b.fieldChain head = .ok fields) :
    divert head = head ∧ (diverted b divert).fieldChain head = .ok fields := by
  obtain ⟨run, nonempty⟩ := fieldChain_ok_iff.1 chain
  obtain ⟨same, run'⟩ := diverts.links run
  exact ⟨same, fieldChain_ok_iff.2 ⟨run', nonempty⟩⟩

theorem typeNode_diverted (typed : b.Typed) (diverts : Diverts b divert) {n : Nat} {item : Prim}
    {down next : Index} (found : b.atoms[n]? = some (.type item down next)) :
    (typeNode (diverted b divert) (.ref n) item (divert down) (divert next)).value? b.table =
      (typeNode b (.ref n) item (divert down) (divert next)).value? fun i => b.table (divert i) := by
  obtain ⟨nested, linked⟩ := typeNode_links typed found
  have below : divert down = down ∧
      ((diverted b divert).fieldChain down).toOption = (b.fieldChain down).toOption := by
    rcases nested with rfl | ⟨fields, chain⟩
    · refine ⟨diverts.null, ?_⟩
      simp [Buffer.fieldChain, fieldsFrom, bind, Except.bind, Except.toOption]
    · obtain ⟨same, chain'⟩ := diverts.fieldChain chain
      exact ⟨same, by rw [chain, chain']⟩
  unfold typeNode
  rw [value?_bind, value?_bind, below.1]
  congr 1
  · split
    · rfl
    · split
      · rw [value?_bind, value?_bind, value?_ofExcept, value?_ofExcept, below.2]
        rfl
      · rfl
  · funext d
    rcases linked with rfl | ⟨item', down', further, present⟩
    · rw [diverts.null]
      rfl
    · have same : divert next = next := diverts.fixed_of_get? present rfl
      have after : (diverted b divert).get? next =
          some (.type item' (divert down') (divert further)) := by
        cases next with
        | null => cases present
        | ref k =>
          rw [get?_ref, diverted_getElem?]
          rw [get?_ref] at present
          rw [present]
          rfl
      rw [same]
      split
      · rfl
      · simp only [value?_bind, value?_ofExcept, atom_ok_iff.2 present, atom_ok_iff.2 after,
          Except.toOption, Option.bind_some, value?_typeOf, same, value?_pure]

theorem load_diverted (typed : b.Typed) (backward : b.Backward) (diverts : Diverts b divert)
    {i src : Index} {field : Int32} {ty : Ty} (found : b.table src = some ty) :
    (load (diverted b divert) i field (target ty.bare)).value? b.table =
      (load b i field (target ty.bare)).value? fun i => b.table (divert i) := by
  unfold load
  split
  · rfl
  · split
    · rename_i head shape
      have carried : ty.struct? = some head := by
        rw [← Ty.struct?_bare, ← Ty.struct?_target, shape]
        rfl
      obtain ⟨fields, chain⟩ := typed.struct_chain backward found carried
      rw [value?_bind, value?_bind, value?_ofExcept, value?_ofExcept, chain,
        (diverts.fieldChain chain).2]
      simp only [Except.toOption, Option.bind_some]
      split
      · rename_i node selected
        obtain ⟨m, _, _, _, rfl, link, _⟩ :=
          (fieldChain_ok_iff.1 chain).1.mem_link node (List.mem_of_getElem? selected)
        rw [value?_bind, value?_bind, value?_typeOf, value?_typeOf, diverts.fixed link rfl]
        rfl
      · rfl
    · rfl

theorem intrinsic_items (typed : b.Typed) {n : Nat} {code : Intrinsic} {args : Index}
    (found : b.atoms[n]? = some (.intrinsic code args)) : ∃ items, b.expandList args = .ok items := by
  have inside : n < b.types.size := by
    rw [typed.complete]
    exact (Array.getElem?_eq_some_iff.1 found).1
  have ruled := typed.confirmed n _ found
  rw [Array.getElem?_eq_getElem inside] at ruled
  simp only [rule, value?_bind, value?_ofExcept] at ruled
  obtain ⟨items, listed, _⟩ := Option.bind_eq_some_iff.1 ruled
  exact ⟨items, Except.toOption_eq_some_iff.1 listed⟩

theorem intrinsic_diverted (typed : b.Typed) (diverts : Diverts b divert) {n : Nat}
    {code : Intrinsic} {args : Index} (found : b.atoms[n]? = some (.intrinsic code args)) :
    (rule (diverted b divert) (.ref n) (.intrinsic code (divert args))).value? b.table =
      (rule b (.ref n) (.intrinsic code (divert args))).value? fun i => b.table (divert i) := by
  obtain ⟨items, listed⟩ := intrinsic_items typed found
  simp only [rule, value?_bind, value?_ofExcept, value?_typesOf]
  obtain ⟨same, run⟩ := diverts.items (expandList_ok_iff.1 listed)
  rw [same, listed, expandList_ok_iff.2 run]
  simp only [Except.toOption, Option.bind_some, List.mapM_map]
  rfl

/-- An atom with changed addresses, in a buffer with changed addresses, is typed as one that
asks through the change. -/
theorem rule_diverted (typed : b.Typed) (backward : b.Backward) (diverts : Diverts b divert)
    {n : Nat} {a : Atom} (found : b.atoms[n]? = some a) :
    (rule (diverted b divert) (.ref n) (a.mapAddresses divert)).value? b.table =
      (rule b (.ref n) (a.mapAddresses divert)).value? fun i => b.table (divert i) := by
  have asked : ∀ o, b.table (divert (divert o)) = b.table (divert o) := by
    intro o
    rw [diverts.stable]
  cases a with
  | type item down next => exact typeNode_diverted typed diverts found
  | intrinsic code args => exact intrinsic_diverted typed diverts found
  | qualifier underlying kind number =>
    refine (same_qualifier _ _ _ _ b.table).trans (Within.value?_eq ?_).symm
    exact qualifier_within (asked _)
  | swizzle src code =>
    refine (Same.bind (.refl _) (fun ty => same_swizzle _ _ _) b.table).trans
      (Within.value?_eq ?_).symm
    exact within_bind (within_typeOf (asked _)) fun _ _ => swizzle_within _ _
  | operation code x y =>
    refine (Within.value?_eq (within_bind (within_typesOf ?_) fun _ _ => within_ofExcept _)).symm
    intro o member
    rcases List.mem_cons.1 (List.mem_filter.1 member).1 with rfl | member
    · exact asked x
    · rw [List.mem_singleton] at member
      subst member
      exact asked y
  | construct ty args mode =>
    cases mode <;>
      exact (Within.value?_eq (within_bind (within_typeOf (asked ty)) fun _ _ => within_pure _)).symm
  | call callee ty args =>
    exact (Within.value?_eq (within_bind (within_typeOf (asked ty)) fun _ _ => within_pure _)).symm
  | load src field =>
    simp only [Atom.mapAddresses, rule, value?_bind, value?_typeOf, diverts.stable]
    cases answered : b.table (divert src) with
    | none => rfl
    | some ty => exact load_diverted typed backward diverts answered
  | access src loc =>
    refine (Same.bind (.refl _) (fun ty => same_element _ _) b.table).trans
      (Within.value?_eq ?_).symm
    exact within_bind (within_typeOf (asked _)) fun _ _ => element_within _
  | literal value => rfl
  | list item next => rfl
  | store dst src => rfl
  | branch kind cond failto => rfl
  | ret value => rfl

/-! ### What the pass does -/

def replacement (b : Buffer) (i : Index) : Index :=
  match forwards b with
  | .ok forward => forward.getD i i
  | .error _ => i

theorem replacement_diverts (backward : b.Backward) : Diverts b (replacement b) := by
  unfold replacement
  split
  · rename_i forward found
    obtain ⟨written, _, table⟩ := forwards_table backward found
    exact table.diverts backward
  · exact ⟨fun i => Nat.le_refl _, fun _ => rfl, fun i moved => (moved rfl).elim⟩

theorem mapAddresses_eq_self {a : Atom} (first : divert a.addresses.1 = a.addresses.1)
    (second : divert a.addresses.2 = a.addresses.2) : a.mapAddresses divert = a := by
  cases a <;> simp_all [Atom.mapAddresses, Atom.addresses]

theorem elide_succeeds {c : Buffer} {changed : Bool} (typed : b.Typed)
    (h : Succeeds elide b changed c) :
    c.atoms = (diverted b (replacement b)).atoms ∧ c.synthesized = b.synthesized ∧
      (changed = false → c = b) := by
  unfold elide at h
  obtain ⟨_, _, read, h⟩ := Succeeds.bind_iff.1 h
  obtain ⟨rfl, rfl⟩ := Succeeds.of_get.1 read
  split at h
  · rename_i empty
    obtain ⟨rfl, rfl⟩ := Succeeds.of_pure.1 h
    have none : b.atoms = #[] := by simpa [Buffer.isEmpty] using empty
    exact ⟨by simp [diverted, none], rfl, fun _ => rfl⟩
  · rename_i present
    obtain ⟨_, _, read, h⟩ := Succeeds.bind_iff.1 h
    obtain ⟨rfl, rfl⟩ := Succeeds.of_get.1 read
    have nonempty : b.size ≠ 0 := by
      simpa [Buffer.isEmpty, Buffer.size] using present
    simp only [typed.isAnalyzed nonempty, Bool.not_true, Bool.false_eq_true, ↓reduceIte] at h
    obtain ⟨forward, _, asked, h⟩ := Succeeds.bind_iff.1 h
    obtain ⟨found, rfl⟩ := Edit.query_succeeds.1 asked
    have leads : replacement b = fun i => forward.getD i i := by
      funext i
      rw [replacement, found]
    obtain ⟨_, _, read, h⟩ := Succeeds.bind_iff.1 h
    obtain ⟨rfl, rfl⟩ := Succeeds.of_get.1 read
    rw [leads]
    split at h
    · rename_i moved
      obtain ⟨_, _, stored, h⟩ := Succeeds.bind_iff.1 h
      obtain rfl := Succeeds.of_set.1 stored
      obtain ⟨rfl, rfl⟩ := Succeeds.of_pure.1 h
      refine ⟨rfl, rfl, fun unmoved => ?_⟩
      rw [moved] at unmoved
      cases unmoved
    · rename_i still
      obtain ⟨rfl, rfl⟩ := Succeeds.of_pure.1 h
      refine ⟨?_, rfl, fun _ => rfl⟩
      have kept : ∀ a ∈ b.atoms, a.mapAddresses (fun i => forward.getD i i) = a := by
        intro a member
        have absent : ∀ i, (i = a.addresses.1 ∨ i = a.addresses.2) → forward.getD i i = i := by
          intro i position
          apply Std.ExtTreeMap.getD_eq_fallback
          intro contained
          apply still
          rw [Array.any_eq_true']
          refine ⟨a, member, List.any_eq_true.2 ⟨i, ?_, Std.ExtTreeMap.contains_iff_mem.2 contained⟩⟩
          simpa using position
        exact mapAddresses_eq_self (absent _ (Or.inl rfl)) (absent _ (Or.inr rfl))
      exact (Array.map_id' b.atoms).symm.trans (Array.map_congr_left fun a member => (kept a member).symm)

/-! ### Types before and after -/

/-- The second buffer can be analyzed and has the types of the first. -/
def KeepsTypes (b c : Buffer) : Prop :=
  ∃ d, Succeeds Buffer.analyze c () d ∧ ∀ i ty, d.typeOf i = .ok ty ↔ b.typeOf i = .ok ty

/-- The type of an atom that reads arguments in place of forwarded reads. -/
def substitutedType? (b : Buffer) (n : Nat) (a : Atom) : Option Ty :=
  (rule b (.ref n) (a.mapAddresses (replacement b))).value? fun i => b.table (replacement b i)

theorem keepsTypes_iff {c : Buffer} (typed : b.Typed) (backward : b.Backward)
    (atoms : c.atoms = (diverted b (replacement b)).atoms) :
    KeepsTypes b c ↔ ∀ (n : Nat) (a : Atom), b.atoms[n]? = some a → substitutedType? b n a = b.types[n]? := by
  have diverts := replacement_diverts backward
  constructor
  · rintro ⟨d, analyzed, same⟩ n a found
    obtain ⟨types, hints, run, rfl⟩ := analyze_succeeds.1 analyzed
    have typed' : (c.withAnalysis types hints).Typed := typed_of_analyze run rfl rfl
    have tables : (c.withAnalysis types hints).table = b.table := by
      funext i
      apply Option.ext
      intro ty
      rw [← typed'.typeOf_ok_iff, ← typed.typeOf_ok_iff, same]
    have ruled := typed'.confirmed n (a.mapAddresses (replacement b)) (by
      change c.atoms[n]? = _
      rw [atoms, diverted_getElem?, found]
      rfl)
    rw [← table_ref, tables, table_ref] at ruled
    have after : (diverted b (replacement b)).atoms = (c.withAnalysis types hints).atoms := atoms.symm
    rw [substitutedType?, ← rule_diverted typed backward diverts found, ← ruled]
    exact rule_congr after _ _ _
  · intro kept
    have typed' : ({ diverted b (replacement b) with types := b.types } : Buffer).Typed := by
      refine ⟨by simp [typed.complete, Buffer.size, diverted], ?_⟩
      intro n a found
      have before : (diverted b (replacement b)).atoms[n]? = some a := found
      rw [diverted_getElem?] at before
      obtain ⟨a', present, rfl⟩ := Option.map_eq_some_iff.1 before
      rw [← kept n a' present, substitutedType?, ← rule_diverted typed backward diverts present]
      exact rule_congr rfl _ _ _
    obtain ⟨hints, run⟩ := analyze_complete typed'
      ((diverts.backward backward).of_atoms_eq rfl) (c := c) atoms
    refine ⟨_, analyze_succeeds.2 ⟨_, hints, run, rfl⟩, ?_⟩
    have after : (c.withAnalysis b.types.toList hints).Typed := typed_of_analyze run rfl rfl
    have tables : (c.withAnalysis b.types.toList hints).table = b.table := by
      simp [Buffer.table, withAnalysis]
    intro i ty
    rw [after.typeOf_ok_iff, typed.typeOf_ok_iff, tables]

theorem field_not_nil (typed : b.Typed) {head node : Index} {fields : List Index} {ty : Ty}
    (chain : b.fieldChain head = .ok fields) (member : node ∈ fields)
    (found : b.table node = some ty) : ty.bare ≠ .nil := by
  obtain ⟨n, k, item, down, rfl, link, _⟩ := (fieldChain_ok_iff.1 chain).1.mem_link node member
  have ruled := typed.confirmed n _ link
  rw [← table_ref, found] at ruled
  obtain ⟨d, shape, _⟩ := typeNode_value ruled
  rcases shape with rfl | rfl <;> simp [Ty.bare]

theorem read_not_nil (typed : b.Typed) {n : Nat} {a : Atom} (found : b.atoms[n]? = some a)
    (read : (slot? a).isSome) : b.table (.ref n) ≠ some .nil := by
  intro nothing
  have ruled := typed.confirmed n a found
  rw [← table_ref, nothing] at ruled
  obtain ⟨⟨src, slot⟩, position⟩ := Option.isSome_iff_exists.1 read
  rcases slot?_eq_some position with ⟨field, rfl, present, _⟩ | ⟨code, rfl, _⟩
  · simp only [rule, value?_bind, value?_typeOf] at ruled
    obtain ⟨ty, _, ruled⟩ := Option.bind_eq_some_iff.1 ruled
    unfold load at ruled
    rw [if_neg present] at ruled
    split at ruled
    · rw [value?_bind, value?_ofExcept] at ruled
      obtain ⟨fields, chain, ruled⟩ := Option.bind_eq_some_iff.1 ruled
      split at ruled
      · rename_i node selected
        rw [value?_bind, value?_typeOf] at ruled
        obtain ⟨inner, answered, ruled⟩ := Option.bind_eq_some_iff.1 ruled
        exact field_not_nil typed (Except.toOption_eq_some_iff.1 chain)
          (List.mem_of_getElem? selected) answered (Option.some.inj ruled)
      · cases ruled
    · cases ruled
  · simp only [rule, value?_bind, value?_typeOf] at ruled
    obtain ⟨ty, _, ruled⟩ := Option.bind_eq_some_iff.1 ruled
    unfold swizzle at ruled
    split at ruled
    · split at ruled <;> cases ruled
    · cases ruled

theorem Diverts.table_eq (diverts : Diverts b divert) (typed : b.Typed)
    (same : ∀ i ty, b.typeOf i = .ok ty → b.typeOf (divert i) = .ok ty) (i : Index) : b.table (divert i) = b.table i := by
  cases answered : b.table i with
  | some ty => exact typed.typeOf_ok_iff.1 (same i ty (typed.typeOf_ok_iff.2 answered))
  | none =>
    by_cases moved : divert i = i
    · rw [moved, answered]
    · obtain ⟨m, a', rfl, present, _⟩ := diverts.reads i moved
      have inside : m < b.types.size := by
        rw [typed.complete]
        exact (Array.getElem?_eq_some_iff.1 present).1
      rw [table_ref, Array.getElem?_eq_getElem inside] at answered
      cases answered

theorem Diverts.isNull_eq (diverts : Diverts b divert) (typed : b.Typed)
    (tables : ∀ i, b.table (divert i) = b.table i) (i : Index) : (divert i).isNull = i.isNull := by
  by_cases moved : divert i = i
  · rw [moved]
  · obtain ⟨m, a', rfl, present, read⟩ := diverts.reads i moved
    cases lead : divert (.ref m) with
    | ref k => rfl
    | null =>
      have := tables (.ref m)
      rw [lead] at this
      exact (read_not_nil typed present read this.symm).elim

/-- Arguments of the right type take the place of reads without further effect. -/
theorem substitutedType?_of_same (typed : b.Typed) (backward : b.Backward)
    (same : ∀ i ty, b.typeOf i = .ok ty → b.typeOf (replacement b i) = .ok ty) {n : Nat} {a : Atom}
    (found : b.atoms[n]? = some a) : substitutedType? b n a = b.types[n]? := by
  have diverts := replacement_diverts backward
  have tables := diverts.table_eq typed same
  have given := diverts.isNull_eq typed tables
  unfold substitutedType?
  rw [← typed.confirmed n a found]
  simp only [tables]
  cases a with
  | type item down next =>
    obtain ⟨nested, linked⟩ := typeNode_links typed found
    have below : replacement b down = down := by
      rcases nested with rfl | ⟨fields, chain⟩
      · exact diverts.null
      · exact (diverts.fieldChain chain).1
    have after : replacement b next = next := by
      rcases linked with rfl | ⟨_, _, _, present⟩
      · exact diverts.null
      · exact diverts.fixed_of_get? present rfl
    rw [Atom.mapAddresses, below, after]
  | intrinsic code args =>
    obtain ⟨items, listed⟩ := intrinsic_items typed found
    rw [Atom.mapAddresses, (diverts.items (expandList_ok_iff.1 listed)).1]
  | operation code x y =>
    simp only [Atom.mapAddresses, rule, value?_bind, value?_typesOf]
    congr 1
    cases absent : x.isNull <;> cases absent' : y.isNull <;>
      simp [given, absent, absent', tables]
  | qualifier underlying kind number =>
    simp only [Atom.mapAddresses, rule]
    unfold qualifier
    split <;> simp only [value?_bind, value?_typeOf, tables]
  | construct ty args mode =>
    cases mode <;> simp only [Atom.mapAddresses, rule, value?_bind, value?_typeOf, tables]
  | _ => simp only [Atom.mapAddresses, rule, value?_bind, value?_typeOf, tables]

end

/-- Whether every forwarded read has the type of its argument. -/
def keepsTypes (b : Buffer) : Bool :=
  b.indexed.all fun (i, _) => (b.typeOf (replacement b i)).toOption == (b.typeOf i).toOption

theorem typeOf_of_keepsTypes {b : Buffer} (typed : b.Typed) (backward : b.Backward) (h : keepsTypes b = true) (i : Index)
    (ty : Ty) (known : b.typeOf i = .ok ty) : b.typeOf (replacement b i) = .ok ty := by
  cases i with
  | null =>
    rw [(replacement_diverts backward).null]
    exact known
  | ref n =>
    have inside : n < b.atoms.size := by
      have entry : b.types[n]? = some ty := typed.typeOf_ok_iff.1 known
      have bound := (Array.getElem?_eq_some_iff.1 entry).1
      rwa [typed.complete] at bound
    have checked := List.all_eq_true.1 h _ (mem_indexed.2 ⟨n, rfl, Array.getElem?_eq_getElem inside⟩)
    have same : (b.typeOf (replacement b (.ref n))).toOption = (b.typeOf (.ref n)).toOption := eq_of_beq checked
    rw [known] at same
    exact Except.toOption_eq_some_iff.1 same

/-- Elision keeps the types of a buffer exactly when every atom has its type also with the
arguments in place of the reads that are forwarded to them. Arguments that have the types of the
reads are enough for that. -/
theorem elide_keepsTypes_iff {b analyzed c : Buffer} {changed : Bool} (valid : b.validate = .ok ())
    (typing : Succeeds Buffer.analyze b () analyzed) (ran : Succeeds elide analyzed changed c) :
    (KeepsTypes analyzed c ↔ ∀ (n : Nat) (a : Atom), analyzed.atoms[n]? = some a →
      substitutedType? analyzed n a = analyzed.types[n]?) ∧
    ((∀ i ty, analyzed.typeOf i = .ok ty → analyzed.typeOf (replacement analyzed i) = .ok ty) →
      KeepsTypes analyzed c) := by
  obtain ⟨types, hints, run, rfl⟩ := analyze_succeeds.1 typing
  have typed : (b.withAnalysis types hints).Typed := typed_of_analyze run rfl rfl
  have backward : (b.withAnalysis types hints).Backward := (backward_of_validate valid).of_atoms_eq rfl
  have exact_ := keepsTypes_iff typed backward (elide_succeeds typed ran).1
  exact ⟨exact_, fun same => exact_.2 fun n a found =>
    substitutedType?_of_same typed backward same found⟩

/-! ### Two constructions -/

/-- A buffer that is analyzed, elided and analyzed again, and passes a check of the three. -/
theorem exists_elided (b : Buffer) (check : Buffer → Buffer → Buffer → Bool)
    (passes : ((Buffer.analyze.exec b).toOption.any fun d => (elide.exec d).toOption.any fun c =>
      (Buffer.analyze.exec c).toOption.any fun e => check d c e) = true) :
    ∃ d changed c e, Succeeds Buffer.analyze b () d ∧ Succeeds elide d changed c ∧
      Succeeds Buffer.analyze c () e ∧ check d c e = true := by
  have run : ∀ {α : Type} {x : Edit α} {b c : Buffer}, (x.exec b).toOption = some c →
      ∃ a, Succeeds x b a c := by
    intro α x b c ran
    rw [Except.toOption_eq_some_iff] at ran
    unfold Edit.exec at ran
    split at ran
    · rename_i a d answer
      cases ran
      exact ⟨a, answer⟩
    · cases ran
  obtain ⟨d, first, passes⟩ := (Option.any_eq_true _ _).1 passes
  obtain ⟨c, second, passes⟩ := (Option.any_eq_true _ _).1 passes
  obtain ⟨e, third, passes⟩ := (Option.any_eq_true _ _).1 passes
  obtain ⟨changed, elided⟩ := run second
  exact ⟨d, changed, c, e, (run first).choose_spec, elided, (run third).choose_spec, passes⟩

/-- The negation of the only field of a struct built from one number. -/
def negatedField (number : Literal) : Buffer :=
  { atoms := #[.type .nil .null .null, .type .f32 .null (.ref 0), .type .nil (.ref 1) .null,
      .literal number, .list (.ref 3) .null, .construct (.ref 2) (.ref 4) .normal,
      .load (.ref 5) 0, .operation .negation (.ref 6) .null, .ret (.ref 7)] }

theorem negatedField_float_keepsTypes :
    ∃ d changed c, Succeeds Buffer.analyze (negatedField (.f32 0x3f800000)) () d ∧
      Succeeds elide d changed c ∧ KeepsTypes d c := by
  obtain ⟨d, changed, c, e, analyzed, elided, _, holds⟩ := exists_elided (negatedField (.f32 0x3f800000))
    (fun d _ _ => d.atoms.toList.zipIdx.all fun x =>
      substitutedType? d x.2 x.1 == d.types[x.2]?) (by decide +kernel)
  refine ⟨d, changed, c, analyzed, elided, ?_⟩
  have valid : (negatedField (.f32 0x3f800000)).validate = .ok () := by rfl
  refine (elide_keepsTypes_iff valid analyzed elided).1.2 fun n a found => ?_
  have member : (a, n) ∈ d.atoms.toList.zipIdx := by
    rw [List.mem_zipIdx_iff_getElem?, Array.getElem?_toList]
    exact found
  simpa using List.all_eq_true.1 holds (a, n) member

/-- An argument of another type gives its own type to the use of the read. -/
theorem negatedField_integer_not_keepsTypes :
    ∃ d changed c, (negatedField (.i32 1)).validate = .ok () ∧
      Succeeds Buffer.analyze (negatedField (.i32 1)) () d ∧
      Succeeds elide d changed c ∧ ¬ KeepsTypes d c := by
  obtain ⟨d, changed, c, e, analyzed, elided, again, holds⟩ := exists_elided (negatedField (.i32 1))
    (fun d _ e => (d.typeOf (.ref 7)).toOption == some (.prim .f32) &&
      (e.typeOf (.ref 7)).toOption == some (.prim .i32)) (by decide +kernel)
  simp only [Bool.and_eq_true, beq_iff_eq, Except.toOption_eq_some_iff] at holds
  refine ⟨d, changed, c, by rfl, analyzed, elided, ?_⟩
  rintro ⟨e', again', same⟩
  have unique : e = e' := by
    unfold Succeeds at again again'
    rw [again] at again'
    exact congrArg Prod.snd again'
  subst unique
  have kept := (same _ _).2 holds.1
  rw [holds.2] at kept
  cases kept

end ShaderForge.Optimizer
