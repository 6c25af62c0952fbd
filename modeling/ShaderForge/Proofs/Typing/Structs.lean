import ShaderForge.Proofs.Typing.Table

/-!
Where struct types come from. A type that carries a struct names the head of a field chain
that stands before the atom, and that is reached from the atom through operands.
-/

namespace ShaderForge

namespace Ty

@[simp] theorem bare_bare (t : Ty) : t.bare.bare = t.bare := by
  induction t with
  | inArg t ih | outArg t ih | inOutArg t ih => exact ih
  | _ => rfl

@[simp] theorem struct?_bare (t : Ty) : t.bare.struct? = t.struct? := by
  simp [struct?]

@[simp] theorem struct?_data_prim (p : Prim) : (Ty.data (.prim p)).struct? = none := rfl

@[simp] theorem struct?_data_struct (h : Index) : (Ty.data (.struct h)).struct? = some h := rfl

@[simp] theorem struct?_field (d : Data) (next : Index) :
    (Ty.field d next).struct? = (Ty.data d).struct? := rfl

@[simp] theorem struct?_array (d : Data) (size : Int32) :
    (Ty.array d size).struct? = (Ty.data d).struct? := by
  cases d <;> rfl

@[simp] theorem struct?_reference (d : Data) (id : Int32) :
    (Ty.reference d id).struct? = (Ty.data d).struct? := by
  cases d <;> rfl

theorem bare_ne_field (t : Ty) (base : Data) (next : Index) : t.bare ≠ .field base next := by
  induction t with
  | inArg t ih | outArg t ih | inOutArg t ih => exact ih
  | _ => simp [bare]

theorem struct?_of_data? {t : Ty} {d : Data} (h : t.data? = some d) :
    t.struct? = (Ty.data d).struct? := by
  unfold data? at h
  unfold struct?
  cases bare : t.bare <;> simp [bare] at h ⊢
  subst h
  cases ‹Data› <;> rfl

@[simp] theorem struct?_fieldValue (t : Ty) : (Typing.fieldValue t).struct? = t.struct? := by
  cases t <;> simp [Typing.fieldValue]

@[simp] theorem struct?_target (t : Ty) : (Typing.target t).struct? = t.struct? := by
  cases t <;> simp [Typing.target]

end Ty

namespace Overload

theorem select_struct? {target : String} {candidates : List Signature} {args : List Ty} {ty : Ty}
    (plain : ∀ s ∈ candidates, s.result.struct? = none)
    (h : select target candidates args = .ok ty) : ty.struct? = none := by
  unfold select at h
  split at h
  · rename_i s found
    cases h
    exact plain s (List.mem_of_find?_eq_some found)
  · cases h

theorem ofOperator_struct? (code : Operator) : ∀ s ∈ ofOperator code, s.result.struct? = none := by
  cases code <;> decide +kernel

theorem ofIntrinsic_struct? (code : Intrinsic) : ∀ s ∈ ofIntrinsic code, s.result.struct? = none := by
  cases code <;> decide +kernel

theorem ofResource_struct? (code : Intrinsic) (resource : Ty) :
    ∀ s ∈ ofResource code resource, s.result.struct? = none := by
  intro s member
  unfold ofResource at member
  split at member <;> simp at member <;> subst member <;> rfl

theorem operator_struct? {code : Operator} {args : List Ty} {ty : Ty}
    (h : operator code args = .ok ty) : ty.struct? = none :=
  select_struct? (ofOperator_struct? code) h

theorem intrinsic_struct? {code : Intrinsic} {args : List Ty} {ty : Ty}
    (h : intrinsic code args = .ok ty) : ty.struct? = none := by
  unfold intrinsic at h
  split at h
  · unfold resource at h
    simp only at h
    split at h
    · cases h
    · exact select_struct? (ofResource_struct? code _) h
  · exact select_struct? (ofIntrinsic_struct? code) h

end Overload

namespace Typing

variable {b : Buffer} {types : Index → Option Ty} {ty : Ty} {i : Index}

theorem typeNode_value {item : Prim} {down next : Index}
    (h : (typeNode b i item down next).value? types = some ty) :
    ∃ d, (ty = .data d ∨ ty = .field d next) ∧
      ((down.isNull = true ∧ d = .prim item) ∨
        (down.isNull = false ∧ d = .struct down ∧ ∃ fields, b.fieldChain down = .ok fields)) := by
  unfold typeNode at h
  rw [Inquiry.value?_bind] at h
  obtain ⟨d, shape, h⟩ := Option.bind_eq_some_iff.1 h
  refine ⟨d, ?_, ?_⟩
  · split at h
    · cases h
      exact Or.inl rfl
    · rw [Inquiry.value?_bind] at h
      obtain ⟨found, _, h⟩ := Option.bind_eq_some_iff.1 h
      split at h
      · rw [Inquiry.value?_bind] at h
        obtain ⟨_, _, h⟩ := Option.bind_eq_some_iff.1 h
        cases h
        exact Or.inr rfl
      · cases h
  · split at shape
    · cases shape
      exact Or.inl ⟨‹_›, rfl⟩
    · rename_i present
      split at shape
      · rw [Inquiry.value?_bind, Inquiry.value?_ofExcept] at shape
        obtain ⟨fields, chain, shape⟩ := Option.bind_eq_some_iff.1 shape
        cases shape
        exact Or.inr ⟨Bool.eq_false_iff.2 present, rfl, fields,
          Except.toOption_eq_some_iff.1 chain⟩
      · cases shape

theorem base_value {site : Index} {d : Data} (h : (base b site ty).value? types = some d) :
    ty.data? = some d := by
  unfold base at h
  split at h
  · cases h; assumption
  · cases h

theorem qualifier_struct? {underlying head : Index} {kind : Qualifier} {number : Int32}
    (h : (qualifier b i underlying kind number).value? types = some ty)
    (carried : ty.struct? = some head) :
    ∃ inner, types underlying = some inner ∧ inner.struct? = some head := by
  unfold qualifier at h
  split at h
  · cases h; cases carried
  · cases h; cases carried
  · cases h; cases carried
  · rw [Inquiry.value?_bind, Inquiry.value?_typeOf] at h
    obtain ⟨inner, found, h⟩ := Option.bind_eq_some_iff.1 h
    refine ⟨inner, found, ?_⟩
    unfold refined at h
    split at h
    all_goals first
      | (cases h; exact carried)
      | (cases h; cases carried)
      | (rw [Inquiry.value?_bind] at h
         obtain ⟨d, wrapped, h⟩ := Option.bind_eq_some_iff.1 h
         cases h
         rw [Ty.struct?_of_data? (base_value wrapped)]
         simpa using carried)
      | (cases h; simpa using carried)

theorem element_struct? {source : Ty} {head : Index}
    (h : (element b i source).value? types = some ty) (carried : ty.struct? = some head) :
    source.struct? = some head := by
  unfold element at h
  split at h
  · cases h; simpa using carried
  · cases h; exact carried
  · cases h; exact carried
  · split at h
    · cases h; cases carried
    · split at h
      · cases h; cases carried
      · cases h
  · cases h

theorem swizzle_struct? {code : Swizzle} {source : Ty}
    (h : (swizzle b i code source).value? types = some ty) : ty.struct? = none := by
  unfold swizzle at h
  split at h
  · split at h
    · cases h; rfl
    · cases h
  · cases h

theorem load_value {field : Int32} {source : Ty} (h : (load b i field source).value? types = some ty) :
    ty = source ∨ ∃ head fields node inner, source = .data (.struct head) ∧
      b.fieldChain head = .ok fields ∧ fields[field.toInt.toNat]? = some node ∧
      types node = some inner ∧ ty = inner.bare := by
  unfold load at h
  split at h
  · cases h
    exact Or.inl rfl
  · right
    split at h
    · rename_i head
      rw [Inquiry.value?_bind, Inquiry.value?_ofExcept] at h
      obtain ⟨fields, chain, h⟩ := Option.bind_eq_some_iff.1 h
      split at h
      · rename_i node selected
        rw [Inquiry.value?_bind, Inquiry.value?_typeOf] at h
        obtain ⟨inner, found, h⟩ := Option.bind_eq_some_iff.1 h
        cases h
        exact ⟨head, fields, node, inner, rfl, Except.toOption_eq_some_iff.1 chain, selected,
          found, rfl⟩
      · cases h
    · cases h

/-- Where the struct that an atom's type carries is found. -/
inductive Brings (b : Buffer) (types : Index → Option Ty) (a : Atom) (head : Index) : Prop where
  | begun {fields : List Index} (member : head ∈ a.operands) (chain : b.fieldChain head = .ok fields)
  | passed {inner : Ty} (first : types a.addresses.1 = some inner) (carried : inner.struct? = some head)
  | selected {inner t : Ty} {outer node : Index} {fields : List Index} (first : types a.addresses.1 = some inner)
      (around : inner.struct? = some outer) (chain : b.fieldChain outer = .ok fields) (member : node ∈ fields)
      (known : types node = some t) (carried : t.struct? = some head)

theorem typeNode_brings {item : Prim} {down next head : Index}
    (h : (typeNode b i item down next).value? types = some ty) (carried : ty.struct? = some head) :
    Brings b types (.type item down next) head := by
  obtain ⟨d, kind, ⟨absent, rfl⟩ | ⟨linked, rfl, fields, chain⟩⟩ := typeNode_value h
  · rcases kind with rfl | rfl <;> cases carried
  · have same : head = down := by rcases kind with rfl | rfl <;> cases carried <;> rfl
    subst same
    exact .begun (Atom.mem_operands.2 ⟨linked, Or.inl rfl⟩) chain

theorem load_brings {src head : Index} {field : Int32} {source : Ty} (first : types src = some source)
    (h : (load b i field (target source.bare)).value? types = some ty) (carried : ty.struct? = some head) :
    Brings b types (.load src field) head := by
  rcases load_value h with rfl | ⟨outer, fields, node, inner, same, chain, at_, known, rfl⟩
  · rw [Ty.struct?_target, Ty.struct?_bare] at carried
    exact .passed first carried
  · rw [Ty.struct?_bare] at carried
    have around : source.struct? = some outer := by
      rw [← Ty.struct?_bare, ← Ty.struct?_target, same]
      rfl
    exact .selected first around chain (List.mem_of_getElem? at_) known carried

theorem rule_brings {a : Atom} {head : Index} (value : (rule b i a).value? types = some ty)
    (carried : ty.struct? = some head) : Brings b types a head := by
  cases a with
  | type item down next => exact typeNode_brings value carried
  | qualifier underlying kind number =>
    obtain ⟨inner, first, carries⟩ := qualifier_struct? value carried
    exact .passed first carries
  | literal => cases value; cases carried
  | swizzle src code =>
    rw [rule, Inquiry.value?_bind] at value
    obtain ⟨inner, _, value⟩ := Option.bind_eq_some_iff.1 value
    rw [swizzle_struct? value] at carried
    cases carried
  | operation code x y =>
    rw [rule, Inquiry.value?_bind] at value
    obtain ⟨args, _, value⟩ := Option.bind_eq_some_iff.1 value
    rw [Inquiry.value?_ofExcept, Except.toOption_eq_some_iff] at value
    rw [Overload.operator_struct? value] at carried
    cases carried
  | intrinsic code args =>
    rw [rule, Inquiry.value?_bind] at value
    obtain ⟨items, _, value⟩ := Option.bind_eq_some_iff.1 value
    rw [Inquiry.value?_bind] at value
    obtain ⟨given, _, value⟩ := Option.bind_eq_some_iff.1 value
    rw [Inquiry.value?_ofExcept, Except.toOption_eq_some_iff] at value
    rw [Overload.intrinsic_struct? value] at carried
    cases carried
  | construct node args mode =>
    cases mode with
    | transient =>
      rw [rule, Inquiry.value?_bind, Inquiry.value?_typeOf] at value
      obtain ⟨inner, first, value⟩ := Option.bind_eq_some_iff.1 value
      cases value
      exact .passed first (Ty.struct?_bare inner ▸ carried)
    | normal =>
      rw [rule, Inquiry.value?_bind, Inquiry.value?_typeOf] at value
      obtain ⟨inner, first, value⟩ := Option.bind_eq_some_iff.1 value
      cases value
      exact .passed first (Ty.struct?_fieldValue inner ▸ carried)
  | call callee node args =>
    rw [rule, Inquiry.value?_bind, Inquiry.value?_typeOf] at value
    obtain ⟨inner, first, value⟩ := Option.bind_eq_some_iff.1 value
    cases value
    exact .passed first (Ty.struct?_bare inner ▸ carried)
  | load src field =>
    rw [rule, Inquiry.value?_bind, Inquiry.value?_typeOf] at value
    obtain ⟨inner, first, value⟩ := Option.bind_eq_some_iff.1 value
    exact load_brings first value carried
  | access src loc =>
    rw [rule, Inquiry.value?_bind, Inquiry.value?_typeOf] at value
    obtain ⟨inner, first, value⟩ := Option.bind_eq_some_iff.1 value
    have carries := element_struct? value carried
    rw [Ty.struct?_target, Ty.struct?_bare] at carries
    exact .passed first carries
  | list | store | branch | ret => cases value; cases carried

end Typing

namespace Buffer

variable {b : Buffer}

def UseClosed (b : Buffer) (P : Index → Prop) : Prop :=
  ∀ n a, P (.ref n) → b.atoms[n]? = some a → ∀ o ∈ a.operands, P o

theorem UseClosed.fields {P : Index → Prop} (closed : b.UseClosed P) {head : Index}
    {fields : List Index} (chain : b.fieldChain head = .ok fields) (first : P head) :
    ∀ node ∈ fields, P node := by
  apply (fieldChain_ok_iff.1 chain).1.forall_mem first
  intro n k item down reached found
  exact closed n _ reached found (.ref k) (Atom.mem_operands.2 ⟨rfl, Or.inr ⟨rfl, rfl⟩⟩)

theorem UseClosed.items {P : Index → Prop} (closed : b.UseClosed P) {args : Index}
    {items : List Index} (listed : b.expandList args = .ok items) (first : args = .null ∨ P args) :
    ∀ item ∈ items, item = .null ∨ P item := by
  have cell : ∀ {n : Nat} {item next o : Index}, Index.ref n = .null ∨ P (.ref n) →
      b.atoms[n]? = some (.list item next) → o = item ∨ o = next → o = .null ∨ P o := by
    intro n item next o first found position
    cases o with
    | null => exact Or.inl rfl
    | ref k =>
      refine Or.inr (closed n _ (first.resolve_left nofun) found _ (Atom.mem_operands.2 ⟨rfl, ?_⟩))
      exact position.imp id fun same => ⟨same, rfl⟩
  have run := expandList_ok_iff.1 listed
  clear listed
  induction run with
  | nil => exact fun item member => absurd member List.not_mem_nil
  | last found =>
    intro item member
    rw [List.mem_singleton.1 member]
    exact cell first found (Or.inl rfl)
  | cons found _ _ ih =>
    intro item member
    rcases List.mem_cons.1 member with rfl | later
    · exact cell first found (Or.inl rfl)
    · exact ih (cell first found (Or.inr rfl)) item later

end Buffer

namespace Typing

/-- A table in which every entry is what the rule of its atom gives from the table. -/
structure Ruled (b : Buffer) (types : Index → Option Ty) : Prop where
  null : types .null = some .nil
  entry : ∀ (n : Nat) (ty : Ty), types (.ref n) = some ty →
    ∃ a, b.atoms[n]? = some a ∧ (rule b (.ref n) a).value? types = some ty

/-- The struct that an atom's type carries is a chain whose head stands before the atom,
within every set closed under use that holds the atom. -/
theorem Ruled.struct_head {b : Buffer} {types : Index → Option Ty} (ruled : Ruled b types)
    (backward : b.Backward) {P : Index → Prop} (closed : b.UseClosed P) (n : Nat) {ty : Ty}
    {head : Index} (reached : P (.ref n)) (found : types (.ref n) = some ty)
    (carried : ty.struct? = some head) :
    ∃ k, head = .ref k ∧ k < n ∧ P head ∧ ∃ fields, b.fieldChain head = .ok fields := by
  induction n using Nat.strongRecOn generalizing ty head with
  | ind n ih =>
    obtain ⟨a, present, value⟩ := ruled.entry n ty found
    -- the first operand of the atom passes its struct on
    have passed : ∀ {o h : Index} {inner : Ty}, o = a.addresses.1 →
        types o = some inner → inner.struct? = some h →
        ∃ k, h = .ref k ∧ k < n ∧ P h ∧ ∃ fields, b.fieldChain h = .ok fields := by
      intro o h inner first answered carries
      have given : o.isNull = false := by
        cases o with
        | null => rw [ruled.null] at answered; cases answered; cases carries
        | ref m => rfl
      have member := Atom.mem_operands.2 ⟨given, Or.inl first⟩
      obtain ⟨m, rfl, below⟩ := backward n _ present o member
      obtain ⟨k, rfl, early, rest⟩ :=
        ih m below (closed n _ reached present _ member) answered carries
      exact ⟨k, rfl, by omega, rest⟩
    cases rule_brings value carried with
    | begun member chain =>
      obtain ⟨k, rfl, below⟩ := backward n _ present head member
      exact ⟨k, rfl, below, closed n _ reached present _ member, _, chain⟩
    | passed first carries => exact passed rfl first carries
    | selected first around chain member known carries =>
      obtain ⟨k, rfl, below, reachedHead, _⟩ := passed rfl first around
      obtain ⟨m, _, _, _, rfl, _, order⟩ := (Buffer.fieldChain_ok_iff.1 chain).1.mem_link _ member
      rw [Index.ref_le_ref] at order
      obtain ⟨j, rfl, early, rest⟩ := ih m (by omega) (closed.fields chain reachedHead _ member) known carries
      exact ⟨j, rfl, by omega, rest⟩

end Typing

namespace Buffer

variable {b : Buffer}

theorem Typed.ruled (typed : b.Typed) : Typing.Ruled b b.table := by
  refine ⟨rfl, fun n ty found => ?_⟩
  rw [table_ref] at found
  have inside : n < b.atoms.size := by
    have remembered := (Array.getElem?_eq_some_iff.1 found).1
    rw [typed.complete] at remembered
    exact remembered
  have present : b.atoms[n]? = some b.atoms[n] := Array.getElem?_eq_getElem inside
  exact ⟨_, present, by rw [typed.confirmed n _ present, found]⟩

theorem Typed.struct_head (typed : b.Typed) (backward : b.Backward) {P : Index → Prop}
    (closed : b.UseClosed P) (n : Nat) {ty : Ty} {head : Index} (reached : P (.ref n))
    (found : b.table (.ref n) = some ty) (carried : ty.struct? = some head) :
    ∃ k, head = .ref k ∧ k < n ∧ P head ∧ ∃ fields, b.fieldChain head = .ok fields :=
  typed.ruled.struct_head backward closed n reached found carried

theorem Typed.struct_chain (typed : b.Typed) (backward : b.Backward) {i head : Index} {ty : Ty}
    (found : b.table i = some ty) (carried : ty.struct? = some head) :
    ∃ fields, b.fieldChain head = .ok fields := by
  cases i with
  | null => cases found; cases carried
  | ref k =>
    have everything : b.UseClosed fun _ => True := fun _ _ _ _ _ _ => trivial
    obtain ⟨_, _, _, _, chain⟩ := typed.struct_head backward everything k trivial found carried
    exact chain

end Buffer

end ShaderForge
