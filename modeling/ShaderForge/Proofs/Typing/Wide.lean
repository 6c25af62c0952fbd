import ShaderForge.Proofs.Linkage.Registration
import ShaderForge.Proofs.Liveness.Least
import ShaderForge.Proofs.Typing.Links

/-!
Where 64-bit integers come from. A value is one because its type says so, which a type node spells
out, or because it is computed from literals; no swizzle, intrinsic or image gives one.
-/

namespace ShaderForge

namespace Ty

/-- The value type that a type is about: itself, its element, or what it refers to. -/
def content? (t : Ty) : Option Data :=
  match t.bare with
  | .data d | .array d _ | .reference d _ => some d
  | _ => none

def texel? (t : Ty) : Option Prim :=
  match t.bare with
  | .image p _ | .sampler p _ => some p
  | _ => none

@[simp] theorem content?_bare (t : Ty) : t.bare.content? = t.content? := by simp [content?]

@[simp] theorem content?_fieldValue (t : Ty) : (Typing.fieldValue t).content? = t.content? := by
  cases t <;> rfl

@[simp] theorem content?_target (t : Ty) : (Typing.target t).content? = t.content? := by
  cases t <;> rfl

theorem bare_of_data? {t : Ty} {d : Data} (h : t.data? = some d) : t.bare = .data d := by
  unfold data? at h
  split at h
  · rename_i bare
    rw [bare, Option.some.inj h]
  · cases h

theorem content?_of_data? {t : Ty} {d : Data} (h : t.data? = some d) : t.content? = some d := by
  rw [content?, bare_of_data? h]

theorem struct?_of_content? {t : Ty} {head : Index} (h : t.content? = some (.struct head)) :
    t.struct? = some head := by
  unfold content? at h
  unfold struct?
  cases bare : t.bare <;> simp [bare] at h ⊢ <;> rw [h]

@[simp] theorem texel?_bare (t : Ty) : t.bare.texel? = t.texel? := by simp [texel?]

@[simp] theorem texel?_fieldValue (t : Ty) : (Typing.fieldValue t).texel? = t.texel? := by
  cases t <;> rfl

@[simp] theorem texel?_target (t : Ty) : (Typing.target t).texel? = t.texel? := by
  cases t <;> rfl

end Ty

/-- 64-bit integers, and structs with one in a field. -/
inductive Buffer.Wide (b : Buffer) : Data → Prop
  | number : b.Wide (.prim .u64)
  | field {head node : Index} {fields : List Index} {ty : Ty} {d : Data} (chain : b.fieldChain head = .ok fields)
      (member : node ∈ fields) (typed : b.typeOf node = .ok ty) (value : ty.data? = some d) (wide : b.Wide d) :
      b.Wide (.struct head)

/-- Values computed from 64-bit literals by operators alone, or read as they are. -/
inductive Buffer.FromLiterals (b : Buffer) : Nat → Prop
  | literal {n : Nat} {v : UInt64} (found : b.atoms[n]? = some (.literal (.u64 v))) : b.FromLiterals n
  | read {n m : Nat} {field : Int32} (found : b.atoms[n]? = some (.load (.ref m) field)) (whole : field < 0)
      (source : b.FromLiterals m) : b.FromLiterals n
  | operation {n : Nat} {code : Operator} {x y : Index} (found : b.atoms[n]? = some (.operation code x y))
      (some : (Atom.operation code x y).operands ≠ [])
      (each : ∀ m, .ref m ∈ (Atom.operation code x y).operands → b.FromLiterals m) : b.FromLiterals n

namespace Overload

theorem select_fits {target : String} {candidates : List Signature} {args : List Ty} {ty : Ty}
    (h : select target candidates args = .ok ty) :
    ∃ s ∈ candidates, s.args = args.map Ty.bare ∧ ty = s.result := by
  unfold select at h
  split at h
  · rename_i s found
    cases h
    have fits := List.find?_some found
    simp only [Signature.fits, beq_iff_eq] at fits
    exact ⟨s, List.mem_of_find?_eq_some found, fits, rfl⟩
  · cases h

theorem ofOperator_wide (code : Operator) : ∀ s ∈ ofOperator code, s.result.content? = some (.prim .u64) →
    s.result = .prim .u64 ∧ s.args ≠ [] ∧ ∀ t ∈ s.args, t = .prim .u64 := by
  cases code <;> decide +kernel

theorem ofIntrinsic_narrow (code : Intrinsic) :
    ∀ s ∈ ofIntrinsic code, s.result.content? ≠ some (.prim .u64) := by
  cases code <;> decide +kernel

theorem operator_texel? {code : Operator} {args : List Ty} {ty : Ty} (h : operator code args = .ok ty) :
    ty.texel? = none := by
  have results : ∀ s ∈ ofOperator code, s.result.texel? = none := by cases code <;> decide +kernel
  obtain ⟨s, member, _, rfl⟩ := select_fits h
  exact results s member

theorem intrinsic_texel? {code : Intrinsic} {args : List Ty} {ty : Ty} (h : intrinsic code args = .ok ty) :
    ty.texel? = none := by
  unfold intrinsic at h
  split at h
  · unfold resource at h
    simp only at h
    split at h
    · cases h
    · obtain ⟨s, member, _, rfl⟩ := select_fits h
      unfold ofResource at member
      split at member <;> simp at member <;> subst member <;> rfl
  · have results : ∀ s ∈ ofIntrinsic code, s.result.texel? = none := by cases code <;> decide +kernel
    obtain ⟨s, member, _, rfl⟩ := select_fits h
    exact results s member

theorem operator_wide {code : Operator} {args : List Ty} {ty : Ty} (h : operator code args = .ok ty)
    (wide : ty.content? = some (.prim .u64)) :
    ty = .prim .u64 ∧ args ≠ [] ∧ ∀ t ∈ args, t.bare = .prim .u64 := by
  obtain ⟨s, member, fits, rfl⟩ := select_fits h
  obtain ⟨result, nonempty, each⟩ := ofOperator_wide code s member wide
  refine ⟨result, ?_, fun t inside => each t.bare (fits ▸ List.mem_map_of_mem inside)⟩
  rintro rfl
  exact nonempty fits

theorem intCoordinate_narrow (dim : Nat) : intCoordinate dim ≠ .u64 := by
  have sizes : ∀ p, Prim.vector? .i32 dim = some p → p ≠ .u64 := by
    intro p found
    unfold Prim.vector? at found
    split at found
    · cases found
      decide
    · split at found <;> cases found <;> decide
  unfold intCoordinate
  cases found : Prim.vector? .i32 dim with
  | none => decide
  | some p => exact sizes p found

theorem ofResource_wide {code : Intrinsic} {resource : Ty} {s : Signature} (member : s ∈ ofResource code resource)
    (wide : s.result.content? = some (.prim .u64)) : resource.texel? = some .u64 := by
  unfold ofResource at member
  split at member
  case h_9 => cases member
  case h_1 | h_2 | h_3 | h_5 =>
    cases List.mem_singleton.1 member
    cases wide
    rfl
  case h_4 | h_7 =>
    cases List.mem_singleton.1 member
    exact absurd (Data.prim.inj (Option.some.inj wide)) (intCoordinate_narrow _)
  all_goals
    cases List.mem_singleton.1 member
    cases wide

/-- An intrinsic gives a 64-bit integer only from an image or sampler of such. -/
theorem intrinsic_wide {code : Intrinsic} {args : List Ty} {ty : Ty} (h : intrinsic code args = .ok ty)
    (wide : ty.content? = some (.prim .u64)) : ∃ t ∈ args, t.texel? = some .u64 := by
  unfold intrinsic at h
  split at h
  · unfold resource at h
    simp only at h
    split at h
    · cases h
    · obtain ⟨s, member, fits, rfl⟩ := select_fits h
      have held := ofResource_wide member wide
      cases args with
      | nil => cases held
      | cons t rest => exact ⟨t, List.mem_cons_self, by simpa using held⟩
  · obtain ⟨s, member, _, rfl⟩ := select_fits h
    exact absurd wide (ofIntrinsic_narrow code s member)

end Overload

namespace Typing

open Inquiry

variable {b : Buffer} {types : Index → Option Ty} {ty : Ty} {i : Index} {p : Prim} {d : Data}

theorem Ruled.chain_node (ruled : Ruled b types) {head node : Index} {fields : List Index}
    (chain : b.fieldChain head = .ok fields) (member : node ∈ fields) (found : types node = some ty) :
    ∃ n item down next, node = .ref n ∧ b.atoms[n]? = some (.type item down next) ∧
      ∃ d, ty.data? = some d ∧ (down.isNull = true ∧ d = .prim item ∨ down.isNull = false ∧ d = .struct down) := by
  obtain ⟨n, k, item, down, rfl, present, _⟩ := (Buffer.fieldChain_ok_iff.1 chain).1.mem_link node member
  obtain ⟨a, present', value⟩ := ruled.entry n ty found
  rw [present, Option.some.injEq] at present'
  subst present'
  obtain ⟨d, shape, kind⟩ := typeNode_value value
  refine ⟨n, item, down, _, rfl, present, d, by rcases shape with rfl | rfl <;> rfl, ?_⟩
  exact kind.imp id fun ⟨linked, same, _⟩ => ⟨linked, same⟩

theorem qualifier_texel? {underlying : Index} {kind : Qualifier} {number : Int32}
    (h : (qualifier b i underlying kind number).value? types = some ty) (held : ty.texel? = some p) :
    (∃ c : Channel, p = c.texel) ∨ ∃ inner, types underlying = some inner ∧ inner.texel? = some p := by
  unfold qualifier at h
  split at h
  · cases h
    exact Or.inl ⟨_, (Option.some.inj held).symm⟩
  · cases h
    exact Or.inl ⟨_, (Option.some.inj held).symm⟩
  · cases h
    cases held
  · rw [value?_bind, value?_typeOf] at h
    obtain ⟨inner, found, h⟩ := Option.bind_eq_some_iff.1 h
    refine Or.inr ⟨inner, found, ?_⟩
    unfold refined at h
    split at h
    all_goals first
      | (cases h; exact held)
      | (cases h; cases held)
      | (rw [value?_bind] at h
         obtain ⟨d, _, h⟩ := Option.bind_eq_some_iff.1 h
         cases h
         cases held)
      | (cases h; simpa using held)

theorem element_texel? {source : Ty} (h : (element b i source).value? types = some ty) (held : ty.texel? = some p) :
    source.texel? = some p := by
  unfold element at h
  split at h
  · cases h; cases held
  · cases h; exact held
  · cases h; exact held
  · split at h
    · cases h; cases held
    · split at h
      · cases h; cases held
      · cases h
  · cases h

theorem swizzle_texel? {code : Swizzle} {source : Ty} (h : (swizzle b i code source).value? types = some ty) :
    ty.texel? = none := by
  unfold swizzle at h
  split at h
  · split at h
    · cases h
      rfl
    · cases h
  · cases h

/-- Images and samplers are made by qualifiers, and handed on by first operands. -/
theorem Ruled.texel? (ruled : Ruled b types) {a : Atom} (h : (rule b i a).value? types = some ty)
    (held : ty.texel? = some p) :
    (∃ c : Channel, p = c.texel) ∨ ∃ inner, types a.addresses.1 = some inner ∧ inner.texel? = some p := by
  have holds : ty.texel? ≠ none := by rw [held]; nofun
  cases a with
  | type item down next =>
    obtain ⟨d, rfl | rfl, _⟩ := typeNode_value h <;> cases held
  | qualifier underlying kind number => exact qualifier_texel? h held
  | literal | list | store | branch | ret => cases h; cases held
  | swizzle src code =>
    simp only [rule, value?_bind, value?_typeOf] at h
    obtain ⟨inner, _, h⟩ := Option.bind_eq_some_iff.1 h
    exact absurd (swizzle_texel? h) holds
  | operation code x y =>
    simp only [rule, value?_bind, value?_ofExcept] at h
    obtain ⟨args, _, h⟩ := Option.bind_eq_some_iff.1 h
    exact absurd (Overload.operator_texel? (Except.toOption_eq_some_iff.1 h)) holds
  | intrinsic code args =>
    simp only [rule, value?_bind, value?_ofExcept] at h
    obtain ⟨items, _, h⟩ := Option.bind_eq_some_iff.1 h
    obtain ⟨given, _, h⟩ := Option.bind_eq_some_iff.1 h
    exact absurd (Overload.intrinsic_texel? (Except.toOption_eq_some_iff.1 h)) holds
  | construct node args mode =>
    cases mode with
    | transient | normal =>
      simp only [rule, value?_bind, value?_typeOf] at h
      obtain ⟨inner, known, h⟩ := Option.bind_eq_some_iff.1 h
      cases h
      exact Or.inr ⟨inner, known, by simpa using held⟩
  | call callee node args =>
    simp only [rule, value?_bind, value?_typeOf] at h
    obtain ⟨inner, known, h⟩ := Option.bind_eq_some_iff.1 h
    cases h
    exact Or.inr ⟨inner, known, by simpa using held⟩
  | load src field =>
    simp only [rule, value?_bind, value?_typeOf] at h
    obtain ⟨inner, known, h⟩ := Option.bind_eq_some_iff.1 h
    rcases load_value h with rfl | ⟨_, _, _, own, _, chain, at_, found, rfl⟩
    · exact Or.inr ⟨inner, known, by simpa using held⟩
    · obtain ⟨_, _, _, _, _, _, d, value, _⟩ := ruled.chain_node chain (List.mem_of_getElem? at_) found
      rw [Ty.texel?_bare, Ty.texel?, Ty.bare_of_data? value] at held
      cases held
  | access src loc =>
    simp only [rule, value?_bind, value?_typeOf] at h
    obtain ⟨inner, known, h⟩ := Option.bind_eq_some_iff.1 h
    exact Or.inr ⟨inner, known, by simpa using element_texel? h held⟩

theorem Ruled.channel (ruled : Ruled b types) (backward : b.Backward) {i : Index} (found : types i = some ty)
    (held : ty.texel? = some p) : ∃ c : Channel, p = c.texel := by
  cases i with
  | null =>
    rw [ruled.null] at found
    cases found
    cases held
  | ref n =>
    induction n using Nat.strongRecOn generalizing ty with
    | ind n ih =>
      obtain ⟨a, present, value⟩ := ruled.entry n ty found
      rcases ruled.texel? value held with made | ⟨inner, known, held⟩
      · exact made
      · have early := backward.address_lt present (Or.inl rfl)
        cases place : a.addresses.1 with
        | null =>
          rw [place, ruled.null] at known
          cases known
          cases held
        | ref m =>
          rw [place] at known early
          exact ih m (Index.ref_lt_ref.1 early) held known

/-! ### Rules that give 64-bit integers -/

/-- How an atom comes to a 64-bit integer, or to an array of such or a reference to such. -/
inductive WideBy (b : Buffer) (types : Index → Option Ty) : Atom → Ty → Prop
  | node {item : Prim} {down next : Index} {ty : Ty} (value : ty.data? = some (.prim .u64)) :
      WideBy b types (.type item down next) ty
  | declared {a : Atom} {ty inner : Ty} (declares : a.addresses.1 ∈ a.declares)
      (known : types a.addresses.1 = some inner) (wide : inner.content? = some (.prim .u64)) : WideBy b types a ty
  | literal (v : UInt64) : WideBy b types (.literal (.u64 v)) (.prim .u64)
  | operation {code : Operator} {x y : Index} (some : (Atom.operation code x y).operands ≠ [])
      (each : ∀ o ∈ (Atom.operation code x y).operands, ∃ inner, types o = .some inner ∧ inner.bare = .prim .u64) :
      WideBy b types (.operation code x y) (.prim .u64)
  | read {src : Index} {field : Int32} {inner : Ty} (whole : field < 0) (known : types src = some inner)
      (wide : inner.content? = some (.prim .u64)) : WideBy b types (.load src field) (target inner.bare)
  | field {src head node : Index} {field : Int32} {fields : List Index} {outer own : Ty} (known : types src = some outer)
      (carried : outer.struct? = some head) (chain : b.fieldChain head = .ok fields) (member : node ∈ fields)
      (typed : types node = some own) (wide : own.content? = some (.prim .u64)) :
      WideBy b types (.load src field) own.bare
  | element {src loc : Index} {inner : Ty} {size : Int32} (known : types src = some inner)
      (bare : inner.bare = .array (.prim .u64) size) : WideBy b types (.access src loc) (.prim .u64)

theorem qualifier_wide {underlying : Index} {kind : Qualifier} {number : Int32}
    (h : (qualifier b i underlying kind number).value? types = some ty) (wide : ty.content? = some (.prim .u64)) :
    ∃ inner, types underlying = some inner ∧ inner.content? = some (.prim .u64) := by
  unfold qualifier at h
  split at h
  · cases h
    cases wide
  · cases h
    cases wide
  · rename_i v
    cases h
    cases v <;> cases wide
  · rw [value?_bind, value?_typeOf] at h
    obtain ⟨inner, found, h⟩ := Option.bind_eq_some_iff.1 h
    refine ⟨inner, found, ?_⟩
    unfold refined at h
    split at h
    all_goals first
      | (cases h; exact wide)
      | (cases h; cases wide)
      | (rw [value?_bind] at h
         obtain ⟨d, wrapped, h⟩ := Option.bind_eq_some_iff.1 h
         cases h
         rw [Ty.content?_of_data? (base_value wrapped)]
         exact wide)
      | (cases h; simpa using wide)

theorem swizzle_narrow {code : Swizzle} {source : Ty} (h : (swizzle b i code source).value? types = some ty) :
    ty.content? ≠ some (.prim .u64) := by
  have vectors : ∀ q : Prim, q.isVector = true →
      (Prim.vector? q.scalar code.components.length).getD q ≠ .u64 := by
    intro q
    cases code <;> cases q <;> decide
  unfold swizzle at h
  split at h
  · rename_i q _
    split at h
    · rename_i within
      cases h
      exact fun wide => vectors q (Bool.and_eq_true_iff.1 within).1 (Data.prim.inj (Option.some.inj wide))
    · cases h
  · cases h

theorem element_wide {source : Ty} (h : (element b i source).value? types = some ty)
    (wide : ty.content? = some (.prim .u64)) : ty = .prim .u64 ∧ ∃ size, source = .array (.prim .u64) size := by
  have columns : ∀ q column : Prim, q.column? = some column → column ≠ .u64 := by
    intro q column found
    cases q <;> cases found <;> decide
  have components : ∀ q : Prim, q.isVector = true → q.scalar ≠ .u64 := by
    intro q
    cases q <;> decide
  unfold element at h
  split at h
  · rename_i size
    cases h
    obtain rfl := Option.some.inj wide
    exact ⟨rfl, size, rfl⟩
  · cases h
    cases wide
  · cases h
    cases wide
  · split at h
    · rename_i found
      cases h
      exact absurd (Data.prim.inj (Option.some.inj wide)) (columns _ _ found)
    · split at h
      · rename_i vector
        cases h
        exact absurd (Data.prim.inj (Option.some.inj wide)) (components _ vector)
      · cases h
  · cases h

theorem load_cases {field : Int32} {source : Ty} (h : (load b i field source).value? types = some ty) :
    (field < 0 ∧ ty = source) ∨ ∃ head fields node own, source = .data (.struct head) ∧
      b.fieldChain head = .ok fields ∧ node ∈ fields ∧ types node = some own ∧ ty = own.bare := by
  unfold load at h
  split at h
  · rename_i whole
    cases h
    exact Or.inl ⟨whole, rfl⟩
  · split at h
    · rename_i head
      rw [value?_bind, value?_ofExcept] at h
      obtain ⟨fields, chain, h⟩ := Option.bind_eq_some_iff.1 h
      split at h
      · rename_i node selected
        rw [value?_bind, value?_typeOf] at h
        obtain ⟨own, known, h⟩ := Option.bind_eq_some_iff.1 h
        cases h
        exact Or.inr ⟨head, fields, node, own, rfl, Except.toOption_eq_some_iff.1 chain,
          List.mem_of_getElem? selected, known, rfl⟩
      · cases h
    · cases h

theorem Ruled.wideBy (ruled : Ruled b types) (backward : b.Backward) {a : Atom}
    (h : (rule b i a).value? types = some ty) (wide : ty.content? = some (.prim .u64)) : WideBy b types a ty := by
  cases a with
  | type item down next =>
    obtain ⟨d, rfl | rfl, _⟩ := typeNode_value h
    · exact .node (congrArg some (Option.some.inj wide))
    · exact .node (congrArg some (Option.some.inj wide))
  | qualifier underlying kind number =>
    obtain ⟨inner, known, wide⟩ := qualifier_wide h wide
    exact .declared List.mem_cons_self known wide
  | literal value =>
    cases h
    cases value <;> cases wide
    exact .literal _
  | list | store | branch | ret => cases h; cases wide
  | swizzle src code =>
    simp only [rule, value?_bind, value?_typeOf] at h
    obtain ⟨inner, _, h⟩ := Option.bind_eq_some_iff.1 h
    exact absurd wide (swizzle_narrow h)
  | operation code x y =>
    simp only [rule, value?_bind, value?_ofExcept, value?_typesOf] at h
    obtain ⟨args, asked, h⟩ := Option.bind_eq_some_iff.1 h
    obtain ⟨rfl, some, each⟩ := Overload.operator_wide (Except.toOption_eq_some_iff.1 h) wide
    refine .operation (fun none => ?_) fun o member => ?_
    · rw [show [x, y].filter (fun o => !o.isNull) = [] from none] at asked
      cases asked
      exact some rfl
    · obtain ⟨k, place⟩ := List.mem_iff_getElem?.1 member
      obtain ⟨inner, answered, answer⟩ := (Aggregates.mapM_some_getElem? asked).2 k o place
      exact ⟨inner, answer, by simpa using each _ (List.mem_map_of_mem (List.mem_of_getElem? answered))⟩
  | intrinsic code args =>
    simp only [rule, value?_bind, value?_ofExcept, value?_typesOf] at h
    obtain ⟨items, _, h⟩ := Option.bind_eq_some_iff.1 h
    obtain ⟨given, asked, h⟩ := Option.bind_eq_some_iff.1 h
    obtain ⟨t, member, held⟩ := Overload.intrinsic_wide (Except.toOption_eq_some_iff.1 h) wide
    obtain ⟨inner, listed, rfl⟩ := List.mem_map.1 member
    obtain ⟨item, _, answer⟩ := Aggregates.mem_of_mapM_some asked listed
    obtain ⟨c, same⟩ := ruled.channel backward answer (by simpa using held)
    cases c <;> cases same
  | construct node args mode =>
    cases mode with
    | transient | normal =>
      simp only [rule, value?_bind, value?_typeOf] at h
      obtain ⟨inner, known, h⟩ := Option.bind_eq_some_iff.1 h
      cases h
      exact .declared List.mem_cons_self known (by simpa using wide)
  | call callee node args =>
    simp only [rule, value?_bind, value?_typeOf] at h
    obtain ⟨inner, known, h⟩ := Option.bind_eq_some_iff.1 h
    cases h
    exact .declared List.mem_cons_self known (by simpa using wide)
  | load src field =>
    simp only [rule, value?_bind, value?_typeOf] at h
    obtain ⟨inner, known, h⟩ := Option.bind_eq_some_iff.1 h
    rcases load_cases h with ⟨whole, rfl⟩ | ⟨head, fields, node, own, same, chain, member, typed, rfl⟩
    · exact .read whole known (by simpa using wide)
    · have carried : inner.struct? = some head := by
        rw [← Ty.struct?_bare, ← Ty.struct?_target, same]
        rfl
      exact .field known carried chain member typed (by simpa using wide)
  | access src loc =>
    simp only [rule, value?_bind, value?_typeOf] at h
    obtain ⟨inner, known, h⟩ := Option.bind_eq_some_iff.1 h
    obtain ⟨rfl, size, same⟩ := element_wide h wide
    refine WideBy.element known (?_ : inner.bare = .array (.prim .u64) size)
    cases bare : inner.bare with
    | reference => rw [bare] at same; cases same
    | _ => rwa [bare] at same

end Typing

end ShaderForge
