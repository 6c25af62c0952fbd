import ShaderForge.Proofs.Linkage.Representation
import ShaderForge.Proofs.Native.Components
import ShaderForge.Proofs.Native.Scalars

/-!
The scalars of types and atoms. Lowering checks the number of components at stores and calls and takes
the rest on trust; `Scope.Fits` says what. Where it holds, the scalars of an atom that reads part of
another are that part of the other's.
-/

namespace ShaderForge

namespace Native

open Buffer Linkage Aggregates

section

variable {u : Linkage} {p : Prim} {ts : List Prim}

theorem scalarsOfData_prim (plain : p ≠ .accelerationStructure) :
    scalarsOfData u (.prim p) = .ok p.parts := by
  cases p <;> first | rfl | exact absurd rfl plain

theorem scalarsOfData_prim_ok (h : scalarsOfData u (.prim p) = .ok ts) :
    p ≠ .accelerationStructure ∧ ts = p.parts := by
  by_cases plain : p = .accelerationStructure
  · subst plain
    cases h
  · rw [scalarsOfData_prim plain] at h
    exact ⟨plain, (Except.ok.inj h).symm⟩

theorem fieldSpan_parts {types : List LinkedData} {start field : Nat} {range : Nat × Nat}
    {parts : List (List Prim)} (h : fieldSpan u start types field = .ok (some range))
    (each : types.mapM (scalarsOfData u) = .ok parts) :
    ∃ own, parts[field]? = some own ∧ range.1 = start + (parts.take field).flatten.length ∧
      range.2 = range.1 + own.length := by
  induction types generalizing start field parts with
  | nil =>
    unfold fieldSpan at h
    cases h
  | cons d rest ih =>
    rw [List.mapM_cons] at each
    obtain ⟨first, known, each⟩ := Except.bind_ok each
    obtain ⟨others, later, each⟩ := Except.bind_ok each
    cases each
    unfold fieldSpan at h
    rw [known, Except.ok_bind] at h
    cases field with
    | zero =>
      cases h
      exact ⟨first, by simp, by simp, by simp⟩
    | succ field =>
      obtain ⟨own, found, starts, stops⟩ := ih h later
      refine ⟨own, by simpa using found, ?_, stops⟩
      rw [List.take_succ_cons, List.flatten_cons, List.length_append, starts]
      omega

theorem flatten_split {α : Type} {parts : List (List α)} {k : Nat} {own : List α} (found : parts[k]? = some own) :
    parts.flatten = (parts.take k).flatten ++ own ++ (parts.drop (k + 1)).flatten := by
  obtain ⟨inside, rfl⟩ := List.getElem?_eq_some_iff.1 found
  conv_lhs => rw [← List.take_append_drop k parts, List.drop_eq_getElem_cons inside]
  rw [List.flatten_append, List.flatten_cons, List.append_assoc]

end

namespace Scope

def typeScalars (s : Scope) (ty : Ty) : Lowered (List Prim) := do scalarsOf s.unit (← s.resolve ty)

def argumentScalars (s : Scope) (args : Index) : Lowered (List Prim) := do
  return (← (← s.items args).mapM s.scalars).flatten

/-- A call passes the scalars that the callee takes and declares those that it returns. -/
def CallFits (s : Scope) (i : Index) (id : FunctionId) (args : Index) : Prop :=
  ∀ callee ∈ s.unit.function? id, ∀ packed ∈ (argumentLayout s.unit callee).toOption,
    ∀ returns ∈ (resultLayout s.unit callee).toOption,
      (s.argumentScalars args).toOption = some packed.scalars ∧
        (s.scalars i).toOption = some returns.scalars

/-- A construction gets no more components than it has, and spreads a single one over equal scalars. -/
def ConstructFits (s : Scope) (i args : Index) : Prop :=
  ∀ source ∈ (s.argumentScalars args).toOption, ∀ target ∈ (s.scalars i).toOption,
    source.length ≤ target.length ∧ (source.length = 1 → ∀ t ∈ target, ∀ t' ∈ target, t = t')

/-- The struct of an atom does not lead with a struct, so its aggregate is its own. -/
def FieldFits (s : Scope) (src : Index) : Prop :=
  ∀ ty ∈ (s.typeOf src).toOption, ∀ head ∈ ty.struct?, ¬ LeadsWithStruct s.buffer head

def Fits (s : Scope) (i : Index) : Atom → Prop
  | .call id _ args => s.CallFits i id args
  | .construct ty args mode => s.isPlaceholder ty mode = false → s.ConstructFits i args
  | .store dst src => (s.scalars dst).toOption = (s.scalars src).toOption
  | .load src field => ¬ field < 0 → s.FieldFits src
  | _ => True

instance (s : Scope) (i : Index) (id : FunctionId) (args : Index) : Decidable (s.CallFits i id args) :=
  inferInstanceAs (Decidable (∀ callee ∈ _, ∀ packed ∈ _, ∀ returns ∈ _, _ ∧ _))

instance (s : Scope) (i args : Index) : Decidable (s.ConstructFits i args) :=
  inferInstanceAs (Decidable (∀ source ∈ _, ∀ target ∈ _, _ ∧ (_ → ∀ t ∈ target, ∀ t' ∈ target, t = t')))

instance (s : Scope) (src : Index) : Decidable (s.FieldFits src) :=
  inferInstanceAs (Decidable (∀ ty ∈ _, ∀ head ∈ _, ¬ LeadsWithStruct s.buffer head))

instance (s : Scope) (i : Index) : (a : Atom) → Decidable (s.Fits i a)
  | .call id _ args => inferInstanceAs (Decidable (s.CallFits i id args))
  | .construct ty args mode =>
    inferInstanceAs (Decidable (s.isPlaceholder ty mode = false → s.ConstructFits i args))
  | .store dst src => inferInstanceAs (Decidable ((s.scalars dst).toOption = (s.scalars src).toOption))
  | .load src field => inferInstanceAs (Decidable (¬ field < 0 → s.FieldFits src))
  | .qualifier .. | .type .. | .literal _ | .swizzle .. | .operation .. | .intrinsic .. | .list ..
  | .access .. | .branch .. | .ret _ => isTrue trivial

/-- A function of a coherent unit on the way, with slots for whole values only. -/
structure Grounded (s : Scope) : Prop where
  layered : Layered s.unit.aggregates
  placed : Placed s.unit s.function
  fits : ∀ i ∈ visibleAtoms s.buffer, ∀ a ∈ s.buffer.get? i, s.Fits i a
  slots : ∀ i ts, s.slots[i]? = some ts → s.scalars i = .ok ts

variable {s : Scope} {i : Index} {ty : Ty} {ts : List Prim}

/-! ### Scalars of types -/

theorem scalars_eq (known : s.typeOf i = .ok ty) : s.scalars i = s.typeScalars ty := by
  unfold scalars linkedType
  rw [known]
  rfl

theorem typeScalars_bare (s : Scope) (ty : Ty) : s.typeScalars ty.bare = s.typeScalars ty := by
  unfold typeScalars Member.resolve Linkage.resolve
  rw [Ty.bare_bare]

theorem typeScalars_prim {p : Prim} (bare : ty.bare = .prim p) :
    s.typeScalars ty = scalarsOfData s.unit (.prim p) := by
  unfold typeScalars Member.resolve Linkage.resolve
  rw [bare]
  show scalarsOf s.unit (.prim p) = _
  unfold LinkedTy.prim
  split
  · rename_i none
    rw [none]
    rfl
  · rfl

theorem typeScalars_data {d : Data} {linked : LinkedData} (bare : ty.bare = .data d)
    (resolved : s.unit.resolveData s.function.id d = .ok linked) :
    s.typeScalars ty = scalarsOfData s.unit linked := by
  cases d with
  | prim p =>
    cases resolved
    exact typeScalars_prim bare
  | struct head =>
    unfold typeScalars Member.resolve Linkage.resolve
    rw [bare]
    simp only [resolved]
    rfl

theorem target_of_scalars (h : s.typeScalars ty = .ok ts) : Typing.target ty.bare = ty.bare := by
  unfold typeScalars Member.resolve Linkage.resolve at h
  obtain ⟨linked, resolved, h⟩ := Except.bind_ok h
  rw [TargetFault.ofLink_ok_iff] at resolved
  cases shape : ty.bare with
  | reference base id =>
    rw [shape] at resolved
    obtain ⟨d, _, resolved⟩ := Except.bind_ok resolved
    cases resolved
    cases h
  | _ => rfl

theorem prim_ok_iff {p : Prim} : s.prim i = .ok p ↔ ∃ ty, s.typeOf i = .ok ty ∧ ty.bare = .prim p := by
  unfold prim
  constructor
  · intro h
    obtain ⟨ty, known, h⟩ := Except.bind_ok h
    split at h
    · rename_i q plain
      cases h
      exact ⟨ty, known, Ty.prim?_eq_some_iff.1 plain⟩
    · cases h
  · rintro ⟨ty, known, bare⟩
    rw [known, Except.ok_bind, Ty.prim?_eq_some_iff.2 bare]
    rfl

theorem scalars_of_prim {p : Prim} (shape : s.prim i = .ok p) (known : s.scalars i = .ok ts) :
    p ≠ .accelerationStructure ∧ ts = p.parts := by
  obtain ⟨ty, found, bare⟩ := prim_ok_iff.1 shape
  rw [scalars_eq found, typeScalars_prim bare] at known
  exact scalarsOfData_prim_ok known

theorem scalars_prim {p : Prim} (known : s.typeOf i = .ok (.prim p)) (plain : p ≠ .accelerationStructure) :
    s.scalars i = .ok p.parts := by
  rw [scalars_eq known, typeScalars_prim rfl, scalarsOfData_prim plain]

theorem typeOf_iff (typed : s.buffer.Typed) : s.typeOf i = .ok ty ↔ s.buffer.table i = some ty := by
  unfold Member.typeOf
  rw [TargetFault.ofFault_ok_iff]
  exact typed.typeOf_ok_iff

namespace Grounded

variable {a : Atom}

theorem closed (g : s.Grounded) : s.buffer.UseClosed (· ∈ visibleAtoms s.buffer) :=
  visibleAtoms_useClosed g.placed.prepared.backward

theorem ruled (g : s.Grounded) (h : s.atom i = .ok a) :
    s.buffer.Typed ∧ ∃ ty, s.typeOf i = .ok ty ∧
      (Typing.rule s.buffer i a).value? s.buffer.table = some ty := by
  obtain ⟨n, rfl, found⟩ := atom_found h
  have inside : n < s.buffer.size := (Array.getElem?_eq_some_iff.1 found).1
  have typed : s.buffer.Typed := g.placed.prepared.typed (by
    show s.buffer.size ≠ 0
    omega)
  have cached : n < s.buffer.types.size := by
    rw [typed.complete]
    exact inside
  have known : s.buffer.table (.ref n) = some s.buffer.types[n] := Array.getElem?_eq_getElem cached
  refine ⟨typed, s.buffer.types[n], ?_, ?_⟩
  · unfold Member.typeOf
    rw [TargetFault.ofFault_ok_iff]
    exact typed.typeOf_ok_iff.2 known
  · rw [typed.confirmed n a found]
    exact known


/-! ### Scalars of atoms -/

theorem literal (g : s.Grounded) {v : Literal} (h : s.atom i = .ok (.literal v)) :
    s.scalars i = .ok [v.ty] := by
  obtain ⟨_, ty, known, ruled⟩ := g.ruled h
  cases ruled
  rw [scalars_prim known (by cases v <;> simp [Literal.ty])]
  cases v <;> rfl

theorem swizzle (g : s.Grounded) {src : Index} {code : Swizzle} (h : s.atom i = .ok (.swizzle src code))
    (known : s.scalars src = .ok ts) :
    ∃ us, s.scalars i = .ok us ∧ code.components.map (ts[·]?) = us.map some := by
  obtain ⟨typed, ty, own, ruled⟩ := g.ruled h
  simp only [Typing.rule, Inquiry.value?_bind, Inquiry.value?_typeOf] at ruled
  obtain ⟨source, found, ruled⟩ := Option.bind_eq_some_iff.1 ruled
  unfold Typing.swizzle at ruled
  split at ruled
  · rename_i p plain
    rw [Ty.prim?_eq_some_iff, Ty.bare_bare] at plain
    obtain ⟨_, rfl⟩ := scalars_of_prim (prim_ok_iff.2 ⟨source, (typeOf_iff typed).2 found, plain⟩) known
    split at ruled
    · rename_i selects
      rw [Bool.and_eq_true, decide_eq_true_eq] at selects
      cases ruled
      obtain ⟨whole, same⟩ := Prim.parts_swizzle selects.1 selects.2
      exact ⟨_, scalars_prim own whole, same⟩
    · cases ruled
  · cases ruled

theorem access (g : s.Grounded) {src loc : Index} {p : Prim} (h : s.atom i = .ok (.access src loc))
    (shape : s.prim src = .ok p) (known : s.scalars src = .ok ts) :
    ts = p.parts ∧ s.scalars i = .ok (List.replicate (if p.isMatrix then p.rows else 1) p.scalar) := by
  obtain ⟨plain, rfl⟩ := scalars_of_prim shape known
  obtain ⟨typed, ty, own, ruled⟩ := g.ruled h
  obtain ⟨source, found, bare⟩ := prim_ok_iff.1 shape
  simp only [Typing.rule, Inquiry.value?_bind, Inquiry.value?_typeOf, (typeOf_iff typed).1 found,
    Option.bind_some, bare, Typing.target, Typing.element] at ruled
  refine ⟨rfl, ?_⟩
  split at ruled
  · rename_i column matrix
    cases ruled
    obtain ⟨value, same⟩ := Prim.parts_column matrix
    rw [scalars_prim own value, same]
  · split at ruled
    · rename_i vector
      cases ruled
      obtain ⟨value, same⟩ := Prim.parts_scalar vector
      rw [scalars_prim own value, same]
    · cases ruled

theorem whole (g : s.Grounded) {src : Index} {field : Int32} (h : s.atom i = .ok (.load src field))
    (all : field < 0) (known : s.scalars src = .ok ts) : s.scalars i = .ok ts := by
  obtain ⟨typed, ty, own, ruled⟩ := g.ruled h
  simp only [Typing.rule, Inquiry.value?_bind, Inquiry.value?_typeOf, Typing.load, if_pos all] at ruled
  obtain ⟨source, found, ruled⟩ := Option.bind_eq_some_iff.1 ruled
  cases ruled
  rw [scalars_eq ((typeOf_iff typed).2 found)] at known
  rw [scalars_eq own, target_of_scalars known, typeScalars_bare, known]

/-- The aggregate of a struct that does not lead with a struct has a field for each node. -/
theorem struct (g : s.Grounded) {source : Ty} {head : Index} {n : Nat} (typed : s.buffer.Typed)
    (shown : Shown s.function i) (found : s.buffer.table i = some source)
    (bare : source.bare = .data (.struct head)) (plain : ¬ LeadsWithStruct s.buffer head)
    (index : s.unit.aggregateIndex s.function.id head = .ok n) :
    ∃ nodes map a, s.buffer.fieldChain head = .ok nodes ∧ s.unit.typeMaps[s.function.id]? = some map ∧
      s.unit.aggregates[n]? = some a ∧ nodes.mapM (fieldType? s.function map) = some a.key.types := by
  have carried : source.struct? = some head := Ty.struct?_of_data? (Ty.data?_eq_some_iff.2 bare)
  obtain ⟨map, known, mapped⟩ := g.placed.mapped
  cases i with
  | null =>
    cases found
    cases carried
  | ref k =>
    obtain ⟨_, n', nodes, _, _, _, chain, _, held⟩ :=
      mapped.known typed g.placed.prepared.backward shown.visible found carried
    obtain rfl : n' = n := Except.ok.inj (((aggregateIndex_ok_iff known).2 held).symm.trans index)
    obtain ⟨types, a, fields, entry, key⟩ := mapped.keyed typed held chain plain
    refine ⟨nodes, map, a, chain, known, entry, ?_⟩
    rw [key]
    exact fields

/-- The scalars of a struct are those of its fields in a row, and a field read selects its own. -/
theorem fields (g : s.Grounded) {src : Index} {field : Int32} {range : Nat × Nat}
    (shown : Shown s.function i) (h : s.atom i = .ok (.load src field)) (part : ¬ field < 0)
    (covers : s.fieldRange src field = .ok range) (known : s.scalars src = .ok ts) :
    ∃ source head nodes parts own, s.typeOf src = .ok source ∧ source.bare = .data (.struct head) ∧
      s.buffer.fieldChain head = .ok nodes ∧ nodes.mapM s.scalars = .ok parts ∧ ts = parts.flatten ∧
      parts[field.toInt.toNat]? = some own ∧ range.1 = (parts.take field.toInt.toNat).flatten.length ∧
      range.2 = range.1 + own.length ∧ s.scalars i = .ok own := by
  obtain ⟨typed, ty, own, ruled⟩ := g.ruled h
  obtain ⟨m, rfl, there⟩ := atom_found h
  simp only [Typing.rule, Inquiry.value?_bind, Inquiry.value?_typeOf, Typing.load, if_neg part] at ruled
  obtain ⟨source, found, ruled⟩ := Option.bind_eq_some_iff.1 ruled
  have asked : s.typeOf src = .ok source := (typeOf_iff typed).2 found
  unfold Scope.fieldRange at covers
  rw [asked, Except.ok_bind] at covers
  split at covers
  · rename_i head bare
    obtain ⟨n, index, covers⟩ := Except.bind_ok covers
    unfold Member.aggregate at index
    rw [TargetFault.ofLink_ok_iff] at index
    have plain : ¬ LeadsWithStruct s.buffer head :=
      g.fits _ shown.visible _ there part _ (Except.toOption_eq_some_iff.2 asked) _
        (Ty.struct?_of_data? (Ty.data?_eq_some_iff.2 bare))
    obtain ⟨nodes, map, a, chain, mapKnown, entry, fields⟩ :=
      g.struct typed (shown.operand g.closed there (Or.inl rfl)) found bare plain index
    -- node by node, the fields of the aggregate have the scalars of their nodes
    have linked : ∀ node d, fieldType? s.function map node = some d → s.scalars node = scalarsOfData s.unit d := by
      intro node d typeOfNode
      obtain ⟨innerTy, shape, answered, data, resolved⟩ := resolveData_of_fieldType? mapKnown typed typeOfNode
      have asked : s.typeOf node = .ok innerTy := by
        unfold Member.typeOf
        rw [TargetFault.ofFault_ok_iff]
        exact answered
      rw [scalars_eq asked, typeScalars_data (Ty.data?_eq_some_iff.1 data) resolved]
    obtain ⟨count, at_node⟩ := mapM_some_getElem? fields
    have nodeScalars : nodes.mapM s.scalars = a.key.types.mapM (scalarsOfData s.unit) := by
      refine Except.mapM_congr (List.forall₂_iff_get.2 ⟨count.symm, fun k inside inside' => ?_⟩)
      obtain ⟨d, at_type, typeOfNode⟩ := at_node k _ (List.getElem?_eq_getElem inside)
      rw [List.getElem?_eq_getElem inside', Option.some.injEq] at at_type
      rw [List.get_eq_getElem, List.get_eq_getElem, at_type]
      exact linked _ d typeOfNode
    rw [scalars_eq asked, typeScalars_data bare (by simp only [resolveData, index]; rfl),
      scalarsOfData_aggregate g.layered entry] at known
    obtain ⟨parts, each, known⟩ := Except.bind_ok known
    cases known
    unfold Native.fieldRange at covers
    rw [entry] at covers
    obtain ⟨selected, span, covers⟩ := Except.bind_ok covers
    cases selected with
    | none => cases covers
    | some selected =>
      cases covers
      obtain ⟨mine, at_field, starts, stops⟩ := fieldSpan_parts span each
      rw [← nodeScalars] at each
      refine ⟨source, head, nodes, parts, mine, asked, bare, chain, each, rfl, at_field, by simpa using starts,
        stops, ?_⟩
      -- the field's node has the type of the read
      simp only [bare, Typing.target, Inquiry.value?_bind, Inquiry.value?_ofExcept, chain,
        Except.toOption, Option.bind_some] at ruled
      split at ruled
      · rename_i node selected
        rw [Inquiry.value?_bind, Inquiry.value?_typeOf] at ruled
        obtain ⟨inner, foundNode, ruled⟩ := Option.bind_eq_some_iff.1 ruled
        cases ruled
        rw [scalars_eq own, typeScalars_bare, ← scalars_eq ((typeOf_iff typed).2 foundNode)]
        have own_part := (List.forall₂_iff_get.1 (Except.mapM_ok_iff.1 each)).2 _
          (List.getElem?_eq_some_iff.1 selected).1 (List.getElem?_eq_some_iff.1 at_field).1
        rw [List.get_eq_getElem, List.get_eq_getElem, (List.getElem?_eq_some_iff.1 selected).2,
          (List.getElem?_eq_some_iff.1 at_field).2] at own_part
        exact own_part
      · cases ruled
  · cases covers

theorem field (g : s.Grounded) {src : Index} {field : Int32} {range : Nat × Nat}
    (shown : Shown s.function i) (h : s.atom i = .ok (.load src field)) (part : ¬ field < 0)
    (covers : s.fieldRange src field = .ok range) (known : s.scalars src = .ok ts) :
    ∃ before own later, ts = before ++ own ++ later ∧ range.1 = before.length ∧
      range.2 = range.1 + own.length ∧ s.scalars i = .ok own := by
  obtain ⟨_, _, _, parts, own, _, _, _, _, rfl, at_field, starts, stops, scalars⟩ :=
    g.fields shown h part covers known
  exact ⟨_, own, _, flatten_split at_field, starts, stops, scalars⟩

theorem placeholder (g : s.Grounded) {ty args : Index} {mode : Mode}
    (h : s.atom i = .ok (.construct ty args mode)) (stands : s.isPlaceholder ty mode = true) :
    s.scalars i = s.scalars ty := by
  obtain ⟨typed, own, known, ruled⟩ := g.ruled h
  unfold Member.isPlaceholder at stands
  rw [Bool.and_eq_true, beq_iff_eq] at stands
  obtain ⟨rfl, _⟩ := stands
  simp only [Typing.rule, Inquiry.value?_bind, Inquiry.value?_typeOf] at ruled
  obtain ⟨source, found, ruled⟩ := Option.bind_eq_some_iff.1 ruled
  cases ruled
  rw [scalars_eq known, scalars_eq ((typeOf_iff typed).2 found), typeScalars_bare]

end Grounded

/-! ### Operands of operators and intrinsics -/

theorem not_null_of_prim {p : Prim} (shape : s.prim i = .ok p) : i.isNull = false := by
  obtain ⟨ty, known, bare⟩ := prim_ok_iff.1 shape
  cases i with
  | ref n => rfl
  | null =>
    unfold Member.typeOf at known
    rw [TargetFault.ofFault_ok_iff, typeOf_null] at known
    cases known
    cases bare

theorem prims_of_types (typed : s.buffer.Typed) {items : List Index} {types : List Ty} {args : List Prim}
    (found : items.mapM s.buffer.table = some types)
    (prims : (types.map Ty.bare).mapM Ty.prim? = some args) : items.mapM s.prim = .ok args := by
  rw [Overload.mapM_prim?_bare] at prims
  induction items generalizing types args with
  | nil =>
    cases found
    cases prims
    rfl
  | cons i rest ih =>
    rw [List.mapM_cons] at found
    obtain ⟨ty, here, found⟩ := Option.bind_eq_some_iff.1 found
    obtain ⟨others, later, found⟩ := Option.bind_eq_some_iff.1 found
    cases found
    rw [List.mapM_cons] at prims
    obtain ⟨p, first, prims⟩ := Option.bind_eq_some_iff.1 prims
    obtain ⟨ps, second, prims⟩ := Option.bind_eq_some_iff.1 prims
    cases prims
    rw [List.mapM_cons, prim_ok_iff.2 ⟨ty, (typeOf_iff typed).2 here, Ty.prim?_eq_some_iff.1 first⟩,
      Except.ok_bind, ih later second]
    rfl

end Scope

end Native

end ShaderForge
