import Mathlib.Logic.Relation
import ShaderForge.Proofs.Linkage.Reached

/-!
What the aggregates of a unit say about the structs of its functions. The aggregate of a
struct has the fields of its chain unless some struct inside leads with a struct: such a head is
a struct-typed atom itself, and it keeps the entry of the struct it carries.
-/

namespace ShaderForge.Linkage

open Buffer Aggregates

/-- The struct whose head is `inner` is a field of the one whose head is `head`. -/
def Nests (b : Buffer) (head inner : Index) : Prop :=
  ∃ nodes node ty, b.fieldChain head = .ok nodes ∧ node ∈ nodes ∧ b.typeOf node = .ok ty ∧
    ty.data? = some (.struct inner)

/-- The first field of a chain is a struct; it is described by the head itself. -/
def LeadsWithStruct (b : Buffer) (head : Index) : Prop :=
  ∃ ty inner, b.typeOf head = .ok ty ∧ ty.data? = some (.struct inner)

instance (b : Buffer) (head : Index) : Decidable (LeadsWithStruct b head) :=
  decidable_of_iff
    (∃ ty ∈ (b.typeOf head).toOption, ∃ d ∈ ty.data?, (Ty.data d).struct?.isSome = true) <| by
    constructor
    · rintro ⟨ty, known, d, value, carried⟩
      cases d with
      | prim p => cases carried
      | struct inner => exact ⟨ty, inner, Except.toOption_eq_some_iff.1 known, value⟩
    · rintro ⟨ty, inner, known, value⟩
      exact ⟨ty, Except.toOption_eq_some_iff.2 known, _, value, rfl⟩

/-- The name of field `k` of a struct with `count` fields: the declared one, when the
decoration names every field. -/
def displayedName (f : Function) (head : Index) (count k : Nat) : String :=
  let names := ((f.buffer.decoration? head).map Decoration.fields).getD []
  if names.length = count then names[k]?.getD s!"f{k}" else s!"f{k}"

/-- An aggregate with one field per node, in order, of the node's own value type. -/
structure Mirrors (u : Linkage) (f : Function) (head : Index) (nodes : List Index)
    (a : Aggregate) : Prop where
  count : a.fields.length = nodes.length
  fields : ∀ (k : Nat) (node : Index), nodes[k]? = some node → ∃ ty d linked, f.buffer.typeOf node = .ok ty ∧
    ty.data? = some d ∧ u.resolveData f.id d = .ok linked ∧
    a.fields[k]? = some ⟨linked, displayedName f head nodes.length k⟩
  phantom : a.phantom = ((f.buffer.decoration? head).map Decoration.phantom).getD false

/-- The aggregate of a struct mirrors its chain, and so for every struct inside. -/
inductive Represents (u : Linkage) (f : Function) : Index → Prop
  | intro {head : Index} {n : Nat} {nodes : List Index} {a : Aggregate}
      (index : u.aggregateIndex f.id head = .ok n) (entry : u.aggregates[n]? = some a)
      (chain : f.buffer.fieldChain head = .ok nodes) (mirrors : Mirrors u f head nodes a)
      (nested : ∀ inner, Nests f.buffer head inner → Represents u f inner) : Represents u f head

theorem fields_getElem? (a : Aggregate) (k : Nat) :
    a.fields[k]? = a.key.types[k]?.map fun ty => ⟨ty, (a.key.names[k]?).getD s!"f{k}"⟩ := by
  simp only [Aggregate.fields, List.getElem?_map, List.getElem?_zipIdx, Option.map_map, Nat.zero_add]
  rfl

theorem keptNames_displayed (f : Function) (head : Index) (count k : Nat) :
    ((keptNames f head count)[k]?).getD s!"f{k}" = displayedName f head count k := by
  unfold keptNames displayedName
  simp only
  split
  · rename_i fits
    split
    · rfl
    · rename_i wrong
      simp only [Bool.or_eq_true, List.isEmpty_iff, beq_iff_eq, wrong, or_false] at fits
      simp [fits]
  · rename_i misfit
    simp only [Bool.or_eq_true, List.isEmpty_iff, beq_iff_eq, not_or] at misfit
    simp [misfit.2]

section

variable {u : Linkage} {f : Function}

theorem aggregateIndex_ok_iff {map : TypeMap} (known : u.typeMaps[f.id]? = some map) {i : Index}
    {n : Nat} : u.aggregateIndex f.id i = .ok n ↔ map[i]? = some n := by
  unfold aggregateIndex
  rw [known, Option.bind_some]
  cases map[i]? <;> simp

theorem resolveData_of_fieldType? {map : TypeMap} (known : u.typeMaps[f.id]? = some map)
    (typed : f.buffer.Typed) {node : Index} {linked : LinkedData}
    (h : fieldType? f map node = some linked) :
    ∃ ty d, f.buffer.typeOf node = .ok ty ∧ ty.data? = some d ∧
      u.resolveData f.id d = .ok linked := by
  unfold fieldType? at h
  split at h
  · rename_i p found
    cases h
    obtain ⟨ty, inferred, plain⟩ := Option.bind_eq_some_iff.1 found
    exact ⟨ty, .prim p, typed.typeOf_ok_iff.2 inferred, plain, rfl⟩
  · rename_i inner found
    obtain ⟨n, entry, rfl⟩ := Option.map_eq_some_iff.1 h
    obtain ⟨ty, inferred, plain⟩ := Option.bind_eq_some_iff.1 found
    refine ⟨ty, .struct inner, typed.typeOf_ok_iff.2 inferred, plain, ?_⟩
    simp only [resolveData, (aggregateIndex_ok_iff known).2 entry]
    rfl
  · cases h

theorem mirrors_of_key {map : TypeMap} (known : u.typeMaps[f.id]? = some map)
    (typed : f.buffer.Typed) {head : Index} {nodes : List Index} {types : List LinkedData}
    {a : Aggregate} (fields : nodes.mapM (fieldType? f map) = some types)
    (key : a.key = keyOf f head types) : Mirrors u f head nodes a := by
  obtain ⟨length, each⟩ := mapM_some_getElem? fields
  refine ⟨?_, ?_, ?_⟩
  · simp [Aggregate.fields, key, keyOf, length]
  · intro k node at_k
    obtain ⟨linked, typed_k, found⟩ := each k node at_k
    obtain ⟨ty, d, answered, plain, resolved⟩ := resolveData_of_fieldType? known typed found
    refine ⟨ty, d, linked, answered, plain, resolved, ?_⟩
    have named := keptNames_displayed f head nodes.length k
    rw [fields_getElem?, key]
    simp only [keyOf, typed_k, length, Option.map_some, named]
  · simp [Aggregate.phantom, key, keyOf]

/-- The head of a chain has the value type of the first field and nothing else. -/
theorem data?_of_head {head : Index} {nodes : List Index} {ty : Ty} {inner : Index}
    (typed : f.buffer.Typed) (chain : f.buffer.fieldChain head = .ok nodes)
    (found : f.buffer.table head = some ty) (carried : ty.struct? = some inner) :
    ty.data? = some (.struct inner) := by
  obtain ⟨run, nonempty⟩ := fieldChain_ok_iff.1 chain
  obtain ⟨n, k, item, down, rfl, node, _⟩ :=
    run.mem_link head (List.mem_of_mem_head? (run.head?_eq nonempty))
  have ruled := typed.confirmed n _ node
  rw [← table_ref, found] at ruled
  obtain ⟨d, kind, ⟨_, rfl⟩ | ⟨_, rfl, _⟩⟩ := Typing.typeNode_value ruled
  · rcases kind with rfl | rfl <;> cases carried
  · rcases kind with rfl | rfl <;> cases carried <;> rfl

/-- The struct that a visible atom carries is visible, starts before the atom and is entered. -/
theorem Mapped.known {map : TypeMap} (mapped : Mapped f u.aggregates map) (typed : f.buffer.Typed)
    (backward : f.buffer.Backward) {k : Nat} {ty : Ty} {head : Index}
    (visible : Index.ref k ∈ visibleAtoms f.buffer) (found : f.buffer.table (.ref k) = some ty)
    (carried : ty.struct? = some head) :
    ∃ m n nodes, head = .ref m ∧ m < k ∧ head ∈ visibleAtoms f.buffer ∧
      f.buffer.fieldChain head = .ok nodes ∧ map[Index.ref k]? = some n ∧ map[head]? = some n := by
  obtain ⟨m, rfl, below, shown, nodes, chain⟩ :=
    typed.struct_head backward (visibleAtoms_useClosed backward) k visible found carried
  obtain ⟨n, entry⟩ := (mapped.entered _ visible).entry ty _ found carried
  rcases mapped.faithful.settled _ _ entry with ⟨_, _, same, carries, held⟩ | ⟨plain, _⟩
  · rw [found, Option.some.injEq] at same
    rw [← same, carried, Option.some.injEq] at carries
    subst carries
    exact ⟨m, n, nodes, rfl, below, shown, chain, entry, held⟩
  · rw [plain ty found] at carried
    cases carried

/-- The aggregate of a chain that does not lead with a struct is made of its nodes. -/
theorem Mapped.keyed {map : TypeMap} (mapped : Mapped f u.aggregates map) (typed : f.buffer.Typed)
    {head : Index} {n : Nat} {nodes : List Index} (entry : map[head]? = some n)
    (chain : f.buffer.fieldChain head = .ok nodes) (plain : ¬ LeadsWithStruct f.buffer head) :
    ∃ types a, nodes.mapM (fieldType? f map) = some types ∧ u.aggregates[n]? = some a ∧
      a.key = keyOf f head types := by
  rcases mapped.faithful.settled _ _ entry with ⟨ty, inner, found, carried, _⟩ |
    ⟨_, own, types, a, chain', fields, stored, key⟩
  · exact (plain ⟨ty, inner, typed.typeOf_ok_iff.2 found,
      data?_of_head typed chain found carried⟩).elim
  · rw [chain, Except.ok.injEq] at chain'
    subst chain'
    exact ⟨types, a, fields, stored, key⟩

theorem represents_of_plain {map : TypeMap} (known : u.typeMaps[f.id]? = some map)
    (mapped : Mapped f u.aggregates map) (typed : f.buffer.Typed) (backward : f.buffer.Backward)
    (k : Nat) {n : Nat} (visible : Index.ref k ∈ visibleAtoms f.buffer)
    (entry : map[Index.ref k]? = some n)
    (plain : ∀ inner, Relation.ReflTransGen (Nests f.buffer) (.ref k) inner →
      ¬ LeadsWithStruct f.buffer inner)
    {nodes : List Index} (chain : f.buffer.fieldChain (.ref k) = .ok nodes) :
    Represents u f (.ref k) := by
  induction k using Nat.strongRecOn generalizing n nodes with
  | ind k ih =>
    obtain ⟨types, a, fields, stored, key⟩ := mapped.keyed typed entry chain (plain _ .refl)
    refine .intro ((aggregateIndex_ok_iff known).2 entry) stored chain
      (mirrors_of_key known typed fields key) ?_
    rintro inner ⟨own, node, ty, chain', member, answered, struct⟩
    rw [chain, Except.ok.injEq] at chain'
    subst chain'
    obtain ⟨j, _, _, _, rfl, _, order⟩ := (fieldChain_ok_iff.1 chain).1.mem_link node member
    have shown := (visibleAtoms_useClosed backward).fields chain visible _ member
    obtain ⟨m, n', nodes', rfl, below, shown', chain'', _, held⟩ :=
      mapped.known typed backward shown (typed.typeOf_ok_iff.1 answered) (Ty.struct?_of_data? struct)
    rw [Index.ref_le_ref] at order
    exact ih m (by omega) shown' held
      (fun inside path => plain inside (.head ⟨_, _, ty, chain, member, answered, struct⟩ path)) chain''

theorem Represents.inside {head inner : Index} (whole : Represents u f head)
    (path : Relation.ReflTransGen (Nests f.buffer) head inner) : Represents u f inner := by
  induction path with
  | refl => exact whole
  | tail _ step ih =>
    cases ih with
    | intro _ _ _ _ nested => exact nested _ step

/-- A head that leads with a struct has that struct's aggregate, which cannot be a field of
itself. -/
theorem Represents.plain {map : TypeMap} (known : u.typeMaps[f.id]? = some map)
    (mapped : Mapped f u.aggregates map) (typed : f.buffer.Typed) (layered : Layered u.aggregates)
    {head : Index} (whole : Represents u f head) : ¬ LeadsWithStruct f.buffer head := by
  rintro ⟨ty, inner, answered, struct⟩
  obtain @⟨_, n, nodes, a, index, entry, chain, mirrors, _⟩ := whole
  have found := typed.typeOf_ok_iff.1 answered
  have carried := Ty.struct?_of_data? struct
  rcases mapped.faithful.settled _ _ ((aggregateIndex_ok_iff known).1 index) with
    ⟨_, _, same, carries, held⟩ | ⟨plain, _⟩
  · rw [found, Option.some.injEq] at same
    rw [← same, carried, Ty.struct?_data_struct, Option.some.injEq] at carries
    subst carries
    obtain ⟨run, nonempty⟩ := fieldChain_ok_iff.1 chain
    have first : nodes[0]? = some head := by
      rw [← List.head?_eq_getElem?]
      exact run.head?_eq nonempty
    obtain ⟨ty', d, linked, answered', struct', resolved, field⟩ := mirrors.fields 0 head first
    rw [answered, Except.ok.injEq] at answered'
    subst answered'
    rw [struct, Option.some.injEq] at struct'
    subst struct'
    have own : linked = .aggregate n := by
      simp only [resolveData, (aggregateIndex_ok_iff known).2 held] at resolved
      exact (Except.ok.inj resolved).symm
    rw [fields_getElem?] at field
    obtain ⟨ty₀, at_zero, shape⟩ := Option.map_eq_some_iff.1 field
    have member : LinkedData.aggregate n ∈ a.key.types := by
      have := List.mem_of_getElem? at_zero
      rw [Field.mk.injEq] at shape
      rw [← own, ← shape.1]
      exact this
    exact Nat.lt_irrefl n (layered n a entry n member)
  · rw [plain ty found] at carried
    cases carried

end

/-- The aggregate that a type of the unit names. -/
def aggregateOf? : LinkedTy → Option Nat
  | .data (.aggregate n) | .array (.aggregate n) _ | .reference (.aggregate n) _ => some n
  | _ => none

theorem resolve_struct {u : Linkage} {id : FunctionId} {ty : Ty} {head : Index} {n : Nat}
    (carried : ty.struct? = some head) (index : u.aggregateIndex id head = .ok n) :
    ∃ linked, u.resolve id ty = .ok linked ∧ aggregateOf? linked = some n := by
  have data : u.resolveData id (.struct head) = .ok (.aggregate n) := by
    simp only [resolveData, index]
    rfl
  unfold Ty.struct? at carried
  unfold resolve
  split at carried
  case h_1 shape =>
    cases carried
    simp only [shape, data]
    exact ⟨.data (.aggregate n), rfl, rfl⟩
  case h_2 size shape =>
    cases carried
    simp only [shape, data]
    exact ⟨.array (.aggregate n) size, rfl, rfl⟩
  case h_3 reference shape =>
    cases carried
    simp only [shape, data]
    exact ⟨.reference (.aggregate n) reference, rfl, rfl⟩
  case h_4 => cases carried

/-- In a unit reached by successful additions, the struct that a visible atom carries has an
aggregate, which resolving the type gives. The aggregate represents the struct, with all inside it,
exactly when no struct among them leads with a struct. A head that does has the aggregate of its
first field in place of its own. -/
theorem represents_iff_no_leading_struct {r : Registry} {u : Linkage} {f : Function} {i head : Index}
    {ty : Ty} (reached : Reached r u) (member : f ∈ u.functions)
    (visible : i ∈ visibleAtoms f.buffer) (answered : f.buffer.typeOf i = .ok ty)
    (carried : ty.struct? = some head) :
    (∃ n linked, u.aggregateIndex f.id head = .ok n ∧ u.resolve f.id ty = .ok linked ∧
      aggregateOf? linked = some n) ∧
    (Represents u f head ↔ ∀ inner, Relation.ReflTransGen (Nests f.buffer) head inner →
      ¬ LeadsWithStruct f.buffer inner) ∧
    ∀ headTy inner, f.buffer.typeOf head = .ok headTy → headTy.data? = some (.struct inner) →
      u.aggregateIndex f.id head = u.aggregateIndex f.id inner := by
  have coherent := reached.coherent
  obtain ⟨⟨backward, typing, _⟩, map, known, mapped⟩ := coherent.placed f member
  obtain ⟨a, present⟩ := (mapped.entered i visible).present
  obtain ⟨k, rfl⟩ : ∃ k, i = .ref k := by
    cases i with
    | null => cases present
    | ref k => exact ⟨k, rfl⟩
  have typed := typing (by
    have := (Array.getElem?_eq_some_iff.1 present).1
    unfold Buffer.size
    omega)
  obtain ⟨m, n, nodes, rfl, _, shown, chain, _, held⟩ :=
    mapped.known typed backward visible (typed.typeOf_ok_iff.1 answered) carried
  have index := (aggregateIndex_ok_iff known).2 held
  refine ⟨?_, ⟨?_, ?_⟩, ?_⟩
  · obtain ⟨linked, resolved, named⟩ := resolve_struct carried index
    exact ⟨n, linked, index, resolved, named⟩
  · intro whole inner path
    exact (whole.inside path).plain known mapped typed coherent.layered
  · intro plain
    exact represents_of_plain known mapped typed backward m shown held plain chain
  · intro headTy inner answered' struct
    obtain ⟨_, n', _, _, _, _, _, own, first⟩ := mapped.known typed backward shown
      (typed.typeOf_ok_iff.1 answered') (Ty.struct?_of_data? struct)
    rw [(aggregateIndex_ok_iff known).2 own, (aggregateIndex_ok_iff known).2 first]

/-! ### Two units -/

def alone (b : Buffer) : Except LinkFault Linkage :=
  link (Registry.empty.register "f" b).2 [0]

theorem exists_alone (b : Buffer) (check : Linkage → Function → Bool)
    (passes : ((alone b).toOption.any fun u => u.functions.any (check u)) = true) :
    ∃ u f, alone b = .ok u ∧ f ∈ u.functions ∧ check u f = true := by
  obtain ⟨u, linked, some⟩ := (Option.any_eq_true _ _).1 passes
  obtain ⟨f, member, holds⟩ := List.any_eq_true.1 some
  exact ⟨u, f, Except.toOption_eq_some_iff.1 linked, member, holds⟩

/-- A struct of a number and a struct of one number, as a parameter. -/
def trailing : Buffer :=
  { atoms := #[.type .nil .null .null, .type .i32 .null (.ref 0), .type .nil (.ref 1) (.ref 0),
      .type .f32 .null (.ref 2), .type .nil (.ref 3) .null, .qualifier (.ref 4) .parameter 0,
      .ret (.ref 5)] }

theorem trailing_represented :
    ∃ u f, alone trailing = .ok u ∧ f ∈ u.functions ∧ Represents u f (.ref 3) := by
  obtain ⟨u, f, linked, member, holds⟩ := exists_alone trailing (fun _ f =>
    (visibleAtoms f.buffer).contains (.ref 5) &&
      (f.buffer.typeOf (.ref 5)).toOption == some (.data (.struct (.ref 3))) &&
      (f.buffer.typeOf (.ref 1)).toOption == some (.field (.prim .i32) (.ref 0)) &&
      (f.buffer.typeOf (.ref 2)).toOption == some (.field (.struct (.ref 1)) (.ref 0)) &&
      (f.buffer.typeOf (.ref 3)).toOption == some (.field (.prim .f32) (.ref 2)) &&
      (f.buffer.fieldChain (.ref 3)).toOption == some [.ref 3, .ref 2] &&
      (f.buffer.fieldChain (.ref 1)).toOption == some [.ref 1]) (by decide +kernel)
  simp only [Bool.and_eq_true, beq_iff_eq, Except.toOption_eq_some_iff,
    Std.ExtTreeSet.contains_iff_mem] at holds
  obtain ⟨⟨⟨⟨⟨⟨visible, parameter⟩, number⟩, inner⟩, first⟩, outer⟩, last⟩ := holds
  refine ⟨u, f, linked, member, ?_⟩
  refine (represents_iff_no_leading_struct (Reached.of_link linked) member visible parameter
    rfl).2.1.2 ?_
  -- the structs inside are the outer one and the one that it ends with
  have inside : ∀ head, Relation.ReflTransGen (Nests f.buffer) (.ref 3) head →
      head = .ref 3 ∨ head = .ref 1 := by
    intro head path
    induction path with
    | refl => exact Or.inl rfl
    | tail _ step ih =>
      obtain ⟨nodes, node, ty, chain, within, answered, struct⟩ := step
      rcases ih with rfl | rfl
      · rw [outer, Except.ok.injEq] at chain
        subst chain
        simp only [List.mem_cons, List.not_mem_nil, or_false] at within
        rcases within with rfl | rfl
        · rw [first, Except.ok.injEq] at answered
          subst answered
          cases struct
        · rw [inner, Except.ok.injEq] at answered
          subst answered
          cases struct
          exact Or.inr rfl
      · rw [last, Except.ok.injEq] at chain
        subst chain
        rw [List.mem_singleton] at within
        subst within
        rw [number, Except.ok.injEq] at answered
        subst answered
        cases struct
  rintro head path ⟨ty, within, answered, struct⟩
  rcases inside head path with rfl | rfl
  · rw [first, Except.ok.injEq] at answered
    subst answered
    cases struct
  · rw [number, Except.ok.injEq] at answered
    subst answered
    cases struct

/-- The same with the struct first. -/
def leading : Buffer :=
  { atoms := #[.type .nil .null .null, .type .f32 .null (.ref 0), .type .nil .null .null,
      .type .i32 .null (.ref 2), .type .nil (.ref 1) (.ref 3), .type .nil (.ref 4) .null,
      .qualifier (.ref 5) .parameter 0, .ret (.ref 6)] }

theorem leading_not_represented :
    ∃ u f, alone leading = .ok u ∧ f ∈ u.functions ∧ Index.ref 5 ∈ visibleAtoms f.buffer ∧
      f.buffer.typeOf (.ref 5) = .ok (.data (.struct (.ref 4))) ∧ ¬ Represents u f (.ref 4) := by
  obtain ⟨u, f, linked, member, holds⟩ := exists_alone leading (fun u f =>
    (visibleAtoms f.buffer).contains (.ref 5) &&
      (f.buffer.typeOf (.ref 5)).toOption == some (.data (.struct (.ref 4))) &&
      (f.buffer.fieldChain (.ref 4)).toOption == some [.ref 4, .ref 3] &&
      (u.aggregateIndex f.id (.ref 4)).toOption == some 0 &&
      u.aggregates[0]?.map (·.fields.length) == some 1) (by decide +kernel)
  simp only [Bool.and_eq_true, beq_iff_eq, Except.toOption_eq_some_iff,
    Std.ExtTreeSet.contains_iff_mem] at holds
  obtain ⟨⟨⟨⟨visible, parameter⟩, chain⟩, index⟩, fields⟩ := holds
  refine ⟨u, f, linked, member, visible, parameter, ?_⟩
  intro whole
  obtain ⟨index', entry, chain', mirrors, _⟩ := whole
  rw [index, Except.ok.injEq] at index'
  rw [chain, Except.ok.injEq] at chain'
  subst index' chain'
  rw [entry, Option.map_some, Option.some.injEq, mirrors.count] at fields
  cases fields

end ShaderForge.Linkage
