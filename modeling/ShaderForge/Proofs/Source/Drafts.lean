import ShaderForge.Proofs.Linkage.Globals
import ShaderForge.Proofs.Linkage.Visible
import ShaderForge.Proofs.Source.Templates
import ShaderForge.Source.Glsl

/-!
Functions and globals as templates. Under other names for the aggregates the same text is printed, with
the names in the same places: where a type is spelled out, and nowhere else.
-/

namespace ShaderForge.Glsl

open Buffer Linkage Statement

/-! ### Where types are spelled out -/

/-- The aggregate whose name is part of a type's spelling. A reference is spelled by its number. -/
def spelled? : LinkedTy → Option Nat
  | .data (.aggregate n) | .array (.aggregate n) _ => some n
  | _ => none

/-- What the blocks of a unit hold. -/
inductive Held (u : Linkage) : LinkedTy → Prop
  | reference {id : Int} {r : ReferenceDecl} (declared : u.globals.references[id]? = some r) : Held u (.data r.base)
  | pushConstant {p : PushConstant} (declared : u.globals.pushConstant = some p) : Held u p.ty
  | uniform {n : Int} {v : BufferBinding} (declared : u.globals.uniforms[n]? = some v) : Held u v.ty
  | buffer {n : Int} {v : BufferBinding} (declared : u.globals.buffers[n]? = some v) : Held u v.ty

/-- The types that the source of a unit spells out. A block with phantom contents spells out their fields. -/
inductive Spelled (u : Linkage) : LinkedTy → Prop
  | field {a : Aggregate} {d : LinkedData} (listed : a ∈ u.aggregates) (solid : a.phantom = false)
      (member : d ∈ a.key.types) : Spelled u (.data d)
  | content {ty : LinkedTy} (held : Held u ty)
      (solid : ∀ n a, ty = .data (.aggregate n) → u.aggregates[n]? = some a → a.phantom = false) : Spelled u ty
  | member {n : Nat} {a : Aggregate} {d : LinkedData} (held : Held u (.data (.aggregate n)))
      (entry : u.aggregates[n]? = some a) (phantom : a.phantom = true) (member : d ∈ a.key.types) : Spelled u (.data d)
  | input {n : Int} {v : LayoutVariable} (declared : u.globals.inputs[n]? = some v) : Spelled u v.ty
  | output {n : Int} {v : LayoutVariable} (declared : u.globals.outputs[n]? = some v) : Spelled u v.ty
  | shared {n : Int} {v : SharedVariable} (declared : u.globals.shared[n]? = some v) : Spelled u v.ty
  | special {g : Global} {v : SpecialGlobal} (declared : u.globals.special[g]? = some v)
      (typed : ∀ n, g ≠ .special .accelerationStructure n) : Spelled u v.ty
  | result {f : Function} {ty : LinkedTy} (listed : f ∈ u.functions) (resolved : u.resolve f.id f.returns = .ok ty) :
      Spelled u ty
  | parameter {f : Function} {i : Index} {position : Nat} {own : Ty} {ty : LinkedTy} (listed : f ∈ u.functions)
      (declared : (i, position) ∈ f.parameters) (typed : f.buffer.typeOf i = .ok own)
      (resolved : u.resolve f.id own = .ok ty) : Spelled u ty
  | bound {f : Function} {i : Index} {own : Ty} {ty : LinkedTy} (listed : f ∈ u.functions)
      (marked : i ∈ f.buffer.marked) (typed : f.buffer.typeOf i = .ok own) (resolved : u.resolve f.id own = .ok ty) :
      Spelled u ty
  | constructor {f : Function} {i t args : Index} {mode : Mode} {own : Ty} {ty : LinkedTy} (listed : f ∈ u.functions)
      (found : f.buffer.get? i = some (.construct t args mode)) (typed : f.buffer.typeOf i = .ok own)
      (resolved : u.resolve f.id own = .ok ty) : Spelled u ty

def Mentioned (u : Linkage) (n : Nat) : Prop := n < u.aggregates.size ∧ ∃ ty, Spelled u ty ∧ spelled? ty = some n

/-- Text that is one template under all names and names only what is mentioned. -/
abbrev Drawn (u : Linkage) (x : Titles → Printed) : Prop := Uniform (Draft (Mentioned u)) x

/-! ### Types -/

section

variable {u : Linkage} {P : Nat → Prop}

theorem named_getElem? (u : Linkage) (names : Titles) (n : Nat) :
    (u.named names).aggregates[n]? = u.aggregates[n]?.map fun a => { a with name := names n } := by
  simp [Linkage.named]

theorem named_phantom (u : Linkage) (names : Titles) (n : Nat) :
    (u.named names).aggregates[n]?.map Aggregate.phantom = u.aggregates[n]?.map Aggregate.phantom := by
  rw [named_getElem?, Option.map_map]
  rfl

theorem named_fields (u : Linkage) (names : Titles) (n : Nat) :
    (u.named names).aggregates[n]?.map Aggregate.fields = u.aggregates[n]?.map Aggregate.fields := by
  rw [named_getElem?, Option.map_map]
  rfl

theorem dataName_uniform {d : LinkedData} (spells : ∀ n, n < u.aggregates.size → d = .aggregate n → P n) :
    Uniform (Draft P) fun names => dialect.dataName (u.named names) d := by
  cases d with
  | prim p => exact .of_ok (.const _)
  | aggregate n =>
    simp only [Dialect.dataName, named_getElem?]
    cases found : u.aggregates[n]? with
    | none => exact .of_error _
    | some a => exact .of_ok (.name (spells n (Array.getElem?_eq_some_iff.1 found).1 rfl))

theorem typeName_uniform {ty : LinkedTy} (spells : ∀ n, n < u.aggregates.size → spelled? ty = some n → P n) :
    Uniform (Draft P) fun names => dialect.typeName (u.named names) ty := by
  cases ty with
  | nil | image | sampler => exact .of_ok (.const _)
  | data base =>
    refine dataName_uniform fun n inside same => spells n inside ?_
    rw [same, spelled?]
  | array element size =>
    refine (dataName_uniform (P := P) fun n inside same => spells n inside ?_).bind fun _ draft =>
      .of_ok (draft.append (.const _))
    rw [same, spelled?]
  | reference base id =>
    exact (dataName_uniform (P := fun _ => True) fun _ _ _ => trivial).bind fun _ _ => .of_ok (.const _)

theorem typeName_drawn {ty : LinkedTy} (spelled : Spelled u ty) :
    Drawn u fun names => dialect.typeName (u.named names) ty :=
  typeName_uniform fun _ inside same => ⟨inside, ty, spelled, same⟩

theorem dataName_drawn {d : LinkedData} (spelled : Spelled u (.data d)) :
    Drawn u fun names => dialect.dataName (u.named names) d :=
  typeName_drawn spelled

end

/-! ### Functions -/

def scope (u : Linkage) (f : Function) (locals : IndexMap String) (names : Titles) : Scope :=
  { unit := u.named names, function := f, dialect := dialect, locals }

def Draws (u : Linkage) (p : Titles → Printers) : Prop :=
  ∀ i, Drawn u (fun names => (p names).value i) ∧ Drawn u (fun names => (p names).place i)

/-- States that differ under names in their lines only, and those are templates. -/
def Lines (u : Linkage) (st : Titles → State) : Prop :=
  ∃ locals depth lines, (∀ names, st names = { locals, depth, lines := lines names }) ∧
    Each (Draft (Mentioned u)) lines

section

variable {u : Linkage} {f : Function} (listed : f ∈ u.functions) {locals : IndexMap String}
  {p : Titles → Printers} {i : Index} {st : Titles → State}

theorem scope_buffer {names : Titles} : (scope u f locals names).buffer = f.buffer := rfl

theorem isPhantomData_uniform (d : Data) :
    Uniform (fun phantom => ∃ b, phantom = fun _ => b) fun names => (scope u f locals names).isPhantomData d := by
  cases d with
  | prim => exact .of_ok ⟨false, rfl⟩
  | struct head =>
    refine .answer_bind (y := ({ unit := u, function := f } : Member).aggregate head) fun n _ => ?_
    have same : ∀ names, (scope u f locals names).unit.aggregates[n]?.map Aggregate.phantom = _ :=
      fun names => named_phantom u names n
    simp only [same]
    exact .of_ok ⟨_, rfl⟩

theorem defect_uniform {α : Type} {Q : (Titles → α) → Prop} (d : Defect) :
    Uniform Q fun names => (scope u f locals names).defect d :=
  .of_error (TargetFault.link (.ir (f.buffer.fault d)))

theorem qualifier_drawn (kind : Qualifier) (number : Int32) :
    Drawn u fun names => (scope u f locals names).qualifier i kind number := by
  have member : ∀ (g : Global) (base : Data), Drawn u fun names =>
      (scope u f locals names).isPhantomData base >>= fun phantom => pure (blockMember g.name phantom) := by
    intro g base
    refine (isPhantomData_uniform base).bind ?_
    rintro _ ⟨b, rfl⟩
    exact .of_ok (.const _)
  have unheld : ∀ g : Global, Drawn u fun _ => .ok (blockMember g.name false) := fun g => .of_ok (.const _)
  have plain : ∀ g : Global, Drawn u fun names => .ok ((scope u f locals names).dialect.global g) :=
    fun g => .of_ok (.const g.name)
  unfold Scope.qualifier
  split
  · exact .of_ok (.const _)
  · simp only [scope_buffer]
    cases Global.resolve? f.buffer i with
    | none => exact defect_uniform _
    | some g =>
      cases g with
      | uniform | buffer | pushConstant =>
        refine .answer_bind (y := ({ unit := u, function := f } : Member).typeOf i) fun ty _ => ?_
        split
        · exact member _ _
        · exact member _ _
        · exact unheld _
      | _ => exact plain _

theorem operand_drawn (print : Titles → Index → Printed) (draws : Drawn u fun names => print names i) :
    Drawn u fun names => (scope u f locals names).operand (print names) i := by
  refine draws.bind fun text draft => ?_
  refine .answer_bind (y := ({ unit := u, function := f } : Member).typeOf i) fun ty _ => ?_
  split
  · simp only [scope_buffer]
    refine .choice ((isPhantomData_uniform _).bind ?_) (.of_ok draft)
    rintro _ ⟨phantom, rfl⟩
    show Drawn u fun names => .ok (blockMember (text names) phantom)
    cases phantom with
    | true => exact .of_ok draft
    | false => exact .of_ok (draft.append (.const _))
  · exact .of_ok draft

theorem load_drawn (print : Titles → Index → Printed) (draws : Drawn u fun names => print names i) (field : Int32) :
    Drawn u fun names => (scope u f locals names).load (print names) i field := by
  refine (operand_drawn print draws).bind fun base draft => ?_
  split
  · exact .of_ok draft
  · refine .answer_bind (y := ({ unit := u, function := f } : Member).typeOf i) fun ty _ => ?_
    refine .answer_bind (y := ({ unit := u, function := f } : Member).aggregate (Scope.fieldOwner ty.bare))
      fun n _ => ?_
    have same : ∀ names, ((scope u f locals names).unit.aggregates[n]?.bind fun a => a.fields[field.toInt.toNat]?) =
        (u.aggregates[n]?.map Aggregate.fields).bind fun fields => fields[field.toInt.toNat]? := by
      intro names
      rw [← named_fields u names n, Option.bind_map]
      rfl
    simp only [same]
    split
    · exact .of_ok ((draft.append (.const _)).append (.const _))
    · exact defect_uniform _

theorem callArguments_drawn (draws : Draws u p) (parameters : List Ty) (items : List Index) :
    Uniform (Each (Draft (Mentioned u))) fun names => Scope.callArguments (p names) parameters items := by
  induction items generalizing parameters with
  | nil => exact .of_ok .nil
  | cons item rest ih =>
    have both : ∀ print : Titles → Printed, Drawn u print → Uniform (Each (Draft (Mentioned u))) fun names => (do
        let arg ← print names
        return arg :: (← Scope.callArguments (p names) parameters.tail rest)) :=
      fun print draws => draws.bind fun _ draft => (ih _).bind fun _ drafts => .of_ok (.cons draft drafts)
    exact .choice (both _ (draws item).2) (both _ (draws item).1)

theorem items_drawn (draws : Draws u p) (items : List Index) :
    Uniform (Each (Draft (Mentioned u))) fun names => items.mapM (p names).value :=
  .mapM fun item _ => (draws item).1

include listed in
theorem construct_drawn (draws : Draws u p) {ty args : Index} {mode : Mode}
    (found : f.buffer.get? i = some (.construct ty args mode)) :
    Drawn u fun names => (scope u f locals names).construct (p names) i ty args mode := by
  refine .choice (c := ({ unit := u, function := f } : Member).isPlaceholder ty mode = true) (draws ty).1 ?_
  refine .answer_bind (y := ({ unit := u, function := f } : Member).typeOf i) fun own typed => ?_
  refine .answer_bind (y := ({ unit := u, function := f } : Member).resolve own) fun resolved known => ?_
  rw [Member.typeOf, TargetFault.ofFault_ok_iff] at typed
  rw [Member.resolve, TargetFault.ofLink_ok_iff] at known
  refine (typeName_drawn (.constructor listed found typed known)).bind fun name spelled => ?_
  refine .answer_bind (y := ({ unit := u, function := f } : Member).items args) fun items _ => ?_
  refine (items_drawn draws items).bind fun texts drafts => ?_
  have call : Drawn u fun names => .ok (name names ++ "(" ++ ", ".intercalate (texts names) ++ ")") :=
    .of_ok (((spelled.append (.const _)).append (.intercalate _ drafts)).append (.const _))
  cases resolved with
  | reference base id =>
    obtain ⟨parts, same, each⟩ := drafts
    simp only [same]
    match parts, each with
    | [], _ => exact defect_uniform (.referenceAddress i 0)
    | [address], each =>
      exact .of_ok (((spelled.append (.const "(")).append (each address List.mem_cons_self)).append (.const ")"))
    | _ :: _ :: rest, _ =>
      refine Or.inl ⟨.link (.ir (f.buffer.fault (.referenceAddress i (rest.length + 2)))), fun _ => ?_⟩
      simp [Member.defect, TargetFault.structural, scope_buffer]
  | _ => exact call

include listed in
theorem expression_drawn (draws : Draws u p) :
    Drawn u fun names => (scope u f locals names).expression (p names) i := by
  refine .answer_bind (y := ({ unit := u, function := f } : Member).atom i) fun a held => ?_
  cases a with
  | qualifier _ kind number => exact qualifier_drawn kind number
  | literal value => exact .of_ok (.const (literal value))
  | swizzle src code =>
    exact (draws src).1.bind fun _ draft => .of_ok ((draft.append (.const ".")).append (.const code.name))
  | operation code a b =>
    refine (draws a).1.bind fun left draft => ?_
    refine .choice ?_ ((draws b).1.bind fun right draft' => ?_)
    · exact .of_ok ((((Draft.const "(").append (.const code.symbol)).append draft).append (.const ")"))
    · exact .of_ok (((((((Draft.const "(").append draft).append (.const " ")).append (.const code.symbol)).append
        (.const " ")).append draft').append (.const ")"))
  | intrinsic code args =>
    refine .answer_bind (y := ({ unit := u, function := f } : Member).items args) fun items _ => ?_
    refine (items_drawn draws items).bind fun texts drafts => ?_
    refine .choice (.of_ok (.const code.glsl)) (.choice (.of_error (TargetFault.other (.layoutExpression code))) ?_)
    exact .of_ok ((((Draft.const code.glsl).append (.const "(")).append (.intercalate _ drafts)).append (.const ")"))
  | construct ty args mode =>
    obtain ⟨n, rfl, found⟩ := atom_found held
    exact construct_drawn listed draws found
  | call callee _ args =>
    refine .answer_bind (y := ({ unit := u, function := f } : Member).items args) fun items _ => ?_
    refine (callArguments_drawn draws (((u.function? callee).map Function.args).getD []) items).bind
      fun texts drafts => ?_
    refine .answer_bind (y := ({ unit := u, function := f, dialect := dialect } : Scope).symbol callee)
      fun symbol _ => ?_
    exact .of_ok ((((Draft.const symbol).append (.const "(")).append (.intercalate _ drafts)).append (.const ")"))
  | load src field => exact load_drawn (fun names => (p names).value) (draws src).1 field
  | access src loc =>
    refine (operand_drawn (fun names => (p names).value) (draws src).1).bind fun base draft => ?_
    refine (draws loc).1.bind fun _ draft' => .of_ok (((draft.append (.const "[")).append draft').append (.const "]"))
  | _ => exact defect_uniform _

include listed in
theorem valueOf_drawn (draws : Draws u p) : Drawn u fun names => (scope u f locals names).valueOf (p names) i := by
  have same : ∀ names, (scope u f locals names).locals = locals := fun _ => rfl
  simp only [Scope.valueOf, same]
  cases locals[i]? with
  | some name => exact .of_ok (.const name)
  | none => exact expression_drawn listed draws

include listed in
theorem placeOf_drawn (draws : Draws u p) : Drawn u fun names => (scope u f locals names).placeOf (p names) i := by
  refine .answer_bind (y := ({ unit := u, function := f } : Member).atom i) fun a held => ?_
  cases a with
  | swizzle src code =>
    exact (draws src).2.bind fun _ draft => .of_ok ((draft.append (.const ".")).append (.const code.name))
  | load src field => exact load_drawn (fun names => (p names).place) (draws src).2 field
  | access src loc =>
    refine (operand_drawn (fun names => (p names).place) (draws src).2).bind fun base draft => ?_
    refine (draws loc).1.bind fun _ draft' => .of_ok (((draft.append (.const "[")).append draft').append (.const "]"))
  | construct ty args mode =>
    exact .choice (c := ({ unit := u, function := f } : Member).isPlaceholder ty mode = true) (draws ty).2
      (valueOf_drawn listed draws)
  | _ => exact valueOf_drawn listed draws

include listed in
theorem printers_draw (depth : Nat) : Draws u fun names => (scope u f locals names).printers depth := by
  induction depth with
  | zero => exact fun i => ⟨defect_uniform _, defect_uniform _⟩
  | succ depth ih => exact fun i => ⟨valueOf_drawn listed ih, placeOf_drawn listed ih⟩

include listed in
theorem value_drawn : Drawn u fun names => (scope u f locals names).value i :=
  (printers_draw listed (f.buffer.size + 1) i).1

include listed in
theorem place_drawn : Drawn u fun names => (scope u f locals names).place i :=
  (printers_draw listed (f.buffer.size + 1) i).2

include listed in
theorem fresh_drawn : Drawn u fun names => (scope u f locals names).fresh i :=
  expression_drawn listed (printers_draw listed f.buffer.size)

include listed in
theorem bound_drawn (marked : i ∈ f.buffer.marked) {own : Ty} (typed : f.buffer.typeOf i = .ok own) :
    Drawn u fun names => (scope u f locals names).localType own := by
  refine .answer_bind (y := ({ unit := u, function := f } : Member).resolve own) fun ty known => ?_
  rw [Member.resolve, TargetFault.ofLink_ok_iff] at known
  exact typeName_drawn (.bound listed marked typed known)

theorem Lines.start : Lines u fun _ => {} := ⟨∅, 1, fun _ => [], fun _ => rfl, .nil⟩

theorem Lines.line (lines : Lines u st) {text : Titles → String} (draft : Draft (Mentioned u) text) :
    Lines u fun names => (st names).line (text names) := by
  obtain ⟨locals, depth, old, same, drafts⟩ := lines
  refine ⟨locals, depth, fun names => old names ++ ["".pushn ' ' (4 * depth) ++ text names ++ "\n"],
    fun names => ?_, ?_⟩
  · simp only [same]
    rfl
  · exact drafts.append (.cons (draft.between _ _) .nil)

theorem Lines.declare (lines : Lines u st) (i : Index) {ty : Titles → String} {init : Titles → Option String}
    (text : ∀ name, Draft (Mentioned u) fun names => dialect.declaration (ty names) name (init names)) :
    Lines u fun names => (st names).declare dialect i (ty names) (init names) := by
  obtain ⟨locals, depth, old, same, drafts⟩ := lines
  refine ⟨locals.insert i (Naming.localName locals.size), depth, fun names => old names ++ ["".pushn ' ' (4 * depth) ++
    dialect.declaration (ty names) (Naming.localName locals.size) (init names) ++ "\n"], fun names => ?_, ?_⟩
  · simp only [same]
    rfl
  · exact drafts.append (.cons (((Draft.const _).append (text _)).append (.const _)) .nil)

theorem Lines.nest (lines : Lines u st) (g : Nat → Nat) :
    Lines u fun names => { st names with depth := g (st names).depth } := by
  obtain ⟨locals, depth, old, same, drafts⟩ := lines
  exact ⟨locals, g depth, old, fun names => by simp only [same], drafts⟩

include listed in
theorem branch_drawn (lines : Lines u st) (kind : BranchKind) (cond : Index) :
    Uniform (Lines u) fun names => branch (scope u f locals names) (st names) i kind cond := by
  have written : ∀ {text : Titles → String}, Draft (Mentioned u) text →
      Draft (Mentioned u) fun names => branchText kind (text names) := by
    intro text draft
    cases kind with
    | ifThen | elseIf | whileLoop | forLoop => exact draft.between _ _
    | otherwise | next | leave | close => exact .const _
  have marked : ∀ text : Titles → String, Draft (Mentioned u) text → Uniform (Lines u) fun names => (do
      if closes kind && decide ((st names).depth ≤ 1) then (scope u f locals names).defect (.closesNothing kind i)
      else
        let st := if closes kind then { st names with depth := (st names).depth - 1 } else st names
        let st := st.line (branchText kind (text names))
        return if kind.opens then { st with depth := st.depth + 1 } else st) := by
    intro text draft
    obtain ⟨known, depth, old, same, drafts⟩ := id lines
    have closed : Lines u fun names =>
        if closes kind then { st names with depth := (st names).depth - 1 } else st names := by
      split
      · exact lines.nest (· - 1)
      · exact lines
    have line := closed.line (written draft)
    simp only [same] at line ⊢
    refine .choice (defect_uniform _) (.of_ok ?_)
    split
    · exact line.nest (· + 1)
    · exact line
  exact .choice ((value_drawn listed).bind marked) (marked _ (.const ""))

include listed in
theorem bindLocal_drawn (marked : i ∈ f.buffer.marked) (lines : Lines u st) :
    Uniform (Lines u) fun names => bindLocal (scope u f locals names) (st names) i := by
  refine .answer_bind (y := ({ unit := u, function := f } : Member).typeOf i) fun own typed => ?_
  rw [Member.typeOf, TargetFault.ofFault_ok_iff] at typed
  refine (bound_drawn listed marked typed).bind fun ty spelled => ?_
  refine (fresh_drawn listed).bind fun init draft => .of_ok (lines.declare i fun name => ?_)
  exact ((((spelled.append (.const " ")).append (.const name)).append (.const " = ")).append draft).append (.const ";")

include listed in
theorem effect_drawn (marked : i ∈ f.buffer.marked) (lines : Lines u st) :
    Uniform (Lines u) fun names => effect (scope u f locals names) (st names) i := by
  refine .answer_bind (y := ({ unit := u, function := f } : Member).typeOf i) fun own typed => ?_
  refine .choice ?_ (bindLocal_drawn listed marked lines)
  exact (fresh_drawn listed).bind fun text draft => .of_ok (lines.line (draft.append (.const ";")))

include listed in
theorem statement_drawn (marked : i ∈ f.buffer.marked) (lines : Lines u st) :
    Uniform (Lines u) fun names => statement (scope u f locals names) (st names) i := by
  obtain ⟨known, _, _, same, _⟩ := id lines
  have entered : ∀ names, ({ scope u f locals names with locals := (st names).locals } : Scope) =
      scope u f known names := by
    intro names
    simp only [same]
    rfl
  unfold statement
  simp only [entered]
  refine .answer_bind (y := ({ unit := u, function := f } : Member).atom i) fun a held => ?_
  cases a with
  | qualifier | type | list => exact .of_ok lines
  | store dst src =>
    refine (place_drawn listed).bind fun target draft => (value_drawn listed).bind fun value draft' => ?_
    exact .of_ok (lines.line (((draft.append (.const " = ")).append draft').append (.const ";")))
  | ret value =>
    cases value with
    | null => exact .of_ok (lines.line (.const _))
    | ref k =>
      exact (value_drawn listed).bind fun _ draft =>
        .of_ok (lines.line (draft.between "return " ";"))
  | branch kind cond _ => exact branch_drawn listed lines kind cond
  | intrinsic code args => exact .choice (.of_ok lines) (effect_drawn listed marked lines)
  | call => exact effect_drawn listed marked lines
  | construct ty args mode =>
    cases mode with
    | transient => exact .of_ok lines
    | normal =>
      cases args with
      | null =>
        refine .answer_bind (y := ({ unit := u, function := f } : Member).typeOf i) fun own typed => ?_
        rw [Member.typeOf, TargetFault.ofFault_ok_iff] at typed
        have plain : Uniform (Lines u) fun names => (scope u f known names).localType own >>= fun ty =>
            pure ((st names).declare dialect i ty none) := by
          refine (bound_drawn listed marked typed).bind fun ty spelled => .of_ok (lines.declare i fun name => ?_)
          exact ((spelled.append (.const " ")).append (.const name)).append (.const ";")
        cases own with
        | reference => exact bindLocal_drawn listed marked lines
        | _ => exact plain
      | ref k => exact bindLocal_drawn listed marked lines
  | _ => exact bindLocal_drawn listed marked lines

include listed in
theorem body_drawn : Drawn u fun names => body (scope u f locals names) := by
  have run : Uniform (Lines u) fun names =>
      f.buffer.marked.toList.foldlM (statement (scope u f locals names)) {} :=
    .foldlM Lines.start fun i member st lines =>
      statement_drawn listed (Std.ExtTreeSet.mem_toList.1 member) lines
  refine .bind (Q := Lines u) (run.bind fun st lines => ?_) ?_
  · obtain ⟨known, depth, old, same, drafts⟩ := id lines
    simp only [same]
    exact .choice (defect_uniform (.blockLeftOpen f.name)) (.of_ok ⟨known, depth, old, fun _ => rfl, drafts⟩)
  · rintro st ⟨known, depth, old, same, drafts⟩
    simp only [same]
    exact .of_ok (.join drafts)

include listed in
theorem signature_drawn : Drawn u fun names => signature (scope u f locals names) := by
  have spelled : ∀ own, (∀ ty, u.resolve f.id own = .ok ty → Spelled u ty) →
      Drawn u fun names => (scope u f locals names).localType own := by
    intro own each
    refine .answer_bind (y := ({ unit := u, function := f } : Member).resolve own) fun ty known => ?_
    rw [Member.resolve, TargetFault.ofLink_ok_iff] at known
    exact typeName_drawn (each ty known)
  have parameters : Uniform (Each (Draft (Mentioned u))) fun names => f.parameters.mapM fun p => do
      let ty ← (scope u f locals names).typeOf p.1
      return direction ty.direction ++ (← (scope u f locals names).localType ty) ++ " "
        ++ Naming.argument p.2 := by
    refine .mapM fun p member => ?_
    refine .answer_bind (y := ({ unit := u, function := f } : Member).typeOf p.1) fun own typed => ?_
    rw [Member.typeOf, TargetFault.ofFault_ok_iff] at typed
    refine (spelled own fun ty known => .parameter listed member typed known).bind fun ty draft => ?_
    exact .of_ok ((((Draft.const (direction own.direction)).append draft).append (.const " ")).append (.const _))
  refine (spelled f.returns fun ty known => .result listed known).bind fun returns draft => ?_
  refine .answer_bind (y := ({ unit := u, function := f, dialect := dialect } : Scope).symbol f.id) fun symbol _ => ?_
  refine parameters.bind fun declared drafts => ?_
  show Drawn u fun names =>
    .ok (returns names ++ " " ++ symbol ++ "(" ++ ", ".intercalate (declared names ++ []) ++ ")")
  exact .of_ok (((((draft.append (.const _)).append (.const _)).append (.const _)).append
    (.intercalate _ (drafts.append .nil))).append (.const _))

include listed in
theorem definition_drawn : Drawn u fun names => definition (scope u f locals names) :=
  (signature_drawn listed).bind fun _ draft => (body_drawn listed).bind fun _ draft' =>
    .of_ok (((draft.append (.const _)).append draft').append (.const _))

end

theorem definitions_drawn (u : Linkage) : Drawn u fun names => definitions dialect (u.named names) := by
  refine .bind (Q := Each (Draft (Mentioned u))) (.mapM fun f listed => ?_) fun texts drafts => .of_ok (.join drafts)
  exact (definition_drawn listed).bind fun _ draft => .of_ok ((Draft.const "\n").append draft)

/-! ### Globals -/

section

variable {u : Linkage} {ty : LinkedTy}

theorem declarator_uniform {P : Nat → Prop} (spells : ∀ n, n < u.aggregates.size → spelled? ty = some n → P n)
    (name : String) : Uniform (Draft P) fun names => declarator (u.named names) ty name := by
  have plain : Uniform (Draft P) fun names => dialect.typeName (u.named names) ty >>= fun text =>
      pure (text ++ " " ++ name) :=
    (typeName_uniform spells).bind fun _ draft => .of_ok ((draft.append (.const _)).append (.const _))
  cases ty with
  | array element size =>
    refine (dataName_uniform (P := P) fun n inside same => spells n inside ?_).bind fun _ draft =>
      .of_ok (((draft.append (.const _)).append (.const _)).append (.const _))
    rw [same, spelled?]
  | _ => exact plain

theorem declarator_drawn (spelled : Spelled u ty) (name : String) :
    Drawn u fun names => declarator (u.named names) ty name :=
  declarator_uniform (fun _ inside same => ⟨inside, ty, spelled, same⟩) name

theorem mem_fields {a : Aggregate} {field : Field} (member : field ∈ a.fields) : field.ty ∈ a.key.types := by
  obtain ⟨⟨ty, k⟩, listed, rfl⟩ := List.mem_map.1 member
  exact List.mem_of_getElem? (List.mem_zipIdx_iff_getElem?.1 listed)

theorem blockMembers_drawn (held : Held u ty) (offset : Option Int) :
    Drawn u fun names => blockMembers (u.named names) ty offset := by
  have plain : (∀ n a, ty = .data (.aggregate n) → u.aggregates[n]? = some a → a.phantom = false) →
      Drawn u fun names => declarator (u.named names) ty "data" >>= fun text =>
        pure (" " ++ offsetLayout offset ++ text ++ ";") := fun solid =>
    (declarator_drawn (.content held solid) _).bind fun _ draft => .of_ok (draft.between _ _)
  unfold blockMembers
  split
  · rename_i n
    simp only [named_getElem?]
    cases found : u.aggregates[n]? with
    | none =>
      refine plain fun m a same entry => ?_
      cases same
      rw [found] at entry
      cases entry
    | some a =>
      cases phantom : a.key.phantom with
      | false =>
        simp only [Option.map_some, Option.filter_some, Aggregate.phantom, phantom, Bool.false_eq_true, if_false]
        refine plain fun m b same entry => ?_
        cases same
        rw [found, Option.some.injEq] at entry
        exact entry ▸ phantom
      | true =>
        simp only [Option.map_some, Option.filter_some, Aggregate.phantom, phantom, if_true]
        have members : Uniform (Each (Draft (Mentioned u))) fun names => a.fields.zipIdx.mapM fun p => do
            let layout := if p.2 = 0 then offsetLayout offset else ""
            return " " ++ layout ++ (← dialect.dataName (u.named names) p.1.ty) ++ " " ++ p.1.name ++ ";" := by
          refine .mapM fun p member => ?_
          have field := mem_fields (List.mem_of_getElem? (List.mem_zipIdx_iff_getElem?.1 member))
          exact (dataName_drawn (.member held found phantom field)).bind fun _ draft =>
            .of_ok (((draft.between _ _).append (.const _)).append (.const _))
        exact members.bind fun _ drafts => .of_ok (.join drafts)
  · rename_i other
    exact plain fun n a same _ => (other n same).elim

theorem each_drawn {α : Type} {t : Table α} {line : Titles → Int → α → Except TargetFault String}
    (draws : ∀ n v, t[n]? = some v → Drawn u fun names => line names n v) :
    Drawn u fun names => each t (line names) := by
  refine .bind (Q := Each (Draft (Mentioned u))) (.mapM fun (n, v) member => ?_) fun texts drafts =>
    .of_ok (.join drafts)
  exact draws n v (Std.ExtTreeMap.mem_toList_iff_getElem?_eq_some.1 member)

theorem block_draft {P : Nat → Prop} {members : Titles → String} (draft : Draft P members) (head name tail : String) :
    Draft P fun names => block head name (members names) tail :=
  (((((((Draft.const head).append (.const " ")).append (.const name)).append (.const " \x7b")).append draft).append
    (.const " \x7d")).append (.const tail)).append (.const ";\n")

theorem references_drawn (u : Linkage) : Drawn u fun names => references (u.named names) := by
  refine .bind (each_drawn (u := u) (t := u.globals.references) fun id r declared => ?_) fun lines draft => ?_
  · exact (blockMembers_drawn (.reference declared) none).bind fun members draft => .of_ok (block_draft draft _ _ _)
  · show Drawn u fun names => .ok (if u.globals.references.isEmpty then lines names else lines names ++ "\n")
    split
    · exact .of_ok draft
    · exact .of_ok (draft.append (.const _))

theorem layoutVariables_drawn (u : Linkage) : Drawn u fun names => layoutVariables (u.named names) := by
  refine .bind (each_drawn (u := u) (t := u.globals.inputs) fun n v declared => ?_) fun inputs draft =>
    .bind (each_drawn (u := u) (t := u.globals.outputs) fun n v declared => ?_) fun outputs draft' =>
      .of_ok (draft.append draft')
  · exact (declarator_drawn (.input declared) _).bind fun _ draft => .of_ok (draft.between _ _)
  · exact (declarator_drawn (.output declared) _).bind fun _ draft => .of_ok (draft.between _ _)

theorem pushConstant_drawn (u : Linkage) : Drawn u fun names => pushConstant (u.named names) := by
  have same : ∀ names, (u.named names).globals = u.globals := fun _ => rfl
  simp only [pushConstant, same]
  cases declared : u.globals.pushConstant with
  | none => exact .of_ok (.const "")
  | some p =>
    exact (blockMembers_drawn (.pushConstant declared) _).bind fun _ draft => .of_ok (block_draft draft _ _ _)

theorem blocks_drawn (u : Linkage) : Drawn u fun names => blocks (u.named names) := by
  refine .bind (each_drawn (u := u) (t := u.globals.uniforms) fun n v declared => ?_) fun uniforms draft =>
    .bind (each_drawn (u := u) (t := u.globals.buffers) fun n v declared => ?_) fun buffers draft' =>
      .of_ok (draft.append draft')
  · exact (blockMembers_drawn (.uniform declared) none).bind fun _ draft => .of_ok (block_draft draft _ _ _)
  · exact (blockMembers_drawn (.buffer declared) none).bind fun _ draft => .of_ok (block_draft draft _ _ _)

theorem resources_drawn (u : Linkage) : Drawn u fun names => resources (u.named names) := by
  refine .bind (each_drawn (u := u) (t := u.globals.shared) fun n v declared => ?_) fun shared draft =>
    .bind (each_drawn (u := u) (t := u.globals.samplers) fun n v _ => ?_) fun samplers draft' =>
      .bind (each_drawn (u := u) (t := u.globals.images) fun n v _ => ?_) fun images draft'' =>
        .of_ok ((draft.append draft').append draft'')
  · exact (declarator_drawn (.shared declared) _).bind fun _ draft => .of_ok (draft.between _ _)
  · exact .of_ok (.const _)
  · exact .of_ok (.const _)

theorem special_drawn {g : Global} {v : SpecialGlobal} (declared : u.globals.special[g]? = some v) :
    Drawn u fun names => special (u.named names) g v := by
  have typed : (∀ n, g ≠ .special .accelerationStructure n) →
      ∀ (head : String), Drawn u fun names => declarator (u.named names) v.ty g.name >>= fun text =>
        pure (head ++ text ++ ";\n") := fun other head =>
    (declarator_drawn (.special declared other) _).bind fun _ draft => .of_ok (draft.between _ _)
  cases g with
  | special kind n =>
    cases kind with
    | accelerationStructure =>
      refine (declarator_uniform (P := fun _ => True) (fun _ _ _ => trivial) _).bind fun _ _ => ?_
      exact .of_ok (.const _)
    | rayPayload => exact typed nofun ("layout(location = " ++ toString n ++ ") rayPayloadEXT ")
    | rayPayloadIn => exact typed nofun ("layout(location = " ++ toString n ++ ") rayPayloadInEXT ")
    | hitAttribute => exact typed nofun "hitAttributeEXT "
    | taskPayload => exact typed nofun "taskPayloadSharedEXT "
  | _ => exact typed nofun "taskPayloadSharedEXT "

theorem globals_drawn (u : Linkage) : Drawn u fun names => globals (u.named names) := by
  have specials : Uniform (Each (Draft (Mentioned u))) fun names =>
      u.globals.special.toList.mapM fun p => special (u.named names) p.1 p.2 :=
    .mapM fun _ member => special_drawn (Std.ExtTreeMap.mem_toList_iff_getElem?_eq_some.1 member)
  exact (layoutVariables_drawn u).bind fun _ layout => (pushConstant_drawn u).bind fun _ push =>
    (blocks_drawn u).bind fun _ blocks => (resources_drawn u).bind fun _ resources => specials.bind fun _ drafts =>
      .of_ok ((((layout.append push).append blocks).append resources).append (.join drafts))

end

end ShaderForge.Glsl
