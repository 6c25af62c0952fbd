import ShaderForge.Proofs.Linkage.Bypass
import ShaderForge.Proofs.Source.Renderings

/-!
Printing with placeholders bypassed. Every printer looks through a placeholder, except the one that
decides whether a read follows a reference: it asks what the address itself declares. Where no visible
read starts at a placeholder of a declared block reference, both functions print the same body.
-/

namespace ShaderForge

/-- The address that a read starts from. -/
def Atom.origin? : Atom → Option Index
  | load src _ | access src _ => some src
  | _ => none

/-- A reference to a declared block. A read takes it as it is, but follows a placeholder of it. -/
def Buffer.IsBlockReference (b : Buffer) (i : Index) : Prop :=
  (Global.resolve? b i).isSome ∧ ∃ ty base id, b.table i = some ty ∧ ty.bare = .reference base id

namespace Statement

open Buffer Linkage

variable {vias : FunctionId → Index → Index} {s s' : Scope} {p p' : Printers} {print print' : Index → Printed}
  {i src : Index} {ty : Ty} {st st' : State}

/-- What has no local: what is bypassed, and what is taken in its place. -/
def Unnamed (via : Index → Index) (locals : IndexMap String) : Prop :=
  ∀ i, via i ≠ i → locals[i]? = none ∧ locals[via i]? = none

/-- A function as it is printed, beside one that bypasses its placeholders. -/
structure Redirected (vias : FunctionId → Index → Index) (s s' : Scope) : Prop where
  unit : Linkage.Beside vias s.unit s'.unit
  function : s.function.Bypasses s'.function (vias s.function.id)
  typed : s.buffer.Typed
  backward : s.buffer.Backward
  dialect : s'.dialect = s.dialect
  calls : s.dialect.call s'.unit = s.dialect.call s.unit
  locals : s'.locals = s.locals
  unnamed : Unnamed (vias s.function.id) s.locals
  origins : ∀ (n : Nat) (a : Atom) (src : Index), .ref n ∈ visibleAtoms s.buffer → s.buffer.atoms[n]? = some a →
    a.origin? = some src → vias s.function.id src ≠ src → ¬ s.buffer.IsBlockReference (vias s.function.id src)

/-- Printers of which the second prints what is taken in the place of a visible address. -/
def Beside (f : Function) (via : Index → Index) (p p' : Printers) : Prop :=
  ∀ i, Shown f i → Entails (p.value i) (p'.value (via i)) ∧ Entails (p.place i) (p'.place (via i))

theorem arguments {f : Function} {via : Index → Index} (beside : Beside f via p p') (parameters : List Ty)
    {items : List Index} (shown : ∀ item ∈ items, Shown f item) :
    Entails (Scope.callArguments p parameters items) (Scope.callArguments p' parameters (items.map via)) := by
  induction items generalizing parameters with
  | nil => exact .refl _
  | cons item rest ih =>
    obtain ⟨value, place⟩ := beside item (shown item List.mem_cons_self)
    have later := ih parameters.tail fun other member => shown other (List.mem_cons_of_mem _ member)
    rw [List.map_cons, Scope.callArguments, Scope.callArguments]
    simp only
    split
    · exact Entails.bind place fun _ _ => Entails.bind later fun _ _ => .refl _
    · exact Entails.bind value fun _ _ => Entails.bind later fun _ _ => .refl _

/-! ### Qualifiers without a local -/

section

variable {underlying : Index} {kind : Qualifier} {number : Int32}

theorem valueOf_qualifier (held : s.atom i = .ok (.qualifier underlying kind number)) (unnamed : s.locals[i]? = none)
    (p : Printers) : s.valueOf p i = s.qualifier i kind number := by
  unfold Scope.valueOf Scope.expression
  rw [unnamed, held]
  rfl

theorem placeOf_qualifier (held : s.atom i = .ok (.qualifier underlying kind number)) (unnamed : s.locals[i]? = none)
    (p : Printers) : s.placeOf p i = s.qualifier i kind number := by
  unfold Scope.placeOf
  rw [held, valueOf_qualifier held unnamed]
  rfl

theorem qualifier_of_printed (held : s.atom i = .ok (.qualifier underlying kind number))
    (unnamed : s.locals[i]? = none) {depth : Nat} {text : String}
    (printed : (s.printers depth).value i = .ok text ∨ (s.printers depth).place i = .ok text) :
    s.qualifier i kind number = .ok text := by
  cases depth with
  | zero => rcases printed with printed | printed <;> cases printed
  | succ depth =>
    rcases printed with printed | printed
    · exact (valueOf_qualifier held unnamed _).symm.trans printed
    · exact (placeOf_qualifier held unnamed _).symm.trans printed

end

namespace Redirected

/-! ### Questions -/

section

variable (redirected : Redirected vias s s')
include redirected

theorem closed : s.buffer.UseClosed (· ∈ visibleAtoms s.buffer) := visibleAtoms_useClosed redirected.backward

theorem atom {a : Atom} (held : s.atom i = .ok a) : s'.atom i = .ok (a.bypass (vias s.function.id)) :=
  Member.atom_ok_iff.2 (redirected.function.buffer.get?_some (Member.atom_ok_iff.1 held))

theorem typeOf (known : s.typeOf i = .ok ty) : s'.typeOf i = .ok ty :=
  TargetFault.ofFault_ok_iff.2
    (redirected.function.buffer.typeOf redirected.function.types redirected.typed (TargetFault.ofFault_ok_iff.1 known))

theorem typeOf_bare (known : s.typeOf i = .ok ty) :
    ∃ ty', s'.typeOf (vias s.function.id i) = .ok ty' ∧ ty'.bare = ty.bare := by
  obtain ⟨ty', known', bare⟩ := redirected.function.buffer.typeOf_bare redirected.function.types redirected.typed
    (TargetFault.ofFault_ok_iff.1 known)
  exact ⟨ty', TargetFault.ofFault_ok_iff.2 known', bare⟩

theorem items {args : Index} {items : List Index} (listed : s.items args = .ok items) :
    s'.items (vias s.function.id args) = .ok (items.map (vias s.function.id)) :=
  TargetFault.ofFault_ok_iff.2 (redirected.function.buffer.expandList (TargetFault.ofFault_ok_iff.1 listed))

theorem struct (known : s.typeOf i = .ok ty) {head : Index} (carried : ty.struct? = some head) :
    vias s.function.id head = head :=
  redirected.function.fixed_struct redirected.typed redirected.backward (TargetFault.ofFault_ok_iff.1 known) carried

theorem aggregate {head : Index} (fixed : vias s.function.id head = head) :
    Entails (s.aggregate head) (s'.aggregate head) := by
  intro n found
  unfold Member.aggregate at found ⊢
  rw [redirected.function.id, TargetFault.ofLink_ok_iff]
  exact redirected.unit.aggregateIndex fixed (TargetFault.ofLink_ok_iff.1 found)

theorem resolve (known : s.typeOf i = .ok ty) : Entails (s.resolve ty) (s'.resolve ty) := by
  intro linked found
  unfold Member.resolve at found ⊢
  rw [redirected.function.id, TargetFault.ofLink_ok_iff]
  exact redirected.unit.resolve (fun _ carried => redirected.struct known carried) (TargetFault.ofLink_ok_iff.1 found)

theorem typeName (linked : LinkedTy) :
    s'.dialect.typeName s'.unit linked = s.dialect.typeName s.unit linked := by
  unfold Dialect.typeName Dialect.dataName
  rw [redirected.dialect, redirected.unit.aggregates]

theorem localType (known : s.typeOf i = .ok ty) : Entails (s.localType ty) (s'.localType ty) := by
  unfold Scope.localType
  refine Entails.bind (redirected.resolve known) fun linked _ => ?_
  rw [redirected.typeName]
  exact .refl _

theorem isPhantomData (known : s.typeOf i = .ok ty) {base : Data}
    (shape : ty.bare = .data base ∨ ∃ id, ty.bare = .reference base id) :
    Entails (s.isPhantomData base) (s'.isPhantomData base) := by
  cases base with
  | prim => exact .refl _
  | struct head =>
    have carried : ty.struct? = some head := by
      unfold Ty.struct?
      obtain shape | ⟨id, shape⟩ := shape <;> rw [shape]
    refine Entails.bind (redirected.aggregate (redirected.struct known carried)) fun n _ => ?_
    rw [redirected.unit.aggregates]
    exact .refl _

theorem symbol (callee : FunctionId) : s'.symbol callee = s.symbol callee := by
  unfold Scope.symbol
  rw [redirected.unit.paired.symbol? bypasses_alike]

theorem parameters (callee : FunctionId) :
    (s'.unit.function? callee).map Function.args = (s.unit.function? callee).map Function.args := by
  have both := redirected.unit.paired.function? bypasses_alike callee
  cases found : s.unit.function? callee with
  | none => rw [redirected.unit.paired.function?_none bypasses_alike found]
  | some f =>
    obtain ⟨f', found', bypasses⟩ := redirected.unit.paired.function?_some bypasses_alike found
    rw [found', Option.map_some, Option.map_some, bypasses.args]

theorem isPlaceholder (ty : Index) (mode : Mode) : s'.isPlaceholder ty mode = s.isPlaceholder ty mode := by
  unfold Member.isPlaceholder
  have same : s'.buffer.get? ty = (s.buffer.get? ty).map (·.bypass (vias s.function.id)) :=
    redirected.function.buffer.get? ty
  rw [same]
  cases s.buffer.get? ty with
  | none => rfl
  | some a => cases a <;> rfl

theorem global (i : Index) : Global.resolve? s'.buffer i = Global.resolve? s.buffer i :=
  redirected.function.buffer.resolve? i

/-! ### Expressions -/

theorem qualifier (i : Index) (kind : Qualifier) (number : Int32) :
    Entails (s.qualifier i kind number) (s'.qualifier i kind number) := by
  unfold Scope.qualifier
  split
  · exact .refl _
  · simp only
    rw [redirected.global, redirected.dialect]
    cases Global.resolve? s.buffer i with
    | none => exact .of_error _ _
    | some g =>
      cases g with
      | uniform | buffer | pushConstant =>
        refine Entails.bind (fun ty => redirected.typeOf) fun ty known => ?_
        cases shape : ty.bare with
        | data base => exact Entails.bind (redirected.isPhantomData known (Or.inl shape)) fun _ _ => .refl _
        | reference base id =>
          exact Entails.bind (redirected.isPhantomData known (Or.inr ⟨id, shape⟩)) fun _ _ => .refl _
        | _ => exact .refl _
      | _ => exact .refl _

/-- Both sides follow a reference, or neither does, unless a placeholder of a declared block is read. -/
theorem follows (plain : vias s.function.id src ≠ src → ¬ s.buffer.IsBlockReference (vias s.function.id src))
    (known : s.typeOf src = .ok ty) {base : Data} {id : Int32} (shape : ty.bare = .reference base id) :
    (Global.resolve? s'.buffer (vias s.function.id src)).isNone = (Global.resolve? s.buffer src).isNone := by
  rw [redirected.global]
  by_cases moved : vias s.function.id src = src
  · rw [moved]
  · -- a placeholder declares nothing, so its qualifier must not either
    obtain ⟨_, _, _, construct, _⟩ := redirected.function.buffer.placeholder src moved
    have here : Global.resolve? s.buffer src = none := by
      unfold Global.resolve? Global.resolveFrom
      rw [show s.buffer.get? src = _ from construct]
    have there : Global.resolve? s.buffer (vias s.function.id src) = none := by
      cases found : Global.resolve? s.buffer (vias s.function.id src) with
      | none => rfl
      | some g =>
        obtain ⟨own, source, stands⟩ := redirected.function.buffer.typed_placeholder redirected.typed moved
        have told := redirected.typed.typeOf_ok_iff.1 (TargetFault.ofFault_ok_iff.1 known)
        rw [show s.buffer.table src = _ from stands, Option.some.injEq] at told
        refine (plain moved ⟨by rw [found]; rfl, own, base, id, source, ?_⟩).elim
        rw [← shape, ← told, Ty.bare_bare]
    rw [here, there]

theorem operand (plain : vias s.function.id src ≠ src → ¬ s.buffer.IsBlockReference (vias s.function.id src))
    (same : Entails (print src) (print' (vias s.function.id src))) :
    Entails (s.operand print src) (s'.operand print' (vias s.function.id src)) := by
  unfold Scope.operand
  refine Entails.bind same fun text _ => ?_
  intro result printed
  obtain ⟨ty, known, printed⟩ := Except.bind_ok printed
  obtain ⟨ty', known', bare⟩ := redirected.typeOf_bare known
  rw [known', Except.ok_bind, bare]
  cases shape : ty.bare with
  | reference base id =>
    rw [shape] at printed
    simp only at printed ⊢
    rw [redirected.follows plain known shape]
    split at printed
    · rename_i free
      rw [if_pos free, redirected.dialect]
      obtain ⟨phantom, asked, printed⟩ := Except.bind_ok printed
      rw [redirected.isPhantomData known (Or.inr ⟨id, shape⟩) phantom asked]
      exact printed
    · rename_i taken
      rw [if_neg taken]
      exact printed
  | _ =>
    rw [shape] at printed
    exact printed

theorem fieldOwner (known : s.typeOf i = .ok ty) :
    vias s.function.id (Scope.fieldOwner ty.bare) = Scope.fieldOwner ty.bare := by
  have carried : ∀ head, ty.struct? = some head → vias s.function.id head = head :=
    fun _ => redirected.struct known
  unfold Ty.struct? at carried
  unfold Scope.fieldOwner
  cases shape : ty.bare with
  | data base | reference base id =>
    rw [shape] at carried
    cases base with
    | prim => exact redirected.function.buffer.null
    | struct head => exact carried head rfl
  | _ => exact redirected.function.buffer.null

theorem load (plain : vias s.function.id src ≠ src → ¬ s.buffer.IsBlockReference (vias s.function.id src))
    (same : Entails (print src) (print' (vias s.function.id src))) (field : Int32) :
    Entails (s.load print src field) (s'.load print' (vias s.function.id src) field) := by
  unfold Scope.load
  refine Entails.bind (redirected.operand plain same) fun text _ => ?_
  split
  · exact .refl _
  · intro result printed
    obtain ⟨ty, known, printed⟩ := Except.bind_ok printed
    obtain ⟨ty', known', bare⟩ := redirected.typeOf_bare known
    rw [known', Except.ok_bind, bare]
    obtain ⟨n, index, printed⟩ := Except.bind_ok printed
    rw [redirected.aggregate (redirected.fieldOwner known) n index, Except.ok_bind, redirected.unit.aggregates]
    split at printed
    · exact printed
    · cases printed

/-- A qualifier that has been taken in the place of a placeholder stands for itself. -/
theorem fixed_of_placeholder {ty : Index} {mode : Mode} (stands : s.isPlaceholder ty mode = true) :
    vias s.function.id ty = ty := by
  unfold Member.isPlaceholder at stands
  rw [Bool.and_eq_true] at stands
  have second := stands.2
  split at second
  · rename_i found
    exact redirected.function.buffer.stays found (by simp)
  · cases second

theorem values (beside : Beside s.function (vias s.function.id) p p') {args : Index} (shown : Shown s.function args)
    {k k' : List String → Printed} (later : ∀ texts, Entails (k texts) (k' texts)) :
    Entails (s.items args >>= fun items => items.mapM p.value >>= k)
      (s'.items (vias s.function.id args) >>= fun items => items.mapM p'.value >>= k') :=
  Entails.bind_along (fun _ => redirected.items) fun _ listed =>
    Entails.bind (Entails.mapM fun item member => (beside item (shown.items listed redirected.closed item member)).1)
      fun texts _ => later texts

theorem construct (beside : Beside s.function (vias s.function.id) p p') {ty args : Index} (type : Shown s.function ty)
    (given : Shown s.function args) (mode : Mode) :
    Entails (s.construct p i ty args mode) (s'.construct p' i ty (vias s.function.id args) mode) := by
  unfold Scope.construct
  rw [redirected.isPlaceholder]
  split
  · rename_i stands
    have same := (beside ty type).1
    rw [redirected.fixed_of_placeholder stands] at same
    exact same
  · refine Entails.bind (fun _ => redirected.typeOf) fun own known => Entails.bind (redirected.resolve known)
      fun linked _ => ?_
    rw [redirected.typeName]
    refine Entails.bind (.refl _) fun name _ => redirected.values beside given fun texts => ?_
    cases linked with
    | reference =>
      simp only
      split
      · rw [redirected.dialect]
        exact .refl _
      · exact .of_error _ _
    | _ =>
      rw [redirected.dialect]
      exact .refl _

theorem expression (beside : Beside s.function (vias s.function.id) p p') (fixed : vias s.function.id i = i)
    (shown : Shown s.function i) : Entails (s.expression p i) (s'.expression p' i) := by
  refine Entails.bind_along (fun _ => redirected.atom) fun a held => ?_
  obtain ⟨n, rfl, found⟩ := atom_found held
  have plain := fun src => redirected.origins n a src shown.visible found
  have first : Shown s.function a.addresses.1 := shown.operand redirected.closed found (Or.inl rfl)
  cases a with
  | qualifier _ kind number => exact redirected.qualifier _ kind number
  | literal value =>
    rw [redirected.dialect]
    exact .refl _
  | swizzle src code =>
    rw [redirected.dialect]
    exact Entails.bind (beside src first).1 fun _ _ => .refl _
  | operation code a b =>
    have second : Shown s.function b := shown.operand redirected.closed found (Or.inr ⟨rfl, rfl⟩)
    simp only [Atom.bypass, redirected.function.buffer.isNull, redirected.dialect]
    refine Entails.bind (beside a first).1 fun left _ => ?_
    split
    · exact .refl _
    · exact Entails.bind (beside b second).1 fun _ _ => .refl _
  | intrinsic code args =>
    rw [redirected.dialect]
    exact redirected.values beside first fun texts => .refl _
  | construct ty args mode =>
    exact redirected.construct beside first (shown.operand redirected.closed found (Or.inr ⟨rfl, rfl⟩)) mode
  | call callee ty args =>
    have given : Shown s.function args := shown.operand redirected.closed found (Or.inr ⟨rfl, rfl⟩)
    simp only [Atom.bypass, redirected.parameters, redirected.symbol, redirected.dialect, redirected.calls]
    exact Entails.bind_along (fun _ => redirected.items) fun items listed =>
      Entails.bind (arguments beside _ (given.items listed redirected.closed)) fun _ _ => .refl _
  | load src field => exact redirected.load (plain src rfl) (beside src first).1 field
  | access src loc =>
    have second : Shown s.function loc := shown.operand redirected.closed found (Or.inr ⟨rfl, rfl⟩)
    exact Entails.bind (redirected.operand (plain src rfl) (beside src first).1) fun _ _ =>
      Entails.bind (beside loc second).1 fun _ _ => .refl _
  | _ => exact .of_error _ _

theorem placeholder (moved : vias s.function.id i ≠ i) (depth : Nat) {text : String}
    (printed : (s.printers depth).value i = .ok text ∨ (s.printers depth).place i = .ok text) :
    ∃ underlying kind number, s.atom (vias s.function.id i) = .ok (.qualifier underlying kind number) ∧
      s.qualifier (vias s.function.id i) kind number = .ok text := by
  obtain ⟨underlying, kind, number, construct, qualifier⟩ := redirected.function.buffer.placeholder i moved
  obtain ⟨unnamed, unnamed'⟩ := redirected.unnamed i moved
  have held := Member.atom_ok_iff.2 qualifier
  have here := Member.atom_ok_iff.2 construct
  have stands : s.isPlaceholder (vias s.function.id i) .transient = true := by
    unfold Member.isPlaceholder
    rw [show s.buffer.get? (vias s.function.id i) = _ from qualifier]
    rfl
  refine ⟨underlying, kind, number, held, ?_⟩
  cases depth with
  | zero => rcases printed with printed | printed <;> cases printed
  | succ depth =>
    have inner : (s.printers depth).value (vias s.function.id i) = .ok text ∨
        (s.printers depth).place (vias s.function.id i) = .ok text := by
      refine printed.imp (fun printed => ?_) fun printed => ?_
      · change s.valueOf (s.printers depth) i = .ok text at printed
        unfold Scope.valueOf Scope.expression Scope.construct at printed
        rw [unnamed, here] at printed
        simp only [Except.ok_bind, stands] at printed
        exact printed
      · change s.placeOf (s.printers depth) i = .ok text at printed
        unfold Scope.placeOf at printed
        rw [here] at printed
        simp only [Except.ok_bind, stands] at printed
        exact printed
    exact qualifier_of_printed held unnamed' inner

theorem valueOf (beside : Beside s.function (vias s.function.id) p p') (fixed : vias s.function.id i = i)
    (shown : Shown s.function i) : Entails (s.valueOf p i) (s'.valueOf p' i) := by
  unfold Scope.valueOf
  rw [redirected.locals]
  split
  · exact .refl _
  · exact redirected.expression beside fixed shown

theorem placeOf (beside : Beside s.function (vias s.function.id) p p') (fixed : vias s.function.id i = i)
    (shown : Shown s.function i) : Entails (s.placeOf p i) (s'.placeOf p' i) := by
  refine Entails.bind_along (fun _ => redirected.atom) fun a held => ?_
  have whole := redirected.valueOf beside fixed shown
  obtain ⟨n, rfl, found⟩ := atom_found held
  have plain := fun src => redirected.origins n a src shown.visible found
  have first : Shown s.function a.addresses.1 := shown.operand redirected.closed found (Or.inl rfl)
  cases a with
  | swizzle src code =>
    rw [redirected.dialect]
    exact Entails.bind (beside src first).2 fun _ _ => .refl _
  | load src field => exact redirected.load (plain src rfl) (beside src first).2 field
  | access src loc =>
    have second : Shown s.function loc := shown.operand redirected.closed found (Or.inr ⟨rfl, rfl⟩)
    exact Entails.bind (redirected.operand (plain src rfl) (beside src first).2) fun _ _ =>
      Entails.bind (beside loc second).1 fun _ _ => .refl _
  | construct ty args mode =>
    simp only [Atom.bypass, redirected.isPlaceholder]
    split
    · rename_i stands
      have same := (beside ty first).2
      rw [redirected.fixed_of_placeholder stands] at same
      exact same
    · exact whole
  | _ => exact whole

theorem printers (depth : Nat) :
    Beside s.function (vias s.function.id) (s.printers depth) (s'.printers depth) := by
  induction depth with
  | zero => exact fun i _ => ⟨.of_error _ _, .of_error _ _⟩
  | succ depth ih =>
    intro i shown
    by_cases fixed : vias s.function.id i = i
    · rw [fixed]
      exact ⟨redirected.valueOf ih fixed shown, redirected.placeOf ih fixed shown⟩
    · -- a placeholder spends a step on its qualifier, which prints the same at any depth
      have stands : ∀ text,
          (s.printers (depth + 1)).value i = .ok text ∨ (s.printers (depth + 1)).place i = .ok text →
          (s'.printers (depth + 1)).value (vias s.function.id i) = .ok text ∧
            (s'.printers (depth + 1)).place (vias s.function.id i) = .ok text := by
        intro text printed
        obtain ⟨underlying, kind, number, held, same⟩ := redirected.placeholder fixed (depth + 1) printed
        have held' := redirected.atom held
        have unnamed' : s'.locals[vias s.function.id i]? = none := by
          rw [redirected.locals]
          exact (redirected.unnamed i fixed).2
        have same' := redirected.qualifier _ kind number text same
        exact ⟨(valueOf_qualifier held' unnamed' _).trans same', (placeOf_qualifier held' unnamed' _).trans same'⟩
      exact ⟨fun text printed => (stands text (Or.inl printed)).1,
        fun text printed => (stands text (Or.inr printed)).2⟩

/-! ### Statements -/

theorem value (shown : Shown s.function i) : Entails (s.value i) (s'.value (vias s.function.id i)) := by
  have same := (redirected.printers (s.buffer.size + 1) i shown).1
  unfold Scope.value Scope.all
  rw [show s'.buffer.size = s.buffer.size from redirected.function.buffer.size]
  exact same

theorem place (shown : Shown s.function i) : Entails (s.place i) (s'.place (vias s.function.id i)) := by
  have same := (redirected.printers (s.buffer.size + 1) i shown).2
  unfold Scope.place Scope.all
  rw [show s'.buffer.size = s.buffer.size from redirected.function.buffer.size]
  exact same

theorem fresh (fixed : vias s.function.id i = i) (shown : Shown s.function i) : Entails (s.fresh i) (s'.fresh i) := by
  unfold Scope.fresh
  rw [show s'.buffer.size = s.buffer.size from redirected.function.buffer.size]
  exact redirected.expression (redirected.printers _) fixed shown

theorem bindLocal (fixed : vias s.function.id i = i) (shown : Shown s.function i) :
    Entails (bindLocal s st i) (bindLocal s' st i) := by
  unfold Statement.bindLocal
  rw [redirected.dialect]
  exact Entails.bind (fun _ => redirected.typeOf) fun ty known => Entails.bind (redirected.localType known) fun _ _ =>
    Entails.bind (redirected.fresh fixed shown) fun _ _ => .refl _

theorem effect (fixed : vias s.function.id i = i) (shown : Shown s.function i) :
    Entails (effect s st i) (effect s' st i) := by
  unfold Statement.effect
  exact Entails.bind (fun _ => redirected.typeOf) fun ty _ =>
    Entails.ite (Entails.bind (redirected.fresh fixed shown) fun _ _ => .refl _) (redirected.bindLocal fixed shown)

theorem branch (kind : BranchKind) {cond : Index} (shown : Shown s.function cond) :
    Entails (branch s st i kind cond) (branch s' st i kind (vias s.function.id cond)) := by
  unfold Statement.branch
  simp only
  split
  · exact Entails.bind (redirected.value shown) fun _ _ => Entails.ite (.of_error _ _) (.refl _)
  · exact Entails.ite (.of_error _ _) (.refl _)

theorem later {locals : IndexMap String} (unnamed : Unnamed (vias s.function.id) locals) :
    Redirected vias { s with locals } { s' with locals } :=
  { redirected with locals := rfl, unnamed := unnamed }

theorem statement (unnamed : Unnamed (vias s.function.id) st.locals) (shown : Shown s.function i) :
    Entails (statement s st i) (statement s' st i) := by
  have here := redirected.later unnamed
  refine Entails.bind_along (fun _ => here.atom) fun a held => ?_
  obtain ⟨n, rfl, found⟩ := atom_found held
  have fixed : (∀ ty, a ≠ .construct ty .null .transient) → vias s.function.id (.ref n) = .ref n :=
    redirected.function.buffer.stays found
  have first : Shown s.function a.addresses.1 := shown.operand redirected.closed found (Or.inl rfl)
  cases a with
  | qualifier | type | list => exact .refl _
  | store dst src =>
    have second : Shown s.function src := shown.operand redirected.closed found (Or.inr ⟨rfl, rfl⟩)
    exact Entails.bind (here.place (i := dst) first) fun _ _ => Entails.bind (here.value second) fun _ _ => .refl _
  | ret value =>
    cases value with
    | null =>
      simp only [Atom.bypass, redirected.function.buffer.null]
      exact .refl _
    | ref k =>
      obtain ⟨m, place⟩ := redirected.function.buffer.exists_ref k
      have printed := here.value (i := .ref k) first
      change Entails _ (Scope.value _ (vias s.function.id (.ref k))) at printed
      rw [place] at printed
      simp only [Atom.bypass, place]
      exact Entails.bind printed fun _ _ => .refl _
  | branch kind cond _ => exact here.branch kind first
  | intrinsic code args =>
    simp only [Atom.bypass]
    split
    · exact .refl _
    · exact here.effect (fixed (by simp)) shown
  | call => exact here.effect (fixed (by simp)) shown
  | construct ty args mode =>
    cases mode with
    | transient => exact .refl _
    | normal =>
      have bound : Entails (Statement.bindLocal { s with locals := st.locals } st (.ref n))
          (Statement.bindLocal { s' with locals := st.locals } st (.ref n)) :=
        here.bindLocal (fixed (by simp)) shown
      cases args with
      | null =>
        simp only [Atom.bypass, redirected.function.buffer.null]
        refine Entails.bind (fun _ => here.typeOf) fun own known => ?_
        cases own with
        | reference => exact bound
        | _ =>
          refine Entails.bind (here.localType known) fun _ _ => ?_
          rw [redirected.dialect]
          exact .refl _
      | ref k =>
        obtain ⟨m, place⟩ := redirected.function.buffer.exists_ref k
        simp only [Atom.bypass, place]
        exact bound
  | _ => exact here.bindLocal (fixed (by simp)) shown

theorem statement_placeholder (moved : vias s.function.id i ≠ i) (printed : Statement.statement s st i = .ok st') :
    st' = st := by
  obtain ⟨_, _, _, construct, _⟩ := redirected.function.buffer.placeholder i moved
  have held := Member.atom_ok_iff.2 construct
  unfold Statement.statement at printed
  simp only [held, Except.ok_bind] at printed
  exact (Except.ok.inj printed).symm

/-- What is bypassed gets no local, and neither does what is taken in its place. -/
theorem statement_unnamed (unnamed : Unnamed (vias s.function.id) st.locals)
    (printed : Statement.statement s st i = .ok st') : Unnamed (vias s.function.id) st'.locals := by
  intro j moved
  obtain ⟨_, _, _, _, qualifier⟩ := redirected.function.buffer.placeholder j moved
  obtain ⟨free, free'⟩ := unnamed j moved
  constructor
  · by_cases own : i = j
    · subst own
      rw [redirected.statement_placeholder moved printed]
      exact free
    · rw [statement_keeps_local printed own]
      exact free
  · by_cases own : i = vias s.function.id j
    · have held := Member.atom_ok_iff.2 qualifier
      rw [← own] at held
      unfold Statement.statement at printed
      simp only [held, Except.ok_bind] at printed
      rw [← Except.ok.inj printed]
      exact free'
    · rw [statement_keeps_local printed own]
      exact free'

/-- Statements one by one; the other side leaves placeholders out. -/
theorem run {items : List Index} {keep : Index → Bool} (shown : ∀ i ∈ items, Shown s.function i)
    (skips : ∀ i ∈ items, keep i = false → vias s.function.id i ≠ i)
    (unnamed : Unnamed (vias s.function.id) st.locals) :
    Entails (items.foldlM (Statement.statement s) st) ((items.filter keep).foldlM (Statement.statement s') st) := by
  induction items generalizing st with
  | nil => exact .refl _
  | cons i rest ih =>
    have shown' := fun j member => shown j (List.mem_cons_of_mem _ member)
    have skips' := fun j member => skips j (List.mem_cons_of_mem _ member)
    rw [List.foldlM_cons, List.filter_cons]
    cases kept : keep i with
    | true =>
      rw [if_pos rfl, List.foldlM_cons]
      exact Entails.bind (redirected.statement unnamed (shown i List.mem_cons_self)) fun next printed =>
        ih shown' skips' (redirected.statement_unnamed unnamed printed)
    | false =>
      rw [if_neg Bool.false_ne_true]
      intro last printed
      obtain ⟨next, one, others⟩ := Except.bind_ok printed
      obtain rfl := redirected.statement_placeholder (skips i List.mem_cons_self kept) one
      exact ih shown' skips' unnamed last others

theorem body : Entails (Statement.body s) (Statement.body s') := by
  have marked : s'.buffer.marked.toList = s.buffer.marked.toList.filter s'.buffer.marked.contains :=
    toList_filter redirected.function.fewer
  have shown : ∀ i ∈ s.buffer.marked.toList, Shown s.function i := fun i member =>
    Or.inr (mem_visibleAtoms_of_marked (Std.ExtTreeSet.mem_toList.1 member))
  have skips : ∀ i ∈ s.buffer.marked.toList, s'.buffer.marked.contains i = false → vias s.function.id i ≠ i := by
    intro i member hidden
    rcases redirected.function.marked i (Std.ExtTreeSet.mem_toList.1 member) with kept | moved
    · have kept : s'.buffer.marked.contains i = true := Std.ExtTreeSet.contains_iff_mem.2 kept
      rw [hidden] at kept
      cases kept
    · exact moved.1
  have ran : Entails (s.buffer.marked.toList.foldlM (Statement.statement s) {})
      (s'.buffer.marked.toList.foldlM (Statement.statement s') {}) := by
    rw [marked]
    exact redirected.run shown skips fun i _ => ⟨by simp, by simp⟩
  unfold Statement.body statements
  exact Entails.bind (Entails.bind ran fun last _ => Entails.ite (.of_error _ _) (.refl _)) fun _ _ => .refl _

end

end Redirected

end Statement

end ShaderForge
