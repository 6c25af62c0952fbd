import ShaderForge.Proofs.Linkage.Closure
import ShaderForge.Proofs.Linkage.Globals
import ShaderForge.Source.Cpp

/-!
Resources as parameters. A function is passed every global that it or a callee names, so its body
names nothing else; a call hands on exactly what the callee's signature ends with.
-/

namespace ShaderForge

namespace Statement

variable {s : Scope} {text : String}

theorem Scope.symbol_ok_iff {id : FunctionId} : s.symbol id = .ok text ↔ s.unit.symbol? id = some text := by
  unfold Scope.symbol
  split
  · rename_i found
    rw [found, Option.some.injEq]
    exact ⟨Except.ok.inj, congrArg Except.ok⟩
  · rename_i missing
    rw [missing]
    exact ⟨nofun, nofun⟩

theorem signature_ok (signed : signature s = .ok text) :
    ∃ returns symbol own extra, s.unit.symbol? s.function.id = some symbol ∧
      own.length = s.function.parameters.length ∧
      s.dialect.extraParameters s.unit s.function.id = .ok extra ∧
      text = returns ++ " " ++ symbol ++ "(" ++ ", ".intercalate (own ++ extra) ++ ")" := by
  unfold signature at signed
  obtain ⟨returns, _, signed⟩ := Except.bind_ok signed
  obtain ⟨symbol, named, signed⟩ := Except.bind_ok signed
  obtain ⟨own, each, signed⟩ := Except.bind_ok signed
  obtain ⟨extra, passed, signed⟩ := Except.bind_ok signed
  exact ⟨returns, symbol, own, extra, Scope.symbol_ok_iff.1 named, (Except.mapM_ok_iff.1 each).length_eq.symm, passed,
    (Except.ok.inj signed).symm⟩

end Statement

namespace Cpp

open Buffer Linkage Statement

variable {u : Linkage} {f : Function} {names others : Global → String} {locals : IndexMap String}
  {p q : Printers} {print print' : Index → Printed} {i : Index}

def scope (u : Linkage) (f : Function) (names : Global → String) (locals : IndexMap String) : Scope :=
  { unit := u, function := f, dialect := spelled names, locals }

/-- Names that agree on whatever a function may print. -/
structure Agreeing (u : Linkage) (f : Function) (names others : Global → String) : Prop where
  closed : f.buffer.UseClosed (· ∈ visibleAtoms f.buffer)
  named : ∀ i, Shown f i → ∀ g, Global.resolve? f.buffer i = some g → names g = others g
  called : ∀ (n : Nat) callee ty args, f.buffer.atoms[n]? = some (Atom.call callee ty args) →
    ∀ g ∈ resources u callee, names g = others g

/-- Printers that agree on what a function may print. -/
def Alike (f : Function) (p q : Printers) : Prop :=
  ∀ i, Shown f i → p.value i = q.value i ∧ p.place i = q.place i

namespace Agreeing

theorem qualifier (agreeing : Agreeing u f names others) (shown : Shown f i) (kind : Qualifier) (number : Int32) :
    (scope u f names locals).qualifier i kind number = (scope u f others locals).qualifier i kind number := by
  unfold Scope.qualifier
  split
  · rfl
  · have same : Global.resolve? (scope u f others locals).buffer i = Global.resolve? (scope u f names locals).buffer i :=
      rfl
    rw [same]
    cases found : Global.resolve? (scope u f names locals).buffer i with
    | none => rfl
    | some g =>
      have name : (scope u f names locals).dialect.global g = (scope u f others locals).dialect.global g :=
        agreeing.named i shown g found
      simp only [name]
      rfl

theorem construct (agreeing : Agreeing u f names others) (alike : Alike f p q) {ty args : Index}
    (type : Shown f ty) (given : Shown f args) (mode : Mode) :
    (scope u f names locals).construct p i ty args mode = (scope u f others locals).construct q i ty args mode := by
  unfold Scope.construct
  show (if (scope u f names locals).isPlaceholder ty mode = true then _ else _) =
    (if (scope u f names locals).isPlaceholder ty mode = true then _ else _)
  split
  · exact (alike ty type).1
  · refine Except.bind_congr fun own _ => Except.bind_congr fun resolved _ => Except.bind_congr fun name _ =>
      Except.bind_congr fun items listed => ?_
    have each : ∀ item ∈ items, p.value item = q.value item := fun item member =>
      (alike item (given.items listed agreeing.closed item member)).1
    rw [Except.mapM_congr (List.forall₂_same.2 each)]
    rfl

theorem operandText (alike : ∀ j, Shown f j → print j = print' j) (shown : Shown f i) :
    (scope u f names locals).operand print i = (scope u f others locals).operand print' i := by
  unfold Scope.operand
  rw [alike i shown]
  rfl

theorem load (alike : ∀ j, Shown f j → print j = print' j) (shown : Shown f i) (field : Int32) :
    (scope u f names locals).load print i field = (scope u f others locals).load print' i field := by
  unfold Scope.load
  rw [operandText alike shown]
  rfl

theorem callArguments (alike : Alike f p q) (parameters : List Ty) {items : List Index}
    (shown : ∀ item ∈ items, Shown f item) :
    Scope.callArguments p parameters items = Scope.callArguments q parameters items := by
  induction items generalizing parameters with
  | nil => rfl
  | cons item rest ih =>
    obtain ⟨value, place⟩ := alike item (shown item List.mem_cons_self)
    rw [Scope.callArguments, Scope.callArguments, value, place,
      ih parameters.tail fun other member => shown other (List.mem_cons_of_mem _ member)]

theorem call (agreeing : Agreeing u f names others) {n : Nat} {callee : FunctionId} {ty args : Index}
    (found : f.buffer.atoms[n]? = some (Atom.call callee ty args)) (symbol : String) (texts : List String) :
    (spelled names).call u callee symbol texts = (spelled others).call u callee symbol texts := by
  show symbol ++ "(" ++ ", ".intercalate (texts ++ (resources u callee).map names) ++ ")" = _
  rw [List.map_congr_left fun g member => agreeing.called n callee ty args found g member]
  rfl

theorem expression (agreeing : Agreeing u f names others) (alike : Alike f p q) (shown : Shown f i) :
    (scope u f names locals).expression p i = (scope u f others locals).expression q i := by
  refine Except.bind_congr fun a held => ?_
  obtain ⟨n, rfl, found⟩ := atom_found held
  have first : Shown f a.addresses.1 := shown.operand agreeing.closed found (Or.inl rfl)
  cases a with
  | qualifier _ kind number => exact agreeing.qualifier shown kind number
  | literal value => rfl
  | swizzle src code =>
    simp only [(alike src first).1]
    rfl
  | operation code a b =>
    have second : Shown f b := shown.operand agreeing.closed found (Or.inr ⟨rfl, rfl⟩)
    simp only [(alike a first).1, (alike b second).1]
    rfl
  | intrinsic code args =>
    refine Except.bind_congr fun items listed => ?_
    have each : ∀ item ∈ items, p.value item = q.value item := fun item member =>
      (alike item (first.items listed agreeing.closed item member)).1
    rw [Except.mapM_congr (List.forall₂_same.2 each)]
    rfl
  | construct ty args mode =>
    exact agreeing.construct alike first (shown.operand agreeing.closed found (Or.inr ⟨rfl, rfl⟩)) mode
  | call callee ty args =>
    have given : Shown f args := shown.operand agreeing.closed found (Or.inr ⟨rfl, rfl⟩)
    refine Except.bind_congr fun items listed => ?_
    rw [callArguments alike _ (given.items listed agreeing.closed)]
    refine Except.bind_congr fun texts _ => Except.bind_congr fun symbol _ => ?_
    exact congrArg Except.ok (agreeing.call found symbol texts)
  | load src field => exact load (fun j inside => (alike j inside).1) first field
  | access src loc =>
    have second : Shown f loc := shown.operand agreeing.closed found (Or.inr ⟨rfl, rfl⟩)
    have base : (scope u f names locals).operand p.value src = (scope u f others locals).operand q.value src :=
      operandText (fun j inside => (alike j inside).1) first
    simp only [base, (alike loc second).1]
  | _ => rfl

theorem valueOf (agreeing : Agreeing u f names others) (alike : Alike f p q) (shown : Shown f i) :
    (scope u f names locals).valueOf p i = (scope u f others locals).valueOf q i := by
  unfold Scope.valueOf
  rw [agreeing.expression alike shown]
  rfl

theorem placeOf (agreeing : Agreeing u f names others) (alike : Alike f p q) (shown : Shown f i) :
    (scope u f names locals).placeOf p i = (scope u f others locals).placeOf q i := by
  refine Except.bind_congr fun a held => ?_
  obtain ⟨n, rfl, found⟩ := atom_found held
  have first : Shown f a.addresses.1 := shown.operand agreeing.closed found (Or.inl rfl)
  cases a with
  | swizzle src code =>
    simp only [(alike src first).2]
    rfl
  | load src field => exact load (fun j inside => (alike j inside).2) first field
  | access src loc =>
    have second : Shown f loc := shown.operand agreeing.closed found (Or.inr ⟨rfl, rfl⟩)
    have base : (scope u f names locals).operand p.place src = (scope u f others locals).operand q.place src :=
      operandText (fun j inside => (alike j inside).2) first
    simp only [base, (alike loc second).1]
  | construct ty args mode =>
    simp only [(alike ty first).2, agreeing.valueOf alike shown]
    rfl
  | _ => exact agreeing.valueOf alike shown

theorem printers (agreeing : Agreeing u f names others) (depth : Nat) :
    Alike f ((scope u f names locals).printers depth) ((scope u f others locals).printers depth) := by
  induction depth with
  | zero => exact fun i _ => ⟨rfl, rfl⟩
  | succ depth ih => exact fun i shown => ⟨agreeing.valueOf ih shown, agreeing.placeOf ih shown⟩

theorem value (agreeing : Agreeing u f names others) (shown : Shown f i) :
    (scope u f names locals).value i = (scope u f others locals).value i :=
  (agreeing.printers _ i shown).1

theorem place (agreeing : Agreeing u f names others) (shown : Shown f i) :
    (scope u f names locals).place i = (scope u f others locals).place i :=
  (agreeing.printers _ i shown).2

theorem fresh (agreeing : Agreeing u f names others) (shown : Shown f i) :
    (scope u f names locals).fresh i = (scope u f others locals).fresh i :=
  agreeing.expression (agreeing.printers _) shown

theorem bindLocal (agreeing : Agreeing u f names others) (st : State) (shown : Shown f i) :
    Statement.bindLocal (scope u f names locals) st i = Statement.bindLocal (scope u f others locals) st i := by
  unfold Statement.bindLocal
  rw [agreeing.fresh shown]
  rfl

theorem effect (agreeing : Agreeing u f names others) (st : State) (shown : Shown f i) :
    Statement.effect (scope u f names locals) st i = Statement.effect (scope u f others locals) st i := by
  unfold Statement.effect
  rw [agreeing.fresh shown, agreeing.bindLocal st shown]
  rfl

theorem branch (agreeing : Agreeing u f names others) (st : State) (kind : BranchKind) {cond : Index}
    (shown : Shown f cond) :
    Statement.branch (scope u f names locals) st i kind cond =
      Statement.branch (scope u f others locals) st i kind cond := by
  unfold Statement.branch
  rw [agreeing.value shown]
  rfl

theorem statement (agreeing : Agreeing u f names others) (st : State) (shown : Shown f i) :
    Statement.statement (scope u f names locals) st i = Statement.statement (scope u f others locals) st i := by
  refine Except.bind_congr fun a held => ?_
  obtain ⟨n, rfl, found⟩ := atom_found held
  have first : Shown f a.addresses.1 := shown.operand agreeing.closed found (Or.inl rfl)
  cases a with
  | qualifier | type | list => rfl
  | store dst src =>
    have second : Shown f src := shown.operand agreeing.closed found (Or.inr ⟨rfl, rfl⟩)
    show (do
      let target ← (scope u f names st.locals).place dst
      return st.line (target ++ " = " ++ (← (scope u f names st.locals).value src) ++ ";")) = _
    rw [agreeing.place (i := dst) first, agreeing.value second]
    rfl
  | ret value =>
    cases value with
    | null => rfl
    | ref k =>
      show (do return st.line ("return " ++ (← (scope u f names st.locals).value (.ref k)) ++ ";")) = _
      rw [agreeing.value (i := .ref k) first]
      rfl
  | branch kind cond _ => exact agreeing.branch st kind first
  | intrinsic code args =>
    simp only
    split
    · rfl
    · exact agreeing.effect st shown
  | call => exact agreeing.effect st shown
  | construct ty args mode =>
    cases mode with
    | transient => rfl
    | normal =>
      cases args with
      | null =>
        refine Except.bind_congr fun own _ => ?_
        split
        · exact agreeing.bindLocal st shown
        · rfl
      | ref k => exact agreeing.bindLocal st shown
  | _ => exact agreeing.bindLocal st shown

theorem body (agreeing : Agreeing u f names others) :
    Statement.body (scope u f names locals) = Statement.body (scope u f others locals) := by
  have each : ∀ st, ∀ i ∈ f.buffer.marked.toList,
      Statement.statement (scope u f names locals) st i = Statement.statement (scope u f others locals) st i :=
    fun st i member => agreeing.statement st
      (Or.inr (mem_visibleAtoms_of_marked (Std.ExtTreeSet.mem_toList.1 member)))
  unfold Statement.body statements
  rw [show (scope u f names locals).buffer.marked.toList.foldlM (Statement.statement (scope u f names locals)) {} =
    (scope u f others locals).buffer.marked.toList.foldlM (Statement.statement (scope u f others locals)) {} from
      Except.foldlM_congr each {}]
  rfl

end Agreeing

/-! ### The resources of a linked function -/

theorem mem_resources {id : FunctionId} {g : Global} : g ∈ resources u id ↔ g ∈ u.globalsUsed id :=
  Std.ExtTreeSet.mem_toList

/-- Through its wrappers, a qualifier names what a qualifier that it uses declares. -/
theorem names_of_resolve (closed : f.buffer.UseClosed (· ∈ visibleAtoms f.buffer)) {g : Global}
    (shown : i ∈ visibleAtoms f.buffer) (resolved : Global.resolve? f.buffer i = some g) :
    ∃ j ∈ visibleAtoms f.buffer, Names f j g := by
  unfold Global.resolve? at resolved
  generalize f.buffer.size + 1 = fuel at resolved
  induction fuel generalizing i with
  | zero => cases resolved
  | succ fuel ih =>
    rw [Global.resolveFrom] at resolved
    split at resolved
    · rename_i underlying kind number found
      split at resolved
      · cases i with
        | null => cases found
        | ref n =>
          cases underlying with
          | null => cases fuel <;> cases resolved
          | ref k =>
            exact ih (closed n _ shown found _ (Atom.mem_operands.2 ⟨rfl, Or.inl rfl⟩)) resolved
      · exact ⟨i, shown, underlying, kind, number, found, resolved⟩
    · cases resolved

/-- Answers that do not fail for a missing declaration. -/
def Supplied {α : Type} (x : Except TargetFault α) : Prop := ∀ g, x ≠ .error (.other (.undeclared g))

namespace Supplied

variable {α β : Type}

theorem of_ok (a : α) : Supplied (.ok a) := nofun

theorem of_bind {x : Except TargetFault α} {h : α → Except TargetFault β} (first : Supplied x)
    (later : ∀ a, Supplied (h a)) : Supplied (x >>= h) := by
  intro g failed
  cases x with
  | error e => exact first g (Except.error.inj failed ▸ rfl)
  | ok a => exact later a g failed

theorem of_mapM {h : α → Except TargetFault β} {items : List α} (each : ∀ x ∈ items, Supplied (h x)) :
    Supplied (items.mapM h) := by
  induction items with
  | nil => exact of_ok []
  | cons x rest ih =>
    rw [List.mapM_cons]
    exact of_bind (each x List.mem_cons_self) fun _ =>
      of_bind (ih fun y member => each y (List.mem_cons_of_mem x member)) fun _ => of_ok _

theorem of_dataName (d : LinkedData) : Supplied (plain.dataName u d) := by
  intro g failed
  cases d with
  | prim => cases failed
  | aggregate n =>
    simp only [Dialect.dataName] at failed
    split at failed <;> cases failed

theorem of_typeName (ty : LinkedTy) : Supplied (plain.typeName u ty) := by
  cases ty with
  | nil => exact of_ok _
  | data base => exact of_dataName base
  | array | reference => exact of_bind (of_dataName _) fun _ => of_ok _
  | image | sampler => exact nofun

theorem of_globalType {g : Global} (declared : u.globals.Declares g) : Supplied (globalType u g) := by
  have entry : ∀ {α : Type} {ty : α → LinkedTy} {found : Option α}, found.isSome →
      Supplied (Cpp.declared g ty found) := by
    intro α ty found present
    obtain ⟨a, rfl⟩ := Option.isSome_iff_exists.1 present
    exact of_ok _
  cases g with
  | special kind n =>
    cases kind with
    | accelerationStructure => exact of_ok _
    | _ => exact entry (Std.ExtTreeMap.mem_iff_isSome_getElem?.1 declared)
  | pushConstant => exact entry declared
  | builtin => exact of_ok _
  | sampler | image => exact nofun
  | _ => exact entry (Std.ExtTreeMap.mem_iff_isSome_getElem?.1 declared)

theorem of_resourceParameter {g : Global} (declared : u.globals.Declares g) (name : String) :
    Supplied (resourceParameter u g name) := by
  refine of_bind (of_globalType declared) fun ty => ?_
  split
  · split
    · exact of_bind (of_dataName _) fun _ => of_ok _
    · exact of_bind (of_typeName _) fun _ => of_ok _
  · exact of_bind (of_typeName _) fun _ => of_ok _

end Supplied

/-- A parameter for a resource, passed by reference or as a pointer under its name. -/
def Carries (g : Global) (parameter : String) : Prop :=
  ∃ ty, parameter = ty ++ " &" ++ g.name ∨ parameter = ty ++ " *" ++ g.name

theorem resourceParameter_carries {g : Global} {parameter : String}
    (made : resourceParameter u g g.name = .ok parameter) : Carries g parameter := by
  unfold resourceParameter at made
  obtain ⟨ty, _, made⟩ := Except.bind_ok made
  split at made
  · split at made
    · obtain ⟨name, _, made⟩ := Except.bind_ok made
      exact ⟨name, Or.inr (Except.ok.inj made).symm⟩
    · obtain ⟨name, _, made⟩ := Except.bind_ok made
      exact ⟨name, Or.inl (Except.ok.inj made).symm⟩
  · obtain ⟨name, _, made⟩ := Except.bind_ok made
    exact ⟨name, Or.inl (Except.ok.inj made).symm⟩

/-- The signature of a function: its own parameters, then one for each resource. -/
def Signed (u : Linkage) (f : Function) (symbol : String) : Prop :=
  ∃ returns own extra, own.length = f.parameters.length ∧ List.Forall₂ Carries (resources u f.id) extra ∧
    Statement.signature (scope u f Global.name ∅) =
      .ok (returns ++ " " ++ symbol ++ "(" ++ ", ".intercalate (own ++ extra) ++ ")")

theorem signed_of_signature {text : String} (signature : Statement.signature (scope u f Global.name ∅) = .ok text) :
    ∃ symbol, u.symbol? f.id = some symbol ∧ Signed u f symbol := by
  obtain ⟨returns, symbol, own, extra, named, counted, passed, rfl⟩ := signature_ok signature
  have carried := (Except.mapM_ok_iff.1 passed).imp fun _ _ made => resourceParameter_carries made
  exact ⟨symbol, named, returns, own, extra, counted, carried, signature⟩

theorem exists_signature {text : String} (generated : generate u = .ok text) (member : f ∈ u.functions) :
    ∃ text, Statement.signature (scope u f Global.name ∅) = .ok text := by
  unfold generate at generated
  obtain ⟨_, _, generated⟩ := Except.bind_ok generated
  obtain ⟨_, defined, _⟩ := Except.bind_ok generated
  obtain ⟨texts, each, _⟩ := Except.bind_ok defined
  obtain ⟨_, one⟩ := Except.mapM_each each f member
  obtain ⟨_, whole, _⟩ := Except.bind_ok one
  obtain ⟨signature, signed, _⟩ := Except.bind_ok whole
  exact ⟨signature, signed⟩

theorem length_of_callArguments {parameters : List Ty} {items : List Index} {texts : List String}
    (printed : Scope.callArguments p parameters items = .ok texts) : texts.length = items.length := by
  induction items generalizing parameters texts with
  | nil =>
    cases printed
    rfl
  | cons item rest ih =>
    rw [Scope.callArguments] at printed
    simp only at printed
    split at printed
    all_goals
      obtain ⟨_, _, printed⟩ := Except.bind_ok printed
      obtain ⟨later, done, printed⟩ := Except.bind_ok printed
      cases printed
      rw [List.length_cons, ih done, List.length_cons]

/-- The text of a call: the arguments in the list, then the names of the callee's resources. -/
def Handed (u : Linkage) (f : Function) (n : Nat) (callee : FunctionId) (args : Index) (symbol : String) : Prop :=
  ∀ locals p text, (scope u f Global.name locals).expression p (.ref n) = .ok text →
    ∃ items own, f.buffer.expandList args = .ok items ∧ own.length = items.length ∧
      text = symbol ++ "(" ++ ", ".intercalate (own ++ (resources u callee).map Global.name) ++ ")"

theorem handed_of_call {n : Nat} {callee : FunctionId} {ty args : Index} {symbol : String}
    (found : f.buffer.atoms[n]? = some (Atom.call callee ty args)) (named : u.symbol? callee = some symbol) :
    Handed u f n callee args symbol := by
  intro locals p text printed
  unfold Scope.expression at printed
  obtain ⟨a, held, printed⟩ := Except.bind_ok printed
  obtain ⟨_, ⟨⟩, same⟩ := atom_found held
  rw [show (scope u f Global.name locals).function.buffer.atoms[n]? = _ from found, Option.some.injEq] at same
  subst same
  obtain ⟨items, listed, printed⟩ := Except.bind_ok printed
  obtain ⟨own, given, printed⟩ := Except.bind_ok printed
  obtain ⟨symbol', called, printed⟩ := Except.bind_ok printed
  refine ⟨items, own, ?_, length_of_callArguments given, ?_⟩
  · unfold Member.items at listed
    exact TargetFault.ofFault_ok_iff.1 listed
  · obtain rfl : symbol = symbol' := Option.some.inj (named.symm.trans (Scope.symbol_ok_iff.1 called))
    exact (Except.ok.inj printed).symm

/-- Resources as a function of a unit has them. -/
structure Threaded (u : Linkage) (f : Function) : Prop where
  /-- What a printed qualifier stands for, through its wrappers, is a resource. -/
  named : ∀ i ∈ visibleAtoms f.buffer, ∀ g, Global.resolve? f.buffer i = some g → g ∈ resources u f.id
  /-- The body names nothing else: under other names for all else it reads the same. -/
  confined : ∀ names, (∀ g ∈ resources u f.id, names g = g.name) →
    Statement.body (scope u f names ∅) = Statement.body (scope u f Global.name ∅)
  /-- The signature ends with a parameter for each resource. -/
  signed : ∃ symbol, Signed u f symbol
  /-- A call hands on the callee's resources, in the order of its parameters, and has them all. -/
  calls : ∀ (n : Nat) callee ty args, f.buffer.atoms[n]? = some (Atom.call callee ty args) →
    ∃ g symbol, g ∈ u.functions ∧ g.id = callee ∧ Signed u g symbol ∧ Handed u f n g.id args symbol ∧
      ∀ h ∈ resources u g.id, h ∈ resources u f.id

variable {r : Registry} {entries : List FunctionId}

theorem calls_of_linked (linked : Linked r entries u) (member : f ∈ u.functions) {n : Nat} {callee : FunctionId}
    {ty args : Index} (found : f.buffer.atoms[n]? = some (Atom.call callee ty args)) :
    u.dependencies.Calls f.id callee ∧ ∃ g ∈ u.functions, g.id = callee := by
  obtain ⟨raw, registered, preparing, _⟩ := linked.records.prepared f member
  have atoms := (Function.prepared_of_prepare preparing).2.2.2
  have known : f.id ∈ u.dependencies := (linked.records.known f.id).2 (List.mem_map_of_mem member)
  have call : u.dependencies.Calls f.id callee :=
    (linked.records.calls _ _).2 ⟨known, (Registry.calls_iff registered).2 ⟨n, ty, args, atoms ▸ found⟩⟩
  obtain ⟨g, listed, same⟩ := List.mem_map.1 ((linked.records.known callee).1 (linked.settled.closed _ _ call))
  exact ⟨call, g, listed, same⟩

theorem threaded_of_linked (linked : Linked r entries u) {text : String} (generated : generate u = .ok text)
    (member : f ∈ u.functions) : Threaded u f := by
  have closed : f.buffer.UseClosed (· ∈ visibleAtoms f.buffer) :=
    visibleAtoms_useClosed (linked.made.coherent.placed f member).prepared.backward
  have named : ∀ i ∈ visibleAtoms f.buffer, ∀ g, Global.resolve? f.buffer i = some g → g ∈ resources u f.id := by
    intro i shown g resolved
    obtain ⟨j, shown, names⟩ := names_of_resolve closed shown resolved
    exact mem_resources.2 (linked.made.tabled.used_of_names member shown names)
  have handed : ∀ {n : Nat} {callee : FunctionId} {ty args : Index},
      f.buffer.atoms[n]? = some (Atom.call callee ty args) → ∀ g ∈ resources u callee, g ∈ resources u f.id := by
    intro n callee ty args found g used
    exact mem_resources.2 (globalsUsed_subset (calls_of_linked linked member found).1 (mem_resources.1 used))
  refine ⟨named, fun names same => ?_, ?_, fun n callee ty args found => ?_⟩
  · refine Agreeing.body ⟨closed, fun i shown g resolved => ?_, fun n callee ty args found g used => ?_⟩
    · rcases shown with rfl | shown
      · cases resolved
      · exact same g (named i shown g resolved)
    · exact same g (handed found g used)
  · obtain ⟨_, signature⟩ := exists_signature generated member
    obtain ⟨symbol, _, signed⟩ := signed_of_signature signature
    exact ⟨symbol, signed⟩
  · obtain ⟨_, g, listed, rfl⟩ := calls_of_linked linked member found
    obtain ⟨_, signature⟩ := exists_signature generated listed
    obtain ⟨symbol, known, signed⟩ := signed_of_signature signature
    exact ⟨g, symbol, listed, rfl, signed, handed_of_call found known, handed found⟩

/-- Resources are in scope wherever they are named. Every global that a function of a linked unit uses is
declared, so no parameter for it is missing; and where the source can be printed, a body names only
parameters of its own function, and a call passes what the callee's signature ends with. -/
theorem resources_threaded (linked : link r entries = .ok u) :
    (∀ f ∈ u.functions, (∀ g ∈ u.globalsUsed f.id, u.globals.Declares g) ∧
      ∀ g, dialect.extraParameters u f.id ≠ .error (.other (.undeclared g))) ∧
    ∀ text, generate u = .ok text → ∀ f ∈ u.functions, Threaded u f := by
  have linked := linked_of_link linked
  have declared : ∀ (id : FunctionId), ∀ g ∈ u.globalsUsed id, u.globals.Declares g :=
    fun id g used => linked.made.tabled.declares_of_used used
  refine ⟨fun f _ => ⟨declared f.id, ?_⟩, fun text generated f member => threaded_of_linked linked generated member⟩
  exact Supplied.of_mapM fun g used => .of_resourceParameter (declared f.id g (mem_resources.1 used)) _

/-- One function reads a block through a modifier, another only calls it. -/
def levels : Registry :=
  let level := Buffer.ofContent [.type .f32 .null .null, .qualifier (.ref 0) .storageBuffer 3,
    .qualifier (.ref 1) .readOnly 0, .load (.ref 2) (-1), .ret (.ref 3)] [] []
  let main := Buffer.ofContent [.type .f32 .null .null, .call 0 (.ref 0) .null, .ret (.ref 1)] [] []
  ((Registry.empty.register "level" level).2.register "main" main).2

theorem levels_threaded :
    ∃ u text, link levels [1] = .ok u ∧ generate u = .ok text ∧ u.functions.map (·.id) = [0, 1] ∧
      resources u 1 = [.buffer 3] ∧ u.globals.Declares (.buffer 3) ∧ ∀ f ∈ u.functions, Threaded u f := by
  have passes : ((link levels [1]).toOption.any fun u => (generate u).toOption.any fun _ =>
      decide (u.functions.map (·.id) = [0, 1] ∧ resources u 1 = [.buffer 3])) = true := by decide +kernel
  obtain ⟨u, linked, passes⟩ := (Option.any_eq_true _ _).1 passes
  obtain ⟨text, generated, passes⟩ := (Option.any_eq_true _ _).1 passes
  rw [Except.toOption_eq_some_iff] at linked generated
  obtain ⟨ids, used⟩ := of_decide_eq_true passes
  obtain ⟨declared, threaded⟩ := resources_threaded linked
  refine ⟨u, text, linked, generated, ids, used, ?_, threaded text generated⟩
  obtain ⟨f, member, same⟩ := List.mem_map.1 (ids ▸ by decide : (1 : FunctionId) ∈ u.functions.map (·.id))
  refine (declared f member).1 _ (mem_resources.1 ?_)
  rw [same, used]
  exact List.mem_singleton_self _

end Cpp

end ShaderForge
