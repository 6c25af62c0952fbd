import ShaderForge.Proofs.Linkage.Visible
import ShaderForge.Source.Statement

/-!
Printing with a record. The traced printers do what the printers do and list every atom whose expression
they write out; the list never changes what is printed.
-/

namespace ShaderForge.Statement

open Buffer Linkage

/-- Printing that lists the atoms written out so far. -/
abbrev Traced := StateT (List Index) (Except TargetFault)

def announce (i : Index) : Traced PUnit := modify (· ++ [i])

/-! ### Runs with and without a record -/

section

variable {α β : Type} {P : Index → Prop} {own : List Index} {x : Traced α} {y : Except TargetFault α}

/-- A traced run that gives what the plain one gives. It lists `own`, then atoms of `P` only. -/
def Follows (own : List Index) (P : Index → Prop) (x : Traced α) (y : Except TargetFault α) : Prop :=
  ∀ seen, ∃ added, (∀ e ∈ added, P e) ∧ x.run seen = y.map fun a => (a, seen ++ own ++ added)

namespace Follows

theorem of_answer (y : Except TargetFault α) : Follows [] P (liftM y) y := by
  intro seen
  refine ⟨[], nofun, ?_⟩
  cases y with
  | error e => rfl
  | ok a => simp only [List.append_nil]; rfl

theorem of_pure (a : α) : Follows [] P (pure a) (pure a) := of_answer (pure a)

theorem bind {f : α → Traced β} {g : α → Except TargetFault β} (first : Follows own P x y)
    (later : ∀ a, y = .ok a → Follows [] P (f a) (g a)) : Follows own P (x >>= f) (y >>= g) := by
  intro seen
  obtain ⟨added, inside, run⟩ := first seen
  cases y with
  | error e =>
    refine ⟨[], nofun, ?_⟩
    rw [StateT.run_bind, run]
    rfl
  | ok a =>
    obtain ⟨more, inside', run'⟩ := later a rfl (seen ++ own ++ added)
    refine ⟨added ++ more, ?_, ?_⟩
    · intro e member
      exact (List.mem_append.1 member).elim (inside e) (inside' e)
    · rw [StateT.run_bind, run]
      simp only [List.append_nil, List.append_assoc] at run' ⊢
      exact run'

theorem answer_bind {f : α → Traced β} {g : α → Except TargetFault β}
    (later : ∀ a, y = .ok a → Follows own P (f a) (g a)) : Follows own P (liftM y >>= f) (y >>= g) := by
  intro seen
  cases y with
  | error e => exact ⟨[], nofun, rfl⟩
  | ok a => exact later a rfl seen

theorem announced (i : Index) (later : Follows [] P x y) : Follows [i] P (announce i >>= fun _ => x) y := by
  intro seen
  obtain ⟨added, inside, run⟩ := later (seen ++ [i])
  simp only [List.append_nil] at run
  exact ⟨added, inside, run⟩

theorem absorb (follows : Follows own P x y) (inside : ∀ e ∈ own, P e) : Follows [] P x y := by
  intro seen
  obtain ⟨added, inside', run⟩ := follows seen
  refine ⟨own ++ added, fun e member => (List.mem_append.1 member).elim (inside e) (inside' e), ?_⟩
  simpa only [List.append_nil, List.append_assoc] using run

theorem erases (follows : Follows own P x y) (seen : List Index) : (x.run seen).map Prod.fst = y := by
  obtain ⟨added, _, run⟩ := follows seen
  rw [run]
  cases y <;> rfl

theorem mapM {f : β → Traced α} {g : β → Except TargetFault α} {items : List β}
    (each : ∀ b ∈ items, Follows [] P (f b) (g b)) : Follows [] P (items.mapM f) (items.mapM g) := by
  induction items with
  | nil => exact of_pure []
  | cons b rest ih =>
    rw [List.mapM_cons, List.mapM_cons]
    refine (each b List.mem_cons_self).bind fun a _ => ?_
    refine (ih fun b member => each b (List.mem_cons_of_mem _ member)).bind fun others _ => of_pure _

end Follows

end

/-- An atom that stands first in the list or is not listed. -/
def Leads {α : Type} (i : Index) (P : Index → Prop) (x : Traced α) (y : Except TargetFault α) : Prop :=
  Follows [] P x y ∨ Follows [i] P x y

theorem Leads.answer_bind {α β : Type} {i : Index} {P : Index → Prop} {y : Except TargetFault α} {f : α → Traced β}
    {g : α → Except TargetFault β} (later : ∀ a, y = .ok a → Leads i P (f a) (g a)) :
    Leads i P (liftM y >>= f) (y >>= g) := by
  cases y with
  | error e => exact Or.inl (.answer_bind nofun)
  | ok a => exact later a rfl

/-! ### Traced printers -/

structure TracedPrinters where
  value : Index → Traced String
  place : Index → Traced String

namespace Scope

def tracedConstruct (s : Scope) (p : TracedPrinters) (i ty args : Index) (mode : Mode) : Traced String := do
  if s.isPlaceholder ty mode then p.value ty
  else
    let resolved ← s.resolve (← s.typeOf i)
    let name ← s.dialect.typeName s.unit resolved
    let args ← (← s.items args).mapM p.value
    match resolved with
    | .reference .. =>
      match args with
      | [address] => return s.dialect.addressCast name address
      | _ => (s.defect (.referenceAddress i args.length) : Printed)
    | _ => return s.dialect.construct resolved name args

def tracedOperand (s : Scope) (print : Index → Traced String) (src : Index) : Traced String := do
  let text ← print src
  match (← s.typeOf src).bare with
  | .reference base _ =>
    if (Global.resolve? s.buffer src).isNone then
      return s.dialect.dereference text (← s.isPhantomData base)
    else return text
  | _ => return text

def tracedLoad (s : Scope) (print : Index → Traced String) (src : Index) (field : Int32) : Traced String := do
  let base ← s.tracedOperand print src
  if field < 0 then return base
  else
    let n ← s.aggregate (fieldOwner (← s.typeOf src).bare)
    match (s.unit.aggregates[n]?).bind fun a => a.fields[field.toInt.toNat]? with
    | some f => return base ++ "." ++ f.name
    | none => (s.defect (.aggregateField field n) : Printed)

def tracedArguments (p : TracedPrinters) : List Ty → List Index → Traced (List String)
  | _, [] => return []
  | parameters, item :: rest => do
    let writes := (parameters.head?.map (·.direction.writes)).getD false
    let arg ← if writes then p.place item else p.value item
    return arg :: (← tracedArguments p parameters.tail rest)

def tracedExpression (s : Scope) (p : TracedPrinters) (i : Index) : Traced String := do
  match ← s.atom i with
  | .qualifier _ kind number => s.qualifier i kind number
  | .literal value => return s.dialect.literal value
  | .swizzle src code => return s.dialect.swizzle (← p.value src) code
  | .operation code a b =>
    let left ← p.value a
    if b.isNull then return s.dialect.operation code left none
    else return s.dialect.operation code left (some (← p.value b))
  | .intrinsic code args => do
    let args ← (← s.items args).mapM p.value
    s.dialect.intrinsic code args
  | .construct ty args mode => s.tracedConstruct p i ty args mode
  | .call callee _ args =>
    let parameters := ((s.unit.function? callee).map Function.args).getD []
    let args ← tracedArguments p parameters (← s.items args)
    return s.dialect.call s.unit callee (← s.symbol callee) args
  | .load src field => s.tracedLoad p.value src field
  | .access src loc => do
    let base ← s.tracedOperand p.value src
    return base ++ "[" ++ (← p.value loc) ++ "]"
  | found => (s.defect (.notValue found i) : Printed)

def tracedValue (s : Scope) (p : TracedPrinters) (i : Index) : Traced String :=
  match s.locals[i]? with
  | some name => return name
  | none => do
    announce i
    s.tracedExpression p i

def tracedPlace (s : Scope) (p : TracedPrinters) (i : Index) : Traced String := do
  match ← s.atom i with
  | .swizzle src code => return s.dialect.swizzleTarget (← p.place src) code
  | .load src field => s.tracedLoad p.place src field
  | .access src loc => do
    let base ← s.tracedOperand p.place src
    return base ++ "[" ++ (← p.value loc) ++ "]"
  | .construct ty _ mode => if s.isPlaceholder ty mode then p.place ty else s.tracedValue p i
  | _ => s.tracedValue p i

def tracedPrinters (s : Scope) : Nat → TracedPrinters
  | 0 =>
    { value := fun i => (s.defect (.endless i) : Printed)
      place := fun i => (s.defect (.endless i) : Printed) }
  | depth + 1 =>
    let inner := s.tracedPrinters depth
    { value := s.tracedValue inner, place := s.tracedPlace inner }

def tracedAll (s : Scope) : TracedPrinters := s.tracedPrinters (s.buffer.size + 1)

/-- The expression of an atom written out, whatever local it has. -/
def tracedFresh (s : Scope) (i : Index) : Traced String := do
  announce i
  s.tracedExpression (s.tracedPrinters s.buffer.size) i

end Scope

def tracedBranch (s : Scope) (st : State) (i : Index) (kind : BranchKind) (cond : Index) : Traced State := do
  let condition ← if kind.hasCondition then s.tracedAll.value cond else pure ""
  if closes kind && decide (st.depth ≤ 1) then (s.defect (.closesNothing kind i) : Except TargetFault State)
  else
    let st := if closes kind then { st with depth := st.depth - 1 } else st
    let st := st.line (branchText kind condition)
    return if kind.opens then { st with depth := st.depth + 1 } else st

def tracedBind (s : Scope) (st : State) (i : Index) : Traced State := do
  let ty ← s.localType (← s.typeOf i)
  let init ← s.tracedFresh i
  return st.declare s.dialect i ty (some init)

def tracedEffect (s : Scope) (st : State) (i : Index) : Traced State := do
  if (← s.typeOf i).isNil then return st.line ((← s.tracedFresh i) ++ ";")
  else tracedBind s st i

def tracedStatement (s : Scope) (st : State) (i : Index) : Traced State := do
  let s := { s with locals := st.locals }
  match ← s.atom i with
  | .qualifier .. | .type .. | .list .. | .construct _ _ .transient => return st
  | .store dst src =>
    let target ← s.tracedAll.place dst
    return st.line (target ++ " = " ++ (← s.tracedAll.value src) ++ ";")
  | .ret .null => return st.line "return;"
  | .ret value => return st.line ("return " ++ (← s.tracedAll.value value) ++ ";")
  | .branch kind cond _ => tracedBranch s st i kind cond
  | .intrinsic code _ => if code.isLayout then return st else tracedEffect s st i
  | .call .. => tracedEffect s st i
  | .construct _ .null .normal =>
    match ← s.typeOf i with
    | .reference .. => tracedBind s st i
    | ty => return st.declare s.dialect i (← s.localType ty) none
  | _ => tracedBind s st i

/-! ### What a statement may list -/

/-- Calls and side-effecting intrinsics. -/
def isEffect : Atom → Bool
  | .call .. => true
  | .intrinsic code _ => code.isSideEffect
  | _ => false

theorem isLayout_of_isSideEffect {code : Intrinsic} (acts : code.isSideEffect = true) : code.isLayout = false := by
  revert acts
  cases code <;> decide

/-- Atoms that printing stays among: with an atom, all it uses. -/
structure Reach (b : Buffer) (C : Index → Prop) : Prop where
  closed : b.UseClosed C
  null : C .null

def Reach.Uses (b : Buffer) (C : Index → Prop) (i : Index) : Prop :=
  ∀ a, b.get? i = some a → ∀ o ∈ a.operands, C o

/-- What printing in reach may list: atoms without a local. -/
def Open (s : Scope) (C : Index → Prop) (i : Index) : Prop := C i ∧ s.locals[i]? = none

def Keeps (s : Scope) (C : Index → Prop) (p : TracedPrinters) (q : Printers) : Prop :=
  ∀ i, C i → Follows [] (Open s C) (p.value i) (q.value i) ∧ Follows [] (Open s C) (p.place i) (q.place i)

namespace Reach

variable {s : Scope} {C : Index → Prop} {p : TracedPrinters} {q : Printers} {i : Index} {a : Atom}

theorem uses (reach : Reach s.buffer C) (inside : C i) : Uses s.buffer C i := by
  intro a found
  cases i with
  | null => cases found
  | ref n => exact reach.closed n a inside found

theorem address (reach : Reach s.buffer C) (uses : Uses s.buffer C i) (held : s.atom i = .ok a) {o : Index}
    (position : o = a.addresses.1 ∨ o = a.addresses.2 ∧ a.isBranch = false) : C o := by
  obtain ⟨n, rfl, found⟩ := atom_found held
  cases o with
  | null => exact reach.null
  | ref n => exact uses a found _ (Atom.mem_operands.2 ⟨rfl, position⟩)

theorem items (reach : Reach s.buffer C) {args : Index} {items : List Index} (inside : C args)
    (listed : s.items args = .ok items) : ∀ item ∈ items, C item := by
  unfold Member.items at listed
  rw [TargetFault.ofFault_ok_iff] at listed
  intro item member
  rcases reach.closed.items listed (Or.inr inside) item member with rfl | reached
  · exact reach.null
  · exact reached

variable (keeps : Keeps s C p q)
include keeps

theorem construct (reach : Reach s.buffer C) {ty args : Index} (type : C ty) (given : C args) (mode : Mode) :
    Follows [] (Open s C) (s.tracedConstruct p i ty args mode) (s.construct q i ty args mode) := by
  unfold Scope.tracedConstruct Scope.construct
  cases s.isPlaceholder ty mode with
  | true => exact (keeps ty type).1
  | false =>
    refine .answer_bind fun own _ => .answer_bind fun resolved _ => .answer_bind fun name _ =>
      .answer_bind fun items listed => ?_
    refine (Follows.mapM fun item member => (keeps item (reach.items given listed item member)).1).bind fun args _ => ?_
    cases resolved with
    | reference base id =>
      rcases args with _ | ⟨address, _ | ⟨other, rest⟩⟩
      · exact .of_answer _
      · exact .of_pure _
      · exact .of_answer _
    | _ => exact .of_pure _

theorem arguments (parameters : List Ty) {items : List Index} (inside : ∀ item ∈ items, C item) :
    Follows [] (Open s C) (Scope.tracedArguments p parameters items) (Scope.callArguments q parameters items) := by
  induction items generalizing parameters with
  | nil => exact .of_pure _
  | cons item rest ih =>
    obtain ⟨value, place⟩ := keeps item (inside item List.mem_cons_self)
    have later := ih parameters.tail fun other member => inside other (List.mem_cons_of_mem _ member)
    rw [Scope.tracedArguments, Scope.callArguments]
    cases (parameters.head?.map (·.direction.writes)).getD false with
    | true => exact place.bind fun arg _ => later.bind fun others _ => .of_pure _
    | false => exact value.bind fun arg _ => later.bind fun others _ => .of_pure _

omit keeps

variable {print : Index → Traced String} {print' : Index → Printed} {src : Index}

theorem operand (follows : Follows [] (Open s C) (print src) (print' src)) :
    Follows [] (Open s C) (s.tracedOperand print src) (s.operand print' src) := by
  refine follows.bind fun text _ => .answer_bind fun ty _ => ?_
  cases ty.bare with
  | reference base id =>
    cases (Global.resolve? s.buffer src).isNone with
    | true => exact .answer_bind fun phantom _ => .of_pure _
    | false => exact .of_pure _
  | _ => exact .of_pure _

theorem load (follows : Follows [] (Open s C) (print src) (print' src)) (field : Int32) :
    Follows [] (Open s C) (s.tracedLoad print src field) (s.load print' src field) := by
  refine (operand follows).bind fun base _ => ?_
  by_cases whole : field < 0
  · rw [if_pos whole, if_pos whole]
    exact .of_pure _
  · rw [if_neg whole, if_neg whole]
    refine .answer_bind fun ty _ => .answer_bind fun n _ => ?_
    cases (s.unit.aggregates[n]?).bind fun a => a.fields[field.toInt.toNat]? with
    | some f => exact .of_pure _
    | none => exact .of_answer _

theorem expression (reach : Reach s.buffer C) (keeps : Keeps s C p q) (uses : Uses s.buffer C i) :
    Follows [] (Open s C) (s.tracedExpression p i) (s.expression q i) := by
  refine .answer_bind fun a held => ?_
  have first : C a.addresses.1 := reach.address uses held (Or.inl rfl)
  have second : a.isBranch = false → C a.addresses.2 := fun other => reach.address uses held (Or.inr ⟨rfl, other⟩)
  cases a with
  | qualifier _ kind number => exact .of_answer _
  | literal value => exact .of_pure _
  | swizzle src code => exact (keeps src first).1.bind fun text _ => .of_pure _
  | operation code a b =>
    refine (keeps a first).1.bind fun left _ => ?_
    cases b.isNull with
    | true => exact .of_pure _
    | false => exact (keeps b (second rfl)).1.bind fun right _ => .of_pure _
  | intrinsic code args =>
    refine .answer_bind fun items listed => ?_
    exact (Follows.mapM fun item member => (keeps item (reach.items first listed item member)).1).bind
      fun texts _ => .of_answer _
  | construct ty args mode => exact reach.construct keeps first (second rfl) mode
  | call callee ty args =>
    refine .answer_bind fun items listed => ?_
    exact (arguments keeps _ (reach.items (second rfl) listed)).bind
      fun texts _ => .answer_bind fun symbol _ => .of_pure _
  | load src field => exact load (keeps src first).1 field
  | access src loc =>
    exact (operand (keeps src first).1).bind fun base _ => (keeps loc (second rfl)).1.bind fun text _ => .of_pure _
  | _ => exact .of_answer _

theorem value (reach : Reach s.buffer C) (keeps : Keeps s C p q) (inside : C i) :
    Follows [] (Open s C) (s.tracedValue p i) (s.valueOf q i) := by
  unfold Scope.tracedValue Scope.valueOf
  cases bound : s.locals[i]? with
  | some name => exact .of_pure name
  | none =>
    -- announced only here, where there is no local
    refine (Follows.announced i (reach.expression keeps (reach.uses inside))).absorb ?_
    rintro _ (_ | ⟨_, ⟨⟩⟩)
    exact ⟨inside, bound⟩

theorem place (reach : Reach s.buffer C) (keeps : Keeps s C p q) (inside : C i) :
    Follows [] (Open s C) (s.tracedPlace p i) (s.placeOf q i) := by
  have value := reach.value keeps inside
  refine .answer_bind fun a held => ?_
  have first : C a.addresses.1 := reach.address (reach.uses inside) held (Or.inl rfl)
  cases a with
  | swizzle src code => exact (keeps src first).2.bind fun text _ => .of_pure _
  | load src field => exact load (keeps src first).2 field
  | access src loc =>
    have second : C loc := reach.address (reach.uses inside) held (Or.inr ⟨rfl, rfl⟩)
    exact (operand (keeps src first).2).bind fun base _ => (keeps loc second).1.bind fun text _ => .of_pure _
  | construct ty args mode =>
    show Follows _ _ (if s.isPlaceholder ty mode then _ else _) (if s.isPlaceholder ty mode then _ else _)
    cases s.isPlaceholder ty mode with
    | true => exact (keeps ty first).2
    | false => exact value
  | _ => exact value

theorem printers (reach : Reach s.buffer C) (depth : Nat) : Keeps s C (s.tracedPrinters depth) (s.printers depth) := by
  induction depth with
  | zero => exact fun i _ => ⟨.of_answer _, .of_answer _⟩
  | succ depth ih => exact fun i inside => ⟨reach.value ih inside, reach.place ih inside⟩

theorem fresh (reach : Reach s.buffer C) (uses : Uses s.buffer C i) :
    Follows [i] (Open s C) (s.tracedFresh i) (s.fresh i) :=
  .announced i (reach.expression (reach.printers s.buffer.size) uses)

/-! ### Statements -/

variable (st : State)

theorem branch (reach : Reach s.buffer C) {kind : BranchKind} {cond : Index} (inside : C cond) :
    Follows [] (Open s C) (tracedBranch s st i kind cond) (branch s st i kind cond) := by
  have guarded : ∀ next, Follows [] (Open s C)
      (if closes kind && decide (st.depth ≤ 1) then liftM (s.defect (.closesNothing kind i) : Except TargetFault State)
        else pure next)
      (if closes kind && decide (st.depth ≤ 1) then s.defect (.closesNothing kind i) else pure next) := by
    intro next
    cases closes kind && decide (st.depth ≤ 1) with
    | true => exact .of_answer _
    | false => exact .of_pure _
  unfold tracedBranch Statement.branch
  cases kind.hasCondition with
  | true => exact (reach.printers _ cond inside).1.bind fun text _ => guarded _
  | false => exact guarded _

theorem bindLocal (reach : Reach s.buffer C) (uses : Uses s.buffer C i) :
    Follows [i] (Open s C) (tracedBind s st i) (bindLocal s st i) :=
  .answer_bind fun _ _ => .answer_bind fun _ _ => (reach.fresh uses).bind fun _ _ => .of_pure _

theorem effect (reach : Reach s.buffer C) (uses : Uses s.buffer C i) :
    Follows [i] (Open s C) (tracedEffect s st i) (effect s st i) := by
  refine .answer_bind fun ty _ => ?_
  cases ty.isNil with
  | true => exact (reach.fresh uses).bind fun _ _ => .of_pure _
  | false => exact reach.bindLocal st uses

/-- A statement lists its own atom first if at all, and only atoms without a local after it. -/
theorem statement (reach : Reach s.buffer C) (uses : Uses s.buffer C i) :
    Leads i (Open { s with locals := st.locals } C) (tracedStatement s st i) (Statement.statement s st i) := by
  have reach : Reach { s with locals := st.locals }.buffer C := reach
  have bound := reach.bindLocal st uses
  have acted := reach.effect st uses
  refine .answer_bind fun a held => ?_
  have first : C a.addresses.1 := reach.address uses held (Or.inl rfl)
  cases a with
  | qualifier | type | list => exact Or.inl (.of_pure st)
  | store dst src =>
    have second : C src := reach.address uses held (Or.inr ⟨rfl, rfl⟩)
    exact Or.inl ((reach.printers _ dst first).2.bind fun _ _ =>
      (reach.printers _ src second).1.bind fun _ _ => .of_pure _)
  | ret value =>
    cases value with
    | null => exact Or.inl (.of_pure _)
    | ref n => exact Or.inl ((reach.printers _ _ first).1.bind fun _ _ => .of_pure _)
  | branch kind cond target => exact Or.inl (reach.branch st first)
  | intrinsic code args =>
    cases layout : code.isLayout with
    | true => exact Or.inl (by simp only [layout]; exact .of_pure st)
    | false => exact Or.inr (by simp only [layout]; exact acted)
  | call => exact Or.inr acted
  | construct ty args mode =>
    cases mode with
    | transient => exact Or.inl (.of_pure st)
    | normal =>
      cases args with
      | ref n => exact Or.inr bound
      | null =>
        refine .answer_bind fun ty _ => ?_
        cases ty with
        | reference => exact Or.inr bound
        | _ => exact Or.inl (.answer_bind fun _ _ => .of_pure _)
  | _ => exact Or.inr bound

theorem statement_effect (reach : Reach s.buffer C) (uses : Uses s.buffer C i) (found : s.atom i = .ok a)
    (acts : isEffect a = true) :
    Follows [i] (Open { s with locals := st.locals } C) (tracedStatement s st i) (Statement.statement s st i) := by
  have reach : Reach { s with locals := st.locals }.buffer C := reach
  have acted := reach.effect st uses
  refine .answer_bind fun a' held => ?_
  cases found.symm.trans held
  cases a with
  | call => exact acted
  | intrinsic code args =>
    simp only [isLayout_of_isSideEffect acts]
    exact acted
  | _ => cases acts

end Reach

/-! ### Functions -/

/-- Prints one statement; each atom that it writes out is listed with it. -/
def renderStatement (s : Scope) (run : State × List (Index × Index)) (i : Index) :
    Except TargetFault (State × List (Index × Index)) := do
  let next ← (tracedStatement s run.1 i).run []
  return (next.1, run.2 ++ next.2.map (i, ·))

def renderings (s : Scope) : Except TargetFault (String × List (Index × Index)) := do
  let run ← s.buffer.marked.toList.foldlM (renderStatement s) ({}, [])
  if run.1.depth ≠ 1 then s.defect (.blockLeftOpen s.function.name)
  else return (String.join run.1.lines, run.2)

section

variable (s : Scope) (st : State) (trace : List (Index × Index))

theorem renderStatement_erases (i : Index) : (renderStatement s (st, trace) i).map Prod.fst = statement s st i := by
  -- what may be listed does not matter here, so all atoms are in reach
  have everything : Reach s.buffer fun _ => True := ⟨fun _ _ _ _ _ _ => trivial, trivial⟩
  have erased : ((tracedStatement s st i).run []).map Prod.fst = statement s st i := by
    rcases everything.statement st fun _ _ _ _ => trivial with follows | follows
    · exact follows.erases []
    · exact follows.erases []
  rw [← erased]
  unfold renderStatement
  cases (tracedStatement s st i).run [] <;> rfl

theorem renderStatements_erase (items : List Index) :
    (items.foldlM (renderStatement s) (st, trace)).map Prod.fst = items.foldlM (statement s) st := by
  induction items generalizing st trace with
  | nil => rfl
  | cons i rest ih =>
    rw [List.foldlM_cons, List.foldlM_cons, ← renderStatement_erases s st trace i]
    cases renderStatement s (st, trace) i with
    | error e => rfl
    | ok next => exact ih next.1 next.2

theorem renderings_erase : (renderings s).map Prod.fst = body s := by
  unfold renderings body statements
  rw [← renderStatements_erase s {} []]
  cases s.buffer.marked.toList.foldlM (renderStatement s) ({}, []) with
  | error e => rfl
  | ok run =>
    by_cases unclosed : run.1.depth ≠ 1
    · simp only [Except.ok_bind, Except.map, if_pos unclosed]
      rfl
    · simp only [Except.ok_bind, Except.map, if_neg unclosed]
      rfl

end

end ShaderForge.Statement
