import ShaderForge.Source.Dialect

/-!
# Statements

The text of one function.  Marked atoms are printed in order, values as
locals, stores as assignments, branches as blocks; unmarked expressions are
printed where they are used.
-/

namespace ShaderForge.Statement

/-- The function being printed and the locals it has so far. -/
structure Scope extends Member where
  dialect : Dialect
  locals : IndexMap String := ∅

abbrev Printed := Except TargetFault String

/-- How to print an atom: as a value, and as something to assign to. -/
structure Printers where
  value : Index → Printed
  place : Index → Printed

namespace Scope

def localType (s : Scope) (ty : Ty) : Printed := do
  s.dialect.typeName s.unit (← s.resolve ty)

def symbol (s : Scope) (id : FunctionId) : Printed :=
  match s.unit.symbol? id with
  | some name => return name
  | none => .error (.link (.unknownCallable id))

def isPhantom (s : Scope) (head : Index) : Except TargetFault Bool := do
  return ((s.unit.aggregates[← s.aggregate head]?).map Aggregate.phantom).getD false

def isPhantomData (s : Scope) : Data → Except TargetFault Bool
  | .struct head => s.isPhantom head
  | .prim _ => return false

/-! ### Expressions -/

/-- A parameter or global; the contents of a block are its members. -/
def qualifier (s : Scope) (i : Index) (kind : Qualifier) (number : Int32) : Printed :=
  if kind = .parameter then return Naming.argument number.toInt.toNat
  else
    let block (g : Global) : Printed := do
      let phantom ← match (← s.typeOf i).bare with
        | .data base | .reference base _ => s.isPhantomData base
        | _ => pure false
      return s.dialect.blockMember (s.dialect.global g) phantom
    match Global.resolve? s.buffer i with
    | some g =>
      match g with
      | .uniform _ | .buffer _ | .pushConstant => block g
      | _ => return s.dialect.global g
    | none => s.defect (.qualifierNotValue kind i)

def construct (s : Scope) (p : Printers) (i ty args : Index) (mode : Mode) : Printed := do
  if s.isPlaceholder ty mode then p.value ty
  else
    let resolved ← s.resolve (← s.typeOf i)
    let name ← s.dialect.typeName s.unit resolved
    let args ← (← s.items args).mapM p.value
    match resolved with
    | .reference .. =>
      match args with
      | [address] => return s.dialect.addressCast name address
      | _ => s.defect (.referenceAddress i args.length)
    | _ => return s.dialect.construct resolved name args

/-- What a read starts from; a reference that is no declared block is followed. -/
def operand (s : Scope) (print : Index → Printed) (src : Index) : Printed := do
  let text ← print src
  match (← s.typeOf src).bare with
  | .reference base _ =>
    if (Global.resolve? s.buffer src).isNone then
      return s.dialect.dereference text (← s.isPhantomData base)
    else return text
  | _ => return text

def fieldOwner : Ty → Index
  | .data (.struct head) | .reference (.struct head) _ => head
  | _ => .null

def load (s : Scope) (print : Index → Printed) (src : Index) (field : Int32) : Printed := do
  let base ← s.operand print src
  if field < 0 then return base
  else
    let n ← s.aggregate (fieldOwner (← s.typeOf src).bare)
    match (s.unit.aggregates[n]?).bind fun a => a.fields[field.toInt.toNat]? with
    | some f => return base ++ "." ++ f.name
    | none => s.defect (.aggregateField field n)

/-- The arguments of a call; what the callee writes is printed to be assigned. -/
def callArguments (p : Printers) : List Ty → List Index → Except TargetFault (List String)
  | _, [] => return []
  | parameters, item :: rest => do
    let writes := (parameters.head?.map (·.direction.writes)).getD false
    let arg ← if writes then p.place item else p.value item
    return arg :: (← callArguments p parameters.tail rest)

/-- The expression that an atom computes, given how to print its operands. -/
def expression (s : Scope) (p : Printers) (i : Index) : Printed := do
  match ← s.atom i with
  | .qualifier _ kind number => s.qualifier i kind number
  | .literal value => return s.dialect.literal value
  | .swizzle src code => return s.dialect.swizzle (← p.value src) code
  | .operation code a b =>
    let left ← p.value a
    if b.isNull then return s.dialect.operation code left none
    else return s.dialect.operation code left (some (← p.value b))
  | .intrinsic code args => do
    let args ← (← s.items args).mapM p.value
    s.dialect.intrinsic code args
  | .construct ty args mode => s.construct p i ty args mode
  | .call callee _ args =>
    let parameters := ((s.unit.function? callee).map Function.args).getD []
    let args ← callArguments p parameters (← s.items args)
    return s.dialect.call s.unit callee (← s.symbol callee) args
  | .load src field => s.load p.value src field
  | .access src loc => do
    let base ← s.operand p.value src
    return base ++ "[" ++ (← p.value loc) ++ "]"
  | found => s.defect (.notValue found i)

def valueOf (s : Scope) (p : Printers) (i : Index) : Printed :=
  match s.locals[i]? with
  | some name => return name
  | none => s.expression p i

/-- An atom to assign to: reads are printed in place, whatever local they have. -/
def placeOf (s : Scope) (p : Printers) (i : Index) : Printed := do
  match ← s.atom i with
  | .swizzle src code => return s.dialect.swizzleTarget (← p.place src) code
  | .load src field => s.load p.place src field
  | .access src loc => do
    let base ← s.operand p.place src
    return base ++ "[" ++ (← p.value loc) ++ "]"
  | .construct ty _ mode => if s.isPlaceholder ty mode then p.place ty else s.valueOf p i
  | _ => s.valueOf p i

/-- Printers for expressions nested at most `depth` deep. -/
def printers (s : Scope) : Nat → Printers
  | 0 =>
    { value := fun i => s.defect (.endless i)
      place := fun i => s.defect (.endless i) }
  | depth + 1 =>
    let inner := s.printers depth
    { value := s.valueOf inner, place := s.placeOf inner }

/-- Printers for any expression: operands come before their uses, so nesting is
bounded by the number of atoms. -/
def all (s : Scope) : Printers := s.printers (s.buffer.size + 1)

def value (s : Scope) (i : Index) : Printed := s.all.value i

def place (s : Scope) (i : Index) : Printed := s.all.place i

/-- The expression of an atom, whatever local it has. -/
def fresh (s : Scope) (i : Index) : Printed := s.expression (s.printers s.buffer.size) i

end Scope

/-! ### Statements -/

/-- The text so far: locals, open blocks and lines. -/
structure State where
  locals : IndexMap String := ∅
  depth : Nat := 1
  lines : List String := []

namespace State

def line (st : State) (text : String) : State :=
  { st with lines := st.lines ++ ["".pushn ' ' (4 * st.depth) ++ text ++ "\n"] }

def declare (st : State) (d : Dialect) (i : Index) (ty : String) (init : Option String) : State :=
  let name := Naming.localName st.locals.size
  let st := st.line (d.declaration ty name init)
  { st with locals := st.locals.insert i name }

end State

def branchText (kind : BranchKind) (condition : String) : String :=
  match kind with
  | .ifThen => "if (" ++ condition ++ ") \x7b"
  | .elseIf => "\x7d else if (" ++ condition ++ ") \x7b"
  | .otherwise => "\x7d else \x7b"
  | .whileLoop => "while (" ++ condition ++ ") \x7b"
  | .forLoop => "for (; " ++ condition ++ ";) \x7b"
  | .next => "continue;"
  | .leave => "break;"
  | .close => "\x7d"

/-- Whether a marker closes the block before it. -/
def closes : BranchKind → Bool
  | .elseIf | .otherwise | .close => true
  | _ => false

def branch (s : Scope) (st : State) (i : Index) (kind : BranchKind) (cond : Index) :
    Except TargetFault State := do
  let condition ← if kind.hasCondition then s.value cond else pure ""
  if closes kind && decide (st.depth ≤ 1) then s.defect (.closesNothing kind i)
  else
    let st := if closes kind then { st with depth := st.depth - 1 } else st
    let st := st.line (branchText kind condition)
    return if kind.opens then { st with depth := st.depth + 1 } else st

def bindLocal (s : Scope) (st : State) (i : Index) : Except TargetFault State := do
  let ty ← s.localType (← s.typeOf i)
  let init ← s.fresh i
  return st.declare s.dialect i ty (some init)

/-- Prints a call or intrinsic, as a statement of its own when it gives nothing. -/
def effect (s : Scope) (st : State) (i : Index) : Except TargetFault State := do
  if (← s.typeOf i).isNil then return st.line ((← s.fresh i) ++ ";")
  else bindLocal s st i

def statement (s : Scope) (st : State) (i : Index) : Except TargetFault State := do
  let s := { s with locals := st.locals }
  match ← s.atom i with
  | .qualifier .. | .type .. | .list .. | .construct _ _ .transient => return st
  | .store dst src =>
    let target ← s.place dst
    return st.line (target ++ " = " ++ (← s.value src) ++ ";")
  | .ret .null => return st.line "return;"
  | .ret value => return st.line ("return " ++ (← s.value value) ++ ";")
  | .branch kind cond _ => branch s st i kind cond
  | .intrinsic code _ => if code.isLayout then return st else effect s st i
  | .call .. => effect s st i
  | .construct _ .null .normal =>
    match ← s.typeOf i with
    | .reference .. => bindLocal s st i
    | ty => return st.declare s.dialect i (← s.localType ty) none
  | _ => bindLocal s st i

def statements (s : Scope) : Except TargetFault State := do
  let st ← s.buffer.marked.toList.foldlM (statement s) {}
  if st.depth ≠ 1 then s.defect (.blockLeftOpen s.function.name)
  else return st

def body (s : Scope) : Printed := do return String.join (← statements s).lines

def signature (s : Scope) : Printed := do
  let returns ← s.localType s.function.returns
  let symbol ← s.symbol s.function.id
  let declared ← s.function.parameters.mapM fun (i, position) => do
    let ty ← s.typeOf i
    return s.dialect.parameter (← s.localType ty) (Naming.argument position) ty.direction
  let extra ← s.dialect.extraParameters s.unit s.function.id
  return returns ++ " " ++ symbol ++ "(" ++ ", ".intercalate (declared ++ extra) ++ ")"

def definition (s : Scope) : Printed := do
  let signature ← signature s
  return signature ++ " \x7b\n" ++ (← body s) ++ "\x7d\n"

def localCount? (s : Scope) : Option Nat :=
  match definition s, statements s with
  | .ok _, .ok st => some st.locals.size
  | _, _ => none

end ShaderForge.Statement
