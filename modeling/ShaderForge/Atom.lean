import ShaderForge.Index
import ShaderForge.Literal
import ShaderForge.Opcode.Branch
import ShaderForge.Opcode.Intrinsic
import ShaderForge.Opcode.Operator
import ShaderForge.Opcode.Qualifier
import ShaderForge.Opcode.Swizzle

/-!
# Atoms

One instruction of a function body.  Operands are addresses of other atoms;
argument lists and struct field chains are themselves chains of atoms.
-/

namespace ShaderForge

abbrev FunctionId := UInt32

inductive Atom where
  /-- A parameter or an external binding; `number` is its position, location,
  binding, offset or size, depending on the kind. -/
  | qualifier (underlying : Index) (kind : Qualifier) (number : Int32)
  /-- A type node; with `next` it is one link of a struct's field chain. -/
  | type (item : Prim) (down next : Index)
  | literal (value : Literal)
  | swizzle (src : Index) (code : Swizzle)
  /-- An operator; a unary one leaves `b` absent. -/
  | operation (code : Operator) (a b : Index)
  | intrinsic (code : Intrinsic) (args : Index)
  | list (item next : Index)
  | construct (ty args : Index) (mode : Mode)
  | call (callee : FunctionId) (ty args : Index)
  | store (dst src : Index)
  /-- A field read; a negative `field` reads the whole value. -/
  | load (src : Index) (field : Int32)
  | access (src loc : Index)
  /-- A control marker; `failto` is the next marker of the same statement and the
  only address that points forward. -/
  | branch (kind : BranchKind) (cond failto : Index)
  | ret (value : Index)
deriving DecidableEq, Repr, Inhabited

namespace Atom

/-- Both addresses of an atom; unused ones are absent. -/
def addresses : Atom → Index × Index
  | qualifier underlying _ _ => (underlying, .null)
  | type _ down next => (down, next)
  | literal _ => (.null, .null)
  | swizzle src _ => (src, .null)
  | operation _ a b => (a, b)
  | intrinsic _ args => (args, .null)
  | list item next => (item, next)
  | construct ty args _ => (ty, args)
  | call _ ty args => (ty, args)
  | store dst src => (dst, src)
  | load src _ => (src, .null)
  | access src loc => (src, loc)
  | branch _ cond failto => (cond, failto)
  | ret value => (value, .null)

def mapAddresses (f : Index → Index) : Atom → Atom
  | qualifier underlying kind number => qualifier (f underlying) kind number
  | type item down next => type item (f down) (f next)
  | literal value => literal value
  | swizzle src code => swizzle (f src) code
  | operation code a b => operation code (f a) (f b)
  | intrinsic code args => intrinsic code (f args)
  | list item next => list (f item) (f next)
  | construct ty args mode => construct (f ty) (f args) mode
  | call callee ty args => call callee (f ty) (f args)
  | store dst src => store (f dst) (f src)
  | load src field => load (f src) field
  | access src loc => access (f src) (f loc)
  | branch kind cond failto => branch kind (f cond) (f failto)
  | ret value => ret (f value)

theorem addresses_mapAddresses {f : Index → Index} (fixed : f .null = .null) (a : Atom) :
    (a.mapAddresses f).addresses = (f a.addresses.1, f a.addresses.2) := by
  cases a <;> simp [addresses, mapAddresses, fixed]

/-- The data dependencies: present addresses other than a branch's target. -/
def operands (a : Atom) : List Index :=
  let second := match a with
    | branch .. => .null
    | _ => a.addresses.2
  [a.addresses.1, second].filter fun i => !i.isNull

def kindName : Atom → String
  | qualifier .. => "qualifier"
  | type .. => "type"
  | literal _ => "primitive"
  | swizzle .. => "swizzle"
  | operation .. => "operation"
  | intrinsic .. => "intrinsic"
  | list .. => "list"
  | construct .. => "construct"
  | call .. => "call"
  | store .. => "store"
  | load .. => "load"
  | access .. => "access"
  | branch .. => "branch"
  | ret _ => "return"

/-- Atoms whose execution can be observed whether or not they are used. -/
def isSideEffect : Atom → Bool
  | store .. | ret _ | branch .. | call .. => true
  | intrinsic code _ => code.isSideEffect || code.isLayout
  | _ => false

def isBranch : Atom → Bool
  | branch .. => true
  | _ => false

def literal? : Atom → Option Literal
  | literal value => some value
  | _ => none

def text (a : Atom) : String :=
  a.kindName ++ " " ++ match a with
  | qualifier underlying kind number => s!"{underlying.nodeText} {kind.name} {number.toInt}"
  | type item down next => s!"{item.name} {down.nodeText} {next.nodeText}"
  | literal value => value.text
  | swizzle src code => s!"{src.text} {code.name}"
  | operation code a b => s!"{code.name} {a.text} {b.text}"
  | intrinsic code args => s!"{code.name} {args.text}"
  | list item next => s!"{item.text} {next.text}"
  | construct ty args mode => s!"{ty.nodeText} {args.text} {mode.name}"
  | call callee ty args => s!"${callee.toNat} {ty.nodeText} {args.text}"
  | store dst src => s!"{dst.text} {src.text}"
  | load src field => s!"{src.text} {field.toInt}"
  | access src loc => s!"{src.text} {loc.text}"
  | branch kind cond failto => s!"{kind.name} {cond.text} {failto.nodeText}"
  | ret value => value.text

end Atom

end ShaderForge
