import ShaderForge.Member
import ShaderForge.Source.Naming

/-!
# Dialects

The spelling of types, constants and expressions in one target language.
-/

namespace ShaderForge

/-- The spelling of one target language. -/
structure Dialect where
  /-- The keyword of a primitive; nil is the void type. -/
  primitive : Prim → String
  /-- An array of elements; a negative size is unbounded. -/
  array : String → Int → String
  image : Prim → Nat → Except TargetFault String
  sampler : Prim → Nat → Except TargetFault String
  /-- A device reference to a type, with its id. -/
  reference : String → Int → String
  literal : Literal → String
  /-- The name of a global where a function uses it. -/
  global : Global → String := Global.name
  /-- The construction of a value of a type, spelled by name. -/
  construct : LinkedTy → String → List String → String := fun _ name args =>
    name ++ "(" ++ ", ".intercalate args ++ ")"
  /-- A reference made from a device address. -/
  addressCast : String → String → String := fun name address => name ++ "(" ++ address ++ ")"
  swizzle : String → Swizzle → String := fun src code => src ++ "." ++ code.name
  /-- A component selection that is stored to. -/
  swizzleTarget : String → Swizzle → String := swizzle
  /-- An operator applied to one or two operands. -/
  operation : Operator → String → Option String → String := fun code a b =>
    match b with
    | some b => "(" ++ a ++ " " ++ code.symbol ++ " " ++ b ++ ")"
    | none => "(" ++ code.symbol ++ a ++ ")"
  intrinsic : Intrinsic → List String → Except TargetFault String
  /-- The contents of a block; those of a phantom struct are its own members. -/
  blockMember : String → Bool → String
  /-- The value that a reference points to. -/
  dereference : String → Bool → String
  parameter : String → String → Direction → String
  /-- A local declaration, with or without a value. -/
  declaration : String → String → Option String → String := fun ty name init =>
    match init with
    | some init => ty ++ " " ++ name ++ " = " ++ init ++ ";"
    | none => ty ++ " " ++ name ++ ";"
  call : Linkage → FunctionId → String → List String → String := fun _ _ symbol args =>
    symbol ++ "(" ++ ", ".intercalate args ++ ")"
  /-- Parameters after the declared ones. -/
  extraParameters : Linkage → FunctionId → Except TargetFault (List String) := fun _ _ => .ok []

namespace Dialect

def dataName (d : Dialect) (u : Linkage) : LinkedData → Except TargetFault String
  | .prim p => return d.primitive p
  | .aggregate n =>
    match u.aggregates[n]? with
    | some a => return a.name
    | none => .error (.other (.aggregate n))

def typeName (d : Dialect) (u : Linkage) : LinkedTy → Except TargetFault String
  | .nil => return d.primitive .nil
  | .data base => d.dataName u base
  | .array element size => return d.array (← d.dataName u element) size.toInt
  | .image texel dim => d.image texel dim
  | .sampler texel dim => d.sampler texel dim
  | .reference base id => return d.reference (← d.dataName u base) id.toInt

end Dialect

/-- The spelling of a floating point constant: not a number, infinite, or
positional text with a suffix. -/
structure FloatSpelling where
  nan : String
  infinity : Bool → String
  suffix : String

def FloatSpelling.render (s : FloatSpelling) (f : BinaryFormat) (bits : Nat) : String :=
  match f.decode bits with
  | .nan => s.nan
  | .infinite negative => s.infinity negative
  | .finite .. => f.text bits ++ s.suffix

end ShaderForge
