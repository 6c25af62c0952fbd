import ShaderForge.Native.Arithmetic

/-!
# Operands

Which registers an operation takes, and which one it gives.
-/

namespace ShaderForge.Native

/-! ### Operations -/

namespace UnaryOp

/-- Whether an operation calls a library function, which is in single precision. -/
def isLibrary : UnaryOp → Bool
  | sin | cos | tan | asin | acos | atan | exp | log | exp2 | log2 => true
  | negate | not | complement | abs | floor | ceil | sqrt => false

def register (op : UnaryOp) (r : Register) : Register := if op.isLibrary then .f32 else r

def takes (op : UnaryOp) (s : Prim) (r : Register) : Bool :=
  match op with
  | negate => r.isFloat == s.isFloat
  | not => !r.isFloat
  | complement => true
  | abs => if s.isFloat then r.isFloat else s != .i32 || !r.isFloat
  | floor | ceil | sqrt => r.isFloat
  | _ => r == .f32

end UnaryOp

namespace BinaryOp

/-- Whether an operation calls a library function, which is in single precision. -/
def isLibrary : BinaryOp → Bool
  | pow => true
  | _ => false

/-- The register of the result, given that of the first operand. -/
def register (op : BinaryOp) (r : Register) : Register :=
  if op.isComparison then .i8 else if op.isLibrary then .f32 else r

def takes (op : BinaryOp) (s : Prim) (x y : Register) : Bool :=
  match op with
  | and | or | xor => x == y
  | shl | shr => !x.isFloat && !y.isFloat
  | pow => x == .f32 && y == .f32
  | _ => x == y && x.isFloat == s.isFloat

end BinaryOp

def librarySymbol (code : Intrinsic) : String := "thunder_" ++ code.name ++ "f"

/-! ### Conversions -/

/-- The register of a converted scalar; between integers of one size nothing is
done. -/
def convertRegister (source target : Prim) (r : Register) : Register :=
  if Register.ofPrim source = Register.ofPrim target then r else Register.ofPrim target

def convertTakes (source target : Prim) (r : Register) : Bool :=
  if Register.ofPrim source = Register.ofPrim target then true
  else if source = .boolean then r.extendsTo (if target = .u64 then .i64 else .i32)
  else if target = .boolean then
    if source.isFloat then r == Register.ofPrim source else !r.isFloat
  else
    match source.isFloat, target.isFloat with
    | true, true => r == Register.ofPrim source
    | true, false => r.isFloat
    | false, true => !r.isFloat
    | false, false => if target = .u64 then r.extendsTo .i64 else r == .i64

end ShaderForge.Native
