import ShaderForge.Native.Layout
import ShaderForge.Opcode.Intrinsic
import ShaderForge.Opcode.Operator

/-!
# Machine arithmetic

Operations on words.  The scalar type of an operation chooses between floating
point, signed and unsigned; its width is that of the words themselves.  Floating
point follows IEEE 754 without fusing, and what is not a number keeps its bits
but is made quiet; integers wrap; shifts take the amount modulo the width;
conversions to integers saturate.
-/

namespace ShaderForge.Native

/-! ### Numbers in words -/

namespace Word

def ofSingle (x : Float32) : Word := f32 x.toBits

def ofDouble (x : Float) : Word := f64 x.toBits

/-- Whether a floating point word is not a number. -/
def isNaN : Word → Bool
  | f32 b => (Float32.ofBits b).isNaN
  | f64 b => (Float.ofBits b).isNaN
  | _ => false

def quiet : Word → Word
  | f32 b => f32 (b ||| 0x00400000)
  | f64 b => f64 (b ||| 0x0008000000000000)
  | w => w

def invalid : Register → Word
  | .f32 => f32 0xffc00000
  | .f64 => f64 0xfff8000000000000
  | r => ofBits r 0

/-- The word of a result.  One that is not a number is the first operand that is
none, made quiet, or comes from an invalid operation. -/
def settled (operands : List Word) (result : Word) : Word :=
  if !result.isNaN then result
  else ((operands.find? isNaN).map quiet).getD (invalid result.register)

def onFloat (f : Float32 → Float32) (g : Float → Float) (w : Word) : Word :=
  match w with
  | f32 b => settled [w] (ofSingle (f (Float32.ofBits b)))
  | f64 b => settled [w] (ofDouble (g (Float.ofBits b)))
  | w => w

/-- A function on pairs of numbers, on floating point words of one width. -/
def onFloats (f : Float32 → Float32 → Float32) (g : Float → Float → Float) (x y : Word) : Word :=
  match x, y with
  | f32 a, f32 b => settled [x, y] (ofSingle (f (Float32.ofBits a) (Float32.ofBits b)))
  | f64 a, f64 b => settled [x, y] (ofDouble (g (Float.ofBits a) (Float.ofBits b)))
  | x, _ => x

def askFloats (f : Float32 → Float32 → Bool) (g : Float → Float → Bool) (x y : Word) : Bool :=
  match x, y with
  | f32 a, f32 b => f (Float32.ofBits a) (Float32.ofBits b)
  | f64 a, f64 b => g (Float.ofBits a) (Float.ofBits b)
  | _, _ => false

def mapBits (w : Word) (f : UInt64 → UInt64) : Word := ofBits w.register (f w.bits)

/-- A function on the bits of two words, within the width of the first. -/
def zipBits (x y : Word) (f : UInt64 → UInt64 → UInt64) : Word :=
  ofBits x.register (f x.bits y.bits)

/-- A function on the signed numbers of two words, within the width of the first. -/
def zipSigned (x y : Word) (f : Int64 → Int64 → Int64) : Word :=
  ofBits x.register (f x.signed y.signed).toUInt64

end Word

/-! ### One operand -/

inductive UnaryOp where
  | negate
  | not
  | complement
  | abs
  | floor
  | ceil
  | sqrt
  | sin
  | cos
  | tan
  | asin
  | acos
  | atan
  | exp
  | log
  | exp2
  | log2
deriving DecidableEq, Repr

namespace UnaryOp

def ofOperator? : Operator → Option UnaryOp
  | .negation => some negate
  | .logicalNot => some not
  | .bitNot => some complement
  | _ => none

/-- The operation of an intrinsic on a scalar type.  Rounding and roots need a
floating point scalar, transcendental functions a single precision one. -/
def ofIntrinsic? (code : Intrinsic) (s : Prim) : Option UnaryOp :=
  let whenFloat (op : UnaryOp) := if s.isFloat then some op else none
  let whenSingle (op : UnaryOp) := if s = .f32 then some op else none
  match code with
  | .abs => some abs
  | .floor => whenFloat floor
  | .ceil => whenFloat ceil
  | .sqrt => whenFloat sqrt
  | .sin => whenSingle sin
  | .cos => whenSingle cos
  | .tan => whenSingle tan
  | .asin => whenSingle asin
  | .acos => whenSingle acos
  | .atan => whenSingle atan
  | .exp => whenSingle exp
  | .log => whenSingle log
  | .exp2 => whenSingle exp2
  | .log2 => whenSingle log2
  | _ => none

def apply (op : UnaryOp) (s : Prim) (w : Word) : Word :=
  match op with
  | negate => if s.isFloat then w.mapBits (· ^^^ w.register.signBit) else w.mapBits (0 - ·)
  | not => w.mapBits (· ^^^ 1)
  | complement => w.mapBits (~~~·)
  | abs =>
    if s.isFloat then w.mapBits (· &&& (w.register.signBit - 1))
    else if s = .i32 && w.signed < 0 then w.mapBits (0 - ·)
    else w
  | floor => w.onFloat Float32.floor Float.floor
  | ceil => w.onFloat Float32.ceil Float.ceil
  | sqrt => w.onFloat Float32.sqrt Float.sqrt
  | sin => w.onFloat Float32.sin Float.sin
  | cos => w.onFloat Float32.cos Float.cos
  | tan => w.onFloat Float32.tan Float.tan
  | asin => w.onFloat Float32.asin Float.asin
  | acos => w.onFloat Float32.acos Float.acos
  | atan => w.onFloat Float32.atan Float.atan
  | exp => w.onFloat Float32.exp Float.exp
  | log => w.onFloat Float32.log Float.log
  | exp2 => w.onFloat Float32.exp2 Float.exp2
  | log2 => w.onFloat Float32.log2 Float.log2

end UnaryOp

/-! ### Two operands -/

inductive BinaryOp where
  | add
  | sub
  | mul
  | div
  | rem
  | and
  | or
  | xor
  | shl
  | shr
  | eq
  | ne
  | lt
  | le
  | gt
  | ge
  | min
  | max
  | pow
deriving DecidableEq, Repr

namespace BinaryOp

def ofOperator? : Operator → Option BinaryOp
  | .addition => some add
  | .subtraction => some sub
  | .multiplication => some mul
  | .division => some div
  | .modulus => some rem
  | .bitAnd | .logicalAnd => some and
  | .bitOr | .logicalOr => some or
  | .bitXor => some xor
  | .shiftLeft => some shl
  | .shiftRight => some shr
  | .equals => some eq
  | .notEquals => some ne
  | .less => some lt
  | .lessEqual => some le
  | .greater => some gt
  | .greaterEqual => some ge
  | .negation | .logicalNot | .bitNot => none

def ofIntrinsic? (code : Intrinsic) (s : Prim) : Option BinaryOp :=
  match code with
  | .min => some min
  | .max => some max
  | .pow => if s = .f32 then some pow else none
  | _ => none

def isComparison : BinaryOp → Bool
  | eq | ne | lt | le | gt | ge => true
  | _ => false

def below (s : Prim) (x y : Word) : Bool :=
  if s = .i32 then x.signed < y.signed else x.bits < y.bits

/-- The lesser or greater of two scalars.  What is not a number stays so, and
negative zero is below zero: the bits of equal numbers differ only in the sign,
which the lesser has if one of them has it. -/
def extreme (least : Bool) (s : Prim) (x y : Word) : Word :=
  if s.isFloat then
    if y.isNaN then y.quiet
    else if x.isNaN then x.quiet
    else
      let less := Word.askFloats (· < ·) (· < ·)
      if less x y then (if least then x else y)
      else if less y x then (if least then y else x)
      else x.zipBits y (if least then (· ||| ·) else (· &&& ·))
  else if below s y x == least then y else x

def compare (op : BinaryOp) (s : Prim) (x y : Word) : Bool :=
  if s.isFloat then
    match op with
    | eq => x.askFloats (· == ·) (· == ·) y
    | ne => x.askFloats (· != ·) (· != ·) y
    | lt => x.askFloats (· < ·) (· < ·) y
    | le => x.askFloats (· ≤ ·) (· ≤ ·) y
    | gt => y.askFloats (· < ·) (· < ·) x
    | _ => y.askFloats (· ≤ ·) (· ≤ ·) x
  else
    match op with
    | eq => x.bits == y.bits
    | ne => x.bits != y.bits
    | lt => below s x y
    | le => !below s y x
    | gt => below s y x
    | _ => !below s x y

/-- Whether the machine stops at an integer quotient: on a zero divisor, and on
the one signed quotient that does not fit. -/
def stops (op : BinaryOp) (s : Prim) (x y : Word) : Bool :=
  !s.isFloat && match op with
    | div => y.bits == 0 || (s == .i32 && x.bits == x.register.signBit && y.signed == -1)
    | rem => y.bits == 0
    | _ => false

/-- The result on two words, as an operation on a scalar type, unless the machine
stops. -/
def apply (op : BinaryOp) (s : Prim) (x y : Word) : Option Word :=
  if op.stops s x y then none
  else if op.isComparison then some (.ofBool (op.compare s x y))
  else
    let shift := y.bits &&& (x.register.width - 1)
    some <| match op with
    | add => if s.isFloat then x.onFloats (· + ·) (· + ·) y else x.zipBits y (· + ·)
    | sub => if s.isFloat then x.onFloats (· - ·) (· - ·) y else x.zipBits y (· - ·)
    | mul => if s.isFloat then x.onFloats (· * ·) (· * ·) y else x.zipBits y (· * ·)
    | div =>
      if s.isFloat then x.onFloats (· / ·) (· / ·) y
      else if s = .i32 then x.zipSigned y (· / ·)
      else x.zipBits y (· / ·)
    | rem => if s = .i32 then x.zipSigned y (· % ·) else x.zipBits y (· % ·)
    | and => x.zipBits y (· &&& ·)
    | or => x.zipBits y (· ||| ·)
    | xor => x.zipBits y (· ^^^ ·)
    | shl => x.mapBits (· <<< shift)
    | shr =>
      if s = .i32 then .ofBits x.register (x.signed >>> shift.toInt64).toUInt64
      else x.mapBits (· >>> shift)
    | min => extreme true s x y
    | max => extreme false s x y
    | pow => x.onFloats Float32.pow Float.pow y
    | eq | ne | lt | le | gt | ge => x

end BinaryOp

/-! ### Conversions -/

def toInteger (target : Prim) (w : Word) : Word :=
  match w, target with
  | .f32 b, .i32 => .i32 (Float32.ofBits b).toInt32.toUInt32
  | .f32 b, .u64 => .i64 (Float32.ofBits b).toUInt64
  | .f32 b, _ => .i32 (Float32.ofBits b).toUInt32
  | .f64 b, .i32 => .i32 (Float.ofBits b).toInt32.toUInt32
  | .f64 b, .u64 => .i64 (Float.ofBits b).toUInt64
  | .f64 b, _ => .i32 (Float.ofBits b).toUInt32
  | w, target => .ofScalar target w.bits

def fromInteger (source target : Prim) (w : Word) : Word :=
  match source, target with
  | .i32, .f64 => .ofDouble w.signed.toFloat
  | .i32, _ => .ofSingle w.signed.toFloat32
  | _, .f64 => .ofDouble w.bits.toFloat
  | _, _ => .ofSingle w.bits.toFloat32

def promote : Word → Word
  | .f32 b =>
    if (Float32.ofBits b).isNaN then
      let sign := (b &&& 0x80000000).toUInt64 <<< 32
      let fraction := (b &&& 0x007fffff).toUInt64 <<< 29
      Word.quiet (.f64 (sign ||| 0x7ff0000000000000 ||| fraction))
    else .ofDouble (Float32.ofBits b).toFloat
  | w => w

def demote : Word → Word
  | .f64 b =>
    if (Float.ofBits b).isNaN then
      let sign := (b >>> 32).toUInt32 &&& 0x80000000
      let fraction := (b >>> 29).toUInt32 &&& 0x007fffff
      Word.quiet (.f32 (sign ||| 0x7f800000 ||| fraction))
    else .ofSingle (Float.ofBits b).toFloat32
  | w => w

/-- A word that is used as one scalar, as another; between integers of one size it
stays as it is. -/
def convert (source target : Prim) (w : Word) : Word :=
  if Register.ofPrim source = Register.ofPrim target then w
  else if target = .boolean then
    .ofBool (if source.isFloat then w.askFloats (· != ·) (· != ·) (.ofScalar source 0)
      else w.bits != 0)
  else
    match source.isFloat, target.isFloat with
    | true, true => if target = .f64 then promote w else demote w
    | true, false => toInteger target w
    | false, true => fromInteger source target w
    | false, false =>
      .ofScalar target (if source = .i32 && target = .u64 then w.signed.toUInt64 else w.bits)

end ShaderForge.Native
