import ShaderForge.Literal

/-!
# Registers and words

The kinds of machine register, and the words that they hold.  A value keeps the
register it was made in, so code can hand an operation a word that its type
does not promise.
-/

namespace ShaderForge.Native

/-- The kinds of machine register. -/
inductive Register where
  | i8
  | i32
  | i64
  | f32
  | f64
deriving DecidableEq, Repr, Inhabited

namespace Register

def ofPrim : Prim → Register
  | .boolean => i8
  | .f32 => f32
  | .f64 => f64
  | .u64 => i64
  | _ => i32

def isFloat : Register → Bool
  | f32 | f64 => true
  | i8 | i32 | i64 => false

def bytes : Register → Nat
  | i8 => 1
  | i32 | f32 => 4
  | i64 | f64 => 8

def width : Register → UInt64
  | i8 => 8
  | i32 | f32 => 32
  | i64 | f64 => 64

def signBit : Register → UInt64
  | i8 => 0x80
  | i32 | f32 => 0x80000000
  | i64 | f64 => 0x8000000000000000

def extendsTo (r wide : Register) : Bool := !r.isFloat && r.bytes < wide.bytes

/-- Whether a register can be stored as a scalar: a boolean is extended first. -/
def storesAs (s : Prim) (r : Register) : Bool := s != .boolean || r.extendsTo .i32

end Register

/-- The bits that a register of each kind holds. -/
inductive Word where
  | i8 (bits : UInt8)
  | i32 (bits : UInt32)
  | i64 (bits : UInt64)
  | f32 (bits : UInt32)
  | f64 (bits : UInt64)
deriving DecidableEq, Repr, Inhabited

namespace Word

def register : Word → Register
  | i8 _ => .i8
  | i32 _ => .i32
  | i64 _ => .i64
  | f32 _ => .f32
  | f64 _ => .f64

def bits : Word → UInt64
  | i8 b => b.toUInt64
  | i32 b | f32 b => b.toUInt64
  | i64 b | f64 b => b

def ofBits (r : Register) (bits : UInt64) : Word :=
  match r with
  | .i8 => i8 bits.toUInt8
  | .i32 => i32 bits.toUInt32
  | .i64 => i64 bits
  | .f32 => f32 bits.toUInt32
  | .f64 => f64 bits

def ofScalar (s : Prim) (bits : UInt64) : Word := ofBits (.ofPrim s) bits

def ofLiteral (value : Literal) : Word := ofScalar value.ty value.bits

def ofBool (b : Bool) : Word := i8 b.toUInt8

def signed : Word → Int64
  | i8 b => b.toInt8.toInt64
  | i32 b | f32 b => b.toInt32.toInt64
  | i64 b | f64 b => b.toInt64

theorem ofBits_bits (w : Word) : ofBits w.register w.bits = w := by
  cases w <;> simp [ofBits, register, bits]

end Word

end ShaderForge.Native
