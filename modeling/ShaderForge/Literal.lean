import ShaderForge.Prim
import ShaderForge.Text.Decimal

/-!
# Literals

Scalar constants.  Floating point constants are bit patterns, so two of them
are the same exactly when their bits agree.
-/

namespace ShaderForge

inductive Literal where
  | bool (value : Bool)
  | i32 (value : Int32)
  | u32 (value : UInt32)
  | f32 (bits : UInt32)
  | f64 (bits : UInt64)
  | u64 (value : UInt64)
deriving DecidableEq, Repr, Inhabited

namespace Literal

def ty : Literal → Prim
  | bool _ => .boolean
  | i32 _ => .i32
  | u32 _ => .u32
  | f32 _ => .f32
  | f64 _ => .f64
  | u64 _ => .u64

/-- The integer denoted by an integer or boolean constant, if 64 signed bits hold it. -/
def integer? : Literal → Option Int
  | bool b => some b.toInt
  | i32 v => some v.toInt
  | u32 v => some v.toNat
  | u64 v => if v.toNat < 0x8000000000000000 then some v.toNat else none
  | f32 _ | f64 _ => none

def bits : Literal → UInt64
  | bool b => b.toUInt64
  | i32 v => v.toUInt32.toUInt64
  | u32 v => v.toUInt64
  | f32 b => b.toUInt64
  | f64 b => b
  | u64 v => v

def text : Literal → String
  | bool b => if b then "true" else "false"
  | i32 v => s!"{v.toInt}i32"
  | u32 v => s!"{v.toNat}u32"
  | f32 b => BinaryFormat.single.text b.toNat ++ "f32"
  | f64 b => BinaryFormat.double.text b.toNat ++ "f64"
  | u64 v => s!"{v.toNat}u64"

end Literal

end ShaderForge
