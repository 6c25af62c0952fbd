import ShaderForge.Coded

/-!
# Swizzles

Selections of vector components.
-/

namespace ShaderForge

inductive Swizzle where
  | x
  | y
  | z
  | w
  | xy
  | yz
  | zw
  | xz
  | xw
  | yw
  | xyz
  | yzw
  | xyzw
deriving DecidableEq, Repr, Inhabited

namespace Swizzle

instance : Coded Swizzle where
  all := [x, y, z, w, xy, yz, zw, xz, xw, yw, xyz, yzw, xyzw]
  name
    | x => "x"
    | y => "y"
    | z => "z"
    | w => "w"
    | xy => "xy"
    | yz => "yz"
    | zw => "zw"
    | xz => "xz"
    | xw => "xw"
    | yw => "yw"
    | xyz => "xyz"
    | yzw => "yzw"
    | xyzw => "xyzw"

abbrev name (s : Swizzle) : String := Coded.name s

def components : Swizzle → List Nat
  | x => [0]
  | y => [1]
  | z => [2]
  | w => [3]
  | xy => [0, 1]
  | yz => [1, 2]
  | zw => [2, 3]
  | xz => [0, 2]
  | xw => [0, 3]
  | yw => [1, 3]
  | xyz => [0, 1, 2]
  | yzw => [1, 2, 3]
  | xyzw => [0, 1, 2, 3]

def maxComponent (s : Swizzle) : Nat :=
  s.components.foldl max 0

end Swizzle

end ShaderForge
