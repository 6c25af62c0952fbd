import ShaderForge.Coded

/-!
# Operators

Unary and binary operators with the symbol that both text targets print.
-/

namespace ShaderForge

inductive Operator where
  | addition
  | subtraction
  | multiplication
  | division
  | modulus
  | bitAnd
  | bitOr
  | bitXor
  | shiftLeft
  | shiftRight
  | logicalAnd
  | logicalOr
  | equals
  | notEquals
  | less
  | lessEqual
  | greater
  | greaterEqual
  | negation
  | logicalNot
  | bitNot
deriving DecidableEq, Repr, Inhabited

namespace Operator

instance : Coded Operator where
  all := [addition, subtraction, multiplication, division, modulus, bitAnd, bitOr, bitXor,
    shiftLeft, shiftRight, logicalAnd, logicalOr, equals, notEquals, less, lessEqual,
    greater, greaterEqual, negation, logicalNot, bitNot]
  name
    | addition => "addition"
    | subtraction => "subtraction"
    | multiplication => "multiplication"
    | division => "division"
    | modulus => "modulus"
    | bitAnd => "bit_and"
    | bitOr => "bit_or"
    | bitXor => "bit_xor"
    | shiftLeft => "bit_shift_left"
    | shiftRight => "bit_shift_right"
    | logicalAnd => "logical_and"
    | logicalOr => "logical_or"
    | equals => "equals"
    | notEquals => "not_equals"
    | less => "less"
    | lessEqual => "less_equal"
    | greater => "greater"
    | greaterEqual => "greater_equal"
    | negation => "negation"
    | logicalNot => "logical_not"
    | bitNot => "bit_not"

abbrev name (o : Operator) : String := Coded.name o

/-- The symbol written before the operand or between the operands. -/
def symbol : Operator → String
  | addition => "+"
  | subtraction | negation => "-"
  | multiplication => "*"
  | division => "/"
  | modulus => "%"
  | bitAnd => "&"
  | bitOr => "|"
  | bitXor => "^"
  | shiftLeft => "<<"
  | shiftRight => ">>"
  | logicalAnd => "&&"
  | logicalOr => "||"
  | equals => "=="
  | notEquals => "!="
  | less => "<"
  | lessEqual => "<="
  | greater => ">"
  | greaterEqual => ">="
  | logicalNot => "!"
  | bitNot => "~"

def isUnary : Operator → Bool
  | negation | logicalNot | bitNot => true
  | _ => false

end Operator

end ShaderForge
