import ShaderForge.Coded

/-!
# Control markers

Structured control flow markers and the modes of a constructor.
-/

namespace ShaderForge

/-- Structured control flow markers. -/
inductive BranchKind where
  | ifThen
  | elseIf
  | otherwise
  | whileLoop
  | forLoop
  | next
  | leave
  | close
deriving DecidableEq, Repr, Inhabited

namespace BranchKind

instance : Coded BranchKind where
  all := [ifThen, elseIf, otherwise, whileLoop, forLoop, next, leave, close]
  name
    | ifThen => "if"
    | elseIf => "elif"
    | otherwise => "else"
    | whileLoop => "while"
    | forLoop => "for"
    | next => "continue"
    | leave => "break"
    | close => "end"

abbrev name (k : BranchKind) : String := Coded.name k

def opens : BranchKind → Bool
  | ifThen | elseIf | otherwise | whileLoop | forLoop => true
  | _ => false

def hasCondition : BranchKind → Bool
  | ifThen | elseIf | whileLoop | forLoop => true
  | _ => false

end BranchKind

/-- How a construction materialises.  A transient one only carries a type. -/
inductive Mode where
  | normal
  | transient
deriving DecidableEq, Repr, Inhabited

namespace Mode

instance : Coded Mode where
  all := [normal, transient]
  name
    | normal => "normal"
    | transient => "transient"

abbrev name (m : Mode) : String := Coded.name m

end Mode

end ShaderForge
