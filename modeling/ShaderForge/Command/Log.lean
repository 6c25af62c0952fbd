/-!
# Log entries

Entries have a level, and a run shows those that its verbosity asks for.
Characters that steer a terminal are written out.
-/

namespace ShaderForge.Command

inductive Level where
  | warning
  | info
  | debug
deriving DecidableEq, Repr

namespace Level

def verbosity : Level → Nat
  | warning => 0
  | info => 1
  | debug => 2

def name : Level → String
  | warning => "WARN"
  | info => "INFO"
  | debug => "DEBUG"

end Level

/-- Whether a character can steer a terminal without starting a line. -/
def isControl (c : Char) : Bool :=
  c.toNat ∈ [0x07, 0x08, 0x0c, 0x1b, 0x7f] || (0x80 ≤ c.toNat && c.toNat ≤ 0x9f)

def shownChar (c : Char) : List Char :=
  if !isControl c then [c]
  else
    let digits := Nat.toDigits 16 c.toNat
    if c.toNat < 0x80 then
      ['\\', 'x'] ++ List.replicate (2 - digits.length) '0' ++ digits
    else ['\\', 'u', '\x7b'] ++ digits ++ ['\x7d']

def shown (text : String) : String := String.ofList (text.toList.flatMap shownChar)

end ShaderForge.Command
