import ShaderForge.Registry
import ShaderForge.Stream.Encode

/-!
# Reading streams

The reader takes bytes from the front and counts them, so that every refusal
names the byte where it arose.
-/

namespace ShaderForge.Stream

/-- What is left to read, and how many bytes were read before it. -/
structure Cursor where
  rest : Bytes
  position : Nat

abbrev Reader := StateT Cursor (Except Fault)

namespace Reader

def refuse {α : Type} (d : StreamDefect) : Reader α := throw (.stream d)

def take (n : Nat) : Reader Bytes := do
  let c ← get
  if n ≤ c.rest.length then
    set (⟨c.rest.drop n, c.position + n⟩ : Cursor)
    return c.rest.take n
  else refuse (.unexpectedEnd c.position)

def number (width : Nat) : Reader Nat := LittleEndian.decode <$> take width

def byte : Reader Nat := number 1

def half : Reader Nat := number 2

def word : Reader Nat := number 4

def signed : Reader Int32 := do return (UInt32.ofNat (← word)).toInt32

def index : Reader Index := do return Index.ofInt (← signed).toInt

/-- A length whose items, of `unit` bytes or more, fit in what is left. -/
def length (unit : Nat) : Reader Nat := do
  let n ← word
  let c ← get
  if c.rest.length < n * unit then refuse (.lengthExceeds n (c.position - 4))
  else return n

def text : Reader String := do
  let n ← length 1
  let start := (← get).position
  let raw ← take n
  match String.fromUTF8? (ByteArray.mk raw.toArray) with
  | some s => return s
  | none => refuse (.notUtf8 start)

def code {α : Type} [Coded α] (family : String) : Reader α := do
  let n ← half
  match Coded.ofCode? n with
  | some a => return a
  | none => refuse (.unknownCode family n)

def many {α : Type} (item : Reader α) : Nat → Reader (List α)
  | 0 => return []
  | n + 1 => do
    let a ← item
    let rest ← many item n
    return a :: rest

def literal : Reader Literal := do
  let kind ← byte
  let bits ← number 8
  match kind with
  | 0 => return .bool (bits != 0)
  | 1 => return .i32 (UInt32.ofNat bits).toInt32
  | 2 => return .u32 (UInt32.ofNat bits)
  | 3 => return .f32 (UInt32.ofNat bits)
  | 4 => return .f64 (UInt64.ofNat bits)
  | 5 => return .u64 (UInt64.ofNat bits)
  | _ => refuse (.unknownLiteral kind)

def atom : Reader Atom := do
  let start := (← get).position
  match ← byte with
  | 0 =>
    let underlying ← index
    let number ← signed
    return .qualifier underlying (← code "qualifier") number
  | 1 =>
    let item ← code "primitive type"
    let down ← index
    return .type item down (← index)
  | 2 => return .literal (← literal)
  | 3 =>
    let src ← index
    return .swizzle src (← code "swizzle")
  | 4 =>
    let a ← index
    let b ← index
    return .operation (← code "operation") a b
  | 5 =>
    let args ← index
    return .intrinsic (← code "intrinsic") args
  | 6 =>
    let item ← index
    return .list item (← index)
  | 7 =>
    let ty ← index
    let args ← index
    return .construct ty args (← code "constructor mode")
  | 8 =>
    let callee ← word
    let ty ← index
    return .call (UInt32.ofNat callee) ty (← index)
  | 9 =>
    let dst ← index
    return .store dst (← index)
  | 10 =>
    let src ← index
    return .load src (← signed)
  | 11 =>
    let src ← index
    return .access src (← index)
  | 12 =>
    let cond ← index
    let failto ← index
    return .branch (← code "branch") cond failto
  | 13 => return .ret (← index)
  | tag => refuse (.unknownTag tag start)

def decoration : Reader (Index × Decoration) := do
  let i ← index
  let name ← text
  let phantom := (← byte) != 0
  let fields ← many text (← length 4)
  return (i, { name, fields, phantom })

def body : Reader (FunctionId × Buffer) := do
  let id ← word
  let atoms ← many atom (← length 1)
  let synthesized ← many index (← length 4)
  let decorations ← many decoration (← length 4)
  return (UInt32.ofNat id, Buffer.ofContent atoms synthesized decorations)

end Reader

/-- A function as a stream holds it, not yet analyzed. -/
structure Entry where
  name : String
  id : FunctionId
  buffer : Buffer

def Reader.entry : Reader Entry := do
  let name ← Reader.text
  let (id, buffer) ← Reader.body
  match buffer.validate with
  | .ok _ => return { name, id, buffer }
  | .error e => throw e

/-- All functions of a stream, which ends with the last. -/
def Reader.entries : Reader (List Entry) := do
  let count ← Reader.word
  let entries ← Reader.many Reader.entry count
  let rest := (← get).rest
  if rest.isEmpty then return entries
  else Reader.refuse (.trailing rest.length count)

/-- Reads a stream without analyzing its functions. -/
def readEntries (bytes : Bytes) : Except Fault (List Entry) :=
  Prod.fst <$> Reader.entries.run ⟨bytes, 0⟩

def readFunctions (bytes : Bytes) : Except Fault (List Function) := do
  let entries ← readEntries bytes
  entries.mapM fun e => Function.build e.name e.id e.buffer

def readRegistry (bytes : Bytes) : Except Refusal Registry := do
  let functions ← Refusal.lift (readFunctions bytes)
  functions.foldlM Registry.insert .empty

end ShaderForge.Stream
