import ShaderForge.Function
import ShaderForge.LittleEndian

/-!
# Writing streams

A stream is a count of functions and the functions; a function is its name,
its number, its atoms and its annotations.  Numbers are little endian, an
address is a signed word with minus one for absent, and every list follows
its length.
-/

namespace ShaderForge.Stream

abbrev Bytes := List UInt8

def byte (n : Nat) : Bytes := LittleEndian.encode 1 n

def half (n : Nat) : Bytes := LittleEndian.encode 2 n

def word (n : Nat) : Bytes := LittleEndian.encode 4 n

def signed (n : Int32) : Bytes := word n.toUInt32.toNat

def index (i : Index) : Bytes := word (i.toInt % 0x100000000).toNat

def code {α : Type} [Coded α] [DecidableEq α] (a : α) : Bytes := half (Coded.code a)

def text (s : String) : Bytes := word s.utf8ByteSize ++ s.toUTF8.toList

def counted {α : Type} (write : α → Bytes) (xs : List α) : Bytes :=
  word xs.length ++ xs.flatMap write

def literalKind : Literal → Nat
  | .bool _ => 0
  | .i32 _ => 1
  | .u32 _ => 2
  | .f32 _ => 3
  | .f64 _ => 4
  | .u64 _ => 5

def atom : Atom → Bytes
  | .qualifier underlying kind number => byte 0 ++ index underlying ++ signed number ++ code kind
  | .type item down next => byte 1 ++ code item ++ index down ++ index next
  | .literal value => byte 2 ++ byte (literalKind value) ++ LittleEndian.encode 8 value.bits.toNat
  | .swizzle src c => byte 3 ++ index src ++ code c
  | .operation c a b => byte 4 ++ index a ++ index b ++ code c
  | .intrinsic c args => byte 5 ++ index args ++ code c
  | .list item next => byte 6 ++ index item ++ index next
  | .construct ty args mode => byte 7 ++ index ty ++ index args ++ code mode
  | .call callee ty args => byte 8 ++ word callee.toNat ++ index ty ++ index args
  | .store dst src => byte 9 ++ index dst ++ index src
  | .load src field => byte 10 ++ index src ++ signed field
  | .access src loc => byte 11 ++ index src ++ index loc
  | .branch kind cond failto => byte 12 ++ index cond ++ index failto ++ code kind
  | .ret value => byte 13 ++ index value

def decoration (entry : Index × Decoration) : Bytes :=
  index entry.1 ++ text entry.2.name ++ byte entry.2.phantom.toNat ++ counted text entry.2.fields

def body (id : FunctionId) (b : Buffer) : Bytes :=
  word id.toNat ++ counted atom b.atoms.toList ++ counted index b.synthesized.toList
    ++ counted decoration b.decorations.toList

def write (fs : List Function) : Bytes :=
  counted (fun f => text f.name ++ body f.id f.buffer) fs

end ShaderForge.Stream
