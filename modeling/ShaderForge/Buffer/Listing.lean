import ShaderForge.Buffer.Basic

/-!
# Listings

The assembly listing of a buffer, one atom a line, and its use graph in DOT.
-/

namespace ShaderForge

def Decoration.text (d : Decoration) : String :=
  let fields := if d.fields.isEmpty then "" else " \x7b" ++ ", ".intercalate d.fields ++ "\x7d"
  "\"" ++ d.name ++ "\"" ++ fields ++ (if d.phantom then " phantom" else "")

namespace Buffer

/-- The notes after an atom: captured, named, typed. -/
def notes (b : Buffer) (i : Index) : List String :=
  (if b.isSynthesized i then ["synthesized"] else [])
    ++ ((b.decoration? i).map Decoration.text).toList
    ++ match b.cachedType? i with
      | some ty => if ty.isNil then [] else [": " ++ ty.text]
      | none => []

/-- One line of the listing; a star marks a live atom. -/
def line (b : Buffer) (i : Index) (a : Atom) : String :=
  let live := if b.isMarked i then "*" else " "
  let label := i.text
  let padding := "".pushn ' ' (5 - label.length)
  let notes := b.notes i
  let tail := if notes.isEmpty then "" else "    ; " ++ " ".intercalate notes
  "  " ++ live ++ " " ++ padding ++ label ++ " = " ++ a.text ++ tail ++ "\n"

def listing (b : Buffer) : String :=
  String.join (b.indexed.map fun (i, a) => b.line i a)

def quoteless (s : String) : String :=
  s.map fun c => if c == '"' then Char.ofNat 39 else c

def graphNode (b : Buffer) (i : Index) (a : Atom) : String :=
  let n := toString i.toInt
  let style := if b.isMarked i then ", style=filled, fillcolor=lightblue" else ""
  let label := "\"%" ++ n ++ ": " ++ quoteless a.text ++ "\""
  let node := "  n" ++ n ++ " [label=" ++ label ++ style ++ "];\n"
  let edges := a.operands.map fun o => "  n" ++ n ++ " -> n" ++ toString o.toInt ++ ";\n"
  let jump := match a with
    | .branch _ _ (.ref t) => "  n" ++ n ++ " -> n" ++ toString t ++ " [style=dashed];\n"
    | _ => ""
  node ++ String.join edges ++ jump

/-- The use graph in DOT; live atoms are filled. -/
def graph (b : Buffer) (name : String) : String :=
  "digraph \"" ++ quoteless name ++ "\" \x7b\n"
    ++ "  node [shape=box, fontname=monospace];\n"
    ++ String.join (b.indexed.map fun (i, a) => b.graphNode i a)
    ++ "\x7d\n"

end Buffer

end ShaderForge
