import ShaderForge.Buffer.Listing

/-!
# Faults

Why building, analyzing, linking or reading a function fails.  Each cause is a
constructor; its wording is in one function.
-/

namespace ShaderForge

/-- What is wrong with the structure of a buffer. -/
inductive Defect where
  -- addresses and chains
  | unresolved (i : Index)
  | listForward (cell next : Index)
  | notList (i : Index) (found : Atom)
  | removedOperand (position : Nat) (i : Index)
  | conditionLate (branch cond : Index)
  | targetNotLater (branch target : Index)
  | operandLate (i address : Index)
  | strayNote (i : Index)
  | endless (i : Index)
  | unsettled
  -- types
  | chainReaches (found : Atom) (i : Index)
  | chainUnclosed (head : Index)
  | fieldForward (i next : Index)
  | fieldless (head : Index)
  | selfTyped (i : Index)
  | wraps (site : Index) (ty : Ty)
  | swizzleOf (code : Swizzle) (i : Index) (ty : Ty)
  | fieldOfNonStruct (field : Int32) (i : Index) (ty : Ty)
  | fieldBeyond (field : Int32) (i : Index) (count : Nat)
  | accessInto (i : Index) (ty : Ty)
  | mixedNode (i : Index) (item : Prim)
  | nodeLink (i : Index) (found : Atom)
  -- signatures
  | parameterPosition (i : Index) (function : String) (position expected : Nat)
  | returnMismatch (i : Index) (function : String) (ty previous : Ty)
  -- linking
  | localSizes (i : Index) (count : Nat)
  | meshSizes (i : Index) (count : Nat)
  | notLayout (code : Intrinsic) (i : Index)
  | notSizeLiteral (arg : Index) (code : Intrinsic) (i : Index)
  | fieldNotData (node head : Index)
  | referenceBase (i : Index)
  | modifierWraps (found : Atom) (i : Index)
  -- code generation
  | blockLeftOpen (function : String)
  | closesNothing (kind : BranchKind) (i : Index)
  | notValue (found : Atom) (i : Index)
  | qualifierNotValue (kind : Qualifier) (i : Index)
  | referenceAddress (i : Index) (count : Nat)
  | aggregateField (field : Int32) (aggregate : Nat)
  -- native values
  | storeWidth (i : Index) (given expected : Nat)
  | outsideLoop (kind : BranchKind) (i : Index)
  | noConditional (kind : BranchKind) (i : Index)
  | conditionWidth (i : Index) (count : Nat)
  | swizzleBeyond (code : Swizzle) (i : Index)
  | accessBy (i : Index) (value : Literal)
  | accessBeyond (i : Index)
  | targetFieldBeyond (field : Int32) (i : Index)
  | valueFieldBeyond (field : Int32)
  | operationWidths (i : Index) (left right : Nat)
  | intrinsicWidths (code : Intrinsic) (i : Index) (widths : List Nat)
  | constructWidth (i : Index) (given expected : Nat)
  | callWidth (i : Index) (given : Nat) (callee : String) (expected : Nat)
deriving DecidableEq, Repr

namespace Defect

def message : Defect → String
  | unresolved i => s!"index {i.text} does not resolve"
  | listForward cell next => s!"list cell {cell.text} continues forward to {next.text}"
  | notList i found => s!"expected list at {i.text}, found {found.kindName}"
  | removedOperand position i => s!"atom %{position} still references removed atom {i.text}"
  | conditionLate branch cond => s!"branch {branch.text} condition {cond.text} is not emitted yet"
  | targetNotLater branch target =>
    s!"branch {branch.text} falls through to {target.text} which is not a later branch"
  | operandLate i address =>
    s!"atom {i.text} references {address.text} which is not emitted before it"
  | strayNote i => s!"annotation on {i.text} does not resolve"
  | endless i => s!"storage of {i.text} is its own source"
  | unsettled => "optimization does not settle"
  | chainReaches found i => s!"field chain reaches {found.kindName} at {i.text}"
  | chainUnclosed head => s!"field chain starting at {head.text} is not terminated by a nil marker"
  | fieldForward i next => s!"field {i.text} links forward to {next.text}"
  | fieldless head => s!"struct at {head.text} has no fields"
  | selfTyped i => s!"type of {i.text} depends on itself"
  | wraps site ty =>
    s!"{site.text} wraps {ty.text}; only plain data may be an array or reference base"
  | swizzleOf code i ty => s!"swizzle {code.name} at {i.text} applied to {ty.text}"
  | fieldOfNonStruct field i ty =>
    s!"load of field {field.toInt} at {i.text} from non-struct {ty.text}"
  | fieldBeyond field i count =>
    s!"load of field {field.toInt} at {i.text} from a struct with {count} fields"
  | accessInto i ty => s!"array access at {i.text} into {ty.text}"
  | mixedNode i item => s!"type node {i.text} is both {item.name} and a nested struct"
  | nodeLink i found => s!"field {i.text} links to {found.kindName} instead of a type node"
  | parameterPosition i function position expected =>
    s!"parameter {i.text} of `{function}` has position {position}, expected {expected}"
  | returnMismatch i function ty previous =>
    s!"return at {i.text} of `{function}` yields {ty.text}, earlier returns yield {previous.text}"
  | localSizes i count => s!"layout_local_size at {i.text} takes 1 to 3 sizes, got {count}"
  | meshSizes i count => s!"layout_mesh_shader_sizes at {i.text} takes 2 sizes, got {count}"
  | notLayout code i => s!"{code.name} at {i.text} is not a layout intrinsic"
  | notSizeLiteral arg code i =>
    s!"argument {arg.text} of {code.name} at {i.text} is not a non-negative integer literal"
  | fieldNotData node head => s!"field {node.text} of struct {head.text} is not plain data"
  | referenceBase i => s!"buffer reference {i.text} does not wrap plain data"
  | modifierWraps found i => s!"modifier wraps {found.kindName} at {i.text} instead of a resource"
  | blockLeftOpen function => s!"`{function}` leaves a block open"
  | closesNothing kind i => s!"{kind.name} at {i.text} closes no block"
  | notValue found i => s!"{found.kindName} at {i.text} is not a value"
  | qualifierNotValue kind i => s!"{kind.name} qualifier at {i.text} is not a value"
  | referenceAddress i count => s!"buffer reference at {i.text} takes one address, got {count}"
  | aggregateField field aggregate => s!"load of field {field.toInt} from aggregate {aggregate}"
  | storeWidth i given expected => s!"store at {i.text} writes {given} components into {expected}"
  | outsideLoop kind i => s!"{kind.name} at {i.text} is outside a loop"
  | noConditional kind i => s!"{kind.name} at {i.text} follows no open conditional"
  | conditionWidth i count => s!"condition at {i.text} has {count} components"
  | swizzleBeyond code i => s!"swizzle {code.name} at {i.text} out of range"
  | accessBy i value => s!"array access at {i.text} by {value.text}"
  | accessBeyond i => s!"array access at {i.text} out of range"
  | targetFieldBeyond field i => s!"field {field.toInt} at {i.text} out of range"
  | valueFieldBeyond field => s!"field {field.toInt} out of range"
  | operationWidths i left right => s!"operation at {i.text} mixes {left} and {right} components"
  | intrinsicWidths code i widths =>
    s!"intrinsic `{code.name}` at {i.text} mixes widths [" ++
      ", ".intercalate (widths.map toString) ++ "]"
  | constructWidth i given expected =>
    s!"construct at {i.text} supplies {given} of {expected} components"
  | callWidth i given callee expected =>
    s!"call at {i.text} passes {given} components to `{callee}`, which takes {expected}"

end Defect

/-- One accepted argument list with its result. -/
structure Signature where
  args : List Ty
  result : Ty
deriving DecidableEq, Repr

def Signature.text (s : Signature) : String :=
  "(" ++ ", ".intercalate (s.args.map Ty.text) ++ ") -> " ++ s.result.text

/-- Why bytes are not a function stream. -/
inductive StreamDefect where
  | unexpectedEnd (position : Nat)
  | lengthExceeds (length position : Nat)
  | notUtf8 (position : Nat)
  | unknownCode (family : String) (code : Nat)
  | unknownLiteral (kind : Nat)
  | unknownTag (tag position : Nat)
  | trailing (bytes functions : Nat)
deriving DecidableEq, Repr

def StreamDefect.message : StreamDefect → String
  | unexpectedEnd position => s!"unexpected end of stream at byte {position}"
  | lengthExceeds length position => s!"length {length} at byte {position} exceeds the stream"
  | notUtf8 position => s!"name at byte {position} is not utf-8"
  | unknownCode family code => s!"unknown {family} code {code}"
  | unknownLiteral kind => s!"unknown literal kind {kind}"
  | unknownTag tag position => s!"unknown atom tag {tag} at byte {position}"
  | trailing bytes functions => s!"{bytes} trailing bytes after {functions} functions"

inductive Fault where
  /-- A defect, with the buffer as it stood. -/
  | structural (defect : Defect) (snapshot : Buffer)
  /-- No signature of an operator or intrinsic fits. -/
  | overload (target : String) (attempted : List Ty) (candidates : List Signature)
  /-- The first argument of a resource intrinsic is not of the family it needs. -/
  | resource (target : Intrinsic) (attempted : List Ty)
  | stream (defect : StreamDefect)

namespace Fault

def resourceFamily : Intrinsic → String
  | .imageLoad | .imageStore | .imageSize => "image"
  | _ => "sampler"

def overloadMessage (target : String) (attempted : List Ty) (candidates : List String) : String :=
  s!"no overload of `{target}` accepts (" ++ ", ".intercalate (attempted.map Ty.text)
    ++ "); candidates:\n" ++ "\n".intercalate candidates

def message : Fault → String
  | structural defect snapshot => "structural error: " ++ defect.message ++ "\n" ++ snapshot.listing
  | overload target attempted candidates =>
    overloadMessage target attempted (candidates.map Signature.text)
  | resource target attempted =>
    overloadMessage target.name attempted ["first argument must be a " ++ resourceFamily target]
  | stream defect => "malformed function stream: " ++ defect.message

end Fault

def Buffer.fault (b : Buffer) (d : Defect) : Fault := .structural d b

end ShaderForge
