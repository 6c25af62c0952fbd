import ShaderForge.Proofs.Linkage.GlobalNames
import ShaderForge.Proofs.Source.Lexemes
import ShaderForge.Source.Cpp

/-!
How printed texts begin. Names, calls and everything in parentheses begin with a letter, an underscore
or a parenthesis, numbers with a digit; only negative constants begin with a minus, unless a dialect
spells them otherwise. No text opens a comment.
-/

namespace ShaderForge

open Lexer

/-- Texts that open no comment, wherever they stand. -/
def Tame (text : String) : Prop := isTame text.toList = true

/-- Texts that begin a word, a number or a parenthesis, or else where `signed` holds with a minus. -/
structure Headed (signed : Prop) (text : String) : Prop where
  tame : Tame text
  opens : ∃ c rest, text.toList = c :: rest ∧ ((signed ∧ c = '-') ∨ (¬ signed ∧ (isWordChar c = true ∨ c = '(')))

def IsName (text : String) : Prop := text.toList ≠ [] ∧ text.toList.all isWordChar = true

instance (text : String) : Decidable (IsName text) := inferInstanceAs (Decidable (_ ∧ _))

variable {signed : Prop} {a b text : String} {args : List String}

namespace Tame

instance (text : String) : Decidable (Tame text) := inferInstanceAs (Decidable (_ = _))

theorem append (first : Tame a) (second : Tame b) : Tame (a ++ b) := by
  rw [Tame, String.toList_append]
  exact isTame_append first second

theorem intercalate (sep : String) (between : Tame sep) (each : ∀ a ∈ args, Tame a) : Tame (sep.intercalate args) := by
  induction args with
  | nil => rfl
  | cons a rest ih =>
    have first := each a List.mem_cons_self
    have later := ih fun b member => each b (List.mem_cons_of_mem a member)
    cases rest with
    | nil => simpa using first
    | cons next rest =>
      rw [String.intercalate_cons_cons]
      exact (first.append between).append later

end Tame

theorem IsName.isWordChar_of_mem (named : IsName text) {c : Char} (member : c ∈ text.toList) : isWordChar c = true :=
  List.all_eq_true.1 named.2 c member

theorem IsName.tame (named : IsName text) : Tame text :=
  isTame_of_not_mem fun slash => by cases named.isWordChar_of_mem slash

namespace Headed

theorem append (first : Headed signed a) (second : Tame b) : Headed signed (a ++ b) := by
  obtain ⟨tame, c, rest, text, opens⟩ := first
  exact ⟨tame.append second, c, rest ++ b.toList, by rw [String.toList_append, text, List.cons_append], opens⟩

theorem of_head (head : text.toList.head?.any isWordChar = true) (tame : Tame text) : Headed False text := by
  obtain ⟨c, first, word⟩ := (Option.any_eq_true _ _).1 head
  obtain ⟨rest, same⟩ := List.head?_eq_some_iff.1 first
  exact ⟨tame, c, rest, same, Or.inr ⟨id, Or.inl word⟩⟩

theorem of_name (named : IsName a) : Headed False a := by
  obtain ⟨c, rest, same⟩ := List.exists_cons_of_ne_nil named.1
  exact ⟨named.tame, c, rest, same, Or.inr ⟨id, Or.inl (named.isWordChar_of_mem (same ▸ List.mem_cons_self))⟩⟩

theorem paren : Headed False "(" := ⟨by decide, '(', [], rfl, Or.inr ⟨id, Or.inr rfl⟩⟩

theorem iff {other : Prop} (same : signed ↔ other) (headed : Headed signed text) : Headed other text :=
  propext same ▸ headed

theorem call (name : Headed False a) (each : ∀ b ∈ args, Tame b) :
    Headed False (a ++ "(" ++ ", ".intercalate args ++ ")") :=
  ((name.append (by decide)).append (Tame.intercalate ", " (by decide) each)).append (by decide)

end Headed

/-- A division sign opens no comment before what begins properly. -/
theorem Headed.tame_symbol (headed : Headed signed text) (code : Operator) : Tame (code.symbol ++ text) := by
  cases code with
  | division =>
    obtain ⟨tame, c, rest, same, opens⟩ := headed
    have other : c ≠ '/' ∧ c ≠ '*' := by
      rcases opens with ⟨_, rfl⟩ | ⟨_, word | rfl⟩
      · decide
      · constructor <;> (rintro rfl; cases word)
      · decide
    have head : isTame ('/' :: text.toList) = true := by
      rw [isTame, tame, same]
      simp [other]
    rw [Tame, String.toList_append]
    exact head
  | _ => exact Tame.append (by decide) headed.tame

/-- Ways to put a text inside another: it comes first, or after what begins as a name does. -/
def Wraps (f : String → String) : Prop :=
  ∃ before after, (∀ text, f text = before ++ text ++ after) ∧ (before = "" ∨ Headed False before) ∧ Tame after

namespace Wraps

variable {f : String → String}

theorem tame (wraps : Wraps f) (inner : Tame text) : Tame (f text) := by
  obtain ⟨before, after, same, begins, ends⟩ := wraps
  rw [same]
  rcases begins with rfl | headed
  · rw [String.empty_append]
    exact inner.append ends
  · exact (headed.tame.append inner).append ends

theorem headed (wraps : Wraps f) (inner : Headed False text) : Headed False (f text) := by
  obtain ⟨before, after, same, begins, ends⟩ := wraps
  rw [same]
  rcases begins with rfl | headed
  · rw [String.empty_append]
    exact inner.append ends
  · exact (headed.append inner.tame).append ends

end Wraps

/-! ### Numbers -/

theorem exists_digit (n : Nat) : ∃ c rest, (toString n).toList = c :: rest ∧ c.isDigit = true ∧ '/' ∉ rest := by
  have some : (toString n).toList ≠ [] := by
    rw [Nat.toString_eq_repr, Nat.toList_repr]
    exact Nat.toDigits_ne_nil
  obtain ⟨c, rest, same⟩ := List.exists_cons_of_ne_nil some
  have digits : ∀ d ∈ c :: rest, d.isDigit = true := fun d member => isDigit_of_mem_toString (same ▸ member)
  refine ⟨c, rest, same, digits c List.mem_cons_self, fun slash => ?_⟩
  cases digits _ (List.mem_cons_of_mem c slash)

theorem Headed.of_digit {c : Char} {rest : List Char} (digit : c.isDigit = true) (tame : '/' ∉ rest)
    (same : text.toList = c :: rest) : Headed False text := by
  refine ⟨?_, c, rest, same, Or.inr ⟨id, Or.inl (isWordChar_of_isDigit digit)⟩⟩
  rw [Tame, same]
  refine isTame_of_not_mem fun slash => ?_
  rcases List.mem_cons.1 slash with rfl | slash
  · cases digit
  · exact tame slash

theorem headed_nat (n : Nat) : Headed False (toString n) := by
  obtain ⟨c, rest, same, digit, tame⟩ := exists_digit n
  exact .of_digit digit tame same

theorem Headed.minus (tame : Tame a) : Headed True ("-" ++ a) :=
  ⟨Tame.append (by decide) tame, '-', a.toList, String.toList_append, Or.inl ⟨trivial, rfl⟩⟩

theorem headed_int (n : Int) : Headed (n < 0) (toString n) := by
  cases n with
  | ofNat m => exact (headed_nat m).iff (by simp)
  | negSucc m => exact (Headed.minus (headed_nat (m + 1)).tame).iff (by simp)

namespace FloatLayout

theorem headed_positional (d : Decimal) : Headed False (positional d) := by
  obtain ⟨c, rest, same, digit, tame⟩ := exists_digit d.coefficient
  have zeros : ∀ n, '/' ∉ List.replicate n '0' := fun n member => by cases (List.mem_replicate.1 member).2
  have other : c ≠ '/' := by
    rintro rfl
    cases digit
  unfold positional
  simp only [same]
  split
  · refine .of_digit (c := '0') rfl ?_ String.toList_ofList
    simp [zeros, tame, other.symm]
  · rename_i positive
    split
    · refine .of_digit digit ?_ String.toList_ofList
      simp [zeros, tame]
    · -- at least one digit stands before the point
      obtain ⟨k, places⟩ := Nat.exists_eq_succ_of_ne_zero (n := (((c :: rest).length : Int) + d.exponent).toNat)
        (by omega)
      rw [places, List.take_succ_cons, List.drop_succ_cons, List.cons_append, List.cons_append]
      refine .of_digit digit ?_ String.toList_ofList
      simp only [List.mem_append, not_or]
      refine ⟨⟨fun member => tame (List.mem_of_mem_take member), by decide⟩, fun member => ?_⟩
      exact tame (List.mem_of_mem_drop member)

theorem headed_scientific (d : Decimal) : Headed False (scientific d) := by
  obtain ⟨c, rest, same, digit, tame⟩ := exists_digit d.coefficient
  unfold scientific
  simp only [same, List.drop_succ_cons, List.drop_zero, List.take_succ_cons, List.take_zero]
  refine (Headed.append ?_ (by decide)).append (headed_int _).tame
  refine .of_digit digit ?_ String.toList_ofList
  split
  · exact List.not_mem_nil
  · simp [tame]

theorem headed_render (l : FloatLayout) (d : Decimal) : Headed False (l.render d) := by
  unfold render
  simp only
  split
  · exact headed_positional d
  · exact headed_scientific d

end FloatLayout

theorem Headed.sign (negative : Bool) (inner : Headed False text) :
    Headed (negative = true) ((if negative then "-" else "") ++ text) := by
  cases negative with
  | true => exact (Headed.minus inner.tame).iff (by simp)
  | false =>
    rw [if_neg Bool.false_ne_true, String.empty_append]
    exact inner.iff (by simp)

/-- Whether a number is spelled with a minus first, in a spelling that has a word for infinity or one that
has none. -/
def BinaryValue.isNegative (worded : Bool) : BinaryValue → Bool
  | .nan => false
  | .infinite negative => worded && negative
  | .finite negative _ _ _ => negative

/-- Whether a constant is spelled with a minus first. -/
def Literal.isNegative (worded : Bool) : Literal → Bool
  | .i32 v => decide (v.toInt < 0)
  | .f32 bits => (BinaryFormat.single.decode bits.toNat).isNegative worded
  | .f64 bits => (BinaryFormat.double.decode bits.toNat).isNegative worded
  | _ => false

theorem BinaryFormat.headed_text {f : BinaryFormat} {bits mantissa : Nat} {negative atPower : Bool} {exponent : Int}
    (finite : f.decode bits = .finite negative mantissa exponent atPower) : Headed (negative = true) (f.text bits) := by
  unfold text
  rw [finite]
  simp only
  split
  · exact .sign negative (.of_digit (c := '0') rfl (by decide) rfl)
  · exact .sign negative (FloatLayout.headed_render _ _)

theorem FloatSpelling.headed_render {s : FloatSpelling} {worded : Bool} (nan : Headed False s.nan)
    (infinity : ∀ negative, Headed ((worded && negative) = true) (s.infinity negative)) (suffix : Tame s.suffix)
    (f : BinaryFormat) (bits : Nat) : Headed ((f.decode bits).isNegative worded = true) (s.render f bits) := by
  unfold render
  split
  · rename_i same
    rw [same]
    exact nan.iff (by simp [BinaryValue.isNegative])
  · rename_i negative same
    rw [same]
    exact infinity negative
  · rename_i negative mantissa exponent atPower same
    rw [same]
    exact (BinaryFormat.headed_text same).append suffix

/-! ### Dialects -/

/-- A dialect that spells what a unit names so that every expression begins properly; `worded` says whether it
has a word for infinity. -/
structure Dialect.Tidy (d : Dialect) (u : Linkage) (worded : Bool) : Prop where
  literal : ∀ v, Headed (v.isNegative worded = true) (d.literal v)
  typeName : ∀ ty name, d.typeName u ty = .ok name → Headed False name
  global : ∀ g, Headed False (d.global g)
  construct : ∀ ty name args, Headed False name → (∀ a ∈ args, Tame a) → Headed False (d.construct ty name args)
  addressCast : ∀ name address, Headed False name → Tame address → Headed False (d.addressCast name address)
  swizzle : ∀ code, Wraps (d.swizzle · code)
  swizzleTarget : ∀ code, Wraps (d.swizzleTarget · code)
  binary : ∀ (code : Operator) a b, d.operation code a (some b) = "(" ++ a ++ " " ++ code.symbol ++ " " ++ b ++ ")"
  unary : ∀ (code : Operator) a, d.operation code a none = "(" ++ code.symbol ++ a ++ ")"
  intrinsic : ∀ code args text, (∀ a ∈ args, Tame a) → d.intrinsic code args = .ok text → Headed False text
  blockMember : ∀ phantom, Wraps (d.blockMember · phantom)
  dereference : ∀ phantom, Wraps (d.dereference · phantom)
  call : ∀ callee symbol args, Headed False symbol → (∀ a ∈ args, Tame a) →
    Headed False (d.call u callee symbol args)

/-- A unit whose functions, aggregates and fields have words for names. -/
structure Linkage.PlainlyNamed (u : Linkage) : Prop where
  functions : ∀ f ∈ u.functions, IsName f.name
  aggregates : ∀ a ∈ u.aggregates, IsName a.name
  fields : ∀ a ∈ u.aggregates, ∀ name ∈ a.key.names, IsName name

instance (u : Linkage) : Decidable u.PlainlyNamed :=
  decidable_of_iff ((∀ f ∈ u.functions, IsName f.name) ∧ (∀ a ∈ u.aggregates, IsName a.name) ∧
    ∀ a ∈ u.aggregates, ∀ name ∈ a.key.names, IsName name)
    ⟨fun ⟨functions, aggregates, fields⟩ => ⟨functions, aggregates, fields⟩,
      fun named => ⟨named.functions, named.aggregates, named.fields⟩⟩

theorem Linkage.PlainlyNamed.tame_field {u : Linkage} (named : u.PlainlyNamed) {n : Nat} {a : Aggregate} {f : Field}
    (found : u.aggregates[n]? = some a) (member : f ∈ a.fields) : Tame f.name := by
  obtain ⟨⟨ty, k⟩, _, rfl⟩ := List.mem_map.1 member
  show Tame ((a.key.names[k]?).getD s!"f{k}")
  cases name : a.key.names[k]? with
  | none => exact Tame.append (a := "f") (by decide) (headed_nat k).tame
  | some declared => exact (named.fields a (Array.mem_of_getElem? found) _ (List.mem_of_getElem? name)).tame

theorem Linkage.PlainlyNamed.headed_symbol {u : Linkage} (named : u.PlainlyNamed) {id : FunctionId} {name : String}
    (known : u.symbol? id = some name) : Headed False name := by
  obtain ⟨f, found, same⟩ := Option.bind_eq_some_iff.1 known
  have own := Headed.of_name (named.functions f (List.mem_of_find?_eq_some found))
  cases same
  split
  · exact (own.append (b := "_") (by decide)).append (headed_nat id.toNat).tame
  · exact own

theorem Dialect.headed_dataName {d : Dialect} {u : Linkage} (named : u.PlainlyNamed)
    (primitive : ∀ p, Headed False (d.primitive p)) {base : LinkedData} {name : String}
    (known : d.dataName u base = .ok name) : Headed False name := by
  cases base with
  | prim p =>
    cases known
    exact primitive p
  | aggregate n =>
    simp only [dataName] at known
    split at known
    · rename_i found
      cases known
      exact .of_name (named.aggregates _ (Array.mem_of_getElem? found))
    · cases known

theorem Dialect.headed_typeName {d : Dialect} {u : Linkage} (named : u.PlainlyNamed)
    (primitive : ∀ p, Headed False (d.primitive p))
    (array : ∀ element size, Headed False element → Headed False (d.array element size))
    (image : ∀ texel dim text, d.image texel dim = .ok text → Headed False text)
    (sampler : ∀ texel dim text, d.sampler texel dim = .ok text → Headed False text)
    (reference : ∀ base id, Headed False base → Headed False (d.reference base id)) {ty : LinkedTy} {name : String}
    (known : d.typeName u ty = .ok name) : Headed False name := by
  cases ty with
  | nil =>
    cases known
    exact primitive .nil
  | data base => exact headed_dataName named primitive known
  | array element size =>
    obtain ⟨inner, headed, known⟩ := Except.bind_ok known
    cases known
    exact array _ _ (headed_dataName named primitive headed)
  | image texel dim => exact image _ _ _ known
  | sampler texel dim => exact sampler _ _ _ known
  | reference base id =>
    obtain ⟨inner, headed, known⟩ := Except.bind_ok known
    cases known
    exact reference _ _ (headed_dataName named primitive headed)

theorem Intrinsic.headed_glsl (code : Intrinsic) : Headed False code.glsl := by
  refine .of_name ?_
  cases code <;> decide +kernel

theorem Prim.headed_glsl (p : Prim) : Headed False p.glsl := by
  refine .of_name ?_
  cases p <;> decide +kernel

theorem Global.headed_name (g : Global) : Headed False g.name := by
  have numbered : ∀ (stem : String) (n : Int), IsName stem → Headed False s!"{stem}{n}" :=
    fun stem n named => (Headed.of_name named).append (headed_int n).tame
  cases g with
  | special kind n =>
    cases kind with
    | taskPayload => exact .of_name (a := "_task_payload") (by decide)
    | hitAttribute => exact .of_name (a := "_hit_attribute") (by decide)
    | _ => exact numbered _ n (by decide)
  | pushConstant => exact .of_name (by decide)
  | builtin b => exact .of_name (by cases b <;> decide)
  | _ => exact numbered _ _ (by decide)

namespace Glsl

variable {u : Linkage}

theorem headed_literal (v : Literal) : Headed (v.isNegative false = true) (literal v) := by
  have infinity : ∀ negative, Headed ((false && negative) = true)
      (if negative then "(-1.0 / 0.0)" else "(1.0 / 0.0)") := by
    intro negative
    cases negative with
    | true => exact (Headed.paren.append (b := "-1.0 / 0.0)") (by decide)).iff (by simp)
    | false => exact (Headed.paren.append (b := "1.0 / 0.0)") (by decide)).iff (by simp)
  cases v with
  | bool b => exact (Headed.of_name (by cases b <;> decide)).iff (by simp [Literal.isNegative])
  | i32 v => exact (headed_int v.toInt).iff (by simp [Literal.isNegative])
  | u32 v =>
    exact ((headed_nat v.toNat).append (by decide)).iff (by simp [Literal.isNegative])
  | u64 v =>
    exact ((headed_nat v.toNat).append (by decide)).iff (by simp [Literal.isNegative])
  | f32 bits =>
    exact FloatSpelling.headed_render (Headed.paren.append (b := "0.0 / 0.0)") (by decide)) infinity (by decide) _ _
  | f64 bits =>
    exact FloatSpelling.headed_render (Headed.paren.append (b := "0.0 / 0.0)") (by decide)) infinity (by decide) _ _

theorem headed_brackets (element : String) (size : Int) (headed : Headed False element) :
    Headed False (element ++ brackets size) := by
  refine headed.append ?_
  unfold brackets
  split
  · decide
  · exact (Tame.append (by decide) (headed_int size).tame).append (by decide)

theorem headed_channel (kind : String) (named : IsName kind) (texel : Prim) (dim : Nat) :
    Headed False s!"{channelLetter texel}{kind}{dim}D" := by
  have begins : Headed False (channelLetter texel ++ kind) := by
    unfold channelLetter
    split
    · exact (Headed.of_name (by decide)).append named.tame
    · exact (Headed.of_name (by decide)).append named.tame
    · rw [String.empty_append]
      exact .of_name named
  exact (begins.append (headed_nat dim).tame).append (by decide)

theorem wraps_blockMember (phantom : Bool) : Wraps (blockMember · phantom) := by
  cases phantom with
  | true => exact ⟨"", "", fun text => by simp [blockMember], Or.inl rfl, by decide⟩
  | false => exact ⟨"", ".data", fun text => by simp [blockMember], Or.inl rfl, by decide⟩

theorem wraps_swizzle (code : Swizzle) : Wraps (dialect.swizzle · code) := by
  refine ⟨"", "." ++ code.name, fun text => ?_, Or.inl rfl, ?_⟩
  · rw [String.empty_append, ← String.append_assoc]
    rfl
  · cases code <;> decide

theorem headed_intrinsic (code : Intrinsic) (args : List String) (text : String) (each : ∀ a ∈ args, Tame a)
    (printed : intrinsic code args = .ok text) : Headed False text := by
  unfold intrinsic at printed
  split at printed
  · cases printed
    exact code.headed_glsl
  · split at printed
    · cases printed
    · cases printed
      exact .call code.headed_glsl each

theorem tidy (named : u.PlainlyNamed) : dialect.Tidy u false where
  literal := headed_literal
  typeName ty name := Dialect.headed_typeName named Prim.headed_glsl headed_brackets
    (fun texel dim text printed => by
      cases printed
      exact headed_channel "image" (by decide) texel dim)
    (fun texel dim text printed => by
      cases printed
      exact headed_channel "sampler" (by decide) texel dim)
    (fun _ id _ => (Headed.of_name (a := "_Ref") (by decide)).append (headed_int id).tame)
  global := Global.headed_name
  construct ty name args headed each := .call headed each
  addressCast name address headed tame := ((headed.append (by decide)).append tame).append (by decide)
  swizzle := wraps_swizzle
  swizzleTarget := wraps_swizzle
  binary _ _ _ := rfl
  unary _ _ := rfl
  intrinsic := headed_intrinsic
  blockMember := wraps_blockMember
  dereference := wraps_blockMember
  call callee symbol args headed each := .call headed each

end Glsl

namespace Cpp

variable {u : Linkage}

theorem headed_literal (v : Literal) : Headed (v.isNegative true = true) (literal v) := by
  have infinity : ∀ negative, Headed ((true && negative) = true) (if negative then "-INFINITY" else "INFINITY") := by
    intro negative
    cases negative with
    | true => exact (Headed.minus (a := "INFINITY") (by decide)).iff (by simp)
    | false => exact (Headed.of_name (by decide)).iff (by simp)
  cases v with
  | bool b => exact (Headed.of_name (by cases b <;> decide)).iff (by simp [Literal.isNegative])
  | i32 v => exact (headed_int v.toInt).iff (by simp [Literal.isNegative])
  | u32 v =>
    exact ((headed_nat v.toNat).append (by decide)).iff (by simp [Literal.isNegative])
  | u64 v =>
    exact ((headed_nat v.toNat).append (by decide)).iff (by simp [Literal.isNegative])
  | f32 bits => exact FloatSpelling.headed_render (.of_name (by decide)) infinity (by decide) _ _
  | f64 bits => exact FloatSpelling.headed_render (.of_name (by decide)) infinity (by decide) _ _

theorem headed_primitive (p : Prim) : Headed False (primitive p) := by
  cases p with
  | nil | boolean | i32 | u32 | f32 | f64 | u64 | accelerationStructure => exact .of_name (by decide)
  | _ => exact .of_head (by decide) (by decide)

theorem headed_array (element : String) (size : Int) (headed : Headed False element) :
    Headed False (array element size) := by
  unfold array
  split
  · exact headed.append (by decide)
  · have opening : Headed False "std::array<" := .of_head (by decide) (by decide)
    have begins := (opening.append headed.tame).append (b := ", ") (by decide)
    exact (begins.append (headed_int size).tame).append (by decide)

theorem headed_construct (ty : LinkedTy) (name : String) (args : List String) (headed : Headed False name)
    (each : ∀ a ∈ args, Tame a) : Headed False (construct ty name args) := by
  have listed := Tame.intercalate ", " (by decide) each
  unfold construct
  simp only
  split
  · exact ((headed.append (by decide)).append listed).append (by decide)
  · exact ((headed.append (by decide)).append listed).append (by decide)
  · exact ((headed.append (by decide)).append listed).append (by decide)

theorem wraps_select (function : String) (tame : Tame function) (code : Swizzle) :
    Wraps (select function · code) := by
  have places : ∀ many : List Nat, Tame (", ".intercalate (many.map toString)) := by
    refine fun many => Tame.intercalate ", " (by decide) fun a member => ?_
    obtain ⟨n, _, rfl⟩ := List.mem_map.1 member
    exact (headed_nat n).tame
  unfold select
  generalize code.components = many
  split
  · rename_i single
    have after : Tame ("[" ++ toString single ++ "]") :=
      (Tame.append (by decide) (headed_nat single).tame).append (by decide)
    refine ⟨"", _, fun text => ?_, Or.inl rfl, after⟩
    rw [String.empty_append, ← String.append_assoc, ← String.append_assoc]
    rfl
  · have opening : Headed False "tsl::" := .of_head (by decide) (by decide)
    have before := (((opening.append tame).append (b := "<") (by decide)).append
      (headed_nat many.length).tame).append (b := ">(") (by decide)
    have after : Tame (", " ++ ", ".intercalate (many.map toString) ++ ")") :=
      (Tame.append (by decide) (places many)).append (by decide)
    refine ⟨_, _, fun text => ?_, Or.inr before, after⟩
    simp only [String.append_assoc]
    rfl

theorem headed_intrinsic (code : Intrinsic) (args : List String) (text : String) (each : ∀ a ∈ args, Tame a)
    (printed : intrinsic code args = .ok text) : Headed False text := by
  unfold intrinsic at printed
  split at printed
  · cases printed
    have library : Headed False "tsl::" := .of_head (by decide) (by decide)
    exact .call (library.append code.headed_glsl.tame) each
  · cases printed

theorem headed_addressCast (name address : String) (headed : Headed False name) (tame : Tame address) :
    Headed False (dialect.addressCast name address) := by
  have cast : Headed False "reinterpret_cast<" := .of_head (by decide) (by decide)
  exact (((cast.append headed.tame).append (b := ">(") (by decide)).append tame).append (by decide)

theorem headed_call (callee : FunctionId) (symbol : String) (args : List String) (headed : Headed False symbol)
    (each : ∀ a ∈ args, Tame a) : Headed False (dialect.call u callee symbol args) := by
  refine .call headed fun a member => ?_
  rcases List.mem_append.1 member with given | resource
  · exact each a given
  · obtain ⟨g, _, rfl⟩ := List.mem_map.1 resource
    exact g.headed_name.tame

theorem tidy (named : u.PlainlyNamed) : dialect.Tidy u true where
  literal := headed_literal
  typeName ty name := Dialect.headed_typeName named headed_primitive headed_array
    (fun texel dim text printed => by cases printed)
    (fun texel dim text printed => by cases printed)
    (fun _ _ headed => headed.append (by decide))
  global := Global.headed_name
  construct := headed_construct
  addressCast := headed_addressCast
  swizzle := wraps_select "swizzle" (by decide)
  swizzleTarget := wraps_select "select" (by decide)
  binary _ _ _ := rfl
  unary _ _ := rfl
  intrinsic := headed_intrinsic
  blockMember phantom := ⟨"", "", fun text => by simp [dialect, spelled, plain], Or.inl rfl, by decide⟩
  dereference phantom := ⟨"(*", ")", fun text => rfl, Or.inr (Headed.paren.append (b := "*") (by decide)), by decide⟩
  call := headed_call

end Cpp

end ShaderForge
