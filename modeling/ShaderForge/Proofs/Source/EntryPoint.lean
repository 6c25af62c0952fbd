import ShaderForge.Proofs.Linkage.UniqueNames
import ShaderForge.Proofs.Source.Resources
import ShaderForge.Source.Spirv

/-!
The entry point of a source. Functions are printed under their symbols, and a function that shares its
name has no such symbol, while the placeholder is left out as soon as a function has the name.
-/

namespace ShaderForge.Spirv

open Linkage

/-- A function definition taken apart. -/
structure Definition where
  result : String
  name : String
  parameters : List String
  body : String

namespace Definition

def text (d : Definition) : String :=
  d.result ++ " " ++ d.name ++ "(" ++ ", ".intercalate d.parameters ++ ") \x7b" ++ d.body ++ "\x7d\n"

theorem opening_infix (d : Definition) : (d.name ++ "(").toList <:+: d.text.toList := by
  refine ⟨(d.result ++ " ").toList, (", ".intercalate d.parameters ++ ") \x7b" ++ d.body ++ "\x7d\n").toList, ?_⟩
  simp only [text, String.toList_append, List.append_assoc]

end Definition

def standIn (stage : Stage) : Definition where
  result := "void"
  name := entryPoint
  parameters := []
  body := match stage with
    | .vertex => "\n    gl_Position = vec4(0.0);\n"
    | _ => ""

theorem text_standIn (stage : Stage) : (standIn stage).text = placeholder stage := by
  cases stage <;> decide +kernel

/-- What a function of the unit is printed as: a definition under its symbol. -/
structure Defines (u : Linkage) (f : Function) (d : Definition) : Prop where
  symbol : u.symbol? f.id = some d.name
  printed : Statement.definition { unit := u, function := f, dialect := Glsl.dialect } = .ok d.text

/-- How many functions of the unit have the name of the entry point, whatever they are printed under. -/
def namesakes (u : Linkage) : Nat := u.functions.countP (·.name == entryPoint)

/-! ### Definitions in a source -/

section

variable {u : Linkage} {o : Options} {f : Function} {text : String}

theorem defines_of_definition
    (printed : Statement.definition { unit := u, function := f, dialect := Glsl.dialect } = .ok text) :
    ∃ d, Defines u f d ∧ d.text = text := by
  have whole := printed
  obtain ⟨signature, signed, printed⟩ := Except.bind_ok printed
  obtain ⟨body, _, printed⟩ := Except.bind_ok printed
  obtain ⟨returns, symbol, own, extra, named, _, _, rfl⟩ := Statement.signature_ok signed
  have same : Definition.text ⟨returns, symbol, own ++ extra, "\n" ++ body⟩ = text := by
    rw [← Except.ok.inj printed, ← String.toList_inj]
    simp [Definition.text]
  exact ⟨⟨returns, symbol, own ++ extra, "\n" ++ body⟩, ⟨named, by rw [same, whole]⟩, same⟩

theorem defines_of_definitions (generated : Glsl.definitions Glsl.dialect u = .ok text) :
    ∃ own, List.Forall₂ (Defines u) u.functions own ∧ text = String.join (own.map fun d => "\n" ++ d.text) := by
  obtain ⟨texts, each, generated⟩ := Except.bind_ok generated
  have defined : List.Forall₂ (fun f text => ∃ d, Defines u f d ∧ "\n" ++ d.text = text) u.functions texts := by
    refine (Except.mapM_ok_iff.1 each).imp fun f text one => ?_
    obtain ⟨_, printed, one⟩ := Except.bind_ok one
    obtain ⟨d, defines, same⟩ := defines_of_definition printed
    exact ⟨d, defines, by rw [same, ← Except.ok.inj one]⟩
  rw [← Except.ok.inj generated]
  clear each generated
  generalize u.functions = fs at defined ⊢
  induction defined with
  | nil => exact ⟨[], .nil, rfl⟩
  | cons first _ ih =>
    obtain ⟨d, defines, rfl⟩ := first
    obtain ⟨own, rest, same⟩ := ih
    exact ⟨d :: own, .cons defines rest, by rw [String.join_cons, same, List.map_cons, String.join_cons]⟩

theorem countP_defines {fs : List Function} {own : List Definition} (defined : List.Forall₂ (Defines u) fs own)
    (name : String) : own.countP (·.name == name) = fs.countP (u.symbol? ·.id == some name) := by
  induction defined with
  | nil => rfl
  | cons first _ ih =>
    rw [List.countP_cons, List.countP_cons, ih, first.symbol, Option.some_beq_some]

/-- A source is its declarations and then its definitions, with the placeholder last where no function has the
name of the entry point. -/
theorem definitions_of_source (made : source u o = .ok text) :
    ∃ head own, Glsl.header u o = .ok head ∧ List.Forall₂ (Defines u) u.functions own ∧
      text = head ++ String.join ((own ++ if namesakes u = 0 then [standIn o.stage] else []).map
        fun d => "\n" ++ d.text) := by
  obtain ⟨generated, made, ended⟩ := Except.bind_ok made
  obtain ⟨head, headed, made⟩ := Except.bind_ok made
  obtain ⟨functions, made, same⟩ := Except.bind_ok made
  obtain ⟨own, defined, rfl⟩ := defines_of_definitions made
  obtain rfl := Except.ok.inj same
  refine ⟨head, own, headed, defined, ?_⟩
  have absent : namesakes u = 0 ↔ ¬ u.functions.any (·.name == entryPoint) = true := by
    rw [namesakes, ← Nat.pos_iff_ne_zero.not_left, List.countP_pos_iff, List.any_eq_true]
  split at ended
  · rename_i here
    rw [if_neg fun none => absent.1 none here, List.append_nil]
    exact (Except.ok.inj ended).symm
  · rename_i missing
    rw [if_pos (absent.2 missing), ← Except.ok.inj ended, ← text_standIn, ← String.toList_inj]
    simp

/-! ### Symbols of namesakes -/

theorem numbered_ne_entryPoint (name : String) (n : Nat) : numbered name n ≠ entryPoint := by
  intro same
  have underscore : '_' ∈ entryPoint.toList := by
    rw [← same, toList_numbered]
    simp
  revert underscore
  decide

variable (unit : Numbered u)
include unit

theorem symbol_entryPoint_iff (member : f ∈ u.functions) :
    u.symbol? f.id = some entryPoint ↔ f.name = entryPoint ∧ namesakes u ≤ 1 := by
  have counted : f.name = entryPoint → (Shares u f ↔ 1 < namesakes u) := by
    intro name
    rw [shares_iff (.of_map _ unit.once) member, name, namesakes]
  by_cases shared : Shares u f
  · rw [unit.symbol_of_shares member shared, Option.some.injEq]
    refine iff_of_false (numbered_ne_entryPoint _ _) ?_
    rintro ⟨name, few⟩
    exact absurd ((counted name).1 shared) (Nat.not_lt.2 few)
  · rw [unit.symbol_of_alone member shared, Option.some.injEq]
    refine ⟨fun name => ⟨name, ?_⟩, And.left⟩
    exact Nat.not_lt.1 fun many => shared ((counted name).2 many)

theorem countP_entryPoint :
    u.functions.countP (u.symbol? ·.id == some entryPoint) = if namesakes u = 1 then 1 else 0 := by
  have same : u.functions.countP (u.symbol? ·.id == some entryPoint) =
      u.functions.countP (fun f => f.name == entryPoint && decide (namesakes u ≤ 1)) := by
    refine List.countP_congr fun f member => ?_
    rw [beq_iff_eq, symbol_entryPoint_iff unit member, Bool.and_eq_true, beq_iff_eq, decide_eq_true_iff]
  rw [same]
  by_cases few : namesakes u ≤ 1
  · simp only [few, decide_true, Bool.and_true]
    change namesakes u = _
    split <;> omega
  · simp [few]
    omega

end

/-- A source is its declarations, then each function in order, then the placeholder where no function has the
name of the entry point. A function is printed under that name only if no other one has it, so the name is
defined once, by a function or by the placeholder, as long as at most one function has it, and not at all
otherwise. -/
theorem entry_defined_iff {r : Registry} {entries : List FunctionId} {u : Linkage} {o : Options} {text : String}
    (linked : link r entries = .ok u) (made : source u o = .ok text) :
    ∃ head own more, Glsl.header u o = .ok head ∧ List.Forall₂ (Defines u) u.functions own ∧
      more = (if namesakes u = 0 then [standIn o.stage] else []) ∧
      text = head ++ String.join ((own ++ more).map fun d => "\n" ++ d.text) ∧
      (∀ f ∈ u.functions, u.symbol? f.id = some entryPoint ↔ f.name = entryPoint ∧ namesakes u ≤ 1) ∧
      own.countP (·.name == entryPoint) = (if namesakes u = 1 then 1 else 0) ∧
      (own ++ more).countP (·.name == entryPoint) = (if namesakes u ≤ 1 then 1 else 0) := by
  have unit : Numbered u := ⟨(linked_of_link linked).made.coherent, (linked_of_link linked).records.once⟩
  obtain ⟨head, own, headed, defined, same⟩ := definitions_of_source made
  have printed : own.countP (·.name == entryPoint) = if namesakes u = 1 then 1 else 0 := by
    rw [countP_defines defined, countP_entryPoint unit]
  refine ⟨head, own, _, headed, defined, rfl, same, fun f => symbol_entryPoint_iff unit, printed, ?_⟩
  rw [List.countP_append, printed]
  -- no namesake leaves it to the placeholder, one is printed under its name, more are numbered
  obtain none | one | many : namesakes u = 0 ∨ namesakes u = 1 ∨ 1 < namesakes u := by omega
  · rw [none]
    rfl
  · rw [one]
    rfl
  · rw [if_neg (by omega), if_neg (by omega), if_neg (by omega)]
    rfl

theorem roster_entry_defined :
    ∃ u text, link (roster ["f", "main", "f"]) [2] = .ok u ∧ source u {} = .ok text ∧
      u.functions.map (·.name) = ["f", "main", "f"] ∧
      ∃ head own, text = head ++ String.join (own.map fun d : Definition => "\n" ++ d.text) ∧
        List.Forall₂ (Defines u) u.functions own ∧ own.countP (·.name == entryPoint) = 1 := by
  have passes : ((link (roster ["f", "main", "f"]) [2]).toOption.any fun u => (source u {}).toOption.any fun _ =>
      decide (u.functions.map (·.name) = ["f", "main", "f"] ∧ namesakes u = 1)) = true := by decide +kernel
  obtain ⟨u, linked, passes⟩ := (Option.any_eq_true _ _).1 passes
  obtain ⟨text, made, passes⟩ := (Option.any_eq_true _ _).1 passes
  rw [Except.toOption_eq_some_iff] at linked made
  obtain ⟨names, one⟩ := of_decide_eq_true passes
  obtain ⟨head, own, more, _, defined, rest, same, _, printed, _⟩ := entry_defined_iff linked made
  rw [one] at rest printed
  subst rest
  rw [if_neg Nat.one_ne_zero, List.append_nil] at same
  exact ⟨u, text, linked, made, names, head, own, same, defined, printed⟩

/-- What two functions with the name of the entry point are printed as, the second of which calls the first. -/
def numberedEntries : String :=
  "#version 460\n\n" ++ "\nvoid main_0() \x7b\n    return;\n\x7d\n" ++
    "\nvoid main_1() \x7b\n    main_0();\n    return;\n\x7d\n"

/-- Two functions with the name are both numbered, and the placeholder is left out all the same: nothing in the
source reads like a definition under the name. -/
theorem roster_entry_missing :
    ∃ u, link (roster ["main", "main"]) [1] = .ok u ∧
      u.functions.map (fun f => (f.name, u.symbol? f.id)) = [("main", some "main_0"), ("main", some "main_1")] ∧
      source u {} = .ok numberedEntries ∧
      ∀ text, source u {} = .ok text → ∀ d : Definition, d.name = entryPoint →
        ¬ d.text.toList <:+: text.toList := by
  obtain ⟨u, linked, passes⟩ := exists_roster ["main", "main"] 1
    (fun u => decide (u.functions.map (fun f => (f.name, u.symbol? f.id)) =
      [("main", some "main_0"), ("main", some "main_1")] ∧ (source u {}).toOption = some numberedEntries))
    (by decide +kernel)
  obtain ⟨symbols, made⟩ := of_decide_eq_true passes
  rw [Except.toOption_eq_some_iff] at made
  refine ⟨u, linked, symbols, made, ?_⟩
  intro text made' d name within
  obtain rfl := Except.ok.inj (made.symm.trans made')
  have opening := d.opening_infix.trans within
  rw [name] at opening
  have absent : ¬ (entryPoint ++ "(").toList <:+: numberedEntries.toList := by decide +kernel
  exact absent opening

end ShaderForge.Spirv
