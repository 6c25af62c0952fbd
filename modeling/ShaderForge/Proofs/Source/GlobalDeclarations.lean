import ShaderForge.Proofs.Linkage.GlobalNames
import ShaderForge.Proofs.Source.Declarations
import ShaderForge.Proofs.Source.Resources

/-!
Globals as they are declared. GLSL source has one declaration for each global that the functions use,
and a C++ function one parameter for each of its resources; two of one name are twins.
-/

namespace ShaderForge

namespace Globals

def listed (t : Globals) : List Global :=
  t.inputs.keys.map .input ++ t.outputs.keys.map .output ++ (t.pushConstant.map fun _ => .pushConstant).toList
    ++ (t.uniforms.keys.map .uniform ++ t.buffers.keys.map .buffer)
    ++ (t.shared.keys.map .shared ++ t.samplers.keys.map .sampler ++ t.images.keys.map .image) ++ t.special.keys

variable {t : Globals}

theorem not_mem_special (special : ∀ g ∈ t.special, ∃ kind n, g = .special kind n) {g : Global}
    (other : ∀ kind n, g ≠ .special kind n) : g ∉ t.special := by
  intro member
  obtain ⟨kind, n, same⟩ := special g member
  exact other kind n same

theorem mem_listed (special : ∀ g ∈ t.special, ∃ kind n, g = .special kind n) {g : Global} :
    g ∈ t.listed ↔ t.Declares g ∧ ∀ b, g ≠ .builtin b := by
  have elsewhere : (∀ kind n, g ≠ .special kind n) → g ∉ t.special := not_mem_special special
  cases g with
  | special kind n => simp [listed, Declares]
  | pushConstant => simp [listed, Declares, elsewhere (by simp), Option.isSome_iff_exists]
  | builtin b => simp [listed, elsewhere (by simp)]
  | _ => simp [listed, Declares, elsewhere (by simp)]

theorem nodup_listed (special : ∀ g ∈ t.special, ∃ kind n, g = .special kind n) : t.listed.Nodup := by
  have part : ∀ {α : Type} (table : Table α) {key : Int → Global}, Function.Injective key →
      (table.keys.map key).Nodup := fun table key inj => (List.nodup_map_iff inj).2 Std.ExtTreeMap.nodup_keys
  have push : (t.pushConstant.map fun _ => Global.pushConstant).toList.Nodup := by
    cases t.pushConstant <;> simp
  -- the tables name their globals in different ways, and none but the last lists special ones
  simp only [listed, List.nodup_append]
  refine ⟨⟨⟨⟨⟨part _ fun _ _ => Global.input.inj, part _ fun _ _ => Global.output.inj, ?_⟩, push, ?_⟩,
    ⟨part _ fun _ _ => Global.uniform.inj, part _ fun _ _ => Global.buffer.inj, ?_⟩, ?_⟩,
    ⟨⟨part _ fun _ _ => Global.shared.inj, part _ fun _ _ => Global.sampler.inj, ?_⟩,
      part _ fun _ _ => Global.image.inj, ?_⟩, ?_⟩, Std.ExtTreeMap.nodup_keys, ?_⟩
  case refine_8 =>
    rintro g known h member rfl
    refine not_mem_special special ?_ (Std.ExtTreeMap.mem_keys.1 member)
    intro kind n same
    simp [same] at known
  all_goals
    rintro g known _ known' rfl
    cases g <;> simp at known known'

end Globals

namespace Glsl

open Linkage

variable {u : Linkage} {g : Global} {text : String}

/-- A declaration of a global: its name comes after a space, and after it an array suffix at most. -/
def Introduces (g : Global) (line : String) : Prop :=
  ∃ before suffix, line = before ++ " " ++ g.name ++ suffix ++ ";\n" ∧
    (suffix = "" ∨ ∃ size, suffix = brackets size)

/-- Text that consists of one declaration for each of some globals, in order. -/
def Declared (gs : List Global) (text : String) : Prop :=
  ∃ lines, text = String.join lines ∧ List.Forall₂ Introduces gs lines

theorem Declared.append {gs hs : List Global} {text more : String} (first : Declared gs text)
    (later : Declared hs more) : Declared (gs ++ hs) (text ++ more) := by
  obtain ⟨lines, rfl, each⟩ := first
  obtain ⟨lines', rfl, each'⟩ := later
  exact ⟨lines ++ lines', String.join_append.symm, List.rel_append each each'⟩

theorem Declared.of_mapM {α : Type} {items : List α} {key : α → Global} {line : α → Except TargetFault String}
    {lines : List String} (printed : items.mapM line = .ok lines)
    (introduces : ∀ x text, line x = .ok text → Introduces (key x) text) :
    Declared (items.map key) (String.join lines) :=
  ⟨lines, rfl, List.forall₂_map_left_iff.2 ((Except.mapM_ok_iff.1 printed).imp introduces)⟩

theorem Declared.of_each {α : Type} {t : Table α} {key : Int → Global} {line : Int → α → Except TargetFault String}
    (printed : each t line = .ok text) (introduces : ∀ n v text, line n v = .ok text → Introduces (key n) text) :
    Declared (t.keys.map key) text := by
  obtain ⟨lines, made, same⟩ := Except.bind_ok printed
  obtain rfl := Except.ok.inj same
  rw [← Std.ExtTreeMap.map_fst_toList_eq_keys, List.map_map]
  exact .of_mapM made fun (n, v) text => introduces n v text

theorem Introduces.of_declarator {ty : LinkedTy} {declared : String} (before : String)
    (printed : declarator u ty g.name = .ok declared) : Introduces g (before ++ declared ++ ";\n") := by
  unfold declarator at printed
  split at printed
  · rename_i element size
    obtain ⟨name, _, printed⟩ := Except.bind_ok printed
    cases printed
    exact ⟨before ++ name, brackets size.toInt, by simp only [String.append_assoc], Or.inr ⟨_, rfl⟩⟩
  · obtain ⟨name, _, printed⟩ := Except.bind_ok printed
    cases printed
    exact ⟨before ++ name, "", by simp only [String.append_assoc, String.append_empty], Or.inl rfl⟩

theorem Introduces.of_block (head name members : String) : Introduces g (block head name members (" " ++ g.name)) :=
  ⟨head ++ " " ++ name ++ " \x7b" ++ members ++ " \x7d", "", by
    simp only [block, String.append_assoc, String.append_empty], Or.inl rfl⟩

theorem Introduces.of_count (before : String) (count : Option Int) :
    Introduces g (before ++ " " ++ g.name ++ countSuffix count ++ ";\n") := by
  refine ⟨before, _, rfl, ?_⟩
  cases count with
  | none => exact Or.inl rfl
  | some size => exact Or.inr ⟨size, rfl⟩

theorem layoutVariables_declared (printed : layoutVariables u = .ok text) :
    Declared (u.globals.inputs.keys.map .input ++ u.globals.outputs.keys.map .output) text := by
  obtain ⟨inputs, first, printed⟩ := Except.bind_ok printed
  obtain ⟨outputs, later, printed⟩ := Except.bind_ok printed
  cases printed
  refine .append (.of_each first fun n v text made => ?_) (.of_each later fun n v text made => ?_)
  all_goals
    obtain ⟨declared, written, made⟩ := Except.bind_ok made
    cases made
    exact .of_declarator _ written

theorem pushConstant_declared (printed : pushConstant u = .ok text) :
    Declared (u.globals.pushConstant.map fun _ => .pushConstant).toList text := by
  unfold pushConstant at printed
  split at printed
  · rename_i absent
    cases printed
    rw [absent]
    exact ⟨[], rfl, .nil⟩
  · rename_i p found
    obtain ⟨members, _, printed⟩ := Except.bind_ok printed
    cases printed
    rw [found]
    have line := Introduces.of_block (g := .pushConstant) "layout(push_constant) uniform" Global.pushConstant.block members
    exact ⟨[_], by simp [String.join_cons], .cons line .nil⟩

theorem blocks_declared (printed : blocks u = .ok text) :
    Declared (u.globals.uniforms.keys.map .uniform ++ u.globals.buffers.keys.map .buffer) text := by
  obtain ⟨uniforms, first, printed⟩ := Except.bind_ok printed
  obtain ⟨buffers, later, printed⟩ := Except.bind_ok printed
  cases printed
  refine .append (.of_each first fun n v text made => ?_) (.of_each later fun n v text made => ?_)
  all_goals
    obtain ⟨members, _, made⟩ := Except.bind_ok made
    cases made
    exact .of_block _ _ _

theorem resources_declared (printed : resources u = .ok text) :
    Declared (u.globals.shared.keys.map .shared ++ u.globals.samplers.keys.map .sampler
      ++ u.globals.images.keys.map .image) text := by
  obtain ⟨shared, first, printed⟩ := Except.bind_ok printed
  obtain ⟨samplers, second, printed⟩ := Except.bind_ok printed
  obtain ⟨images, third, printed⟩ := Except.bind_ok printed
  cases printed
  refine .append (.append (.of_each first fun n v text made => ?_) (.of_each second fun n v text made => ?_))
    (.of_each third fun n v text made => ?_)
  · obtain ⟨declared, written, made⟩ := Except.bind_ok made
    cases made
    exact .of_declarator _ written
  all_goals
    obtain ⟨type, _, made⟩ := Except.bind_ok made
    cases made
    exact .of_count _ _

theorem special_introduces {v : SpecialGlobal} (printed : special u g v = .ok text) : Introduces g text := by
  obtain ⟨declared, written, printed⟩ := Except.bind_ok printed
  split at printed
  case h_1 =>
    rename_i n _
    have spaced : ") uniform accelerationStructureEXT " = ") uniform accelerationStructureEXT" ++ " " := by decide
    refine ⟨s!"layout(binding = {n}) uniform accelerationStructureEXT", "", ?_, Or.inl rfl⟩
    rw [← Except.ok.inj printed, spaced]
    simp only [toString, String.append_assoc, String.append_empty]
  all_goals
    cases printed
    exact .of_declarator _ written

/-- The declarations of the globals of a unit, one for each entry of the tables. -/
theorem globals_declared (printed : globals u = .ok text) : Declared u.globals.listed text := by
  obtain ⟨layout, first, printed⟩ := Except.bind_ok printed
  obtain ⟨push, second, printed⟩ := Except.bind_ok printed
  obtain ⟨blocks, third, printed⟩ := Except.bind_ok printed
  obtain ⟨resources, fourth, printed⟩ := Except.bind_ok printed
  obtain ⟨specials, fifth, printed⟩ := Except.bind_ok printed
  cases printed
  refine ((((layoutVariables_declared first).append (pushConstant_declared second)).append
    (blocks_declared third)).append (resources_declared fourth)).append ?_
  rw [← Std.ExtTreeMap.map_fst_toList_eq_keys]
  exact .of_mapM fifth fun (g, v) text => special_introduces

theorem declared_of_generate {o : Options} (generated : generate u o = .ok text) :
    ∃ before declarations after, text = before ++ declarations ++ after ∧ globals u = .ok declarations ∧
      Declared u.globals.listed declarations := by
  obtain ⟨head, opened, generated⟩ := Except.bind_ok generated
  obtain ⟨definitions, _, generated⟩ := Except.bind_ok generated
  rw [header_eq] at opened
  obtain ⟨structs, _, opened⟩ := Except.bind_ok opened
  obtain ⟨references, _, opened⟩ := Except.bind_ok opened
  obtain ⟨declarations, printed, opened⟩ := Except.bind_ok opened
  cases opened
  cases generated
  exact ⟨_, declarations, definitions, rfl, printed, globals_declared printed⟩

end Glsl

namespace Linkage

variable {r : Registry} {entries : List FunctionId} {u : Linkage} {id : FunctionId}

/-- Globals without repetition have different names just when no two of them are twins. -/
theorem nodup_names_iff {gs : List Global} (once : gs.Nodup) :
    (gs.map Global.name).Nodup ↔ ∀ g ∈ gs, ∀ h ∈ gs, ¬ g.Twins h := by
  rw [List.nodup_map_iff_inj_on once]
  constructor
  · intro distinct g first h second twins
    exact twins.ne (distinct g first h second (Global.name_eq_iff.2 (Or.inr twins)))
  · intro single g first h second same
    exact (Global.name_eq_iff.1 same).resolve_right (single g first h second)

theorem nodup_resources : (Cpp.resources u id).Nodup :=
  Std.ExtTreeSet.ordered_toList.imp fun below same => by simp [same] at below

/-- Globals of a linked unit share a name exactly if they are twins. The GLSL source declares each global
that the functions use once, and a C++ function has one parameter for each of its resources; their names
are all different just when no two of them are twins. -/
theorem global_names_shared_iff (linked : link r entries = .ok u) :
    (∀ g h, Uses u g → Uses u h → (g.name = h.name ↔ g = h ∨ g.Twins h)) ∧
    (u.globals.listed.Nodup ∧ (∀ g, g ∈ u.globals.listed ↔ Uses u g ∧ ∀ b, g ≠ .builtin b) ∧
      ((u.globals.listed.map Global.name).Nodup ↔ Single u)) ∧
    (∀ o text, Glsl.generate u o = .ok text → ∃ before declarations after,
      text = before ++ declarations ++ after ∧ Glsl.globals u = .ok declarations ∧
        Glsl.Declared u.globals.listed declarations) ∧
    ∀ f ∈ u.functions, (Cpp.resources u f.id).Nodup ∧ (∀ g ∈ Cpp.resources u f.id, Uses u g) ∧
      (∀ parameters, Cpp.dialect.extraParameters u f.id = .ok parameters →
        List.Forall₂ Cpp.Carries (Cpp.resources u f.id) parameters) ∧
      (((Cpp.resources u f.id).map Global.name).Nodup ↔
        ∀ g ∈ Cpp.resources u f.id, ∀ h ∈ Cpp.resources u f.id, ¬ g.Twins h) := by
  have linked := linked_of_link linked
  have special := linked.made.accounted.special
  have listed : ∀ g, g ∈ u.globals.listed ↔ Uses u g ∧ ∀ b, g ≠ .builtin b := fun g => by
    rw [Globals.mem_listed special, linked.declares_iff]
  have once := Globals.nodup_listed special
  refine ⟨fun g h _ _ => Global.name_eq_iff, ⟨once, listed, ?_⟩, fun o text => Glsl.declared_of_generate, ?_⟩
  · rw [nodup_names_iff once]
    constructor
    · intro single g h first second twins
      have outside := twins.ne_builtin
      exact single g ((listed g).2 ⟨first, outside.1⟩) h ((listed h).2 ⟨second, outside.2⟩) twins
    · intro single g first h second
      exact single g h ((listed g).1 first).1 ((listed h).1 second).1
  · intro f member
    refine ⟨nodup_resources, fun g used => ⟨f, member, Cpp.mem_resources.1 used⟩, fun parameters passed => ?_,
      nodup_names_iff nodup_resources⟩
    exact (Except.mapM_ok_iff.1 passed).imp fun _ _ made => Cpp.resourceParameter_carries made

/-- A function that adds two globals, which are declared with one type. -/
def summing (kind kind' : Qualifier) (number number' : Int32) : Registry :=
  (Registry.empty.register "f" (.ofContent [.type .u32 .null .null, .qualifier (.ref 0) kind number,
    .qualifier (.ref 0) kind' number', .operation .addition (.ref 1) (.ref 2), .ret (.ref 3)] [] [])).2

theorem summing_named_apart :
    ∃ u text, link (summing .taskPayload .rayPayload 1 1) [0] = .ok u ∧ Glsl.generate u {} = .ok text ∧
      u.globals.listed.map Global.name = ["_task_payload", "_payload1"] ∧ Single u := by
  obtain ⟨u, text, linked, printed, passes⟩ := Glsl.exists_source (summing .taskPayload .rayPayload 1 1) [0] {}
    (fun u _ => decide (u.globals.listed.map Global.name = ["_task_payload", "_payload1"])) (by decide +kernel)
  have names := of_decide_eq_true passes
  obtain ⟨_, ⟨_, _, single⟩, _⟩ := global_names_shared_iff linked
  exact ⟨u, text, linked, printed, names, single.1 (names ▸ by decide)⟩

/-- Two task payloads are two globals of a unit and are declared under one name. -/
theorem payloads_share_name :
    ∃ u, link (summing .taskPayload .taskPayload 0 1) [0] = .ok u ∧ Uses u (.special .taskPayload 0) ∧
      Uses u (.special .taskPayload 1) ∧ (Global.special .taskPayload 0).name = (Global.special .taskPayload 1).name ∧
      Glsl.globals u =
        .ok "taskPayloadSharedEXT uint _task_payload;\ntaskPayloadSharedEXT uint _task_payload;\n" ∧
      ∃ text, Glsl.generate u {} = .ok text := by
  obtain ⟨u, text, linked, printed, passes⟩ := Glsl.exists_source (summing .taskPayload .taskPayload 0 1) [0] {}
    (fun u _ => decide (u.functions.map (·.id) = [0] ∧ Global.special .taskPayload 0 ∈ Cpp.resources u 0 ∧
      Global.special .taskPayload 1 ∈ Cpp.resources u 0 ∧ (Glsl.globals u).toOption =
        some "taskPayloadSharedEXT uint _task_payload;\ntaskPayloadSharedEXT uint _task_payload;\n"))
    (by decide +kernel)
  obtain ⟨ids, first, second, declared⟩ := of_decide_eq_true passes
  obtain ⟨f, member, same⟩ := List.mem_map.1 (ids ▸ by decide : (0 : FunctionId) ∈ u.functions.map (·.id))
  have used : ∀ g, g ∈ Cpp.resources u 0 → Uses u g := fun g used =>
    ⟨f, member, Cpp.mem_resources.1 (same ▸ used)⟩
  exact ⟨u, linked, used _ first, used _ second, rfl, Except.toOption_eq_some_iff.1 declared, text, printed⟩

end Linkage

end ShaderForge
