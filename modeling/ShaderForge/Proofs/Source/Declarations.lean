import ShaderForge.Proofs.Linkage.Closure
import ShaderForge.Proofs.Source.Drafts

/-!
Structs declared before they are named. Solid aggregates are declared in order, each after all that its
fields name; phantom ones are never declared, wherever their names stand.
-/

namespace ShaderForge.Glsl

open Buffer Linkage Statement

/-! ### Structs -/

def solid (u : Linkage) : List (Aggregate × Nat) := u.aggregates.toList.zipIdx.filter fun (a, _) => !a.phantom

theorem mem_solid {u : Linkage} {a : Aggregate} {n : Nat} :
    (a, n) ∈ solid u ↔ u.aggregates[n]? = some a ∧ a.phantom = false := by
  rw [solid, List.mem_filter, List.mem_zipIdx_iff_getElem?, Array.getElem?_toList]
  simp

theorem solid_ascending (u : Linkage) : (solid u).Pairwise fun p q => p.2 < q.2 := by
  have places : (u.aggregates.toList.zipIdx.map Prod.snd).Pairwise (· < ·) := by
    rw [List.zipIdx_map_snd]
    exact List.pairwise_lt_range'
  exact (List.pairwise_map.1 places).filter _

/-- A template in which exactly some aggregates are declared, and these are named only after that. -/
structure Ordered (u : Linkage) (declared : List Nat) (t : Template) : Prop where
  count : ∀ n, t.count (.declaration n) = declared.count n
  first : ∀ before n after, t = before ++ .name n :: after → n ∈ declared → .declaration n ∈ before
  mentioned : ∀ n, .name n ∈ t → Mentioned u n

namespace Ordered

variable {u : Linkage} {declared : List Nat} {t more : Template}

theorem nil (u : Linkage) : Ordered u [] [] := ⟨fun _ => rfl, by simp, by simp⟩

theorem text_cons (ordered : Ordered u declared t) (s : String) : Ordered u declared (.text s :: t) := by
  refine ⟨fun n => ?_, fun before n after same member => ?_, fun n member => ?_⟩
  · rw [List.count_cons_of_ne (by simp), ordered.count]
  · rcases List.cons_eq_append_iff.1 same with ⟨_, clash⟩ | ⟨rest, rfl, tail⟩
    · cases clash
    · exact List.mem_cons_of_mem _ (ordered.first rest n after tail member)
  · exact ordered.mentioned n (by simpa using member)

theorem declaration_cons {n : Nat} (ordered : Ordered u declared t) (later : ∀ m ∈ declared, n < m)
    (bare : ∀ m, .declaration m ∉ more) (named : ∀ m, .name m ∈ more → m < n ∧ Mentioned u m) :
    Ordered u (n :: declared) (.declaration n :: (more ++ t)) := by
  refine ⟨fun m => ?_, fun before m after same member => ?_, fun m member => ?_⟩
  · rw [List.count_cons, List.count_append, List.count_eq_zero_of_not_mem (bare m), ordered.count, List.count_cons]
    simp
  · rcases List.cons_eq_append_iff.1 same with ⟨_, clash⟩ | ⟨rest, rfl, tail⟩
    · cases clash
    rcases List.mem_cons.1 member with rfl | member
    · exact List.mem_cons_self
    refine List.mem_cons_of_mem _ ?_
    rcases List.append_eq_append_iff.1 tail with ⟨inner, rfl, here⟩ | ⟨inner, split, here⟩
    · exact List.mem_append_right _ (ordered.first inner m after here member)
    · cases inner with
      | nil => exact absurd (ordered.first [] m after here.symm member) List.not_mem_nil
      | cons p inner =>
        -- a field of this declaration, so an aggregate before it
        simp only [List.cons_append, List.cons.injEq] at here
        have field := (named m (by rw [split, here.1]; simp)).1
        have := later m member
        omega
  · simp only [List.mem_cons, reduceCtorEq, false_or, List.mem_append] at member
    exact member.elim (fun field => (named m field).2) (ordered.mentioned m)

theorem append (ordered : Ordered u declared t) (bare : ∀ n, .declaration n ∉ more)
    (named : ∀ n, .name n ∈ more → Mentioned u n) : Ordered u declared (t ++ more) := by
  refine ⟨fun n => ?_, fun before n after same member => ?_, fun n member => ?_⟩
  · rw [List.count_append, List.count_eq_zero_of_not_mem (bare n), ordered.count, Nat.add_zero]
  · have opened : .declaration n ∈ t := List.count_pos_iff.1 (ordered.count n ▸ List.count_pos_iff.2 member)
    rcases List.append_eq_append_iff.1 same with ⟨inner, rfl, _⟩ | ⟨inner, split, same⟩
    · exact List.mem_append_left _ opened
    · cases inner with
      | nil =>
        rw [List.append_nil] at split
        exact split ▸ opened
      | cons p inner =>
        simp only [List.cons_append, List.cons.injEq] at same
        obtain ⟨rfl, rfl⟩ := same
        exact ordered.first before n inner split member
  · exact (List.mem_append.1 member).elim (ordered.mentioned n) (named n)

end Ordered

/-- Texts that are one template under all names, in which some aggregates are declared and others not. -/
def Declares (u : Linkage) (declared : List Nat) (text : Titles → String) : Prop :=
  ∃ t : Template, (∀ names, text names = t.render names) ∧ Ordered u declared t

theorem Declares.append {u : Linkage} {declared : List Nat} {a b : Titles → String} (declares : Declares u declared a)
    (draft : Draft (Mentioned u) b) : Declares u declared fun names => a names ++ b names := by
  obtain ⟨t, drawn, ordered⟩ := declares
  obtain ⟨more, drawn', bare, named⟩ := draft
  exact ⟨t ++ more, fun names => by simp only [drawn, drawn', Template.render_append], ordered.append bare named⟩

theorem Declares.prepend {u : Linkage} {declared : List Nat} {a : Titles → String} (declares : Declares u declared a)
    (s : String) : Declares u declared fun names => s ++ a names := by
  obtain ⟨t, drawn, ordered⟩ := declares
  refine ⟨.text s :: t, fun names => ?_, ordered.text_cons s⟩
  simp only [drawn, Template.render, List.map_cons, String.join_cons, Piece.render]

/-- The declaration of an aggregate: its opening, then fields that name aggregates before it. -/
def Opens (u : Linkage) (p : Aggregate × Nat) (text : Titles → String) : Prop :=
  ∃ rest, (∀ names, text names = "struct " ++ names p.2 ++ " \x7b\n" ++ rest names) ∧
    Draft (fun m => m < p.2 ∧ Mentioned u m) rest

theorem declares_of_opens {u : Linkage} {items : List (Aggregate × Nat)} {parts : List (Titles → String)}
    (opens : List.Forall₂ (Opens u) items parts) (ascending : items.Pairwise fun p q => p.2 < q.2) :
    Declares u (items.map Prod.snd) fun names => String.join (parts.map (· names)) := by
  induction opens with
  | nil => exact ⟨[], fun _ => rfl, .nil u⟩
  | @cons p text items parts first _ ih =>
    obtain ⟨later, ascending⟩ := List.pairwise_cons.1 ascending
    obtain ⟨t, drawn, ordered⟩ := ih ascending
    obtain ⟨rest, same, fields, drawn', bare, named⟩ := first
    refine ⟨.declaration p.2 :: (fields ++ t), fun names => ?_, ordered.declaration_cons ?_ bare named⟩
    · have tail := Template.render_append names fields t
      simp only [Template.render] at tail drawn drawn'
      simp only [List.map_cons, String.join_cons, same, drawn, drawn', Template.render, tail, Piece.render,
        String.append_assoc]
    · intro m member
      obtain ⟨q, listed, rfl⟩ := List.mem_map.1 member
      exact later q listed

theorem opens_uniform {u : Linkage} (layered : Aggregates.Layered u.aggregates) {a : Aggregate} {n : Nat}
    (entry : u.aggregates[n]? = some a) (solid : a.phantom = false) :
    Uniform (Opens u (a, n)) fun names => (do
      let fields ← a.fields.mapM fun f => do
        return "    " ++ (← dialect.dataName (u.named names) f.ty) ++ " " ++ f.name ++ ";\n"
      return "struct " ++ names n ++ " \x7b\n" ++ String.join fields ++ "\x7d;\n\n" : Printed) := by
  have fields : Uniform (Each (Draft fun m => m < n ∧ Mentioned u m)) fun names => a.fields.mapM fun f => do
      return "    " ++ (← dialect.dataName (u.named names) f.ty) ++ " " ++ f.name ++ ";\n" := by
    refine .mapM fun field member => ?_
    have typed := mem_fields member
    refine .bind (dataName_uniform fun m inside same => ?_) fun _ draft =>
      .of_ok ((draft.between _ _).append (.const _) |>.append (.const _))
    rw [same] at typed
    exact ⟨layered n a entry m typed, inside, _, .field (Array.mem_of_getElem? entry) solid typed, rfl⟩
  refine fields.bind fun texts drafts => .of_ok ⟨fun names => String.join (texts names) ++ "\x7d;\n\n",
    fun names => ?_, (Draft.join drafts).append (.const _)⟩
  simp only [String.append_assoc]

theorem structs_uniform {u : Linkage} (layered : Aggregates.Layered u.aggregates) :
    Uniform (Declares u ((solid u).map Prod.snd)) fun names =>
      structs dialect (u.named names) ((u.named names).aggregates.toList.filter fun a => !a.phantom) := by
  have listed : ∀ names, ((u.named names).aggregates.toList.filter fun a => !a.phantom) =
      (solid u).map fun p => { p.1 with name := names p.2 } := by
    intro names
    rw [Linkage.named, Array.toList_mapIdx, List.mapIdx_eq_zipIdx_map, List.filter_map]
    rfl
  have parts := Uniform.mapM_aligned fun (p : Aggregate × Nat) (member : p ∈ solid u) =>
    opens_uniform layered (mem_solid.1 member).1 (mem_solid.1 member).2
  simp only [structs, listed, List.mapM_map]
  refine parts.bind ?_
  rintro texts ⟨texts, same, opens⟩
  simp only [same]
  exact .of_ok (declares_of_opens opens (solid_ascending u))

/-! ### The source of a unit -/

def ownNames (u : Linkage) : Titles := fun n => (u.aggregates[n]?.map Aggregate.name).getD ""

theorem named_own (u : Linkage) : u.named (ownNames u) = u := by
  have same : (u.aggregates.mapIdx fun n a => { a with name := ownNames u n }) = u.aggregates := by
    refine Array.ext_getElem? fun n => ?_
    rw [Array.getElem?_mapIdx]
    cases found : u.aggregates[n]? with
    | none => rfl
    | some a => simp [ownNames, found]
  unfold Linkage.named
  rw [same]

theorem required_named (u : Linkage) (names : Titles) (stage : Stage) :
    Extension.required (u.named names) stage = Extension.required u stage := by
  have keys : (u.named names).aggregates.toList.map Aggregate.key = u.aggregates.toList.map Aggregate.key := by
    refine List.ext_getElem? fun n => ?_
    rw [List.getElem?_map, List.getElem?_map, Array.getElem?_toList, Array.getElem?_toList, named_getElem?,
      Option.map_map]
    rfl
  have fields : Extension.ofAggregates (u.named names).aggregates.toList =
      Extension.ofAggregates u.aggregates.toList := by
    have wide : ∀ as : List Aggregate, (as.any fun a => a.key.types.any (· == .prim .u64)) =
        (as.map Aggregate.key).any fun key => key.types.any (· == .prim .u64) := by
      intro as
      rw [List.any_map]
      rfl
    unfold Extension.ofAggregates
    rw [wide, wide, keys]
  unfold Extension.required
  rw [fields]
  rfl

/-- What the source starts with: version, extensions and execution layout. -/
def opening (u : Linkage) (o : Options) : String :=
  s!"#version {o.glslVersion}\n"
    ++ String.join ((Extension.required u o.stage).map fun e => "#extension " ++ e.name ++ " : require\n")
    ++ "\n" ++ control u.control

theorem opening_named (u : Linkage) (names : Titles) (o : Options) : opening (u.named names) o = opening u o := by
  unfold opening
  rw [required_named]
  rfl

theorem header_eq (u : Linkage) (o : Options) : header u o = (do
    let structs ← structs dialect u (u.aggregates.toList.filter fun a => !a.phantom)
    let references ← references u
    let globals ← globals u
    return opening u o ++ structs ++ references ++ globals) := rfl

theorem generate_uniform {u : Linkage} (layered : Aggregates.Layered u.aggregates) (o : Options) :
    Uniform (Declares u ((solid u).map Prod.snd)) fun names => generate (u.named names) o := by
  refine .bind (Q := Declares u ((solid u).map Prod.snd)) ?_ fun head declares =>
    (definitions_drawn u).bind fun _ draft => .of_ok (declares.append draft)
  simp only [header_eq, opening_named]
  refine (structs_uniform layered).bind fun structs declares => ?_
  refine (references_drawn u).bind fun references draft => (globals_drawn u).bind fun globals draft' => ?_
  exact .of_ok (((declares.prepend _).append draft).append draft')

theorem count_solid {u : Linkage} {n : Nat} {a : Aggregate} (entry : u.aggregates[n]? = some a) :
    ((solid u).map Prod.snd).count n = if a.phantom then 0 else 1 := by
  have once : ((solid u).map Prod.snd).Nodup := (List.pairwise_map.2 (solid_ascending u)).imp Nat.ne_of_lt
  cases phantom : a.phantom with
  | true =>
    refine List.count_eq_zero_of_not_mem fun member => ?_
    obtain ⟨⟨b, _⟩, listed, rfl⟩ := List.mem_map.1 member
    obtain ⟨entry', whole⟩ := mem_solid.1 listed
    rw [entry, Option.some.injEq] at entry'
    rw [← entry', phantom] at whole
    cases whole
  | false => exact List.count_eq_one_of_mem once (List.mem_map.2 ⟨(a, n), mem_solid.2 ⟨entry, phantom⟩, rfl⟩)

/-- Every solid aggregate has its own declaration, and it stands before all that names the aggregate; a
phantom one has none. The source is a template in the names of the aggregates, so its names are all the
places where one is printed, and each is where a type is spelled out. -/
theorem structs_declared_first {r : Registry} {entries : List FunctionId} {u : Linkage} {o : Options} {text : String}
    (linked : link r entries = .ok u) (printed : generate u o = .ok text) :
    ∃ t : Template, text = t.render (ownNames u) ∧ (∀ names, generate (u.named names) o = .ok (t.render names)) ∧
      (∀ n a, u.aggregates[n]? = some a → t.count (.declaration n) = if a.phantom then 0 else 1) ∧
      ∀ before n after, t = before ++ .name n :: after → Mentioned u n ∧
        ∃ a, u.aggregates[n]? = some a ∧ (.declaration n ∈ before ↔ a.phantom = false) := by
  have layered := (linked_of_link linked).made.coherent.layered
  rcases generate_uniform layered o with ⟨e, fails⟩ | ⟨source, gives, t, drawn, ordered⟩
  · have failed : generate (u.named (ownNames u)) o = .error e := fails (ownNames u)
    rw [named_own, printed] at failed
    cases failed
  have under : ∀ names, generate (u.named names) o = .ok (t.render names) :=
    fun names => (gives names).trans (congrArg Except.ok (drawn names))
  refine ⟨t, ?_, under, fun n a entry => (ordered.count n).trans (count_solid entry), fun before n after split => ?_⟩
  · have own := under (ownNames u)
    rw [named_own, printed, Except.ok.injEq] at own
    exact own
  · have mentioned := ordered.mentioned n (by simp [split])
    obtain ⟨a, entry⟩ : ∃ a, u.aggregates[n]? = some a := ⟨_, Array.getElem?_eq_getElem mentioned.1⟩
    refine ⟨mentioned, a, entry, fun declared => ?_, fun whole => ?_⟩
    · have count : 0 < t.count (.declaration n) := List.count_pos_iff.2 (by simp [split, declared])
      rw [ordered.count, count_solid entry] at count
      cases phantom : a.phantom with
      | true => simp [phantom] at count
      | false => rfl
    · exact ordered.first before n after split (List.mem_map.2 ⟨(a, n), mem_solid.2 ⟨entry, whole⟩, rfl⟩)

def framed (phantom : Bool) : Registry :=
  let b := Buffer.ofContent [.type .nil .null .null, .type .i32 .null (.ref 0), .type .nil (.ref 1) .null,
    .qualifier (.ref 2) .parameter 0, .ret .null] [] [(.ref 1, ⟨"Frame", ["x"], phantom⟩)]
  (Registry.empty.register "f" b).2

theorem exists_source (r : Registry) (entries : List FunctionId) (o : Options) (test : Linkage → String → Bool)
    (passes : ((link r entries).toOption.any fun u => (generate u o).toOption.any (test u)) = true) :
    ∃ u text, link r entries = .ok u ∧ generate u o = .ok text ∧ test u text = true := by
  obtain ⟨u, linked, passes⟩ := (Option.any_eq_true _ _).1 passes
  obtain ⟨text, printed, passes⟩ := (Option.any_eq_true _ _).1 passes
  exact ⟨u, text, Except.toOption_eq_some_iff.1 linked, Except.toOption_eq_some_iff.1 printed, passes⟩

theorem framed_declared :
    ∃ (u : Linkage) (t : Template), link (framed false) [0] = .ok u ∧ ownNames u 0 = "Frame" ∧
      generate u {} =
        .ok "#version 460\n\nstruct Frame \x7b\n    int x;\n\x7d;\n\n\nvoid f(Frame _arg0) \x7b\n    return;\n\x7d\n" ∧
      generate u {} = .ok (t.render (ownNames u)) ∧ t.count (.declaration 0) = 1 := by
  obtain ⟨u, text, linked, printed, passes⟩ := exists_source (framed false) [0] {} (fun u text => decide (text =
      "#version 460\n\nstruct Frame \x7b\n    int x;\n\x7d;\n\n\nvoid f(Frame _arg0) \x7b\n    return;\n\x7d\n" ∧
    u.aggregates[0]?.map (fun a => (a.name, a.phantom)) = some ("Frame", false))) (by decide +kernel)
  obtain ⟨rfl, entry⟩ := of_decide_eq_true passes
  obtain ⟨a, found, same⟩ := Option.map_eq_some_iff.1 entry
  obtain ⟨name, solid⟩ := Prod.mk.inj same
  obtain ⟨t, drawn, _, counted, _⟩ := structs_declared_first linked printed
  refine ⟨u, t, linked, ?_, printed, drawn ▸ printed, ?_⟩
  · simp [ownNames, found, name]
  · simp [counted 0 a found, show a.phantom = false from solid]

/-- A phantom struct is the type of a parameter and is not declared. -/
theorem framed_not_declared :
    ∃ u a text, link (framed true) [0] = .ok u ∧ u.aggregates[0]? = some a ∧ a.name = "Frame" ∧
      generate u {} = .ok text ∧ text = "#version 460\n\n\nvoid f(Frame _arg0) \x7b\n    return;\n\x7d\n" ∧
      ¬ "struct".toList <:+: text.toList := by
  obtain ⟨u, text, linked, printed, passes⟩ := exists_source (framed true) [0] {} (fun u text => decide (text =
      "#version 460\n\n\nvoid f(Frame _arg0) \x7b\n    return;\n\x7d\n" ∧ ¬ "struct".toList <:+: text.toList ∧
    u.aggregates[0]?.map Aggregate.name = some "Frame")) (by decide +kernel)
  obtain ⟨same, absent, entry⟩ := of_decide_eq_true passes
  obtain ⟨a, found, name⟩ := Option.map_eq_some_iff.1 entry
  exact ⟨u, a, text, linked, found, name, printed, same, absent⟩

end ShaderForge.Glsl
