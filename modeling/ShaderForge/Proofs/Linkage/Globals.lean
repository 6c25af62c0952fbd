import ShaderForge.Proofs.Linkage.CallOrder
import ShaderForge.Proofs.Linkage.Reached
import ShaderForge.Proofs.Stream.Readers

/-!
The tables of globals. Every global that a visible qualifier names is recorded under its function and
has an entry in the tables, and additions never take an entry away. What a function uses holds what
its callees use.
-/

namespace ShaderForge

theorem Coded.code_inj {α : Type} [Coded α] [DecidableEq α] [Coded.Lawful α] {a b : α} :
    Coded.code a = Coded.code b ↔ a = b := by
  unfold Coded.code
  exact List.idxOf_inj (Lawful.mem_all a)

theorem SpecialKind.rank_lt (k : SpecialKind) : k.rank < 5 := by cases k <;> decide

theorem Global.ext_key {g h : Global} (table : g.table = h.table) (number : g.number = h.number) :
    g = h := by
  cases g <;> cases h <;> simp only [Global.table, Global.number] at table number
  case special.special kind _ kind' _ =>
    rw [SpecialKind.rank_inj.1 (by omega : kind.rank = kind'.rank), number]
  case special.builtin kind _ _ | builtin.special _ kind _ =>
    have small := kind.rank_lt
    omega
  case builtin.builtin b b' =>
    have same := Coded.code_inj.1 (by omega : Coded.code (Qualifier.builtin b) = Coded.code (Qualifier.builtin b'))
    rw [Qualifier.builtin.inj same]
  all_goals first | omega | rw [number] | rfl

instance : Std.LawfulEqOrd Global where
  eq_of_compare {a b} h := by
    have h : compareLex (compareOn Global.table) (compareOn Global.number) a b = .eq := h
    rw [compareLex_eq_eq] at h
    exact Global.ext_key (Nat.compare_eq_eq.1 h.1) (Int.compare_eq_eq.1 h.2)

theorem GlobalSet.mem_insert {s : GlobalSet} {g h : Global} : h ∈ s.insert g ↔ h = g ∨ h ∈ s := by
  rw [Std.ExtTreeSet.mem_insert, Std.LawfulEqCmp.compare_eq_iff_eq, eq_comm]

namespace Table

variable {α : Type} {t : Table α} {key n : Int}

theorem mem_define [Declaration α] {category : String} {value : α} :
    n ∈ (t.define category key value).1 ↔ n = key ∨ n ∈ t := by
  show n ∈ t.insert key _ ↔ _
  rw [Std.ExtTreeMap.mem_insert, Std.LawfulEqCmp.compare_eq_iff_eq, eq_comm]

theorem mem_insert_of_getElem? {value old : α} (found : t[key]? = some old) : n ∈ t.insert key value ↔ n ∈ t := by
  rw [Std.ExtTreeMap.mem_insert, Std.LawfulEqCmp.compare_eq_iff_eq]
  constructor
  · rintro (rfl | known)
    · exact Std.ExtTreeMap.mem_iff_isSome_getElem?.2 (Option.isSome_of_eq_some found)
    · exact known
  · exact Or.inr

end Table

namespace Globals

variable {t : Globals}

def Declares (t : Globals) : Global → Prop
  | .input n => n ∈ t.inputs
  | .output n => n ∈ t.outputs
  | .pushConstant => t.pushConstant.isSome
  | .uniform n => n ∈ t.uniforms
  | .buffer n => n ∈ t.buffers
  | .shared n => n ∈ t.shared
  | .sampler n => n ∈ t.samplers
  | .image n => n ∈ t.images
  | .special kind n => Global.special kind n ∈ t.special
  | .builtin b => Global.builtin b ∈ t.builtins

theorem mem_adjust {α : Type} {t : Table α} {key n : Int} {f : α → α} : n ∈ adjust t key f ↔ n ∈ t := by
  unfold adjust
  split
  · rename_i found
    exact Table.mem_insert_of_getElem? found
  · rfl

theorem declares_applyModifier (modifier target : Qualifier) (binding : Int) (g : Global) :
    (t.applyModifier modifier target binding).1.Declares g ↔ t.Declares g := by
  unfold applyModifier
  split
  case h_3 => split <;> cases g <;> rfl
  all_goals cases g <;> first | rfl | exact mem_adjust

theorem declares_resize (target : Qualifier) (binding count : Int) (g : Global) :
    (t.resize target binding count).1.Declares g ↔ t.Declares g := by
  unfold resize
  split <;> split
  case h_1 found | h_1 found => cases g <;> first | rfl | exact Table.mem_insert_of_getElem? found
  all_goals rfl

theorem declares_setFormat (format : String) (target : Qualifier) (binding : Int) (g : Global) :
    (t.setFormat format target binding).1.Declares g ↔ t.Declares g := by
  unfold setFormat
  split
  · rename_i found
    cases g <;> first | rfl | exact Table.mem_insert_of_getElem? found
  · rfl

end Globals

namespace Linkage

def Names (f : Function) (i : Index) (g : Global) : Prop :=
  ∃ underlying kind number, f.buffer.get? i = some (.qualifier underlying kind number) ∧
    Global.ofQualifier? kind number.toInt = some g

/-- Units of which the second has entered some globals and lost none. -/
structure Enters (entered : Global → Prop) (u v : Linkage) : Prop where
  uses : v.uses = u.uses
  kept : ∀ g, u.globals.Declares g → v.globals.Declares g
  declared : ∀ g, entered g → v.globals.Declares g

theorem onGlobals_succeeds {h : Globals → Globals × List Warning} {u v : Linkage} {a : PUnit}
    (ran : Succeeds (onGlobals h) u a v) : v.globals = (h u.globals).1 ∧ v.uses = u.uses := by
  unfold onGlobals at ran
  obtain ⟨_, _, read, ran⟩ := Succeeds.bind_iff.1 ran
  obtain ⟨rfl, rfl⟩ := Succeeds.of_get.1 read
  obtain ⟨_, _, stored, ran⟩ := Succeeds.bind_iff.1 ran
  obtain rfl := Succeeds.of_modify.1 stored
  obtain rfl := Succeeds.of_modify.1 ran
  exact ⟨rfl, rfl⟩

theorem resolving_succeeds {f : Function} {i : Index} {u v : Linkage} {ty : LinkedTy}
    (ran : Succeeds (resolving f i) u ty v) : u = v := by
  unfold resolving at ran
  obtain ⟨_, _, asked, ran⟩ := Succeeds.bind_iff.1 ran
  obtain ⟨_, rfl⟩ := ask_succeeds.1 asked
  obtain ⟨_, _, read, ran⟩ := Succeeds.bind_iff.1 ran
  obtain ⟨rfl, rfl⟩ := Succeeds.of_get.1 read
  exact (Succeeds.of_answer.1 ran).2

def Declaring (named : Option Global) (x : Linking (Option Global)) : Prop :=
  ∀ u v answer, Succeeds x u answer v → answer = named ∧ Enters (named = some ·) u v

theorem Declaring.none : Declaring none (pure none) := by
  intro u v answer ran
  obtain ⟨rfl, rfl⟩ := Succeeds.of_pure.1 ran
  exact ⟨rfl, rfl, fun _ known => known, fun _ named => nomatch named⟩

theorem Declaring.enter {named : Option Global} {h : Globals → Globals × List Warning}
    (kept : ∀ t g, t.Declares g → (h t).1.Declares g)
    (declared : ∀ t g, named = some g → (h t).1.Declares g) :
    Declaring named (do onGlobals h; return named) := by
  intro u v answer ran
  obtain ⟨_, w, changed, ran⟩ := Succeeds.bind_iff.1 ran
  obtain ⟨rfl, rfl⟩ := Succeeds.of_pure.1 ran
  obtain ⟨globals, uses⟩ := onGlobals_succeeds changed
  exact ⟨rfl, uses, fun g known => globals ▸ kept _ g known, fun g named => globals ▸ declared _ g named⟩

theorem Declaring.resolve {named : Option Global} {f : Function} {i : Index}
    {x : LinkedTy → Linking (Option Global)} (later : ∀ ty, Declaring named (x ty)) :
    Declaring named (resolving f i >>= x) := by
  intro u v answer ran
  obtain ⟨ty, _, asked, ran⟩ := Succeeds.bind_iff.1 ran
  obtain rfl := resolving_succeeds asked
  exact later ty _ _ _ ran

theorem Declaring.ask {α : Type} {named : Option Global} {question : Except Fault α}
    {x : α → Linking (Option Global)} (later : ∀ a, Declaring named (x a)) :
    Declaring named (Linkage.ask question >>= x) := by
  intro u v answer ran
  obtain ⟨a, _, asked, ran⟩ := Succeeds.bind_iff.1 ran
  obtain ⟨_, rfl⟩ := ask_succeeds.1 asked
  exact later a _ _ _ ran

theorem declare_declaring (f : Function) (i underlying : Index) (kind : Qualifier) (number : Int) :
    Declaring (Global.ofQualifier? kind number) (declare f i underlying kind number) := by
  unfold declare
  simp only
  split
  case h_1 =>
    refine .enter (fun t g known => ?_) (fun t g named => ?_)
    · cases g <;> first | exact known | exact GlobalSet.mem_insert.2 (Or.inr known)
    · cases named
      exact GlobalSet.mem_insert.2 (Or.inl rfl)
  case h_2 | h_3 | h_16 | h_17 | h_19 =>
    refine .resolve fun ty => .enter (fun t g known => ?_) (fun t g named => ?_)
    · cases g <;> first | exact known | exact Table.mem_define.2 (Or.inr known)
    · cases named
      exact Table.mem_define.2 (Or.inl rfl)
  case h_4 | h_5 | h_6 | h_7 | h_8 =>
    refine .resolve fun ty => .enter (fun t g known => ?_) (fun t g named => ?_)
    · cases g <;> first | exact known | exact Std.ExtTreeMap.mem_insert.2 (Or.inr known)
    · cases named
      exact Std.ExtTreeMap.mem_insert_self
  case h_9 | h_10 =>
    refine .enter (fun t g known => ?_) (fun t g named => ?_)
    · cases g <;> first | exact known | exact Table.mem_define.2 (Or.inr known)
    · cases named
      exact Table.mem_define.2 (Or.inl rfl)
  case h_11 | h_12 | h_13 =>
    exact .ask fun (target, binding) => .enter
      (fun t g known => (Globals.declares_applyModifier _ _ _ g).2 known) (fun t g named => nomatch named)
  case h_14 =>
    exact .ask fun (target, binding) => .enter
      (fun t g known => (Globals.declares_setFormat _ _ _ g).2 known) (fun t g named => nomatch named)
  case h_15 =>
    refine .resolve fun ty => .enter (fun t g known => ?_) (fun t g named => ?_)
    · cases g <;> first | exact known | rfl
    · cases named
      rfl
  case h_18 =>
    refine .resolve fun ty => ?_
    split
    · intro u v answer ran
      exact (Succeeds.of_throw ran).elim
    · refine .enter (fun t g known => ?_) (fun t g named => nomatch named)
      cases g <;> exact known
  case h_20 =>
    split
    · split
      · exact .enter (fun t g known => (Globals.declares_resize _ _ _ g).2 known) (fun t g named => nomatch named)
      · exact .none
    · exact .none
  all_goals exact .none

/-- What going through some atoms adds to the globals of a function and to the tables. -/
structure Gathers (f : Function) (items : List Index) (before after : GlobalSet) (u v : Linkage) : Prop
    extends Enters (fun g => g ∈ after ∧ g ∉ before) u v where
  wider : ∀ g ∈ before, g ∈ after
  named : ∀ i ∈ items, ∀ g, Names f i g → g ∈ after

theorem declareAtom_gathers {f : Function} {before after : GlobalSet} {i : Index} {u v : Linkage}
    (ran : Succeeds (declareAtom f before i) u after v) : Gathers f [i] before after u v := by
  unfold declareAtom at ran
  obtain ⟨a, _, asked, ran⟩ := Succeeds.bind_iff.1 ran
  obtain ⟨found, rfl⟩ := ask_succeeds.1 asked
  rw [Buffer.atom_ok_iff] at found
  split at ran
  · rename_i underlying kind number
    obtain ⟨answer, w, declared, ran⟩ := Succeeds.bind_iff.1 ran
    obtain ⟨rfl, enters⟩ := declare_declaring _ _ _ _ _ _ _ _ declared
    have here : ∀ g, Names f i g → Global.ofQualifier? kind number.toInt = some g := by
      rintro g ⟨_, _, _, same, named⟩
      rw [found] at same
      cases same
      exact named
    split at ran
    · rename_i g named
      obtain ⟨rfl, rfl⟩ := Succeeds.of_pure.1 ran
      refine ⟨⟨enters.uses, enters.kept, fun h ⟨new, old⟩ => ?_⟩, fun h old => ?_, fun j member h names => ?_⟩
      · obtain rfl := (GlobalSet.mem_insert.1 new).resolve_right old
        exact enters.declared h named
      · exact GlobalSet.mem_insert.2 (Or.inr old)
      · rw [List.mem_singleton.1 member] at names
        rw [here h names, Option.some.injEq] at named
        exact GlobalSet.mem_insert.2 (Or.inl named)
    · rename_i unnamed
      obtain ⟨rfl, rfl⟩ := Succeeds.of_pure.1 ran
      refine ⟨⟨enters.uses, enters.kept, fun h ⟨new, old⟩ => absurd new old⟩, fun h old => old, ?_⟩
      intro j member h names
      rw [List.mem_singleton.1 member] at names
      rw [here h names] at unnamed
      cases unnamed
  · rename_i other
    obtain ⟨rfl, rfl⟩ := Succeeds.of_pure.1 ran
    refine ⟨⟨rfl, fun _ known => known, fun h ⟨new, old⟩ => absurd new old⟩, fun h old => old, ?_⟩
    rintro j member h ⟨underlying, kind, number, same, _⟩
    rw [List.mem_singleton.1 member, found, Option.some.injEq] at same
    exact (other underlying kind number same).elim

theorem declareAtoms_gathers {f : Function} {items : List Index} {before after : GlobalSet} {u v : Linkage}
    (ran : Succeeds (items.foldlM (declareAtom f) before) u after v) : Gathers f items before after u v := by
  induction items generalizing before u with
  | nil =>
    obtain ⟨rfl, rfl⟩ := Succeeds.of_pure.1 ran
    exact ⟨⟨rfl, fun _ known => known, fun h ⟨new, old⟩ => absurd new old⟩, fun h old => old,
      fun i member => absurd member List.not_mem_nil⟩
  | cons i rest ih =>
    rw [List.foldlM_cons] at ran
    obtain ⟨middle, w, one, ran⟩ := Succeeds.bind_iff.1 ran
    have first := declareAtom_gathers one
    have later := ih ran
    refine ⟨⟨later.uses.trans first.uses, fun g known => later.kept g (first.kept g known), ?_⟩,
      fun g old => later.wider g (first.wider g old), fun j member g names => ?_⟩
    · intro g ⟨new, old⟩
      by_cases early : g ∈ middle
      · exact later.kept g (first.declared g ⟨early, old⟩)
      · exact later.declared g ⟨new, early⟩
    · rcases List.mem_cons.1 member with rfl | member
      · exact later.wider g (first.named j List.mem_cons_self g names)
      · exact later.named j member g names

/-- The globals that a unit holds for a function are declared, and are all that its visible
qualifiers name. -/
theorem scan_gathers {f : Function} {callees : FunctionSet} {u v : Linkage}
    (ran : Succeeds (scan f) u callees v) :
    ∃ used, v.uses = u.uses.insert f.id used ∧
      (∀ i ∈ visibleAtoms f.buffer, ∀ g, Names f i g → g ∈ used) ∧
      (∀ g ∈ used, v.globals.Declares g) ∧ ∀ g, u.globals.Declares g → v.globals.Declares g := by
  rw [scan_eq] at ran
  obtain ⟨⟨map, called⟩, w, scanned, ran⟩ := Succeeds.bind_iff.1 ran
  obtain ⟨_, _, stored, ran⟩ := Succeeds.bind_iff.1 ran
  obtain rfl := Succeeds.of_modify.1 stored
  obtain ⟨used, w', declared, ran⟩ := Succeeds.bind_iff.1 ran
  obtain ⟨_, _, stored, ran⟩ := Succeeds.bind_iff.1 ran
  obtain rfl := Succeeds.of_modify.1 stored
  obtain ⟨_, rfl⟩ := Succeeds.of_pure.1 ran
  have same := (scanAll_confined f).keeps u
  rw [show outcome (scanAll f) u = (.ok (map, called), w) from scanned] at same
  simp only [outside, Prod.mk.injEq] at same
  have gathers := declareAtoms_gathers declared
  refine ⟨used, ?_, fun i shown g names => ?_, fun g member => ?_, fun g known => ?_⟩
  · show w'.uses.insert f.id used = _
    rw [gathers.uses, same.2.2]
  · exact gathers.named i (Std.ExtTreeSet.mem_toList.2 shown) g names
  · exact gathers.declared g ⟨member, by simp⟩
  · refine gathers.kept g ?_
    show w.globals.Declares g
    rw [same.2.1]
    exact known

/-- What holds of the globals of a unit between additions. -/
structure Tabled (u : Linkage) : Prop where
  named : ∀ f ∈ u.functions, ∃ used, u.uses[f.id]? = some used ∧
    ∀ i ∈ visibleAtoms f.buffer, ∀ g, Names f i g → g ∈ used
  declared : ∀ (id : FunctionId) (used : GlobalSet), u.uses[id]? = some used → ∀ g ∈ used, u.globals.Declares g

theorem tabled_fresh : Tabled {} :=
  ⟨fun _ member => absurd member List.not_mem_nil, fun id used found => by simp at found⟩

theorem Tabled.addOne {r : Registry} {f : Function} {u v : Linkage} {needed : List Function}
    (tabled : Tabled u) (recorded : ∀ f ∈ u.functions, u.contains f.id) (fresh : u.contains f.id = false)
    (h : Succeeds (addOne r f) u needed v) : Tabled v := by
  obtain ⟨g, callees, w, preparing, scanning, _, rfl⟩ := addOne_succeeds.1 h
  obtain ⟨_, same, _⟩ := Function.prepared_of_prepare preparing
  obtain ⟨used, uses, named, declared, kept⟩ := scan_gathers scanning
  have functions := (scan_frame scanning).1
  have entry : ∀ id, w.uses[id]? = if g.id = id then some used else u.uses[id]? := by
    intro id
    rw [uses, Std.ExtTreeMap.getElem?_insert]
    simp only [Std.LawfulEqCmp.compare_eq_iff_eq]
  refine ⟨fun other member => ?_, fun id others found h member => ?_⟩
  · show ∃ used, w.uses[other.id]? = some used ∧ _
    rcases List.mem_append.1 member with old | new
    · rw [functions] at old
      have different : g.id ≠ other.id := by
        intro clash
        have known := recorded other old
        rw [← clash, same, fresh] at known
        cases known
      rw [entry, if_neg different]
      exact tabled.named other old
    · obtain rfl := List.mem_singleton.1 new
      rw [entry, if_pos rfl]
      exact ⟨used, rfl, named⟩
  · show w.globals.Declares h
    have found : w.uses[id]? = some others := found
    rw [entry] at found
    split at found
    · cases found
      exact declared h member
    · exact kept h (tabled.declared id others found h member)

theorem Tabled.sort {u v : Linkage} (tabled : Tabled u) (h : Succeeds sort u ⟨⟩ v) : Tabled v := by
  obtain ⟨functions, subset, rfl⟩ := sort_succeeds h
  exact ⟨fun f member => tabled.named f (subset f member), tabled.declared⟩

theorem Reached.tabled {r : Registry} {u : Linkage} (reached : Reached r u) : Tabled u := by
  let Both (u : Linkage) : Prop := Coherent u ∧ Tabled u
  have both : Both u := by
    refine reached.keeps ⟨coherent_fresh, tabled_fresh⟩ ?_ ?_
    · intro f u needed v ⟨coherent, tabled⟩ new added
      exact ⟨coherent.addOne new added, tabled.addOne coherent.recorded new added⟩
    · intro u v ⟨coherent, tabled⟩ sorted
      exact ⟨coherent.sort sorted, tabled.sort sorted⟩
  exact both.2

/-! ### What a function and its callees use -/

variable {u : Linkage} {id caller callee : FunctionId} {g : Global}

theorem mem_foldl_insert {items : List Global} {used : GlobalSet} :
    g ∈ items.foldl (·.insert ·) used ↔ g ∈ items ∨ g ∈ used := by
  induction items generalizing used with
  | nil => simp
  | cons first rest ih => rw [List.foldl_cons, ih, GlobalSet.mem_insert, List.mem_cons, or_left_comm, or_assoc]

theorem mem_globalsUsed :
    g ∈ u.globalsUsed id ↔
      ∃ other used, Relation.ReflTransGen u.dependencies.Calls id other ∧ u.uses[other]? = some used ∧
        g ∈ used := by
  have flat : u.globalsUsed id = ((u.dependencies.reach id).toList.flatMap fun other =>
      ((u.uses[other]?).map (·.toList)).getD []).foldl (·.insert ·) ∅ := (List.foldl_flatMap ..).symm
  have here : ∀ other : FunctionId, g ∈ ((u.uses[other]?).map (·.toList)).getD [] ↔
      ∃ used, u.uses[other]? = some used ∧ g ∈ used := by
    intro other
    cases u.uses[other]? <;> simp
  rw [flat, mem_foldl_insert, List.mem_flatMap]
  simp only [here, Std.ExtTreeSet.mem_toList, CallGraph.mem_reach_iff, exists_and_left,
    Std.ExtTreeSet.not_mem_empty, or_false]

theorem globalsUsed_subset (call : u.dependencies.Calls caller callee) (member : g ∈ u.globalsUsed callee) :
    g ∈ u.globalsUsed caller := by
  obtain ⟨other, used, path, found, member⟩ := mem_globalsUsed.1 member
  exact mem_globalsUsed.2 ⟨other, used, path.head call, found, member⟩

theorem Tabled.declares_of_used (tabled : Tabled u) (member : g ∈ u.globalsUsed id) : u.globals.Declares g := by
  obtain ⟨other, used, _, found, member⟩ := mem_globalsUsed.1 member
  exact tabled.declared other used found g member

theorem Tabled.used_of_names (tabled : Tabled u) {f : Function} (member : f ∈ u.functions) {i : Index}
    (shown : i ∈ visibleAtoms f.buffer) (names : Names f i g) : g ∈ u.globalsUsed f.id := by
  obtain ⟨used, found, named⟩ := tabled.named f member
  exact mem_globalsUsed.2 ⟨f.id, used, .refl, found, named i shown g names⟩

end Linkage

end ShaderForge
