import ShaderForge.Proofs.Linkage.Closure
import ShaderForge.Proofs.Linkage.Globals
import ShaderForge.Source.Naming
import Std.Data.String.ToInt
import Std.Data.String.ToNat

/-!
Names of globals. A name is a stem, which tells the table, and the number in that table. The stems of
task payloads and hit attributes stand without their number, and two of these are all that can share
a name.
-/

namespace ShaderForge

theorem isDigit_of_mem_toString {n : Nat} {c : Char} (member : c ∈ (toString n).toList) : c.isDigit = true := by
  rw [Nat.toString_eq_repr, Nat.toList_repr] at member
  exact Nat.isDigit_of_mem_toDigits (by omega) (by omega) member

namespace Global

/-- A global without its number: one for each way that a name starts. -/
def form : Global → Global
  | input _ => input 0
  | output _ => output 0
  | pushConstant => pushConstant
  | uniform _ => uniform 0
  | buffer _ => buffer 0
  | shared _ => shared 0
  | sampler _ => sampler 0
  | image _ => image 0
  | special kind _ => special kind 0
  | builtin b => builtin b

/-- Every form. -/
def forms : List Global :=
  [input 0, output 0, pushConstant, uniform 0, buffer 0, shared 0, sampler 0, image 0,
    special .taskPayload 0, special .hitAttribute 0, special .accelerationStructure 0,
    special .rayPayload 0, special .rayPayloadIn 0, builtin .position, builtin .vertexIndex,
    builtin .instanceIndex, builtin .fragCoord, builtin .fragDepth, builtin .globalInvocation,
    builtin .localInvocation, builtin .localInvocationIndex, builtin .workGroup, builtin .launchId,
    builtin .launchSize]

/-- How the name of a global starts. -/
def stem : Global → String
  | input _ => "_lin"
  | output _ => "_lout"
  | pushConstant => "_pc"
  | uniform _ => "_uniform"
  | buffer _ => "_buffer"
  | shared _ => "_shared"
  | sampler _ => "_sampler"
  | image _ => "_image"
  | special .taskPayload _ => "_task_payload"
  | special .hitAttribute _ => "_hit_attribute"
  | special .accelerationStructure _ => "_accel"
  | special .rayPayload _ => "_payload"
  | special .rayPayloadIn _ => "_payload_in"
  | builtin b => b.name

/-- Whether the name of a global has its number. -/
def isNumbered : Global → Bool
  | pushConstant | builtin _ | special .taskPayload _ | special .hitAttribute _ => false
  | _ => true

/-- Two task payloads, or two hit attributes, of different numbers. -/
inductive Twins : Global → Global → Prop
  | taskPayload {m n : Int} (different : m ≠ n) : Twins (special .taskPayload m) (special .taskPayload n)
  | hitAttribute {m n : Int} (different : m ≠ n) : Twins (special .hitAttribute m) (special .hitAttribute n)

variable {g h : Global}

theorem Twins.ne (twins : Twins g h) : g ≠ h := by
  rintro rfl
  cases twins <;> contradiction

theorem Twins.ne_builtin (twins : Twins g h) : (∀ b, g ≠ builtin b) ∧ ∀ b, h ≠ builtin b := by
  cases twins <;> exact ⟨nofun, nofun⟩

theorem toList_name (g : Global) :
    g.name.toList = g.stem.toList ++ if g.isNumbered then (toString g.number).toList else [] := by
  have numbered : ∀ (stem : String) (n : Int),
      (s!"{stem}{n}").toList = stem.toList ++ (toString n).toList := by
    intro stem n
    exact String.toList_append
  cases g with
  | special kind n => cases kind <;> first | exact numbered _ n | exact (List.append_nil _).symm
  | pushConstant | builtin => exact (List.append_nil _).symm
  | _ => exact numbered _ _

def isNumeral (c : Char) : Bool := c.isDigit || c == '-'

theorem isNumeral_of_mem_toString {n : Int} {c : Char} (member : c ∈ (toString n).toList) : isNumeral c = true := by
  have digit : ∀ m : Nat, c ∈ (toString m).toList → isNumeral c = true := fun m member => by
    rw [isNumeral, isDigit_of_mem_toString member, Bool.true_or]
  cases n with
  | ofNat m => exact digit m member
  | negSucc m =>
    rw [show toString (Int.negSucc m) = "-" ++ toString (m + 1) from rfl, String.toList_append] at member
    rcases List.mem_append.1 member with sign | member
    · rw [List.mem_singleton.1 sign]
      rfl
    · exact digit _ member

theorem stem_form (g : Global) : g.form.stem = g.stem := by
  cases g with
  | special kind _ => cases kind <;> rfl
  | _ => rfl

theorem mem_forms (g : Global) : g.form ∈ forms := by
  cases g with
  | special kind _ => cases kind <;> simp [form, forms]
  | builtin b => cases b <;> simp [form, forms]
  | _ => simp [form, forms]

theorem letters_of_mem_stem {c : Char} (member : c ∈ g.stem.toList) : isNumeral c = false := by
  have letters : ∀ f ∈ forms, f.stem.toList.all (!isNumeral ·) = true := by decide +kernel
  have here := List.all_eq_true.1 (letters _ g.mem_forms) c (g.stem_form ▸ member)
  simpa using here

theorem form_eq_of_stem (same : g.stem = h.stem) : g.form = h.form := by
  have distinct : (forms.map stem).Nodup := by decide +kernel
  exact List.inj_on_of_nodup_map distinct g.mem_forms h.mem_forms (by rw [stem_form, stem_form, same])

theorem split_at_number {x y d e : List Char} (letters : ∀ c ∈ x, isNumeral c = false)
    (letters' : ∀ c ∈ y, isNumeral c = false) (digits : ∀ c ∈ d, isNumeral c = true)
    (digits' : ∀ c ∈ e, isNumeral c = true) (same : x ++ d = y ++ e) : x = y ∧ d = e := by
  have short : ∀ {x y d e : List Char}, (∀ c ∈ y, isNumeral c = false) → (∀ c ∈ d, isNumeral c = true) →
      x ++ d = y ++ e → y.length ≤ x.length := by
    intro x y d e letters digits same
    by_contra longer
    have here : (x ++ d)[x.length]? = (y ++ e)[x.length]? := by rw [same]
    have inside : x.length < y.length := Nat.lt_of_not_le longer
    rw [List.getElem?_append_right (Nat.le_refl _), List.getElem?_append_left inside,
      List.getElem?_eq_getElem inside] at here
    have first := digits _ (List.mem_of_getElem? here)
    rw [letters _ (List.getElem_mem inside)] at first
    cases first
  have lengths := Nat.le_antisymm (short letters digits' same.symm) (short letters' digits same)
  exact List.append_inj same lengths

theorem name_eq_iff : g.name = h.name ↔ g = h ∨ Twins g h := by
  constructor
  · intro same
    have digits : ∀ f : Global, ∀ c ∈ (if f.isNumbered then (toString f.number).toList else []),
        isNumeral c = true := by
      intro f c member
      split at member
      · exact isNumeral_of_mem_toString member
      · cases member
    have lists := congrArg String.toList same
    rw [toList_name, toList_name] at lists
    obtain ⟨stems, numbers⟩ := split_at_number (fun _ => letters_of_mem_stem) (fun _ => letters_of_mem_stem)
      (digits g) (digits h) lists
    have forms := form_eq_of_stem (String.toList_inj.1 stems)
    have same_number : g.isNumbered = true → g.isNumbered = h.isNumbered → g.number = h.number := by
      intro left right
      rw [if_pos left, if_pos (right ▸ left)] at numbers
      exact Int.repr_inj.1 (by rw [← Int.toString_eq_repr, ← Int.toString_eq_repr, String.toList_inj.1 numbers])
    cases g <;> cases h <;> simp only [form, reduceCtorEq] at forms
    case special.special kind m kind' n =>
      obtain rfl := (special.inj forms).1
      by_cases equal : m = n
      · exact Or.inl (by rw [equal])
      · cases kind with
        | taskPayload => exact Or.inr (.taskPayload equal)
        | hitAttribute => exact Or.inr (.hitAttribute equal)
        | _ => exact absurd (same_number rfl rfl) equal
    case pushConstant.pushConstant => exact Or.inl rfl
    case builtin.builtin => exact Or.inl forms
    all_goals exact Or.inl (congrArg _ (same_number rfl rfl))
  · rintro (rfl | ⟨_⟩ | ⟨_⟩) <;> rfl

end Global

namespace Linkage

open Buffer

/-! ### What is declared is used -/

/-- Tables of which the second has one entry more at most, for the global named, and lists special
globals as special. -/
structure AddsEntry (named : Option Global) (t t' : Globals) : Prop where
  declared : ∀ g, t'.Declares g → t.Declares g ∨ named = some g
  special : ∀ g ∈ t'.special, g ∈ t.special ∨ ∃ kind n, g = .special kind n

theorem AddsEntry.refl (t : Globals) : AddsEntry none t t := ⟨fun _ => Or.inl, fun _ => Or.inl⟩

def Adding (named : Option Global) (x : Linking (Option Global)) : Prop :=
  ∀ u v answer, Succeeds x u answer v → AddsEntry named u.globals v.globals

theorem Adding.none : Adding none (pure none) := by
  intro u v answer ran
  obtain ⟨_, rfl⟩ := Succeeds.of_pure.1 ran
  exact .refl _

theorem Adding.enter {named answer : Option Global} {h : Globals → Globals × List Warning}
    (adds : ∀ t, AddsEntry named t (h t).1) : Adding named (do onGlobals h; return answer) := by
  intro u v answer ran
  obtain ⟨_, w, changed, ran⟩ := Succeeds.bind_iff.1 ran
  obtain ⟨_, rfl⟩ := Succeeds.of_pure.1 ran
  rw [(onGlobals_succeeds changed).1]
  exact adds _

theorem Adding.resolve {named : Option Global} {f : Function} {i : Index}
    {x : LinkedTy → Linking (Option Global)} (later : ∀ ty, Adding named (x ty)) :
    Adding named (resolving f i >>= x) := by
  intro u v answer ran
  obtain ⟨ty, _, asked, ran⟩ := Succeeds.bind_iff.1 ran
  obtain rfl := resolving_succeeds asked
  exact later ty _ _ _ ran

theorem Adding.ask {α : Type} {named : Option Global} {question : Except Fault α}
    {x : α → Linking (Option Global)} (later : ∀ a, Adding named (x a)) :
    Adding named (Linkage.ask question >>= x) := by
  intro u v answer ran
  obtain ⟨a, _, asked, ran⟩ := Succeeds.bind_iff.1 ran
  obtain ⟨_, rfl⟩ := ask_succeeds.1 asked
  exact later a _ _ _ ran

theorem special_applyModifier (t : Globals) (modifier target : Qualifier) (binding : Int) :
    (t.applyModifier modifier target binding).1.special = t.special := by
  unfold Globals.applyModifier
  repeat' split
  all_goals rfl

theorem special_resize (t : Globals) (target : Qualifier) (binding count : Int) :
    (t.resize target binding count).1.special = t.special := by
  unfold Globals.resize
  repeat' split
  all_goals rfl

theorem special_setFormat (t : Globals) (format : String) (target : Qualifier) (binding : Int) :
    (t.setFormat format target binding).1.special = t.special := by
  unfold Globals.setFormat
  split <;> rfl

theorem declare_adding (f : Function) (i underlying : Index) (kind : Qualifier) (number : Int) :
    Adding (Global.ofQualifier? kind number) (declare f i underlying kind number) := by
  unfold declare
  simp only
  split
  case h_1 =>
    refine .enter fun t => ⟨fun g known => ?_, fun _ => Or.inl⟩
    cases g <;> try exact Or.inl known
    rcases GlobalSet.mem_insert.1 known with new | old
    · exact Or.inr (congrArg some new.symm)
    · exact Or.inl old
  case h_2 | h_3 | h_16 | h_17 | h_19 =>
    refine .resolve fun ty => .enter fun t => ⟨fun g known => ?_, fun _ => Or.inl⟩
    cases g <;> try exact Or.inl known
    rcases Table.mem_define.1 known with new | old
    · exact Or.inr (congrArg some (congrArg _ new.symm))
    · exact Or.inl old
  case h_4 | h_5 | h_6 | h_7 | h_8 =>
    refine .resolve fun ty => .enter fun t => ⟨fun g known => ?_, fun g known => ?_⟩
    · cases g <;> try exact Or.inl known
      rcases Std.ExtTreeMap.mem_insert.1 known with new | old
      · exact Or.inr (congrArg some (Std.LawfulEqOrd.eq_of_compare new))
      · exact Or.inl old
    · rcases Std.ExtTreeMap.mem_insert.1 known with new | old
      · exact Or.inr ⟨_, _, (Std.LawfulEqOrd.eq_of_compare new).symm⟩
      · exact Or.inl old
  case h_9 | h_10 =>
    refine .enter fun t => ⟨fun g known => ?_, fun _ => Or.inl⟩
    cases g <;> try exact Or.inl known
    rcases Table.mem_define.1 known with new | old
    · exact Or.inr (congrArg some (congrArg _ new.symm))
    · exact Or.inl old
  case h_11 | h_12 | h_13 =>
    exact .ask fun (target, binding) => .enter fun t =>
      ⟨fun g known => Or.inl ((Globals.declares_applyModifier _ _ _ g).1 known),
        fun g known => Or.inl (special_applyModifier t _ _ _ ▸ known)⟩
  case h_14 =>
    exact .ask fun (target, binding) => .enter fun t =>
      ⟨fun g known => Or.inl ((Globals.declares_setFormat _ _ _ g).1 known),
        fun g known => Or.inl (special_setFormat t _ _ _ ▸ known)⟩
  case h_15 =>
    refine .resolve fun ty => .enter fun t => ⟨fun g known => ?_, fun _ => Or.inl⟩
    cases g <;> first | exact Or.inl known | exact Or.inr rfl
  case h_18 =>
    refine .resolve fun ty => ?_
    split
    · intro u v answer ran
      exact (Succeeds.of_throw ran).elim
    · refine .enter fun t => ⟨fun g known => Or.inl ?_, fun _ => Or.inl⟩
      cases g <;> exact known
  case h_20 =>
    split
    · split
      · exact .enter fun t => ⟨fun g known => Or.inl ((Globals.declares_resize _ _ _ g).1 known),
          fun g known => Or.inl (special_resize t _ _ _ ▸ known)⟩
      · exact .none
    · exact .none
  all_goals exact .none

/-- Tables in which every new entry is in a set, and all special globals are listed as special. -/
structure Within (used : GlobalSet) (t t' : Globals) : Prop where
  declared : ∀ g, t'.Declares g → t.Declares g ∨ g ∈ used
  special : ∀ g ∈ t'.special, g ∈ t.special ∨ ∃ kind n, g = .special kind n

variable {f : Function} {u v : Linkage} {before after : GlobalSet}

theorem Within.refl (used : GlobalSet) (t : Globals) : Within used t t := ⟨fun _ => Or.inl, fun _ => Or.inl⟩

theorem Within.trans {t t' t'' : Globals} (first : Within before t t') (later : Within after t' t'')
    (wider : ∀ g ∈ before, g ∈ after) : Within after t t'' :=
  ⟨fun g known => (later.declared g known).elim
      (fun old => (first.declared g old).imp_right (wider g)) Or.inr,
    fun g known => (later.special g known).elim (first.special g) Or.inr⟩

theorem declareAtom_within {i : Index} (ran : Succeeds (declareAtom f before i) u after v) :
    Within after u.globals v.globals := by
  unfold declareAtom at ran
  obtain ⟨a, _, asked, ran⟩ := Succeeds.bind_iff.1 ran
  obtain ⟨_, rfl⟩ := ask_succeeds.1 asked
  split at ran
  · obtain ⟨answer, w, declared, ran⟩ := Succeeds.bind_iff.1 ran
    have adds := declare_adding _ _ _ _ _ _ _ _ declared
    obtain ⟨rfl, _⟩ := declare_declaring _ _ _ _ _ _ _ _ declared
    split at ran
    · rename_i g named
      obtain ⟨rfl, rfl⟩ := Succeeds.of_pure.1 ran
      refine ⟨fun h known => (adds.declared h known).imp_right fun new => ?_, adds.special⟩
      rw [named, Option.some.injEq] at new
      exact GlobalSet.mem_insert.2 (Or.inl new.symm)
    · rename_i unnamed
      obtain ⟨rfl, rfl⟩ := Succeeds.of_pure.1 ran
      refine ⟨fun h known => (adds.declared h known).imp_right fun new => ?_, adds.special⟩
      rw [unnamed] at new
      cases new
  · obtain ⟨rfl, rfl⟩ := Succeeds.of_pure.1 ran
    exact .refl _ _

theorem declareAtoms_within {items : List Index}
    (ran : Succeeds (items.foldlM (declareAtom f) before) u after v) : Within after u.globals v.globals := by
  induction items generalizing before u with
  | nil =>
    obtain ⟨rfl, rfl⟩ := Succeeds.of_pure.1 ran
    exact .refl _ _
  | cons i rest ih =>
    rw [List.foldlM_cons] at ran
    obtain ⟨middle, w, one, ran⟩ := Succeeds.bind_iff.1 ran
    exact (declareAtom_within one).trans (ih ran) (declareAtoms_gathers ran).wider

theorem scan_within {callees : FunctionSet} (ran : Succeeds (scan f) u callees v) :
    ∃ used, v.uses = u.uses.insert f.id used ∧ Within used u.globals v.globals := by
  rw [scan_eq] at ran
  obtain ⟨⟨map, called⟩, w, scanned, ran⟩ := Succeeds.bind_iff.1 ran
  obtain ⟨_, _, stored, ran⟩ := Succeeds.bind_iff.1 ran
  obtain rfl := Succeeds.of_modify.1 stored
  obtain ⟨used, w', declared, ran⟩ := Succeeds.bind_iff.1 ran
  obtain ⟨_, _, stored, ran⟩ := Succeeds.bind_iff.1 ran
  obtain rfl := Succeeds.of_modify.1 stored
  obtain ⟨_, rfl⟩ := Succeeds.of_pure.1 ran
  have same := (scanAll_confined f).keeps u
  rw [show outcome (scanAll f) u = (.ok (map, called), w) from scanned] at same
  simp only [outside, Prod.mk.injEq] at same
  have within := declareAtoms_within declared
  refine ⟨used, ?_, same.2.1 ▸ within⟩
  show w'.uses.insert f.id used = _
  rw [(declareAtoms_gathers declared).uses, same.2.2]

/-- What the tables of a unit hold between additions: globals that a function of the unit uses. -/
structure Accounted (u : Linkage) : Prop where
  used : ∀ g, u.globals.Declares g → ∃ (id : FunctionId) (used : GlobalSet), u.uses[id]? = some used ∧ g ∈ used
  known : ∀ (id : FunctionId) (used : GlobalSet), u.uses[id]? = some used → id ∈ u.dependencies
  special : ∀ g ∈ u.globals.special, ∃ kind n, g = .special kind n

theorem accounted_fresh : Accounted {} := by
  refine ⟨fun g known => ?_, fun id used found => by simp at found, fun g member => by simp at member⟩
  cases g <;> simp [Globals.Declares] at known

theorem Accounted.addOne {r : Registry} {needed : List Function} (accounted : Accounted u)
    (fresh : u.contains f.id = false) (h : Succeeds (addOne r f) u needed v) : Accounted v := by
  obtain ⟨g, callees, w, preparing, scanning, _, rfl⟩ := addOne_succeeds.1 h
  obtain ⟨_, same, _⟩ := Function.prepared_of_prepare preparing
  obtain ⟨used, uses, within⟩ := scan_within scanning
  have dependencies := (scan_frame scanning).2
  have entry : ∀ id, w.uses[id]? = if g.id = id then some used else u.uses[id]? := by
    intro id
    rw [uses, Std.ExtTreeMap.getElem?_insert]
    simp only [Std.LawfulEqCmp.compare_eq_iff_eq]
  refine ⟨fun h known => ?_, fun id used' found => ?_, fun h member => ?_⟩
  · rcases within.declared h known with old | new
    · obtain ⟨id, used', found, member⟩ := accounted.used h old
      refine ⟨id, used', ?_, member⟩
      show w.uses[id]? = _
      rw [entry, if_neg, found]
      rintro rfl
      have recorded := Std.ExtTreeMap.mem_iff_contains.1 (accounted.known _ _ found)
      rw [same] at recorded
      exact absurd (fresh.symm.trans recorded) (by decide)
    · exact ⟨g.id, used, (entry g.id).trans (if_pos rfl), new⟩
  · show id ∈ w.dependencies.insert g.id callees
    rw [Std.ExtTreeMap.mem_insert, Std.LawfulEqCmp.compare_eq_iff_eq, dependencies]
    have found : w.uses[id]? = some used' := found
    rw [entry] at found
    split at found
    · rename_i here
      exact Or.inl here
    · exact Or.inr (accounted.known id used' found)
  · exact (within.special h member).elim (accounted.special h) id

theorem Reached.accounted {r : Registry} (reached : Reached r u) : Accounted u := by
  refine reached.keeps accounted_fresh (fun _ _ _ _ accounted new added => accounted.addOne new added) ?_
  intro u v accounted sorted
  obtain ⟨_, _, rfl⟩ := sort_succeeds sorted
  exact ⟨accounted.used, accounted.known, accounted.special⟩

def Uses (u : Linkage) (g : Global) : Prop := ∃ f ∈ u.functions, g ∈ u.globalsUsed f.id

/-- The tables of a linked unit hold exactly what its functions use. -/
theorem Linked.declares_iff {r : Registry} {entries : List FunctionId} (linked : Linked r entries u) {g : Global} :
    u.globals.Declares g ↔ Uses u g := by
  constructor
  · intro known
    obtain ⟨id, used, found, member⟩ := linked.made.accounted.used g known
    obtain ⟨f, listed, rfl⟩ :=
      List.mem_map.1 ((linked.records.known id).1 (linked.made.accounted.known id used found))
    exact ⟨f, listed, mem_globalsUsed.2 ⟨f.id, used, .refl, found, member⟩⟩
  · rintro ⟨f, _, member⟩
    exact linked.made.tabled.declares_of_used member

/-- A unit that uses one task payload at most and one hit attribute at most. -/
def Single (u : Linkage) : Prop := ∀ g h, Uses u g → Uses u h → ¬ g.Twins h

end Linkage

end ShaderForge
