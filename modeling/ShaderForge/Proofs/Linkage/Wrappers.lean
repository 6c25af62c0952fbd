import ShaderForge.Proofs.Linkage.Closure
import ShaderForge.Proofs.Linkage.Fold
import ShaderForge.Proofs.Linkage.Globals
import ShaderForge.Source.Naming

/-!
Wrappers of images and samplers. Modifiers and formats find the resource below any number of other
wrappers; an array wrapper sets the length of an image or sampler only where it stands directly on it.
-/

namespace ShaderForge

open Buffer

/-! ### Entries of images and samplers -/

namespace Globals

variable {t : Globals} {g : Global} {n : Int}

def binding? (t : Globals) : Global → Option (ImageBinding ⊕ SamplerBinding)
  | .image n => t.images[n]?.map .inl
  | .sampler n => t.samplers[n]?.map .inr
  | _ => none

theorem binding?_insert_image {e : ImageBinding} (other : g ≠ .image n) :
    ({ t with images := t.images.insert n e } : Globals).binding? g = t.binding? g := by
  cases g with
  | image m =>
    have different : n ≠ m := fun same => other (congrArg _ same.symm)
    simp [binding?, Std.ExtTreeMap.getElem?_insert, different]
  | _ => rfl

theorem binding?_insert_sampler {e : SamplerBinding} (other : g ≠ .sampler n) :
    ({ t with samplers := t.samplers.insert n e } : Globals).binding? g = t.binding? g := by
  cases g with
  | sampler m =>
    have different : n ≠ m := fun same => other (congrArg _ same.symm)
    simp [binding?, Std.ExtTreeMap.getElem?_insert, different]
  | _ => rfl

theorem binding?_applyModifier {modifier target : Qualifier} (other : Global.ofQualifier? target n ≠ some g) :
    (t.applyModifier modifier target n).1.binding? g = t.binding? g := by
  unfold applyModifier
  split
  case h_4 =>
    simp only [adjust]
    split
    · exact binding?_insert_image fun same => other (congrArg some same.symm)
    · rfl
  case h_3 => split <;> cases g <;> rfl
  all_goals cases g <;> rfl

theorem binding?_setFormat {format : String} {target : Qualifier} (other : Global.ofQualifier? target n ≠ some g) :
    (t.setFormat format target n).1.binding? g = t.binding? g := by
  unfold setFormat
  split
  · rename_i image _
    cases target <;> cases image
    exact binding?_insert_image fun same => other (congrArg some same.symm)
  · rfl

theorem binding?_resize {target : Qualifier} {count : Int}
    (resource : (target.sampler?.isSome || target.image?.isSome) = true)
    (other : Global.ofQualifier? target n ≠ some g) : (t.resize target n count).1.binding? g = t.binding? g := by
  unfold resize
  cases target with
  | image =>
    simp only [Qualifier.sampler?, Option.isSome_none, Bool.false_eq_true, ↓reduceIte]
    split
    · exact binding?_insert_image fun same => other (congrArg some same.symm)
    · rfl
  | sampler =>
    simp only [Qualifier.sampler?, Option.isSome_some, ↓reduceIte]
    split
    · exact binding?_insert_sampler fun same => other (congrArg some same.symm)
    · rfl
  | _ => cases resource

end Globals

namespace Linkage

variable {b : Buffer} {f : Function} {u v : Linkage} {g : Global} {i underlying : Index} {kind : Qualifier}
  {number : Int32}

/-! ### The resource below its wrappers -/

def refines (kind : Qualifier) : Bool := kind.isModifier || kind.format?.isSome || kind == .arrays

theorem refines_of_resource (resource : (kind.sampler?.isSome || kind.image?.isSome) = true) :
    refines kind = false := by
  cases kind <;> first | rfl | cases resource

theorem resourceFrom_qualifier (found : b.get? i = some (.qualifier underlying kind number)) (fuel : Nat) :
    resourceFrom b (fuel + 1) i =
      if refines kind then resourceFrom b fuel underlying else .ok (kind, number.toInt) := by
  rw [resourceFrom, atom_ok_iff.2 found]
  rfl

theorem resolveFrom_eq (fuel : Nat) (i : Index) :
    Global.resolveFrom b fuel i =
      (resourceFrom b fuel i).toOption.bind fun (kind, number) => Global.ofQualifier? kind number := by
  induction fuel generalizing i with
  | zero => rfl
  | succ fuel ih =>
    rw [Global.resolveFrom]
    split
    · rename_i underlying kind number found
      rw [resourceFrom_qualifier found]
      show (if refines kind then _ else _) = _
      split
      · exact ih underlying
      · rfl
    · rename_i other
      have failed : (resourceFrom b (fuel + 1) i).toOption = none := by
        rw [resourceFrom]
        cases found : b.get? i with
        | none =>
          rw [atom, found]
          rfl
        | some a =>
          rw [atom_ok_iff.2 found]
          cases a <;> first | rfl | exact (other _ _ _ found).elim
      rw [failed]
      rfl

theorem resolve?_of_resourceOf {resource : Qualifier} {n : Int} (known : resourceOf b i = .ok (resource, n)) :
    Global.resolve? b i = Global.ofQualifier? resource n := by
  rw [Global.resolve?, resolveFrom_eq, show resourceFrom b (b.size + 1) i = _ from known]
  rfl

theorem resourceOf_of_refines (backward : b.Backward)
    (found : b.get? i = some (.qualifier underlying kind number)) (refining : refines kind = true)
    {answer : Qualifier × Int} (known : resourceOf b underlying = .ok answer) : resourceOf b i = .ok answer := by
  cases i with
  | null => cases found
  | ref n =>
    have inside : n < b.size := (Array.getElem?_eq_some_iff.1 found).1
    have below : underlying.rank < n + 1 := backward.address_lt found (Or.inl rfl)
    unfold resourceOf
    rw [resourceFrom_qualifier found, if_pos refining]
    have same : ∀ i underlying kind number, True → b.get? i = some (.qualifier underlying kind number) →
        b.get? i = some (.qualifier underlying kind number) ∧ True := fun _ _ _ _ _ found => ⟨found, trivial⟩
    exact resourceFrom_along backward same trivial (by omega) known

theorem resourceOf_of_plain (found : b.get? i = some (.qualifier underlying kind number))
    (plain : refines kind = false) : resourceOf b i = .ok (kind, number.toInt) := by
  unfold resourceOf
  rw [resourceFrom_qualifier found, if_neg (by simp [plain])]

/-! ### What a qualifier leaves alone -/

theorem onGlobals_keeps {change : Globals → Globals × List Warning}
    (keeps : ∀ t, (change t).1.binding? g = t.binding? g) :
    Confined (fun u : Linkage => u.globals.binding? g) Local (onGlobals change) :=
  ⟨fun u => keeps u.globals, fun _ _ failed => nomatch failed⟩

theorem ask_keeps {α β τ : Type} {view : Linkage → τ} {question : Except Fault α} {x : α → Linking β}
    (later : ∀ a, question = .ok a → Confined view Local (x a)) :
    Confined view Local (ask question >>= x) := by
  cases question with
  | error e => exact (ask_confined (.error e) : Confined view Local (ask (.error e : Except Fault β)))
  | ok a => exact later a rfl

/-- A qualifier leaves the entries alone of all but the global that it names. -/
theorem declare_keeps (backward : f.buffer.Backward)
    (found : f.buffer.get? i = some (.qualifier underlying kind number))
    (other : Global.resolve? f.buffer i ≠ some g) :
    Confined (fun u : Linkage => u.globals.binding? g) Local (declare f i underlying kind number.toInt) := by
  have below : refines kind = true → ∀ {resource : Qualifier} {n : Int},
      resourceOf f.buffer underlying = .ok (resource, n) → Global.ofQualifier? resource n ≠ some g := by
    intro refining resource n known
    rw [← resolve?_of_resourceOf (resourceOf_of_refines backward found refining known)]
    exact other
  have here : refines kind = false → Global.ofQualifier? kind number.toInt ≠ some g := by
    intro plain
    rw [← resolve?_of_resourceOf (resourceOf_of_plain found plain)]
    exact other
  -- tables of other categories, plain images and samplers, then what refines the entry below
  unfold declare
  simp only
  split
  case h_1 => exact .of_bind (onGlobals_keeps fun t => by cases g <;> rfl) fun _ => .of_pure _
  case h_2 | h_3 | h_15 | h_16 | h_17 | h_19 =>
    exact .of_bind (resolving_confined _ _) fun _ =>
      .of_bind (onGlobals_keeps fun t => by cases g <;> rfl) fun _ => .of_pure _
  case h_4 | h_5 | h_6 | h_7 | h_8 =>
    refine .of_bind (resolving_confined _ _) fun _ => ?_
    split
    · exact .of_bind (onGlobals_keeps fun t => by cases g <;> rfl) fun _ => .of_pure _
    · exact .of_pure _
  case h_9 =>
    refine .of_bind (onGlobals_keeps fun t => ?_) fun _ => .of_pure _
    exact Globals.binding?_insert_sampler fun same => here rfl (congrArg some same.symm)
  case h_10 =>
    refine .of_bind (onGlobals_keeps fun t => ?_) fun _ => .of_pure _
    exact Globals.binding?_insert_image fun same => here rfl (congrArg some same.symm)
  case h_11 | h_12 | h_13 =>
    refine ask_keeps ?_
    rintro ⟨resource, n⟩ known
    refine .of_bind (onGlobals_keeps fun t => ?_) fun _ => .of_pure _
    exact Globals.binding?_applyModifier (below rfl known)
  case h_14 =>
    refine ask_keeps ?_
    rintro ⟨resource, n⟩ known
    refine .of_bind (onGlobals_keeps fun t => ?_) fun _ => .of_pure _
    exact Globals.binding?_setFormat (below rfl known)
  case h_18 =>
    refine .of_bind (resolving_confined _ _) fun _ => ?_
    split
    · exact .of_throw fun _ same => nomatch same
    · exact .of_bind (onGlobals_keeps fun t => by cases g <;> rfl) fun _ => .of_pure _
  case h_20 =>
    split
    · rename_i _ inner n within
      split
      · rename_i resource
        refine .of_bind (onGlobals_keeps fun t => Globals.binding?_resize resource ?_) fun _ => .of_pure _
        exact below rfl (resourceOf_of_plain within (refines_of_resource resource))
      · exact .of_pure _
    · exact .of_pure _
  all_goals exact .of_pure _

theorem declareAtom_keeps (backward : f.buffer.Backward) (other : Global.resolve? f.buffer i ≠ some g)
    (uses : GlobalSet) : Confined (fun u : Linkage => u.globals.binding? g) Local (declareAtom f uses i) := by
  refine ask_keeps fun a found => ?_
  rw [atom_ok_iff] at found
  split
  · refine .of_bind (declare_keeps backward found other) fun named => ?_
    split <;> exact .of_pure _
  · exact .of_pure _

/-! ### Towers of wrappers -/

/-- What a qualifier over another one says. -/
structure Wrapper where
  kind : Qualifier
  number : Int32

/-- The wrappers between two addresses, the innermost first, each with its own address. -/
inductive Chain (b : Buffer) (base : Index) : Index → List (Index × Wrapper) → Prop
  | bare : Chain b base base []
  | wrap {top i : Index} {ws : List (Index × Wrapper)} {w : Wrapper} (below : Chain b base top ws)
      (found : b.get? i = some (.qualifier top w.kind w.number)) : Chain b base i (ws ++ [(i, w)])

section

variable {base top : Index} {ws : List (Index × Wrapper)}

/-- The qualifier at an address of a chain stands on what comes before it. -/
theorem Chain.step {all : List (Index × Wrapper)} {w : Wrapper} (chain : Chain b base top all)
    (part : ws ++ [(i, w)] <+: all) :
    ∃ mid, Chain b base mid ws ∧ b.get? i = some (.qualifier mid w.kind w.number) := by
  induction chain with
  | bare => simp at part
  | @wrap mid j below v chain found ih =>
    rcases List.prefix_concat_iff.1 part with whole | part
    · obtain ⟨rfl, last⟩ := List.append_inj' whole rfl
      cases last
      exact ⟨mid, chain, found⟩
    · exact ih part

theorem Chain.ascending (backward : b.Backward) (chain : Chain b base top ws) :
    (base :: ws.map Prod.fst).Pairwise (· < ·) ∧ ∀ i ∈ base :: ws.map Prod.fst, i ≤ top := by
  induction chain with
  | bare => exact ⟨List.pairwise_singleton _ _, fun i here => List.mem_singleton.1 here ▸ Nat.le_refl _⟩
  | @wrap mid j below v chain found ih =>
    obtain ⟨sorted, bounded⟩ := ih
    have above : mid < j := by
      cases j with
      | null => cases found
      | ref n => exact backward.address_lt found (Or.inl rfl)
    have higher : ∀ i ∈ base :: below.map Prod.fst, i < j :=
      fun i member => Nat.lt_of_le_of_lt (bounded i member) above
    rw [List.map_append, ← List.cons_append, List.map_singleton]
    refine ⟨List.pairwise_append.2 ⟨sorted, List.pairwise_singleton _ _, ?_⟩, fun i member => ?_⟩
    · intro i member k here
      rw [List.mem_singleton.1 here]
      exact higher i member
    · rcases List.mem_append.1 member with old | here
      · exact Nat.le_of_lt (higher i old)
      · rw [List.mem_singleton.1 here]
        exact Nat.le_refl _

theorem Chain.ref_top {n : Nat} (chain : Chain b (.ref n) top ws) : ∃ m, top = .ref m := by
  cases chain with
  | bare => exact ⟨n, rfl⟩
  | wrap _ found =>
    cases top with
    | null => cases found
    | ref m => exact ⟨m, rfl⟩

/-- What holds of the last address of a chain and goes from an atom to its operands holds of all. -/
theorem Chain.each {n : Nat} {P : Index → Prop} (closed : b.UseClosed P) (chain : Chain b (.ref n) top ws)
    (last : P top) : ∀ i ∈ .ref n :: ws.map Prod.fst, P i := by
  induction chain with
  | bare =>
    intro i here
    rw [List.mem_singleton.1 here]
    exact last
  | @wrap mid j below v chain found ih =>
    obtain ⟨m, rfl⟩ := chain.ref_top
    have under : P (.ref m) := by
      cases j with
      | null => cases found
      | ref k => exact closed k _ last found _ (Atom.mem_operands.2 ⟨rfl, Or.inl rfl⟩)
    intro i member
    rw [List.map_append, ← List.cons_append, List.mem_append, List.map_singleton, List.mem_singleton] at member
    rcases member with old | rfl
    · exact ih under i old
    · exact last

theorem Chain.resourceOf {resource : Qualifier} (backward : b.Backward)
    (declared : b.get? base = some (.qualifier underlying resource number)) (plain : refines resource = false)
    (chain : Chain b base top ws) (each : ∀ w ∈ ws, refines w.2.kind = true) :
    Linkage.resourceOf b top = .ok (resource, number.toInt) := by
  induction chain with
  | bare => exact resourceOf_of_plain declared plain
  | wrap chain found ih =>
    have under := ih fun w member => each w (List.mem_append_left _ member)
    exact resourceOf_of_refines backward found (each _ (List.mem_append_right _ (List.mem_singleton_self _))) under

end

/-- The wrappers that an image or a sampler takes. -/
def takes : Qualifier → Qualifier → Bool
  | .image .., .readOnly | .image .., .writeOnly | .image .., .format _ | .image .., .arrays
  | .sampler .., .arrays => true
  | _, _ => false

theorem refines_of_takes {resource : Qualifier} (taken : takes resource kind = true) : refines kind = true := by
  cases resource <;> cases kind <;> first | rfl | cases taken

/-- The length that wrappers set, the innermost first: that of an array directly on the resource. -/
def arrayLength (ws : List Wrapper) : Option Int :=
  (ws.head?.filter (·.kind = .arrays)).map (·.number.toInt)

/-- The entry that wrappers make of an image, the innermost first. -/
def wrappedImage (origin : Origin) (texel : Prim) (dim : Nat) (ws : List Wrapper) : ImageBinding where
  texel
  dim
  format := (ws.filterMap (·.kind.format?)).getLast?
  readOnly := ws.any (·.kind = .readOnly)
  writeOnly := ws.any (·.kind = .writeOnly)
  count := arrayLength ws
  origin

/-- The entry that wrappers make of a sampler, the innermost first. -/
def wrappedSampler (origin : Origin) (texel : Prim) (dim : Nat) (ws : List Wrapper) : SamplerBinding where
  texel
  dim
  count := arrayLength ws
  origin

def wrapped (resource : Qualifier) (origin : Origin) (ws : List Wrapper) :
    Option (ImageBinding ⊕ SamplerBinding) :=
  match resource with
  | .image c d => some (.inl (wrappedImage origin c.texel d.toNat ws))
  | .sampler c d => some (.inr (wrappedSampler origin c.texel d.toNat ws))
  | _ => none

theorem declareAtom_succeeds {uses used : GlobalSet} (found : f.buffer.get? i = some (.qualifier underlying kind number))
    (ran : Succeeds (declareAtom f uses i) u used v) :
    ∃ answer, Succeeds (declare f i underlying kind number.toInt) u answer v := by
  unfold declareAtom at ran
  obtain ⟨a, _, asked, ran⟩ := Succeeds.bind_iff.1 ran
  obtain ⟨there, rfl⟩ := ask_succeeds.1 asked
  rw [atom_ok_iff, found, Option.some.injEq] at there
  subst there
  obtain ⟨answer, w, declared, ran⟩ := Succeeds.bind_iff.1 ran
  refine ⟨answer, ?_⟩
  cases answer <;> (obtain ⟨_, rfl⟩ := Succeeds.of_pure.1 ran; exact declared)

section

variable {origin : Origin} {texel : Prim} {dim : Nat} {ws : List Wrapper} {w : Wrapper}

theorem wrappedImage_modifier (modifier : w.kind = .readOnly ∨ w.kind = .writeOnly) :
    wrappedImage origin texel dim (ws ++ [w]) = Globals.modifyImage w.kind (wrappedImage origin texel dim ws) := by
  obtain ⟨kind, number⟩ := w
  rcases modifier with rfl | rfl <;> cases ws <;>
    simp [Globals.modifyImage, wrappedImage, arrayLength, Qualifier.format?]

theorem wrappedImage_format {name : String} (format : w.kind.format? = some name) :
    wrappedImage origin texel dim (ws ++ [w]) = { wrappedImage origin texel dim ws with format := some name } := by
  obtain ⟨kind, number⟩ := w
  cases kind <;> cases format
  cases ws <;> simp [wrappedImage, arrayLength, Qualifier.format?]

theorem wrappedImage_arrays (array : w.kind = .arrays) (wrapped : ws ≠ []) :
    wrappedImage origin texel dim (ws ++ [w]) = wrappedImage origin texel dim ws := by
  obtain ⟨kind, number⟩ := w
  cases array
  cases ws with
  | nil => exact absurd rfl wrapped
  | cons first rest => simp [wrappedImage, arrayLength, Qualifier.format?]

theorem wrappedSampler_append (wrapped : ws ≠ []) :
    wrappedSampler origin texel dim (ws ++ [w]) = wrappedSampler origin texel dim ws := by
  cases ws with
  | nil => exact absurd rfl wrapped
  | cons first rest => rfl

end

theorem declare_fresh {resource : Qualifier} {answer : Option Global}
    (names : Global.ofQualifier? resource number.toInt = some g)
    (bindable : (resource.sampler?.isSome || resource.image?.isSome) = true) (fresh : u.globals.binding? g = none)
    (ran : Succeeds (declare f i underlying resource number.toInt) u answer v) :
    v.globals.binding? g = wrapped resource ⟨f.id, i⟩ [] := by
  cases resource with
  | image c d =>
    cases names
    obtain ⟨_, w, changed, ran⟩ := Succeeds.bind_iff.1 ran
    obtain ⟨_, rfl⟩ := Succeeds.of_pure.1 ran
    have absent : u.globals.images[number.toInt]? = none := Option.map_eq_none_iff.1 fresh
    rw [(onGlobals_succeeds changed).1]
    simp [Globals.binding?, Table.define, redeclare, absent, wrapped, wrappedImage, arrayLength]
  | sampler c d =>
    cases names
    obtain ⟨_, w, changed, ran⟩ := Succeeds.bind_iff.1 ran
    obtain ⟨_, rfl⟩ := Succeeds.of_pure.1 ran
    have absent : u.globals.samplers[number.toInt]? = none := Option.map_eq_none_iff.1 fresh
    rw [(onGlobals_succeeds changed).1]
    simp [Globals.binding?, Table.define, redeclare, absent, wrapped, wrappedSampler, arrayLength]
  | _ => cases bindable

section

variable {base mid top below : Index} {resource : Qualifier} {ws : List (Index × Wrapper)} {w : Wrapper}
  {answer : Option Global}

theorem Chain.eq_base (chain : Chain b base top []) : base = top := by
  generalize none : [] = ws at chain
  cases chain with
  | bare => rfl
  | wrap => simp at none

theorem Chain.top_kind (chain : Chain b base top ws) (more : ws ≠ []) :
    ∃ x ∈ ws, ∃ under, b.get? top = some (.qualifier under x.2.kind x.2.number) := by
  cases chain with
  | bare => exact absurd rfl more
  | @wrap mid _ _ x _ found => exact ⟨(_, x), List.mem_append_right _ (List.mem_singleton_self _), mid, found⟩

/-- A wrapper that asks for the resource below it changes the tables as that resource has it. -/
theorem asking_succeeds {α β : Type} {question : Except Fault α} {a : α} {x : β} {y : β}
    {change : α → Globals → Globals × List Warning} (known : question = .ok a)
    (ran : Succeeds (do onGlobals (change (← ask question)); return x) u y v) :
    v.globals = (change a u.globals).1 := by
  subst known
  obtain ⟨_, _, asked, ran⟩ := Succeeds.bind_iff.1 ran
  obtain ⟨same, rfl⟩ := ask_succeeds.1 asked
  cases same
  obtain ⟨_, _, changed, ran⟩ := Succeeds.bind_iff.1 ran
  obtain ⟨_, rfl⟩ := Succeeds.of_pure.1 ran
  exact (onGlobals_succeeds changed).1

theorem declare_arrays {binding : Int32} {length : Int}
    (found : f.buffer.get? mid = some (.qualifier below kind binding))
    (ran : Succeeds (declare f i mid .arrays length) u answer v) :
    v.globals = if kind.sampler?.isSome || kind.image?.isSome then
      (u.globals.resize kind binding.toInt length).1 else u.globals := by
  simp only [declare, found] at ran
  split at ran
  · rename_i resource
    obtain ⟨_, _, changed, ran⟩ := Succeeds.bind_iff.1 ran
    obtain ⟨_, rfl⟩ := Succeeds.of_pure.1 ran
    rw [(onGlobals_succeeds changed).1, if_pos resource]
  · rename_i other
    obtain ⟨_, rfl⟩ := Succeeds.of_pure.1 ran
    rw [if_neg other]

theorem declare_arrays_wrapped {length : Int} (chain : Chain f.buffer base mid ws) (more : ws ≠ [])
    (kinds : ∀ x ∈ ws, takes resource x.2.kind = true)
    (ran : Succeeds (declare f i mid .arrays length) u answer v) : v.globals = u.globals := by
  obtain ⟨x, member, under, found⟩ := chain.top_kind more
  have refining := refines_of_takes (kinds x member)
  rw [declare_arrays found ran, if_neg]
  intro bound
  rw [refines_of_resource bound] at refining
  cases refining

/-- A wrapper over a declared resource makes of its entry what the longer chain says. -/
theorem declare_wrapper (backward : f.buffer.Backward)
    (declared : f.buffer.get? base = some (.qualifier below resource number))
    (chain : Chain f.buffer base mid ws) (kinds : ∀ x ∈ ws, takes resource x.2.kind = true)
    (taken : takes resource w.kind = true) (names : Global.ofQualifier? resource number.toInt = some g) {origin : Origin}
    (entry : u.globals.binding? g = wrapped resource origin (ws.map Prod.snd))
    (ran : Succeeds (declare f i mid w.kind w.number.toInt) u answer v) :
    v.globals.binding? g = wrapped resource origin ((ws ++ [(i, w)]).map Prod.snd) := by
  have under : resourceOf f.buffer mid = .ok (resource, number.toInt) := by
    refine chain.resourceOf backward declared ?_ fun x member => refines_of_takes (kinds x member)
    cases resource <;> first | rfl | cases taken
  obtain ⟨kind, length⟩ := w
  rw [List.map_append]
  cases resource with
  | image c d =>
    cases names
    have before : u.globals.images[number.toInt]? = some (wrappedImage origin c.texel d.toNat (ws.map Prod.snd)) := by
      simpa [Globals.binding?, wrapped] using entry
    suffices after : v.globals.images[number.toInt]? =
        some (wrappedImage origin c.texel d.toNat (ws.map Prod.snd ++ [⟨kind, length⟩])) by
      simp [Globals.binding?, wrapped, after]
    cases kind with
    | readOnly | writeOnly =>
      rw [asking_succeeds under ran, wrappedImage_modifier (by simp)]
      simp [Globals.applyModifier, Globals.adjust, before]
    | format name =>
      rw [asking_succeeds under ran, wrappedImage_format rfl]
      simp [Globals.setFormat, Qualifier.image?, before]
    | arrays =>
      by_cases bare : ws = []
      · subst bare
        obtain rfl := chain.eq_base
        rw [declare_arrays declared ran]
        simp [Globals.resize, Qualifier.image?, Qualifier.sampler?, Qualifier.format?, before, wrappedImage, arrayLength]
      · rw [declare_arrays_wrapped chain bare kinds ran, before, wrappedImage_arrays rfl (by simpa using bare)]
    | _ => cases taken
  | sampler c d =>
    cases names
    have before : u.globals.samplers[number.toInt]? = some (wrappedSampler origin c.texel d.toNat (ws.map Prod.snd)) := by
      simpa [Globals.binding?, wrapped] using entry
    suffices after : v.globals.samplers[number.toInt]? =
        some (wrappedSampler origin c.texel d.toNat (ws.map Prod.snd ++ [⟨kind, length⟩])) by
      simp [Globals.binding?, wrapped, after]
    cases kind with
    | arrays =>
      by_cases bare : ws = []
      · subst bare
        obtain rfl := chain.eq_base
        rw [declare_arrays declared ran]
        simp [Globals.resize, Qualifier.sampler?, before, wrappedSampler, arrayLength]
      · rw [declare_arrays_wrapped chain bare kinds ran, before, wrappedSampler_append (by simpa using bare)]
    | _ => cases taken
  | _ => cases taken

end

end Linkage

end ShaderForge
