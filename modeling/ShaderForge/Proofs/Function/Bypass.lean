import ShaderForge.Proofs.Buffer.Bypass
import ShaderForge.Proofs.Function.Signature
import ShaderForge.Proofs.Typing.Names

/-!
A function whose placeholders are bypassed. It is prepared whenever the function is, with the same
types, names and signature; a placeholder that only storage kept marked gives way to its qualifier.
-/

namespace ShaderForge

namespace Liveness

open Buffer

variable {b c : Buffer} {via : Index → Index}

def Task.bypass (via : Index → Index) : Task → Task
  | .force i => .force i
  | .forceStorage i => .forceStorage (via i)
  | .visit i => .visit (via i)

theorem visits_bypass (items : List Index) :
    (items.map via).map Task.visit = (items.map Task.visit).map (Task.bypass via) := by
  rw [List.map_map, List.map_map]
  rfl

theorem operands_bypass (bypasses : Bypasses b c via) {a : Atom} (pure : a.declares = []) :
    (a.bypass via).operands = a.operands.map via := by
  have reads := Atom.reads_bypass bypasses.isNull a
  cases a with
  | qualifier | type | construct | call => cases pure
  | _ => exact reads

theorem needs_bypass (bypasses : Bypasses b c via) (a : Atom) :
    needs (a.bypass via) = (needs a).map (Task.bypass via) := by
  have inner := fun pure : a.declares = [] =>
    (congrArg (List.map Task.visit) (operands_bypass bypasses pure)).trans (visits_bypass a.operands)
  cases a with
  | store | qualifier | type | construct | call | access => rfl
  | _ => exact inner rfl

theorem leads_bypass (bypasses : Bypasses b c via) (synthesized : c.synthesized = b.synthesized) (i : Index)
    (a : Atom) : leads c i (a.bypass via) = (leads b i a).map (Task.bypass via) := by
  have inner := fun pure : a.declares = [] =>
    (congrArg (List.map Task.visit) (operands_bypass bypasses pure)).trans (visits_bypass a.operands)
  unfold leads isSynthesized
  rw [synthesized]
  split
  · rfl
  · cases a with
    | construct ty args mode => cases mode <;> rfl
    | intrinsic code args =>
      by_cases effect : (Atom.intrinsic code args).isSideEffect = true
      · have same : (Atom.intrinsic code (via args)).isSideEffect = true := effect
        simp only [Atom.bypass, same, effect, ↓reduceIte]
        rfl
      · have same : ¬ (Atom.intrinsic code (via args)).isSideEffect = true := effect
        simp only [Atom.bypass, same, effect]
        exact inner rfl
    | qualifier | type | call | store | ret | branch => rfl
    | _ => exact inner rfl

theorem isRoot_bypass (bypasses : Bypasses b c via) (typed : b.Typed) (types : c.types = b.types)
    (synthesized : c.synthesized = b.synthesized) {i : Index} {a : Atom} {live : Bool}
    (decided : isRoot b i a = .ok live) : isRoot c i (a.bypass via) = .ok live := by
  unfold isRoot isSynthesized at decided ⊢
  rw [synthesized]
  split
  · rename_i captured
    rw [if_pos captured] at decided
    exact decided
  · rename_i free
    rw [if_neg free] at decided
    cases a with
    | qualifier underlying kind number => cases kind <;> exact decided
    | construct ty args mode =>
      unfold isAnchored at decided ⊢
      obtain ⟨own, known, decided⟩ := Except.bind_ok decided
      rw [bypasses.typeOf types typed known, Except.ok_bind]
      exact decided
    | _ => exact decided

theorem due_qualifier (bypasses : Bypasses b c via) {i : Index} (moved : via i ≠ i) (due : Due b (.force i)) :
    Due b (.force (via i)) := by
  obtain ⟨_, _, _, construct, _⟩ := bypasses.placeholder i moved
  cases i with
  | null => cases construct
  | ref n => exact .force due construct List.mem_cons_self

theorem due_of_visit (bypasses : Bypasses b c via) {i : Index} (moved : via i ≠ i) (due : Due b (.visit i)) :
    Due b (.force (via i)) := by
  obtain ⟨_, _, _, construct, _⟩ := bypasses.placeholder i moved
  cases i with
  | null => cases construct
  | ref n =>
    by_cases captured : b.isSynthesized (.ref n) = true
    · refine due_qualifier bypasses moved (.visit due construct ?_)
      rw [leads, if_pos captured]
      exact List.mem_cons_self
    · refine .visit due construct ?_
      rw [leads, if_neg captured]
      exact List.mem_cons_self

theorem leads_qualifier (b : Buffer) (i underlying : Index) (kind : Qualifier) (number : Int32) :
    leads b i (.qualifier underlying kind number) = [.force i] := by
  unfold leads
  split <;> rfl

theorem answers_bypass (bypasses : Bypasses b c via) (backward : b.Backward) {t : Task}
    (answered : Answers b t) : Answers c (t.bypass via) := by
  cases t with
  | force i =>
    rcases answered with absent | ⟨a, there⟩
    · exact Or.inl absent
    · exact Or.inr ⟨_, bypasses.get?_some there⟩
  | forceStorage i =>
    obtain ⟨j, found⟩ := answered
    have run := bypasses.storageRun (storageRun_of_storageFrom found)
    exact ⟨via j, (storage_ok_iff (bypasses.backward backward)).2 run⟩
  | visit i =>
    by_cases moved : via i = i
    · rcases answered with absent | ⟨a, there⟩
      · exact Or.inl (moved.trans absent)
      · exact Or.inr ⟨_, by rw [moved]; exact bypasses.get?_some there⟩
    · obtain ⟨_, _, _, _, qualifier⟩ := bypasses.placeholder i moved
      exact Or.inr ⟨_, bypasses.get?_some qualifier⟩

theorem due_force_of_visit (bypasses : Bypasses b c via) {i : Index} (moved : via i ≠ i)
    (due : Due c (.visit (via i))) : Due c (.force (via i)) := by
  obtain ⟨_, _, _, _, qualifier⟩ := bypasses.placeholder i moved
  have there := bypasses.get?_some qualifier
  cases place : via i with
  | null => rw [place] at qualifier; cases qualifier
  | ref k =>
    rw [place] at there due
    refine .visit due there ?_
    rw [Atom.bypass, leads_qualifier]
    exact List.mem_singleton_self _

/-- How a task stands where placeholders are bypassed: it is due there through the map, or it forces a
placeholder whose qualifier is forced there. The use of an absent address asks for nothing. -/
inductive Rerouted (c : Buffer) (via : Index → Index) : Task → Prop
  | unused : Rerouted c via (.visit .null)
  | kept {t : Task} (due : Due c (t.bypass via)) : Rerouted c via t
  | qualifier {i : Index} (moved : via i ≠ i) (due : Due c (.force (via i))) : Rerouted c via (.force i)

theorem reroute_needs (bypasses : Bypasses b c via) {n : Nat} {a : Atom} {t : Task}
    (moved : via (.ref n) ≠ .ref n) (found : b.atoms[n]? = some a) (due : Due c (.force (via (.ref n))))
    (member : t ∈ needs a) : Rerouted c via t := by
  obtain ⟨_, _, _, construct, _⟩ := bypasses.placeholder _ moved
  rw [get?_ref, found, Option.some.injEq] at construct
  subst construct
  simp only [needs, List.mem_cons, List.not_mem_nil, or_false] at member
  rcases member with rfl | rfl
  · exact .kept due
  · exact .unused

section

variable (bypasses : Bypasses b c via) (backward : b.Backward) (typed : b.Typed) (types : c.types = b.types)
  (synthesized : c.synthesized = b.synthesized)
include bypasses backward typed types synthesized

theorem due_source (answers : ∀ t, Due b t → Answers b t)
    (decided : ∀ (n : Nat) (a : Atom), b.atoms[n]? = some a → ∃ live, isRoot b (.ref n) a = .ok live)
    {t : Task} (due : Due c t) : ∃ t', t'.bypass via = t ∧ Due b t' := by
  induction due with
  | @root n a found live =>
    obtain ⟨a, there, rfl⟩ := bypasses.source (i := .ref n) found
    obtain ⟨live', known⟩ := decided n a there
    rw [isRoot_bypass bypasses typed types synthesized known, Except.ok.injEq] at live
    subst live
    exact ⟨.force (.ref n), rfl, .root there known⟩
  | @storage i j _ found ih =>
    obtain ⟨t, same, due⟩ := ih
    cases t with
    | forceStorage i' =>
      cases same
      obtain ⟨j', found'⟩ := answers _ due
      have run := bypasses.storageRun (storageRun_of_storageFrom found')
      rw [(storage_ok_iff (bypasses.backward backward)).2 run, Except.ok.injEq] at found
      subst found
      refine ⟨.force (via j'), rfl, ?_⟩
      have forced : Due b (.force j') := .storage due found'
      by_cases moved : via j' = j'
      · rw [moved]
        exact forced
      · exact due_qualifier bypasses moved forced
    | force | visit => cases same
  | @force n a t _ found member ih =>
    obtain ⟨t', same, due⟩ := ih
    obtain ⟨a, there, rfl⟩ := bypasses.source (i := .ref n) found
    rw [needs_bypass bypasses] at member
    obtain ⟨t'', needed, rfl⟩ := List.mem_map.1 member
    cases t' with
    | force i =>
      cases same
      exact ⟨t'', rfl, .force due there needed⟩
    | forceStorage | visit => cases same
  | @visit n a t _ found member ih =>
    obtain ⟨t', same, due⟩ := ih
    cases t' with
    | visit i =>
      have place : via i = .ref n := Task.visit.inj same
      by_cases moved : via i = i
      · obtain ⟨a, there, rfl⟩ := bypasses.source (i := .ref n) found
        rw [moved] at place
        subst place
        rw [leads_bypass bypasses synthesized] at member
        obtain ⟨t'', led, rfl⟩ := List.mem_map.1 member
        exact ⟨t'', rfl, .visit due there led⟩
      · -- the qualifier of a placeholder is forced, by whichever of the two it is used
        obtain ⟨_, _, _, _, qualifier⟩ := bypasses.placeholder i moved
        have there := bypasses.get?_some qualifier
        rw [place, get?_ref, found, Option.some.injEq] at there
        rw [there, Atom.bypass, leads_qualifier, List.mem_singleton] at member
        subst member
        exact ⟨.force (.ref n), rfl, place ▸ due_of_visit bypasses moved due⟩
    | forceStorage | force => cases same

/-- What was due before is due with placeholders bypassed, by the qualifier where it was due by the
placeholder. -/
theorem due_bypass {t : Task} (due : Due b t) : Rerouted c via t := by
  induction due with
  | @root n a found live =>
    exact .kept (.root (bypasses.get?_some (i := .ref n) found)
      (isRoot_bypass bypasses typed types synthesized live))
  | @storage i j _ found ih =>
    cases ih with
    | kept due =>
      have run := bypasses.storageRun (storageRun_of_storageFrom found)
      have forced : Due c (.force (via j)) :=
        .storage due ((storage_ok_iff (bypasses.backward backward)).2 run)
      by_cases moved : via j = j
      · rw [moved] at forced
        exact .kept forced
      · exact .qualifier moved forced
  | @force n a t _ found member ih =>
    cases ih with
    | kept due =>
      refine .kept (.force due (bypasses.get?_some (i := .ref n) found) ?_)
      rw [needs_bypass bypasses]
      exact List.mem_map_of_mem member
    | qualifier moved due => exact reroute_needs bypasses moved found due member
  | @visit n a t _ found member ih =>
    cases ih with
    | kept due =>
      by_cases moved : via (.ref n) = .ref n
      · rw [Task.bypass, moved] at due
        refine .kept (.visit due (bypasses.get?_some (i := .ref n) found) ?_)
        rw [leads_bypass bypasses synthesized]
        exact List.mem_map_of_mem member
      · have forced := due_force_of_visit bypasses moved due
        rcases leads_needs member with rfl | needed
        · exact .qualifier moved forced
        · exact reroute_needs bypasses moved found forced needed

/-- Marking finds the same statements and declarations, apart from placeholders. -/
theorem mark_bypass {marked : IndexSet} (marking : mark b = .ok marked) : ∃ others, mark c = .ok others ∧
    (∀ i ∈ others, i ∈ marked) ∧ ∀ i ∈ marked, i ∈ others ∨ via i ≠ i ∧ via i ∈ others := by
  have marks := marks_of_mark marking
  have source := fun t (due : Due c t) =>
    due_source bypasses backward typed types synthesized marks.answers marks.decided due
  obtain ⟨others, marking'⟩ : ∃ others, mark c = .ok others := by
    refine mark_of_answers (fun t due => ?_) fun n a found => ?_
    · obtain ⟨t', rfl, due'⟩ := source t due
      exact answers_bypass bypasses backward (marks.answers t' due')
    · obtain ⟨a, there, rfl⟩ := bypasses.source (i := .ref n) found
      obtain ⟨live, known⟩ := marks.decided n a there
      exact ⟨live, isRoot_bypass bypasses typed types synthesized known⟩
  have marks' := marks_of_mark marking'
  refine ⟨others, marking', fun i member => ?_, fun i member => ?_⟩
  · obtain ⟨n, rfl, _⟩ := marks'.present i member
    obtain ⟨t, same, due⟩ := source _ ((marks'.mem_iff n).1 member)
    cases t with
    | force i =>
      cases same
      exact (marks.mem_iff n).2 due
    | forceStorage | visit => cases same
  · obtain ⟨n, rfl, _⟩ := marks.present i member
    cases due_bypass bypasses backward typed types synthesized ((marks.mem_iff n).1 member) with
    | kept due => exact Or.inl ((marks'.mem_iff n).2 due)
    | qualifier moved due =>
      obtain ⟨_, _, _, _, qualifier⟩ := bypasses.placeholder _ moved
      refine Or.inr ⟨moved, ?_⟩
      cases place : via (.ref n) with
      | null => rw [place] at qualifier; cases qualifier
      | ref k =>
        rw [place] at due
        exact (marks'.mem_iff k).2 due

end

end Liveness

namespace Function

open Buffer

/-! ### Signatures -/

section

variable {b c : Buffer} {via : Index → Index} {name : String}

theorem indexed_bypass (bypasses : Bypasses b c via) :
    c.indexed = b.indexed.map fun p => (p.1, p.2.bypass via) := by
  apply List.ext_getElem?
  intro n
  rw [indexed_getElem?, bypasses.getElem?, List.getElem?_map, indexed_getElem?]
  cases b.atoms[n]? <;> rfl

theorem parametersOf_bypass (bypasses : Bypasses b c via) : parametersOf c = parametersOf b := by
  unfold parametersOf
  simp only [indexed_bypass bypasses, List.filterMap_map]
  congr 1
  refine List.filterMap_congr ?_
  rintro ⟨i, a⟩ _
  cases a with
  | qualifier underlying kind number => cases kind <;> rfl
  | _ => rfl

theorem argumentTypes_bypass (bypasses : Bypasses b c via) (types : c.types = b.types) (typed : b.Typed)
    {parameters : List (Index × Nat)} {expected : Nat} {args : List Ty}
    (h : argumentTypes name b expected parameters = .ok args) :
    argumentTypes name c expected parameters = .ok args := by
  induction parameters generalizing expected args with
  | nil => exact h
  | cons p rest ih =>
    obtain ⟨i, position⟩ := p
    unfold argumentTypes at h ⊢
    split at h
    · cases h
    · rename_i placed
      obtain ⟨own, known, h⟩ := Except.bind_ok h
      obtain ⟨later, others, h⟩ := Except.bind_ok h
      rw [if_neg placed, bypasses.typeOf types typed known, Except.ok_bind, ih others]
      exact h

theorem returnType_bypass (bypasses : Bypasses b c via) (types : c.types = b.types) (typed : b.Typed)
    {items : List (Index × Atom)} {known result : Option Ty} (h : returnType name b known items = .ok result) :
    returnType name c known (items.map fun p => (p.1, p.2.bypass via)) = .ok result := by
  induction items generalizing known with
  | nil => exact h
  | cons p rest ih =>
    obtain ⟨i, a⟩ := p
    rw [List.map_cons]
    cases a with
    | ret value =>
      unfold returnType at h ⊢
      obtain ⟨own, answer, h⟩ := Except.bind_ok h
      obtain ⟨other, answer', bare⟩ := bypasses.typeOf_bare types typed answer
      simp only [Atom.bypass, answer', bare, Except.ok_bind]
      cases known with
      | none => exact ih h
      | some previous =>
        simp only at h ⊢
        split at h
        · cases h
        · rename_i same
          rw [if_neg same]
          exact ih h
    | _ =>
      unfold returnType at h ⊢
      exact ih h

end

/-! ### Preparation -/

/-- A function as it stands in a unit beside one whose placeholders are bypassed. -/
structure Bypasses (f f' : Function) (via : Index → Index) : Prop where
  buffer : f.buffer.Bypasses f'.buffer via
  id : f'.id = f.id
  name : f'.name = f.name
  args : f'.args = f.args
  types : f'.buffer.types = f.buffer.types
  decorations : f'.buffer.decorations = f.buffer.decorations
  fewer : ∀ i ∈ f'.buffer.marked, i ∈ f.buffer.marked
  marked : ∀ i ∈ f.buffer.marked, i ∈ f'.buffer.marked ∨ via i ≠ i ∧ via i ∈ f'.buffer.marked

def bypass (f : Function) (via : Index → Index) : Function :=
  { f with buffer := { f.buffer.invalidate with atoms := f.buffer.atoms.map (·.bypass via) } }

theorem Bypasses.refl (f : Function) : f.Bypasses f fun i => i := by
  refine ⟨⟨fun i moved => (moved rfl).elim, ?_⟩, rfl, rfl, rfl, rfl, rfl, fun _ member => member,
    fun _ member => Or.inl member⟩
  have same : ∀ a : Atom, a.bypass (fun i => i) = a := fun a => by cases a <;> rfl
  simp only [same, Array.map_id']

theorem prepare_bypass {f g : Function} {via : Index → Index} (nonempty : f.buffer.size ≠ 0)
    (bypasses : f.buffer.Bypasses (f.bypass via).buffer via) (h : Succeeds prepare f () g) :
    ∃ g', Succeeds prepare (f.bypass via) () g' ∧ g.Bypasses g' via := by
  obtain ⟨valid, types, hints, marked, args, returns, analyzed, marking, arguments, returned, rfl⟩ :=
    (prepare_succeeds nonempty).1 h
  have backward := backward_of_validate valid
  have typed : (f.buffer.withAnalysis types hints).Typed := typed_of_analyze analyzed rfl rfl
  have beside : (f.buffer.withAnalysis types hints).Bypasses ((f.bypass via).buffer.withAnalysis types hints) via :=
    ⟨bypasses.placeholder, bypasses.atoms⟩
  obtain ⟨hints', analyzed'⟩ := Typing.analyze_complete (beside.typed rfl typed)
    ((bypasses.backward backward).of_atoms_eq rfl) (c := (f.bypass via).buffer) rfl
  change Typing.analyze (f.bypass via).buffer = .ok (types, hints') at analyzed'
  have same : hints' = hints := by
    rw [Typing.hints_of_analyze (bypasses.backward backward) analyzed', bypasses.size,
      Typing.hints_of_analyze backward analyzed]
    exact Typing.passed_congr (b := f.buffer) (c := (f.bypass via).buffer) rfl types _
  subst same
  obtain ⟨others, marking', fewer, kept⟩ :=
    Liveness.mark_bypass beside (backward.of_atoms_eq rfl) typed rfl rfl marking
  have marked_beside : Buffer.Bypasses { f.buffer.withAnalysis types hints' with marked }
      { (f.bypass via).buffer.withAnalysis types hints' with marked := others } via :=
    ⟨bypasses.placeholder, bypasses.atoms⟩
  have marked_typed : Buffer.Typed { f.buffer.withAnalysis types hints' with marked } :=
    typed_of_analyze analyzed rfl rfl
  refine ⟨_, (prepare_succeeds (by rw [bypasses.size]; exact nonempty)).2
    ⟨bypasses.valid rfl rfl valid, types, hints', others, args, returns, analyzed', marking', ?_, ?_, rfl⟩, ?_⟩
  · rw [parametersOf_bypass marked_beside]
    exact argumentTypes_bypass marked_beside rfl marked_typed arguments
  · rw [indexed_bypass marked_beside]
    exact returnType_bypass marked_beside rfl marked_typed returned
  · exact ⟨marked_beside, rfl, rfl, rfl, rfl, rfl, fewer, kept⟩

end Function

end ShaderForge
