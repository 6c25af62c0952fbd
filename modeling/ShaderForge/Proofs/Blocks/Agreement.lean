import ShaderForge.Proofs.Blocks.Generators
import ShaderForge.Proofs.Function.Fold
import ShaderForge.Source.Glsl

/-!
What text and native code make of the blocks of a function. Native code takes the sequences of the
grammar, text all that are balanced.
-/

namespace ShaderForge

open Blocks

/-! ### Whole bodies -/

theorem Statement.body_decides {s : Scope}
    (supported : Supported (generator s) ∅ s.buffer.marked.toList) :
    Decides (body s) (Balanced (s.buffer.marked.toList.filterMap s.buffer.marker?)) := by
  have opened : body s = s.buffer.marked.toList.foldlM (statement s) {} >>= fun st =>
      (if st.depth ≠ 1 then s.defect (.blockLeftOpen s.function.name) else pure st) >>= fun st =>
        pure (String.join st.lines) := bind_assoc ..
  rw [opened, balanced_iff]
  refine (generator_tracks s).decides supported ?_ ?_
  · intro st closed
    rw [if_neg (not_not.2 closed)]
    exact ⟨_, rfl⟩
  · intro st unclosed
    rw [if_pos unclosed]
    exact (blockFault_defect s.toMember rfl).bind _

theorem Statement.supported_of_body {s : Scope} {text : String} (printed : body s = .ok text) :
    Supported (generator s) ∅ s.buffer.marked.toList := by
  obtain ⟨st, whole, _⟩ := Except.bind_ok printed
  obtain ⟨_, run, _⟩ := Except.bind_ok whole
  exact (generator_tracks s).supported run

theorem Statement.body_ok_iff {s : Scope} :
    (∃ text, body s = .ok text) ↔ Supported (generator s) ∅ s.buffer.marked.toList ∧
      Balanced (s.buffer.marked.toList.filterMap s.buffer.marker?) := by
  constructor
  · rintro ⟨text, printed⟩
    have supported := supported_of_body printed
    exact ⟨supported, (body_decides supported).done_iff.1 ⟨text, printed⟩⟩
  · rintro ⟨supported, balanced⟩
    exact (body_decides supported).done balanced

theorem Native.body_decides {s : Scope}
    (supported : Supported (generator s) s.slots s.buffer.marked.toList) :
    Decides (body s) (Nested (s.buffer.marked.toList.filterMap s.buffer.marker?)) := by
  rw [nested_iff]
  refine (generator_tracks s).decides supported ?_ ?_
  · intro st closed
    have frames : st.frames = [] := List.map_eq_nil_iff.1 closed
    rw [if_pos (List.isEmpty_iff.2 frames)]
    exact ⟨_, rfl⟩
  · intro st unclosed
    rw [if_neg fun empty => unclosed (List.map_eq_nil_iff.2 (List.isEmpty_iff.1 empty))]
    exact blockFault_defect s.toMember rfl

theorem Native.supported_of_body {s : Scope} {code : Code} (lowered : body s = .ok code) :
    Supported (generator s) s.slots s.buffer.marked.toList := by
  obtain ⟨_, run, _⟩ := Except.bind_ok lowered
  exact (generator_tracks s).supported run

theorem Native.body_ok_iff {s : Scope} :
    (∃ code, body s = .ok code) ↔ Supported (generator s) s.slots s.buffer.marked.toList ∧
      Nested (s.buffer.marked.toList.filterMap s.buffer.marker?) := by
  constructor
  · rintro ⟨code, lowered⟩
    have supported := supported_of_body lowered
    exact ⟨supported, (body_decides supported).done_iff.1 ⟨code, lowered⟩⟩
  · rintro ⟨supported, nested⟩
    exact (body_decides supported).done nested

/-! ### The markers of a function -/

def Buffer.markers (b : Buffer) : List BranchKind := b.atoms.toList.filterMap Atom.marker?

theorem Buffer.map_selected {α : Type} (b : Buffer) (select : Atom → Option α) :
    (b.selected select).map Prod.snd = b.atoms.toList.filterMap select := by
  have each : (fun x : Index × Atom => ((select x.2).map (x.1, ·)).map Prod.snd) = fun x => select x.2 := by
    funext x
    simp [Function.comp_def]
  have atoms : b.indexed.map Prod.snd = b.atoms.toList := by
    simp [indexed, Function.comp_def]
  unfold selected
  rw [List.map_filterMap, each, ← atoms, List.filterMap_map]
  rfl

theorem Buffer.filterMap_marked {α : Type} {b : Buffer} {select : Atom → Option α}
    (marked : ∀ (n : Nat) (a : Atom), b.atoms[n]? = some a → (select a).isSome → .ref n ∈ b.marked) :
    b.marked.toList.filterMap (fun i => (b.get? i).bind select) = b.atoms.toList.filterMap select := by
  have pairs : b.marked.toList.filterMap (fun i => ((b.get? i).bind select).map (i, ·)) =
      b.selected select := by
    refine eq_of_ascending Prod.fst ?_ (b.selected_ascending select) ?_
    · rw [List.pairwise_filterMap]
      refine Std.ExtTreeSet.ordered_toList.imp ?_
      intro i j below p first q second
      obtain ⟨_, _, rfl⟩ := Option.map_eq_some_iff.1 first
      obtain ⟨_, _, rfl⟩ := Option.map_eq_some_iff.1 second
      exact Index.compare_eq_lt.1 below
    · rintro ⟨i, x⟩
      rw [mem_selected, List.mem_filterMap]
      constructor
      · rintro ⟨j, _, chosen⟩
        obtain ⟨_, chosen, same⟩ := Option.map_eq_some_iff.1 chosen
        cases same
        obtain ⟨a, found, answer⟩ := Option.bind_eq_some_iff.1 chosen
        cases i with
        | null => cases found
        | ref n => exact ⟨n, a, rfl, found, answer⟩
      · rintro ⟨n, a, rfl, found, answer⟩
        have live := marked n a found (by rw [answer]; rfl)
        exact ⟨.ref n, Std.ExtTreeSet.mem_toList.2 live, by simp [found, answer]⟩
  have each : (fun i => (((b.get? i).bind select).map (i, ·)).map Prod.snd) =
      fun i => (b.get? i).bind select := by
    funext i
    simp [Function.comp_def]
  rw [← b.map_selected, ← pairs, List.map_filterMap, each]

theorem Function.marked_markers {name : String} {id : FunctionId} {b : Buffer} {f : Function}
    (built : build name id b = .ok f) :
    f.buffer.marked.toList.filterMap f.buffer.marker? = b.markers := by
  obtain ⟨prepared, _, _, atoms⟩ := prepared_of_prepare (build_ok_iff.1 built)
  unfold Buffer.markers
  rw [← atoms]
  refine Buffer.filterMap_marked fun n a found marks => ?_
  refine prepared.marked_of_root found fun _ => Liveness.isRoot_of_effect ?_
  cases a with
  | branch => rfl
  | _ => cases marks

/-! ### Agreement -/

namespace Blocks

/-- Of a function whose conditions and values can be generated, native code takes exactly what the
grammar has, and text what is balanced. Text refuses nothing that native code takes, and the two
agree unless the markers are balanced without being nested. -/
theorem generators_agree_iff {name : String} {id : FunctionId} {b : Buffer} {m : Member}
    (built : Function.build name id b = .ok m.function) {d : Dialect} {slots : IndexMap (List Prim)}
    (printable : Supported (Statement.generator { toMember := m, dialect := d }) ∅ m.buffer.marked.toList)
    (lowerable : Supported (Native.generator { toMember := m, slots }) slots m.buffer.marked.toList) :
    let text := Statement.body { toMember := m, dialect := d }
    let native := Native.body { toMember := m, slots }
    Decides text (Balanced b.markers) ∧ Decides native (Nested b.markers) ∧
      (BlockFault text → BlockFault native) ∧
      ((BlockFault text ↔ BlockFault native) ↔ (Balanced b.markers → Nested b.markers)) := by
  intro text native
  have markers := Function.marked_markers built
  have printed : Decides text (Balanced b.markers) := markers ▸ Statement.body_decides printable
  have lowered : Decides native (Nested b.markers) := markers ▸ Native.body_decides lowerable
  refine ⟨printed, lowered, ?_, ?_⟩
  · rw [printed.fault_iff, lowered.fault_iff]
    exact fun unbalanced nested => unbalanced nested.balanced
  · rw [printed.fault_iff, lowered.fault_iff, not_iff_not]
    exact ⟨fun agree => agree.1, fun nests => ⟨nests, Nested.balanced⟩⟩

def alone (f : Function) : Member := { unit := { functions := [f] }, function := f }

/-- A loop that is left or continued, as its condition says. -/
def leaving : Buffer :=
  .ofContent [.type .boolean .null .null, .qualifier (.ref 0) .parameter 0, .branch .whileLoop (.ref 1) .null,
    .branch .ifThen (.ref 1) .null, .branch .leave .null .null, .branch .otherwise .null .null,
    .branch .next .null .null, .branch .close .null .null, .branch .close .null .null, .ret .null] [] []

/-- The slot of its parameter. -/
def leavingSlots : IndexMap (List Prim) := Std.ExtTreeMap.empty.insert (.ref 1) [.boolean]

/-- Both generators go through it, so they agree. -/
theorem leaving_agrees :
    ∃ f, Function.build "f" 0 leaving = .ok f ∧ Nested leaving.markers ∧
      let text : Statement.Scope := { toMember := alone f, dialect := Glsl.dialect }
      let native : Native.Scope := { toMember := alone f, slots := leavingSlots }
      Supported (Statement.generator text) ∅ f.buffer.marked.toList ∧
        Supported (Native.generator native) native.slots f.buffer.marked.toList ∧
        (BlockFault (Statement.body text) ↔ BlockFault (Native.body native)) := by
  have passes : ((Function.build "f" 0 leaving).toOption.any fun f =>
      (Statement.body { toMember := alone f, dialect := Glsl.dialect }).toOption.isSome &&
        (Native.body { toMember := alone f, slots := leavingSlots }).toOption.isSome) = true := by
    decide +kernel
  have nested : Nested leaving.markers := by decide +kernel
  obtain ⟨f, built, passes⟩ := (Option.any_eq_true _ _).1 passes
  rw [Except.toOption_eq_some_iff] at built
  simp only [Bool.and_eq_true, Option.isSome_iff_exists, Except.toOption_eq_some_iff] at passes
  obtain ⟨⟨_, printed⟩, _, lowered⟩ := passes
  have printable := Statement.supported_of_body printed
  have lowerable := Native.supported_of_body lowered
  have agree := generators_agree_iff (m := alone f) built printable lowerable
  exact ⟨f, built, nested, printable, lowerable, agree.2.2.2.2 fun _ => nested⟩

/-- A loop is left where there is none. -/
def stray : Buffer := .ofContent [.branch .leave .null .null, .ret .null] [] []

/-- Text has no objection, native code has. -/
theorem stray_disagrees :
    ∃ f, Function.build "f" 0 stray = .ok f ∧ ¬ Nested stray.markers ∧
      let text : Statement.Scope := { toMember := alone f, dialect := Glsl.dialect }
      let native : Native.Scope := { toMember := alone f }
      Supported (Statement.generator text) ∅ f.buffer.marked.toList ∧
        Supported (Native.generator native) native.slots f.buffer.marked.toList ∧
        ¬ BlockFault (Statement.body text) ∧ BlockFault (Native.body native) := by
  have passes : ((Function.build "f" 0 stray).toOption.any fun f =>
      (Statement.body { toMember := alone f, dialect := Glsl.dialect }).toOption.isSome &&
        f.buffer.marked.toList == [.ref 0, .ref 1]) = true := by decide +kernel
  have unnested : ¬ Nested stray.markers := by decide +kernel
  obtain ⟨f, built, passes⟩ := (Option.any_eq_true _ _).1 passes
  rw [Except.toOption_eq_some_iff] at built
  simp only [Bool.and_eq_true, Option.isSome_iff_exists, Except.toOption_eq_some_iff, beq_iff_eq] at passes
  obtain ⟨⟨_, printed⟩, marked⟩ := passes
  have atoms : f.buffer.atoms = #[.branch .leave .null .null, .ret .null] :=
    (Function.prepared_of_prepare (Function.build_ok_iff.1 built)).2.2.2
  have first : f.buffer.get? (.ref 0) = some (.branch .leave .null .null) := by
    rw [Buffer.get?_ref, atoms]
    rfl
  have second : f.buffer.get? (.ref 1) = some (.ret .null) := by
    rw [Buffer.get?_ref, atoms]
    rfl
  have lowerable : Supported (Native.generator { toMember := alone f }) ∅ f.buffer.marked.toList := by
    have returns : Member.atom (alone f) (.ref 1) = .ok (.ret .null) := Member.atom_ok_iff.2 second
    have done : ∃ st, Native.statement { toMember := alone f } {} (.ref 1) = .ok st := by
      simp only [Native.statement, returns]
      exact ⟨_, rfl⟩
    obtain ⟨st, done⟩ := done
    rw [marked]
    have leaves : f.buffer.marker? (.ref 0) = some .leave := Option.bind_eq_some_iff.2 ⟨_, first, rfl⟩
    refine .marker leaves ?_ (.plain ?_ done (.nil _))
    · intro kind cond target present asks
      cases first.symm.trans present
      cases asks
    · change f.buffer.marker? (.ref 1) = none
      rw [Buffer.marker?, second]
      rfl
  refine ⟨f, built, unnested, Statement.supported_of_body printed, lowerable, ?_, ?_⟩
  · exact fun fault => fault.ne_ok _ printed
  · have lowered := Native.body_decides lowerable
    have markers := Function.marked_markers built
    exact lowered.fault (markers ▸ unnested)

end Blocks

end ShaderForge
