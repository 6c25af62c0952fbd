import ShaderForge.Proofs.Function.Fold
import ShaderForge.Proofs.Linkage.Reached
import ShaderForge.Proofs.Stream.RoundTrip
import ShaderForge.Proofs.Typing.Names

/-!
Preparing a prepared function. Types, marks and signature are found again; names may still
travel. A name that preparation gives to a struct is not passed on in the same round, so the
first field of that struct, when it is a struct too, gets the name in the next one.
-/

namespace ShaderForge

open Buffer

namespace Function

/-- The same function, apart from names that were added. -/
structure Renamed (f g : Function) : Prop where
  name : g.name = f.name
  id : g.id = f.id
  atoms : g.buffer.atoms = f.buffer.atoms
  synthesized : g.buffer.synthesized = f.buffer.synthesized
  results : f.buffer.size ≠ 0 → g.buffer.types = f.buffer.types ∧ g.buffer.marked = f.buffer.marked
  args : g.args = f.args
  returns : g.returns = f.returns
  names : ∀ i d, f.buffer.decoration? i = some d → g.buffer.decoration? i = some d

theorem Renamed.eq_of_names {f g : Function} (renamed : f.Renamed g) (again : Succeeds prepare f () g)
    (names : g.buffer.decorations = f.buffer.decorations) : g = f := by
  obtain ⟨name, id, atoms, synthesized, results, args, returns, _⟩ := renamed
  by_cases empty : f.buffer.size = 0
  · have unsigned := (prepare_empty_succeeds empty again).2
    rw [unsigned] at args returns ⊢
    cases f
    cases args
    cases returns
    rfl
  · obtain ⟨types, marked⟩ := results empty
    obtain ⟨_, _, ⟨_, _, _, _, _⟩, _, _⟩ := f
    obtain ⟨_, _, ⟨_, _, _, _, _⟩, _, _⟩ := g
    cases name
    cases id
    cases atoms
    cases synthesized
    cases types
    cases marked
    cases args
    cases returns
    cases names
    rfl

section

variable {raw f g : Function}

theorem prepare_congr {f' : Function} (h : Succeeds prepare f () g) (name : f'.name = f.name)
    (id : f'.id = f.id) (buffer : f'.buffer = f.buffer) : Succeeds prepare f' () g := by
  obtain ⟨_, _, b, returns, args⟩ := f
  obtain ⟨_, _, _, returns', args'⟩ := f'
  cases name
  cases id
  cases buffer
  by_cases empty : b.size = 0
  · obtain ⟨valid, rfl⟩ := prepare_empty_succeeds empty h
    exact prepare_of_empty empty valid
  · have steps := (prepare_succeeds (f := ⟨_, _, b, returns, args⟩) empty).1 h
    exact (prepare_succeeds (f := ⟨_, _, b, returns', args'⟩) empty).2 steps

/-- The content of a prepared function can be prepared again; nothing but names can change, and
none does exactly when all names have been passed on. -/
theorem prepare_content (made : Succeeds prepare raw () f) (f' : Function) (name : f'.name = f.name)
    (id : f'.id = f.id) (atoms : f'.buffer.atoms = f.buffer.atoms)
    (synthesized : f'.buffer.synthesized = f.buffer.synthesized)
    (names : f'.buffer.decorations = f.buffer.decorations) :
    ∃ g, Succeeds prepare f' () g ∧ f.Renamed g ∧
      (g.buffer.decorations = f.buffer.decorations ↔ f.buffer.NamesSettled) := by
  obtain ⟨prepared, sameId, sameName, sameAtoms⟩ := prepared_of_prepare made
  have valid := valid_of_prepare made
  have valid' : f'.buffer.validate = .ok () := validate_congr valid atoms synthesized names
  have size' : f'.buffer.size = f.buffer.size := congrArg Array.size atoms
  have rawSize : f.buffer.size = raw.buffer.size := congrArg Array.size sameAtoms
  by_cases empty : f.buffer.size = 0
  · have unsigned := (prepare_empty_succeeds (rawSize.symm.trans empty) made).2
    refine ⟨_, prepare_of_empty (size'.trans empty) valid', ⟨name, id, atoms, synthesized,
      fun present => (present empty).elim, by rw [unsigned], by rw [unsigned], ?_⟩, ?_⟩
    · intro i d named
      change f'.buffer.decorations[i]? = some d
      rw [names]
      exact named
    · refine iff_of_true names fun n ty head named _ _ => ?_
      obtain ⟨a, found⟩ := (validate_ok_iff.1 valid).2 _ (Or.inr named)
      have inside : n < f.buffer.size := (Array.getElem?_eq_some_iff.1 found).1
      omega
  · have nonempty : raw.buffer.size ≠ 0 := rawSize ▸ empty
    obtain ⟨rawValid, types, hints, marked, args, returns, analyzed, _, _, _, made'⟩ :=
      (prepare_succeeds nonempty).1 made
    have captured : f.buffer.synthesized = raw.buffer.synthesized := by rw [made']; rfl
    have folds : Folds raw.buffer f'.buffer fun i => i :=
      (Folds.refl (backward_of_validate rawValid)).congr rfl rfl (atoms.trans sameAtoms)
        (synthesized.trans captured)
    have solo : ∀ i : Index, Solo (fun i => i) i := fun _ _ same => same
    obtain ⟨g, again, goes⟩ := prepare_fold made nonempty (fun absent => (empty (size' ▸ absent)).elim)
      valid' folds (fun _ _ _ _ => rfl) (fun n k _ below _ _ => Index.ref_lt_ref.2 below)
      (fun _ _ _ _ _ => solo _) fun _ _ _ => solo _
    have again' : Succeeds prepare f' () g :=
      prepare_congr again (name.trans sameName) (id.trans sameId) rfl
    have typed := prepared.typed empty
    obtain ⟨_, types', hints', marked', args', returns', analyzed', _, _, _, shape⟩ :=
      (prepare_succeeds (by rw [size']; exact empty)).1 again'
    obtain ⟨hints'', found⟩ := Typing.analyze_complete typed prepared.backward (c := f'.buffer) atoms
    rw [analyzed', Except.ok.injEq, Prod.mk.injEq] at found
    obtain ⟨rfl, rfl⟩ := found
    refine ⟨g, again', ⟨goes.name, goes.id, ?_, ?_, fun _ => ⟨?_, ?_⟩, ?_, ?_, ?_⟩, ?_⟩
    · rw [shape]; exact atoms
    · rw [shape]; exact synthesized
    · rw [shape]; rfl
    · apply Std.ExtTreeSet.ext_mem
      intro i
      rw [goes.marked]
      simp
    · have whole : Ty.rename (fun i => i) = fun t => t := funext rename_self
      rw [goes.args, whole, List.map_id']
    · rw [goes.returns, rename_self]
    · intro i d named
      rw [shape]
      refine getElem?_foldl_insertIfNew ?_
      rw [names]
      exact named
    · have settled := withAnalysis_names_iff typed prepared.backward names analyzed'
      rw [shape]
      rw [names] at settled
      exact settled

/-- Every struct that got its name on the way from `raw` to `f`, and whose first field is a
struct, has that one named too. -/
def LeadingNamed (raw f : Function) : Prop :=
  ∀ head item inner next, head ∉ raw.buffer.decorations → head ∈ f.buffer.decorations →
    f.buffer.get? head = some (.type item inner next) → inner.isNull = false →
    inner ∈ f.buffer.decorations

/-- Names that the function had have been passed on; those that preparation gave stand on
structs, and wait exactly where a struct begins with another. -/
theorem namesSettled_iff (made : Succeeds prepare raw () f) :
    f.buffer.NamesSettled ↔ LeadingNamed raw f := by
  obtain ⟨prepared, _, _, sameAtoms⟩ := prepared_of_prepare made
  have size : f.buffer.size = raw.buffer.size := congrArg Array.size sameAtoms
  have valid := valid_of_prepare made
  have present : ∀ n, .ref n ∈ f.buffer.decorations → f.buffer.size ≠ 0 := by
    intro n named
    obtain ⟨a, found⟩ := (validate_ok_iff.1 valid).2 _ (Or.inr named)
    have inside : n < f.buffer.size := (Array.getElem?_eq_some_iff.1 found).1
    omega
  constructor
  · intro settled head item inner next _ named found leads
    cases head with
    | null => cases found
    | ref n =>
      obtain ⟨ty, known, carried⟩ := (prepared.typed (present n named)).struct_of_node found
      rw [leads, if_neg (by simp)] at carried
      exact settled n ty inner named known carried
  · intro leading n ty head named known carried
    have nonempty := present n named
    have typed := prepared.typed nonempty
    obtain ⟨_, types, hints, marked, args, returns, analyzed, _, _, _, shape⟩ :=
      (prepare_succeeds (size ▸ nonempty)).1 made
    have names : ∀ i, i ∈ f.buffer.decorations ↔ i ∈ raw.buffer.decorations ∨ i ∈ hints := by
      intro i
      rw [shape]
      exact mem_withAnalysis types
    have table : ∀ m, f.buffer.table (.ref m) = types[m]? := by
      intro m
      rw [shape]
      simp [withAnalysis]
    have everything : f.buffer.UseClosed fun _ => True := fun _ _ _ _ _ _ => trivial
    by_cases old : .ref n ∈ raw.buffer.decorations
    · rw [names]
      by_cases before : head ∈ raw.buffer.decorations
      · exact Or.inl before
      · obtain ⟨k, rfl, below, _⟩ :=
          typed.struct_head prepared.backward everything n trivial known carried
        have other : Index.ref k ≠ .ref n := fun clash => by
          cases clash
          omega
        rw [table] at known
        exact Or.inr ((Typing.mem_hints_iff analyzed).2 ⟨before, n, ty, old, known, carried, other⟩)
    · have passed : .ref n ∈ hints := ((names _).1 named).resolve_left old
      obtain ⟨_, m, outer, _, outerKnown, outerCarried, _⟩ := (Typing.mem_hints_iff analyzed).1 passed
      rw [← table] at outerKnown
      -- the named atom is the first link of a chain
      obtain ⟨fields, chain⟩ := typed.struct_chain prepared.backward outerKnown outerCarried
      obtain ⟨run, some⟩ := fieldChain_ok_iff.1 chain
      cases run with
      | closed => exact (some rfl).elim
      | @link _ k item down rest node =>
        obtain ⟨ty', known', carried'⟩ := typed.struct_of_node node
        rw [known, Option.some.injEq] at known'
        subst known'
        rw [carried] at carried'
        by_cases absent : down.isNull = true
        · rw [if_pos absent] at carried'
          cases carried'
        · rw [if_neg absent, Option.some.injEq] at carried'
          subst carried'
          exact leading (.ref n) item head (.ref k) old named node (by simpa using absent)

end

theorem functions_of_addOne {r : Registry} {f g : Function} {u v : Linkage} {needed : List Function}
    (again : Succeeds prepare f () g) (reached : Linkage.Reached r u)
    (added : Succeeds (Linkage.addOne r f) u needed v) : v.functions = u.functions ++ [g] := by
  obtain ⟨g', callees, w, preparing, scanning, _, rfl⟩ := Linkage.addOne_succeeds.1 added
  have same : g' = g := (Prod.mk.inj (preparing.symm.trans again)).2
  subst same
  obtain ⟨_, x, grown, _, _, frame⟩ := Linkage.scan_succeeds (prepared_of_prepare preparing).1
    reached.coherent.layered scanning
  exact congrArg (· ++ [g']) (frame.functions.trans grown.functions)

theorem readFunctions_write {fs : List Function} (few : fs.length < 2 ^ 32)
    (each : ∀ f ∈ fs, (∃ raw, Succeeds prepare raw () f) ∧ f.name.utf8ByteSize < 2 ^ 32 ∧ f.buffer.Fits) :
    ∃ gs, Stream.readFunctions (Stream.write fs) = .ok gs ∧ List.Forall₂ (fun f g => f.Renamed g ∧
      (g.buffer.decorations = f.buffer.decorations ↔ f.buffer.NamesSettled)) fs gs := by
  have sound : ∀ f ∈ fs, (Stream.Entry.ofFunction f).Sound := by
    intro f member
    obtain ⟨⟨raw, made⟩, short, fits⟩ := each f member
    exact ⟨short, fits.invalidate, rfl, validate_congr (valid_of_prepare made) rfl rfl rfl⟩
  have built : ∀ f ∈ fs, ∃ g, build f.name f.id f.buffer.invalidate = .ok g ∧ f.Renamed g ∧
      (g.buffer.decorations = f.buffer.decorations ↔ f.buffer.NamesSettled) := by
    intro f member
    obtain ⟨raw, made⟩ := (each f member).1
    obtain ⟨g, again, renamed, names⟩ := prepare_content made
      { name := f.name, id := f.id, buffer := f.buffer.invalidate } rfl rfl rfl rfl rfl
    exact ⟨g, build_ok_iff.2 again, renamed, names⟩
  unfold Stream.readFunctions
  rw [Stream.readEntries_write few sound, Except.ok_bind, List.mapM_map]
  exact Except.exists_mapM built

/-- Preparing a prepared function again always succeeds and keeps all but names. It changes nothing
exactly when no struct that was named on the way begins with an unnamed one; then linking holds the
function as it is, and a stream of such functions gives them back. -/
theorem prepare_again (fs : List Function) :
    (∀ f ∈ fs, ∀ raw, Succeeds prepare raw () f → ∃ g, Succeeds prepare f () g ∧ f.Renamed g ∧
      (g = f ↔ f.buffer.NamesSettled) ∧ (f.buffer.NamesSettled ↔ LeadingNamed raw f) ∧
      ∀ r u needed v, Linkage.Reached r u → Succeeds (Linkage.addOne r f) u needed v →
        v.functions = u.functions ++ [g]) ∧
    (fs.length < 2 ^ 32 →
      (∀ f ∈ fs, (∃ raw, Succeeds prepare raw () f) ∧ f.name.utf8ByteSize < 2 ^ 32 ∧ f.buffer.Fits) →
      ∃ gs, Stream.readFunctions (Stream.write fs) = .ok gs ∧ List.Forall₂ (fun f g => f.Renamed g ∧
        (g.buffer.decorations = f.buffer.decorations ↔ f.buffer.NamesSettled)) fs gs) := by
  refine ⟨fun f _ raw made => ?_, readFunctions_write⟩
  obtain ⟨g, again, renamed, names⟩ := prepare_content made f rfl rfl rfl rfl rfl
  refine ⟨g, again, renamed, ?_, namesSettled_iff made, fun r u needed v reached added =>
    functions_of_addOne again reached added⟩
  rw [← names]
  constructor
  · intro same
    rw [same]
  · exact renamed.eq_of_names again

/-! ### Two structs -/

/-- A function that passes a check before and after it is prepared again. -/
theorem exists_prepared (b : Buffer) (check : Function → Function → Bool)
    (passes : ((build "f" 0 b).toOption.any fun f =>
      (build f.name f.id f.buffer).toOption.any fun g => check f g) = true) :
    ∃ f g, build "f" 0 b = .ok f ∧ Succeeds prepare f () g ∧ check f g = true := by
  obtain ⟨f, built, passes⟩ := (Option.any_eq_true _ _).1 passes
  obtain ⟨g, again, passes⟩ := (Option.any_eq_true _ _).1 passes
  rw [Except.toOption_eq_some_iff] at built again
  exact ⟨f, g, built, prepare_congr (build_ok_iff.1 again) rfl rfl rfl, passes⟩

/-- A named parameter that holds a number and then a struct. -/
def trailingStruct : Buffer :=
  .ofContent [.type .nil .null .null, .type .i32 .null (.ref 0), .type .nil (.ref 1) (.ref 0),
    .type .f32 .null (.ref 2), .type .nil (.ref 3) .null, .qualifier (.ref 4) .parameter 0,
    .ret (.ref 5)] [] [(.ref 5, { name := "S" })]

theorem trailingStruct_again :
    ∃ f, build "f" 0 trailingStruct = .ok f ∧ f.buffer.decorations.keys = [.ref 3, .ref 5] ∧
      Succeeds prepare f () f ∧ ∃ g, Stream.readFunctions (Stream.write [f]) = .ok [g] ∧
        g.buffer.decorations = f.buffer.decorations := by
  obtain ⟨f, _, built, _, holds⟩ := exists_prepared trailingStruct (fun f _ =>
    decide (f.buffer.decorations.keys = [.ref 3, .ref 5] ∧ f.buffer.NamesSettled ∧
      f.name.utf8ByteSize < 2 ^ 32 ∧ f.buffer.Fits)) (by decide +kernel)
  obtain ⟨keys, settled, short, fits⟩ := of_decide_eq_true holds
  have made := build_ok_iff.1 built
  obtain ⟨each, copied⟩ := prepare_again [f]
  obtain ⟨g, again, _, same, _⟩ := each f List.mem_cons_self _ made
  obtain ⟨gs, read, copies⟩ := copied (by simp) (by
    intro f' member
    cases List.mem_singleton.1 member
    exact ⟨⟨_, made⟩, short, fits⟩)
  obtain ⟨h, _, ⟨_, names⟩, none, rfl⟩ := List.forall₂_cons_left_iff.1 copies
  cases List.forall₂_nil_left_iff.1 none
  exact ⟨f, built, keys, same.2 settled ▸ again, h, read, names.2 settled⟩

/-- A named parameter that holds a struct which begins with another. -/
def leadingStruct : Buffer :=
  .ofContent [.type .nil .null .null, .type .i32 .null (.ref 0), .type .nil (.ref 1) (.ref 0),
    .type .nil (.ref 2) .null, .qualifier (.ref 3) .parameter 0, .ret (.ref 4)] []
    [(.ref 4, { name := "S" })]

/-- The inner struct gets the name only when the function is prepared again. -/
theorem leadingStruct_not_again :
    ∃ f g, build "f" 0 leadingStruct = .ok f ∧ Succeeds prepare f () g ∧
      g.buffer.decorations ≠ f.buffer.decorations := by
  obtain ⟨f, g, built, again, holds⟩ := exists_prepared leadingStruct (fun f g =>
    decide (f.buffer.decorations.keys = [.ref 2, .ref 4] ∧
      g.buffer.decorations.keys = [.ref 1, .ref 2, .ref 4])) (by decide +kernel)
  obtain ⟨before, after⟩ := of_decide_eq_true holds
  refine ⟨f, g, built, again, fun same => ?_⟩
  rw [same, before] at after
  cases after

end Function

end ShaderForge
