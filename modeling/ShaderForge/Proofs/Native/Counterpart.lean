import ShaderForge.Native.Lowering
import ShaderForge.Proofs.Function.Signature
import ShaderForge.Proofs.Native.Scalars

/-!
A function of one unit and its counterpart in another. What a generator can see goes over with
its types, and the layouts of both functions are the same.
-/

namespace ShaderForge

open Buffer

namespace Function

/-- A type of some visible atom, or one that carries no struct. -/
def Carries (f : Function) (ty : Ty) : Prop :=
  ty.struct? = none ∨
    ∃ i ∈ Linkage.visibleAtoms f.buffer, ∃ own, f.buffer.table i = some own ∧ own.bare = ty.bare

theorem agreedType_type {name : String} {b : Buffer} {items : List (Index × Index)}
    {known : Option Ty} {ty : Ty} (h : agreedType name b known items = .ok (some ty)) :
    known = some ty ∨ ∃ p ∈ items, ∃ own, b.typeOf p.2 = .ok own ∧ own.bare = ty := by
  induction items generalizing known with
  | nil => cases h; exact Or.inl rfl
  | cons p rest ih =>
    obtain ⟨i, value⟩ := p
    unfold agreedType at h
    obtain ⟨own, answer, h⟩ := Except.bind_ok h
    have later : ∀ {known}, agreedType name b known rest = .ok (some ty) →
        known = some ty ∨ ∃ p ∈ (i, value) :: rest, ∃ own, b.typeOf p.2 = .ok own ∧ own.bare = ty := by
      intro known h
      rcases ih h with same | ⟨p, inside, found⟩
      · exact Or.inl same
      · exact Or.inr ⟨p, List.mem_cons_of_mem _ inside, found⟩
    cases known with
    | none =>
      rcases later h with same | found
      · exact Or.inr ⟨(i, value), List.mem_cons_self, own, answer, Option.some.inj same⟩
      · exact Or.inr found
    | some previous =>
      simp only at h
      split at h
      · cases h
      · exact later h

theorem Prepared.parameters_shown {f : Function} (prepared : f.Prepared) :
    ∀ p ∈ f.parameters, p.1 ∈ Linkage.visibleAtoms f.buffer := by
  rintro ⟨i, position⟩ member
  obtain ⟨n, a, rfl, found, chosen⟩ := mem_parametersOf.1 member
  obtain ⟨underlying, number, rfl, _⟩ := position?_eq_some chosen
  exact Linkage.mem_visibleAtoms_of_marked
    (prepared.marked_of_root found fun _ => Liveness.isRoot_parameter)

theorem Prepared.carries {f : Function} (prepared : f.Prepared) :
    (∀ ty ∈ f.args, f.Carries ty) ∧ f.Carries f.returns := by
  obtain ⟨raw, made⟩ := prepared.made
  by_cases nonempty : raw.buffer.size = 0
  · have signed := (prepare_empty_succeeds nonempty made).2
    rw [signed]
    exact ⟨fun ty member => absurd member List.not_mem_nil, Or.inl rfl⟩
  · obtain ⟨_, types, hints, marked, args, returns, analyzed, live, arguments, returned, rfl⟩ :=
      (prepare_succeeds nonempty).1 made
    have marks := Liveness.marks_of_mark live
    have typed : ({ raw.buffer.withAnalysis types hints with marked } : Buffer).Typed :=
      typed_of_analyze analyzed rfl rfl
    have closed := Linkage.visibleAtoms_useClosed prepared.backward
    refine ⟨?_, ?_⟩
    · intro ty member
      obtain ⟨same, each⟩ := List.forall₂_iff_get.1 (argumentTypes_each arguments)
      obtain ⟨k, bound, rfl⟩ := List.getElem_of_mem member
      have answer := each k (same ▸ bound) bound
      exact Or.inr ⟨_, prepared.parameters_shown _ (List.getElem_mem _), _, typed.typeOf_ok_iff.1 answer, rfl⟩
    · cases returns with
      | none => exact Or.inl rfl
      | some ty =>
        rw [returnType_eq] at returned
        rcases agreedType_type returned with same | ⟨⟨i, value⟩, inside, own, answer, bare⟩
        · cases same
        · obtain ⟨n, a, rfl, found, chosen⟩ := mem_selected.1 inside
          cases a with
          | ret value' =>
            cases chosen
            have shown := Linkage.mem_visibleAtoms_of_marked
              (b := { raw.buffer.withAnalysis types hints with marked })
              (marks.of_root found (Liveness.isRoot_of_effect rfl))
            cases value with
            | null =>
              rw [typeOf_null, Except.ok.injEq] at answer
              left
              show ty.struct? = none
              rw [← bare, ← answer]
              rfl
            | ref k =>
              have used : Index.ref k ∈ (Atom.ret (.ref k)).operands :=
                Atom.mem_operands.2 ⟨rfl, Or.inl rfl⟩
              refine Or.inr ⟨.ref k, closed n _ shown found _ used, own,
                typed.typeOf_ok_iff.1 answer, ?_⟩
              show own.bare = ty.bare
              rw [← bare, Ty.bare_bare]
          | _ => cases chosen

end Function

namespace Native

open Linkage Aggregates

/-- A function of a unit and the one it goes over to in another unit. -/
structure Counterpart (u u' : Linkage) (f g : Function) (fold : Index → Index) : Prop where
  folds : f.FoldsTo g fold
  prepared : f.Prepared
  prepared' : g.Prepared
  present : ∀ i ∈ visibleAtoms f.buffer, ∃ a, f.buffer.get? i = some a
  structs : ∀ i ty head, i ∈ visibleAtoms f.buffer → f.buffer.table i = some ty →
    ty.struct? = some head → ∃ n n', u.aggregateIndex f.id head = .ok n ∧
      u'.aggregateIndex g.id (fold head) = .ok n' ∧ SameFields u u' n n' ∧
      scalarsOfData u (.aggregate n) = scalarsOfData u' (.aggregate n')

theorem counterpart_of_coherent {u u' : Linkage} {f g : Function} {fold : Index → Index}
    (coherent : Coherent u) (coherent' : Coherent u') (member : f ∈ u.functions)
    (member' : g ∈ u'.functions) (folds : f.FoldsTo g fold) : Counterpart u u' f g fold := by
  have placed := coherent.placed f member
  have placed' := coherent'.placed g member'
  have present : ∀ i ∈ visibleAtoms f.buffer, ∃ a, f.buffer.get? i = some a := by
    obtain ⟨_, _, _, mapped⟩ := placed
    exact fun i shown => (mapped.entered i shown).present
  refine ⟨folds, placed.prepared, placed'.prepared, present, ?_⟩
  intro i ty head shown found carried
  obtain ⟨a, there⟩ := present i shown
  obtain ⟨k, rfl⟩ : ∃ k, i = .ref k := by
    cases i with
    | null => cases there
    | ref k => exact ⟨k, rfl⟩
  have kept := folds.kept_of_visible shown
  obtain ⟨j, place, image⟩ := folds.folds.atom_at there kept
  have typed := placed.prepared.typed (by
    have := (Array.getElem?_eq_some_iff.1 there).1
    unfold size
    omega)
  have typed' := placed'.prepared.typed (by
    have := (Array.getElem?_eq_some_iff.1 image).1
    unfold size
    omega)
  exact structs_of_placed coherent.layered coherent'.layered placed placed' typed typed'
    (corresponds_of_folds typed placed.prepared.backward folds) kept shown place (place ▸ folds.visible shown) found carried

/-- Types of two units that differ at most in the number of an aggregate. -/
def Kin (ty ty' : LinkedTy) : Prop :=
  ty' = ty ∨ ∃ n n', ty = .data (.aggregate n) ∧ ty' = .data (.aggregate n')

section

variable {u u' : Linkage} {f g : Function} {fold : Index → Index}

theorem scalarsOf_prim (u u' : Linkage) (p : Prim) :
    scalarsOf u (.prim p) = scalarsOf u' (.prim p) := by
  unfold LinkedTy.prim
  split
  · rfl
  · exact dataScalars_prim u u' _ _ p

theorem Counterpart.typeOf (pair : Counterpart u u' f g fold) {i : Index} {ty : Ty}
    (use : i = .null ∨ i ∈ visibleAtoms f.buffer) (h : f.buffer.typeOf i = .ok ty) :
    f.buffer.table i = some ty ∧ g.buffer.typeOf (fold i) = .ok (ty.rename fold) := by
  rcases use with rfl | shown
  · rw [typeOf_null, Except.ok.injEq] at h
    subst h
    rw [pair.folds.folds.null, typeOf_null]
    exact ⟨rfl, rfl⟩
  · obtain ⟨a, there⟩ := pair.present i shown
    cases i with
    | null => cases there
    | ref k =>
      have kept := pair.folds.kept_of_visible shown
      obtain ⟨j, place, image⟩ := pair.folds.folds.atom_at there kept
      have typed := pair.prepared.typed (by
        have := (Array.getElem?_eq_some_iff.1 there).1
        unfold size
        omega)
      have typed' := pair.prepared'.typed (by
        have := (Array.getElem?_eq_some_iff.1 image).1
        unfold size
        omega)
      have found := typed.typeOf_ok_iff.1 h
      exact ⟨found, typed'.typeOf_ok_iff.2 (pair.folds.types _ ty kept found)⟩

theorem resolve_bare (u : Linkage) (id : FunctionId) (ty : Ty) :
    u.resolve id ty.bare = u.resolve id ty := by
  unfold resolve
  rw [Ty.bare_bare]

/-- A type with scalars resolves to one with the same scalars where its struct goes over. -/
theorem resolve_transfers {id id' : FunctionId} {via : Index → Index} {ty : Ty} {linked : LinkedTy} {scalars : List Prim}
    (structs : ∀ head, ty.struct? = some head → ∃ n n', u.aggregateIndex id head = .ok n ∧
      u'.aggregateIndex id' (via head) = .ok n' ∧ scalarsOfData u (.aggregate n) = scalarsOfData u' (.aggregate n'))
    (h : u.resolve id ty = .ok linked) (flat : scalarsOf u linked = .ok scalars) :
    ∃ linked', u'.resolve id' (ty.rename via) = .ok linked' ∧ scalarsOf u' linked' = .ok scalars ∧
      Kin linked linked' := by
  rw [← resolve_bare] at h ⊢
  rw [Ty.bare_rename]
  unfold Linkage.resolve at h ⊢
  rw [Ty.bare_rename]
  rw [Ty.bare_bare] at h ⊢
  cases shape : ty.bare with
  | data d =>
    rw [shape] at h
    cases d with
    | prim p =>
      cases h
      exact ⟨.prim p, rfl, by rw [← flat]; exact scalarsOf_prim u' u p, Or.inl rfl⟩
    | struct head =>
      obtain ⟨n, n', index, index', same⟩ := structs head (by rw [← Ty.struct?_bare, shape]; rfl)
      simp only [resolveData, index, bind, Except.bind, pure, Except.pure, Except.ok.injEq] at h
      subst h
      refine ⟨.data (.aggregate n'), ?_, ?_, Or.inr ⟨n, n', rfl, rfl⟩⟩
      · simp only [Ty.rename, Data.rename, resolveData, index', bind, Except.bind, pure, Except.pure]
      · rw [← flat]
        exact same.symm
  | nil =>
    rw [shape] at h
    cases h
    exact ⟨.nil, rfl, flat, Or.inl rfl⟩
  | field base next => exact (Ty.bare_ne_field ty base next shape).elim
  | array base size =>
    rw [shape] at h
    obtain ⟨d, _, h⟩ := Except.bind_ok h
    cases h
    cases flat
  | reference base id =>
    rw [shape] at h
    obtain ⟨d, _, h⟩ := Except.bind_ok h
    cases h
    cases flat
  | image texel dim | sampler texel dim =>
    rw [shape] at h
    cases h
    cases flat
  | inArg t | outArg t | inOutArg t =>
    rw [shape] at h
    cases h
    exact ⟨.nil, rfl, flat, Or.inl rfl⟩

theorem Counterpart.resolve (pair : Counterpart u u' f g fold) {ty : Ty} {linked : LinkedTy}
    {scalars : List Prim} (carries : f.Carries ty) (h : u.resolve f.id ty = .ok linked)
    (flat : scalarsOf u linked = .ok scalars) :
    ∃ linked', u'.resolve g.id (ty.rename fold) = .ok linked' ∧ scalarsOf u' linked' = .ok scalars ∧
      Kin linked linked' := by
  refine resolve_transfers (fun head carried => ?_) h flat
  rcases carries with plain | ⟨i, shown, own, found, same⟩
  · rw [carried] at plain
    cases plain
  · obtain ⟨n, n', index, index', _, scalars⟩ := pair.structs i own head shown found
      (by rw [← Ty.struct?_bare, same, Ty.struct?_bare, carried])
    exact ⟨n, n', index, index', scalars⟩

/-! ### Layouts -/

/-- Where the types of the signature resolve alike, the layouts are the same. -/
structure Resembles (u u' : Linkage) (f g : Function) (via : Index → Index) : Prop where
  args : g.args = f.args.map (Ty.rename via)
  returns : g.returns = f.returns.rename via
  resolves : ∀ ty, ty ∈ f.args ∨ ty = f.returns → ∀ linked scalars, u.resolve f.id ty = .ok linked →
    scalarsOf u linked = .ok scalars →
      ∃ linked', u'.resolve g.id (ty.rename via) = .ok linked' ∧ scalarsOf u' linked' = .ok scalars

namespace Resembles

variable {via : Index → Index} (resembles : Resembles u u' f g via) {layout : Layout}

include resembles

theorem argumentLayout (h : argumentLayout u f = .ok layout) : Native.argumentLayout u' g = .ok layout := by
  have all : ∀ {types : List Ty} {linked : List LinkedTy} {scalars : List (List Prim)}, (∀ ty ∈ types, ty ∈ f.args) →
      types.mapM (fun ty => TargetFault.ofLink (u.resolve f.id ty)) = .ok linked →
      linked.mapM (scalarsOf u) = .ok scalars →
      ∃ linked', (types.map (Ty.rename via)).mapM (fun ty => TargetFault.ofLink (u'.resolve g.id ty)) = .ok linked' ∧
        linked'.mapM (scalarsOf u') = .ok scalars := by
    intro types
    induction types with
    | nil =>
      intro linked scalars _ h flat
      cases h
      cases flat
      exact ⟨[], rfl, rfl⟩
    | cons ty rest ih =>
      intro linked scalars inside h flat
      rw [List.mapM_cons] at h
      obtain ⟨first, resolved, h⟩ := Except.bind_ok h
      obtain ⟨later, others, h⟩ := Except.bind_ok h
      cases h
      rw [List.mapM_cons] at flat
      obtain ⟨own, here, flat⟩ := Except.bind_ok flat
      obtain ⟨more, there, flat⟩ := Except.bind_ok flat
      cases flat
      obtain ⟨first', resolved', here'⟩ := resembles.resolves ty (Or.inl (inside ty List.mem_cons_self)) _ _
        (TargetFault.ofLink_ok_iff.1 resolved) here
      obtain ⟨later', others', there'⟩ := ih (fun t member => inside t (List.mem_cons_of_mem _ member)) others there
      refine ⟨first' :: later', ?_, ?_⟩
      · rw [List.map_cons, List.mapM_cons, TargetFault.ofLink_ok_iff.2 resolved', others']
        rfl
      · rw [List.mapM_cons, here', there']
        rfl
  unfold Native.argumentLayout at h ⊢
  obtain ⟨linked, resolved, h⟩ := Except.bind_ok h
  unfold Layout.concat at h
  obtain ⟨scalars, flat, h⟩ := Except.bind_ok h
  obtain ⟨linked', resolved', flat'⟩ := all (fun _ member => member) resolved flat
  rw [resembles.args, resolved']
  show Layout.concat u' linked' = _
  rw [Layout.concat, flat']
  exact h

theorem resultLayout (h : resultLayout u f = .ok layout) : Native.resultLayout u' g = .ok layout := by
  unfold Native.resultLayout at h ⊢
  obtain ⟨linked, resolved, h⟩ := Except.bind_ok h
  unfold Layout.of at h
  obtain ⟨scalars, flat, h⟩ := Except.bind_ok h
  obtain ⟨linked', resolved', flat'⟩ :=
    resembles.resolves f.returns (Or.inr rfl) _ _ (TargetFault.ofLink_ok_iff.1 resolved) flat
  rw [resembles.returns, TargetFault.ofLink_ok_iff.2 resolved']
  show Layout.of u' linked' = _
  rw [Layout.of, flat']
  exact h

end Resembles

theorem Counterpart.resembles (pair : Counterpart u u' f g fold) : Resembles u u' f g fold where
  args := pair.folds.args
  returns := pair.folds.returns
  resolves ty part linked scalars resolved flat := by
    have carries : f.Carries ty := by
      rcases part with member | rfl
      · exact pair.prepared.carries.1 ty member
      · exact pair.prepared.carries.2
    obtain ⟨linked', resolved', flat', _⟩ := pair.resolve carries resolved flat
    exact ⟨linked', resolved', flat'⟩

end

end Native

end ShaderForge
