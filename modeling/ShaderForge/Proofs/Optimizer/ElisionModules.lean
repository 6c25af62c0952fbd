import ShaderForge.Proofs.Function.Preparation
import ShaderForge.Proofs.Linkage.UniqueNames
import ShaderForge.Proofs.Optimizer.Answers
import ShaderForge.Proofs.Optimizer.ElisionBodies
import ShaderForge.Proofs.Optimizer.ElisionNames
import ShaderForge.Proofs.Optimizer.Rewrites
import ShaderForge.Proofs.Optimizer.Thinning
import ShaderForge.Proofs.Source.Extensions

/-!
Units and modules with one function before and after elision. They are linked and compiled alike, and the
module after elision gives every answer that the module before it gives.
-/

namespace ShaderForge.Optimizer

open Buffer Linkage Native

variable {f g : Function} {written : IndexSet}

/-! ### One function -/

theorem shown_replacement (prepared : f.Prepared)
    (replaced : ∀ i, replacement f.buffer i = match selection? f.buffer written i with
      | some (_, item) => replacement f.buffer item
      | none => i) (i : Index) (shown : Shown f i) : Shown f (replacement f.buffer i) := by
  have closed := visibleAtoms_useClosed prepared.backward
  induction place : i.rank using Nat.strongRecOn generalizing i with
  | ind n ih =>
    rw [replaced]
    cases selects : selection? f.buffer written i with
    | none => exact shown
    | some pair =>
      obtain ⟨src, item⟩ := pair
      obtain ⟨early, below⟩ := selection?_lt prepared.backward selects
      exact ih item.rank (place ▸ Nat.lt_trans below early) item (UseClosed.selected closed selects shown).2 rfl

/-- A function of a unit before and after elision. -/
structure ElidesTo (f g : Function) (written : IndexSet) : Prop extends Thins (replacement f.buffer) f g where
  elidable : Elidable f.buffer written
  replaced : ∀ i, replacement f.buffer i = match selection? f.buffer written i with
    | some (_, item) => replacement f.buffer item
    | none => i
  settled : settles f.buffer written {} (statements f) = true
  statements : ∀ n, .ref n ∈ visibleAtoms g.buffer → (f.IsStatement n ↔ g.IsStatement n)

/-- The type of a construction is not a read that elision forwards. -/
theorem ElidesTo.stated (elides : ElidesTo f g written) (prepared : f.Prepared) {n : Nat} {ty args : Index} {mode : Mode}
    (shown : Shown f (.ref n)) (found : f.buffer.atoms[n]? = some (.construct ty args mode)) :
    replacement f.buffer ty = ty := by
  cases ty with
  | null => exact elides.diverting.diverts.null
  | ref k =>
    have marked := (prepared.marked_of_shown shown.visible found).2 k (List.mem_singleton_self _)
    cases selects : selection? f.buffer written (.ref k) with
    | none => rw [elides.replaced, selects]
    | some pair =>
      have unmarked := (elides.elidable.selected _ _ _ selects).1
      rw [Buffer.isMarked, Std.ExtTreeSet.contains_iff_mem.2 marked] at unmarked
      cases unmarked

/-- How a function of one unit stands beside one of another, where functions with one number are elided. -/
def Goes (id : FunctionId) (f g : Function) : Prop :=
  Linkage.Follows f g ∨ f.id = id ∧ ∃ written, ElidesTo f g written

/-- How a function of one registry stands beside one of another, where functions with one number are elided. -/
def Becomes (id : FunctionId) (f f' : Function) : Prop :=
  StandsFor f' f ∨ f.id = id ∧ f'.id = f.id ∧ ∀ g, Succeeds Function.prepare f () g →
    ∃ g', Succeeds Function.prepare f' () g' ∧ ∃ written, ElidesTo g g' written

variable {id : FunctionId}

theorem goes_alike : Alike (Goes id) := by
  rintro f g (⟨fold, goes⟩ | ⟨_, written, elides⟩)
  · exact ⟨goes.id, goes.name⟩
  · exact ⟨elides.id, elides.name⟩

theorem companions_goes : Companions (Becomes id) (Goes id) where
  id f f' becomes := by
    rcases becomes with stands | ⟨_, same, _⟩
    · exact stands.id
    · exact same
  prepare f f' g becomes prepared := by
    rcases becomes with stands | ⟨own, _, made⟩
    · obtain ⟨g', prepared', follows⟩ := companions_follows.prepare f f' g stands prepared
      exact ⟨g', prepared', Or.inl follows⟩
    · obtain ⟨g', prepared', elides⟩ := made g prepared
      exact ⟨g', prepared', Or.inr ⟨(Function.prepared_of_prepare prepared).2.1.trans own, elides⟩⟩
  alike := goes_alike
  scannable g g' goes prepared prepared' scannable := by
    rcases goes with follows | ⟨_, written, elides⟩
    · exact companions_follows.scannable g g' follows prepared prepared' scannable
    · exact elides.toThins.scannable prepared' scannable
  calls g g' callees goes prepared prepared' scannable calls := by
    rcases goes with follows | ⟨_, written, elides⟩
    · exact companions_follows.calls g g' callees follows prepared prepared' scannable calls
    · exact elides.toThins.calls prepared' calls

/-! ### Units -/

theorem Elided.receives {u u' : Linkage} (elided : Elided u u' f g written) (parameters : g.parameters = f.parameters)
    {p : Index × Nat} (member : p ∈ f.parameters) :
    Scope.Receives { unit := u, function := f } { unit := u', function := g } p.1 p.1 := by
  have shown : Shown g p.1 := Or.inr (elided.placed'.prepared.parameters_shown p (parameters ▸ member))
  obtain ⟨underlying, number, qualifier⟩ := mem_parameters.1 (List.mem_map_of_mem member)
  have fixed : replacement f.buffer p.1 = p.1 :=
    (replacement_diverts elided.placed.prepared.backward).fixed_of_get? qualifier rfl
  have typeOf := elided.typeOf p.1
  have kindred := elided.kindred p.1
  rw [fixed] at typeOf kindred
  refine ⟨fun ty known => ⟨fun i => i, ?_⟩, kindred shown⟩
  rw [Function.rename_self]
  exact typeOf ty known

section

variable {u u' : Linkage} (abreast : Abreast (Goes id) u u')

include abreast

theorem Goes.resembles (member : f ∈ u.functions) (member' : g ∈ u'.functions) (goes : Goes id f g) :
    ∃ via, Resembles u u' f g via := by
  rcases goes with ⟨fold, goes⟩ | ⟨_, written, elides⟩
  · exact ⟨fold, (counterpart_of_coherent abreast.coherent abreast.coherent' member member' goes).resembles⟩
  · exact ⟨_, elides.toThins.resembles abreast.coherent.layered abreast.coherent'.layered (abreast.coherent.placed f member)
      (abreast.coherent'.placed g member')⟩

theorem ElidesTo.elided (member : f ∈ u.functions) (member' : g ∈ u'.functions) (elides : ElidesTo f g written) :
    Elided u u' f g written := by
  have placed := abreast.coherent.placed f member
  have placed' := abreast.coherent'.placed g member'
  have layered := abreast.coherent.layered
  have layered' := abreast.coherent'.layered
  have thins := elides.toThins
  exact {
    elidable := elides.elidable
    placed
    placed'
    atoms := thins.diverting.atoms
    replaced := elides.replaced
    stated := fun n ty args mode shown found => elides.stated placed.prepared shown found
    present := thins.diverting.isNull
    typeOf := fun i ty => thins.typeOf_via
    kindred := fun i => thins.kindred layered layered' placed placed'
    fieldRange := fun i field range => thins.fieldRange layered layered' placed placed'
    callees := fun id callee =>
      callees_abreast abreast goes_alike fun f g inside inside' goes => goes.resembles abreast inside inside'
    symbols := abreast.any_symbol? goes_alike
    returns := fun l => (thins.resembles layered layered' placed placed').resultLayout
    statements := elides.statements }

theorem procedure_elided (member : f ∈ u.functions) (member' : g ∈ u'.functions) (trusted : Trusted u f)
    (elides : ElidesTo f g written) {symbol : String} {p : Procedure} (h : procedure u f symbol = .ok p)
    (accepted : p.body.accepted = true) :
    ∃ q, procedure u' g symbol = .ok q ∧ q.body.accepted = true ∧ p.Covers u q := by
  have elided := elides.elided abreast member member'
  obtain ⟨own, rfl⟩ := procedure_names h
  obtain ⟨typed, found, packed, flat, made, returned⟩ := procedure_ok h
  obtain ⟨owned, _⟩ := parameters_scalars (s := { unit := u, function := f }) found flat
  have grounded : (p.entry u f).Grounded :=
    ⟨abreast.coherent.layered, elided.placed, trusted, slots_of_parameters owned (by simp)⟩
  obtain ⟨code', final, made', held, keeps⟩ := body_elided elided (fun j => isSome_entry h) grounded returned elides.settled
    made accepted
  have parameters : g.parameters = f.parameters := elides.diverting.parametersOf
  obtain ⟨typed', found', packed', flat'⟩ := signature_transfer (fun i => i) (by rw [List.map_id', parameters])
    (fun q => elided.receives parameters) found packed flat
  rw [List.map_id'] at flat'
  -- acceptance is a property of the code, so any callees do
  have accepted' : code'.accepted = true := by
    obtain ⟨_, _, kept⟩ := keeps 0 (fun _ _ => .error .trap) (fun _ _ => .error .trap) (fun _ none => nomatch none)
      fun _ _ => .refl _
    exact kept.accepted accepted
  have lowered := procedure_of_steps (p := { p with body := code' }) found' packed' flat' made' (elided.returns _ returned)
    (own.trans elides.id.symm)
  refine ⟨{ p with body := code' }, lowered, accepted', rfl, rfl, rfl, rfl, ?_⟩
  intro callees callees' below sized rounds memory
  obtain ⟨ends, leaves, kept⟩ := keeps rounds callees callees' sized below
  have full := sized_entry h held memory
  have entered : Stands { unit := u, function := f, slots := final } { unit := u', function := g, slots := final } written
      callees [] (bindParameters p.parameters (p.args.load memory) ∅) (bindParameters p.parameters (p.args.load memory) ∅) :=
    ⟨full, fun _ _ => rfl, fun _ _ _ _ _ _ none => absurd none List.not_mem_nil⟩
  exact Procedure.run_tracks (p := p) (q := { p with body := code' }) rfl rfl kept.tracks memory entered

end

/-! ### Modules -/

/-- Where functions with one number are elided, modules give every answer that they gave before. -/
theorem keepsAnswers_of_becomes {r r' : Registry}
    (registered : ∀ id', Option.Rel (Becomes id) (r.get? id') (r'.get? id')) : KeepsAnswers id r r' := by
  intro entries u m linked compiled trusted
  obtain ⟨u', linked', abreast⟩ := companions_goes.link registered linked
  have resembles := fun f g inside inside' (goes : Goes id f g) => goes.resembles abreast inside inside'
  have each : ∀ f g, f ∈ u.functions → g ∈ u'.functions → Goes id f g → ∀ symbol p, procedure u f symbol = .ok p →
      p.body.accepted = true → ∃ q, procedure u' g symbol = .ok q ∧ q.body.accepted = true ∧ p.Covers u q := by
    intro f g member member' goes symbol p lowered accepted
    rcases goes with ⟨fold, folds⟩ | ⟨own, written, elides⟩
    · obtain ⟨q, lowered', accepted', same⟩ :=
        procedure_alias (bridge_of_abreast abreast goes_alike resembles member member' folds) lowered accepted
      exact ⟨q, lowered', accepted', same.covers⟩
    · exact procedure_elided abreast member member' (trusted f member own) elides lowered accepted
  obtain ⟨m', compiled', covers⟩ :=
    compile_paired abreast.toPaired goes_alike (fun _ _ covered => covered.symbol) each compiled
  have unit : Numbered u := ⟨(linked_of_link linked).made.coherent, (linked_of_link linked).records.once⟩
  exact ⟨u', m', linked', compiled', fun _ _ _ _ => run?_covers covers (compile_returns unit compiled)⟩

/-! ### Elision of one function -/

/-- The function after a change shows no other statements than it has. -/
def StatementsStay (f f' : Function) : Prop :=
  ∀ g, Succeeds Function.prepare f' () g → ∀ n, .ref n ∈ visibleAtoms g.buffer → (f.IsStatement n ↔ g.IsStatement n)

/-- The check for a function that is prepared, or cannot be. -/
def keepsStatements (f f' : Function) : Bool :=
  match Function.prepare.apply f' with
  | (.ok _, g) => (visibleAtoms g.buffer).toList.all fun i => (statements f).contains i == (statements g).contains i
  | (.error _, _) => true

theorem statementsStay_of_keepsStatements {f' : Function} (h : keepsStatements f f' = true) : StatementsStay f f' := by
  intro g prepared n shown
  have same : Function.prepare.apply f' = (.ok (), g) := prepared
  unfold keepsStatements at h
  rw [same] at h
  have here := List.all_eq_true.1 h _ (Std.ExtTreeSet.mem_toList.2 shown)
  have own : ∀ f : Function, f.IsStatement n ↔ .ref n ∈ statements f := fun f => by
    rw [mem_statements]
    exact ⟨fun stated => ⟨n, rfl, stated⟩, fun ⟨_, same, stated⟩ => by cases same; exact stated⟩
  rw [own, own, ← List.contains_iff_mem, ← List.contains_iff_mem, eq_of_beq here]

theorem forwards_of_elide {b c : Buffer} {changed : Bool} (typed : b.Typed) (nonempty : b.size ≠ 0)
    (ran : Succeeds elide b changed c) : ∃ forward, forwards b = .ok forward := by
  rw [elide_eq] at ran
  rcases whenTyped_iff.1 ran with ⟨empty, _⟩ | ⟨d, ⟨_, readied⟩, forwarded⟩
  · exact (nonempty (by simpa [Buffer.isEmpty, Buffer.size] using empty)).elim
  · rw [if_pos (typed.isAnalyzed nonempty)] at readied
    subst readied
    unfold forwardReads at forwarded
    obtain ⟨forward, _, asked, _⟩ := Succeeds.bind_iff.1 forwarded
    exact ⟨forward, (Edit.query_succeeds.1 asked).1⟩

theorem elide_of_empty {b c : Buffer} {changed : Bool} (empty : b.size = 0) (ran : Succeeds elide b changed c) : c = b := by
  rw [elide_eq] at ran
  rcases whenTyped_iff.1 ran with ⟨_, _, same⟩ | ⟨_, ⟨present, _⟩, _⟩
  · exact same
  · have none : b.isEmpty = true := by simpa [Buffer.isEmpty, Buffer.size] using empty
    rw [none] at present
    cases present

theorem sameContent_of_prepare {raw : Function} (made : Succeeds Function.prepare raw () f) (nonempty : f.buffer.size ≠ 0)
    (again : Succeeds Function.prepare f () g) : f.buffer.SameContent g.buffer ∧ g.id = f.id := by
  obtain ⟨g', again', renamed, _⟩ := Function.prepare_content made f rfl rfl rfl rfl rfl
  obtain rfl : g' = g := (Prod.mk.inj (again'.symm.trans again)).2
  obtain ⟨types, marked⟩ := renamed.results nonempty
  exact ⟨⟨renamed.atoms.symm, types.symm, renamed.synthesized.symm, marked.symm⟩, renamed.id⟩

theorem becomes_of_elide {raw : Function} {c : Buffer} {changed : Bool} (made : Succeeds Function.prepare raw () f)
    (ran : Succeeds elide f.buffer changed c) (elidable : Elidable f.buffer written)
    (same : ∀ i ty, f.buffer.typeOf i = .ok ty → f.buffer.typeOf (replacement f.buffer i) = .ok ty)
    (settled : settles f.buffer written {} (statements f) = true) (stay : StatementsStay f { f with buffer := c }) :
    Becomes f.id f { f with buffer := c } := by
  obtain ⟨prepared, _⟩ := Function.prepared_of_prepare made
  by_cases empty : f.buffer.size = 0
  · rw [elide_of_empty empty ran]
    exact Or.inl (StandsFor.refl f)
  have typed := prepared.typed empty
  obtain ⟨atoms, synthesized, _⟩ := elide_succeeds typed ran
  obtain ⟨forward, found⟩ := forwards_of_elide typed empty ran
  refine Or.inr ⟨rfl, rfl, fun g again => ?_⟩
  -- linking prepares the function a second time, so what is known of it goes over to that one
  obtain ⟨content, numbered⟩ := sameContent_of_prepare made empty again
  obtain ⟨prepared', _⟩ := Function.prepared_of_prepare again
  have nonempty : g.buffer.size ≠ 0 := by
    rw [← SameContent.size content]
    exact empty
  have typed' := prepared'.typed nonempty
  have leads := SameContent.replacement content typed typed'
  have elidable' := SameContent.elidable content typed typed' elidable
  have forwards' : forwards g.buffer = .ok forward := by
    have answers := SameContent.forwards content typed typed'
    rw [found] at answers
    exact Except.toOption_eq_some_iff.1 answers.symm
  have same' : ∀ i ty, g.buffer.typeOf i = .ok ty → g.buffer.typeOf (replacement g.buffer i) = .ok ty := by
    intro i ty known
    rw [← leads, ← SameContent.typeOf_ok_iff content typed typed']
    exact same i ty ((SameContent.typeOf_ok_iff content typed typed').2 known)
  obtain ⟨h, after, diverting, name, args, returns⟩ := prepare_elided again empty same'
    (by rw [atoms, leads, diverted, diverted, content.atoms]) (by rw [synthesized, content.synthesized])
    (run_valid (p := .elision) (Function.valid_of_prepare made) ran)
  have replaced := replacement_eq prepared'.backward elidable'.stores forwards'
  obtain ⟨prepared'', numbered', _⟩ := Function.prepared_of_prepare after
  refine ⟨h, after, written, ?_⟩
  exact {
    name, args, returns, diverting
    id := numbered'.trans numbered.symm
    shown := visible_source diverting prepared' prepared'' nonempty (shown_replacement prepared' replaced)
    elidable := elidable'
    replaced
    settled := by
      rw [← SameContent.settles content typed typed', ← SameContent.statements content]
      exact settled
    statements := fun n shown => (SameContent.isStatement content n).symm.trans (stay h after n shown) }

end ShaderForge.Optimizer
