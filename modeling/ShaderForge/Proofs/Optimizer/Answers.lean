import ShaderForge.Optimizer.Pipeline
import ShaderForge.Proofs.Native.Modules
import ShaderForge.Proofs.Native.Soundness

/-!
Answers of native code when a function of a registry is replaced.
-/

namespace ShaderForge.Optimizer

open Buffer Linkage Native

/-- Where the functions of a registry have native code, those of another have code that gives the
same answers. -/
def SameAnswers (r r' : Registry) : Prop :=
  ∀ (entries : List FunctionId) (u : Linkage) (m : Module), link r entries = .ok u →
    Module.compile u = .ok m → ∃ u' m', link r' entries = .ok u' ∧ Module.compile u' = .ok m' ∧
      ∀ rounds symbol args, m'.run? rounds symbol args = m.run? rounds symbol args

/-- Where the functions of a registry have native code, and those with one number can be trusted, the functions
of another have code that gives every answer that they give. -/
def KeepsAnswers (id : FunctionId) (r r' : Registry) : Prop :=
  ∀ (entries : List FunctionId) (u : Linkage) (m : Module), link r entries = .ok u → Module.compile u = .ok m →
    (∀ f ∈ u.functions, f.id = id → Trusted u f) → ∃ u' m', link r' entries = .ok u' ∧ Module.compile u' = .ok m' ∧
      ∀ rounds symbol args bits, m.run? rounds symbol args = some (.ok bits) → m'.run? rounds symbol args = some (.ok bits)

theorem sameAnswers_of_echoes {r r' : Registry} (echoes : Echoes r r') : SameAnswers r r' := by
  intro entries u m linked compiled
  obtain ⟨u', linked', parallel⟩ := link_parallel echoes linked
  obtain ⟨m', compiled', same⟩ := compile_fold parallel compiled
  exact ⟨u', m', linked', compiled', run?_alias same⟩

theorem StandsFor.refl (f : Function) : StandsFor f f := by
  refine ⟨rfl, fun g prepared => ⟨g, fun i => i, prepared, ?_⟩⟩
  exact Function.FoldsTo.refl (Function.prepared_of_prepare prepared).1.backward

theorem echoes_put {r : Registry} {f f' : Function} (known : r.get? f.id = some f)
    (stands : StandsFor f' f) : Echoes r (r.put f') :=
  registered_put known stands.id stands fun g _ => StandsFor.refl g

theorem build_succeeds {name : String} {id : FunctionId} {b : Buffer} {f : Function}
    (built : Function.build name id b = .ok f) :
    Succeeds Function.prepare { name, id, buffer := b } () f :=
  Function.build_ok_iff.1 built

def only (f : Function) : Registry := Registry.empty.put f

/-- The answer of a function of a registry, if it has native code and stops. -/
def answer? (r : Registry) (symbol : String) (args : List UInt64) : Option (List UInt64) := do
  let u ← (link r [0]).toOption
  let m ← (Module.compile u).toOption
  (← m.run? 1 symbol args).toOption

theorem SameAnswers.answer? {r r' : Registry} (same : SameAnswers r r') {symbol : String}
    {args answer : List UInt64} (h : Optimizer.answer? r symbol args = some answer) :
    Optimizer.answer? r' symbol args = some answer := by
  unfold Optimizer.answer? at h ⊢
  obtain ⟨u, linked, h⟩ := Option.bind_eq_some_iff.1 h
  obtain ⟨m, compiled, h⟩ := Option.bind_eq_some_iff.1 h
  obtain ⟨u', m', linked', compiled', runs⟩ :=
    same [0] u m (Except.toOption_eq_some_iff.1 linked) (Except.toOption_eq_some_iff.1 compiled)
  simp only [linked', compiled', Except.toOption, bind, Option.bind_some, runs]
  exact h

theorem KeepsAnswers.answer? {id : FunctionId} {r r' : Registry} (kept : KeepsAnswers id r r')
    (trusted : ∀ u, link r [0] = .ok u → ∀ f ∈ u.functions, f.id = id → Trusted u f) {symbol : String}
    {args answer : List UInt64} (h : Optimizer.answer? r symbol args = some answer) :
    Optimizer.answer? r' symbol args = some answer := by
  unfold Optimizer.answer? at h ⊢
  obtain ⟨u, linked, h⟩ := Option.bind_eq_some_iff.1 h
  obtain ⟨m, compiled, h⟩ := Option.bind_eq_some_iff.1 h
  obtain ⟨result, ran, h⟩ := Option.bind_eq_some_iff.1 h
  obtain rfl := Except.toOption_eq_some_iff.1 h
  rw [Except.toOption_eq_some_iff] at linked compiled
  obtain ⟨u', m', linked', compiled', runs⟩ := kept [0] u m linked compiled (trusted u linked)
  simp only [linked', compiled', runs _ _ _ _ ran, Except.toOption, bind, Option.bind_some]

theorem exists_edited (edit : Edit Bool) (b : Buffer) (check : Function → Function → Bool)
    (passes : ((Function.build "f" 0 b).toOption.any fun f => (edit.exec f.buffer).toOption.any
      fun c => check f { f with buffer := c }) = true) :
    ∃ f changed c, Function.build "f" 0 b = .ok f ∧ edit.apply f.buffer = (.ok changed, c) ∧
      check f { f with buffer := c } = true := by
  obtain ⟨f, built, passes⟩ := (Option.any_eq_true _ _).1 passes
  obtain ⟨c, ran, passes⟩ := (Option.any_eq_true _ _).1 passes
  obtain ⟨changed, edited⟩ := Edit.exec_ok_iff.1 (Except.toOption_eq_some_iff.1 ran)
  exact ⟨f, changed, c, Except.toOption_eq_some_iff.1 built, edited, passes⟩

end ShaderForge.Optimizer
