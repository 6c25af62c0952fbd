import ShaderForge.Native.Module
import ShaderForge.Proofs.Buffer.Fold

/-!
Code with its slots renamed. A run of renamed code goes like a run of the code, as long as no
written slot shares its new name.
-/

namespace ShaderForge.Native

open Buffer (Solo)

/-! ### Expressions -/

namespace Expr

def rename (f : Index → Index) : Expr → Expr
  | literal value => literal value
  | zeros scalars => zeros scalars
  | slot owner scalars => slot (f owner) scalars
  | pick e positions => pick (e.rename f) positions
  | join a b => join (a.rename f) (b.rename f)
  | unary op scalar e => unary op scalar (e.rename f)
  | binary op scalar a b => binary op scalar (a.rename f) (b.rename f)
  | fold op scalar e => fold op scalar (e.rename f)
  | convert source target e => convert source target (e.rename f)
  | call callee params returns args => call callee params returns (args.rename f)

variable (f : Index → Index)

@[simp] theorem registers_rename (e : Expr) : (e.rename f).registers = e.registers := by
  induction e <;> simp_all [rename, registers]

@[simp] theorem width_rename (e : Expr) : (e.rename f).width = e.width := by
  unfold width
  rw [registers_rename]

@[simp] theorem accepted_rename (e : Expr) : (e.rename f).accepted = e.accepted := by
  induction e <;> simp_all [rename, accepted]

end Expr

/-! ### Environments -/

/-- Two environments hold the same components under their own names. -/
def Env.Matches (f : Index → Index) (env env' : Env) : Prop := ∀ i, env'[f i]? = env[i]?

theorem Env.Matches.empty (f : Index → Index) : Env.Matches f ∅ ∅ := by
  intro i
  simp

theorem getElem?_insert_rename {β : Type} {f : Index → Index} {m m' : IndexMap β}
    (same : ∀ i, m'[f i]? = m[i]?) {i : Index} (solo : Solo f i) (x : β) (j : Index) :
    (m'.insert (f i) x)[f j]? = (m.insert i x)[j]? := by
  rw [Std.ExtTreeMap.getElem?_insert, Std.ExtTreeMap.getElem?_insert]
  by_cases here : i = j
  · subst here
    simp
  · have apart : f i ≠ f j := fun clash => here (solo j clash.symm).symm
    simp [here, apart, same j]

theorem Env.Matches.insert {f : Index → Index} {env env' : Env} (same : env.Matches f env') {i : Index}
    (solo : Solo f i) (ws : List Word) : Env.Matches f (env.insert i ws) (env'.insert (f i) ws) :=
  getElem?_insert_rename same solo ws

theorem Env.Matches.slot {f : Index → Index} {env env' : Env} (same : env.Matches f env') (i : Index)
    (scalars : List Prim) : env'.slot (f i) scalars = env.slot i scalars := by
  unfold Env.slot
  rw [same i]

theorem Expr.eval_rename {f : Index → Index} {env env' : Env} (same : env.Matches f env')
    (callees : Callees) (e : Expr) : (e.rename f).eval callees env' = e.eval callees env := by
  induction e with
  | literal | zeros => rfl
  | slot owner scalars => simp only [rename, eval, same.slot]
  | join a b iha ihb | binary op scalar a b iha ihb => simp only [rename, eval, iha, ihb]
  | pick e _ ih | unary _ _ e ih | fold _ _ e ih | convert _ _ e ih | call _ _ _ e ih =>
    simp only [rename, eval, ih]

/-! ### Code -/

namespace Code

def rename (f : Index → Index) : Code → Code
  | skip => skip
  | seq first second => seq (first.rename f) (second.rename f)
  | assign owner width value => assign (f owner) width (value.rename f)
  | update owner scalars positions value => update (f owner) scalars positions (value.rename f)
  | discard value => discard (value.rename f)
  | branch condition yes no => branch (condition.rename f) (yes.rename f) (no.rename f)
  | loop condition body => loop (condition.rename f) (body.rename f)
  | leave => leave
  | next => next
  | ret scalars value => ret scalars (value.rename f)

def Writes (P : Index → Prop) : Code → Prop
  | assign owner _ _ | update owner _ _ _ => P owner
  | seq first second => first.Writes P ∧ second.Writes P
  | branch _ yes no => yes.Writes P ∧ no.Writes P
  | loop _ body => body.Writes P
  | skip | discard _ | leave | next | ret _ _ => True

@[simp] theorem accepted_rename (f : Index → Index) (c : Code) : (c.rename f).accepted = c.accepted := by
  induction c <;> simp_all [rename, accepted, tests]

end Code

/-- Where two runs are when they go alike. -/
inductive Flow.Matches (f : Index → Index) : Flow → Flow → Prop
  | running {env env' : Env} (same : env.Matches f env') : Matches f (.running env) (.running env')
  | leaving {env env' : Env} (same : env.Matches f env') : Matches f (.leaving env) (.leaving env')
  | continuing {env env' : Env} (same : env.Matches f env') :
      Matches f (.continuing env) (.continuing env')
  | returned (values : List Word) : Matches f (.returned values) (.returned values)

/-- Two runs stop for the same reason or go alike. -/
inductive Alike (f : Index → Index) : Except Halt Flow → Except Halt Flow → Prop
  | halted (h : Halt) : Alike f (.error h) (.error h)
  | going {x y : Flow} (same : x.Matches f y) : Alike f (.ok x) (.ok y)

theorem Alike.cases {f : Index → Index} {x y : Except Halt Flow} (alike : Alike f x y) :
    (∃ h, x = .error h ∧ y = .error h) ∨ ∃ u v, x = .ok u ∧ y = .ok v ∧ u.Matches f v := by
  cases alike with
  | halted h => exact Or.inl ⟨h, rfl, rfl⟩
  | going same => exact Or.inr ⟨_, _, rfl, rfl, same⟩

section

variable {f : Index → Index} {env env' : Env}

theorem iterate_alike {test test' : Env → Except Halt Bool} {body body' : Env → Except Halt Flow}
    (tests : ∀ {env env' : Env}, env.Matches f env' → test' env' = test env)
    (bodies : ∀ {env env' : Env}, env.Matches f env' → Alike f (body env) (body' env'))
    (same : env.Matches f env') (rounds : Nat) :
    Alike f (iterate test body rounds env) (iterate test' body' rounds env') := by
  induction rounds generalizing env env' with
  | zero => exact .halted _
  | succ rounds ih =>
    unfold iterate
    rw [tests same]
    cases test env with
    | error h => exact .halted h
    | ok yes =>
      cases yes with
      | false => exact .going (.running same)
      | true =>
        rcases (bodies same).cases with ⟨h, first, second⟩ | ⟨u, v, first, second, same⟩
        · simp only [bind, Except.bind, ↓reduceIte, first, second]
          exact .halted h
        · simp only [bind, Except.bind, ↓reduceIte, first, second]
          cases same with
          | running same | continuing same => exact ih same
          | leaving same => exact .going (.running same)
          | returned values => exact .going (.returned values)

theorem Code.exec_rename {code : Code} (writes : code.Writes (Solo f)) (same : env.Matches f env')
    (callees : Callees) (rounds : Nat) :
    Alike f (code.exec callees rounds env) ((code.rename f).exec callees rounds env') := by
  induction code generalizing env env' with
  | skip => exact .going (.running same)
  | leave => exact .going (.leaving same)
  | next => exact .going (.continuing same)
  | seq first second ihf ihs =>
    rcases (ihf writes.1 same).cases with ⟨h, left, right⟩ | ⟨u, v, left, right, same⟩
    · simp only [rename, exec, bind, Except.bind, left, right]
      exact .halted h
    · simp only [rename, exec, bind, Except.bind, left, right]
      cases same with
      | running same => exact ihs writes.2 same
      | leaving same => exact .going (.leaving same)
      | continuing same => exact .going (.continuing same)
      | returned values => exact .going (.returned values)
  | assign owner width value =>
    simp only [rename, exec, Expr.eval_rename same]
    cases value.eval callees env with
    | error h => exact .halted h
    | ok ws => exact .going (.running (same.insert writes _))
  | update owner scalars positions value =>
    simp only [rename, exec, Expr.eval_rename same, same.slot]
    cases value.eval callees env with
    | error h => exact .halted h
    | ok ws => exact .going (.running (same.insert writes _))
  | discard value =>
    simp only [rename, exec, Expr.eval_rename same]
    cases value.eval callees env with
    | error h => exact .halted h
    | ok ws => exact .going (.running same)
  | branch condition yes no ihy ihn =>
    simp only [rename, exec, Expr.eval_rename same]
    cases condition.eval callees env with
    | error h => exact .halted h
    | ok ws =>
      simp only [bind, Except.bind]
      split
      · exact ihy writes.1 same
      · exact ihn writes.2 same
  | loop condition body ih =>
    exact iterate_alike (fun same => by simp only [Expr.eval_rename same]) (fun same => ih writes same)
      same rounds
  | ret scalars value =>
    simp only [rename, exec, Expr.eval_rename same]
    cases value.eval callees env with
    | error h => exact .halted h
    | ok ws => exact .going (.returned ws)

theorem bindParameters_rename {parameters : List (Index × List Prim)}
    (solo : ∀ p ∈ parameters, Solo f p.1) (same : env.Matches f env') (ws : List Word) :
    Env.Matches f (bindParameters parameters ws env)
      (bindParameters (parameters.map fun (i, scalars) => (f i, scalars)) ws env') := by
  induction parameters generalizing env env' ws with
  | nil => exact same
  | cons p rest ih =>
    obtain ⟨i, scalars⟩ := p
    have first : Solo f i := solo (i, scalars) List.mem_cons_self
    exact ih (fun p member => solo p (List.mem_cons_of_mem _ member)) (same.insert first _) _

end

/-- A procedure under other names. -/
structure Procedure.Renamed (f : Index → Index) (p q : Procedure) : Prop where
  id : q.id = p.id
  symbol : q.symbol = p.symbol
  args : q.args = p.args
  returns : q.returns = p.returns
  parameters : q.parameters = p.parameters.map fun (i, scalars) => (f i, scalars)
  body : q.body = p.body.rename f
  solo : ∀ entry ∈ p.parameters, Solo f entry.1
  writes : p.body.Writes (Solo f)

theorem Procedure.Renamed.run_eq {f : Index → Index} {p q : Procedure} (renamed : p.Renamed f q)
    (callees : Callees) (rounds : Nat) (args : Memory) :
    q.run callees rounds args = p.run callees rounds args := by
  have same := bindParameters_rename renamed.solo (Env.Matches.empty f) (p.args.load args)
  unfold run
  rw [renamed.parameters, renamed.body, renamed.args, renamed.returns]
  rcases (Code.exec_rename renamed.writes same callees rounds).cases with
    ⟨h, left, right⟩ | ⟨u, v, left, right, same⟩
  · simp only [bind, Except.bind, left, right]
  · simp only [bind, Except.bind, left, right]
    cases same <;> rfl

end ShaderForge.Native
