import ShaderForge.Proofs.Linkage.Towers
import ShaderForge.Proofs.Native.Modules
import ShaderForge.Proofs.Native.Packing

/-!
Runs of one code against runs of another. The other need not stop where the one does, but where the one
gives a result it gives the same.
-/

namespace ShaderForge.Native

open Linkage

/-! ### Expressions -/

def Callees.Below (callees callees' : Callees) : Prop := ∀ id args, Entails (callees id args) (callees' id args)

theorem Expr.eval_below {callees callees' : Callees} (below : callees.Below callees') (e : Expr) (env : Env) :
    Entails (e.eval callees env) (e.eval callees' env) := by
  induction e with
  | literal | zeros | slot => exact .refl _
  | pick _ _ ih | unary _ _ _ ih | fold _ _ _ ih | convert _ _ _ ih => exact ih.bind fun _ _ => .refl _
  | join _ _ first second | binary _ _ _ _ first second =>
    exact first.bind fun _ _ => second.bind fun _ _ => .refl _
  | call id _ _ _ ih => exact ih.bind fun _ _ => below id _

/-! ### Code -/

/-- Where two runs are: in related environments, or done with the same result. -/
inductive Flow.Related (ends leaves : Env → Env → Prop) : Flow → Flow → Prop
  | running {env env' : Env} (related : ends env env') : Related ends leaves (.running env) (.running env')
  | leaving {env env' : Env} (related : leaves env env') : Related ends leaves (.leaving env) (.leaving env')
  | continuing {env env' : Env} (related : leaves env env') :
      Related ends leaves (.continuing env) (.continuing env')
  | returned (values : List Word) : Related ends leaves (.returned values) (.returned values)

namespace Code

variable {rounds : Nat} {callees callees' : Callees} {starts middle ends ends' leaves : Env → Env → Prop}
  {c c' d d' : Code} {e e' : Expr}

/-- From related environments, wherever a run of the one code gets, a run of the other gets too. Rounds
of a loop are left in environments related by `leaves`. -/
def Tracks (rounds : Nat) (callees callees' : Callees) (starts ends leaves : Env → Env → Prop) (c c' : Code) :
    Prop :=
  ∀ env env' flow, starts env env' → c.exec callees rounds env = .ok flow →
    ∃ flow', c'.exec callees' rounds env' = .ok flow' ∧ flow.Related ends leaves flow'

/-- Values that are the same in related environments, where the first is a value at all. -/
def Agrees (callees callees' : Callees) (starts : Env → Env → Prop) (e e' : Expr) : Prop :=
  ∀ env env', starts env env' → Entails (e.eval callees env) (e'.eval callees' env')

namespace Tracks

theorem imp (tracks : Tracks rounds callees callees' middle ends leaves c c')
    (before : ∀ env env', starts env env' → middle env env')
    (after : ∀ env env', ends env env' → ends' env env') :
    Tracks rounds callees callees' starts ends' leaves c c' := by
  intro env env' flow related ran
  obtain ⟨flow', ran', stands⟩ := tracks env env' flow (before _ _ related) ran
  refine ⟨flow', ran', ?_⟩
  cases stands with
  | running related => exact .running (after _ _ related)
  | leaving related => exact .leaving related
  | continuing related => exact .continuing related
  | returned values => exact .returned values

theorem skip : Tracks rounds callees callees' starts starts leaves .skip .skip := by
  intro env env' flow related ran
  cases ran
  exact ⟨_, rfl, .running related⟩

theorem leave (related : ∀ env env', starts env env' → leaves env env') :
    Tracks rounds callees callees' starts ends leaves .leave .leave := by
  intro env env' flow here ran
  cases ran
  exact ⟨_, rfl, .leaving (related _ _ here)⟩

theorem next (related : ∀ env env', starts env env' → leaves env env') :
    Tracks rounds callees callees' starts ends leaves .next .next := by
  intro env env' flow here ran
  cases ran
  exact ⟨_, rfl, .continuing (related _ _ here)⟩

theorem seq (first : Tracks rounds callees callees' starts middle leaves c c')
    (second : Tracks rounds callees callees' middle ends leaves d d') :
    Tracks rounds callees callees' starts ends leaves (.seq c d) (.seq c' d') := by
  intro env env' flow related ran
  obtain ⟨halfway, ran, later⟩ := Except.bind_ok ran
  obtain ⟨halfway', ran', stands⟩ := first env env' halfway related ran
  rw [Code.exec, ran', Except.ok_bind]
  cases stands with
  | running related => exact second _ _ flow related later
  | leaving related =>
    cases later
    exact ⟨_, rfl, .leaving related⟩
  | continuing related =>
    cases later
    exact ⟨_, rfl, .continuing related⟩
  | returned values =>
    cases later
    exact ⟨_, rfl, .returned values⟩

theorem alone (first : Tracks rounds callees callees' starts middle leaves c c')
    (stays : ∀ env env' flow, middle env env' → d.exec callees rounds env = .ok flow →
      ∃ after, flow = .running after ∧ ends after env') :
    Tracks rounds callees callees' starts ends leaves (.seq c d) c' := by
  intro env env' flow related ran
  obtain ⟨halfway, ran, later⟩ := Except.bind_ok ran
  obtain ⟨halfway', ran', stands⟩ := first env env' halfway related ran
  refine ⟨halfway', ran', ?_⟩
  cases stands with
  | running related =>
    obtain ⟨after, rfl, related⟩ := stays _ _ flow related later
    exact .running related
  | leaving related =>
    cases later
    exact .leaving related
  | continuing related =>
    cases later
    exact .continuing related
  | returned values =>
    cases later
    exact .returned values

theorem assign {owner : Index} {width : Nat} (agrees : Agrees callees callees' starts e e')
    (stored : ∀ env env' ws, starts env env' → e.eval callees env = .ok ws →
      ends (env.insert owner (ws.take width)) (env'.insert owner (ws.take width))) :
    Tracks rounds callees callees' starts ends leaves (.assign owner width e) (.assign owner width e') := by
  intro env env' flow related ran
  obtain ⟨ws, computed, same⟩ := Except.bind_ok ran
  cases same
  rw [Code.exec, agrees env env' related ws computed]
  exact ⟨_, rfl, .running (stored env env' ws related computed)⟩

theorem update {owner : Index} {scalars : List Prim} {positions : List Nat}
    (agrees : Agrees callees callees' starts e e')
    (held : ∀ env env', starts env env' → env'.slot owner scalars = env.slot owner scalars)
    (stored : ∀ env env' ws, starts env env' → e.eval callees env = .ok ws →
      ends (env.insert owner (replaceAt (env.slot owner scalars) positions ws))
        (env'.insert owner (replaceAt (env.slot owner scalars) positions ws))) :
    Tracks rounds callees callees' starts ends leaves (.update owner scalars positions e)
      (.update owner scalars positions e') := by
  intro env env' flow related ran
  obtain ⟨ws, computed, same⟩ := Except.bind_ok ran
  cases same
  rw [Code.exec, agrees env env' related ws computed, Except.ok_bind, held env env' related]
  exact ⟨_, rfl, .running (stored env env' ws related computed)⟩

theorem discard (agrees : Agrees callees callees' starts e e') :
    Tracks rounds callees callees' starts starts leaves (.discard e) (.discard e') := by
  intro env env' flow related ran
  obtain ⟨ws, computed, same⟩ := Except.bind_ok ran
  cases same
  rw [Code.exec, agrees env env' related ws computed]
  exact ⟨_, rfl, .running related⟩

theorem ret {scalars : List Prim} (agrees : Agrees callees callees' starts e e') :
    Tracks rounds callees callees' starts ends leaves (.ret scalars e) (.ret scalars e') := by
  intro env env' flow related ran
  obtain ⟨ws, computed, same⟩ := Except.bind_ok ran
  cases same
  rw [Code.exec, agrees env env' related ws computed]
  exact ⟨_, rfl, .returned ws⟩

theorem branch (agrees : Agrees callees callees' starts e e')
    (yes : Tracks rounds callees callees' starts ends leaves c c')
    (no : Tracks rounds callees callees' starts ends leaves d d') :
    Tracks rounds callees callees' starts ends leaves (.branch e c d) (.branch e' c' d') := by
  intro env env' flow related ran
  obtain ⟨ws, computed, ran⟩ := Except.bind_ok ran
  rw [Code.exec, agrees env env' related ws computed, Except.ok_bind]
  split at ran
  · rename_i held
    rw [if_pos held]
    exact yes env env' flow related ran
  · rename_i failed
    rw [if_neg failed]
    exact no env env' flow related ran

/-- A loop keeps what every round of it keeps, however the round is left. -/
theorem loop (agrees : Agrees callees callees' starts e e')
    (body : Tracks rounds callees callees' starts starts starts c c') :
    Tracks rounds callees callees' starts starts leaves (.loop e c) (.loop e' c') := by
  have all : ∀ left env env' flow, starts env env' →
      iterate (fun env => return holds (← e.eval callees env)) (fun env => c.exec callees rounds env) left env =
        .ok flow →
      ∃ flow', iterate (fun env => return holds (← e'.eval callees' env))
        (fun env => c'.exec callees' rounds env) left env' = .ok flow' ∧ flow.Related starts leaves flow' := by
    intro left
    induction left with
    | zero => intro env env' flow _ ran; cases ran
    | succ left ih =>
      intro env env' flow related ran
      unfold iterate at ran ⊢
      obtain ⟨holding, tested, ran⟩ := Except.bind_ok ran
      obtain ⟨ws, computed, same⟩ := Except.bind_ok tested
      cases same
      simp only [agrees env env' related ws computed, Except.ok_bind]
      show ∃ flow', (if holds ws = true then _ else _) = _ ∧ _
      split at ran
      · rename_i held
        rw [if_pos held]
        obtain ⟨after, ran, later⟩ := Except.bind_ok ran
        obtain ⟨after', ran', stands⟩ := body env env' after related ran
        rw [ran', Except.ok_bind]
        cases stands with
        | running related | continuing related => exact ih _ _ _ related later
        | leaving related =>
          cases later
          exact ⟨_, rfl, .running related⟩
        | returned values =>
          cases later
          exact ⟨_, rfl, .returned values⟩
      · rename_i failed
        rw [if_neg failed]
        cases ran
        exact ⟨_, rfl, .running related⟩
  exact all rounds

end Tracks

theorem tracks_below (below : callees.Below callees') (c : Code) :
    Tracks rounds callees callees' Eq Eq Eq c c := by
  have agrees : ∀ e, Agrees callees callees' Eq e e := by
    rintro e env _ rfl
    exact Expr.eval_below below e env
  induction c with
  | skip => exact .skip
  | leave => exact .leave fun _ _ same => same
  | next => exact .next fun _ _ same => same
  | seq _ _ first second => exact .seq first second
  | assign owner width e =>
    refine .assign (agrees e) ?_
    rintro env _ ws rfl _
    rfl
  | update owner scalars positions e =>
    refine .update (agrees e) ?_ ?_
    · rintro env _ rfl
      rfl
    · rintro env _ ws rfl _
      rfl
  | discard e => exact .discard (agrees e)
  | branch e _ _ yes no => exact .branch (agrees e) yes no
  | loop e _ body => exact .loop (agrees e) body
  | ret scalars e => exact .ret (agrees e)

end Code

/-! ### Procedures -/

theorem Procedure.run_tracks {p q : Procedure} {rounds : Nat} {callees callees' : Callees}
    {starts ends leaves : Env → Env → Prop} (args : q.args = p.args) (returns : q.returns = p.returns)
    (tracks : p.body.Tracks rounds callees callees' starts ends leaves q.body) (memory : Memory)
    (entered : starts (bindParameters p.parameters (p.args.load memory) ∅)
      (bindParameters q.parameters (p.args.load memory) ∅)) : Entails (p.run callees rounds memory) (q.run callees' rounds memory) := by
  intro result ran
  unfold Procedure.run at ran ⊢
  obtain ⟨flow, ran, stored⟩ := Except.bind_ok ran
  obtain ⟨flow', ran', stands⟩ := tracks _ _ flow entered ran
  simp only [args, returns, ran', Except.ok_bind]
  rw [← stored]
  cases stands <;> rfl

theorem Procedure.run_below (p : Procedure) {callees callees' : Callees} (below : callees.Below callees')
    (rounds : Nat) (memory : Memory) : Entails (p.run callees rounds memory) (p.run callees' rounds memory) :=
  p.run_tracks rfl rfl (Code.tracks_below below p.body) memory rfl

def Callees.Sized (u : Linkage) (callees : Callees) : Prop :=
  ∀ {id params returns args ws}, Signed u id params returns → callees id args = .ok ws →
    ws.length = returns.length

/-- A procedure that gives every result that another one gives. -/
structure Procedure.Covers (u : Linkage) (p q : Procedure) : Prop where
  id : q.id = p.id
  symbol : q.symbol = p.symbol
  args : q.args = p.args
  returns : q.returns = p.returns
  runs : ∀ {callees callees' : Callees}, callees.Below callees' → callees.Sized u → ∀ rounds memory,
    Entails (p.run callees rounds memory) (q.run callees' rounds memory)

theorem Alias.covers {u : Linkage} {p q : Procedure} (same : Alias p q) : p.Covers u q := by
  obtain ⟨fold, renamed⟩ := same
  refine ⟨renamed.id, renamed.symbol, renamed.args, renamed.returns, fun below _ rounds memory => ?_⟩
  rw [renamed.run_eq]
  exact p.run_below below rounds memory

/-! ### Modules -/

section

variable {u : Linkage} {m m' : Module} {ps qs : List Procedure}

theorem Layout.load_length {scalars : List Prim} {l : Layout} (packed : Layout.ofScalars scalars = .ok l)
    (memory : Memory) : (l.load memory).length = l.scalars.length := by
  have length := (pack_tight (Layout.ofScalars_ok_iff.1 packed)).length
  simp [Layout.load, Layout.bits, length]

def Procedure.Returns (u : Linkage) (p : Procedure) : Prop :=
  ∀ callee layout, u.function? p.id = some callee → resultLayout u callee = .ok layout → layout = p.returns

theorem resultLayout_pack {f : Function} {layout : Layout} (h : resultLayout u f = .ok layout) :
    ∃ scalars, Layout.ofScalars scalars = .ok layout := by
  unfold resultLayout Layout.of at h
  obtain ⟨linked, _, h⟩ := Except.bind_ok h
  obtain ⟨scalars, _, h⟩ := Except.bind_ok h
  exact ⟨scalars, h⟩

theorem procedure_returns {f : Function} {symbol : String} {p : Procedure} (h : procedure u f symbol = .ok p) :
    p.id = f.id ∧ resultLayout u f = .ok p.returns := by
  unfold procedure at h
  simp only at h
  obtain ⟨_, _, h⟩ := Except.bind_ok h
  obtain ⟨_, _, h⟩ := Except.bind_ok h
  obtain ⟨_, _, h⟩ := Except.bind_ok h
  obtain ⟨_, _, h⟩ := Except.bind_ok h
  obtain ⟨returns, returned, h⟩ := Except.bind_ok h
  cases h
  exact ⟨rfl, returned⟩

theorem calleesOf_sized (returns : ∀ p ∈ ps, p.Returns u) (rounds : Nat) : (calleesOf rounds ps).Sized u := by
  induction ps with
  | nil =>
    intro id params returns args ws _ computed
    cases computed
  | cons p earlier ih =>
    intro id params scalars args ws signed computed
    unfold calleesOf at computed
    split at computed
    · rename_i here
      obtain ⟨memory, _, same⟩ := Except.bind_ok computed
      cases same
      obtain ⟨callee, _, layout, known, _, result, _, rfl⟩ := signed
      obtain rfl := returns p List.mem_cons_self callee layout (here ▸ known) result
      obtain ⟨_, packed⟩ := resultLayout_pack result
      exact Layout.load_length packed memory
    · exact ih (fun q member => returns q (List.mem_cons_of_mem _ member)) signed computed

theorem calleesOf_below (covers : List.Forall₂ (Procedure.Covers u) ps qs) (returns : ∀ p ∈ ps, p.Returns u)
    (rounds : Nat) : (calleesOf rounds ps).Below (calleesOf rounds qs) := by
  induction covers with
  | nil => exact fun id args => .refl _
  | @cons p q _ _ first _ ih =>
    have later := fun r member => returns r (List.mem_cons_of_mem _ member)
    intro id args
    unfold calleesOf
    rw [first.id]
    refine .ite ?_ (ih later id args)
    unfold Procedure.invoke
    rw [first.args, first.returns]
    exact (first.runs (ih later) (calleesOf_sized later rounds) rounds _).bind fun _ _ => .refl _

theorem find?_covers (covers : List.Forall₂ (Procedure.Covers u) ps qs) (symbol : String) :
    Option.Rel (Procedure.Covers u) (ps.find? (·.symbol == symbol)) (qs.find? (·.symbol == symbol)) := by
  induction covers with
  | nil => exact .none
  | cons first _ ih =>
    rw [List.find?_cons, List.find?_cons, first.symbol]
    split
    · exact .some first
    · exact ih

/-- A module of procedures that cover those of another gives every answer that the other gives. -/
theorem run?_covers (covers : List.Forall₂ (Procedure.Covers u) m.procedures m'.procedures)
    (returns : ∀ p ∈ m.procedures, p.Returns u) {rounds : Nat} {symbol : String} {args bits : List UInt64}
    (h : m.run? rounds symbol args = some (.ok bits)) : m'.run? rounds symbol args = some (.ok bits) := by
  have back : ∀ p ∈ m.procedures.reverse, p.Returns u := fun p member => returns p (List.mem_reverse.1 member)
  have below : (m.callees rounds).Below (m'.callees rounds) :=
    calleesOf_below (List.forall₂_reverse_iff.2 covers) back rounds
  have sized : (m.callees rounds).Sized u := calleesOf_sized back rounds
  have found := find?_covers covers symbol
  unfold Module.run? at h ⊢
  revert found h
  generalize m.procedures.find? _ = p, m'.procedures.find? _ = q
  intro h found
  cases found with
  | none => cases h
  | some covered =>
    simp only [Option.map_some, Option.some.injEq, covered.args, covered.returns] at h ⊢
    exact (covered.runs below sized rounds _).bind (fun _ _ => .refl _) bits h

theorem compile_returns (numbered : Numbered u) (h : Module.compile u = .ok m) :
    ∀ p ∈ m.procedures, p.Returns u := by
  have all : ∀ items : List Function, (∀ f ∈ items, f ∈ u.functions) → ∀ n : Module,
      (∀ p ∈ n.procedures, p.Returns u) → items.foldlM (Module.add u) n = .ok m →
      ∀ p ∈ m.procedures, p.Returns u := by
    intro items
    induction items with
    | nil =>
      intro _ n known h
      cases h
      exact known
    | cons f rest ih =>
      intro inside n known h
      rw [List.foldlM_cons] at h
      obtain ⟨next, added, h⟩ := Except.bind_ok h
      refine ih (fun g member => inside g (List.mem_cons_of_mem _ member)) next ?_ h
      unfold Module.add at added
      split at added
      · cases added
      · obtain ⟨p, lowered, added⟩ := Except.bind_ok added
        split at added
        · cases added
        · split at added
          · cases added
          · cases added
            intro q member
            rcases List.mem_append.1 member with earlier | last
            · exact known q earlier
            · obtain rfl := List.mem_singleton.1 last
              obtain ⟨own, result⟩ := procedure_returns lowered
              intro callee layout found answer
              rw [own, numbered.function? (inside f List.mem_cons_self), Option.some.injEq] at found
              subst found
              exact Except.ok.inj (answer.symm.trans result)
  exact all u.functions (fun _ member => member) {} (fun p member => absurd member List.not_mem_nil) h

end

end ShaderForge.Native
