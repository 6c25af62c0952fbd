import ShaderForge.Proofs.Native.Statements

/-!
Modules of units whose functions go over to each other. They have the same symbols, and each
function gives the same answers.
-/

namespace ShaderForge.Native

open Buffer Linkage

/-! ### Procedures -/

def parameter (s : Scope) (p : Index × Nat) : Lowered (Index × LinkedTy) :=
  s.typeOf p.1 >>= fun ty => match ty with
    | .outArg _ | .inOutArg _ => .error (.unsupported (.outParameter s.function.name p.2))
    | ty => s.resolve ty >>= fun linked => .ok (p.1, linked)

theorem parameters_eq (s : Scope) : parameters s = s.function.parameters.mapM (parameter s) := rfl

def given (u : Linkage) (p : Index × LinkedTy) : Lowered (Index × List Prim) :=
  scalarsOf u p.2 >>= fun scalars => .ok (p.1, scalars)

/-- A parameter whose type has the same shape and the same scalars as that of another one. -/
structure Scope.Receives (s s' : Scope) (i j : Index) : Prop where
  typeOf : ∀ ty, s.typeOf i = .ok ty → ∃ f, s'.typeOf j = .ok (ty.rename f)
  kindred : s.Kindred s' i j

theorem Scope.Receives.parameter {s s' : Scope} {i j : Index} (receives : s.Receives s' i j) {position : Nat}
    {entry : Index × LinkedTy} {scalars : List Prim} (h : parameter s (i, position) = .ok entry)
    (flat : scalarsOf s.unit entry.2 = .ok scalars) :
    ∃ linked', parameter s' (j, position) = .ok (j, linked') ∧ scalarsOf s'.unit linked' = .ok scalars := by
  unfold Native.parameter at h ⊢
  obtain ⟨ty, known, h⟩ := Except.bind_ok h
  obtain ⟨f, known'⟩ := receives.typeOf ty known
  have resolved : ∀ {linked}, s.resolve ty = .ok linked → scalarsOf s.unit linked = .ok scalars →
      ∃ linked', s'.resolve (ty.rename f) = .ok linked' ∧ scalarsOf s'.unit linked' = .ok scalars := by
    intro linked answer flat
    have linked_eq : s.linkedType i = .ok linked := by
      unfold Scope.linkedType
      rw [known]
      exact answer
    obtain ⟨linked', answer', flat', _⟩ := receives.kindred linked scalars linked_eq flat
    unfold Scope.linkedType at answer'
    rw [known'] at answer'
    exact ⟨linked', answer', flat'⟩
  simp only at h known'
  rw [known', Except.ok_bind]
  cases ty with
  | outArg t | inOutArg t => cases h
  | _ =>
    obtain ⟨linked, answer, h⟩ := Except.bind_ok h
    cases h
    obtain ⟨linked', answer', flat'⟩ := resolved answer flat
    refine ⟨linked', ?_, flat'⟩
    simp only [Ty.rename] at answer' ⊢
    rw [answer']
    rfl

theorem parameter_owner {s : Scope} {p : Index × Nat} {entry : Index × LinkedTy} (h : parameter s p = .ok entry) :
    entry.1 = p.1 := by
  obtain ⟨ty, _, h⟩ := Except.bind_ok h
  cases ty with
  | outArg t | inOutArg t => cases h
  | _ =>
    obtain ⟨linked, _, h⟩ := Except.bind_ok h
    cases h
    rfl

theorem owners_of_parameters {s : Scope} {ps : List (Index × Nat)} {typed : List (Index × LinkedTy)}
    {entries : List (Index × List Prim)} (h : ps.mapM (parameter s) = .ok typed)
    (bound : typed.mapM (given s.unit) = .ok entries) : entries.map Prod.fst = ps.map Prod.fst := by
  rw [Except.mapM_ok_iff] at h bound
  have first : List.Forall₂ (fun p t => t.1 = p.1) ps typed := h.imp fun _ _ => parameter_owner
  have second : List.Forall₂ (fun t e => e.1 = t.1) typed entries := bound.imp fun t e made => by
    obtain ⟨ts, _, made⟩ := Except.bind_ok made
    cases made
    rfl
  clear h bound
  induction first generalizing entries with
  | nil =>
    cases second
    rfl
  | cons here _ ih =>
    obtain ⟨e, rest, same, later, rfl⟩ := List.forall₂_cons_left_iff.1 second
    rw [List.map_cons, List.map_cons, ih later, same, here]

theorem parameters_transfer {s s' : Scope} (via : Index → Index) {ps : List (Index × Nat)}
    (each : ∀ p ∈ ps, s.Receives s' p.1 (via p.1)) {typed : List (Index × LinkedTy)}
    {scalars : List (List Prim)} {entries : List (Index × List Prim)}
    (h : ps.mapM (parameter s) = .ok typed)
    (flat : (typed.map Prod.snd).mapM (scalarsOf s.unit) = .ok scalars)
    (bound : typed.mapM (given s.unit) = .ok entries) :
    ∃ typed', (ps.map fun (i, position) => (via i, position)).mapM (parameter s') = .ok typed' ∧
      (typed'.map Prod.snd).mapM (scalarsOf s'.unit) = .ok scalars ∧
      typed'.mapM (given s'.unit) = .ok (entries.map fun (i, scalars) => (via i, scalars)) := by
  induction ps generalizing typed scalars entries with
  | nil =>
    cases h
    cases flat
    cases bound
    exact ⟨[], rfl, rfl, rfl⟩
  | cons p rest ih =>
    obtain ⟨i, position⟩ := p
    rw [List.mapM_cons] at h
    obtain ⟨entry, first, h⟩ := Except.bind_ok h
    obtain ⟨later, others, h⟩ := Except.bind_ok h
    cases h
    rw [List.map_cons, List.mapM_cons] at flat
    obtain ⟨own, here, flat⟩ := Except.bind_ok flat
    obtain ⟨more, there, flat⟩ := Except.bind_ok flat
    cases flat
    rw [List.mapM_cons] at bound
    obtain ⟨pair, here', bound⟩ := Except.bind_ok bound
    obtain ⟨pairs, there', bound⟩ := Except.bind_ok bound
    cases bound
    have place : entry.1 = i := parameter_owner first
    unfold given at here'
    rw [here, Except.ok_bind, Except.ok.injEq] at here'
    subst here'
    obtain ⟨linked', first', flat'⟩ := (each _ List.mem_cons_self).parameter first here
    obtain ⟨later', others', there', bound'⟩ :=
      ih (fun p member => each p (List.mem_cons_of_mem _ member)) others there there'
    refine ⟨(via i, linked') :: later', ?_, ?_, ?_⟩
    · rw [List.map_cons, List.mapM_cons, first', others']
      rfl
    · rw [List.map_cons, List.mapM_cons, flat', there']
      rfl
    · rw [List.mapM_cons, given, flat', bound', place]
      rfl

/-- A function whose parameters have their scalars where they lead takes the same arguments. -/
theorem signature_transfer {u u' : Linkage} {f g : Function} (via : Index → Index)
    (places : g.parameters = f.parameters.map fun (i, position) => (via i, position))
    (each : ∀ p ∈ f.parameters, Scope.Receives { unit := u, function := f } { unit := u', function := g } p.1 (via p.1))
    {typed : List (Index × LinkedTy)} {args : Layout} {entries : List (Index × List Prim)}
    (taken : parameters { unit := u, function := f } = .ok typed)
    (packed : Layout.concat u (typed.map Prod.snd) = .ok args) (bound : typed.mapM (given u) = .ok entries) :
    ∃ typed', parameters { unit := u', function := g } = .ok typed' ∧
      Layout.concat u' (typed'.map Prod.snd) = .ok args ∧
      typed'.mapM (given u') = .ok (entries.map fun (i, scalars) => (via i, scalars)) := by
  obtain ⟨scalars, flat, packed⟩ := Except.bind_ok packed
  obtain ⟨typed', taken', flat', bound'⟩ := parameters_transfer via each taken flat bound
  refine ⟨typed', ?_, ?_, bound'⟩
  · rw [parameters_eq, places]
    exact taken'
  · rw [Layout.concat, flat', Except.ok_bind]
    exact packed

theorem insertAll_fold {fold : Index → Index} {entries : List (Index × List Prim)}
    (solo : ∀ e ∈ entries, Solo fold e.1) (named : ∀ e ∈ entries, e.1 ≠ .null)
    {slots slots' : IndexMap (List Prim)} (held : ∀ i, slots'[fold i]? = slots[i]?)
    (fresh : slots[Index.null]? = none) (own : ∀ i, (slots[i]?).isSome → Solo fold i) :
    let after := entries.foldl (fun slots (i, scalars) => slots.insert i scalars) slots
    (∀ i, ((entries.map fun (i, scalars) => (fold i, scalars)).foldl
      (fun slots (i, scalars) => slots.insert i scalars) slots')[fold i]? = after[i]?) ∧
      after[Index.null]? = none ∧ ∀ i, (after[i]?).isSome → Solo fold i := by
  induction entries generalizing slots slots' with
  | nil => exact ⟨held, fresh, own⟩
  | cons e rest ih =>
    obtain ⟨i, scalars⟩ := e
    have first : Solo fold i := solo _ List.mem_cons_self
    have there : i ≠ .null := named _ List.mem_cons_self
    refine ih (fun e member => solo e (List.mem_cons_of_mem _ member))
      (fun e member => named e (List.mem_cons_of_mem _ member))
      (getElem?_insert_rename held first scalars) ?_ ?_
    · rw [Std.ExtTreeMap.getElem?_insert, if_neg (by simpa using there), fresh]
    · intro j known
      by_cases here : i = j
      · exact here ▸ first
      · refine own j ?_
        rwa [Std.ExtTreeMap.getElem?_insert, if_neg (by simpa using here)] at known

theorem procedure_fold {u u' : Linkage} {f g : Function} {fold : Index → Index}
    (bridge : Bridge u u' f g fold) {symbol : String} {p : Procedure}
    (h : procedure u f symbol = .ok p) :
    ∃ q, procedure u' g symbol = .ok q ∧ p.Renamed fold q := by
  have scopes : Scopes fold { unit := u, function := f } { unit := u', function := g } :=
    ⟨bridge, fun i => by simp, by simp⟩
  have shown : ∀ p ∈ f.parameters, p.1 ∈ visibleAtoms f.buffer :=
    bridge.prepared.parameters_shown
  unfold procedure at h ⊢
  obtain ⟨typed, taken, h⟩ := Except.bind_ok h
  obtain ⟨args, packed, h⟩ := Except.bind_ok h
  obtain ⟨entries, bound, h⟩ := Except.bind_ok h
  obtain ⟨code, lowered, h⟩ := Except.bind_ok h
  obtain ⟨returns, layout', h⟩ := Except.bind_ok h
  cases h
  have receives : ∀ p ∈ f.parameters,
      Scope.Receives { unit := u, function := f } { unit := u', function := g } p.1 (fold p.1) := by
    intro p member
    have used : Scope.Used { unit := u, function := f } fold _ p.1 := ⟨Or.inr (shown p member), scopes.rank_le (shown p member)⟩
    exact ⟨fun ty known => ⟨fold, (scopes.typeOf used known).2⟩, fun _ _ => scopes.linkedType used⟩
  obtain ⟨typed', taken', packed', bound'⟩ := signature_transfer fold bridge.folds.parameters receives taken packed bound
  have places := owners_of_parameters taken bound
  have among : ∀ e ∈ entries, ∃ p ∈ f.parameters, p.1 = e.1 := by
    intro e member
    have place : e.1 ∈ f.parameters.map Prod.fst := places ▸ List.mem_map_of_mem member
    simpa using place
  have solo : ∀ e ∈ entries, Solo fold e.1 := by
    intro e member
    obtain ⟨p, inside, same⟩ := among e member
    exact same ▸ bridge.folds.bound p inside
  have named : ∀ e ∈ entries, e.1 ≠ .null := by
    intro e member
    obtain ⟨p, inside, same⟩ := among e member
    obtain ⟨n, place, _⟩ := scopes.inside (shown p inside)
    rw [← same, place]
    simp
  have empty : ∀ i, (∅ : IndexMap (List Prim))[fold i]? = (∅ : IndexMap (List Prim))[i]? := by simp
  obtain ⟨held, fresh, own⟩ := insertAll_fold solo named empty (by simp)
    (fun i known => by simp at known)
  obtain ⟨lowered', writes⟩ := body_fold bridge held fresh own lowered
  simp only [taken', packed', Except.ok_bind]
  change ∃ q, (typed'.mapM (given u') >>= _) = .ok q ∧ _
  rw [bound', Except.ok_bind, lowered', Except.ok_bind, bridge.resembles.resultLayout layout', Except.ok_bind]
  exact ⟨_, rfl, bridge.folds.id, rfl, rfl, rfl, rfl, rfl, solo, writes⟩

/-! ### Units -/

section

variable {u u' : Linkage}

theorem counterpart_of_parallel (parallel : Parallel u u') {f g : Function} {fold : Index → Index}
    (member : f ∈ u.functions) (member' : g ∈ u'.functions) (folds : f.FoldsTo g fold) :
    Counterpart u u' f g fold :=
  counterpart_of_coherent parallel.coherent parallel.coherent' member member' folds

section

variable {S : Function → Function → Prop} (abreast : Abreast S u u') (alike : Linkage.Alike S)
  (resembles : ∀ f g, f ∈ u.functions → g ∈ u'.functions → S f g → ∃ via, Resembles u u' f g via)

include abreast alike resembles

/-- Units whose functions have the same layouts have callees with the same layouts. -/
theorem callees_abreast {id : FunctionId} {callee : Function} (known : u.function? id = some callee) :
    ∃ callee', u'.function? id = some callee' ∧
      (∀ l, argumentLayout u callee = .ok l → argumentLayout u' callee' = .ok l) ∧
      ∀ l, resultLayout u callee = .ok l → resultLayout u' callee' = .ok l := by
  obtain ⟨callee', known', pair⟩ := abreast.function?_some alike known
  obtain ⟨via, same⟩ := resembles callee callee' (function?_mem known) (function?_mem known') pair
  exact ⟨callee', known', fun l => same.argumentLayout, fun l => same.resultLayout⟩

theorem bridge_of_abreast {f g : Function} {fold : Index → Index} (member : f ∈ u.functions) (member' : g ∈ u'.functions)
    (folds : f.FoldsTo g fold) : Bridge u u' f g fold :=
  ⟨counterpart_of_coherent abreast.coherent abreast.coherent' member member' folds,
    fun _ _ => callees_abreast abreast alike resembles, abreast.any_symbol? alike⟩

end

theorem bridge_of_parallel (parallel : Parallel u u') {f g : Function} {fold : Index → Index}
    (member : f ∈ u.functions) (member' : g ∈ u'.functions) (folds : f.FoldsTo g fold) :
    Bridge u u' f g fold := by
  refine bridge_of_abreast parallel follows_alike (fun f g inside inside' follows => ?_) member member' folds
  obtain ⟨fold, folds⟩ := follows
  exact ⟨fold, (counterpart_of_parallel parallel inside inside' folds).resembles⟩

end

/-! ### Modules -/

section

variable {u u' : Linkage} {S : Function → Function → Prop} {Q : Procedure → Procedure → Prop} {m m' next : Module}
  (paired : Paired S u u') (alike : Linkage.Alike S) (symbols : ∀ p q, Q p q → q.symbol = p.symbol)
  (each : ∀ f g, f ∈ u.functions → g ∈ u'.functions → S f g → ∀ symbol p, procedure u f symbol = .ok p →
    p.body.accepted = true → ∃ q, procedure u' g symbol = .ok q ∧ q.body.accepted = true ∧ Q p q)

include symbols in
theorem any_symbol_paired {ps qs : List Procedure} (pairs : List.Forall₂ Q ps qs) (symbol : String) :
    qs.any (·.symbol == symbol) = ps.any (·.symbol == symbol) := by
  induction pairs with
  | nil => rfl
  | cons first _ ih => rw [List.any_cons, List.any_cons, ih, symbols _ _ first]

include paired alike symbols each

theorem add_paired {f g : Function} (member : f ∈ u.functions) (member' : g ∈ u'.functions) (pair : S f g)
    (pairs : List.Forall₂ Q m.procedures m'.procedures) (h : Module.add u m f = .ok next) :
    ∃ next', Module.add u' m' g = .ok next' ∧ List.Forall₂ Q next.procedures next'.procedures := by
  unfold Module.add at h ⊢
  rw [(alike f g pair).1, paired.symbol? alike]
  cases known : u.symbol? f.id with
  | none => rw [known] at h; cases h
  | some symbol =>
    rw [known] at h
    obtain ⟨p, lowered, h⟩ := Except.bind_ok h
    split at h
    · cases h
    · rename_i new
      split at h
      · cases h
      · rename_i taken
        cases h
        obtain ⟨q, lowered', accepted, pair⟩ := each f g member member' pair symbol p lowered (by simpa using taken)
        simp only [lowered', Except.ok_bind, any_symbol_paired symbols pairs, accepted]
        rw [if_neg new]
        exact ⟨_, rfl, List.rel_append pairs (.cons pair .nil)⟩

/-- Units whose functions are lowered alike have modules with related procedures. -/
theorem compile_paired (h : Module.compile u = .ok m) :
    ∃ m', Module.compile u' = .ok m' ∧ List.Forall₂ Q m.procedures m'.procedures := by
  have all : ∀ items others : List Function, List.Forall₂ S items others →
      (∀ f ∈ items, f ∈ u.functions) → (∀ g ∈ others, g ∈ u'.functions) →
      ∀ n n' : Module, List.Forall₂ Q n.procedures n'.procedures →
      items.foldlM (Module.add u) n = .ok m → ∃ m', others.foldlM (Module.add u') n' = .ok m' ∧
        List.Forall₂ Q m.procedures m'.procedures := by
    intro items others pairs
    induction pairs with
    | nil =>
      intro _ _ n n' same h
      cases h
      exact ⟨n', rfl, same⟩
    | @cons f g _ _ first _ ih =>
      intro inside inside' n n' same h
      rw [List.foldlM_cons] at h
      obtain ⟨next, added, h⟩ := Except.bind_ok h
      obtain ⟨next', added', same⟩ := add_paired paired alike symbols each (inside f List.mem_cons_self)
        (inside' g List.mem_cons_self) first same added
      obtain ⟨m', later, same⟩ := ih (fun f member => inside f (List.mem_cons_of_mem _ member))
        (fun g member => inside' g (List.mem_cons_of_mem _ member)) next next' same h
      exact ⟨m', by rw [List.foldlM_cons, added', Except.ok_bind, later], same⟩
  exact all _ _ paired.functions (fun _ member => member) (fun _ member => member) {} {} .nil h

end

def Alias (p q : Procedure) : Prop := ∃ fold, p.Renamed fold q

theorem Alias.symbol {p q : Procedure} (same : Alias p q) : q.symbol = p.symbol := by
  obtain ⟨fold, renamed⟩ := same
  exact renamed.symbol

theorem procedure_alias {u u' : Linkage} {f g : Function} {fold : Index → Index} (bridge : Bridge u u' f g fold)
    {symbol : String} {p : Procedure} (h : procedure u f symbol = .ok p) (accepted : p.body.accepted = true) :
    ∃ q, procedure u' g symbol = .ok q ∧ q.body.accepted = true ∧ Alias p q := by
  obtain ⟨q, lowered, renamed⟩ := procedure_fold bridge h
  exact ⟨q, lowered, by rw [renamed.body, Code.accepted_rename, accepted], fold, renamed⟩

theorem compile_fold {u u' : Linkage} (parallel : Parallel u u') {m : Module} (h : Module.compile u = .ok m) :
    ∃ m', Module.compile u' = .ok m' ∧ List.Forall₂ Alias m.procedures m'.procedures :=
  compile_paired parallel.toPaired follows_alike (fun _ _ => Alias.symbol)
    (fun _ _ member member' ⟨_, folds⟩ _ _ => procedure_alias (bridge_of_parallel parallel member member' folds)) h

theorem calleesOf_alias {ps qs : List Procedure} (same : List.Forall₂ Alias ps qs) (rounds : Nat) :
    calleesOf rounds qs = calleesOf rounds ps := by
  induction same with
  | nil => rfl
  | @cons p q _ _ first _ ih =>
    obtain ⟨fold, renamed⟩ := first
    funext id args
    unfold calleesOf Procedure.invoke
    rw [ih, renamed.id, renamed.args, renamed.returns, renamed.run_eq]

theorem find?_alias {ps qs : List Procedure} (same : List.Forall₂ Alias ps qs) (symbol : String) :
    Option.Rel Alias (ps.find? (·.symbol == symbol)) (qs.find? (·.symbol == symbol)) := by
  induction same with
  | nil => exact .none
  | cons first _ ih =>
    rw [List.find?_cons, List.find?_cons, first.symbol]
    split
    · exact .some first
    · exact ih

theorem run?_alias {m m' : Module} (same : List.Forall₂ Alias m.procedures m'.procedures) (rounds : Nat)
    (symbol : String) (args : List UInt64) : m'.run? rounds symbol args = m.run? rounds symbol args := by
  have callees : m'.callees rounds = m.callees rounds :=
    calleesOf_alias (List.forall₂_reverse_iff.2 same) rounds
  have found := find?_alias same symbol
  unfold Module.run?
  rw [callees]
  revert found
  generalize m.procedures.find? _ = p, m'.procedures.find? _ = q
  rintro (⟨fold, renamed⟩ | _)
  · simp only [Option.map_some, renamed.args, renamed.returns, renamed.run_eq]
  · rfl

end ShaderForge.Native
