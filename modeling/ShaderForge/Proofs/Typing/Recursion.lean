import ShaderForge.Proofs.Typing.Complete

/-!
Inference without memory. `direct` types an atom by its rule and works every answer out anew, by
recursion on the address. Where addresses lead backwards an analysis tells exactly that, whatever was
asked before and however it ended: what is remembered agrees with the recursion, rules that failed
included, and no rule asks for an atom that is being typed.
-/

namespace ShaderForge

namespace Inquiry

variable {α β : Type}

theorem toOption_answer (oracle : Index → Except Fault Ty) (x : Inquiry α) :
    (x.answer oracle).toOption = x.value? fun i => (oracle i).toOption := by
  induction x with
  | done a => rfl
  | fail e => rfl
  | ask i resume ih =>
    rw [answer, Except.toOption_bind, value?]
    exact congrArg _ (funext ih)

/-- Who answers the questions that are asked in the same way gives the same result or fault. -/
theorem Within.answer_eq {oracle other : Index → Except Fault Ty} {x : Inquiry α}
    (within : x.Within (fun i => (oracle i).toOption) fun i => other i = oracle i) :
    x.answer other = x.answer oracle := by
  induction x with
  | done a => rfl
  | fail e => rfl
  | ask i resume ih =>
    rw [answer, answer, within.1]
    exact Except.bind_congr fun ty told => ih ty (within.2 ty (Except.toOption_eq_some_iff.2 told))

/-- An inquiry that itself fails for certain reasons only, whatever it is told. -/
def Fails (reason : Fault → Prop) : Inquiry α → Prop
  | done _ => True
  | fail e => reason e
  | ask _ resume => ∀ ty, (resume ty).Fails reason

variable {reason : Fault → Prop}

theorem fails_pure (a : α) : (pure a : Inquiry α).Fails reason := trivial

theorem fails_typeOf (i : Index) : (typeOf i).Fails reason := fun _ => trivial

theorem fails_ofExcept {x : Except Fault α} (given : ∀ e, x = .error e → reason e) :
    (ofExcept x).Fails reason := by
  cases x with
  | ok a => trivial
  | error e => exact given e rfl

theorem fails_bind {x : Inquiry α} {f : α → Inquiry β} (first : x.Fails reason)
    (later : ∀ a, (f a).Fails reason) : (x >>= f).Fails reason := by
  induction x with
  | done a => exact later a
  | fail e => exact first
  | ask i resume ih => exact fun ty => ih ty (first ty)

theorem fails_typesOf (items : List Index) : (typesOf items).Fails reason := by
  induction items with
  | nil => trivial
  | cons i rest ih =>
    exact fails_bind (fails_typeOf i) fun _ => fails_bind ih fun _ => fails_pure _

theorem Fails.answer_error {oracle : Index → Except Fault Ty} {P : Index → Prop} {x : Inquiry α}
    (fails : x.Fails reason) (within : x.Within (fun i => (oracle i).toOption) P)
    (told : ∀ i e, P i → oracle i = .error e → reason e) {e : Fault} (h : x.answer oracle = .error e) :
    reason e := by
  induction x with
  | done a => cases h
  | fail e' =>
    cases h
    exact fails
  | ask i resume ih =>
    rw [answer] at h
    cases answered : oracle i with
    | error e' =>
      rw [answered] at h
      cases h
      exact told i e within.1 answered
    | ok ty =>
      rw [answered, Except.ok_bind] at h
      exact ih ty (fails ty) (within.2 ty (Except.toOption_eq_some_iff.2 answered)) h

end Inquiry

/-- A fault other than that a type depends on itself. -/
def Fault.Grounded (e : Fault) : Prop := ∀ i snapshot, e ≠ .structural (.selfTyped i) snapshot

/-- Whether a walk went in a circle, or longer than its bound. -/
def Defect.isCircle : Defect → Bool
  | .selfTyped _ | .endless _ | .unsettled => true
  | _ => false

/-- A fault found where a walk came to an end. -/
def Fault.Definite : Fault → Prop
  | .structural defect _ => defect.isCircle = false
  | _ => True

theorem Fault.Definite.grounded {e : Fault} (definite : e.Definite) : e.Grounded := by
  rintro i snapshot rfl
  cases definite

namespace Buffer

variable {b : Buffer} {e : Fault}

theorem atom_definite {i : Index} (h : b.atom i = .error e) : e.Definite := by
  unfold atom at h
  split at h
  · cases h
  · cases h
    exact rfl

theorem expandList_definite {i : Index} (h : b.expandList i = .error e) : e.Definite := by
  fun_induction b.expandList i with
  | case1 | case2 => cases h
  | case3 n item k found below ih =>
    cases rest : b.expandList (.ref k) with
    | ok items => rw [rest] at h; cases h
    | error e' => rw [rest] at h; cases h; exact ih rest
  | case4 | case5 | case6 =>
    cases h
    rfl

theorem fieldsFrom_definite {head i : Index} (h : b.fieldsFrom head i = .error e) : e.Definite := by
  fun_induction b.fieldsFrom head i with
  | case2 => cases h
  | case4 n item down k found below ih =>
    cases rest : b.fieldsFrom head (.ref k) with
    | ok items => rw [rest] at h; cases h
    | error e' => rw [rest] at h; cases h; exact ih rest
  | _ =>
    cases h
    rfl

theorem fieldChain_definite {head : Index} (h : b.fieldChain head = .error e) : e.Definite := by
  unfold fieldChain at h
  cases rest : b.fieldsFrom head head with
  | error e' => rw [rest] at h; cases h; exact fieldsFrom_definite rest
  | ok fields =>
    rw [rest, Except.ok_bind] at h
    split at h
    · cases h
      exact rfl
    · cases h

end Buffer

namespace Overload

variable {e : Fault} {args : List Ty}

theorem select_definite {target : String} {candidates : List Signature}
    (h : select target candidates args = .error e) : e.Definite := by
  unfold select at h
  split at h
  · cases h
  · cases h
    trivial

theorem intrinsic_definite {code : Intrinsic} (h : intrinsic code args = .error e) : e.Definite := by
  unfold intrinsic at h
  split at h
  · unfold resource at h
    simp only at h
    split at h
    · cases h
      trivial
    · exact select_definite h
  · exact select_definite h

end Overload

namespace Typing

open Inquiry

variable {b : Buffer}

/-! ### Rules do not depend on themselves -/

section

variable {i : Index}

theorem typeNode_fails (item : Prim) (down next : Index) :
    (typeNode b i item down next).Fails Fault.Definite := by
  unfold typeNode
  refine fails_bind ?_ fun d => ?_
  · split
    · trivial
    · split
      · exact fails_bind (fails_ofExcept fun _ => Buffer.fieldChain_definite) fun _ => trivial
      · exact rfl
  · split
    · trivial
    · refine fails_bind (fails_ofExcept fun _ => Buffer.atom_definite) fun found => ?_
      split
      · exact fails_bind (fails_typeOf next) fun _ => trivial
      · exact rfl

theorem base_fails (ty : Ty) : (base b i ty).Fails Fault.Definite := by
  unfold base
  split
  · trivial
  · exact rfl

theorem qualifier_fails (underlying : Index) (kind : Qualifier) (number : Int32) :
    (qualifier b i underlying kind number).Fails Fault.Definite := by
  unfold qualifier
  split
  · trivial
  · trivial
  · trivial
  · refine fails_bind (fails_typeOf underlying) fun ty => ?_
    unfold refined
    split
    all_goals first | trivial | exact fails_bind (base_fails ty) fun _ => trivial

theorem swizzle_fails (code : Swizzle) (ty : Ty) : (swizzle b i code ty).Fails Fault.Definite := by
  unfold swizzle
  split
  · split
    · trivial
    · exact rfl
  · exact rfl

theorem load_fails (field : Int32) (ty : Ty) : (load b i field ty).Fails Fault.Definite := by
  unfold load
  split
  · trivial
  · split
    · refine fails_bind (fails_ofExcept fun _ => Buffer.fieldChain_definite) fun fields => ?_
      split
      · exact fails_bind (fails_typeOf _) fun _ => trivial
      · exact rfl
    · exact rfl

theorem element_fails (ty : Ty) : (element b i ty).Fails Fault.Definite := by
  unfold element
  split
  · trivial
  · trivial
  · trivial
  · split
    · trivial
    · split
      · trivial
      · exact rfl
  · exact rfl

theorem rule_fails (a : Atom) : (rule b i a).Fails Fault.Definite := by
  unfold rule
  split
  · exact typeNode_fails _ _ _
  · exact qualifier_fails _ _ _
  · trivial
  · exact fails_bind (fails_typeOf _) fun _ => swizzle_fails _ _
  · refine fails_bind (fails_typesOf _) fun _ => fails_ofExcept fun _ => ?_
    exact Overload.select_definite
  · refine fails_bind (fails_ofExcept fun _ => Buffer.expandList_definite) fun _ => ?_
    exact fails_bind (fails_typesOf _) fun _ => fails_ofExcept fun _ => Overload.intrinsic_definite
  · exact fails_bind (fails_typeOf _) fun _ => trivial
  · exact fails_bind (fails_typeOf _) fun _ => trivial
  · exact fails_bind (fails_typeOf _) fun _ => trivial
  · exact fails_bind (fails_typeOf _) fun _ => load_fails _ _
  · exact fails_bind (fails_typeOf _) fun _ => element_fails _
  all_goals trivial

end

/-! ### The recursion -/

/-- The type of an atom by its rule, every answer worked out anew.  A question about an atom that does
not come before this one would lead in a circle. -/
def direct (b : Buffer) (i : Index) : Except Fault Ty :=
  match i with
  | .null => .ok .nil
  | .ref n =>
    match b.atoms[n]? with
    | none => .error (b.fault (.unresolved (.ref n)))
    | some a => (rule b (.ref n) a).answer fun j =>
      if j < .ref n then direct b j else .error (b.fault (.selfTyped j))
termination_by i.rank

def directTypes (b : Buffer) (i : Index) : Option Ty := (direct b i).toOption

theorem direct_null (b : Buffer) : direct b .null = .ok .nil := by
  rw [direct]

theorem direct_missing {n : Nat} (absent : b.atoms[n]? = none) :
    direct b (.ref n) = .error (b.fault (.unresolved (.ref n))) := by
  rw [direct, absent]

theorem direct_guarded {n : Nat} {a : Atom} (found : b.atoms[n]? = some a) :
    direct b (.ref n) = (rule b (.ref n) a).answer fun j =>
      if j < .ref n then direct b j else .error (b.fault (.selfTyped j)) := by
  rw [direct, found]

theorem directTypes_ruled (b : Buffer) : Ruled b (directTypes b) := by
  refine ⟨by rw [directTypes, direct_null]; rfl, fun n ty told => ?_⟩
  unfold directTypes at told
  cases found : b.atoms[n]? with
  | none => rw [direct_missing found] at told; cases told
  | some a =>
    refine ⟨a, rfl, ?_⟩
    rw [direct_guarded found, toOption_answer] at told
    refine value?_mono (fun j ty' known => ?_) told
    split at known
    · exact known
    · cases known

/-- Where addresses lead backwards no question leads in a circle. -/
theorem direct_eq (backward : b.Backward) {n : Nat} {a : Atom} (found : b.atoms[n]? = some a) :
    direct b (.ref n) = (rule b (.ref n) a).answer (direct b) := by
  rw [direct_guarded found]
  exact ((rule_within (directTypes_ruled b) backward found).imp fun j early => if_pos early).answer_eq

theorem direct_definite (backward : b.Backward) {i : Index} {e : Fault} (h : direct b i = .error e) :
    e.Definite := by
  cases i with
  | null => rw [direct_null] at h; cases h
  | ref n =>
    induction n using Nat.strongRecOn generalizing e with
    | ind n ih =>
      cases found : b.atoms[n]? with
      | none =>
        rw [direct_missing found] at h
        cases h
        rfl
      | some a =>
        rw [direct_eq backward found] at h
        refine (rule_fails a).answer_error (rule_within (directTypes_ruled b) backward found) ?_ h
        intro j e' early failed
        cases j with
        | null => rw [direct_null] at failed; cases failed
        | ref k => exact ih k (Index.ref_lt_ref.1 early) failed

/-! ### Analysis tells what the recursion finds -/

/-- A run that ends as the recursion does, with knowledge that agrees with it and the rules running
that were running before. -/
def Tells {α : Type} (b : Buffer) (x : ExceptT Fault (StateM Memo) α) (answer : Except Fault α)
    (m : Memo) : Prop :=
  ∃ m', outcome x m = (answer, m') ∧ Agrees b (directTypes b) m' ∧ running m' = running m

theorem answer_tells {α : Type} {oracle : Index → ExceptT Fault (StateM Memo) Ty} {P : Index → Prop}
    (told : ∀ i m, P i → Agrees b (directTypes b) m → (∀ n, P (.ref n) → running m n = false) →
      Tells b (oracle i) (direct b i) m)
    {x : Inquiry α} (within : x.Within (directTypes b) P) {m : Memo}
    (agrees : Agrees b (directTypes b) m) (idle : ∀ n, P (.ref n) → running m n = false) :
    Tells b (x.answer oracle) (x.answer (direct b)) m := by
  induction x generalizing m with
  | done a => exact ⟨m, rfl, agrees, rfl⟩
  | fail e => exact ⟨m, rfl, agrees, rfl⟩
  | ask i resume ih =>
    obtain ⟨m₁, asked, agrees₁, steady⟩ := told i m within.1 agrees idle
    rw [answer, answer]
    unfold Tells
    rw [outcome_bind, asked]
    cases answered : direct b i with
    | error e => exact ⟨m₁, rfl, agrees₁, steady⟩
    | ok ty =>
      have known : directTypes b i = some ty := Except.toOption_eq_some_iff.2 answered
      obtain ⟨m₂, ended, agrees₂, steady'⟩ :=
        ih ty (within.2 ty known) agrees₁ (by rw [steady]; exact idle)
      exact ⟨m₂, ended, agrees₂, steady'.trans steady⟩

theorem outcome_typeOf_new {fuel n : Nat} {m : Memo} {a : Atom} (found : b.atoms[n]? = some a)
    (uncached : known m.types (.ref n) = none) (idle : running m n = false) :
    outcome (typeOf b (fuel + 1) (.ref n)) m =
      match outcome ((rule b (.ref n) a).answer (typeOf b fuel)) (m.setActive n true) with
      | (.ok ty, m') => (.ok ty, (m'.setActive n false).record b n ty)
      | (.error e, m') => (.error e, m'.setActive n false) := by
  have absent : ∀ ty, m.types[n]? ≠ some (some ty) := by
    intro ty entry
    rw [known, entry] at uncached
    cases uncached
  have still : (m.active[n]?.getD false) = false := idle
  rw [typeOf, outcome_get_bind]
  simp only [found, still, Bool.false_eq_true, ↓reduceIte]
  rcases ran : outcome ((rule b (.ref n) a).answer (typeOf b fuel)) (m.setActive n true)
    with ⟨result, m'⟩
  have asked : outcome (ExceptT.lift
      ((rule b (.ref n) a).answer (typeOf b fuel) : ExceptT Fault (StateM Memo) Ty).run :
        ExceptT Fault (StateM Memo) (Except Fault Ty)) (m.setActive n true) = (.ok result, m') :=
    Succeeds.of_lift_run.2 ran
  rw [outcome_bind]
  change outcome (ExceptT.lift _ >>= _) (m.setActive n true) = _
  rw [outcome_bind, asked]
  cases result <;> rfl

/-- One question: fuel for the atoms before it suffices, and those must not be running. -/
theorem typeOf_tells (backward : b.Backward) (fuel : Nat) :
    ∀ i m, i.rank ≤ fuel ∨ b.size < fuel → Agrees b (directTypes b) m →
      (∀ n, Index.ref n ≤ i → running m n = false) → Tells b (typeOf b fuel i) (direct b i) m := by
  induction fuel with
  | zero =>
    intro i m enough agrees _
    cases i with
    | null => exact ⟨m, by rw [direct_null]; rfl, agrees, rfl⟩
    | ref n => simp [Index.rank] at enough
  | succ fuel ih =>
    intro i m enough agrees idle
    cases i with
    | null => exact ⟨m, by rw [direct_null]; rfl, agrees, rfl⟩
    | ref n =>
      have still : running m n = false := idle n (Nat.le_refl _)
      cases found : b.atoms[n]? with
      | none =>
        refine ⟨m, ?_, agrees, rfl⟩
        rw [direct_missing found, typeOf, outcome_get_bind]
        simp only [found]
        rfl
      | some a =>
        have inside : n < b.size := (Array.getElem?_eq_some_iff.1 found).1
        cases cached : known m.types (.ref n) with
        | some ty =>
          have told := Except.toOption_eq_some_iff.1 (agrees.2 _ _ cached)
          exact ⟨m, by rw [told]; exact typeOf_known found cached, agrees, rfl⟩
        | none =>
          have early : ∀ k, Index.ref k < .ref n → k ≠ n := fun k below =>
            Nat.ne_of_lt (Index.ref_lt_ref.1 below)
          have told : ∀ j m', j < .ref n → Agrees b (directTypes b) m' →
              (∀ k, Index.ref k < .ref n → running m' k = false) →
              Tells b (typeOf b fuel j) (direct b j) m' := by
            intro j m' below agrees' idle'
            have below : j.rank < n + 1 := below
            simp only [Index.rank] at enough
            exact ih j m' (Or.inl (by omega)) agrees' fun k upTo => idle' k (Nat.lt_of_le_of_lt upTo below)
          have others : ∀ k, Index.ref k < .ref n → running (m.setActive n true) k = false := by
            intro k below
            rw [running_setActive_of_ne m true (Nat.ne_of_lt (Index.ref_lt_ref.1 below))]
            exact idle k (Nat.le_of_lt below)
          obtain ⟨m₁, ran, agrees₁, steady⟩ := answer_tells told
            (rule_within (directTypes_ruled b) backward found) (m := m.setActive n true) agrees others
          have ended := running_restored still steady
          unfold Tells
          rw [outcome_typeOf_new found cached still, ran, ← direct_eq backward found]
          cases result : direct b (.ref n) with
          | error e => exact ⟨_, rfl, agrees₁, ended⟩
          | ok ty =>
            exact ⟨_, rfl, agrees₁.record inside (Except.toOption_eq_some_iff.2 result), ended⟩

/-- What is known after questions were asked one after the other, each answered or refused. -/
def asked (b : Buffer) (questions : List Index) : Memo :=
  questions.foldl (fun m i => (outcome (typeOf b (depth b) i) m).2) (Memo.empty b)

theorem asked_agrees (backward : b.Backward) (questions : List Index) :
    Agrees b (directTypes b) (asked b questions) ∧ ∀ n, running (asked b questions) n = false := by
  refine List.foldlRecOn (motive := fun m => Agrees b (directTypes b) m ∧ ∀ n, running m n = false)
    questions _ ⟨agrees_empty b (directTypes_ruled b).null, idle_empty b⟩ ?_
  rintro m ⟨agrees, idle⟩ i _
  obtain ⟨m', ran, agrees', steady⟩ := typeOf_tells backward (depth b) i m
    (Or.inr (Nat.lt_succ_self _)) agrees fun n _ => idle n
  rw [ran, steady]
  exact ⟨agrees', idle⟩

theorem typeOf_asked (backward : b.Backward) (questions : List Index) (i : Index) :
    (outcome (typeOf b (depth b) i) (asked b questions)).1 = direct b i := by
  obtain ⟨agrees, idle⟩ := asked_agrees backward questions
  obtain ⟨m, ran, _, _⟩ := typeOf_tells backward (depth b) i _ (Or.inr (Nat.lt_succ_self _)) agrees
    fun n _ => idle n
  rw [ran]

theorem infer_eq_direct (backward : b.Backward) (i : Index) : infer b i = direct b i :=
  typeOf_asked backward [] i

theorem mapM_typeOf_definite (backward : b.Backward) {items : List (Index × Atom)} {m m' : Memo} {e : Fault}
    (agrees : Agrees b (directTypes b) m) (idle : ∀ n, running m n = false)
    (h : outcome (items.mapM fun (i, _) => typeOf b (depth b) i) m = (.error e, m')) : e.Definite := by
  induction items generalizing m with
  | nil => cases h
  | cons first rest ih =>
    obtain ⟨m₁, ran, agrees₁, steady⟩ := typeOf_tells backward (depth b) first.1 m
      (Or.inr (Nat.lt_succ_self _)) agrees fun n _ => idle n
    rw [List.mapM_cons] at h
    rcases outcome_bind_error h with failed | ⟨ty, m₂, answered, h⟩
    · exact direct_definite backward (Prod.mk.inj (ran.symm.trans failed)).1
    · obtain rfl : m₁ = m₂ := (Prod.mk.inj (ran.symm.trans answered)).2
      rcases outcome_bind_error h with failed | ⟨_, _, _, done⟩
      · exact ih agrees₁ (by rw [steady]; exact idle) failed
      · cases done

theorem analyze_definite (backward : b.Backward) : FailsFor Fault.Definite (analyze b) := by
  intro e h
  unfold analyze at h
  simp only at h
  split at h
  · cases h
  · rename_i memo failed
    cases h
    exact mapM_typeOf_definite backward (agrees_empty b (directTypes_ruled b).null) (idle_empty b) failed

theorem direct_of_analyze {c : Buffer} {types : List Ty} {hints : IndexMap Decoration}
    (analyzed : analyze b = .ok (types, hints)) (backward : c.Backward) (same : b.atoms = c.atoms)
    {i : Index} {ty : Ty} (known : table types.toArray i = some ty) : direct c i = .ok ty := by
  obtain ⟨log, derived, all⟩ := analyze_derived analyzed
  rw [← infer_eq_direct backward]
  exact (derived.congr same).infer_eq (by rw [all, known])

/-- The buffer that an analysis leaves answers every question as the recursion does, on it and on the
buffer before. -/
theorem analyzed_typeOf (backward : b.Backward) {c : Buffer} (analyzed : Succeeds Buffer.analyze b () c)
    (i : Index) : c.typeOf i = direct c i ∧ (c.typeOf i).toOption = (direct b i).toOption := by
  obtain ⟨types, hints, found, rfl⟩ := Buffer.analyze_succeeds.1 analyzed
  have typed : (b.withAnalysis types hints).Typed := Buffer.typed_of_analyze found rfl rfl
  have backward' : (b.withAnalysis types hints).Backward := backward.of_atoms_eq rfl
  cases known : table types.toArray i with
  | some ty =>
    rw [typed.typeOf_ok_iff.2 known, direct_of_analyze found backward' rfl known,
      direct_of_analyze found backward rfl known]
    exact ⟨rfl, rfl⟩
  | none =>
    cases i with
    | null => cases known
    | ref n =>
      have outside : b.size ≤ n := by
        rw [← (analyze_sound found).1]
        exact Array.getElem?_eq_none_iff.1 known
      have absent : b.atoms[n]? = none := Array.getElem?_eq_none outside
      have missing : (b.withAnalysis types hints).types[n]? = none := known
      have asked : (b.withAnalysis types hints).typeOf (.ref n) =
          infer (b.withAnalysis types hints) (.ref n) := by
        unfold Buffer.typeOf
        simp [Buffer.cachedType?, Index.pos?, missing]
      rw [asked, infer_eq_direct backward', direct_missing (b := b) absent,
        direct_missing (b := b.withAnalysis types hints) absent]
      exact ⟨rfl, rfl⟩

/-- However many questions were asked before, and however they ended, a question ends as the recursion
does, and never because a type depends on itself. Analysis remembers what the recursion finds. -/
theorem inference_direct (valid : b.validate = .ok ()) :
    (∀ questions i, (outcome (typeOf b (depth b) i) (asked b questions)).1 = direct b i) ∧
      (∀ i e, direct b i = .error e → e.Grounded) ∧
      ∀ c, Succeeds Buffer.analyze b () c → ∀ i,
        c.typeOf i = direct c i ∧ (c.typeOf i).toOption = (direct b i).toOption := by
  have backward := Buffer.backward_of_validate valid
  exact ⟨typeOf_asked backward, fun _ _ failed => (direct_definite backward failed).grounded,
    fun _ analyzed => analyzed_typeOf backward analyzed⟩

/-- A struct of a float, a value of it, and its field. -/
def reading : Buffer :=
  .ofContent [.type .nil .null .null, .type .f32 .null (.ref 0), .type .nil (.ref 1) .null,
    .construct (.ref 2) .null .normal, .load (.ref 3) 0] [] []

/-- The field added to the whole struct, which has no type. -/
def misreading : Buffer := reading.emit (.operation .addition (.ref 4) (.ref 3))

/-- The refused sum asked about first, then the field. -/
theorem misreading_direct :
    misreading.validate = .ok () ∧
      (outcome (typeOf misreading (depth misreading) (.ref 4)) (asked misreading [.ref 5, .ref 9])).1 =
        direct misreading (.ref 4) ∧
      direct misreading (.ref 4) = .ok (.prim .f32) ∧ (direct misreading (.ref 5)).toOption = none ∧
      reading.validate = .ok () ∧ ∃ c, Succeeds Buffer.analyze reading () c ∧
        c.typeOf (.ref 4) = direct c (.ref 4) ∧ c.typeOf (.ref 4) = .ok (.prim .f32) := by
  have valid : misreading.validate = .ok () := Except.toOption_eq_some_iff.1 (by decide +kernel)
  have valid' : reading.validate = .ok () := Except.toOption_eq_some_iff.1 (by decide +kernel)
  obtain ⟨ends, _, _⟩ := inference_direct valid
  obtain ⟨_, _, remembers⟩ := inference_direct valid'
  have field : direct misreading (.ref 4) = .ok (.prim .f32) := by
    rw [← ends [.ref 5, .ref 9], ← Except.toOption_eq_some_iff]
    decide +kernel
  have sum : (direct misreading (.ref 5)).toOption = none := by
    rw [← ends []]
    decide +kernel
  have known : (Buffer.analyze.exec reading).toOption.any (fun c =>
      (c.typeOf (.ref 4)).toOption == some (.prim .f32)) = true := by decide +kernel
  simp only [Option.any_eq_true, Except.toOption_eq_some_iff, Edit.exec_ok_iff, beq_iff_eq] at known
  obtain ⟨c, ⟨⟨⟩, analyzed⟩, told⟩ := known
  exact ⟨valid, ends _ _, field, sum, valid', c, analyzed, (remembers c analyzed _).1, told⟩

end Typing

end ShaderForge
