import ShaderForge.Proofs.Native.Extent

/-!
The statements of a function, one after the other. A statement gives at most its own atom a slot, so each
does what it does with the slots at the end; what a machine takes in the end it takes all along.
-/

namespace ShaderForge.Native

open Buffer Linkage

variable {s : Scope} {st next last : State} {i : Index} {a : Atom} {e : Expr}

/-! ### Slots -/

def fills (b : Buffer) (i : Index) : Atom → Bool
  | .literal _ | .swizzle .. | .operation .. | .load .. | .access .. | .construct _ _ .normal => true
  | .intrinsic code _ => !code.isLayout && (b.typeOf i).toOption.any fun ty => !ty.isNil
  | .call .. => (b.typeOf i).toOption.any fun ty => !ty.isNil
  | _ => false

theorem bind_slots (h : st.bind s i e = .ok next) : ∃ ts, next.slots = st.slots.insert i ts := by
  unfold State.bind at h
  obtain ⟨ts, _, h⟩ := Except.bind_ok h
  simp only at h
  split at h
  · cases h
  · cases h
    exact ⟨_, rfl⟩

theorem branch_slots {kind : BranchKind} {cond : Index} (h : Native.branch s st i kind cond = .ok next) :
    next.slots = st.slots := by
  have alternative : ∀ {condition}, alternative s st i kind condition = .ok next → next.slots = st.slots := by
    intro condition h
    unfold Native.alternative at h
    split at h
    · obtain ⟨_, _, h⟩ := Except.bind_ok h
      cases h
      rfl
    · cases h
  unfold Native.branch at h
  cases kind with
  | ifThen | whileLoop | forLoop =>
    obtain ⟨_, _, h⟩ := Except.bind_ok h
    cases h
    rfl
  | elseIf | otherwise => exact alternative h
  | next | leave =>
    simp only at h
    split at h <;> cases h
    rfl
  | close =>
    change Native.close s st i = .ok next at h
    unfold Native.close at h
    split at h <;> cases h <;> rfl

/-- What a statement that fills no slot does. -/
inductive Extends (s : Scope) (st : State) (i : Index) : State → Prop
  | still : Extends s st i st
  | append (c : Code) : Extends s st i (st.append c)
  | branch {kind : BranchKind} {cond : Index} {next : State} (turned : Native.branch s st i kind cond = .ok next) :
      Extends s st i next

theorem act_cases (h : Scopes.act s st i a = .ok next) :
    (fills s.buffer i a = true ∧ ∃ e, st.bind s i e = .ok next) ∨ fills s.buffer i a = false ∧ Extends s st i next := by
  have bound : (s.fresh i >>= st.bind s i) = .ok next → ∃ e, st.bind s i e = .ok next := by
    intro h
    obtain ⟨e, _, h⟩ := Except.bind_ok h
    exact ⟨e, h⟩
  have effect : Native.effect s st i = .ok next →
      ((s.buffer.typeOf i).toOption.any fun ty => !ty.isNil) = true ∧ (∃ e, st.bind s i e = .ok next) ∨
        ((s.buffer.typeOf i).toOption.any fun ty => !ty.isNil) = false ∧ Extends s st i next := by
    intro h
    unfold Native.effect at h
    obtain ⟨ty, known, h⟩ := Except.bind_ok h
    unfold Member.typeOf at known
    rw [TargetFault.ofFault_ok_iff] at known
    rw [known]
    split at h
    · rename_i nothing
      obtain ⟨e, _, h⟩ := Except.bind_ok h
      cases h
      exact Or.inr ⟨by simp [Except.toOption, nothing], .append (.discard e)⟩
    · rename_i something
      exact Or.inl ⟨by simpa [Except.toOption] using something, bound h⟩
  cases a with
  | qualifier | type | list =>
    cases h
    exact Or.inr ⟨rfl, .still⟩
  | store dst src =>
    simp only [Scopes.act] at h
    obtain ⟨_, _, h⟩ := Except.bind_ok h
    obtain ⟨_, _, h⟩ := Except.bind_ok h
    refine Or.inr ⟨rfl, ?_⟩
    split at h
    · cases h
    · split at h <;> cases h
      exact .append _
  | ret result =>
    rw [Scopes.act_ret] at h
    refine Or.inr ⟨rfl, ?_⟩
    split at h
    · cases h
      exact .append _
    · obtain ⟨_, _, h⟩ := Except.bind_ok h
      obtain ⟨_, _, h⟩ := Except.bind_ok h
      cases h
      exact .append _
  | branch kind cond failto => exact Or.inr ⟨rfl, .branch h⟩
  | intrinsic code args =>
    simp only [Scopes.act] at h
    simp only [fills]
    split at h
    · rename_i layout
      cases h
      exact Or.inr ⟨by simp [layout], .still⟩
    · rename_i other
      simp only [other, Bool.not_false, Bool.true_and]
      exact effect h
  | call id ty args => exact effect h
  | construct ty args mode =>
    cases mode with
    | transient =>
      cases h
      exact Or.inr ⟨rfl, .still⟩
    | normal =>
      refine Or.inl ⟨rfl, ?_⟩
      rw [Scopes.act_construct] at h
      split at h
      · obtain ⟨ts, _, h⟩ := Except.bind_ok h
        exact ⟨.zeros ts, h⟩
      · exact bound h
  | literal | swizzle | operation | load | access => exact Or.inl ⟨rfl, bound h⟩

theorem Extends.slots (adds : Extends s st i next) : next.slots = st.slots := by
  cases adds with
  | still | append => rfl
  | branch turned => exact branch_slots turned

theorem act_slots (h : Scopes.act s st i a = .ok next) {j : Index} (other : i ≠ j) :
    next.slots[j]? = st.slots[j]? := by
  rcases act_cases h with ⟨_, e, bound⟩ | ⟨_, adds⟩
  · obtain ⟨ts, same⟩ := bind_slots bound
    rw [same]
    simp [Std.ExtTreeMap.getElem?_insert, other]
  · rw [adds.slots]

theorem foldlM_slots {items : List Index} (h : items.foldlM (statement s) st = .ok last) {j : Index}
    (other : j ∉ items) : last.slots[j]? = st.slots[j]? := by
  induction items generalizing st with
  | nil =>
    cases h
    rfl
  | cons i rest ih =>
    rw [List.foldlM_cons] at h
    obtain ⟨next, first, h⟩ := Except.bind_ok h
    rw [Scopes.statement_eq] at first
    obtain ⟨a, _, first⟩ := Except.bind_ok first
    rw [ih h fun member => other (List.mem_cons_of_mem _ member),
      act_slots first fun same => other (same ▸ List.mem_cons_self)]

/-- The first of some statements does what it does with the slots at the end. -/
theorem statement_final {n : Nat} {rest : List Index} (ascending : (Index.ref n :: rest).Pairwise (· < ·))
    (orderly : ({ s with slots := last.slots } : Scope).Orderly)
    (h : (Index.ref n :: rest).foldlM (statement s) st = .ok last) :
    ∃ a next, s.buffer.atoms[n]? = some a ∧
      Scopes.act { s with slots := last.slots } st (.ref n) a = .ok next ∧
      rest.foldlM (statement s) next = .ok last ∧ next.slots[Index.ref n]? = last.slots[Index.ref n]? ∧
      ∀ j, j < Index.ref n → st.slots[j]? = last.slots[j]? := by
  obtain ⟨later, _⟩ := List.pairwise_cons.1 ascending
  have settled : ∀ j, j < Index.ref n → st.slots[j]? = last.slots[j]? := by
    intro j before
    refine (foldlM_slots h fun member => ?_).symm
    rcases List.mem_cons.1 member with rfl | member
    · exact absurd before (Nat.lt_irrefl _)
    · exact absurd (Nat.lt_trans before (later j member)) (Nat.lt_irrefl _)
  rw [List.foldlM_cons] at h
  obtain ⟨next, first, h⟩ := Except.bind_ok h
  rw [Scopes.statement_eq] at first
  obtain ⟨a, answer, acted⟩ := Except.bind_ok first
  obtain ⟨_, same, found⟩ := atom_found answer
  cases same
  have named : st.slots[Index.null]? = none := (settled .null (Nat.succ_pos n)).trans orderly.named
  have early : s.buffer.UseClosed (· < Index.ref n) := fun m _ own found o used =>
    Nat.lt_trans (orderly.backward.address_lt found (Atom.mem_operands.1 used).2) own
  refine ⟨a, next, found, ?_, h, (foldlM_slots h fun member => absurd (later _ member) (Nat.lt_irrefl _)).symm, settled⟩
  exact Scope.Orderly.act (s := { s with slots := st.slots }) ⟨orderly.backward, named⟩ found (Nat.succ_pos n) early
    (fun o used => orderly.backward.address_lt found (Atom.mem_operands.1 used).2) (fun j before => (settled j before).symm)
    st _ acted

/-! ### What a machine takes -/

/-- An open block whose code so far a machine takes. -/
def Frame.Accepted : Frame → Prop
  | conditional outer arms _ => outer.accepted = true ∧ ∀ arm ∈ arms, arm.2.accepted = true
  | loop outer _ => outer.accepted = true

/-- Code so far that a machine takes. -/
structure State.Accepted (st : State) : Prop where
  code : st.code.accepted = true
  frames : ∀ frame ∈ st.frames, frame.Accepted

theorem State.Accepted.append {c : Code} (accepted : (st.append c).Accepted) : st.Accepted ∧ c.accepted = true := by
  have code := accepted.code
  simp only [State.append, Code.accepted, Bool.and_eq_true] at code
  exact ⟨⟨code.1, accepted.frames⟩, code.2⟩

theorem bind_accepted (h : st.bind s i e = .ok next) (accepted : next.Accepted) : st.Accepted ∧ e.accepted = true := by
  unfold State.bind at h
  obtain ⟨ts, _, h⟩ := Except.bind_ok h
  simp only at h
  split at h
  · cases h
  · cases h
    exact State.Accepted.append (c := .assign i (ts.take e.width).length e) ⟨accepted.code, accepted.frames⟩

theorem arms_accepted {finished : List (Expr × Code)} {otherwise : Code}
    (accepted : (arms finished otherwise).accepted = true) :
    (∀ arm ∈ finished, arm.2.accepted = true) ∧ otherwise.accepted = true := by
  induction finished with
  | nil => exact ⟨fun arm member => absurd member List.not_mem_nil, accepted⟩
  | cons arm rest ih =>
    change (Code.branch arm.1 arm.2 (arms rest otherwise)).accepted = true at accepted
    simp only [Code.accepted, Bool.and_eq_true] at accepted
    obtain ⟨each, last⟩ := ih accepted.2
    exact ⟨List.forall_mem_cons.2 ⟨accepted.1.2, each⟩, last⟩

theorem close_accepted (h : Native.close s st i = .ok next) (accepted : next.Accepted) : st.Accepted := by
  unfold Native.close at h
  split at h
  · rename_i outer finished pending frames blocks
    cases h
    have code := accepted.code
    rw [Code.accepted, Bool.and_eq_true] at code
    have inside : (∀ arm ∈ finished, arm.2.accepted = true) ∧ st.code.accepted = true := by
      cases pending with
      | none => exact arms_accepted code.2
      | some condition =>
        obtain ⟨each, _⟩ := arms_accepted code.2
        exact ⟨fun arm member => each arm (List.mem_append_left _ member),
          each _ (List.mem_append_right _ (List.mem_singleton_self _))⟩
    exact ⟨inside.2, blocks ▸ List.forall_mem_cons.2 ⟨⟨code.1, inside.1⟩, accepted.frames⟩⟩
  · rename_i outer condition frames blocks
    cases h
    have code := accepted.code
    simp only [Code.accepted, Bool.and_eq_true] at code
    exact ⟨code.2.2, blocks ▸ List.forall_mem_cons.2 ⟨code.1, accepted.frames⟩⟩
  · cases h

theorem alternative_accepted {kind : BranchKind} {condition : Lowered (Option Expr)}
    (h : alternative s st i kind condition = .ok next) (accepted : next.Accepted) : st.Accepted := by
  unfold alternative at h
  split at h
  · rename_i outer finished pending frames blocks
    obtain ⟨e, _, h⟩ := Except.bind_ok h
    cases h
    obtain ⟨⟨outside, each⟩, later⟩ := List.forall_mem_cons.1 accepted.frames
    exact ⟨each _ (List.mem_append_right _ (List.mem_singleton_self _)), blocks ▸
      List.forall_mem_cons.2 ⟨⟨outside, fun arm member => each arm (List.mem_append_left _ member)⟩, later⟩⟩
  · cases h

theorem branch_accepted {kind : BranchKind} {cond : Index} (h : Native.branch s st i kind cond = .ok next)
    (accepted : next.Accepted) : st.Accepted := by
  unfold Native.branch at h
  cases kind with
  | ifThen =>
    obtain ⟨_, _, h⟩ := Except.bind_ok h
    cases h
    obtain ⟨⟨code, _⟩, frames⟩ := List.forall_mem_cons.1 accepted.frames
    exact ⟨code, frames⟩
  | whileLoop | forLoop =>
    obtain ⟨_, _, h⟩ := Except.bind_ok h
    cases h
    obtain ⟨code, frames⟩ := List.forall_mem_cons.1 accepted.frames
    exact ⟨code, frames⟩
  | elseIf | otherwise => exact alternative_accepted h accepted
  | next | leave =>
    simp only at h
    split at h <;> cases h
    exact accepted.append.1
  | close => exact close_accepted h accepted

theorem act_accepted (h : Scopes.act s st i a = .ok next) (accepted : next.Accepted) : st.Accepted := by
  rcases act_cases h with ⟨_, e, bound⟩ | ⟨_, still | append | turned⟩
  · exact (bind_accepted bound accepted).1
  · exact accepted
  · exact accepted.append.1
  · exact branch_accepted turned accepted

theorem foldlM_accepted {items : List Index} (h : items.foldlM (statement s) st = .ok last) (accepted : last.Accepted) :
    st.Accepted := by
  induction items generalizing st with
  | nil =>
    cases h
    exact accepted
  | cons i rest ih =>
    rw [List.foldlM_cons] at h
    obtain ⟨next, first, h⟩ := Except.bind_ok h
    rw [Scopes.statement_eq] at first
    obtain ⟨a, _, first⟩ := Except.bind_ok first
    exact act_accepted first (ih h)

/-! ### Each statement -/

/-- Where one of some statements stands: what it does with the slots at the end. -/
theorem exists_act {n : Nat} {items : List Index} (refs : ∀ i ∈ items, ∃ n, i = Index.ref n)
    (ascending : items.Pairwise (· < ·)) (orderly : ({ s with slots := last.slots } : Scope).Orderly)
    (h : items.foldlM (statement s) st = .ok last) (accepted : last.Accepted) (member : .ref n ∈ items) :
    ∃ a before next, s.buffer.atoms[n]? = some a ∧
      Scopes.act { s with slots := last.slots } before (.ref n) a = .ok next ∧ next.Accepted ∧
      next.slots[Index.ref n]? = last.slots[Index.ref n]? ∧ before.slots[Index.ref n]? = st.slots[Index.ref n]? := by
  induction items generalizing st with
  | nil => cases member
  | cons i rest ih =>
    obtain ⟨k, rfl⟩ := refs i List.mem_cons_self
    obtain ⟨a, next, found, acted, later, own, _⟩ := statement_final ascending orderly h
    rcases List.mem_cons.1 member with same | member
    · cases same
      exact ⟨a, st, next, found, acted, foldlM_accepted later accepted, own, rfl⟩
    · have other : Index.ref k ≠ .ref n := fun same =>
        absurd (same ▸ (List.pairwise_cons.1 ascending).1 _ member) (Nat.lt_irrefl _)
      obtain ⟨a', before, next', found', acted', accepted', own', fresh⟩ :=
        ih (fun i member => refs i (List.mem_cons_of_mem _ member)) (List.pairwise_cons.1 ascending).2 later member
      exact ⟨a', before, next', found', acted', accepted', own', fresh.trans (act_slots acted other)⟩

/-! ### Parameters -/

theorem isSome_foldl_insert {parameters : List (Index × List Prim)} {slots : IndexMap (List Prim)} :
    ((parameters.foldl (fun slots (i, ts) => slots.insert i ts) slots)[i]?).isSome ↔
      i ∈ parameters.map Prod.fst ∨ (slots[i]?).isSome := by
  induction parameters generalizing slots with
  | nil => simp
  | cons p rest ih =>
    rw [List.foldl_cons, ih, List.map_cons, List.mem_cons]
    by_cases same : p.1 = i
    · subst same
      simp
    · simp [Std.ExtTreeMap.getElem?_insert, same, Ne.symm same]

theorem owners_of_procedure {u : Linkage} {f : Function} {symbol : String} {p : Procedure}
    (h : procedure u f symbol = .ok p) : p.parameters.map Prod.fst = f.parameters.map Prod.fst := by
  obtain ⟨typed, found, _, flat, _⟩ := procedure_ok h
  exact owners_of_parameters found flat

theorem isSome_entry {u : Linkage} {f : Function} {symbol : String} {p : Procedure}
    (h : procedure u f symbol = .ok p) : (((p.entry u f).slots)[i]?).isSome ↔ i ∈ f.parameters.map Prod.fst := by
  unfold Procedure.entry
  rw [isSome_foldl_insert, owners_of_procedure h]
  simp

theorem getElem?_bindParameters {parameters : List (Index × List Prim)} (other : i ∉ parameters.map Prod.fst)
    (ws : List Word) (env : Env) : (bindParameters parameters ws env)[i]? = env[i]? := by
  induction parameters generalizing ws env with
  | nil => rfl
  | cons p rest ih =>
    rw [List.map_cons, List.mem_cons, not_or] at other
    rw [bindParameters, ih other.2]
    simp [Std.ExtTreeMap.getElem?_insert, Ne.symm other.1]

theorem Env.Sized.bindParameters {parameters : List (Index × List Prim)} {slots : IndexMap (List Prim)} {env : Env}
    {ws : List Word} (full : env.Sized slots) (whole : ws.length = (parameters.flatMap Prod.snd).length) :
    Env.Sized (parameters.foldl (fun slots (i, ts) => slots.insert i ts) slots) (bindParameters parameters ws env) := by
  induction parameters generalizing slots env ws with
  | nil => exact full
  | cons p rest ih =>
    rw [List.flatMap_cons, List.length_append] at whole
    refine ih (fun j ts known => ?_) (by rw [List.length_drop]; omega)
    by_cases same : p.1 = j
    · subst same
      simp only [Std.ExtTreeMap.getElem?_insert_self, Option.some.injEq] at known
      subst known
      rw [Env.slot_insert_self, List.length_take]
      omega
    · rw [Env.slot_insert_of_ne env _ ts same]
      exact full j ts (by simpa [Std.ExtTreeMap.getElem?_insert, same] using known)

theorem sized_entry {u : Linkage} {f : Function} {symbol : String} {p : Procedure} (h : procedure u f symbol = .ok p)
    {slots : IndexMap (List Prim)} (held : ∀ i ts, slots[i]? = some ts → (p.entry u f).scalars i = .ok ts)
    (memory : Memory) : Env.Sized slots (Native.bindParameters p.parameters (p.args.load memory) ∅) := by
  intro i ts known
  by_cases parameter : i ∈ f.parameters.map Prod.fst
  · obtain ⟨ts', own⟩ := Option.isSome_iff_exists.1 ((isSome_entry h).2 parameter)
    obtain ⟨typed, found, packed, flat, _⟩ := procedure_ok h
    obtain ⟨owned, scalars⟩ := parameters_scalars found flat
    have known' : (p.entry u f).scalars i = .ok ts' := slots_of_parameters (s := p.entry u f) owned (by simp) i ts' own
    obtain rfl := Except.ok.inj ((held i ts known).symm.trans known')
    have empty : Env.Sized ∅ ∅ := fun _ _ none => by simp at none
    refine empty.bindParameters ?_ i ts own
    unfold Layout.concat at packed
    rw [scalars] at packed
    rw [Layout.load_length packed, Layout.pack_scalars (Layout.ofScalars_ok_iff.1 packed), List.flatMap_def]
  · rw [Env.slot, getElem?_bindParameters (by rwa [owners_of_procedure h])]
    simp

end ShaderForge.Native
