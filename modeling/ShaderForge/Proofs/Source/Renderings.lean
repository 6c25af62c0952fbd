import ShaderForge.Proofs.Blocks.Generators
import ShaderForge.Proofs.Linkage.Closure
import ShaderForge.Proofs.Source.Tracing
import ShaderForge.Source.Glsl

/-!
Where effects are written out. The own statement of a call or side-effecting intrinsic writes it out once
and before any other; one with a result gets a local that stands for it from then on, one without a
result is written out again wherever it is used.
-/

namespace ShaderForge.Statement

open Buffer Linkage

variable {s : Scope} {st st' : State} {i j : Index} {a : Atom}

/-! ### Locals -/

theorem bindLocal_locals (printed : bindLocal s st i = .ok st') :
    st'.locals = st.locals.insert i (Naming.localName st.locals.size) := by
  obtain ⟨_, _, printed⟩ := Except.bind_ok printed
  obtain ⟨_, _, printed⟩ := Except.bind_ok printed
  obtain ⟨_, _, printed⟩ := Except.bind_ok printed
  cases printed
  rfl

theorem effect_locals (printed : effect s st i = .ok st') {ty : Ty} (typed : s.typeOf i = .ok ty) :
    if ty.isNil then st'.locals = st.locals
    else st'.locals = st.locals.insert i (Naming.localName st.locals.size) := by
  obtain ⟨_, same, printed⟩ := Except.bind_ok printed
  cases typed.symm.trans same
  cases nil : ty.isNil with
  | true =>
    simp only [nil] at printed
    obtain ⟨_, _, printed⟩ := Except.bind_ok printed
    cases printed
    rfl
  | false =>
    simp only [nil] at printed
    exact bindLocal_locals printed

theorem branch_locals {kind : BranchKind} {cond target : Index} (held : s.atom i = .ok (.branch kind cond target))
    (printed : statement s st i = .ok st') : st'.locals = st.locals := by
  have found := Member.atom_ok_iff.1 held
  -- a marker moves the depth of the text and nothing else
  have marks : s.buffer.marker? i = some kind := by rw [Buffer.marker?, found]; rfl
  have ready := (generator_tracks s).asks st i kind st' marks printed
  obtain ⟨text, condition⟩ := exists_condition ready found
  rw [statement_marker found condition] at printed
  split at printed
  · cases printed
  · cases printed
    cases kind <;> rfl

theorem statement_locals (printed : statement s st i = .ok st') :
    st'.locals = st.locals ∨ st'.locals = st.locals.insert i (Naming.localName st.locals.size) := by
  have whole := printed
  obtain ⟨a, held, printed⟩ := Except.bind_ok printed
  have acted : effect { s with locals := st.locals } st i = .ok st' →
      st'.locals = st.locals ∨ st'.locals = st.locals.insert i (Naming.localName st.locals.size) := by
    intro printed
    obtain ⟨ty, typed, _⟩ := Except.bind_ok printed
    have locals := effect_locals printed typed
    split at locals
    · exact Or.inl locals
    · exact Or.inr locals
  cases a with
  | qualifier | type | list => cases printed; exact Or.inl rfl
  | store dst src =>
    obtain ⟨_, _, printed⟩ := Except.bind_ok printed
    obtain ⟨_, _, printed⟩ := Except.bind_ok printed
    cases printed
    exact Or.inl rfl
  | ret value =>
    cases value with
    | null => cases printed; exact Or.inl rfl
    | ref n =>
      obtain ⟨_, _, printed⟩ := Except.bind_ok printed
      cases printed
      exact Or.inl rfl
  | branch kind cond target => exact Or.inl (branch_locals held whole)
  | intrinsic code args =>
    cases layout : code.isLayout with
    | true =>
      simp only [layout] at printed
      cases printed
      exact Or.inl rfl
    | false =>
      simp only [layout] at printed
      exact acted printed
  | call => exact acted printed
  | construct ty args mode =>
    cases mode with
    | transient => cases printed; exact Or.inl rfl
    | normal =>
      cases args with
      | ref n => exact Or.inr (bindLocal_locals printed)
      | null =>
        obtain ⟨ty, _, printed⟩ := Except.bind_ok printed
        cases ty with
        | reference => exact Or.inr (bindLocal_locals printed)
        | _ =>
          obtain ⟨_, _, printed⟩ := Except.bind_ok printed
          cases printed
          exact Or.inr rfl
  | _ => exact Or.inr (bindLocal_locals printed)

theorem statement_keeps_local (printed : statement s st i = .ok st') (other : i ≠ j) :
    st'.locals[j]? = st.locals[j]? := by
  rcases statement_locals printed with same | same
  · rw [same]
  · rw [same, Std.ExtTreeMap.getElem?_insert, if_neg fun equal => other (Index.compare_eq_eq.1 equal)]

theorem statements_keep_local {items : List Index} (printed : items.foldlM (statement s) st = .ok st')
    (other : j ∉ items) : st'.locals[j]? = st.locals[j]? := by
  induction items generalizing st with
  | nil => cases printed; rfl
  | cons first rest ih =>
    rw [List.foldlM_cons] at printed
    obtain ⟨next, one, printed⟩ := Except.bind_ok printed
    rw [List.mem_cons, not_or] at other
    rw [ih printed other.2, statement_keeps_local one (Ne.symm other.1)]

/-- The statement of an effect gives it a local exactly if it has a result. -/
theorem effect_bound (held : s.atom i = .ok a) (acts : isEffect a = true) (printed : statement s st i = .ok st') :
    ∃ ty, s.typeOf i = .ok ty ∧
      if ty.isNil then st'.locals[i]? = st.locals[i]? else ∃ name, st'.locals[i]? = some name := by
  obtain ⟨a', held', printed⟩ := Except.bind_ok printed
  cases held.symm.trans held'
  have acted : effect { s with locals := st.locals } st i = .ok st' := by
    cases a with
    | call => exact printed
    | intrinsic code args =>
      simp only [isLayout_of_isSideEffect acts] at printed
      exact printed
    | _ => cases acts
  obtain ⟨ty, typed, _⟩ := Except.bind_ok acted
  refine ⟨ty, typed, ?_⟩
  have locals := effect_locals acted typed
  split at locals
  · rw [if_pos ‹_›, locals]
  · rw [if_neg ‹_›]
    exact ⟨_, by rw [locals, Std.ExtTreeMap.getElem?_insert_self]⟩

/-! ### Uses of an effect -/

theorem place_effect (held : s.atom i = .ok a) (acts : isEffect a = true) : s.place i = s.value i := by
  show s.placeOf (s.printers s.buffer.size) i = s.valueOf (s.printers s.buffer.size) i
  unfold Scope.placeOf
  rw [held]
  cases a with
  | call | intrinsic => rfl
  | _ => cases acts

theorem value_bound {name : String} (bound : s.locals[i]? = some name) : s.value i = .ok name := by
  show s.valueOf (s.printers s.buffer.size) i = _
  unfold Scope.valueOf
  rw [bound]
  rfl

theorem value_unbound (unbound : s.locals[i]? = none) : s.value i = s.fresh i := by
  show s.valueOf (s.printers s.buffer.size) i = _
  unfold Scope.valueOf
  rw [unbound]
  rfl

/-! ### Runs of the statements -/

def Unused (b : Buffer) (i : Index) : Prop :=
  ∀ k a, .ref k ∈ visibleAtoms b → b.atoms[k]? = some a → i ∉ a.operands

/-- What the statement of `user` may come to: smaller addresses, and none that is unused. -/
def Before (b : Buffer) (user i e : Index) : Prop :=
  e < user ∧ (Unused b i → e = .null ∨ e ∈ visibleAtoms b ∧ e ≠ i)

theorem reach_before {b : Buffer} (backward : b.Backward) (n : Nat) (i : Index) : Reach b (Before b (.ref n) i) where
  closed k a inside found o used := by
    obtain ⟨m, rfl, less⟩ := backward k a found o used
    refine ⟨Index.ref_lt_ref.2 (less.trans (Index.ref_lt_ref.1 inside.1)), fun unused => Or.inr ?_⟩
    obtain ⟨shown, _⟩ := (inside.2 unused).resolve_left nofun
    refine ⟨visibleAtoms_useClosed backward k a shown found _ used, ?_⟩
    rintro rfl
    exact unused k a shown found used
  null := ⟨Nat.succ_pos n, fun _ => Or.inl rfl⟩

theorem uses_before {b : Buffer} (backward : b.Backward) {n : Nat} (marked : .ref n ∈ b.marked) (i : Index) :
    Reach.Uses b (Before b (.ref n) i) (.ref n) := by
  intro a found o used
  have shown := mem_visibleAtoms_of_marked marked
  obtain ⟨m, rfl, less⟩ := backward n a found o used
  refine ⟨Index.ref_lt_ref.2 less, fun unused => Or.inr ⟨visibleAtoms_useClosed backward n a shown found _ used, ?_⟩⟩
  rintro rfl
  exact unused n a shown found used

section

variable (backward : s.buffer.Backward) {n : Nat}
include backward

/-- What a statement writes out: its own atom, and smaller ones without a local. -/
theorem renderStatement_ok (marked : i ∈ s.buffer.marked) (printed : statement s st i = .ok st') (j : Index) :
    ∃ written : List Index, (∀ trace, renderStatement s (st, trace) i = .ok (st', trace ++ written.map (i, ·))) ∧
      ∀ e ∈ written, e = i ∨ Before s.buffer i j e ∧ st.locals[e]? = none := by
  obtain ⟨a, held, _⟩ := Except.bind_ok printed
  obtain ⟨n, rfl, found⟩ := atom_found held
  have reach := reach_before backward n j
  have uses := uses_before backward marked j
  have listed : ∃ written, (tracedStatement s st (.ref n)).run [] = .ok (st', written) ∧
      ∀ e ∈ written, e = .ref n ∨ Open { s with locals := st.locals } (Before s.buffer (.ref n) j) e := by
    rcases reach.statement st uses with follows | follows
    · obtain ⟨added, inside, run⟩ := follows []
      rw [printed] at run
      exact ⟨added, run, fun e member => Or.inr (inside e member)⟩
    · obtain ⟨added, inside, run⟩ := follows []
      rw [printed] at run
      exact ⟨.ref n :: added, run, fun e member => (List.mem_cons.1 member).imp id (inside e)⟩
  obtain ⟨written, run, inside⟩ := listed
  refine ⟨written, fun trace => ?_, inside⟩
  unfold renderStatement
  rw [run]
  rfl

theorem renderStatement_effect (marked : i ∈ s.buffer.marked) (held : s.atom i = .ok a) (acts : isEffect a = true)
    (printed : statement s st i = .ok st') :
    ∃ written, (∀ trace, renderStatement s (st, trace) i = .ok (st', trace ++ (i :: written).map (i, ·))) ∧
      ∀ e ∈ written, e < i := by
  obtain ⟨n, rfl, found⟩ := atom_found held
  have follows := (reach_before backward n .null).statement_effect st (uses_before backward marked .null) held acts
  obtain ⟨added, inside, run⟩ := follows []
  rw [printed] at run
  refine ⟨added, fun trace => ?_, fun e member => (inside e member).1.1⟩
  unfold renderStatement
  rw [run]
  rfl

/-- Statements of other atoms write one out only where it has no local and is used. -/
theorem renderStatements_ok {items : List Index} (marked : ∀ i ∈ items, i ∈ s.buffer.marked) (other : .ref n ∉ items)
    (printed : items.foldlM (statement s) st = .ok st') :
    ∃ more, (∀ trace, items.foldlM (renderStatement s) (st, trace) = .ok (st', trace ++ more)) ∧
      ∀ p ∈ more, p.1 ∈ items ∧ p.2 ≤ p.1 ∧
        (p.2 = .ref n → st.locals[Index.ref n]? = none ∧ ¬ Unused s.buffer (.ref n)) := by
  induction items generalizing st with
  | nil =>
    cases printed
    exact ⟨[], fun trace => by rw [List.append_nil]; rfl, nofun⟩
  | cons i rest ih =>
    rw [List.foldlM_cons] at printed
    obtain ⟨next, one, printed⟩ := Except.bind_ok printed
    rw [List.mem_cons, not_or] at other
    obtain ⟨written, run, inside⟩ := renderStatement_ok backward (marked i List.mem_cons_self) one (.ref n)
    obtain ⟨more, runs, later⟩ := ih (fun i member => marked i (List.mem_cons_of_mem _ member)) other.2 printed
    refine ⟨written.map (i, ·) ++ more, fun trace => ?_, ?_⟩
    · rw [List.foldlM_cons, run, Except.ok_bind, runs, List.append_assoc]
    · intro p member
      rcases List.mem_append.1 member with now | after
      · obtain ⟨e, listed, rfl⟩ := List.mem_map.1 now
        refine ⟨List.mem_cons_self, ?_, ?_⟩
        · rcases inside e listed with rfl | early
          · exact Nat.le_refl _
          · exact Nat.le_of_lt early.1.1
        · -- its own statement is not among these, so it is listed as an operand
          intro same
          change e = .ref n at same
          subst same
          have early := (inside _ listed).resolve_left other.1
          exact ⟨early.2, fun unused => ((early.1.2 unused).resolve_left nofun).2 rfl⟩
      · obtain ⟨place, order, uses⟩ := later p after
        refine ⟨List.mem_cons_of_mem _ place, order, fun same => ?_⟩
        rw [← statement_keeps_local one (Ne.symm other.1)]
        exact uses same

end

theorem marked_ascending (b : Buffer) : b.marked.toList.Pairwise (· < ·) :=
  Std.ExtTreeSet.ordered_toList.imp Index.compare_eq_lt.1

/-- A run of the statements comes to each marked atom once, in order. -/
structure Visits (s : Scope) (i : Index) (st : State) where
  before : List Index
  after : List Index
  entered : State
  left : State
  split : s.buffer.marked.toList = before ++ i :: after
  early : ∀ j ∈ before, j < i
  late : ∀ j ∈ after, i < j
  enters : before.foldlM (statement s) {} = .ok entered
  acts : statement s entered i = .ok left
  ends : after.foldlM (statement s) left = .ok st

theorem visits (marked : i ∈ s.buffer.marked) (run : s.buffer.marked.toList.foldlM (statement s) {} = .ok st) :
    Nonempty (Visits s i st) := by
  obtain ⟨before, after, split⟩ := List.append_of_mem (Std.ExtTreeSet.mem_toList.2 marked)
  have ascending := marked_ascending s.buffer
  rw [split, List.pairwise_append, List.pairwise_cons] at ascending
  obtain ⟨_, ⟨late, _⟩, early⟩ := ascending
  rw [split, List.foldlM_append] at run
  obtain ⟨entered, enters, run⟩ := Except.bind_ok run
  rw [List.foldlM_cons] at run
  obtain ⟨left, acts, ends⟩ := Except.bind_ok run
  exact ⟨⟨before, after, entered, left, split, fun j member => early j member i List.mem_cons_self, late, enters, acts,
    ends⟩⟩

theorem renderings_of_run {text : String} {trace : List (Index × Index)} (printed : body s = .ok text)
    (traced : s.buffer.marked.toList.foldlM (renderStatement s) ({}, []) = .ok (st, trace)) :
    renderings s = .ok (text, trace) := by
  have erased := renderings_erase s
  rw [printed] at erased
  unfold renderings at erased ⊢
  rw [traced, Except.ok_bind] at erased ⊢
  split at erased
  · cases erased
  · rw [if_neg ‹_›]
    cases erased
    rfl

/-- What a statement that comes after the one of `i` is printed in. -/
def Past (s : Scope) (i : Index) (t : Scope) : Prop :=
  ∃ done rest st, s.buffer.marked.toList = done ++ rest ∧ i ∈ done ∧ done.foldlM (statement s) {} = .ok st ∧
    t = { s with locals := st.locals }

theorem Past.local_eq {t : Scope} (past : Past s i t)
    (run : s.buffer.marked.toList.foldlM (statement s) {} = .ok st) : t.locals[i]? = st.locals[i]? := by
  obtain ⟨done, rest, _, split, member, enters, rfl⟩ := past
  have ascending := marked_ascending s.buffer
  rw [split, List.pairwise_append] at ascending
  have unlisted : i ∉ rest := fun again => Nat.lt_irrefl _ (ascending.2.2 i member i again)
  rw [split, List.foldlM_append, enters, Except.ok_bind] at run
  rw [statements_keep_local run unlisted]

theorem effect_local (marked : i ∈ s.buffer.marked) (held : s.atom i = .ok a) (acts : isEffect a = true)
    (run : s.buffer.marked.toList.foldlM (statement s) {} = .ok st) :
    ∃ ty, s.typeOf i = .ok ty ∧ if ty.isNil then st.locals[i]? = none else ∃ name, st.locals[i]? = some name := by
  obtain ⟨v⟩ := visits marked run
  have fresh : v.entered.locals[i]? = none := by
    rw [statements_keep_local v.enters fun member => Nat.lt_irrefl _ (v.early _ member)]
    exact Std.ExtTreeMap.getElem?_empty
  rw [statements_keep_local v.ends fun member => Nat.lt_irrefl _ (v.late _ member), ← fresh]
  exact effect_bound held acts v.acts

/-- All that a function writes out: an effect first by its own statement, then by later statements that
use it, if it has no local. -/
theorem renderings_effect (backward : s.buffer.Backward) {n : Nat} {text : String} (printed : body s = .ok text)
    (run : s.buffer.marked.toList.foldlM (statement s) {} = .ok st) (marked : .ref n ∈ s.buffer.marked)
    (held : s.atom (.ref n) = .ok a) (acts : isEffect a = true) :
    ∃ trace later, renderings s = .ok (text, trace) ∧ trace.filter (·.2 = .ref n) = (.ref n, .ref n) :: later ∧
      ∀ p ∈ later, .ref n < p.1 ∧ st.locals[Index.ref n]? = none ∧ ¬ Unused s.buffer (.ref n) := by
  obtain ⟨v⟩ := visits marked run
  have listed : ∀ i ∈ v.before ++ .ref n :: v.after, i ∈ s.buffer.marked := by
    rw [← v.split]
    exact fun i => Std.ExtTreeSet.mem_toList.1
  have unlisted : .ref n ∉ v.before := fun member => Nat.lt_irrefl _ (v.early _ member)
  have unlisted' : .ref n ∉ v.after := fun member => Nat.lt_irrefl _ (v.late _ member)
  -- earlier statements list smaller atoms, the own one lists it once, later ones while it has no local
  obtain ⟨first, runs, inside⟩ := renderStatements_ok backward
    (fun i member => listed i (List.mem_append_left _ member)) unlisted v.enters
  obtain ⟨written, own, inside'⟩ := renderStatement_effect backward marked held acts v.acts
  obtain ⟨rest, runs', later⟩ := renderStatements_ok backward
    (fun i member => listed i (List.mem_append_right _ (List.mem_cons_of_mem _ member))) unlisted' v.ends
  have traced : s.buffer.marked.toList.foldlM (renderStatement s) ({}, []) =
      .ok (st, [] ++ first ++ (.ref n :: written).map (.ref n, ·) ++ rest) := by
    rw [v.split, List.foldlM_append, runs, Except.ok_bind, List.foldlM_cons, own, Except.ok_bind, runs']
  refine ⟨_, rest.filter (·.2 = .ref n), renderings_of_run printed traced, ?_, ?_⟩
  · have none₁ : first.filter (·.2 = .ref n) = [] := by
      rw [List.filter_eq_nil_iff]
      intro p member same
      obtain ⟨place, order, _⟩ := inside p member
      rw [of_decide_eq_true same] at order
      exact Nat.not_lt.2 order (v.early _ place)
    have none₂ : (written.map (Index.ref n, ·)).filter (·.2 = .ref n) = [] := by
      rw [List.filter_eq_nil_iff]
      intro p member same
      obtain ⟨e, listed, rfl⟩ := List.mem_map.1 member
      cases of_decide_eq_true same
      exact Nat.lt_irrefl _ (inside' _ listed)
    rw [List.filter_append, List.filter_append, List.map_cons, List.filter_cons, none₂]
    simp [none₁]
  · intro p member
    obtain ⟨member, same⟩ := List.mem_filter.1 member
    obtain ⟨place, _, uses⟩ := later p member
    rw [statements_keep_local v.ends unlisted']
    exact ⟨v.late _ place, uses (of_decide_eq_true same)⟩

/-! ### Linked functions -/

/-- Effects are written out by their own statements, once and first. One with a result is written out nowhere
else: after its statement a local stands for it. One without a result has no local, and any later use
writes it out again. -/
theorem effects_written_out {r : Registry} {entries : List FunctionId} (linked : link r entries = .ok s.unit)
    (member : s.function ∈ s.unit.functions) {text : String} (printed : body s = .ok text) {n : Nat}
    (found : s.function.buffer.atoms[n]? = some a) (acts : isEffect a = true) :
    ∃ ty trace, s.typeOf (.ref n) = .ok ty ∧ renderings s = .ok (text, trace) ∧
      (∃ later, trace.filter (·.2 = .ref n) = (.ref n, .ref n) :: later ∧ ∀ p ∈ later, .ref n < p.1) ∧
      (ty.isNil = false → trace.filter (·.2 = .ref n) = [(.ref n, .ref n)] ∧
        ∃ name, ∀ t, Past s (.ref n) t → t.value (.ref n) = .ok name ∧ t.place (.ref n) = .ok name) ∧
      (ty.isNil = true → (Unused s.buffer (.ref n) → trace.filter (·.2 = .ref n) = [(.ref n, .ref n)]) ∧
        ∀ t, Past s (.ref n) t → t.value (.ref n) = t.fresh (.ref n) ∧ t.place (.ref n) = t.fresh (.ref n)) := by
  have prepared := ((linked_of_link linked).made.coherent.placed s.function member).prepared
  have effect : a.isSideEffect = true := by
    cases a with
    | call => rfl
    | intrinsic code args => exact Bool.or_eq_true_iff.2 (Or.inl acts)
    | _ => cases acts
  have marked := prepared.marked_of_root found fun _ => Liveness.isRoot_of_effect effect
  have held : s.atom (.ref n) = .ok a := Member.atom_ok_iff.2 found
  obtain ⟨_, whole, _⟩ := Except.bind_ok printed
  obtain ⟨st, run, _⟩ := Except.bind_ok whole
  obtain ⟨trace, later, traced, first, uses⟩ := renderings_effect prepared.backward printed run marked held acts
  obtain ⟨ty, typed, bound⟩ := effect_local marked held acts run
  have alone : (∀ p, p ∉ later) → trace.filter (·.2 = .ref n) = [(.ref n, .ref n)] := by
    intro none
    rw [first, List.eq_nil_iff_forall_not_mem.2 none]
  have placed : ∀ t, Past s (.ref n) t → t.place (.ref n) = t.value (.ref n) := by
    rintro _ ⟨_, _, _, _, _, _, rfl⟩
    exact place_effect held acts
  refine ⟨ty, trace, typed, traced, ⟨later, first, fun p listed => (uses p listed).1⟩, fun result => ?_, fun nil => ?_⟩
  · rw [result] at bound
    obtain ⟨name, bound⟩ := bound
    refine ⟨alone fun p listed => ?_, name, fun t past => ?_⟩
    · rw [(uses p listed).2.1] at bound
      cases bound
    · have value := value_bound ((past.local_eq run).trans bound)
      exact ⟨value, (placed t past).trans value⟩
  · rw [if_pos nil] at bound
    refine ⟨fun unused => alone fun p listed => (uses p listed).2.2 unused, fun t past => ?_⟩
    have value := value_unbound ((past.local_eq run).trans bound)
    exact ⟨value, (placed t past).trans value⟩

theorem exists_scope (r : Registry) (id : FunctionId) (d : Dialect) (test : Scope → Bool)
    (passes : ((link r [id]).toOption.any fun u => (u.function? id).any fun f =>
      test { unit := u, function := f, dialect := d }) = true) :
    ∃ s : Scope, link r [id] = .ok s.unit ∧ s.function ∈ s.unit.functions ∧ test s = true := by
  obtain ⟨u, linked, passes⟩ := (Option.any_eq_true _ _).1 passes
  obtain ⟨f, found, passes⟩ := (Option.any_eq_true _ _).1 passes
  exact ⟨{ unit := u, function := f, dialect := d }, Except.toOption_eq_some_iff.1 linked,
    List.mem_of_find?_eq_some found, passes⟩

/-- A function and one that calls it and adds the result to itself. -/
def doubled : Registry :=
  let one := Buffer.ofContent [.type .i32 .null .null, .literal (.i32 1), .ret (.ref 1)] [] []
  let main := Buffer.ofContent [.type .i32 .null .null, .call 0 (.ref 0) .null, .operation .addition (.ref 1) (.ref 1),
    .ret (.ref 2)] [] []
  ((Registry.empty.register "one" one).2.register "main" main).2

theorem doubled_written_out :
    ∃ (s : Scope) (trace : List (Index × Index)), link doubled [1] = .ok s.unit ∧ s.function ∈ s.unit.functions ∧
      s.function.buffer.atoms[1]? = some (.call 0 (.ref 0) .null) ∧
      renderings s = .ok ("    int s0 = one();\n    return (s0 + s0);\n", trace) ∧
      trace.filter (·.2 = .ref 1) = [(.ref 1, .ref 1)] ∧
      ∃ name, ∀ t, Past s (.ref 1) t → t.value (.ref 1) = .ok name := by
  obtain ⟨s, linked, member, passes⟩ := exists_scope doubled 1 Glsl.dialect
    (fun s => decide ((body s).toOption = some "    int s0 = one();\n    return (s0 + s0);\n" ∧
      s.function.buffer.atoms[1]? = some (Atom.call 0 (.ref 0) .null) ∧
      (s.typeOf (.ref 1)).toOption.map Ty.isNil = some false)) (by decide +kernel)
  obtain ⟨printed, found, result⟩ := of_decide_eq_true passes
  obtain ⟨ty, trace, typed, traced, _, bound, _⟩ :=
    effects_written_out linked member (Except.toOption_eq_some_iff.1 printed) found rfl
  rw [typed] at result
  obtain ⟨once, name, uses⟩ := bound (Option.some.inj result)
  exact ⟨s, trace, linked, member, found, traced, once, name, fun t past => (uses t past).1⟩

/-- A function without a result and one that returns what it calls. -/
def forwarded : Registry :=
  let g := Buffer.ofContent [.ret .null] [] []
  let f := Buffer.ofContent [.call 0 .null .null, .ret (.ref 0)] [] []
  ((Registry.empty.register "g" g).2.register "f" f).2

/-- A call without a result is written out again where it is used. -/
theorem forwarded_written_out_twice :
    ∃ (s : Scope) (trace : List (Index × Index)), link forwarded [1] = .ok s.unit ∧ s.function ∈ s.unit.functions ∧
      s.function.buffer.atoms[0]? = some (.call 0 .null .null) ∧ body s = .ok "    g();\n    return g();\n" ∧
      renderings s = .ok ("    g();\n    return g();\n", trace) ∧
      trace.filter (·.2 = .ref 0) = [(.ref 0, .ref 0), (.ref 1, .ref 0)] := by
  obtain ⟨s, linked, member, passes⟩ := exists_scope forwarded 1 Glsl.dialect
    (fun s => decide (s.function.buffer.atoms[0]? = some (Atom.call 0 .null .null) ∧
      (body s).toOption = some "    g();\n    return g();\n" ∧
      (renderings s).toOption = some ("    g();\n    return g();\n", [(.ref 0, .ref 0), (.ref 1, .ref 0)])))
    (by decide +kernel)
  obtain ⟨found, printed, traced⟩ := of_decide_eq_true passes
  exact ⟨s, _, linked, member, found, Except.toOption_eq_some_iff.1 printed, Except.toOption_eq_some_iff.1 traced, rfl⟩

end ShaderForge.Statement
