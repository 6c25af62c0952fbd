import ShaderForge.Proofs.Optimizer.ElisionValues

/-!
Statements before and after elision. A statement that stays does the same, and one that is no longer shown
only fills a variable that nothing reads any more.
-/

namespace ShaderForge.Optimizer

open Buffer Linkage Native

/-! ### Courses of statements -/

def before (course : Course) : Atom → List Index
  | .branch kind _ _ => course.tested kind
  | _ => course.here

def after (course : Course) (i : Index) : Atom → Course
  | .branch kind _ _ => course.turn kind
  | _ => { course with here := i :: course.here }

/-- Whether at each statement the constructions that its operands read are known. -/
def settles (b : Buffer) (written : IndexSet) : Course → List Index → Bool
  | _, [] => true
  | course, i :: rest =>
    match b.get? i with
    | some a => a.operands.all (settled b written (before course a)) && settles b written (after course i a) rest
    | none => false

variable {s s' : Scope} {written : IndexSet} {known : List Index} {callees callees' : Callees} {rounds : Nat}
  {env env' : Env} {n : Nat} {a : Atom}

/-! ### What is known while slots change -/

theorem storage_of_store (known : writtenStorage s.buffer = .ok written) (backward : s.buffer.Backward) {dst src : Index}
    (found : s.buffer.atoms[n]? = some (.store dst src)) : Way s written dst := by
  obtain ⟨writable, member⟩ := writtenStorage_ok known
  have inside : Atom.store dst src ∈ s.buffer.atoms.toList := Array.mem_toList_iff.2 (Array.mem_of_getElem? found)
  obtain ⟨targets, through, each⟩ := writable _ inside
  cases through
  obtain ⟨r, stored⟩ := each dst (List.mem_singleton_self dst)
  exact Or.inl ⟨r, (storage_ok_iff backward).1 stored, (member r).2 ⟨_, inside, _, rfl, dst, List.mem_singleton_self dst, stored⟩⟩

namespace Eligible

variable (eligible : Eligible s written) {o src item : Index} {y : Expr}

include eligible

theorem not_stored (selects : selection? s.buffer written o = some (src, item)) : src ∉ stored s.buffer := by
  intro writes
  obtain ⟨_, _, _, _, _, _, selection⟩ := selection?_eq_some selects
  exact selection.unwritten (mem_written_of_stored eligible.orderly.backward eligible.recorded selection.built writes)

theorem draws_before (selects : selection? s.buffer written o = some (src, item)) (h : s.value item = .ok y) :
    y.Draws s.unit s.slots (· < src) := by
  have order := selection?_lt eligible.orderly.backward selects
  obtain ⟨_, _, _, _, _, _, selection⟩ := selection?_eq_some selects
  obtain ⟨k, rfl, built⟩ := atom_found selection.atom
  have inside : k < s.buffer.size := (Array.getElem?_eq_some_iff.1 built).1
  have early : item.rank < k + 1 := order.2
  exact (eligible.orderly.value (eligible.orderly.early k) (fun _ _ => rfl) early (by omega) h).2

theorem draws_unwritten (selects : selection? s.buffer written o = some (src, item)) (h : s.value item = .ok y) :
    y.Draws s.unit s.slots (· ∉ stored s.buffer) := by
  have order := selection?_lt eligible.orderly.backward selects
  obtain ⟨_, _, _, _, _, _, selection⟩ := selection?_eq_some selects
  obtain ⟨k, rfl, built⟩ := atom_found selection.atom
  have inside : k < s.buffer.size := (Array.getElem?_eq_some_iff.1 built).1
  have early : item.rank < k + 1 := order.2
  refine draws_of_clear eligible.orderly eligible.recorded eligible.isolated eligible.owned ?_
    (by omega) selection.clear h
  intro j ts held
  rcases eligible.held j (by rw [held]; rfl) with ⟨_, _, _, found⟩ | own
  · exact ⟨_, found⟩
  · unfold owns at own
    rw [Bool.and_eq_true] at own
    cases found : s.buffer.get? j with
    | some a => exact ⟨a, rfl⟩
    | none => rw [found] at own; cases own.2

end Eligible

namespace Stands

variable (eligible : Eligible s written) (stands : Stands s s' written callees known env env')

include stands

/-- A statement that constructs nothing that is read adds nothing to what is known. -/
theorem cons {i : Index} (other : ∀ o item, selection? s.buffer written o ≠ some (i, item)) :
    Stands s s' written callees (i :: known) env env' := by
  refine ⟨stands.full, stands.same, fun o src item x y selects member => ?_⟩
  rcases List.mem_cons.1 member with rfl | known
  · exact (other o item selects).elim
  · exact stands.fresh o src item x y selects known

include eligible

/-- A change of a variable on which nothing that is known depends. -/
theorem insert {owner : Index} {ws : List Word} {env₁ : Env} (fits : ∀ ts, s.slots[owner]? = some ts → ws.length = ts.length)
    (same : ∀ j, Shown s'.function j → env₁[j]? = (env.insert owner ws)[j]?)
    (away : ∀ o src item y, selection? s.buffer written o = some (src, item) → src ∈ known → s.value item = .ok y →
      owner ≠ src ∧ y.Draws s.unit s.slots (· ≠ owner)) :
    Stands s s' written callees known (env.insert owner ws) env₁ := by
  refine ⟨stands.full.insert fits, same, fun o src item x y selects member kept shown hx hy => ?_⟩
  obtain ⟨ts, held⟩ := Option.isSome_iff_exists.1 kept
  obtain ⟨other, draws⟩ := away o src item y selects member hy
  obtain ⟨positions, rfl⟩ := (eligible.selection selects shown hx).reads (eligible.free selects) held hx
  have read := stands.fresh o src item _ y selects member kept shown hx hy
  rw [draws.eval_congr callees fun i ts _ away => Env.slot_insert_of_ne env ws ts (Ne.symm away)]
  rw [Expr.eval, Expr.eval, Env.slot_insert_of_ne env ws ts other] at *
  exact read

theorem bind {ws : List Word} {env₁ : Env} (sized : callees.Sized s.unit) (early : ∀ j ∈ known, j < .ref n)
    (fits : ∀ ts, s.slots[Index.ref n]? = some ts → ws.length = ts.length)
    (same : ∀ j, Shown s'.function j → env₁[j]? = (env.insert (.ref n) ws)[j]?)
    (computes : ∀ o item, selection? s.buffer written o = some (.ref n, item) →
      ∃ e, s.fresh (.ref n) = .ok e ∧ e.eval callees env = .ok ws) :
    Stands s s' written callees (.ref n :: known) (env.insert (.ref n) ws) env₁ := by
  have older : Stands s s' written callees known (env.insert (.ref n) ws) env₁ := by
    refine stands.insert eligible fits same fun o src item y selects member h => ?_
    have before : src < .ref n := early src member
    refine ⟨fun same => absurd (same ▸ before) (Nat.lt_irrefl _), (eligible.draws_before selects h).imp ?_⟩
    rintro j ts _ lower rfl
    exact absurd (Nat.lt_trans lower before) (Nat.lt_irrefl _)
  refine ⟨older.full, older.same, fun o src item x y selects member kept shown hx hy => ?_⟩
  rcases List.mem_cons.1 member with rfl | known
  · obtain ⟨e, computed, evaluated⟩ := computes o item selects
    obtain ⟨e', y', computed', valued, _, _, reads⟩ := eligible.captured selects shown kept hx
    obtain rfl := Except.ok.inj (computed.symm.trans computed')
    obtain rfl := Except.ok.inj (hy.symm.trans valued)
    exact reads sized stands.full evaluated
  · exact older.fresh o src item x y selects known kept shown hx hy

end Stands

/-! ### One statement -/

/-- The code so far before and after elision, up to the atom numbered `n`. -/
structure InStep (s s' : Scope) (written : IndexSet) (rounds : Nat) (callees callees' : Callees) (course : Course)
    (n : Nat) (st st' : State) : Prop where
  keeps : st.Keeps rounds callees callees' (Stands s s' written callees) course st'
  slots : ∀ j, Shown s'.function j → st'.slots[j]? = st.slots[j]?
  nested : course.Nested
  early : ∀ j ∈ course.here, j < .ref n

variable {course : Course} {st st' next : State} {e e' : Expr} {ts : List Prim}

theorem Nested.cons (nested : course.Nested) (i : Index) : ({ course with here := i :: course.here } : Course).Nested :=
  .cons (fun outer member => List.Subset.trans ((List.pairwise_cons.1 nested).1 outer member) (List.subset_cons_self _ _))
    (List.pairwise_cons.1 nested).2

namespace InStep

variable (inStep : InStep s s' written rounds callees callees' course n st st')

include inStep

theorem early_cons : ∀ j ∈ Index.ref n :: course.here, j < .ref (n + 1) := by
  intro j member
  rcases List.mem_cons.1 member with rfl | known
  · exact Nat.lt_succ_self _
  · exact Nat.lt_succ_of_lt (inStep.early j known)

theorem append {c c' : Code}
    (piece : c.Keeps rounds callees callees' (Stands s s' written callees course.here)
      (Stands s s' written callees (.ref n :: course.here))
      (Stands s s' written callees (roundStart st.frames course.around)) c') :
    InStep s s' written rounds callees callees' { course with here := .ref n :: course.here } (n + 1) (st.append c)
      (st'.append c') := by
  exact ⟨inStep.keeps.append piece, inStep.slots, Nested.cons inStep.nested _, inStep.early_cons⟩

end InStep

namespace Elides

variable (elides : Elides s s' written)

include elides

theorem operands_known (shown : Shown s.function (.ref n)) (shown' : Shown s'.function (.ref n))
    (found : s.buffer.atoms[n]? = some a) (settles : a.operands.all (settled s.buffer written known) = true) (o : Index)
    (address : o = a.addresses.1 ∨ o = a.addresses.2 ∧ a.isBranch = false) : Known s s' written known o := by
  cases o with
  | null => exact elides.known_null
  | ref k =>
    refine ⟨⟨_, List.all_eq_true.1 settles _ (Atom.mem_operands.2 ⟨rfl, address⟩)⟩,
      shown.operand elides.eligible.grounded.closed found address, shown'.operand elides.closed (elides.image found) ?_⟩
    rw [Atom.addresses_mapAddresses elides.diverts.null]
    exact address.imp (congrArg _) fun ⟨same, plain⟩ => ⟨congrArg _ same, by cases a <;> first | rfl | exact plain⟩

variable (inStep : InStep s s' written rounds callees callees' course n st st') (sized : callees.Sized s.unit)
  (scalars : s.scalars (.ref n) = .ok ts) (gives : e.Gives ts) (draws : e.Draws s.unit s.slots fun _ => True)
  (computes : ∀ o item, selection? s.buffer written o = some (.ref n, item) → s.fresh (.ref n) = .ok e)

include inStep sized gives draws computes

theorem bound {env env' env₁ : Env} {ws : List Word} (held : s.slots[Index.ref n]? = some ts)
    (stands : Stands s s' written callees course.here env env') (evaluated : e.eval callees env = .ok ws)
    (same : ∀ j, Shown s'.function j → env₁[j]? = (env.insert (.ref n) (ws.take ts.length))[j]?) :
    Stands s s' written callees (.ref n :: course.here) (env.insert (.ref n) (ws.take ts.length)) env₁ := by
  have length := gives.eval_length draws sized stands.full evaluated
  rw [← length, List.take_length] at same ⊢
  refine stands.bind elides.eligible sized inStep.early (fun us known => ?_) same fun o item selects =>
    ⟨e, computes o item selects, evaluated⟩
  rw [held, Option.some.injEq] at known
  rw [← known, length]

include scalars

theorem bind (shown' : Shown s'.function (.ref n)) (fixed : replacement s.buffer (.ref n) = .ref n)
    (keeps : e.Keeps callees callees' (Stands s s' written callees course.here) e')
    (final : ∀ us, next.slots[Index.ref n]? = some us → s.slots[Index.ref n]? = some us)
    (h : st.bind s (.ref n) e = .ok next) :
    ∃ next', st'.bind s' (.ref n) e' = .ok next' ∧
      InStep s s' written rounds callees callees' { course with here := .ref n :: course.here } (n + 1) next next' := by
  have scalars' : s'.scalars (.ref n) = .ok ts := by
    have kindred := elides.kindred (.ref n) (fixed.symm ▸ shown')
    rw [fixed] at kindred
    exact kindred.scalars scalars
  unfold State.bind at h ⊢
  rw [scalars, Except.ok_bind] at h
  rw [scalars', Except.ok_bind, keeps.registers, keeps.width]
  simp only [gives.width, List.take_length] at h ⊢
  split at h
  · cases h
  · rename_i fits
    rw [if_neg fits]
    cases h
    have held : s.slots[Index.ref n]? = some ts := final ts (by simp)
    have assigned : InStep s s' written rounds callees callees' { course with here := .ref n :: course.here } (n + 1)
        (st.append (.assign (.ref n) ts.length e)) (st'.append (.assign (.ref n) ts.length e')) := inStep.append ⟨?_, ?_⟩
    · refine ⟨_, rfl, ⟨assigned.keeps.code, assigned.keeps.frames⟩, fun j inside => ?_, assigned.nested, assigned.early⟩
      simp only [Std.ExtTreeMap.getElem?_insert, inStep.slots j inside]
    · refine .assign keeps.agrees fun env env' ws stands evaluated => ?_
      refine elides.bound inStep sized gives draws computes held stands evaluated fun j inside => ?_
      simp only [Std.ExtTreeMap.getElem?_insert, stands.same j inside]
    · exact keeps.accepted

theorem bind_alone (hidden : ¬ Shown s'.function (.ref n))
    (final : ∀ us, next.slots[Index.ref n]? = some us → s.slots[Index.ref n]? = some us)
    (h : st.bind s (.ref n) e = .ok next) :
    InStep s s' written rounds callees callees' { course with here := .ref n :: course.here } (n + 1) next st' := by
  unfold State.bind at h
  rw [scalars, Except.ok_bind, gives.width, List.take_length] at h
  simp only at h
  split at h
  · cases h
  · cases h
    have held : s.slots[Index.ref n]? = some ts := final ts (by simp)
    have other : ∀ {j}, Shown s'.function j → Index.ref n ≠ j := fun inside same => hidden (same ▸ inside)
    have assigned : (st.append (.assign (.ref n) ts.length e)).Keeps rounds callees callees' (Stands s s' written callees)
        { course with here := .ref n :: course.here } st' := by
      refine inStep.keeps.alone fun env env' flow stands ran => ?_
      obtain ⟨ws, evaluated, same⟩ := Except.bind_ok ran
      cases same
      refine ⟨_, rfl, elides.bound inStep sized gives draws computes held stands evaluated fun j inside => ?_⟩
      simp [Std.ExtTreeMap.getElem?_insert, other inside, stands.same j inside]
    refine ⟨⟨assigned.code, assigned.frames⟩, fun j inside => ?_, Nested.cons inStep.nested _, inStep.early_cons⟩
    simp [Std.ExtTreeMap.getElem?_insert, other inside, inStep.slots j inside]

end Elides

theorem unread_of_other (found : s.buffer.atoms[n]? = some a) (other : ∀ ty args mode, a ≠ .construct ty args mode)
    (o item : Index) : selection? s.buffer written o ≠ some (.ref n, item) := by
  intro selects
  obtain ⟨_, _, ty, args, mode, _, selection⟩ := selection?_eq_some selects
  exact other ty args mode (Option.some.inj (found.symm.trans selection.built))

theorem unread_of_blank {ty args : Index} {mode : Mode} (found : s.buffer.atoms[n]? = some (.construct ty args mode))
    (blank : args.isNull = true) (o item : Index) : selection? s.buffer written o ≠ some (.ref n, item) := by
  intro selects
  obtain ⟨_, _, _, _, _, _, selection⟩ := selection?_eq_some selects
  obtain ⟨rfl, rfl, rfl⟩ := Atom.construct.inj (Option.some.inj (found.symm.trans selection.built))
  rw [selection.given] at blank
  cases blank

namespace InStep

variable (inStep : InStep s s' written rounds callees callees' course n st st')
  (unread : ∀ o item, selection? s.buffer written o ≠ some (.ref n, item))

include inStep unread

theorem idle : InStep s s' written rounds callees callees' { course with here := .ref n :: course.here } (n + 1) st st' :=
  ⟨⟨inStep.keeps.code.imp (fun _ _ stands => stands) fun _ _ stands => stands.cons unread, inStep.keeps.frames⟩,
    inStep.slots, Nested.cons inStep.nested _, inStep.early_cons⟩

theorem discard_alone : InStep s s' written rounds callees callees' { course with here := .ref n :: course.here } (n + 1)
    (st.append (.discard e)) st' := by
  refine ⟨inStep.keeps.alone fun env env' flow stands ran => ?_, inStep.slots, Nested.cons inStep.nested _, inStep.early_cons⟩
  obtain ⟨_, _, same⟩ := Except.bind_ok ran
  cases same
  exact ⟨env, rfl, stands.cons unread⟩

end InStep

namespace Elides

variable (elides : Elides s s' written) (inStep : InStep s s' written rounds callees callees' course n st st')
  (sized : callees.Sized s.unit) (shown : Shown s.function (.ref n)) (found : s.buffer.atoms[n]? = some a)
  (final : ∀ us, next.slots[Index.ref n]? = some us → s.slots[Index.ref n]? = some us)

include elides inStep sized shown found final

section

variable (hidden : ¬ Shown s'.function (.ref n))

include hidden

theorem fresh_alone (h : (s.fresh (.ref n) >>= st.bind s (.ref n)) = .ok next) :
    InStep s s' written rounds callees callees' { course with here := .ref n :: course.here } (n + 1) next st' := by
  obtain ⟨e, computed, h⟩ := Except.bind_ok h
  obtain ⟨ts, scalars, gives⟩ := elides.eligible.grounded.fresh_yields shown computed
  exact elides.bind_alone inStep sized scalars gives
    (elides.eligible.orderly.fresh .all (fun _ _ => rfl) found (fun _ _ => trivial) computed).2 (fun _ _ _ => computed)
    hidden final h

theorem step_alone (plain : a.isSideEffect = false) (acts : a.isDeclaration = false)
    (h : Scopes.act s st (.ref n) a = .ok next) :
    InStep s s' written rounds callees callees' { course with here := .ref n :: course.here } (n + 1) next st' := by
  have bound := elides.fresh_alone inStep sized shown found final hidden
  cases a with
  | store | ret | branch | call => cases plain
  | qualifier | type | list => cases acts
  | intrinsic code args =>
    have unread : ∀ o item, selection? s.buffer written o ≠ some (.ref n, item) :=
      unread_of_other found (by rintro _ _ _ ⟨⟩)
    simp only [Scopes.act] at h
    split at h
    · cases h
      exact inStep.idle unread
    · unfold effect at h
      obtain ⟨ty, _, h⟩ := Except.bind_ok h
      split at h
      · obtain ⟨e, _, h⟩ := Except.bind_ok h
        cases h
        exact inStep.discard_alone unread
      · exact bound h
  | construct ty args mode =>
    cases mode with
    | transient => cases acts
    | normal =>
      rw [Scopes.act_construct] at h
      split at h
      · rename_i blank
        obtain ⟨ts, scalars, h⟩ := Except.bind_ok h
        exact elides.bind_alone inStep sized scalars (.zeros ts) trivial
          (fun o item selects => absurd selects (unread_of_blank found blank o item)) hidden final h
      · exact bound h
  | literal | swizzle | operation | load | access => exact bound h

end

section

variable (below : callees.Below callees') (shown' : Shown s'.function (.ref n))
  (fixed : replacement s.buffer (.ref n) = .ref n)

include below shown' fixed

theorem fresh_step
    (operands : ∀ o, o = a.addresses.1 ∨ o = a.addresses.2 ∧ a.isBranch = false → Known s s' written course.here o)
    (h : (s.fresh (.ref n) >>= st.bind s (.ref n)) = .ok next) :
    ∃ next', (s'.fresh (.ref n) >>= st'.bind s' (.ref n)) = .ok next' ∧
      InStep s s' written rounds callees callees' { course with here := .ref n :: course.here } (n + 1) next next' := by
  obtain ⟨e, computed, h⟩ := Except.bind_ok h
  obtain ⟨ts, scalars, gives⟩ := elides.eligible.grounded.fresh_yields shown computed
  obtain ⟨e', computed', keeps⟩ := elides.fresh below sized shown shown' found fixed operands computed
  rw [computed', Except.ok_bind]
  exact elides.bind inStep sized scalars gives
    (elides.eligible.orderly.fresh .all (fun _ _ => rfl) found (fun _ _ => trivial) computed).2 (fun _ _ _ => computed)
    shown' fixed keeps final h

theorem effect_step
    (operands : ∀ o, o = a.addresses.1 ∨ o = a.addresses.2 ∧ a.isBranch = false → Known s s' written course.here o)
    (unread : ∀ o item, selection? s.buffer written o ≠ some (.ref n, item))
    (h : Native.effect s st (.ref n) = .ok next) :
    ∃ next', Native.effect s' st' (.ref n) = .ok next' ∧
      InStep s s' written rounds callees callees' { course with here := .ref n :: course.here } (n + 1) next next' := by
  unfold Native.effect at h ⊢
  obtain ⟨ty, known, h⟩ := Except.bind_ok h
  have known' := elides.typeOf _ _ known
  rw [fixed] at known'
  rw [known', Except.ok_bind]
  split at h
  · rename_i nothing
    rw [if_pos nothing]
    obtain ⟨e, computed, h⟩ := Except.bind_ok h
    cases h
    obtain ⟨e', computed', keeps⟩ := elides.fresh below sized shown shown' found fixed operands computed
    rw [computed', Except.ok_bind]
    exact ⟨_, rfl, inStep.append ⟨(Code.Tracks.discard keeps.agrees).imp (fun _ _ stands => stands)
      fun _ _ stands => stands.cons unread, keeps.accepted⟩⟩
  · rename_i something
    rw [if_neg something]
    exact elides.fresh_step inStep sized shown found final below shown' fixed operands h

end

omit sized in
theorem store_step {dst src : Index} (shown' : Shown s'.function (.ref n)) (store : a = .store dst src)
    (value : ∀ {e : Expr}, s.value src = .ok e → ∃ e', s'.value (replacement s.buffer src) = .ok e' ∧
      e.Keeps callees callees' (Stands s s' written callees course.here) e')
    (h : Scopes.act s st (.ref n) a = .ok next) :
    ∃ next', Scopes.act s' st' (.ref n) (a.mapAddresses (replacement s.buffer)) = .ok next' ∧
      InStep s s' written rounds callees callees' { course with here := .ref n :: course.here } (n + 1) next next' := by
  subst store
  have eligible := elides.eligible
  have way := storage_of_store eligible.stores eligible.orderly.backward found
  have stays := elides.fixed_of_way way
  have target : Shown s.function dst := shown.operand eligible.grounded.closed found (Or.inl rfl)
  have target' : Shown s'.function dst := by
    refine shown'.operand elides.closed (elides.image found) ?_
    rw [Atom.addresses_mapAddresses elides.diverts.null]
    exact Or.inl stays.symm
  have early : dst.rank ≤ s'.buffer.size + 1 := by
    have before : dst.rank < n + 1 := eligible.orderly.backward.address_lt found (Or.inl rfl)
    have inside : n < s.buffer.size := (Array.getElem?_eq_some_iff.1 found).1
    rw [elides.size]
    omega
  have unread : ∀ o item, selection? s.buffer written o ≠ some (.ref n, item) :=
    unread_of_other found (by rintro _ _ _ ⟨⟩)
  simp only [Scopes.act, Atom.mapAddresses, stays] at h ⊢
  obtain ⟨p, there, h⟩ := Except.bind_ok h
  obtain ⟨e, computed, h⟩ := Except.bind_ok h
  obtain ⟨there', own, held⟩ := elides.place way target target' early there
  obtain ⟨e', computed', keeps⟩ := value computed
  rw [there', Except.ok_bind, computed', Except.ok_bind, keeps.width, keeps.registers]
  split at h
  · cases h
  · rename_i exact
    rw [if_neg exact]
    split at h
    · cases h
    · rename_i fits
      rw [if_neg fits]
      cases h
      -- what is known does not draw on the variable that is written
      have writes : p.owner ∈ stored s.buffer :=
        List.mem_filterMap.2 ⟨_, Array.mem_toList_iff.2 (Array.mem_of_getElem? found), by rw [placeAt_owner there]; rfl⟩
      refine ⟨_, rfl, inStep.append ⟨.update keeps.agrees ?_ ?_, keeps.accepted⟩⟩
      · intro env env' stands
        rw [Env.slot, stands.same _ own, Env.slot]
      · intro env env' ws stands _
        refine (stands.insert eligible (fun ts known => ?_) (fun j inside => ?_) ?_).cons unread
        · rw [held, Option.some.injEq] at known
          rw [length_replaceAt, stands.full _ _ held, known]
        · simp only [Std.ExtTreeMap.getElem?_insert, stands.same j inside]
        · intro o src item y selects _ valued
          refine ⟨fun same => eligible.not_stored selects (same ▸ writes), (eligible.draws_unwritten selects valued).imp ?_⟩
          rintro j ts _ unwritten rfl
          exact unwritten writes

omit sized shown found final in
theorem ret_step {result : Index} (ret : a = .ret result)
    (value : ∀ {e : Expr}, s.value result = .ok e → ∃ e', s'.value (replacement s.buffer result) = .ok e' ∧
      e.Keeps callees callees' (Stands s s' written callees course.here) e')
    (h : Scopes.act s st (.ref n) a = .ok next) :
    ∃ next', Scopes.act s' st' (.ref n) (a.mapAddresses (replacement s.buffer)) = .ok next' ∧
      InStep s s' written rounds callees callees' { course with here := .ref n :: course.here } (n + 1) next next' := by
  subst ret
  rw [Scopes.act_ret] at h
  rw [Atom.mapAddresses, Scopes.act_ret, elides.present]
  split at h
  · rename_i bare
    rw [if_pos bare]
    cases h
    exact ⟨_, rfl, inStep.append ⟨.ret fun _ _ _ => .refl _, id⟩⟩
  · rename_i given
    rw [if_neg given]
    obtain ⟨e, computed, h⟩ := Except.bind_ok h
    obtain ⟨layout, laid, h⟩ := Except.bind_ok h
    cases h
    obtain ⟨e', computed', keeps⟩ := value computed
    rw [computed', Except.ok_bind, elides.returns _ laid, Except.ok_bind]
    refine ⟨_, rfl, inStep.append ⟨.ret keeps.agrees, fun accepted => ?_⟩⟩
    simp only [Code.accepted, Bool.and_eq_true, keeps.registers] at accepted ⊢
    exact ⟨keeps.accepted accepted.1, accepted.2⟩

omit elides sized shown found final in
theorem branch_step {kind : BranchKind} {cond failto : Index} (branch : a = .branch kind cond failto)
    (value : ∀ {e : Expr}, s.value cond = .ok e → ∃ e', s'.value (replacement s.buffer cond) = .ok e' ∧
      e.Keeps callees callees' (Stands s s' written callees (course.tested kind)) e')
    (h : Scopes.act s st (.ref n) a = .ok next) :
    ∃ next', Scopes.act s' st' (.ref n) (a.mapAddresses (replacement s.buffer)) = .ok next' ∧
      InStep s s' written rounds callees callees' (course.turn kind) (n + 1) next next' := by
  subst branch
  have tested : ∀ e, s.condition cond = .ok e → ∃ e', s'.condition (replacement s.buffer cond) = .ok e' ∧
      e.Keeps callees callees' (Stands s s' written callees (course.tested kind)) e' := by
    intro e computed
    unfold Scope.condition at computed ⊢
    obtain ⟨e, inner, single⟩ := Except.bind_ok computed
    obtain ⟨e', inner', keeps⟩ := value inner
    rw [inner', Except.ok_bind, keeps.width]
    split at single
    · rename_i one
      cases single
      rw [if_pos one]
      exact ⟨e', rfl, keeps⟩
    · cases single
  obtain ⟨next', turned, keeps, slots, slots'⟩ :
      ∃ next', Native.branch s' st' (.ref n) kind (replacement s.buffer cond) = .ok next' ∧ _ ∧ _ ∧ _ :=
    inStep.keeps.branch Stands.antitone inStep.nested tested h
  refine ⟨next', turned, keeps, fun j shown => ?_, inStep.nested.turn kind, ?_⟩
  · rw [slots, slots', inStep.slots j shown]
  · exact fun j member => Nat.lt_succ_of_lt (inStep.early j (inStep.nested.turn_subset kind member))

theorem construct_step {ty args : Index} (below : callees.Below callees') (shown' : Shown s'.function (.ref n))
    (fixed : replacement s.buffer (.ref n) = .ref n) (construct : a = .construct ty args .normal)
    (operands : ∀ o, o = a.addresses.1 ∨ o = a.addresses.2 ∧ a.isBranch = false → Known s s' written course.here o)
    (h : Scopes.act s st (.ref n) a = .ok next) :
    ∃ next', Scopes.act s' st' (.ref n) (a.mapAddresses (replacement s.buffer)) = .ok next' ∧
      InStep s s' written rounds callees callees' { course with here := .ref n :: course.here } (n + 1) next next' := by
  subst construct
  rw [Scopes.act_construct] at h
  rw [Atom.mapAddresses, Scopes.act_construct, elides.present]
  split at h
  · rename_i blank
    rw [if_pos blank]
    obtain ⟨ts, scalars, h⟩ := Except.bind_ok h
    have kindred := elides.kindred (.ref n) (fixed.symm ▸ shown')
    rw [fixed] at kindred
    rw [kindred.scalars scalars, Except.ok_bind]
    exact elides.bind inStep sized scalars (.zeros ts) trivial
      (fun o item selects => absurd selects (unread_of_blank found blank o item)) shown' fixed
      ((Expr.congruent_keeps s.unit below).zeros ts) final h
  · rename_i given
    rw [if_neg given]
    exact elides.fresh_step inStep sized shown found final below shown' fixed operands h

theorem step (below : callees.Below callees') (shown' : Shown s'.function (.ref n))
    (fixed : replacement s.buffer (.ref n) = .ref n) (acts : a.isDeclaration = false)
    (settles : a.operands.all (settled s.buffer written (before course a)) = true)
    (h : Scopes.act s st (.ref n) a = .ok next) :
    ∃ next', Scopes.act s' st' (.ref n) (a.mapAddresses (replacement s.buffer)) = .ok next' ∧
      InStep s s' written rounds callees callees' (after course (.ref n) a) (n + 1) next next' := by
  have eligible := elides.eligible
  have inside : n < s.buffer.size := (Array.getElem?_eq_some_iff.1 found).1
  have known : ∀ o, o = a.addresses.1 ∨ o = a.addresses.2 ∧ a.isBranch = false →
      Known s s' written (before course a) o ∧ (replacement s.buffer o).rank ≤ s'.buffer.size + 1 := by
    intro o address
    have lower : (replacement s.buffer o).rank ≤ o.rank := elides.diverts.lower o
    have before : o.rank < n + 1 := eligible.orderly.backward.address_lt found address
    rw [elides.size]
    exact ⟨elides.operands_known shown shown' found settles o address, by omega⟩
  have value : ∀ {o : Index} {e : Expr}, o = a.addresses.1 ∨ o = a.addresses.2 ∧ a.isBranch = false → s.value o = .ok e →
      ∃ e', s'.value (replacement s.buffer o) = .ok e' ∧
        e.Keeps callees callees' (Stands s s' written callees (before course a)) e' :=
    fun address computed => elides.value below sized (known _ address).1 computed (known _ address).2
  have bound := elides.fresh_step inStep sized shown found final below shown' fixed
  have effect := elides.effect_step inStep sized shown found final below shown' fixed
  cases a with
  | qualifier | type | list => cases acts
  | store dst src => exact elides.store_step inStep shown found final shown' rfl (value (Or.inr ⟨rfl, rfl⟩)) h
  | ret result => exact elides.ret_step inStep rfl (value (Or.inl rfl)) h
  | branch kind cond failto => exact branch_step inStep rfl (value (Or.inl rfl)) h
  | intrinsic code args =>
    simp only [Scopes.act, Atom.mapAddresses] at h ⊢
    split at h
    · rename_i layout
      rw [if_pos layout]
      cases h
      exact ⟨_, rfl, inStep.idle (unread_of_other found (by rintro _ _ _ ⟨⟩))⟩
    · rename_i other
      rw [if_neg other]
      exact effect (fun o address => (known o address).1) (unread_of_other found (by rintro _ _ _ ⟨⟩)) h
  | call id ty args => exact effect (fun o address => (known o address).1) (unread_of_other found (by rintro _ _ _ ⟨⟩)) h
  | construct ty args mode =>
    cases mode with
    | transient => cases acts
    | normal =>
      exact elides.construct_step inStep sized shown found final below shown' fixed rfl
        (fun o address => (known o address).1) h
  | literal | swizzle | operation | load | access => exact bound (fun o address => (known o address).1) h

end Elides

end ShaderForge.Optimizer
