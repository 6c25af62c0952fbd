import ShaderForge.Proofs.Native.Courses
import ShaderForge.Proofs.Optimizer.Recorded
import ShaderForge.Proofs.Optimizer.Selections

/-!
Values after elision. Where the constructions that an expression reads are known, arguments compute what
was read of them.
-/

namespace ShaderForge.Optimizer

open Buffer Linkage Native

/-! ### What has to be known -/

/-- Whether the constructions that are read for an atom are computed with it, or known. -/
def settledAt (b : Buffer) (written : IndexSet) (known : List Index) : Nat → Index → Bool
  | 0, _ => false
  | depth + 1, i =>
    owns b i ||
      match selection? b written i with
      | some (src, item) => (!owns b src || known.contains src) && settledAt b written known depth item
      | none =>
        match b.get? i with
        | some a => a.operands.all (settledAt b written known depth)
        | none => true

def settled (b : Buffer) (written : IndexSet) (known : List Index) (i : Index) : Bool :=
  settledAt b written known (b.size + 1) i

/-! ### Before elision -/

/-- A buffer whose forwarded reads are read again as they were: the check for written storage covers every
name of what is written, and stops at values that are kept. -/
structure Elidable (b : Buffer) (written : IndexSet) : Prop where
  stores : writtenStorage b = .ok written
  fields : fieldwise b = true
  recorded : isRecorded b written = true
  isolated : isSealed b = true
  selected : ∀ o src item, selection? b written o = some (src, item) → b.isMarked o = false ∧ isProper b src = true

def isElidable (b : Buffer) (written : IndexSet) : Bool :=
  fieldwise b && isRecorded b written && isSealed b &&
    b.indexed.all fun (o, _) => (selection? b written o).all fun (src, _) => !b.isMarked o && isProper b src

theorem elidable_of_isElidable {b : Buffer} {written : IndexSet} (stores : writtenStorage b = .ok written)
    (h : isElidable b written = true) : Elidable b written := by
  simp only [isElidable, Bool.and_eq_true, List.all_eq_true] at h
  obtain ⟨⟨⟨fields, recorded⟩, isolated⟩, selected⟩ := h
  refine ⟨stores, fields, recorded, isolated, fun o src item selects => ?_⟩
  obtain ⟨a, _, _, _, _, _, selection⟩ := selection?_eq_some selects
  have member : (o, a) ∈ b.indexed := by
    cases o with
    | null => cases selection.found
    | ref n => exact mem_indexed.2 ⟨n, rfl, selection.found⟩
  have checked := selected _ member
  rw [selects] at checked
  simpa using checked

/-- A function as it is lowered before elision, with its final slots. -/
structure Eligible (s : Scope) (written : IndexSet) : Prop extends Elidable s.buffer written where
  grounded : s.Grounded
  orderly : s.Orderly
  owned : ∀ j, owns s.buffer j = true → (s.slots[j]?).isSome
  held : ∀ j, (s.slots[j]?).isSome →
    (∃ underlying kind number, s.buffer.get? j = some (.qualifier underlying kind number)) ∨ owns s.buffer j = true
  built : ∀ src ty args, s.buffer.get? src = some (.construct ty args .normal) → args.isNull = false →
    (s.slots[src]?).isSome → ∃ e, s.fresh src = .ok e ∧ e.accepted = true

/-- Where runs before and after elision are: the slots of atoms that stay are the same, and reads of the
known constructions are what their arguments compute. -/
structure Stands (s s' : Scope) (written : IndexSet) (callees : Callees) (known : List Index) (env env' : Env) : Prop where
  full : env.Sized s.slots
  same : ∀ j, Shown s'.function j → env'[j]? = env[j]?
  fresh : ∀ o src item x y, selection? s.buffer written o = some (src, item) → src ∈ known →
    (s.slots[src]?).isSome → Shown s.function o → s.value o = .ok x → s.value item = .ok y →
    Entails (x.eval callees env) (y.eval callees env)

theorem Stands.antitone {s s' : Scope} {written : IndexSet} {callees : Callees} (known less : List Index)
    (fewer : less ⊆ known) (env env' : Env) (stands : Stands s s' written callees known env env') :
    Stands s s' written callees less env env' :=
  ⟨stands.full, stands.same, fun o src item x y selects member => stands.fresh o src item x y selects (fewer member)⟩

/-- The function after elision, next to it. -/
structure Elides (s s' : Scope) (written : IndexSet) : Prop where
  eligible : Eligible s written
  orderly : s'.Orderly
  slots : s'.slots = s.slots
  atoms : ∀ n : Nat, s'.buffer.atoms[n]? = (s.buffer.atoms[n]?).map (·.mapAddresses (replacement s.buffer))
  replaced : ∀ i, replacement s.buffer i = match selection? s.buffer written i with
    | some (_, item) => replacement s.buffer item
    | none => i
  diverts : Diverts s.buffer (replacement s.buffer)
  stated : ∀ n ty args mode, Shown s.function (.ref n) → s.buffer.atoms[n]? = some (.construct ty args mode) →
    replacement s.buffer ty = ty
  present : ∀ i, (replacement s.buffer i).isNull = i.isNull
  typeOf : ∀ i ty, s.typeOf i = .ok ty → s'.typeOf (replacement s.buffer i) = .ok ty
  kindred : ∀ i, Shown s'.function (replacement s.buffer i) → s.Kindred s' i (replacement s.buffer i)
  fieldRange : ∀ i field range, Shown s'.function (replacement s.buffer i) → s.fieldRange i field = .ok range →
    s'.fieldRange (replacement s.buffer i) field = .ok range
  callees : ∀ id callee, s.unit.function? id = some callee → ∃ callee', s'.unit.function? id = some callee' ∧
    (∀ l, argumentLayout s.unit callee = .ok l → argumentLayout s'.unit callee' = .ok l) ∧
    ∀ l, resultLayout s.unit callee = .ok l → resultLayout s'.unit callee' = .ok l
  symbols : ∀ symbol, (s'.unit.functions.any fun f => s'.unit.symbol? f.id == some symbol) =
    s.unit.functions.any fun f => s.unit.symbol? f.id == some symbol
  returns : ∀ l, resultLayout s.unit s.function = .ok l → resultLayout s'.unit s'.function = .ok l
  closed : s'.buffer.UseClosed (· ∈ visibleAtoms s'.buffer)

variable {s s' : Scope} {written : IndexSet} {known : List Index} {o src item i : Index} {x e : Expr}

namespace Eligible

variable (eligible : Eligible s written) (selects : selection? s.buffer written o = some (src, item))

include eligible selects

theorem free : s.slots[o]? = none := by
  obtain ⟨a, slot, ty, args, mode, items, selection⟩ := selection?_eq_some selects
  refine Option.eq_none_iff_forall_ne_some.2 fun ts known => ?_
  rcases eligible.held o (by rw [known]; rfl) with ⟨_, _, _, found⟩ | own
  · obtain rfl := Option.some.inj (selection.found.symm.trans found)
    rcases slot?_eq_some selection.reads with ⟨_, same, _⟩ | ⟨_, same, _⟩ <;> cases same
  · unfold owns at own
    rw [(eligible.selected o src item selects).1, Bool.false_and] at own
    cases own

theorem selection (shown : Shown s.function o) (h : s.value o = .ok x) : s.Selects o src item := by
  unfold Scope.value Scope.valueAt at h
  rw [eligible.free selects] at h
  exact selects_of_selection? eligible.grounded eligible.fields shown selects (eligible.selected o src item selects).2 h

theorem shown_source (shown : Shown s.function o) : Shown s.function src :=
  (UseClosed.selected eligible.grounded.closed selects shown).1

theorem shown_argument (shown : Shown s.function o) : Shown s.function item :=
  (UseClosed.selected eligible.grounded.closed selects shown).2

theorem owns_source (kept : (s.slots[src]?).isSome) : owns s.buffer src = true := by
  obtain ⟨_, _, _, _, _, _, read⟩ := selection?_eq_some selects
  rcases eligible.held src kept with ⟨_, _, _, found⟩ | keeps
  · cases read.built.symm.trans found
  · exact keeps

/-- A read of a construction that is kept computes what the argument computes, once it is kept. -/
theorem captured (shown : Shown s.function o) (kept : (s.slots[src]?).isSome) (h : s.value o = .ok x) :
    ∃ e y, s.fresh src = .ok e ∧ s.value item = .ok y ∧ y.registers = x.registers ∧ y.accepted = true ∧
      ∀ {callees : Callees} {env : Env} {ws : List Word}, callees.Sized s.unit → env.Sized s.slots →
        e.eval callees env = .ok ws →
        Entails (x.eval callees (env.insert src ws)) (y.eval callees (env.insert src ws)) := by
  obtain ⟨a, slot, ty, args, mode, items, read⟩ := selection?_eq_some selects
  have keeps := eligible.owns_source selects kept
  obtain rfl : mode = .normal := by
    unfold owns at keeps
    rw [read.built, Bool.and_eq_true] at keeps
    cases mode with
    | normal => rfl
    | transient => cases keeps.2
  obtain ⟨e, built, accepted⟩ := eligible.built src ty args read.built read.given kept
  obtain ⟨ts, held⟩ := Option.isSome_iff_exists.1 kept
  obtain ⟨y, valued, registers, accepted', reads⟩ := (eligible.selection selects shown h).captured
    eligible.grounded eligible.orderly (eligible.shown_source selects shown) (eligible.free selects) h held built accepted
  exact ⟨e, y, built, valued, registers, accepted', reads⟩

end Eligible

/-! ### Values -/

/-- An atom that both functions show, whose constructions are known. -/
structure Known (s s' : Scope) (written : IndexSet) (known : List Index) (i : Index) : Prop where
  settled : ∃ depth, settledAt s.buffer written known depth i = true
  shown : Shown s.function i
  shown' : Shown s'.function (replacement s.buffer i)

theorem selection?_of_other {n : Nat} {a : Atom} (found : s.buffer.atoms[n]? = some a) (other : slot? a = none) :
    selection? s.buffer written (.ref n) = none := by
  refine Option.eq_none_iff_forall_ne_some.2 fun ⟨src, item⟩ selects => ?_
  obtain ⟨a', slot, _, _, _, _, selection⟩ := selection?_eq_some selects
  obtain rfl := Option.some.inj (found.symm.trans selection.found)
  rw [selection.reads] at other
  cases other

namespace Elides

variable (elides : Elides s s' written)

include elides

theorem known_null : Known s s' written known .null :=
  ⟨⟨1, by simp [settledAt, selection?]⟩, Or.inl rfl, Or.inl elides.diverts.null⟩

theorem image {n : Nat} {a : Atom} (found : s.buffer.atoms[n]? = some a) :
    s'.buffer.atoms[n]? = some (a.mapAddresses (replacement s.buffer)) :=
  (elides.atoms n).trans (congrArg _ found)

theorem atom {n : Nat} {a : Atom} (found : s.buffer.atoms[n]? = some a) :
    s'.atom (.ref n) = .ok (a.mapAddresses (replacement s.buffer)) := by
  unfold Member.atom
  rw [TargetFault.ofFault_ok_iff, atom_ok_iff]
  exact elides.image found

theorem isPlaceholder {ty : Index} (stays : replacement s.buffer ty = ty) (mode : Mode) :
    s'.isPlaceholder (replacement s.buffer ty) mode = s.isPlaceholder ty mode := by
  unfold Member.isPlaceholder
  rw [stays]
  cases ty with
  | null => rfl
  | ref k =>
    have there : s'.buffer.get? (.ref k) = _ := elides.atoms k
    rw [there, get?_ref]
    cases s.buffer.atoms[k]? with
    | none => rfl
    | some a => cases a <;> rfl

theorem operand {n : Nat} {a : Atom} (own : Known s s' written known (.ref n)) (unowned : owns s.buffer (.ref n) = false)
    (stays : selection? s.buffer written (.ref n) = none) (found : s.buffer.atoms[n]? = some a)
    (address : o = a.addresses.1 ∨ o = a.addresses.2 ∧ a.isBranch = false) : Known s s' written known o := by
  have fixed : replacement s.buffer (.ref n) = .ref n := by
    rw [elides.replaced, stays]
  cases o with
  | null => exact elides.known_null
  | ref k =>
    refine ⟨?_, own.shown.operand elides.eligible.grounded.closed found address, ?_⟩
    · obtain ⟨depth, settled⟩ := own.settled
      cases depth with
      | zero => cases settled
      | succ depth =>
        rw [settledAt, unowned, stays, get?_ref, found] at settled
        exact ⟨depth, List.all_eq_true.1 settled _ (Atom.mem_operands.2 ⟨rfl, address⟩)⟩
    · refine (fixed ▸ own.shown').operand elides.closed (elides.image found) ?_
      rw [Atom.addresses_mapAddresses elides.diverts.null]
      exact address.imp (congrArg _) fun ⟨same, plain⟩ => ⟨congrArg _ same, by cases a <;> first | rfl | exact plain⟩

theorem atoms_eq : s'.buffer.atoms = (diverted s.buffer (replacement s.buffer)).atoms := by
  refine Array.ext_getElem? fun n => ?_
  rw [elides.atoms, diverted_getElem?]

theorem size : s'.buffer.size = s.buffer.size := by
  unfold Buffer.size
  rw [elides.atoms_eq, diverted, Array.size_map]

theorem items {items : List Index} (own : Known s s' written known i) (h : s.items i = .ok items) :
    s'.items (replacement s.buffer i) = .ok (items.map (replacement s.buffer)) ∧
      ∀ j ∈ items, Known s s' written known j ∧ j.rank ≤ i.rank ∧
        (replacement s.buffer j).rank ≤ (replacement s.buffer i).rank := by
  unfold Member.items at h ⊢
  rw [TargetFault.ofFault_ok_iff, expandList_ok_iff] at h
  rw [TargetFault.ofFault_ok_iff, expandList_ok_iff]
  rw [elides.atoms_eq]
  obtain ⟨fixed, listed⟩ := elides.diverts.items h
  rw [fixed]
  refine ⟨listed, ?_⟩
  suffices each : ∀ j ∈ items, Known s s' written known j ∧ j.rank ≤ i.rank from
    fun j member => ⟨(each j member).1, (each j member).2, Nat.le_trans (elides.diverts.lower j) (each j member).2⟩
  clear fixed listed
  have cell : ∀ {n : Nat} {item next : Index}, Known s s' written known (.ref n) →
      s.buffer.atoms[n]? = some (.list item next) → ∀ o, o = item ∨ o = next → Known s s' written known o ∧
        o.rank ≤ (Index.ref n).rank := by
    intro n item next own found o position
    have address : o = (Atom.list item next).addresses.1 ∨
        o = (Atom.list item next).addresses.2 ∧ (Atom.list item next).isBranch = false :=
      position.imp id fun same => ⟨same, rfl⟩
    exact ⟨elides.operand own (owns_list found) (selection?_of_other found rfl) found address,
      Nat.le_of_lt (elides.eligible.orderly.backward.address_lt found address)⟩
  induction h with
  | nil => exact fun j member => absurd member List.not_mem_nil
  | last found =>
    intro j member
    rw [List.mem_singleton.1 member]
    exact cell own found _ (Or.inl rfl)
  | cons found _ _ ih =>
    intro j member
    rcases List.mem_cons.1 member with rfl | later
    · exact cell own found _ (Or.inl rfl)
    · have next := cell own found _ (Or.inr rfl)
      exact ⟨(ih next.1 j later).1, Nat.le_trans (ih next.1 j later).2 next.2⟩

theorem matched (known : List Index) (r k : Nat) : s.Matches s' (replacement s.buffer) fun i =>
    Known s s' written known i ∧ i.rank < r ∧ (replacement s.buffer i).rank ≤ k where
  isNull _ := elides.present _
  isNil _ asked := ⟨_, elides.typeOf _ _ asked, rfl⟩
  prim _ shape := by
    obtain ⟨ty, asked, bare⟩ := Scope.prim_ok_iff.1 shape
    exact Scope.prim_ok_iff.2 ⟨ty, elides.typeOf _ _ asked, bare⟩
  kindred own := elides.kindred _ own.1.shown'
  fieldRange own range := elides.fieldRange _ _ _ own.1.shown' range
  items {i items} own h := by
    obtain ⟨listed, each⟩ := elides.items own.1 h
    refine ⟨listed, fun j member => ⟨(each j member).1,
      Nat.lt_of_le_of_lt (each j member).2.1 own.2.1, Nat.le_trans (each j member).2.2 own.2.2⟩⟩
  literal {i v} _ found := by
    cases i with
    | null => cases found
    | ref n =>
      rw [elides.diverts.fixed found rfl, get?_ref, elides.atoms, ← get?_ref, found]
      rfl
  callees := elides.callees
  symbols := elides.symbols

theorem argument {callees : Callees} (sized : callees.Sized s.unit) (own : Known s s' written known o)
    (selects : selection? s.buffer written o = some (src, item)) (h : s.value o = .ok x) :
    Known s s' written known item ∧ ∃ y, s.value item = .ok y ∧ y.registers = x.registers ∧
      (x.accepted = true → y.accepted = true) ∧ ∀ env env', Stands s s' written callees known env env' →
        Entails (x.eval callees env) (y.eval callees env) := by
  have eligible := elides.eligible
  have free := eligible.free selects
  have unowned : owns s.buffer o = false := by
    refine Bool.eq_false_iff.2 fun own => ?_
    have := eligible.owned o own
    rw [free] at this
    cases this
  obtain ⟨depth, settles⟩ := own.settled
  obtain ⟨depth, rfl⟩ : ∃ k, depth = k + 1 := by
    cases depth with
    | zero => cases settles
    | succ depth => exact ⟨depth, rfl⟩
  rw [settledAt, unowned, selects, Bool.false_or, Bool.and_eq_true, Bool.or_eq_true, Bool.not_eq_true'] at settles
  refine ⟨⟨⟨depth, settles.2⟩, eligible.shown_argument selects own.shown, ?_⟩, ?_⟩
  · have leads := own.shown'
    rw [elides.replaced, selects] at leads
    exact leads
  have selection := eligible.selection selects own.shown h
  have source := eligible.shown_source selects own.shown
  cases kept : s.slots[src]? with
  | none =>
    obtain ⟨y, valued, registers, accepted, computes⟩ :=
      selection.transient eligible.grounded eligible.orderly source free h kept
    exact ⟨y, valued, registers, accepted, fun env env' stands => computes sized stands.full⟩
  | some ts =>
    have kept' : (s.slots[src]?).isSome := by rw [kept]; rfl
    obtain ⟨_, y, _, valued, registers, accepted, _⟩ := eligible.captured selects own.shown kept' h
    have member : src ∈ known := by
      rcases settles.1 with unowned | member
      · rw [eligible.owns_source selects kept'] at unowned
        cases unowned
      · exact List.contains_iff_mem.1 member
    exact ⟨y, valued, registers, fun _ => accepted,
      fun env env' stands => stands.fresh o src item x y selects member kept' own.shown h valued⟩

variable {callees callees' : Callees}

theorem expressionAt (below : callees.Below callees') {n d : Nat} {a : Atom} (shown : Shown s.function (.ref n))
    (shown' : Shown s'.function (replacement s.buffer (.ref n))) (found : s.buffer.atoms[n]? = some a)
    (fixed : replacement s.buffer (.ref n) = .ref n)
    (operands : ∀ o, o = a.addresses.1 ∨ o = a.addresses.2 ∧ a.isBranch = false → Known s s' written known o)
    (values : ∀ j y, Known s s' written known j → j.rank < n + 1 → s.value j = .ok y → (replacement s.buffer j).rank ≤ d →
      ∃ y', s'.valueAt d (replacement s.buffer j) = .ok y' ∧
        y.Keeps callees callees' (Stands s s' written callees known) y')
    (early : n ≤ d) (h : s.fresh (.ref n) = .ok e) :
    ∃ e', s'.expression (s'.valueAt d) (replacement s.buffer (.ref n)) = .ok e' ∧
      e.Keeps callees callees' (Stands s s' written callees known) e' := by
  have eligible := elides.eligible
  have inside : n < s.buffer.size := (Array.getElem?_eq_some_iff.1 found).1
  have relates : Scope.Relates (replacement s.buffer)
      (fun j => Known s s' written known j ∧ j.rank < n + 1 ∧ (replacement s.buffer j).rank ≤ d)
      (Expr.Keeps callees callees' (Stands s s' written callees known)) (s.valueAt s.buffer.size) (s'.valueAt d) := by
    rintro j y ⟨own, before, early⟩ computed
    exact values j y own before
      (eligible.orderly.valueAt .all (fun _ _ => rfl) trivial (by omega) computed).1 early
  have address : ∀ o, o = a.addresses.1 ∨ o = a.addresses.2 ∧ a.isBranch = false →
      Known s s' written known o ∧ o.rank < n + 1 ∧ (replacement s.buffer o).rank ≤ d := by
    intro o address
    have before : o.rank < n + 1 := eligible.orderly.backward.address_lt found address
    have lower : (replacement s.buffer o).rank ≤ o.rank := elides.diverts.lower o
    exact ⟨operands o address, before, by omega⟩
  have answer : s.atom (.ref n) = .ok a := by
    unfold Member.atom
    rw [TargetFault.ofFault_ok_iff, atom_ok_iff]
    exact found
  refine (elides.matched known (n + 1) d).expression (Expr.congruent_keeps s.unit below) relates
    (elides.kindred _ shown') (address _ (Or.inl rfl)) (fun other => address _ (Or.inr ⟨rfl, other⟩)) answer
    (fixed.symm ▸ elides.atom found) ?_ h
  rintro ty args mode rfl
  exact elides.isPlaceholder (elides.stated n ty args mode shown found) mode

variable (below : callees.Below callees') (sized : callees.Sized s.unit)

include below sized

theorem valueAt {d : Nat} (own : Known s s' written known i) (h : s.value i = .ok e)
    (early : (replacement s.buffer i).rank ≤ d) : ∃ e', s'.valueAt d (replacement s.buffer i) = .ok e' ∧
      e.Keeps callees callees' (Stands s s' written callees known) e' := by
  have eligible := elides.eligible
  obtain ⟨r, rank⟩ : ∃ r, i.rank = r := ⟨_, rfl⟩
  -- operands and arguments come before the atom
  induction r using Nat.strongRecOn generalizing i e d with
  | ind r ih =>
    cases selects : selection? s.buffer written i with
    | some pair =>
      obtain ⟨src, item⟩ := pair
      obtain ⟨argument, y, valued, registers, accepted, agrees⟩ := elides.argument sized own selects h
      have leads : replacement s.buffer i = replacement s.buffer item := by
        rw [elides.replaced, selects]
      have before : item.rank < r := by
        have order := selection?_lt eligible.orderly.backward selects
        exact rank ▸ Nat.lt_trans order.2 order.1
      obtain ⟨e', computed, keeps⟩ := ih item.rank before argument valued (leads ▸ early) rfl
      exact ⟨e', leads ▸ computed, keeps.registers.trans registers, fun taken => keeps.accepted (accepted taken),
        fun env env' stands ws computed => keeps.agrees env env' stands ws (agrees env env' stands ws computed)⟩
    | none =>
      have fixed : replacement s.buffer i = i := by
        rw [elides.replaced, selects]
      rw [fixed] at early ⊢
      unfold Scope.value Scope.valueAt at h
      cases held : s.slots[i]? with
      | some ts =>
        rw [held] at h
        cases h
        obtain ⟨n, rfl⟩ : ∃ n, i = .ref n := by
          cases i with
          | null => rw [eligible.orderly.named] at held; cases held
          | ref n => exact ⟨n, rfl⟩
        obtain ⟨d, rfl⟩ : ∃ k, d = k + 1 := ⟨d - 1, by rw [Index.rank] at early; omega⟩
        rw [Scope.valueAt, elides.slots, held]
        refine ⟨_, rfl, rfl, id, fun env env' stands ws computed => ?_⟩
        rw [Expr.eval, Env.slot, stands.same _ (fixed ▸ own.shown')]
        exact computed
      | none =>
        rw [held] at h
        obtain ⟨a, answer, _⟩ := Except.bind_ok h
        obtain ⟨n, rfl, found⟩ := atom_found answer
        obtain ⟨d, rfl⟩ : ∃ k, d = k + 1 := ⟨d - 1, by rw [Index.rank] at early; omega⟩
        have unowned : owns s.buffer (.ref n) = false := by
          refine Bool.eq_false_iff.2 fun own => ?_
          have := eligible.owned _ own
          rw [held] at this
          cases this
        have computed := elides.expressionAt below own.shown own.shown' found fixed
          (fun o address => elides.operand own unowned selects found address)
          (fun j y own before computed early => ih j.rank (rank ▸ before) own computed early rfl)
          (Nat.le_of_succ_le_succ early) h
        rw [Scope.valueAt, elides.slots, held]
        rw [fixed] at computed
        exact computed

theorem value (own : Known s s' written known i) (h : s.value i = .ok e)
    (early : (replacement s.buffer i).rank ≤ s'.buffer.size + 1) : ∃ e', s'.value (replacement s.buffer i) = .ok e' ∧
      e.Keeps callees callees' (Stands s s' written callees known) e' :=
  elides.valueAt below sized own h early

theorem fresh {n : Nat} {a : Atom} (shown : Shown s.function (.ref n)) (shown' : Shown s'.function (.ref n))
    (found : s.buffer.atoms[n]? = some a) (fixed : replacement s.buffer (.ref n) = .ref n)
    (operands : ∀ o, o = a.addresses.1 ∨ o = a.addresses.2 ∧ a.isBranch = false → Known s s' written known o)
    (h : s.fresh (.ref n) = .ok e) :
    ∃ e', s'.fresh (.ref n) = .ok e' ∧ e.Keeps callees callees' (Stands s s' written callees known) e' := by
  have inside : n < s.buffer.size := (Array.getElem?_eq_some_iff.1 found).1
  have computed := elides.expressionAt below shown (fixed.symm ▸ shown') found fixed operands
    (fun j y own _ computed early => elides.valueAt below sized own computed early)
    (show n ≤ s'.buffer.size by rw [elides.size]; omega) h
  rw [fixed] at computed
  exact computed

end Elides

/-! ### Places -/

theorem storageRun_through {atoms : Array Atom} {n : Nat} {a : Atom} {r : Index} (run : StorageRun atoms (.ref n) r)
    (found : atoms[n]? = some a) (read : a.through? = some src) : StorageRun atoms src r := by
  cases run with
  | here found' own =>
    obtain rfl := Option.some.inj (found.symm.trans found')
    rw [own] at read
    cases read
  | step found' read' rest =>
    obtain rfl := Option.some.inj (found.symm.trans found')
    obtain rfl := Option.some.inj (read.symm.trans read')
    exact rest

def Way (s : Scope) (written : IndexSet) (j : Index) : Prop :=
  (∃ r, StorageRun s.buffer.atoms j r ∧ r ∈ written) ∨
    ∃ underlying kind number, s.buffer.get? j = some (.qualifier underlying kind number)

namespace Elides

variable (elides : Elides s s' written)

include elides

theorem fixed_of_way (way : Way s written i) : replacement s.buffer i = i := by
  cases selects : selection? s.buffer written i with
  | none => rw [elides.replaced, selects]
  | some pair =>
    obtain ⟨src, item⟩ := pair
    obtain ⟨a, slot, ty, args, mode, items, selection⟩ := selection?_eq_some selects
    have read : a.through? = some src := by
      rcases slot?_eq_some selection.reads with ⟨field, rfl, _⟩ | ⟨code, rfl, _⟩ <;> rfl
    rcases way with ⟨r, run, member⟩ | ⟨_, _, _, found⟩
    · cases i with
      | null => cases selection.found
      | ref n =>
        have rest := storageRun_through run selection.found read
        obtain ⟨k, rfl, built⟩ := atom_found selection.atom
        cases rest with
        | here => exact (selection.unwritten member).elim
        | step found read =>
          obtain rfl := Option.some.inj (built.symm.trans found)
          cases read
    · obtain rfl := Option.some.inj (selection.found.symm.trans found)
      cases read

theorem place {p : Scope.Place} (way : Way s written i) (shown : Shown s.function i)
    (shown' : Shown s'.function i) (early : i.rank ≤ s'.buffer.size + 1)
    (h : s.place i = .ok p) :
    s'.place i = .ok p ∧ Shown s'.function p.owner ∧ s.slots[p.owner]? = some p.scalars := by
  let P : Index → Prop := fun j => Way s written j ∧ Shown s.function j ∧ Shown s'.function j
  have fixed : ∀ {j : Index}, P j → replacement s.buffer j = j := fun own => elides.fixed_of_way own.1
  have placed := Scope.placeAt_transfers s' (replacement s.buffer) P
    (fun j field range own covers => elides.fieldRange j field range ((fixed own).symm ▸ own.2.2) covers)
    (fun j ts own held => by rw [fixed own, elides.slots]; exact held)
    (fun j a own answer => by
      obtain ⟨n, rfl, found⟩ := atom_found answer
      have step : ∀ o, o = a.addresses.1 → Way s written o → P o ∧
          (replacement s.buffer o).rank < (replacement s.buffer (.ref n)).rank := by
        intro o address way
        have stays := elides.fixed_of_way way
        have inside : Shown s'.function (replacement s.buffer o) := own.2.2.operand elides.closed (elides.image found) (by
          rw [Atom.addresses_mapAddresses elides.diverts.null, address]
          exact Or.inl rfl)
        rw [stays] at inside
        refine ⟨⟨way, own.2.1.operand elides.eligible.grounded.closed found (Or.inl address), inside⟩, ?_⟩
        rw [stays, fixed own]
        exact elides.eligible.orderly.backward.address_lt found (Or.inl address)
      refine ⟨(fixed own).symm ▸ elides.atom found, ?_, fun o beneath => step o (beneath?_address beneath) ?_⟩
      · rintro ty args mode rfl
        exact elides.isPlaceholder (elides.stated n ty args mode own.2.1 found) mode
      · cases a with
        | swizzle | load =>
          cases beneath
          rcases own.1 with ⟨r, run, member⟩ | ⟨_, _, _, found'⟩
          · exact Or.inl ⟨r, storageRun_through run found rfl, member⟩
          · cases found.symm.trans found'
        | construct ty args mode =>
          obtain ⟨stands, rfl⟩ := beneath?_construct.1 beneath
          exact Or.inr (exists_qualifier_of_placeholder stands)
        | _ => cases beneath)
    ⟨way, shown, shown'⟩ (fixed ⟨way, shown, shown'⟩ ▸ early) h
  obtain ⟨same, own, held⟩ := placed
  rw [fixed own, fixed ⟨way, shown, shown'⟩] at same
  exact ⟨same, own.2.2, held⟩

end Elides

end ShaderForge.Optimizer
