import ShaderForge.Proofs.Optimizer.Distinct
import ShaderForge.Proofs.Optimizer.ElisionSteps

/-!
Names play no part in elision. Buffers that differ in decorations only forward the same reads, and fail alike
up to what is said of the failure.
-/

namespace ShaderForge

/-- Buffers that differ in names at most. -/
structure Buffer.SameContent (b c : Buffer) : Prop where
  atoms : b.atoms = c.atoms
  types : b.types = c.types
  synthesized : b.synthesized = c.synthesized
  marked : b.marked = c.marked

namespace Optimizer

open Buffer Native

theorem readsWrittenFrom_cons (b : Buffer) (written seen : IndexSet) (i : Index) (rest : List Index) :
    readsWrittenFrom b written seen (i :: rest) =
      if i.isNull || seen.contains i then readsWrittenFrom b written seen rest
      else if written.contains i then .ok true
      else if b.isSynthesized i then readsWrittenFrom b written (seen.insert i) rest
      else b.atom i >>= fun a => readsWrittenFrom b written (seen.insert i) (followed a ++ rest) := by
  rw [readsWrittenFrom]
  refine if_congr Iff.rfl rfl (if_congr Iff.rfl rfl (if_congr Iff.rfl rfl ?_))
  split <;> rename_i found <;> rw [found] <;> rfl

variable {b c : Buffer} (same : b.SameContent c)

include same

namespace SameContent

theorem get? (i : Index) : b.get? i = c.get? i := by
  cases i with
  | null => rfl
  | ref n => rw [get?_ref, get?_ref, same.atoms]

theorem indexed : b.indexed = c.indexed := by
  rw [Buffer.indexed, Buffer.indexed, same.atoms]

theorem size : b.size = c.size := by
  rw [Buffer.size, Buffer.size, same.atoms]

theorem isSynthesized (i : Index) : b.isSynthesized i = c.isSynthesized i := by
  rw [Buffer.isSynthesized, Buffer.isSynthesized, same.synthesized]

theorem isMarked (i : Index) : b.isMarked i = c.isMarked i := by
  rw [Buffer.isMarked, Buffer.isMarked, same.marked]

theorem table (i : Index) : b.table i = c.table i := by
  rw [Buffer.table, Buffer.table, same.types]

variable (typed : b.Typed) (typed' : c.Typed)

section

include typed typed'

theorem typeOf_ok_iff {i : Index} {ty : Ty} : b.typeOf i = .ok ty ↔ c.typeOf i = .ok ty := by
  rw [typed.typeOf_ok_iff, typed'.typeOf_ok_iff, SameContent.table same]

theorem typeOf (i : Index) : (b.typeOf i).toOption = (c.typeOf i).toOption :=
  Except.toOption_congr fun _ => SameContent.typeOf_ok_iff same typed typed'

/-! ### Forwarded reads -/

theorem allOf (p : Prim) (items : List Index) : (allOf b p items).toOption = (Optimizer.allOf c p items).toOption := by
  induction items with
  | nil => rfl
  | cons i rest ih =>
    unfold Optimizer.allOf
    rw [Except.toOption_bind, Except.toOption_bind, SameContent.typeOf same typed typed']
    congr 1
    funext ty
    split
    · exact ih
    · rfl

theorem isScalarSplit (src : Index) (items : List Index) :
    (isScalarSplit b src items).toOption = (Optimizer.isScalarSplit c src items).toOption := by
  unfold Optimizer.isScalarSplit
  rw [Except.toOption_bind, Except.toOption_bind, SameContent.typeOf same typed typed']
  congr 1
  funext ty
  cases ty.prim? with
  | none => rfl
  | some vector =>
    simp only
    split
    · rfl
    · exact SameContent.allOf same typed typed' _ _

omit typed typed' in
theorem readsWrittenFrom (written seen : IndexSet) (pending : List Index) :
    (readsWrittenFrom b written seen pending).toOption =
      (Optimizer.readsWrittenFrom c written seen pending).toOption := by
  have captured : ∀ i, b.isSynthesized i = c.isSynthesized i := SameContent.isSynthesized same
  fun_induction Optimizer.readsWrittenFrom b written seen pending with
  | case1 => rw [Optimizer.readsWrittenFrom]
  | case2 seen i rest known ih => rw [readsWrittenFrom_cons, if_pos known, ih]
  | case3 seen i rest fresh stale =>
    rw [readsWrittenFrom_cons, if_neg fresh, if_pos stale]
    rfl
  | case4 seen i rest fresh clear bound ih =>
    rw [captured] at bound
    rw [readsWrittenFrom_cons, if_neg fresh, if_neg clear, if_pos bound, ih]
  | case5 seen i rest fresh clear loose a found ih =>
    rw [captured] at loose
    rw [readsWrittenFrom_cons, if_neg fresh, if_neg clear, if_neg loose, Except.toOption_bind,
      ← atom_congr same.atoms, found, ih]
    rfl
  | case6 seen i rest fresh clear loose e failed =>
    rw [captured] at loose
    rw [readsWrittenFrom_cons, if_neg fresh, if_neg clear, if_neg loose, Except.toOption_bind,
      ← atom_congr same.atoms, failed]
    rfl

theorem forwarded? (written : IndexSet) (i : Index) (a : Atom) :
    (forwarded? b written i a).toOption = (Optimizer.forwarded? c written i a).toOption := by
  have built : ∀ src, constructed? b written src = constructed? c written src := by
    intro src
    rw [constructed?, constructed?, SameContent.get? same]
  unfold Optimizer.forwarded? Optimizer.readsWritten
  rw [SameContent.isSynthesized same]
  split
  · rfl
  · cases slot? a with
    | none => rfl
    | some read =>
      obtain ⟨src, slot⟩ := read
      simp only [built]
      cases constructed? c written src with
      | none => rfl
      | some args =>
        simp only [Except.toOption_bind, expandList_congr same.atoms]
        congr 1
        funext items
        cases items[slot]? with
        | none => rfl
        | some item =>
          simp only [Except.toOption_bind]
          refine congrArg₂ Option.bind ?_ (funext fun fits => ?_)
          · cases a with
            | swizzle => exact SameContent.isScalarSplit same typed typed' _ _
            | _ => rfl
          · split
            · rfl
            · simp only [Except.toOption_bind, SameContent.readsWrittenFrom same]

theorem forwards : (forwards b).toOption = (Optimizer.forwards c).toOption := by
  unfold Optimizer.forwards
  rw [Except.toOption_bind, Except.toOption_bind, writtenStorage_congr same.atoms, SameContent.indexed same]
  congr 1
  funext written
  apply Except.toOption_foldlM_congr
  rintro ⟨i, a⟩ _ forward
  simp only [Except.toOption_bind, SameContent.forwarded? same typed typed']

theorem replacement : replacement b = Optimizer.replacement c := by
  have answers := SameContent.forwards same typed typed'
  funext i
  unfold Optimizer.replacement
  revert answers
  cases Optimizer.forwards b <;> cases Optimizer.forwards c <;> intro answers <;> cases answers
  · rfl
  · rfl

theorem selection? (written : IndexSet) (i : Index) : selection? b written i = Optimizer.selection? c written i := by
  unfold Optimizer.selection?
  simp only [SameContent.get? same, SameContent.forwarded? same typed typed']

/-! ### What native code computes -/

theorem fills (i : Index) (a : Atom) : Native.fills b i a = Native.fills c i a := by
  unfold Native.fills
  rw [SameContent.typeOf same typed typed']

theorem owns (i : Index) : owns b i = Optimizer.owns c i := by
  unfold Optimizer.owns
  rw [SameContent.isMarked same, SameContent.get? same]
  simp only [SameContent.fills same typed typed']

omit typed typed' in
theorem beneath? : Native.beneath? b = Native.beneath? c := by
  funext a
  unfold Native.beneath?
  simp only [SameContent.get? same]

omit typed typed' in
theorem owner (i : Index) : owner b i = Optimizer.owner c i := by
  have all : ∀ depth i, ownerAt b depth i = ownerAt c depth i := by
    intro depth
    induction depth with
    | zero => exact fun _ => rfl
    | succ depth ih =>
      intro i
      unfold ownerAt
      rw [SameContent.get? same, SameContent.beneath? same]
      simp only [ih]
  rw [Optimizer.owner, Optimizer.owner, SameContent.size same, all]

omit typed typed' in
theorem stored : stored b = Optimizer.stored c := by
  unfold Optimizer.stored
  simp only [same.atoms, SameContent.owner same]

omit typed typed' in
theorem isRecorded (written : IndexSet) : isRecorded b written = Optimizer.isRecorded c written := by
  unfold Optimizer.isRecorded
  simp only [SameContent.indexed same, SameContent.stored same, SameContent.owner same]

theorem isSealed : isSealed b = Optimizer.isSealed c := by
  unfold Optimizer.isSealed
  simp only [SameContent.indexed same, SameContent.isSynthesized same, SameContent.owns same typed typed',
    SameContent.beneath? same]

theorem fieldwise : fieldwise b = Optimizer.fieldwise c := by
  unfold Optimizer.fieldwise
  rw [SameContent.indexed same]
  congr 1
  funext ⟨i, a⟩
  cases a with
  | construct ty args mode =>
    cases args with
    | null => rfl
    | ref n =>
      have known := SameContent.typeOf same typed typed' i
      have listed := expandList_congr same.atoms (.ref n)
      simp only [SameContent.typeOf same typed typed']
      revert known listed
      cases b.typeOf i <;> cases c.typeOf i <;> intro known <;> cases known
      · exact fun _ => rfl
      · rename_i own
        cases own with
        | data d =>
          cases d with
          | prim p => exact fun _ => rfl
          | struct head =>
            dsimp only
            have chain := fieldChain_congr same.atoms head
            revert chain
            cases b.expandList (.ref n) <;> cases c.expandList (.ref n) <;> cases b.fieldChain head <;>
              cases c.fieldChain head <;> intro chain listed <;> cases chain <;> cases listed <;> rfl
        | _ => exact fun _ => rfl
  | _ => rfl

omit typed typed' in
theorem isProper (i : Index) : isProper b i = Optimizer.isProper c i := by
  unfold Optimizer.isProper
  simp only [SameContent.get? same]

theorem settled (written : IndexSet) (known : List Index) : settled b written known = Optimizer.settled c written known := by
  have all : ∀ depth i, settledAt b written known depth i = settledAt c written known depth i := by
    intro depth
    induction depth with
    | zero => exact fun _ => rfl
    | succ depth ih =>
      intro i
      unfold settledAt
      simp only [SameContent.owns same typed typed', SameContent.selection? same typed typed', SameContent.get? same, ih,
        funext ih]
  funext i
  rw [Optimizer.settled, Optimizer.settled, SameContent.size same, all]

theorem settles (written : IndexSet) (course : Course) (items : List Index) :
    settles b written course items = Optimizer.settles c written course items := by
  induction items generalizing course with
  | nil => rfl
  | cons i rest ih =>
    unfold Optimizer.settles
    simp only [SameContent.get? same, SameContent.settled same typed typed', ih]

theorem elidable {written : IndexSet} (elidable : Elidable b written) : Elidable c written := by
  have stores := writtenStorage_congr same.atoms
  rw [elidable.stores] at stores
  refine ⟨Except.toOption_eq_some_iff.1 stores.symm, ?_, ?_, ?_, fun o src item selects => ?_⟩
  · rw [← SameContent.fieldwise same typed typed']
    exact elidable.fields
  · rw [← SameContent.isRecorded same]
    exact elidable.recorded
  · rw [← SameContent.isSealed same typed typed']
    exact elidable.isolated
  · rw [← SameContent.selection? same typed typed'] at selects
    rw [← SameContent.isMarked same, ← SameContent.isProper same]
    exact elidable.selected o src item selects

end

omit same in
theorem isStatement {f g : Function} (same : f.buffer.SameContent g.buffer) (n : Nat) : f.IsStatement n ↔ g.IsStatement n := by
  rw [Function.IsStatement, Function.IsStatement, same.marked, same.atoms]

omit same in
theorem statements {f g : Function} (same : f.buffer.SameContent g.buffer) : statements f = Native.statements g := by
  have acts : acts f = Native.acts g := by
    funext i
    rw [Native.acts, Native.acts, SameContent.get? same]
  rw [Native.statements, Native.statements, same.marked, acts]

end SameContent

end Optimizer

end ShaderForge
