import Mathlib.Data.List.Sort
import ShaderForge.Proofs.Liveness.Fold

/-!
Functions folded onto smaller ones. The signature, the marks and the order of what acts on its own
go over with the atoms.
-/

namespace ShaderForge

open Buffer

theorem eq_of_ascending {α : Type} (key : α → Index) {items others : List α}
    (sorted : items.Pairwise fun x y => key x < key y)
    (sorted' : others.Pairwise fun x y => key x < key y) (same : ∀ x, x ∈ items ↔ x ∈ others) :
    items = others := by
  have irrefl : Std.Irrefl fun x y : α => key x < key y := ⟨fun x => Nat.lt_irrefl (key x).rank⟩
  have antisymm : Std.Antisymm fun x y : α => key x < key y :=
    ⟨fun x y below above => (Nat.lt_asymm below above).elim⟩
  exact sorted.eq_of_mem_iff sorted' same

namespace Buffer

variable {b c : Buffer} {fold : Index → Index}

theorem Folds.congr {b' c' : Buffer} (folds : Folds b c fold) (atoms : b'.atoms = b.atoms)
    (synthesized : b'.synthesized = b.synthesized) (atoms' : c'.atoms = c.atoms)
    (synthesized' : c'.synthesized = c.synthesized) : Folds b' c' fold := by
  refine ⟨folds.null, ?_, ?_, ?_, ?_, folds.backward.of_atoms_eq atoms'.symm⟩
  · intro n a found kept
    rw [atoms] at found
    have image := folds.atoms n a found kept
    cases place : fold (.ref n) with
    | null => rw [place] at image; cases image
    | ref k => rw [place, get?_ref] at image; rw [get?_ref, atoms', image]
  · unfold UseClosed
    rw [atoms]
    exact folds.closed
  · unfold size
    rw [atoms, atoms']
    exact folds.onto
  · unfold size isSynthesized
    rw [atoms, synthesized, synthesized']
    exact folds.captured

theorem Folds.refl (backward : b.Backward) : Folds b b fun i => i := by
  refine ⟨rfl, ?_, fun _ _ _ _ _ _ => rfl, fun k inside => ⟨k, inside, rfl⟩, fun _ _ _ => rfl, backward⟩
  intro n a found _
  rw [get?_ref, found]
  cases a <;> rfl

def selected {α : Type} (b : Buffer) (select : Atom → Option α) : List (Index × α) :=
  b.indexed.filterMap fun (i, a) => (select a).map (i, ·)

theorem mem_selected {α : Type} {select : Atom → Option α} {i : Index} {x : α} :
    (i, x) ∈ b.selected select ↔ ∃ n a, i = .ref n ∧ b.atoms[n]? = some a ∧ select a = some x := by
  unfold selected
  rw [List.mem_filterMap]
  constructor
  · rintro ⟨⟨j, a⟩, member, chosen⟩
    obtain ⟨y, answer, same⟩ := Option.map_eq_some_iff.1 chosen
    cases same
    obtain ⟨n, rfl, found⟩ := mem_indexed.1 member
    exact ⟨n, a, rfl, found, answer⟩
  · rintro ⟨n, a, rfl, found, answer⟩
    exact ⟨(.ref n, a), mem_indexed.2 ⟨n, rfl, found⟩, by simp [answer]⟩

theorem indexed_ascending (b : Buffer) : b.indexed.Pairwise fun p q => p.1 < q.1 := by
  unfold indexed
  rw [List.pairwise_map, List.pairwise_iff_getElem]
  intro i j _ _ below
  simpa using below

theorem selected_ascending {α : Type} (b : Buffer) (select : Atom → Option α) :
    (b.selected select).Pairwise fun p q => p.1 < q.1 := by
  unfold selected
  rw [List.pairwise_filterMap]
  refine b.indexed_ascending.imp ?_
  rintro ⟨i, a⟩ ⟨j, a'⟩ below p first q second
  obtain ⟨_, _, rfl⟩ := Option.map_eq_some_iff.1 first
  obtain ⟨_, _, rfl⟩ := Option.map_eq_some_iff.1 second
  exact below

theorem Solo.kept (null : fold .null = .null) {i : Index} (solo : Solo fold i) : Kept fold i := by
  unfold Kept
  cases place : fold i with
  | null =>
    rw [← solo .null (null.trans place.symm)]
  | ref k =>
    cases i with
    | null => rw [null] at place; cases place
    | ref n => rfl

theorem Folds.selected {α : Type} (folds : Folds b c fold) {select : Atom → Option α} (f : α → α)
    (kept : ∀ (n : Nat) (a : Atom), b.atoms[n]? = some a → (select a).isSome → Kept fold (.ref n))
    (commutes : ∀ a, select (a.mapAddresses fold) = (select a).map f)
    (order : ∀ (n k : Nat) (a a' : Atom), b.atoms[n]? = some a → b.atoms[k]? = some a' →
      (select a).isSome → (select a').isSome → n < k → fold (.ref n) < fold (.ref k)) :
    c.selected select = (b.selected select).map fun (i, x) => (fold i, f x) := by
  refine eq_of_ascending Prod.fst (c.selected_ascending select) ?_ ?_
  · rw [List.pairwise_map]
    refine (b.selected_ascending select).imp_of_mem ?_
    rintro ⟨i, x⟩ ⟨j, y⟩ first second below
    obtain ⟨n, a, rfl, found, answer⟩ := mem_selected.1 first
    obtain ⟨k, a', rfl, found', answer'⟩ := mem_selected.1 second
    rw [Index.ref_lt_ref] at below
    exact order n k a a' found found' (by simp [answer]) (by simp [answer']) below
  · rintro ⟨i, y⟩
    rw [mem_selected, List.mem_map]
    constructor
    · rintro ⟨k, a', rfl, found', answer⟩
      obtain ⟨n, inside, place⟩ := folds.onto k (Array.getElem?_eq_some_iff.1 found').1
      obtain ⟨a, found⟩ := exists_atom inside
      have image := folds.atoms n a found (kept_of_place place)
      rw [place, get?_ref, found', Option.some.injEq] at image
      rw [image, commutes] at answer
      obtain ⟨x, before, rfl⟩ := Option.map_eq_some_iff.1 answer
      exact ⟨(.ref n, x), mem_selected.2 ⟨n, a, rfl, found, before⟩, by simp only [place]⟩
    · rintro ⟨⟨j, x⟩, member, same⟩
      cases same
      obtain ⟨n, a, rfl, found, answer⟩ := mem_selected.1 member
      obtain ⟨k, place, image⟩ := folds.atom_at found (kept n a found (by simp [answer]))
      exact ⟨k, _, place, image, by rw [commutes, answer]; rfl⟩

end Buffer

/-- Atoms that only say what others mean; marking one adds no statement. -/
def Atom.isDeclaration : Atom → Bool
  | .qualifier .. | .type .. | .list .. | .construct _ _ .transient => true
  | _ => false

theorem Atom.isDeclaration_mapAddresses (a : Atom) (f : Index → Index) :
    (a.mapAddresses f).isDeclaration = a.isDeclaration := by
  cases a with
  | construct ty args mode => cases mode <;> rfl
  | _ => rfl

namespace Function

def IsStatement (f : Function) (n : Nat) : Prop :=
  .ref n ∈ f.buffer.marked ∧ ∃ a, f.buffer.atoms[n]? = some a ∧ a.isDeclaration = false

/-- A function goes over to another one, its statements and parameters one to one. -/
structure FoldsTo (f g : Function) (fold : Index → Index) : Prop where
  name : g.name = f.name
  id : g.id = f.id
  folds : Folds f.buffer g.buffer fold
  types : ∀ i ty, Kept fold i → f.buffer.table i = some ty →
    g.buffer.table (fold i) = some (ty.rename fold)
  kept : ∀ i ∈ f.buffer.marked, Kept fold i
  marked : ∀ i, i ∈ g.buffer.marked ↔ ∃ j ∈ f.buffer.marked, fold j = i
  args : g.args = f.args.map (Ty.rename fold)
  returns : g.returns = f.returns.rename fold
  parameters : g.parameters = f.parameters.map fun (i, position) => (fold i, position)
  bound : ∀ p ∈ f.parameters, Solo fold p.1
  solo : ∀ n, f.IsStatement n → Solo fold (.ref n)
  order : ∀ n k, f.IsStatement n → f.IsStatement k → n < k → fold (.ref n) < fold (.ref k)

theorem rename_self (t : Ty) : t.rename (fun i => i) = t := by
  induction t with
  | inArg t ih | outArg t ih | inOutArg t ih => rw [Ty.rename, ih]
  | data d | field d | array d | reference d => cases d <;> rfl
  | _ => rfl

theorem FoldsTo.refl {f : Function} (backward : f.buffer.Backward) : f.FoldsTo f fun i => i := by
  have solo : ∀ i : Index, Solo (fun i => i) i := fun _ _ same => same
  refine ⟨rfl, rfl, Folds.refl backward, ?_, fun _ _ => rfl, ?_, ?_, (rename_self _).symm, ?_, fun _ _ => solo _,
    fun _ _ => solo _, fun _ _ _ _ below => Index.ref_lt_ref.2 below⟩
  · intro i ty _ found
    rw [rename_self]
    exact found
  · intro i
    simp
  · have whole : Ty.rename (fun i => i) = fun t => t := funext rename_self
    rw [whole, List.map_id']
  · simp

section

variable {b c : Buffer} {fold : Index → Index}

/-- The position of a parameter. -/
def position? : Atom → Option Nat
  | .qualifier _ .parameter number => some number.toInt.toNat
  | _ => none

theorem position?_eq_some {a : Atom} {position : Nat} (h : position? a = some position) :
    ∃ underlying number, a = .qualifier underlying .parameter number ∧
      position = number.toInt.toNat := by
  unfold position? at h
  split at h
  · exact ⟨_, _, rfl, (Option.some.inj h).symm⟩
  · cases h

theorem parametersOf_eq (b : Buffer) :
    parametersOf b = (b.selected position?).mergeSort fun p q => p.2 ≤ q.2 := by
  unfold parametersOf Buffer.selected
  simp only
  congr 2
  funext ⟨i, a⟩
  unfold position?
  cases a with
  | qualifier underlying kind number => cases kind <;> rfl
  | _ => rfl

theorem parametersOf_fold (folds : Folds b c fold)
    (kept : ∀ (n : Nat) (a : Atom), b.atoms[n]? = some a → (position? a).isSome → Kept fold (.ref n))
    (order : ∀ (n k : Nat) (a a' : Atom), b.atoms[n]? = some a → b.atoms[k]? = some a' →
      (position? a).isSome → (position? a').isSome → n < k → fold (.ref n) < fold (.ref k)) :
    parametersOf c = (parametersOf b).map fun (i, position) => (fold i, position) := by
  have commutes : ∀ a : Atom, position? (a.mapAddresses fold) = (position? a).map fun x => x := by
    intro a
    rw [Option.map_id']
    cases a with
    | qualifier underlying kind number => cases kind <;> rfl
    | _ => rfl
  rw [parametersOf_eq, parametersOf_eq, folds.selected _ kept commutes order, List.map_mergeSort]
  intro p _ q _
  rfl

theorem argumentTypes_fold {name : String} (typed : b.Typed) (typed' : c.Typed)
    (types : ∀ i ty, Kept fold i → b.table i = some ty → c.table (fold i) = some (ty.rename fold))
    {parameters : List (Index × Nat)} {expected : Nat} {args : List Ty}
    (kept : ∀ p ∈ parameters, Kept fold p.1)
    (h : argumentTypes name b expected parameters = .ok args) :
    argumentTypes name c expected (parameters.map fun (i, position) => (fold i, position)) =
      .ok (args.map (Ty.rename fold)) := by
  induction parameters generalizing expected args with
  | nil => cases h; rfl
  | cons p rest ih =>
    obtain ⟨i, position⟩ := p
    unfold argumentTypes at h
    rw [List.map_cons]
    unfold argumentTypes
    split at h
    · cases h
    · rename_i here
      rw [if_neg here]
      obtain ⟨ty, known, h⟩ := Except.bind_ok h
      obtain ⟨later, others, h⟩ := Except.bind_ok h
      cases h
      have first : Kept fold i := kept _ List.mem_cons_self
      rw [typed'.typeOf_ok_iff.2 (types i ty first (typed.typeOf_ok_iff.1 known)),
        ih (fun p member => kept p (List.mem_cons_of_mem _ member)) others]
      rfl

/-- The value of a return. -/
def returned? : Atom → Option Index
  | .ret value => some value
  | _ => none

def agreedType (name : String) (b : Buffer) : Option Ty → List (Index × Index) →
    Except Fault (Option Ty)
  | known, [] => return known
  | known, (i, value) :: rest => do
    let ty := (← b.typeOf value).bare
    match known with
    | some previous =>
      if previous ≠ ty then .error (b.fault (.returnMismatch i name ty previous))
      else agreedType name b known rest
    | none => agreedType name b (some ty) rest

theorem returnType_eq (name : String) (b : Buffer) (known : Option Ty) (items : List (Index × Atom)) :
    returnType name b known items =
      agreedType name b known (items.filterMap fun (i, a) => (returned? a).map (i, ·)) := by
  induction items generalizing known with
  | nil => rfl
  | cons p rest ih =>
    obtain ⟨i, a⟩ := p
    cases a with
    | ret value =>
      have first : ((i, Atom.ret value) :: rest).filterMap (fun (i, a) => (returned? a).map (i, ·)) =
          (i, value) :: rest.filterMap fun (i, a) => (returned? a).map (i, ·) := rfl
      rw [first]
      unfold returnType agreedType
      refine congrArg (b.typeOf value >>= ·) (funext fun ty => ?_)
      cases known with
      | none => exact ih _
      | some previous =>
        by_cases differ : previous ≠ ty.bare
        · simp only [if_pos differ]
        · simp only [if_neg differ]
          exact ih _
    | _ => exact ih known

theorem agreedType_fold {name : String} (typed : b.Typed) (typed' : c.Typed)
    (types : ∀ i ty, Kept fold i → b.table i = some ty → c.table (fold i) = some (ty.rename fold))
    {items : List (Index × Index)} {known found : Option Ty} (kept : ∀ p ∈ items, Kept fold p.2)
    (h : agreedType name b known items = .ok found) :
    agreedType name c (known.map (Ty.rename fold)) (items.map fun (i, value) => (fold i, fold value)) =
      .ok (found.map (Ty.rename fold)) := by
  induction items generalizing known with
  | nil => cases h; rfl
  | cons p rest ih =>
    obtain ⟨i, value⟩ := p
    unfold agreedType at h
    rw [List.map_cons]
    unfold agreedType
    obtain ⟨ty, answer, h⟩ := Except.bind_ok h
    have first : Kept fold value := kept _ List.mem_cons_self
    have later : ∀ p ∈ rest, Kept fold p.2 := fun p member => kept p (List.mem_cons_of_mem _ member)
    rw [typed'.typeOf_ok_iff.2 (types value ty first (typed.typeOf_ok_iff.1 answer))]
    simp only [bind, Except.bind, Ty.bare_rename]
    cases known with
    | none => exact ih later h
    | some previous =>
      simp only [Option.map_some] at h ⊢
      split at h
      · cases h
      · rename_i agreed
        rw [Decidable.not_not] at agreed
        rw [agreed, if_neg (by simp)]
        rw [agreed] at h
        exact ih later h

theorem returnType_fold {name : String} (folds : Folds b c fold) (typed : b.Typed) (typed' : c.Typed)
    (types : ∀ i ty, Kept fold i → b.table i = some ty → c.table (fold i) = some (ty.rename fold))
    (kept : ∀ (n : Nat) (a : Atom), b.atoms[n]? = some a → (returned? a).isSome → Kept fold (.ref n))
    (order : ∀ (n k : Nat) (a a' : Atom), b.atoms[n]? = some a → b.atoms[k]? = some a' →
      (returned? a).isSome → (returned? a').isSome → n < k → fold (.ref n) < fold (.ref k))
    {found : Option Ty} (h : returnType name b none b.indexed = .ok found) :
    returnType name c none c.indexed = .ok (found.map (Ty.rename fold)) := by
  have commutes : ∀ a : Atom, returned? (a.mapAddresses fold) = (returned? a).map fold := by
    intro a
    cases a <;> rfl
  have rets := folds.selected fold kept commutes order
  rw [returnType_eq] at h ⊢
  unfold Buffer.selected at rets
  rw [rets]
  refine agreedType_fold typed typed' types ?_ h
  rintro ⟨i, value⟩ member
  obtain ⟨n, a, rfl, there, answer⟩ := mem_selected.1 member
  cases a with
  | ret value' =>
    cases answer
    exact folds.kept_address there (kept n _ there rfl) (Or.inl rfl)
  | _ => cases answer

theorem mem_parametersOf {i : Index} {position : Nat} :
    (i, position) ∈ parametersOf b ↔
      ∃ n a, i = .ref n ∧ b.atoms[n]? = some a ∧ position? a = some position := by
  rw [parametersOf_eq, List.mem_mergeSort, mem_selected]

end

section

variable {f g : Function} {c : Buffer} {fold : Index → Index}

theorem Prepared.marked_of_root (prepared : f.Prepared) {n : Nat} {a : Atom}
    (found : f.buffer.atoms[n]? = some a) (root : ∀ b, Liveness.isRoot b (.ref n) a = .ok true) :
    .ref n ∈ f.buffer.marked := by
  obtain ⟨raw, made⟩ := prepared.made
  by_cases nonempty : raw.buffer.size = 0
  · have inside : n < raw.buffer.size := by
      rw [(prepare_empty_succeeds nonempty made).2] at found
      exact (Array.getElem?_eq_some_iff.1 found).1
    omega
  · obtain ⟨_, types, hints, marked, args, returns, _, live, _, _, rfl⟩ :=
      (prepare_succeeds nonempty).1 made
    exact (Liveness.marks_of_mark live).of_root found (root _)

/-- The steps of preparation lead to its result also where there are no atoms. -/
theorem prepare_of_steps {types : List Ty} {hints : IndexMap Decoration} {marked : IndexSet}
    {args : List Ty} {returns : Option Ty} (fresh : f.buffer.size = 0 → f.buffer.invalidate = f.buffer)
    (valid : f.buffer.validate = .ok ()) (analyzed : Typing.analyze f.buffer = .ok (types, hints))
    (live : Liveness.mark (f.buffer.withAnalysis types hints) = .ok marked)
    (arguments : argumentTypes f.name { f.buffer.withAnalysis types hints with marked } 0
      (parametersOf { f.buffer.withAnalysis types hints with marked }) = .ok args)
    (returned : returnType f.name { f.buffer.withAnalysis types hints with marked } none
      (indexed { f.buffer.withAnalysis types hints with marked }) = .ok returns) :
    Succeeds prepare f ()
      { f with
        buffer := { f.buffer.withAnalysis types hints with marked }
        args, returns := returns.getD .nil } := by
  by_cases empty : f.buffer.size = 0
  · have atoms : f.buffer.atoms = #[] := Array.eq_empty_of_size_eq_zero empty
    have none : f.buffer.indexed = [] := by simp [indexed, atoms]
    have unmarked : marked = ∅ := by
      refine Std.ExtTreeSet.eq_empty_iff_forall_not_mem.2 fun i member => ?_
      obtain ⟨k, _, inside⟩ := (Liveness.marks_of_mark live).present i member
      exact Nat.not_lt_zero k (empty ▸ inside)
    obtain ⟨m, run, names, _⟩ := Typing.analyze_known analyzed
    rw [none, List.mapM_nil] at run
    obtain ⟨rfl, rfl⟩ := Succeeds.of_pure.1 run
    have whole : ({ f.buffer.withAnalysis [] hints with marked } : Buffer) = f.buffer := by
      rw [← fresh empty, unmarked, ← names]
      simp [withAnalysis, invalidate, Typing.Memo.empty, Std.ExtTreeMap.toList_eq_nil_iff.2]
    rw [whole] at arguments returned ⊢
    rw [parametersOf_eq, Buffer.selected, none, List.filterMap_nil, List.mergeSort_nil] at arguments
    rw [none] at returned
    cases arguments
    cases returned
    exact prepare_of_empty empty valid
  · exact (prepare_succeeds empty).2 ⟨valid, types, hints, marked, args, returns, analyzed, live,
      arguments, returned, rfl⟩

/-- Types and signature go over from one function to another. -/
structure Retyped (f g : Function) (fold : Index → Index) : Prop where
  types : ∀ i ty, Kept fold i → f.buffer.table i = some ty →
    g.buffer.table (fold i) = some (ty.rename fold)
  args : g.args = f.args.map (Ty.rename fold)
  returns : g.returns = f.returns.rename fold
  parameters : g.parameters = f.parameters.map fun (i, position) => (fold i, position)

/-- A function whose buffer is folded can be prepared, as long as its parameters and returns are
kept and stand in their order. -/
theorem prepare_retyped (h : Succeeds prepare f () g) (nonempty : f.buffer.size ≠ 0)
    (fresh : c.size = 0 → c.invalidate = c) (valid : c.validate = .ok ())
    (folds : Folds f.buffer c fold)
    (special : ∀ (n : Nat) (a : Atom), f.buffer.atoms[n]? = some a →
      (position? a).isSome ∨ (returned? a).isSome → Kept fold (.ref n))
    (ordered : ∀ (n k : Nat) (a a' : Atom), f.buffer.atoms[n]? = some a → f.buffer.atoms[k]? = some a' →
      (position? a).isSome ∨ (returned? a).isSome → (position? a').isSome ∨ (returned? a').isSome →
      n < k → fold (.ref n) < fold (.ref k)) :
    ∃ types hints marked g', Typing.analyze c = .ok (types, hints) ∧
      Liveness.mark (c.withAnalysis types hints) = .ok marked ∧
      Succeeds prepare { f with buffer := c } () g' ∧
      g'.buffer = { c.withAnalysis types hints with marked } ∧ g.Retyped g' fold := by
  obtain ⟨valid', types, hints, marked, args, returns, analyzed, live, arguments, returned, rfl⟩ :=
    (prepare_succeeds nonempty).1 h
  have typed : (f.buffer.withAnalysis types hints).Typed := typed_of_analyze analyzed rfl rfl
  have backward : (f.buffer.withAnalysis types hints).Backward :=
    (backward_of_validate valid').of_atoms_eq rfl
  have folds₁ : Folds (f.buffer.withAnalysis types hints) c fold := folds.congr rfl rfl rfl rfl
  obtain ⟨types', hints', analyzed', typed', agree⟩ := folds₁.analyze typed backward
  have folds₂ : Folds (f.buffer.withAnalysis types hints) (c.withAnalysis types' hints') fold :=
    folds.congr rfl rfl rfl rfl
  obtain ⟨marked', live'⟩ := Liveness.exists_mark_fold folds₂ typed typed' agree live
  -- marks play no part in types
  have marking : ({ f.buffer.withAnalysis types hints with marked } : Buffer).Typed :=
    typed_of_analyze analyzed rfl rfl
  have marking' : ({ c.withAnalysis types' hints' with marked := marked' } : Buffer).Typed :=
    typed_of_analyze analyzed' rfl rfl
  have folds₃ : Folds { f.buffer.withAnalysis types hints with marked }
      { c.withAnalysis types' hints' with marked := marked' } fold := folds.congr rfl rfl rfl rfl
  have parameters := parametersOf_fold folds₃ (fun n a found chosen => special n a found (Or.inl chosen))
    fun n k a a' found found' first second =>
      ordered n k a a' found found' (Or.inl first) (Or.inl second)
  have arguments' := argumentTypes_fold marking marking' agree (fun p member => by
    obtain ⟨n, a, place, found, chosen⟩ := mem_parametersOf.1 (show (p.1, p.2) ∈ _ from member)
    rw [place]
    exact special n a found (Or.inl (by simp [chosen]))) arguments
  rw [← parameters] at arguments'
  have returned' := returnType_fold folds₃ marking marking' agree
    (fun n a found chosen => special n a found (Or.inr chosen))
    (fun n k a a' found found' first second =>
      ordered n k a a' found found' (Or.inr first) (Or.inr second)) returned
  refine ⟨types', hints', marked', _, analyzed', live', prepare_of_steps (f := { f with buffer := c })
    fresh valid analyzed' live' arguments' returned', rfl, agree, rfl, ?_, parameters⟩
  cases returns <;> rfl

theorem isRoot_of_signature {b : Buffer} {n : Nat} {a : Atom} (chosen : (position? a).isSome ∨ (returned? a).isSome) :
    Liveness.isRoot b (.ref n) a = .ok true := by
  rcases chosen with bound | leaves
  · obtain ⟨position, answer⟩ := Option.isSome_iff_exists.1 bound
    obtain ⟨underlying, number, rfl, _⟩ := position?_eq_some answer
    exact Liveness.isRoot_parameter
  · cases a with
    | ret value => exact Liveness.isRoot_of_effect rfl
    | _ => cases leaves

theorem mem_marked_iff {b c : Buffer} {fold : Index → Index} {marked marked' : IndexSet} (folds : Folds b c fold)
    (present : ∀ i ∈ marked, ∃ n, i = .ref n ∧ n < b.size) (present' : ∀ i ∈ marked', ∃ n, i = .ref n ∧ n < c.size)
    (kept : ∀ i ∈ marked, Kept fold i)
    (marks : ∀ k, .ref k ∈ marked' ↔ ∃ n, .ref n ∈ marked ∧ fold (.ref n) = .ref k) (i : Index) :
    i ∈ marked' ↔ ∃ j ∈ marked, fold j = i := by
  constructor
  · intro member
    obtain ⟨k, rfl, _⟩ := present' i member
    obtain ⟨n, member', place⟩ := (marks k).1 member
    exact ⟨.ref n, member', place⟩
  · rintro ⟨j, member, rfl⟩
    obtain ⟨n, rfl, inside⟩ := present j member
    obtain ⟨a, found⟩ := exists_atom inside
    obtain ⟨k, place, _⟩ := folds.atom_at found (kept _ member)
    rw [place]
    exact (marks k).2 ⟨n, member, place⟩

/-- A function whose buffer is folded can be prepared, and goes over to the result. -/
theorem prepare_fold (h : Succeeds prepare f () g) (nonempty : f.buffer.size ≠ 0)
    (fresh : c.size = 0 → c.invalidate = c) (valid : c.validate = .ok ())
    (folds : Folds f.buffer c fold)
    (roots : ∀ (n : Nat) (a : Atom), f.buffer.atoms[n]? = some a →
      Liveness.isRoot g.buffer (.ref n) a = .ok true → Kept fold (.ref n))
    (order : ∀ n k, k < f.buffer.size → n < k → Solo fold (.ref n) → Solo fold (.ref k) →
      fold (.ref n) < fold (.ref k))
    (fixed : ∀ (n : Nat) (a : Atom), f.buffer.atoms[n]? = some a → Kept fold (.ref n) →
      (position? a).isSome ∨ (returned? a).isSome → Solo fold (.ref n))
    (solo : ∀ n, Kept fold (.ref n) → g.IsStatement n → Solo fold (.ref n)) :
    ∃ g', Succeeds prepare { f with buffer := c } () g' ∧ FoldsTo g g' fold := by
  have special : ∀ (n : Nat) (a : Atom), f.buffer.atoms[n]? = some a →
      (position? a).isSome ∨ (returned? a).isSome → Kept fold (.ref n) :=
    fun n a found chosen => roots n a found (isRoot_of_signature chosen)
  have fixed : ∀ (n : Nat) (a : Atom), f.buffer.atoms[n]? = some a →
      (position? a).isSome ∨ (returned? a).isSome → Solo fold (.ref n) :=
    fun n a found chosen => fixed n a found (special n a found chosen) chosen
  obtain ⟨types', hints', marked', g', analyzed', live', prepared, shape', retyped⟩ :=
    prepare_retyped h nonempty fresh valid folds special fun n k a a' found found' first second below =>
      order n k (Array.getElem?_eq_some_iff.1 found').1 below (fixed n a found first)
        (fixed k a' found' second)
  obtain ⟨_, sameId, sameName, _⟩ := prepared_of_prepare prepared
  obtain ⟨valid', types, hints, marked, args, returns, analyzed, live, arguments, returned, rfl⟩ :=
    (prepare_succeeds nonempty).1 h
  have typed : (f.buffer.withAnalysis types hints).Typed := typed_of_analyze analyzed rfl rfl
  have typed' : (c.withAnalysis types' hints').Typed := typed_of_analyze analyzed' rfl rfl
  have folds₂ : Folds (f.buffer.withAnalysis types hints) (c.withAnalysis types' hints') fold :=
    folds.congr rfl rfl rfl rfl
  have agree : ∀ i ty, Kept fold i → (f.buffer.withAnalysis types hints).table i = some ty →
      (c.withAnalysis types' hints').table (fold i) = some (ty.rename fold) := by
    have agree := retyped.types
    rw [shape'] at agree
    exact agree
  -- marks play no part in types
  have marking : ({ f.buffer.withAnalysis types hints with marked } : Buffer).Typed :=
    typed_of_analyze analyzed rfl rfl
  have roots : ∀ (n : Nat) (a : Atom), f.buffer.atoms[n]? = some a →
      Liveness.isRoot (f.buffer.withAnalysis types hints) (.ref n) a = .ok true → Kept fold (.ref n) :=
    fun n a found live => roots n a found (Liveness.isRoot_congr typed marking rfl rfl live)
  obtain ⟨marked'', live'', marks⟩ := Liveness.mark_fold folds₂ typed typed' agree roots live
  rw [live', Except.ok.injEq] at live''
  subst live''
  have present := (Liveness.marks_of_mark live).present
  have present' := (Liveness.marks_of_mark live').present
  have live_kept : ∀ i ∈ marked, Kept fold i := by
    intro i member
    obtain ⟨n, rfl, _⟩ := present i member
    exact Liveness.due_kept folds₂ roots (((Liveness.marks_of_mark live).mem_iff n).1 member)
  have solo := fun n statement => solo n (live_kept _ statement.1) statement
  refine ⟨g', prepared, sameName, sameId, ?_, retyped.types, live_kept, ?_, retyped.args, retyped.returns,
    retyped.parameters, ?_, solo, ?_⟩
  · rw [shape']
    exact folds.congr rfl rfl rfl rfl
  · intro i
    rw [shape']
    exact mem_marked_iff folds present present' live_kept marks i
  · rintro ⟨i, position⟩ member
    obtain ⟨n, a, rfl, found, chosen⟩ := mem_parametersOf.1 member
    exact fixed n a found (Or.inl (by simp [chosen]))
  · intro n k first second below
    have inside : k < f.buffer.size := by
      obtain ⟨_, a, found, _⟩ := second
      exact (Array.getElem?_eq_some_iff.1 found).1
    exact order n k inside below (solo n first) (solo k second)

theorem marked_prepare {raw : Function} (first : Succeeds prepare raw () f) (again : Succeeds prepare f () g)
    (n : Nat) : .ref n ∈ g.buffer.marked ↔ .ref n ∈ f.buffer.marked := by
  by_cases nonempty : raw.buffer.size = 0
  · have same := (prepare_empty_succeeds nonempty first).2
    have empty : f.buffer.size = 0 := by rw [same]; exact nonempty
    rw [(prepare_empty_succeeds empty again).2]
  · obtain ⟨valid, types, hints, marked, args, returns, analyzed, live, _, _, same⟩ :=
      (prepare_succeeds nonempty).1 first
    have nonempty' : f.buffer.size ≠ 0 := by rw [same]; exact nonempty
    obtain ⟨_, types', hints', marked', args', returns', analyzed', live', _, _, same'⟩ :=
      (prepare_succeeds nonempty').1 again
    have typed : (raw.buffer.withAnalysis types hints).Typed := typed_of_analyze analyzed rfl rfl
    have backward : (raw.buffer.withAnalysis types hints).Backward :=
      (backward_of_validate valid).of_atoms_eq rfl
    have folds : Folds (raw.buffer.withAnalysis types hints) f.buffer fun i => i :=
      (Folds.refl backward).congr rfl rfl (by rw [same]) (by rw [same])
    obtain ⟨types'', hints'', found, typed', agree⟩ := folds.analyze typed backward
    rw [analyzed', Except.ok.injEq, Prod.mk.injEq] at found
    obtain ⟨rfl, rfl⟩ := found
    have folds' : Folds (raw.buffer.withAnalysis types hints) (f.buffer.withAnalysis types' hints') fun i => i :=
      folds.congr rfl rfl rfl rfl
    obtain ⟨marked'', found, marks⟩ := Liveness.mark_fold folds' typed typed' agree
      (fun _ _ _ _ => rfl) live
    rw [live', Except.ok.injEq] at found
    subst found
    have before : f.buffer.marked = marked := by rw [same]
    have after : g.buffer.marked = marked' := by rw [same']
    rw [after, before, marks n]
    simp

end

end Function

end ShaderForge
