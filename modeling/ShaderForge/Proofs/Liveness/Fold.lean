import ShaderForge.Proofs.Liveness.Due
import ShaderForge.Proofs.Typing.Fold

/-!
Marking along a fold. The tasks of a folded buffer are the folded tasks, so an atom is marked
there exactly when one that goes to it is marked here.
-/

namespace ShaderForge

open Buffer

section

variable {b c : Buffer} {fold : Index → Index} {n : Nat} {a : Atom}

theorem Buffer.Folds.operands (folds : Folds b c fold) (found : b.atoms[n]? = some a)
    (kept : Kept fold (.ref n)) : (a.mapAddresses fold).operands = a.operands.map fold := by
  have first : (fold a.addresses.1).isNull = a.addresses.1.isNull :=
    folds.kept_address found kept (Or.inl rfl)
  have second : a.isBranch = false → (fold a.addresses.2).isNull = a.addresses.2.isNull :=
    fun other => folds.kept_address found kept (Or.inr ⟨rfl, other⟩)
  have filtered : ∀ x y : Index, (fold x).isNull = x.isNull → (fold y).isNull = y.isNull →
      [fold x, fold y].filter (fun i => !i.isNull) = ([x, y].filter fun i => !i.isNull).map fold := by
    intro x y left right
    cases absent : x.isNull <;> cases absent' : y.isNull <;> simp [left, right, absent, absent']
  have absent : (fold .null).isNull = Index.null.isNull := by rw [folds.null]
  cases a with
  | type | operation | list | construct | call | store | access =>
    exact filtered _ _ first (second rfl)
  | qualifier | literal | swizzle | intrinsic | load | ret | branch =>
    simpa only [Atom.operands, Atom.addresses, Atom.mapAddresses, folds.null] using
      filtered _ _ first absent

end

namespace Liveness

/-- The address that a task is about. -/
def Task.address : Task → Index
  | .force i | .forceStorage i | .visit i => i

def Task.rename (f : Index → Index) : Task → Task
  | .force i => .force (f i)
  | .forceStorage i => .forceStorage (f i)
  | .visit i => .visit (f i)

section

variable {b c : Buffer} {fold : Index → Index} {n : Nat} {a : Atom} {t : Task}

theorem map_visit_rename (items : List Index) :
    (items.map fold).map Task.visit = (items.map Task.visit).map (Task.rename fold) := by
  simp [Function.comp_def, Task.rename]

theorem needs_fold (folds : Folds b c fold) (found : b.atoms[n]? = some a)
    (kept : Kept fold (.ref n)) :
    needs (a.mapAddresses fold) = (needs a).map (Task.rename fold) := by
  have visits : ((a.mapAddresses fold).operands).map Task.visit =
      (a.operands.map Task.visit).map (Task.rename fold) := by
    rw [folds.operands found kept, map_visit_rename]
  cases a with
  | qualifier | type | construct | call | store | access => rfl
  | literal | swizzle | operation | intrinsic | list | load | branch | ret => exact visits

theorem leads_fold (folds : Folds b c fold) (found : b.atoms[n]? = some a)
    (kept : Kept fold (.ref n)) :
    leads c (fold (.ref n)) (a.mapAddresses fold) = (leads b (.ref n) a).map (Task.rename fold) := by
  have visits : ((a.mapAddresses fold).operands).map Task.visit =
      (a.operands.map Task.visit).map (Task.rename fold) := by
    rw [folds.operands found kept, map_visit_rename]
  have captured := folds.captured n (Array.getElem?_eq_some_iff.1 found).1 kept
  unfold leads
  rw [captured]
  split
  · rfl
  · cases a with
    | qualifier | type | call | store | ret | branch => rfl
    | construct ty args mode => cases mode <;> rfl
    | literal | swizzle | operation | list | load | access => exact visits
    | intrinsic code args =>
      simp only [Atom.mapAddresses, Atom.isSideEffect] at visits ⊢
      by_cases effect : (code.isSideEffect || code.isLayout) = true
      · simp only [effect, ↓reduceIte]
        rfl
      · simp only [effect, Bool.false_eq_true, ↓reduceIte]
        exact visits

/-- What is live whatever uses it is told from types and captures. -/
theorem isRoot_congr (typed : b.Typed) (typed' : c.Typed) (types : b.types = c.types)
    (synthesized : b.synthesized = c.synthesized) {i : Index} {live : Bool}
    (h : isRoot b i a = .ok live) : isRoot c i a = .ok live := by
  have captured : c.isSynthesized i = b.isSynthesized i := by
    rw [isSynthesized, isSynthesized, synthesized]
  unfold isRoot at h ⊢
  rw [captured]
  by_cases bound : b.isSynthesized i = true
  · rw [if_pos bound] at h ⊢
    exact h
  · rw [if_neg bound] at h ⊢
    unfold isAnchored at h ⊢
    cases a with
    | construct ty args mode =>
      obtain ⟨t, known, h⟩ := Except.bind_ok h
      have known' : c.typeOf i = .ok t := by
        rw [typed'.typeOf_ok_iff, table, ← types]
        exact typed.typeOf_ok_iff.1 known
      simp only [known']
      cases t <;> exact h
    | qualifier underlying kind number => cases kind <;> exact h
    | _ => exact h

theorem isRoot_fold (folds : Folds b c fold) (typed : b.Typed) (typed' : c.Typed)
    (types : ∀ i ty, Kept fold i → b.table i = some ty → c.table (fold i) = some (ty.rename fold))
    (found : b.atoms[n]? = some a) (kept : Kept fold (.ref n)) {live : Bool} (h : isRoot b (.ref n) a = .ok live) :
    isRoot c (fold (.ref n)) (a.mapAddresses fold) = .ok live := by
  have captured := folds.captured n (Array.getElem?_eq_some_iff.1 found).1 kept
  unfold isRoot at h ⊢
  rw [captured]
  by_cases bound : b.isSynthesized (.ref n) = true
  · rw [if_pos bound] at h ⊢
    exact h
  · rw [if_neg bound] at h ⊢
    unfold isAnchored at h ⊢
    cases a with
    | construct ty args mode =>
      simp only [Atom.mapAddresses] at h ⊢
      obtain ⟨t, known, h⟩ := Except.bind_ok h
      have known' := typed'.typeOf_ok_iff.2 (types _ t kept (typed.typeOf_ok_iff.1 known))
      rw [known']
      cases t <;> exact h
    | qualifier underlying kind number => cases kind <;> exact h
    | _ => exact h

theorem needs_address {s : Task} (member : s ∈ needs a) :
    s.address = a.addresses.1 ∨ s.address = a.addresses.2 ∧ a.isBranch = false := by
  have visits : s ∈ a.operands.map Task.visit →
      s.address = a.addresses.1 ∨ s.address = a.addresses.2 ∧ a.isBranch = false := by
    intro member
    obtain ⟨o, used, rfl⟩ := List.mem_map.1 member
    exact (Atom.mem_operands.1 used).2
  cases a with
  | qualifier | type | construct | call | store | access =>
    simp only [needs, List.mem_cons, List.not_mem_nil, or_false] at member
    rcases member with rfl | rfl | rfl <;> simp [Task.address, Atom.addresses, Atom.isBranch]
  | literal | swizzle | operation | intrinsic | list | load | branch | ret => exact visits member

/-- What holds of the roots, and of what holds it uses, holds of everything that arises. -/
theorem due_closed {Q : Index → Prop}
    (roots : ∀ (n : Nat) (a : Atom), b.atoms[n]? = some a → isRoot b (.ref n) a = .ok true → Q (.ref n))
    (used : ∀ (n : Nat) (a : Atom) (o : Index), b.atoms[n]? = some a → Q (.ref n) →
      (o = a.addresses.1 ∨ o = a.addresses.2 ∧ a.isBranch = false) → Q o)
    (due : Due b t) : Q t.address := by
  have stored : ∀ {i j}, StorageRun b.atoms i j → Q i → Q j := by
    intro i j run
    induction run with
    | here => exact id
    | step found read _ ih => exact fun inside => ih (used _ _ _ found inside (Or.inl (Atom.through?_addresses read)))
  induction due with
  | root found live => exact roots _ _ found live
  | storage due found ih => exact stored (storageRun_of_storageFrom found) ih
  | force due found member ih => exact used _ _ _ found ih (needs_address member)
  | visit due found member ih =>
    rcases leads_needs member with rfl | need
    · exact ih
    · exact used _ _ _ found ih (needs_address need)

theorem due_kept (folds : Folds b c fold)
    (roots : ∀ (n : Nat) (a : Atom), b.atoms[n]? = some a → isRoot b (.ref n) a = .ok true →
      Kept fold (.ref n)) (due : Due b t) : Kept fold t.address :=
  due_closed roots (fun _ _ _ found kept position => folds.kept_address found kept position) due

section

variable (folds : Folds b c fold) (typed : b.Typed) (typed' : c.Typed)
  (types : ∀ i ty, Kept fold i → b.table i = some ty → c.table (fold i) = some (ty.rename fold))

include folds typed typed' types

/-- Every task of the folded buffer is the fold of one that arises here, about a kept atom. -/
theorem due_of_fold (answers : ∀ t, Due b t → Answers b t)
    (decided : ∀ (n : Nat) (a : Atom), b.atoms[n]? = some a → ∃ live, isRoot b (.ref n) a = .ok live)
    (due : Due c t) : ∃ s, Due b s ∧ Kept fold s.address ∧ t = s.rename fold := by
  -- an atom of the folded buffer and one that goes to it
  have source : ∀ {i : Index} {k : Nat} {a : Atom}, fold i = .ref k → c.atoms[k]? = some a →
      (i = .null ∨ ∃ a, b.get? i = some a) → ∃ n a', i = .ref n ∧ b.atoms[n]? = some a' ∧
        Kept fold (.ref n) ∧ a = a'.mapAddresses fold := by
    intro i k a place image present
    rcases present with rfl | ⟨a', found⟩
    · rw [folds.null] at place
      cases place
    · cases i with
      | null => cases found
      | ref n =>
        have kept := kept_of_place place
        have image' := folds.atoms n a' found kept
        rw [place, get?_ref, image, Option.some.injEq] at image'
        exact ⟨n, a', rfl, found, kept, image'⟩
  induction due with
  | @root k a found live =>
    obtain ⟨n, inside, place⟩ := folds.onto k (Array.getElem?_eq_some_iff.1 found).1
    have present : b.atoms[n]? = some b.atoms[n] := Array.getElem?_eq_getElem inside
    obtain ⟨_, a', same, present', kept, rfl⟩ := source place found (Or.inr ⟨_, present⟩)
    cases same
    obtain ⟨live', decides⟩ := decided n a' present'
    have image := isRoot_fold folds typed typed' types present' kept decides
    rw [place, live, Except.ok.injEq] at image
    subst image
    exact ⟨.force (.ref n), .root present' decides, kept, by rw [Task.rename, place]⟩
  | @storage i j due found ih =>
    obtain ⟨s, before, kept, same⟩ := ih
    cases s with
    | force | visit => cases same
    | forceStorage i' =>
      cases same
      obtain ⟨j', found'⟩ := answers _ before
      obtain ⟨image, kept'⟩ := folds.storage kept found'
      rw [Task.address, found, Except.ok.injEq] at image
      exact ⟨.force j', .storage before found', kept', by rw [Task.rename, image]⟩
  | @force k a t due found member ih =>
    obtain ⟨s, before, _, same⟩ := ih
    cases s with
    | forceStorage | visit => cases same
    | force i =>
      rw [Task.rename, Task.force.injEq] at same
      obtain ⟨n, a', rfl, present, kept, rfl⟩ := source same.symm found (answers _ before)
      rw [needs_fold folds present kept] at member
      obtain ⟨s, need, rfl⟩ := List.mem_map.1 member
      exact ⟨s, .force before present need, folds.kept_address present kept (needs_address need), rfl⟩
  | @visit k a t due found member ih =>
    obtain ⟨s, before, _, same⟩ := ih
    cases s with
    | forceStorage | force => cases same
    | visit i =>
      rw [Task.rename, Task.visit.injEq] at same
      obtain ⟨n, a', rfl, present, kept, rfl⟩ := source same.symm found (answers _ before)
      rw [same, leads_fold folds present kept] at member
      obtain ⟨s, lead, rfl⟩ := List.mem_map.1 member
      refine ⟨s, .visit before present lead, ?_, rfl⟩
      rcases leads_needs lead with rfl | need
      · exact kept
      · exact folds.kept_address present kept (needs_address need)

theorem exists_mark_fold {marked : IndexSet} (h : mark b = .ok marked) :
    ∃ marked', mark c = .ok marked' := by
  have marks := marks_of_mark h
  refine mark_of_answers ?_ ?_
  · intro t due
    obtain ⟨s, before, kept, rfl⟩ :=
      due_of_fold folds typed typed' types marks.answers marks.decided due
    have present : ∀ i, Kept fold i → (i = .null ∨ ∃ a, b.get? i = some a) →
        fold i = .null ∨ ∃ a, c.get? (fold i) = some a := by
      rintro i kept (rfl | ⟨a, found⟩)
      · exact Or.inl folds.null
      · cases i with
        | null => cases found
        | ref n => exact Or.inr ⟨_, folds.atoms n a found kept⟩
    cases s with
    | force i | visit i => exact present i kept (marks.answers _ before)
    | forceStorage i =>
      obtain ⟨j, found⟩ := marks.answers _ before
      exact ⟨fold j, (folds.storage kept found).1⟩
  · intro k a image
    obtain ⟨n, inside, place⟩ := folds.onto k (Array.getElem?_eq_some_iff.1 image).1
    have present : b.atoms[n]? = some b.atoms[n] := Array.getElem?_eq_getElem inside
    obtain ⟨live, decides⟩ := marks.decided n _ present
    have kept := kept_of_place place
    have image' := folds.atoms n _ present kept
    rw [place, get?_ref, image, Option.some.injEq] at image'
    have live' := isRoot_fold folds typed typed' types present kept decides
    rw [place, ← image'] at live'
    exact ⟨live, live'⟩

variable (roots : ∀ (n : Nat) (a : Atom), b.atoms[n]? = some a → isRoot b (.ref n) a = .ok true →
    Kept fold (.ref n))

include roots

theorem due_fold (due : Due b t) : Due c (t.rename fold) := by
  induction due with
  | @root n a found live =>
    have kept := roots n a found live
    obtain ⟨k, place, image⟩ := folds.atom_at found kept
    have live' := isRoot_fold folds typed typed' types found kept live
    simp only [Task.rename, place] at live' ⊢
    exact .root image live'
  | storage due found ih => exact .storage ih (folds.storage (due_kept folds roots due) found).1
  | @force n a t due found member ih =>
    have kept : Kept fold (.ref n) := due_kept folds roots due
    obtain ⟨k, place, image⟩ := folds.atom_at found kept
    simp only [Task.rename, place] at ih
    refine .force ih image ?_
    rw [needs_fold folds found kept]
    exact List.mem_map_of_mem member
  | @visit n a t due found member ih =>
    have kept : Kept fold (.ref n) := due_kept folds roots due
    obtain ⟨k, place, image⟩ := folds.atom_at found kept
    simp only [Task.rename, place] at ih
    refine .visit ih image ?_
    rw [← place, leads_fold folds found kept]
    exact List.mem_map_of_mem member

/-- Where the roots are kept, the marked atoms of the folded buffer are those that marked atoms
go to. -/
theorem mark_fold {marked : IndexSet} (h : mark b = .ok marked) :
    ∃ marked', mark c = .ok marked' ∧
      ∀ k, .ref k ∈ marked' ↔ ∃ n, .ref n ∈ marked ∧ fold (.ref n) = .ref k := by
  have marks := marks_of_mark h
  obtain ⟨marked', run⟩ := exists_mark_fold folds typed typed' types h
  refine ⟨marked', run, fun k => ?_⟩
  rw [(marks_of_mark run).mem_iff]
  constructor
  · intro due
    obtain ⟨s, before, _, same⟩ :=
      due_of_fold folds typed typed' types marks.answers marks.decided due
    cases s with
    | forceStorage | visit => cases same
    | force i =>
      rw [Task.rename, Task.force.injEq] at same
      cases i with
      | null => rw [folds.null] at same; cases same
      | ref n => exact ⟨n, (marks.mem_iff n).2 before, same.symm⟩
  · rintro ⟨n, member, place⟩
    have due := due_fold folds typed typed' types roots ((marks.mem_iff n).1 member)
    rwa [Task.rename, place] at due

end

end

end Liveness

end ShaderForge
