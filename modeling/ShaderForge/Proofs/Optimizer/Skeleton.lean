import ShaderForge.Proofs.Function.Fold
import ShaderForge.Proofs.Optimizer.Rewrites
import ShaderForge.Proofs.Optimizer.Settling

/-!
The effect skeleton of a buffer: what acts on its own, and the parameters. Passes merge nothing of it
and remove nothing of it, and branches lead to the same places of it.
-/

namespace ShaderForge

namespace Atom

/-- Statements that act on their own, layout settings among them, and parameters. -/
def isSkeletal : Atom → Bool
  | qualifier _ kind _ => kind == .parameter
  | a => a.isSideEffect

def shape (a : Atom) : Atom := a.mapAddresses fun _ => .null

/-- Where a branch leads to; other atoms lead nowhere. -/
def target : Atom → Index
  | branch _ _ failto => failto
  | _ => .null

theorem isSkeletal_mapAddresses (a : Atom) (f : Index → Index) :
    (a.mapAddresses f).isSkeletal = a.isSkeletal := by
  cases a <;> rfl

theorem shape_mapAddresses (a : Atom) (f : Index → Index) : (a.mapAddresses f).shape = a.shape := by
  cases a <;> rfl

theorem target_mapAddresses {f : Index → Index} (null : f .null = .null) (a : Atom) :
    (a.mapAddresses f).target = f a.target := by
  cases a <;> first | rfl | exact null.symm

theorem skeletal_cases {a : Atom} (skeletal : a.isSkeletal = true) :
    a.isSideEffect = true ∨ ∃ underlying number, a = .qualifier underlying .parameter number := by
  cases a with
  | qualifier underlying kind number =>
    obtain rfl : kind = .parameter := by simpa [isSkeletal] using skeletal
    exact Or.inr ⟨underlying, number, rfl⟩
  | _ => exact Or.inl skeletal

theorem isAnchored_of_skeletal {a : Atom} (skeletal : a.isSkeletal = true) (b : Buffer) (i : Index) :
    Liveness.isAnchored b i a = .ok true := by
  rcases skeletal_cases skeletal with acts | ⟨underlying, number, rfl⟩
  · cases a with
    | store | ret | branch | call => rfl
    | intrinsic code args => exact congrArg Except.ok acts
    | _ => cases acts
  · rfl

end Atom

namespace Buffer

variable {b c : Buffer}

def skeleton (b : Buffer) : List (Index × Atom) :=
  b.indexed.filter fun (_, a) => a.isSkeletal

/-- The skeletons have atoms of the same shape one by one, and a branch leads nowhere, or to the
`j`-th atom of the one, exactly when its counterpart does so in the other. -/
structure SameSkeleton (b c : Buffer) : Prop where
  shapes : c.skeleton.map (·.2.shape) = b.skeleton.map (·.2.shape)
  targets : ∀ (k : Nat) (x y : Index × Atom), b.skeleton[k]? = some x → c.skeleton[k]? = some y →
    (x.2.target = .null ↔ y.2.target = .null) ∧
    ∀ j : Nat, (b.skeleton.map Prod.fst)[j]? = some x.2.target ↔
      (c.skeleton.map Prod.fst)[j]? = some y.2.target

namespace SameSkeleton

theorem of_atoms_eq (same : c.atoms = b.atoms) : SameSkeleton b c := by
  have skeleton : c.skeleton = b.skeleton := by
    unfold Buffer.skeleton indexed
    rw [same]
  refine ⟨by rw [skeleton], fun k x y here there => ?_⟩
  rw [skeleton, here, Option.some.injEq] at there
  subst there
  exact ⟨Iff.rfl, fun j => by rw [skeleton]⟩

theorem refl (b : Buffer) : SameSkeleton b b := of_atoms_eq rfl

theorem trans {d : Buffer} (first : SameSkeleton b c) (later : SameSkeleton c d) : SameSkeleton b d := by
  refine ⟨later.shapes.trans first.shapes, fun k x z here there => ?_⟩
  have length : c.skeleton.length = b.skeleton.length := by
    simpa using congrArg List.length first.shapes
  have inside : k < c.skeleton.length := by
    rw [length]
    exact (List.getElem?_eq_some_iff.1 here).1
  have between : c.skeleton[k]? = some c.skeleton[k] := List.getElem?_eq_getElem inside
  obtain ⟨null, places⟩ := first.targets k x _ here between
  obtain ⟨null', places'⟩ := later.targets k _ z between there
  exact ⟨null.trans null', fun j => (places j).trans (places' j)⟩

end SameSkeleton

theorem mem_skeleton {i : Index} {a : Atom} :
    (i, a) ∈ b.skeleton ↔ ∃ n, i = .ref n ∧ b.atoms[n]? = some a ∧ a.isSkeletal = true := by
  unfold skeleton
  rw [List.mem_filter, mem_indexed]
  constructor
  · rintro ⟨⟨n, rfl, found⟩, skeletal⟩
    exact ⟨n, rfl, found, skeletal⟩
  · rintro ⟨n, rfl, found, skeletal⟩
    exact ⟨⟨n, rfl, found⟩, skeletal⟩

theorem target_mem_skeleton (valid : b.validate = .ok ()) {x : Index × Atom} (member : x ∈ b.skeleton)
    (given : x.2.target ≠ .null) : ∃ a, (x.2.target, a) ∈ b.skeleton := by
  obtain ⟨i, a⟩ := x
  obtain ⟨n, rfl, found, _⟩ := mem_skeleton.1 member
  cases a with
  | branch kind cond failto =>
    rcases ((validate_ok_iff.1 valid).1 n _ found).2 kind cond failto rfl with
      none | ⟨_, kind', cond', next, there⟩
    · exact (given none).elim
    · cases failto with
      | null => exact (given rfl).elim
      | ref t => exact ⟨_, mem_skeleton.2 ⟨t, rfl, there, rfl⟩⟩
  | _ => exact (given rfl).elim

/-- Skeletal atoms that go over one by one, sharing their places with nothing. -/
theorem SameSkeleton.of_image (valid : b.validate = .ok ()) {place : Index → Index} {f : Atom → Atom}
    (image : c.skeleton = b.skeleton.map fun x => (place x.1, f x.2)) (shape : ∀ a, (f a).shape = a.shape)
    (null : place .null = .null) (solo : ∀ x ∈ b.skeleton, Solo place x.1)
    (target : ∀ x ∈ b.skeleton, (f x.2).target = place x.2.target) : SameSkeleton b c := by
  have places : c.skeleton.map Prod.fst = (b.skeleton.map Prod.fst).map place := by
    rw [image, List.map_map, List.map_map]
    rfl
  refine ⟨by simp [image, shape, Function.comp_def], fun k x y here there => ?_⟩
  have member := List.mem_of_getElem? here
  have counterpart : y.2.target = place x.2.target := by
    rw [image, List.getElem?_map, here] at there
    cases there
    exact target x member
  rw [counterpart]
  refine ⟨⟨fun none => by rw [none, null], fun lost => ?_⟩, fun j => ?_⟩
  · by_contra given
    obtain ⟨a, there⟩ := target_mem_skeleton valid member given
    exact given (solo _ there .null (null.trans lost.symm)).symm
  · rw [places, List.getElem?_map (f := place)]
    constructor
    · intro found
      rw [found]
      rfl
    · intro found
      -- A place that is not shared has one source, so the atom found there is the target itself.
      obtain ⟨i, listed, same⟩ := Option.map_eq_some_iff.1 found
      obtain ⟨z, inside, rfl⟩ := List.mem_map.1 (List.mem_of_getElem? listed)
      rw [listed, solo z inside _ same.symm]

theorem Folds.sameSkeleton {fold : Index → Index} (folds : Folds b c fold) (valid : b.validate = .ok ())
    (solo : ∀ (n : Nat) (a : Atom), b.atoms[n]? = some a → a.isSkeletal = true → Solo fold (.ref n))
    (order : ∀ n k, k < b.size → n < k → Solo fold (.ref n) → Solo fold (.ref k) →
      fold (.ref n) < fold (.ref k)) : SameSkeleton b c := by
  have chosen : ∀ d : Buffer, d.skeleton = d.selected fun a => if a.isSkeletal then some a else none := by
    intro d
    unfold skeleton Buffer.selected
    rw [← List.filterMap_eq_filter]
    congr 1
    funext ⟨i, a⟩
    cases skeletal : a.isSkeletal <;> simp [Option.guard, skeletal]
  have skeletal : ∀ {a : Atom}, (if a.isSkeletal then some a else none).isSome → a.isSkeletal = true := by
    intro a present
    by_contra other
    rw [if_neg other] at present
    cases present
  have image : c.skeleton = b.skeleton.map fun (i, a) => (fold i, a.mapAddresses fold) := by
    rw [chosen, chosen]
    refine folds.selected (·.mapAddresses fold)
      (fun n a found present => (solo n a found (skeletal present)).kept folds.null) (fun a => ?_)
      fun n k a a' found found' present present' below => ?_
    · rw [Atom.isSkeletal_mapAddresses]
      split <;> rfl
    · exact order n k (Array.getElem?_eq_some_iff.1 found').1 below (solo n a found (skeletal present))
        (solo k a' found' (skeletal present'))
  refine .of_image valid image (fun a => a.shape_mapAddresses fold) folds.null ?_ ?_
  · rintro ⟨i, a⟩ member
    obtain ⟨n, rfl, found, acts⟩ := mem_skeleton.1 member
    exact solo n a found acts
  · rintro ⟨i, a⟩ _
    exact Atom.target_mapAddresses folds.null a

end Buffer

namespace Optimizer

open Buffer

variable {b c : Buffer}

/-- Forwarding reads leaves skeletal atoms where they are and branches their targets. -/
theorem Diverts.sameSkeleton {divert : Index → Index} (diverts : Diverts b divert)
    (valid : b.validate = .ok ()) : SameSkeleton b (diverted b divert) := by
  have image : (diverted b divert).skeleton = b.skeleton.map fun x => (x.1, x.2.mapAddresses divert) := by
    have indexed : (diverted b divert).indexed = b.indexed.map fun x => (x.1, x.2.mapAddresses divert) := by
      apply List.ext_getElem?
      intro n
      rw [indexed_getElem?, diverted_getElem?, List.getElem?_map, indexed_getElem?, Option.map_map,
        Option.map_map]
      rfl
    unfold skeleton
    rw [indexed, List.filter_map]
    simp only [Function.comp_def, Atom.isSkeletal_mapAddresses]
  refine @SameSkeleton.of_image b (diverted b divert) valid (fun i => i) _ image
    (fun a => a.shape_mapAddresses divert) rfl (fun _ _ _ same => same) fun x member => ?_
  rw [Atom.target_mapAddresses diverts.null]
  by_cases none : x.2.target = .null
  · rw [none, diverts.null]
  · obtain ⟨a, there⟩ := target_mem_skeleton valid member none
    obtain ⟨n, same, found, acts⟩ := mem_skeleton.1 there
    rw [same]
    -- Only reads are diverted, and no skeletal atom is one.
    refine diverts.fixed found ?_
    cases a <;> first | rfl | cases acts

theorem Rewrites.sameSkeleton (rewrites : Rewrites b c) (valid : b.validate = .ok ()) :
    SameSkeleton b c := by
  cases rewrites with
  | merged occurrences _ rebuilt =>
    refine (occurrences.folds (backward_of_validate valid) rebuilt).sameSkeleton valid ?_
      fun n k => occurrences.order
    intro n a found skeletal
    -- Atoms that share a place are loose: they neither act nor are they parameters.
    refine occurrences.solo found fun loose => ?_
    rcases Atom.skeletal_cases skeletal with acts | ⟨underlying, number, rfl⟩
    · rw [loose.quiet] at acts
      cases acts
    · exact loose.unbound underlying number rfl
  | forwarded diverts _ changed =>
    subst changed
    exact (diverts.sameSkeleton valid).trans (.of_atoms_eq rfl)
  | dropped found _ rebuilt =>
    obtain ⟨safe, exempted, surviving⟩ := surviving_of_alive found
    have kernel := surviving.kernel
    refine (kernel.folds valid rebuilt).sameSkeleton valid ?_ ?_
    · intro n a there skeletal
      have anchored := Atom.isAnchored_of_skeletal skeletal b (.ref n)
      exact removedPlace_solo (Std.ExtTreeSet.mem_toList.2
        (surviving.exempt _ a there ((mem_exempt exempted there).2 anchored)))
    · intro n k _ below solo solo'
      exact kernel.order (kept_iff.1 (solo.kept kernel.null)) (kept_iff.1 (solo'.kept kernel.null))
        (Index.ref_lt_ref.2 below)

theorem run_sameSkeleton {p : Pass} {answer : Except Fault Bool} (valid : b.validate = .ok ())
    (h : outcome p.run b = (answer, c)) : SameSkeleton b c := by
  obtain ⟨d, typed, valid', cases⟩ := run_cases valid h
  have first : SameSkeleton b d := by
    rcases typed with rfl | readied
    · exact .refl d
    · exact .of_atoms_eq readied.atoms
  rcases cases with ⟨_, rfl⟩ | ⟨_, rewrites⟩
  · exact first
  · exact first.trans (rewrites.sameSkeleton valid')

theorem sweep_sameSkeleton {ps : List Pass} {changed : Bool} (valid : b.validate = .ok ())
    (h : Succeeds (sweep ps) b changed c) : c.validate = .ok () ∧ SameSkeleton b c := by
  induction ps generalizing b changed with
  | nil =>
    obtain ⟨_, rfl⟩ := Succeeds.of_pure.1 h
    exact ⟨valid, .refl b⟩
  | cons p rest ih =>
    obtain ⟨_, _, d, ran, others, _⟩ := sweep_cons.1 h
    obtain ⟨valid', later⟩ := ih (run_valid valid ran) others
    exact ⟨valid', (run_sameSkeleton valid ran).trans later⟩

theorem settle_sameSkeleton {ps : List Pass} {fuel : Nat} {changed : Bool} (valid : b.validate = .ok ())
    (h : Succeeds (settle ps fuel) b changed c) : SameSkeleton b c := by
  induction fuel generalizing b changed with
  | zero =>
    obtain ⟨_, _, _, h⟩ := Succeeds.bind_iff.1 h
    exact (Succeeds.of_throw h).elim
  | succ fuel ih =>
    obtain ⟨_, last⟩ | ⟨_, d, _, swept, others⟩ := settle_succ.1 h
    · exact (sweep_sameSkeleton valid last).2
    · obtain ⟨valid', first⟩ := sweep_sameSkeleton valid swept
      exact first.trans (ih valid' others)

/-- Optimization at any level keeps the effect skeleton. -/
theorem optimize_sameSkeleton {level : OptLevel} {changed : Bool} (valid : b.validate = .ok ())
    (ran : (optimize level).apply b = (.ok changed, c)) : SameSkeleton b c :=
  settle_sameSkeleton valid (optimize_iff.1 ran)

/-- A store under a test that stands there twice. -/
def guarded : Buffer :=
  { atoms := #[.type .i32 .null .null, .qualifier (.ref 0) .parameter 0, .literal (.bool true),
      .literal (.bool true), .branch .ifThen (.ref 3) (.ref 7), .literal (.i32 5),
      .store (.ref 1) (.ref 5), .branch .close .null .null, .ret (.ref 1)] }

/-- The tests are merged, and the branch still leads to the end of the block. -/
theorem guarded_sameSkeleton :
    guarded.validate = .ok () ∧ ∃ changed c, (optimize .full).apply guarded = (.ok changed, c) ∧
      c.size = 8 ∧ guarded.skeleton.length = 5 ∧ SameSkeleton guarded c := by
  obtain ⟨c, ran, size⟩ := (Option.any_eq_true _ _).1
    (by decide +kernel : (((optimize .full).exec guarded).toOption.any fun c => c.size == 8) = true)
  obtain ⟨changed, ran⟩ := Edit.exec_ok_iff.1 (Except.toOption_eq_some_iff.1 ran)
  have valid : guarded.validate = .ok () := rfl
  exact ⟨valid, changed, c, ran, beq_iff_eq.1 size, rfl, optimize_sameSkeleton valid ran⟩

end Optimizer

end ShaderForge
