import ShaderForge.Proofs.Buffer.Results
import ShaderForge.Proofs.Liveness.Least
import ShaderForge.Proofs.Optimizer.Retyping

/-!
What dead code elimination keeps. An atom is live when it is anchored, or when a live atom has its
address. What the worklist leaves is exactly the live atoms: nothing else that is not used is left,
every use but that of a branch target comes from a later atom, and branches are anchored. What is left is all
live, so a second run finds nothing to remove, provided the first one went by the types of its atoms.
-/

namespace ShaderForge.Optimizer

open Buffer

variable {b c : Buffer} {n : Nat}

/-! ### Live atoms -/

/-- The atoms that anchored ones lead to through addresses, branch targets included. -/
inductive Live (b : Buffer) : Nat → Prop
  | anchored {n : Nat} {a : Atom} (found : b.atoms[n]? = some a)
      (anchored : Liveness.Anchored b (.ref n) a) : Live b n
  | used {m n : Nat} {a : Atom} (user : Live b m) (found : b.atoms[m]? = some a)
      (used : .ref n = a.addresses.1 ∨ .ref n = a.addresses.2) : Live b n

theorem Live.inside (valid : b.validate = .ok ()) (live : Live b n) : n < b.size := by
  cases live with
  | anchored found _ => exact (Array.getElem?_eq_some_iff.1 found).1
  | used _ found used =>
    obtain ⟨_, there⟩ := exists_of_address valid found used rfl
    exact (Array.getElem?_eq_some_iff.1 there).1

section

variable {safe kept : IndexSet}

theorem mem_of_live (valid : b.validate = .ok ()) (exempted : exempt b = .ok safe)
    (surviving : Surviving b safe kept) (live : Live b n) : .ref n ∈ kept := by
  induction live with
  | anchored found anchored =>
    exact surviving.exempt _ _ found ((mem_exempt exempted found).2 (Liveness.isAnchored_iff.2 anchored))
  | used _ found used ih =>
    exact surviving.closed _ ih _ (mem_uses.2 ⟨_, found, used, exists_of_address valid found used rfl⟩)

theorem live_of_mem (valid : b.validate = .ok ()) (found : alive b = .ok kept) (member : .ref n ∈ kept) :
    Live b n := by
  obtain ⟨safe, exempted, surviving⟩ := surviving_of_alive found
  -- from the last atom down: what is not exempt is used by a branch or by a later atom
  induction left : b.size - n using Nat.strongRecOn generalizing n with
  | ind d ih =>
    obtain ⟨a, there⟩ := surviving.present _ member
    rcases surviving.needed _ member with exempt | ⟨i, user, uses⟩
    · exact .anchored there (Liveness.isAnchored_iff.1 ((mem_exempt exempted there).1 exempt))
    · obtain ⟨a', there', used, _⟩ := mem_uses.1 uses
      cases i with
      | null => cases there'
      | ref m =>
        refine .used ?_ there' used
        cases branch : a'.isBranch with
        | true =>
          cases a' with
          | branch kind cond failto => exact .anchored there' (.branch kind cond failto)
          | _ => cases branch
        | false =>
          have later : n < m := Index.ref_lt_ref.1
            ((backward_of_validate valid).address_lt there' (used.imp_right fun second => ⟨second, branch⟩))
          have inside : m < b.size := (Array.getElem?_eq_some_iff.1 there').1
          exact ih (b.size - m) (by omega) user rfl

theorem mem_alive_iff (valid : b.validate = .ok ()) (found : alive b = .ok kept) :
    .ref n ∈ kept.toList ↔ Live b n := by
  obtain ⟨_, exempted, surviving⟩ := surviving_of_alive found
  rw [Std.ExtTreeSet.mem_toList]
  exact ⟨live_of_mem valid found, mem_of_live valid exempted surviving⟩

theorem all_alive_iff (valid : b.validate = .ok ()) (found : alive b = .ok kept) :
    kept.toList.length = b.size ↔ ∀ n < b.size, Live b n := by
  obtain ⟨_, _, surviving⟩ := surviving_of_alive found
  constructor
  · intro all n inside
    have own := surviving.kernel.image_self all inside
    exact (mem_alive_iff valid found).1 ((surviving.kernel.image_eq_some_iff inside).1 own).1
  · intro all
    have once : ((List.range b.size).map Index.ref).Nodup :=
      List.nodup_range.map fun _ _ same => Index.ref.inj same
    have among : (List.range b.size).map Index.ref ⊆ kept.toList := by
      intro i member
      obtain ⟨n, inside, rfl⟩ := List.mem_map.1 member
      exact (mem_alive_iff valid found).2 (all n (List.mem_range.1 inside))
    refine Nat.le_antisymm (alive_size_le found) ?_
    simpa using (List.subperm_of_subset once among).length_le

end

/-! ### What is left -/

/-- The other buffer has the chosen atoms and nothing else, in their order and with their captures and
names, and with every address sent to its new place. -/
structure Restricts (b c : Buffer) (chosen : Nat → Prop) (place : Index → Index) : Prop where
  null : place .null = .null
  onto : ∀ k, k < c.size ↔ ∃ n, chosen n ∧ place (.ref n) = .ref k
  ordered : ∀ m n, chosen m → chosen n → m < n → place (.ref m) < place (.ref n)
  atoms : ∀ n a, chosen n → b.atoms[n]? = some a →
    c.get? (place (.ref n)) = some (a.mapAddresses place)
  captured : ∀ i, i ∈ c.synthesized ↔ ∃ n, chosen n ∧ .ref n ∈ b.synthesized ∧ place (.ref n) = i
  named : ∀ i d, c.decorations[i]? = some d ↔
    ∃ n, chosen n ∧ b.decorations[Index.ref n]? = some d ∧ place (.ref n) = i

theorem restricts_self (valid : b.validate = .ok ()) (all : ∀ n < b.size, Live b n) :
    Restricts b b (Live b) id := by
  have present : ∀ i, (i ∈ b.synthesized ∨ i ∈ b.decorations) → ∃ n, Live b n ∧ i = .ref n := by
    intro i noted
    obtain ⟨a, there⟩ := (validate_ok_iff.1 valid).2 i noted
    cases i with
    | null => cases there
    | ref n => exact ⟨n, all n (Array.getElem?_eq_some_iff.1 there).1, rfl⟩
  refine ⟨rfl, fun k => ?_, fun _ _ _ _ below => Index.ref_lt_ref.2 below, ?_, fun i => ?_, fun i d => ?_⟩
  · constructor
    · intro inside
      exact ⟨k, all k inside, rfl⟩
    · rintro ⟨n, live, same⟩
      cases same
      exact live.inside valid
  · intro n a _ found
    have own : a.mapAddresses id = a := by cases a <;> rfl
    rw [own]
    exact found
  · constructor
    · intro captured
      obtain ⟨n, live, rfl⟩ := present i (Or.inl captured)
      exact ⟨n, live, captured, rfl⟩
    · rintro ⟨n, _, captured, rfl⟩
      exact captured
  · constructor
    · intro named
      have member : i ∈ b.decorations := Std.ExtTreeMap.mem_iff_isSome_getElem?.2 (by rw [named]; rfl)
      obtain ⟨n, live, rfl⟩ := present i (Or.inr member)
      exact ⟨n, live, named, rfl⟩
    · rintro ⟨n, _, named, rfl⟩
      exact named

theorem Kernel.named {kept : List Index} (kernel : Kernel b kept) (valid : b.validate = .ok ())
    (rebuilt : b.rebuild kept (removalMap b kept) = .ok c) (member : .ref n ∈ kept) :
    c.decorations[removedPlace kept (.ref n)]? = b.decorations[Index.ref n]? := by
  obtain ⟨_, _, rfl⟩ := rebuild_ok rebuilt
  obtain ⟨a, there⟩ := kernel.present _ member
  have image := (kernel.image_eq_some_iff (Array.getElem?_eq_some_iff.1 there).1).2 ⟨member, rfl⟩
  refine Renumbering.getElem?_indexMap image fun j named goes => ?_
  obtain ⟨a', there'⟩ := (validate_ok_iff.1 valid).2 j (Or.inr named)
  cases j with
  | null => cases there'
  | ref k =>
    obtain ⟨_, place⟩ := (kernel.image_eq_some_iff (Array.getElem?_eq_some_iff.1 there').1).1 goes
    rw [removedPlace_solo member _ place]

theorem Kernel.restricts {kept : List Index} (kernel : Kernel b kept) (valid : b.validate = .ok ())
    (rebuilt : b.rebuild kept (removalMap b kept) = .ok c) {chosen : Nat → Prop}
    (chooses : ∀ n, .ref n ∈ kept ↔ chosen n) : Restricts b c chosen (removedPlace kept) := by
  refine ⟨kernel.null, fun k => ?_, fun m n first second below => ?_, fun n a live found => ?_,
    fun i => ?_, fun i d => ?_⟩
  · rw [rebuild_size rebuilt]
    constructor
    · intro inside
      obtain ⟨n, _, member, _, place⟩ := kernel.source inside
      exact ⟨n, (chooses n).1 member, place⟩
    · rintro ⟨n, live, place⟩
      have member := (chooses n).2 live
      rw [removedPlace_of_mem member] at place
      cases place
      exact List.idxOf_lt_length_iff.2 member
  · exact kernel.order ((chooses m).2 first) ((chooses n).2 second) (Index.ref_lt_ref.2 below)
  · exact kernel.atom valid rebuilt ((chooses n).2 live) found
  · rw [kernel.mem_synthesized valid rebuilt]
    simp only [chooses]
  · constructor
    · intro named
      have noted : i ∈ c.decorations := Std.ExtTreeMap.mem_iff_isSome_getElem?.2 (by rw [named]; rfl)
      obtain ⟨_, there⟩ := (validate_ok_iff.1 (kernel.valid valid rebuilt)).2 i (Or.inr noted)
      cases i with
      | null => cases there
      | ref k =>
        have inside : k < kept.length := by
          rw [← rebuild_size rebuilt]
          exact (Array.getElem?_eq_some_iff.1 there).1
        obtain ⟨n, _, member, _, place⟩ := kernel.source inside
        rw [← place, kernel.named valid rebuilt member] at named
        exact ⟨n, (chooses n).1 member, named, place⟩
    · rintro ⟨n, live, named, rfl⟩
      rw [kernel.named valid rebuilt ((chooses n).2 live)]
      exact named

/-! ### A second run -/

section

variable {fold : Index → Index}

theorem anchored_image {a : Atom} (typed : b.Typed) (typed' : c.Typed)
    (types : ∀ i ty, Kept fold i → b.table i = some ty → c.table (fold i) = some (ty.rename fold))
    (kept : Kept fold (.ref n)) (anchored : Liveness.Anchored b (.ref n) a) :
    Liveness.Anchored c (fold (.ref n)) (a.mapAddresses fold) := by
  cases anchored with
  | parameter => exact .parameter _ _
  | accelerationStructure => exact .accelerationStructure _ _
  | reference known =>
    exact .reference (typed'.typeOf_ok_iff.2 (types _ _ kept (typed.typeOf_ok_iff.1 known)))
  | store => exact .store _ _
  | ret => exact .ret _
  | branch => exact .branch _ _ _
  | call => exact .call _ _ _
  | intrinsic effect => exact .intrinsic effect

theorem Live.image (folds : Folds b c fold) (typed : b.Typed) (typed' : c.Typed)
    (types : ∀ i ty, Kept fold i → b.table i = some ty → c.table (fold i) = some (ty.rename fold))
    (stays : ∀ n, Live b n → Kept fold (.ref n)) (live : Live b n) {k : Nat}
    (place : fold (.ref n) = .ref k) : Live c k := by
  induction live generalizing k with
  | @anchored n a found anchored =>
    have kept := kept_of_place place
    have image := folds.atoms n a found kept
    have anchored' := anchored_image typed typed' types kept anchored
    rw [place] at image anchored'
    exact .anchored image anchored'
  | @used m n a user found used ih =>
    obtain ⟨j, place', image⟩ := folds.atom_at found (stays m user)
    refine .used (ih place') image ?_
    rw [Atom.addresses_mapAddresses folds.null, ← place]
    exact used.imp (congrArg fold) (congrArg fold)

end

theorem eliminate_still {kept : IndexSet} (valid : c.validate = .ok ()) (readied : Readied b c)
    (found : alive c = .ok kept) (all : ∀ n < c.size, Live c n) : Succeeds eliminate b false c := by
  rw [eliminate_eq]
  refine whenTyped_iff.2 (Or.inr ⟨c, readied, dropDead_iff.2 ⟨kept, found, ?_⟩⟩)
  rw [if_pos ((all_alive_iff valid found).2 all)]
  exact ⟨rfl, rfl⟩

theorem eliminate_settled {kept : IndexSet} (valid : b.validate = .ok ()) (typed : b.Typed)
    (found : alive b = .ok kept)
    (rebuilt : b.rebuild kept.toList (removalMap b kept.toList) = .ok c) :
    ∃ d, Succeeds eliminate c false d := by
  obtain ⟨_, _, surviving⟩ := surviving_of_alive found
  have kernel := surviving.kernel
  cases empty : c.isEmpty with
  | true =>
    rw [eliminate_eq]
    exact ⟨c, whenTyped_iff.2 (Or.inl ⟨empty, rfl, rfl⟩)⟩
  | false =>
    have folds := kernel.folds valid rebuilt
    obtain ⟨types, hints, analyzed, typed', renamed⟩ :=
      folds.analyze typed (backward_of_validate valid)
    have readied : Readied c (c.withAnalysis types hints) := by
      refine ⟨empty, ?_⟩
      have unknown : c.isAnalyzed = false := by
        rw [← rebuild_fresh rebuilt]
        exact isAnalyzed_invalidate empty
      rw [unknown]
      exact analyze_succeeds.2 ⟨types, hints, analyzed, rfl⟩
    have valid' := validate_withAnalysis (kernel.valid valid rebuilt) analyzed
    obtain ⟨kept', found'⟩ := exists_alive readied.isAnalyzed.2
    have folds' : Folds b (c.withAnalysis types hints) (removedPlace kept.toList) :=
      folds.congr rfl rfl rfl rfl
    have restricts := kernel.restricts valid rebuilt fun _ => mem_alive_iff valid found
    have all : ∀ k < (c.withAnalysis types hints).size, Live (c.withAnalysis types hints) k := by
      intro k inside
      obtain ⟨n, live, place⟩ := (restricts.onto k).1 inside
      exact live.image folds' typed typed' renamed
        (fun n live => kept_iff.2 ((mem_alive_iff valid found).2 live)) place
    exact ⟨_, eliminate_still valid' readied found' all⟩

/-- Elimination of a valid buffer with types never fails. It keeps exactly the live atoms, and says
whether it removed any. A second run removes nothing if the first one did not, or if the types were
those of the atoms. -/
theorem eliminate_keeps_live (valid : b.validate = .ok ()) (analyzed : b.isAnalyzed = true) :
    ∃ changed c, eliminate.apply b = (.ok changed, c) ∧ (∃ place, Restricts b c (Live b) place) ∧
      (changed = true ↔ ∃ n < b.size, ¬ Live b n) ∧ (changed = false → c = b) ∧
      ((changed = false ∨ ∃ hints, Typing.analyze b = .ok (b.types.toList, hints)) →
        ∃ d, eliminate.apply c = (.ok false, d)) := by
  obtain ⟨kept, found⟩ := exists_alive analyzed
  obtain ⟨_, _, surviving⟩ := surviving_of_alive found
  have readied : Readied b b := by
    simp only [isAnalyzed, Bool.and_eq_true, Bool.not_eq_true'] at analyzed
    exact ⟨analyzed.1, by simp [isAnalyzed, analyzed]⟩
  by_cases all : ∀ n < b.size, Live b n
  · have still := eliminate_still valid readied found all
    refine ⟨false, b, still, ⟨id, restricts_self valid all⟩, ?_, fun _ => rfl, fun _ => ⟨b, still⟩⟩
    simpa using all
  · obtain ⟨c, rebuilt⟩ := surviving.kernel.rebuild valid
    have dropped : Succeeds eliminate b true c := by
      rw [eliminate_eq]
      refine whenTyped_iff.2 (Or.inr ⟨b, readied, dropDead_iff.2 ⟨kept, found, ?_⟩⟩)
      rw [if_neg (mt (all_alive_iff valid found).1 all)]
      exact ⟨rfl, rebuilt⟩
    refine ⟨true, c, dropped, ⟨_, surviving.kernel.restricts valid rebuilt fun _ => mem_alive_iff valid found⟩,
      ?_, fun unchanged => absurd unchanged.symm Bool.false_ne_true, ?_⟩
    · simpa using all
    · rintro (unchanged | ⟨hints, current⟩)
      · cases unchanged
      · exact eliminate_settled valid (typed_of_analyze current rfl Array.toArray_toList.symm) found rebuilt

/-! ### Two buffers -/

/-- A store under a condition, and the captured double of a number that nothing returns. -/
def unreturned : Buffer :=
  Operation.run [.analyze] (.ofContent [.type .i32 .null .null, .qualifier (.ref 0) .parameter 0,
    .literal (.bool true), .literal (.i32 7), .operation .addition (.ref 3) (.ref 3),
    .branch .ifThen (.ref 2) (.ref 7), .store (.ref 1) (.ref 1), .branch .close .null .null,
    .ret (.ref 1)] [.ref 4] [(.ref 1, { name := "x" }), (.ref 3, { name := "seven" })])

/-- The number and its double are removed, and the condition leads to where the block now ends. -/
theorem unreturned_keeps_live :
    unreturned.validate = .ok () ∧ unreturned.isAnalyzed = true ∧
      ∃ c, eliminate.apply unreturned = (.ok true, c) ∧ c.size = 7 ∧
        (∃ place, Restricts unreturned c (Live unreturned) place) ∧
        (∃ n < unreturned.size, ¬ Live unreturned n) ∧ ∃ d, eliminate.apply c = (.ok false, d) := by
  have valid : unreturned.validate = .ok () := Except.toOption_eq_some_iff.1 (by decide +kernel)
  have analyzed : unreturned.isAnalyzed = true := by decide +kernel
  have current : (Typing.analyze unreturned).toOption.any (·.1 == unreturned.types.toList) = true := by
    decide +kernel
  have removed : (eliminate.apply unreturned).1.toOption = some true := by decide +kernel
  have size : (eliminate.apply unreturned).2.size = 7 := by decide +kernel
  simp only [Option.any_eq_true, Except.toOption_eq_some_iff, beq_iff_eq] at current removed
  obtain ⟨⟨_, hints⟩, found, rfl⟩ := current
  obtain ⟨changed, c, eliminated, restricts, removes, _, again⟩ := eliminate_keeps_live valid analyzed
  rw [eliminated] at removed size
  cases removed
  exact ⟨valid, analyzed, c, eliminated, size, restricts, removes.1 rfl, again (Or.inr ⟨hints, found⟩)⟩

/-- A reference in a list, typed, and then with its declaration exchanged for that of a number by a
renumbering that fails at the list. -/
def exchanged : Buffer :=
  Operation.run [.emit (.type .f32 .null .null), .emit (.qualifier (.ref 0) .bufferReference 0),
    .emit (.construct (.ref 1) .null .normal), .emit (.list (.ref 2) .null), .analyze,
    .renumber ((Renumbering.set {} (.ref 1) (.ref 0)).remove (.ref 2))] {}

/-- The first run keeps the number as the reference that it was, the second removes it. -/
theorem exchanged_not_settled :
    exchanged.validate = .ok () ∧ exchanged.isAnalyzed = true ∧
      ∃ c d, eliminate.apply exchanged = (.ok true, c) ∧ eliminate.apply c = (.ok true, d) := by
  have first : (eliminate.apply exchanged).1.toOption = some true := by decide +kernel
  have second : (eliminate.apply (eliminate.apply exchanged).2).1.toOption = some true := by
    decide +kernel
  rw [Except.toOption_eq_some_iff] at first second
  exact ⟨Except.toOption_eq_some_iff.1 (by decide +kernel), by decide +kernel, _, _,
    Prod.ext first rfl, Prod.ext second rfl⟩

end ShaderForge.Optimizer
