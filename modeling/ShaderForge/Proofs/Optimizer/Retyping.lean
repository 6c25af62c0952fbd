import ShaderForge.Proofs.Function.Preparation
import ShaderForge.Proofs.Function.Signature
import ShaderForge.Proofs.Optimizer.CompactionRuns
import ShaderForge.Proofs.Optimizer.DeadCodeRuns
import ShaderForge.Proofs.Optimizer.Settling
import ShaderForge.Proofs.Typing.Links

/-!
Types of renumbered functions. Compaction and dead code elimination number the atoms that they keep
anew. The function they leave can be prepared, also where captured atoms are gone, and its types and
signature are those before with renumbered addresses.
-/

namespace ShaderForge.Optimizer

open Buffer

/-- With the other buffer a function can be prepared. Every atom that has an image keeps its type
there, and the signature stays, up to the renumbering. -/
def Retypes (f : Function) (c : Buffer) (m : Renumbering) : Prop :=
  ∃ g, Function.prepare.apply { f with buffer := c } = (.ok (), g) ∧
    (∀ n j, n < f.buffer.size → m.image? (.ref n) = some j → ∃ ty ty',
      f.buffer.typeOf (.ref n) = .ok ty ∧ m.ty? ty = some ty' ∧ g.buffer.typeOf j = .ok ty') ∧
    f.args.mapM m.ty? = some g.args ∧ m.ty? f.returns = some g.returns

/-- The buffer is rebuilt from what is kept, or left alone where everything is. -/
def Renumbers (b c : Buffer) (kept : List Index) (m : Renumbering) : Prop :=
  if kept.length = b.size then c = b else b.rebuild kept m = .ok c

/-- Atoms that a fold keeps are sent where it sends them, the others nowhere. -/
def Follows (b : Buffer) (m : Renumbering) (fold : Index → Index) : Prop :=
  ∀ n j, n < b.size → (m.image? (.ref n) = some j ↔ Kept fold (.ref n) ∧ fold (.ref n) = j)

section

variable {b c : Buffer} {m : Renumbering} {fold : Index → Index}

theorem Follows.ty? (follows : Follows b m fold) (folds : Folds b c fold) (typed : b.Typed)
    (backward : b.Backward) {i : Index} {ty : Ty} (kept : Kept fold i) (known : b.table i = some ty) :
    m.ty? ty = some (ty.rename fold) := by
  cases i with
  | null => cases known; rfl
  | ref n =>
    have closed : b.UseClosed fun o => Kept fold o ∧ ∀ k, o = .ref k → k < b.size := by
      intro k a first found o used
      refine ⟨folds.closed k a first.1 found o used, ?_⟩
      rintro j rfl
      obtain ⟨_, same, early⟩ := backward k a found _ used
      cases same
      exact Nat.lt_trans early (first.2 k rfl)
    have inside : n < b.size := by
      have inside := (Array.getElem?_eq_some_iff.1 known).1
      rwa [typed.complete] at inside
    have reached : Kept fold (.ref n) ∧ ∀ k, Index.ref n = .ref k → k < b.size :=
      ⟨kept, fun k same => Index.ref.inj same ▸ inside⟩
    refine Renumbering.ty?_eq fun o named => ?_
    have lasting : Kept fold o ∧ ∀ k, o = .ref k → k < b.size := by
      rcases named with carried | linked
      · obtain ⟨_, _, _, lasting, _⟩ := typed.struct_head backward closed n reached known carried
        exact lasting
      · exact typed.link backward closed ⟨folds.kept_null, nofun⟩ n reached known linked
    cases o with
    | null => rw [folds.null]; rfl
    | ref k => exact (follows k _ (lasting.2 k rfl)).2 ⟨lasting.1, rfl⟩

theorem mapM_renumbered {parameters : List (Index × Nat)} {args : List Ty}
    (each : List.Forall₂ (fun p ty => b.typeOf p.1 = .ok ty) parameters args)
    (renumbered : ∀ p ∈ parameters, ∀ ty, b.typeOf p.1 = .ok ty → m.ty? ty = some (ty.rename fold)) :
    args.mapM m.ty? = some (args.map (Ty.rename fold)) := by
  induction each with
  | nil => rfl
  | cons known _ ih =>
    have later := ih fun p member => renumbered p (List.mem_cons_of_mem _ member)
    simp [renumbered _ List.mem_cons_self _ known, later]

/-- A function whose buffer is folded keeps its types, as long as its parameters and returns are
kept and stand in their order. -/
theorem retypes_of_fold {raw f : Function} (made : Succeeds Function.prepare raw () f)
    (nonempty : f.buffer.size ≠ 0) (fresh : c.size = 0 → c.invalidate = c)
    (valid : c.validate = .ok ()) (folds : Folds f.buffer c fold) (follows : Follows f.buffer m fold)
    (special : ∀ (n : Nat) (a : Atom), f.buffer.atoms[n]? = some a →
      (Function.position? a).isSome ∨ (Function.returned? a).isSome → Kept fold (.ref n))
    (ordered : ∀ (n k : Nat) (a a' : Atom), f.buffer.atoms[n]? = some a → f.buffer.atoms[k]? = some a' →
      (Function.position? a).isSome ∨ (Function.returned? a).isSome →
      (Function.position? a').isSome ∨ (Function.returned? a').isSome →
      n < k → fold (.ref n) < fold (.ref k)) : Retypes f c m := by
  obtain ⟨g₀, again, renamed, _⟩ := Function.prepare_content made f rfl rfl rfl rfl rfl
  obtain ⟨types, _⟩ := renamed.results nonempty
  have prepared := (Function.prepared_of_prepare made).1
  have typed := prepared.typed nonempty
  have table : g₀.buffer.table = f.buffer.table := by
    unfold Buffer.table
    rw [types]
  obtain ⟨_, _, _, g, _, _, run, _, retyped⟩ :=
    Function.prepare_retyped again nonempty fresh valid folds special ordered
  have renumbered : ∀ {i : Index} {ty : Ty}, Kept fold i → f.buffer.typeOf i = .ok ty →
      m.ty? ty = some (ty.rename fold) := fun kept known =>
    follows.ty? folds typed prepared.backward kept (typed.typeOf_ok_iff.1 known)
  refine ⟨g, run, ?_, ?_, ?_⟩
  · intro n j inside image
    obtain ⟨kept, rfl⟩ := (follows n j inside).1 image
    obtain ⟨a, found⟩ := exists_atom inside
    obtain ⟨k, place, there⟩ := folds.atom_at found kept
    obtain ⟨ty, known⟩ : ∃ ty, f.buffer.table (.ref n) = some ty := by
      have within : n < f.buffer.types.size := by rw [typed.complete]; exact inside
      exact ⟨_, Array.getElem?_eq_getElem within⟩
    have nonempty' : g.buffer.size ≠ 0 := by
      have atoms := (Function.prepared_of_prepare run).2.2.2
      have within := (Array.getElem?_eq_some_iff.1 there).1
      rw [size, atoms]
      exact Nat.ne_of_gt (Nat.lt_of_le_of_lt (Nat.zero_le _) within)
    have typed' := (Function.prepared_of_prepare run).1.typed nonempty'
    refine ⟨ty, _, typed.typeOf_ok_iff.2 known, renumbered kept (typed.typeOf_ok_iff.2 known), ?_⟩
    exact typed'.typeOf_ok_iff.2 (retyped.types _ _ kept (by rw [table]; exact known))
  · rw [retyped.args, renamed.args]
    refine mapM_renumbered prepared.arguments fun p member ty known => renumbered ?_ known
    obtain ⟨n, a, place, found, chosen⟩ := Function.mem_parametersOf.1 (show (p.1, p.2) ∈ _ from member)
    rw [place]
    exact special n a found (Or.inl (by simp [chosen]))
  · rw [retyped.returns, renamed.returns]
    rcases prepared.result with none | ⟨n, value, own, found, known, same⟩
    · rw [none]
      rfl
    · have kept := folds.kept_address found (special n _ found (Or.inr rfl)) (Or.inl rfl)
      have whole := Renumbering.ty?_bare (renumbered kept known)
      rw [Ty.bare_rename] at whole
      rw [same]
      exact whole

theorem follows_id (own : ∀ n, n < b.size → m.image? (.ref n) = some (.ref n)) : Follows b m fun i => i := by
  intro n j inside
  rw [own n inside, Option.some.injEq]
  exact ⟨fun same => ⟨rfl, same⟩, And.right⟩

theorem retypes_self {raw f : Function} (made : Succeeds Function.prepare raw () f)
    (own : ∀ n, n < f.buffer.size → m.image? (.ref n) = some (.ref n)) : Retypes f f.buffer m := by
  obtain ⟨prepared, _, _, atoms⟩ := Function.prepared_of_prepare made
  have valid := Function.valid_of_prepare made
  by_cases empty : f.buffer.size = 0
  · have unsigned := (Function.prepare_empty_succeeds (by rwa [size, ← atoms]) made).2
    refine ⟨_, Function.prepare_of_empty empty valid, fun n j inside => ?_, ?_, ?_⟩
    · omega
    · rw [unsigned]
      rfl
    · rw [unsigned]
      rfl
  · exact retypes_of_fold made empty (fun absent => (empty absent).elim) valid
      (Folds.refl prepared.backward) (follows_id own) (fun _ _ _ _ => rfl)
      fun n k _ _ _ _ _ _ below => Index.ref_lt_ref.2 below

theorem eq_range_of_ascending {items : List Index} {size : Nat} (sorted : items.Pairwise (· < ·))
    (inside : ∀ i ∈ items, ∃ n, n < size ∧ i = .ref n) (all : items.length = size) :
    items = (List.range size).map .ref := by
  have once : items.Nodup := by
    refine sorted.imp ?_
    rintro i j below rfl
    exact Nat.lt_irrefl _ below
  have among : items ⊆ (List.range size).map .ref := by
    intro i member
    obtain ⟨n, below, rfl⟩ := inside i member
    exact List.mem_map_of_mem (List.mem_range.2 below)
  have whole : items.Perm ((List.range size).map .ref) :=
    (List.subperm_of_subset once among).perm_of_length_le (by simp [all])
  refine eq_of_ascending id sorted ?_ fun i => whole.mem_iff
  rw [List.pairwise_map]
  exact List.pairwise_lt_range.imp fun below => Index.ref_lt_ref.2 below

theorem Occurrences.image_self {b : Buffer} {firsts : List Index} (occurrences : Occurrences b firsts)
    (all : (kept firsts).length = firsts.length) {n : Nat} (inside : n < b.size) :
    (mergeMap (kept firsts) firsts).image? (.ref n) = some (.ref n) := by
  rw [← occurrences.length] at inside
  obtain ⟨p, at_p, image, _⟩ := occurrences.image ((kept_length_iff firsts).1 all n inside)
  have whole := eq_range_of_ascending (kept_sorted firsts) (fun i member => by
    obtain ⟨k, rfl, first⟩ := mem_kept.1 member
    exact ⟨k, (List.getElem?_eq_some_iff.1 first).1, rfl⟩) all
  rw [whole, List.getElem?_map] at at_p
  obtain ⟨q, there, same⟩ := Option.map_eq_some_iff.1 at_p
  obtain ⟨_, there⟩ := List.getElem?_eq_some_iff.1 there
  rw [List.getElem_range] at there
  rw [image, ← same, there]

theorem Kernel.image_self {b : Buffer} {items : List Index} (kernel : Kernel b items)
    (all : items.length = b.size) {n : Nat} (inside : n < b.size) :
    (removalMap b items).image? (.ref n) = some (.ref n) := by
  have whole := eq_range_of_ascending kernel.ascending (fun i member => by
    obtain ⟨a, there⟩ := kernel.present i member
    cases i with
    | null => cases there
    | ref n => exact ⟨n, (Array.getElem?_eq_some_iff.1 there).1, rfl⟩) all
  have there : items[n]? = some (.ref n) := by
    rw [whole, List.getElem?_map, List.getElem?_range inside]
    rfl
  obtain ⟨below, own⟩ := List.getElem?_eq_some_iff.1 there
  have place := kernel.nodup.idxOf_getElem n below
  rw [own] at place
  rw [kernel.image inside, if_pos (List.mem_of_getElem? there), place]

end

/-! ### The passes -/

section

variable {raw f : Function} {c : Buffer} {changed : Bool}

theorem compact_retypes (made : Succeeds Function.prepare raw () f)
    (compacted : Succeeds compact f.buffer changed c) :
    ∃ firsts, firstOccurrences f.buffer = .ok firsts ∧
      Renumbers f.buffer c (kept firsts) (mergeMap (kept firsts) firsts) ∧
      Retypes f c (mergeMap (kept firsts) firsts) := by
  have prepared := (Function.prepared_of_prepare made).1
  have valid := Function.valid_of_prepare made
  obtain ⟨firsts, found, h⟩ := compact_iff.1 compacted
  have occurrences := occurrences_of_firstOccurrences prepared.backward found
  refine ⟨firsts, found, ?_⟩
  unfold Renumbers
  rw [← occurrences.length]
  split at h
  · rename_i all
    obtain ⟨_, rfl⟩ := h
    rw [if_pos all]
    exact ⟨rfl, retypes_self made fun n inside => occurrences.image_self all inside⟩
  · rename_i fewer
    obtain ⟨_, rebuilt⟩ := h
    rw [if_neg fewer]
    refine ⟨rebuilt, ?_⟩
    have nonempty : f.buffer.size ≠ 0 := by
      rw [← occurrences.length]
      intro empty
      have := kept_length_le firsts
      omega
    refine retypes_of_fold made nonempty (fun _ => rebuild_fresh rebuilt)
      (occurrences.valid valid rebuilt) (occurrences.folds prepared.backward rebuilt) ?_
      (fun n a there _ => occurrences.keeps (Array.getElem?_eq_some_iff.1 there).1)
      fun n k a a' there there' first second below =>
        occurrences.order (Array.getElem?_eq_some_iff.1 there').1 below (occurrences.signed there first)
          (occurrences.signed there' second)
    intro n j inside
    obtain ⟨_, _, first, _⟩ := occurrences.first n inside
    obtain ⟨p, _, image, place⟩ := occurrences.image first
    rw [image, place, Option.some.injEq]
    exact ⟨fun same => ⟨kept_of_place place, same⟩, And.right⟩

theorem exists_alive_of_empty {b : Buffer} (empty : b.size = 0) : ∃ kept, alive b = .ok kept := by
  have none : b.indexed = [] := by simp [indexed, Array.eq_empty_of_size_eq_zero empty]
  refine ⟨(Sweep.start b ∅).run b ∅, ?_⟩
  unfold alive exempt
  rw [none]
  rfl

theorem eliminate_retypes (made : Succeeds Function.prepare raw () f)
    (eliminated : Succeeds eliminate f.buffer changed c) :
    ∃ kept, alive f.buffer = .ok kept ∧
      Renumbers f.buffer c kept.toList (removalMap f.buffer kept.toList) ∧
      Retypes f c (removalMap f.buffer kept.toList) := by
  have valid := Function.valid_of_prepare made
  rw [eliminate_eq] at eliminated
  -- with all atoms kept, elimination leaves the buffer
  have still : ∀ kept, alive f.buffer = .ok kept → kept.toList.length = f.buffer.size →
      Retypes f f.buffer (removalMap f.buffer kept.toList) := by
    intro kept found all
    obtain ⟨_, _, surviving⟩ := surviving_of_alive found
    exact retypes_self made fun n inside => surviving.kernel.image_self all inside
  obtain ⟨absent, _, rfl⟩ | ⟨d, readied, dropped⟩ := whenTyped_iff.1 eliminated
  · have empty : f.buffer.size = 0 := by simpa [isEmpty, size] using absent
    obtain ⟨kept, found⟩ := exists_alive_of_empty empty
    have all : kept.toList.length = f.buffer.size := by
      have := alive_size_le found
      omega
    exact ⟨kept, found, by rw [Renumbers, if_pos all], still kept found all⟩
  obtain ⟨nonempty, rfl⟩ := (readied_iff made).1 readied
  obtain ⟨kept, found, dropped⟩ := dropDead_iff.1 dropped
  refine ⟨kept, found, ?_⟩
  unfold Renumbers
  split at dropped
  · rename_i all
    obtain ⟨_, rfl⟩ := dropped
    rw [if_pos all]
    exact ⟨rfl, still kept found all⟩
  · rename_i fewer
    rw [if_neg fewer]
    obtain ⟨_, rebuilt⟩ := dropped
    obtain ⟨safe, exempted, surviving⟩ := surviving_of_alive found
    have kernel := surviving.kernel
    have signed : ∀ {n : Nat} {a : Atom}, f.buffer.atoms[n]? = some a →
        (Function.position? a).isSome ∨ (Function.returned? a).isSome → .ref n ∈ kept.toList := by
      intro n a there special
      rw [Std.ExtTreeSet.mem_toList]
      refine surviving.exempt _ a there ((mem_exempt exempted there).2 ?_)
      rcases special with bound | leaves
      · obtain ⟨position, chosen⟩ := Option.isSome_iff_exists.1 bound
        obtain ⟨underlying, number, rfl, _⟩ := Function.position?_eq_some chosen
        rfl
      · cases a with
        | ret value => rfl
        | _ => cases leaves
    refine ⟨rebuilt, retypes_of_fold made nonempty (fun _ => rebuild_fresh rebuilt)
      (kernel.valid valid rebuilt) (kernel.folds valid rebuilt) ?_
      (fun n a there special => kept_iff.2 (signed there special))
      fun n k a a' there there' first second below =>
        kernel.order (signed there first) (signed there' second) (Index.ref_lt_ref.2 below)⟩
    intro n j inside
    rw [kernel.image_eq_some_iff inside, kept_iff]

end

/-- Typing commutes with the passes that renumber. Whatever function they are given, what compaction
or elimination leaves can be prepared; an atom that has an image has there the type it had, and the
signature is what it was, with every struct head and field link renumbered. -/
theorem renumbering_retypes {name : String} {id : FunctionId} {b : Buffer} {f : Function}
    (built : Function.build name id b = .ok f) :
    (∀ changed c, compact.apply f.buffer = (.ok changed, c) →
      ∃ firsts, firstOccurrences f.buffer = .ok firsts ∧
        Renumbers f.buffer c (kept firsts) (mergeMap (kept firsts) firsts) ∧
        Retypes f c (mergeMap (kept firsts) firsts)) ∧
    (∀ changed c, eliminate.apply f.buffer = (.ok changed, c) →
      ∃ kept, alive f.buffer = .ok kept ∧
        Renumbers f.buffer c kept.toList (removalMap f.buffer kept.toList) ∧
        Retypes f c (removalMap f.buffer kept.toList)) := by
  have made := build_succeeds built
  exact ⟨fun _ _ compacted => compact_retypes made compacted,
    fun _ _ eliminated => eliminate_retypes made eliminated⟩

/-- A number that nothing uses, and a struct of one number, written out twice: once for a parameter
and once for the result. -/
def twofold : Buffer :=
  { atoms := #[.literal (.i32 7), .type .nil .null .null, .type .i32 .null (.ref 1), .type .nil .null .null,
      .type .i32 .null (.ref 3), .type .nil (.ref 2) .null, .type .nil (.ref 4) .null,
      .qualifier (.ref 5) .parameter 0, .literal (.i32 1), .list (.ref 8) .null,
      .construct (.ref 6) (.ref 9) .normal, .ret (.ref 10)] }

/-- Compaction makes one type of the two, elimination moves both of them. -/
theorem twofold_retypes :
    ∃ f, Function.build "f" 0 twofold = .ok f ∧
      (f.args, f.returns) = ([.data (.struct (.ref 2))], .data (.struct (.ref 4))) ∧
      (∃ changed c m, compact.apply f.buffer = (.ok changed, c) ∧ c.size = 9 ∧ Retypes f c m ∧
        m.ty? f.returns = some (.data (.struct (.ref 2)))) ∧
      ∃ changed c m, eliminate.apply f.buffer = (.ok changed, c) ∧ c.size = 11 ∧ Retypes f c m ∧
        m.ty? f.returns = some (.data (.struct (.ref 3))) := by
  obtain ⟨f, changed, c, built, compacted, holds⟩ := exists_edited compact twofold (fun f g =>
    (f.args, f.returns) == ([.data (.struct (.ref 2))], .data (.struct (.ref 4))) && g.buffer.size == 9 &&
      (firstOccurrences f.buffer).toOption.any fun firsts =>
        (mergeMap (kept firsts) firsts).ty? f.returns == some (.data (.struct (.ref 2)))) (by decide +kernel)
  obtain ⟨_, removed, d, built', eliminated, holds'⟩ := exists_edited eliminate twofold (fun f g =>
    g.buffer.size == 11 && (alive f.buffer).toOption.any fun kept =>
      (removalMap f.buffer kept.toList).ty? f.returns == some (.data (.struct (.ref 3)))) (by decide +kernel)
  rw [built, Except.ok.injEq] at built'
  subst built'
  simp only [Bool.and_eq_true, beq_iff_eq, Option.any_eq_true, Except.toOption_eq_some_iff] at holds holds'
  obtain ⟨⟨signature, size⟩, _, found, merged⟩ := holds
  obtain ⟨size', _, found', moved⟩ := holds'
  obtain ⟨merging, dropping⟩ := renumbering_retypes built
  obtain ⟨firsts, known, _, retypes⟩ := merging changed c compacted
  obtain ⟨left, known', _, retypes'⟩ := dropping removed d eliminated
  rw [found, Except.ok.injEq] at known
  rw [found', Except.ok.injEq] at known'
  subst known
  subst known'
  exact ⟨f, built, signature, ⟨changed, c, _, compacted, size, retypes, merged⟩,
    removed, d, _, eliminated, size', retypes', moved⟩

end ShaderForge.Optimizer
