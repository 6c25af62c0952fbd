import ShaderForge.Proofs.Optimizer.Merging

/-!
Compaction folds a buffer. The kept atoms stand in their old order, and every atom goes to the
place of its first occurrence.
-/

namespace ShaderForge

open Buffer

namespace Renumbering

/-- Where a renumbering sends an address; removed ones stay. -/
def place (m : Renumbering) (i : Index) : Index := (m.image? i).getD i

theorem atoms_eq_map {m : Renumbering} {n : Nat} {items : List Atom}
    (fine : (m.atoms n items).2 = none) :
    (m.atoms n items).1 = items.map (·.mapAddresses m.place) := by
  induction items generalizing n with
  | nil => rfl
  | cons a rest ih =>
    unfold atoms at fine ⊢
    split at fine
    · cases fine
    · simp only [List.map_cons, List.cons.injEq]
      exact ⟨rfl, ih fine⟩

theorem atoms_fine {m : Renumbering} {n : Nat} {items : List Atom}
    (whole : ∀ a ∈ items, m.removed? a = none) : (m.atoms n items).2 = none := by
  induction items generalizing n with
  | nil => rfl
  | cons a rest ih =>
    obtain ⟨here, later⟩ := List.forall_mem_cons.1 whole
    unfold atoms
    rw [here]
    exact ih later

theorem mem_indexSet {m : Renumbering} {s : IndexSet} {i : Index} :
    i ∈ m.indexSet s ↔ ∃ j ∈ s, m.image? j = some i := by
  unfold indexSet
  rw [Std.ExtTreeSet.mem_ofList, List.contains_iff_mem, List.mem_filterMap]
  simp only [Std.ExtTreeSet.mem_toList]

theorem mem_indexMap {β : Type} {m : Renumbering} {t : IndexMap β} {i : Index}
    (member : i ∈ m.indexMap t) : ∃ j ∈ t, m.image? j = some i := by
  unfold indexMap at member
  rw [Std.ExtTreeMap.mem_ofList, List.contains_iff_mem, List.mem_map] at member
  obtain ⟨⟨i', v⟩, inside, rfl⟩ := member
  obtain ⟨⟨j, w⟩, entry, mapped⟩ := List.mem_filterMap.1 inside
  obtain ⟨i, image, same⟩ := Option.map_eq_some_iff.1 mapped
  cases same
  refine ⟨j, ?_, image⟩
  have found := Std.ExtTreeMap.mem_toList_iff_getElem?_eq_some.1 entry
  exact Std.ExtTreeMap.mem_iff_isSome_getElem?.2 (by rw [found]; rfl)

theorem getElem?_insertMany {β : Type} {i : Index} {v : β} {items : List (Index × β)}
    (agree : ∀ w, (i, w) ∈ items → w = v) {t : IndexMap β} (given : t[i]? = some v ∨ (i, v) ∈ items) :
    (t.insertMany items)[i]? = some v := by
  induction items generalizing t with
  | nil => exact given.resolve_right List.not_mem_nil
  | cons entry rest ih =>
    obtain ⟨k, w⟩ := entry
    rw [Std.ExtTreeMap.insertMany_cons]
    apply ih fun w member => agree w (List.mem_cons_of_mem _ member)
    by_cases here : k = i
    · subst here
      rw [agree w List.mem_cons_self]
      exact Or.inl (by simp)
    · rw [Std.ExtTreeMap.getElem?_insert, if_neg (by rwa [Index.compare_eq_eq])]
      refine given.imp_right fun member => (List.mem_cons.1 member).resolve_left fun same => ?_
      exact here (congrArg Prod.fst same).symm

theorem getElem?_indexMap {β : Type} {m : Renumbering} {t : IndexMap β} {i j : Index}
    (image : m.image? j = some i) (agree : ∀ k ∈ t, m.image? k = some i → t[k]? = t[j]?) :
    (m.indexMap t)[i]? = t[j]? := by
  cases known : t[j]? with
  | none =>
    apply Std.ExtTreeMap.getElem?_eq_none
    intro member
    obtain ⟨k, inside, goes⟩ := mem_indexMap member
    have present := Std.ExtTreeMap.mem_iff_isSome_getElem?.1 inside
    rw [agree k inside goes, known] at present
    cases present
  | some v =>
    unfold indexMap
    rw [Std.ExtTreeMap.ofList_eq_insertMany_empty]
    refine getElem?_insertMany (fun w member => ?_) (Or.inr (List.mem_filterMap.2 ⟨(j, v), ?_, ?_⟩))
    · obtain ⟨⟨k, w'⟩, entry, mapped⟩ := List.mem_filterMap.1 member
      obtain ⟨i', goes, same⟩ := Option.map_eq_some_iff.1 mapped
      cases same
      have found := Std.ExtTreeMap.mem_toList_iff_getElem?_eq_some.1 entry
      have inside : k ∈ t := Std.ExtTreeMap.mem_iff_isSome_getElem?.2 (by rw [found]; rfl)
      rw [agree k inside goes, known, Option.some.injEq] at found
      exact found.symm
    · exact Std.ExtTreeMap.mem_toList_iff_getElem?_eq_some.2 known
    · exact Option.map_eq_some_iff.2 ⟨i, image, rfl⟩

end Renumbering

theorem Buffer.rebuild_ok {b c : Buffer} {kept : List Index} {m : Renumbering}
    (h : b.rebuild kept m = .ok c) :
    ∃ atoms, kept.mapM b.atom = .ok atoms ∧ c =
      { atoms := (atoms.map (·.mapAddresses m.place)).toArray
        synthesized := m.indexSet b.synthesized
        decorations := m.indexMap b.decorations } := by
  unfold rebuild at h
  obtain ⟨atoms, read, h⟩ := Except.bind_ok h
  refine ⟨atoms, read, ?_⟩
  have run : Succeeds (renumber m)
      { atoms := atoms.toArray, synthesized := b.synthesized, decorations := b.decorations } () c := by
    obtain ⟨_, run⟩ := Edit.exec_ok_iff.1 h
    exact run
  unfold renumber at run
  obtain ⟨_, _, got, run⟩ := Succeeds.bind_iff.1 run
  obtain ⟨rfl, rfl⟩ := Succeeds.of_get.1 got
  simp only at run
  split at run
  · obtain ⟨_, _, _, run⟩ := Succeeds.bind_iff.1 run
    obtain ⟨_, _, _, run⟩ := Succeeds.bind_iff.1 run
    exact (Succeeds.of_throw run).elim
  · rename_i fine
    rw [← Succeeds.of_set.1 run, Renumbering.atoms_eq_map fine]
    rfl

/-- Rebuilding succeeds where what is kept uses nothing that was removed. -/
theorem Buffer.exists_rebuild {b : Buffer} {kept : List Index} {m : Renumbering}
    (whole : ∀ i ∈ kept, ∃ a, b.get? i = some a ∧ m.removed? a = none) :
    ∃ c, b.rebuild kept m = .ok c := by
  obtain ⟨atoms, read, fine⟩ := Except.exists_mapM (f := b.atom) (R := fun _ a => m.removed? a = none)
    fun i member => by
      obtain ⟨a, found, uses⟩ := whole i member
      exact ⟨a, atom_ok_iff.2 found, uses⟩
  have each : ∀ a ∈ atoms, m.removed? a = none := by
    intro a member
    obtain ⟨k, inside, rfl⟩ := List.getElem_of_mem member
    obtain ⟨length, fine⟩ := List.forall₂_iff_get.1 fine
    exact fine k (length ▸ inside) inside
  have run : ∃ c, Succeeds (renumber m)
      { atoms := atoms.toArray, synthesized := b.synthesized, decorations := b.decorations } () c := by
    unfold renumber
    simp only [Succeeds.get_bind, Renumbering.atoms_fine each, Succeeds.of_set]
    exact ⟨_, rfl⟩
  obtain ⟨c, run⟩ := run
  unfold rebuild
  rw [read]
  exact ⟨c, Edit.exec_ok_iff.2 ⟨(), run⟩⟩

theorem Buffer.rebuild_fresh {b c : Buffer} {kept : List Index} {m : Renumbering}
    (h : b.rebuild kept m = .ok c) : c.invalidate = c := by
  obtain ⟨_, _, rfl⟩ := rebuild_ok h
  rfl

theorem Buffer.rebuild_size {b c : Buffer} {kept : List Index} {m : Renumbering}
    (h : b.rebuild kept m = .ok c) : c.size = kept.length := by
  obtain ⟨atoms, read, rfl⟩ := rebuild_ok h
  have length := (List.forall₂_iff_get.1 (Except.mapM_ok_iff.1 read)).1
  simp [size, length]

namespace Optimizer

def kept (firsts : List Index) : List Index :=
  firsts.zipIdx.filterMap fun (f, n) => if f = .ref n then some f else none

theorem mem_kept {firsts : List Index} {i : Index} :
    i ∈ kept firsts ↔ ∃ n, i = .ref n ∧ firsts[n]? = some (.ref n) := by
  unfold kept
  rw [List.mem_filterMap]
  constructor
  · rintro ⟨⟨f, n⟩, member, own⟩
    simp only [Option.ite_none_right_eq_some, Option.some.injEq] at own
    obtain ⟨rfl, rfl⟩ := own
    exact ⟨n, rfl, List.mk_mem_zipIdx_iff_getElem?.1 member⟩
  · rintro ⟨n, rfl, found⟩
    exact ⟨(.ref n, n), List.mk_mem_zipIdx_iff_getElem?.2 found, by simp⟩

theorem kept_sorted (firsts : List Index) : (kept firsts).Pairwise (· < ·) := by
  unfold kept
  rw [List.pairwise_filterMap]
  have ordered : firsts.zipIdx.Pairwise fun p q => p.2 < q.2 := by
    rw [List.pairwise_iff_getElem]
    intro i j _ _ below
    simpa using below
  refine ordered.imp ?_
  rintro ⟨f, n⟩ ⟨g, m⟩ below i first j second
  simp only [Option.ite_none_right_eq_some, Option.some.injEq] at first second
  obtain ⟨rfl, rfl⟩ := first
  obtain ⟨rfl, rfl⟩ := second
  exact Index.ref_lt_ref.2 below

theorem compact_iff {b c : Buffer} {changed : Bool} :
    Succeeds compact b changed c ↔ ∃ firsts, firstOccurrences b = .ok firsts ∧
      if (kept firsts).length = firsts.length then changed = false ∧ c = b
      else changed = true ∧ b.rebuild (kept firsts) (mergeMap (kept firsts) firsts) = .ok c := by
  unfold compact
  rw [Edit.query_bind]
  exact exists_congr fun firsts => and_congr_right fun _ => Edit.replace_unless

theorem compact_succeeds {b c : Buffer} {changed : Bool} (h : Succeeds compact b changed c) :
    ∃ firsts, firstOccurrences b = .ok firsts ∧
      (c = b ∨ (firsts ≠ [] ∧ b.rebuild (kept firsts) (mergeMap (kept firsts) firsts) = .ok c)) := by
  obtain ⟨firsts, found, h⟩ := compact_iff.1 h
  refine ⟨firsts, found, ?_⟩
  split at h
  · exact Or.inl h.2
  · rename_i fewer
    refine Or.inr ⟨?_, h.2⟩
    rintro rfl
    exact fewer rfl

theorem mergeMap_entry (kept firsts : List Index) (n : Nat) :
    (mergeMap kept firsts).entries[Index.ref n]? =
      firsts[n]?.map fun f => ((kept.idxOf? f).map Index.ref).getD .null := by
  have walk : ∀ (items : List Index) (k : Nat) (m : Renumbering),
      ((items.zipIdx k).foldl (fun m (f, n) =>
        m.set (.ref n) (((kept.idxOf? f).map Index.ref).getD .null)) m).entries[Index.ref n]? =
      if k ≤ n ∧ n < k + items.length then
        items[n - k]?.map fun f => ((kept.idxOf? f).map Index.ref).getD .null
      else m.entries[Index.ref n]? := by
    intro items
    induction items with
    | nil =>
      intro k m
      rw [if_neg (by simp)]
      rfl
    | cons f rest ih =>
      intro k m
      rw [List.zipIdx_cons, List.foldl_cons, ih, List.length_cons]
      by_cases here : n = k
      · subst here
        rw [if_neg (by omega), if_pos (by omega)]
        simp [Renumbering.set]
      · by_cases later : k + 1 ≤ n ∧ n < k + 1 + rest.length
        · rw [if_pos later, if_pos (by omega)]
          obtain ⟨d, same⟩ : ∃ d, n - k = d + 1 := ⟨n - k - 1, by omega⟩
          rw [same, List.getElem?_cons_succ]
          congr 2
          omega
        · rw [if_neg later, if_neg (by omega)]
          simp [Renumbering.set, Std.ExtTreeMap.getElem?_insert, Ne.symm here]
  rw [mergeMap, walk]
  by_cases inside : n < firsts.length
  · rw [if_pos (by omega), Nat.sub_zero]
  · rw [if_neg (by omega), List.getElem?_eq_none (by omega)]
    simp

/-! ### Places -/

def mergedPlace (firsts : List Index) : Index → Index := (mergeMap (kept firsts) firsts).place

section

variable {b c : Buffer} {firsts : List Index} {n k p q : Nat}

theorem kept_lt (first : (kept firsts)[p]? = some (.ref n)) (second : (kept firsts)[q]? = some (.ref k))
    (below : n < k) : p < q := by
  obtain ⟨inside, first⟩ := List.getElem?_eq_some_iff.1 first
  obtain ⟨inside', second⟩ := List.getElem?_eq_some_iff.1 second
  rcases Nat.lt_trichotomy p q with before | rfl | after
  · exact before
  · rw [first, Index.ref.injEq] at second
    omega
  · have order := List.pairwise_iff_getElem.1 (kept_sorted firsts) q p inside' inside after
    rw [first, second, Index.ref_lt_ref] at order
    omega

theorem kept_inj (first : (kept firsts)[p]? = some (.ref n)) (second : (kept firsts)[q]? = some (.ref n)) :
    p = q := by
  obtain ⟨inside, first⟩ := List.getElem?_eq_some_iff.1 first
  obtain ⟨inside', second⟩ := List.getElem?_eq_some_iff.1 second
  have order := List.pairwise_iff_getElem.1 (kept_sorted firsts)
  rcases Nat.lt_trichotomy p q with before | same | after
  · have := order p q inside inside' before
    rw [first, second, Index.ref_lt_ref] at this
    omega
  · exact same
  · have := order q p inside' inside after
    rw [first, second, Index.ref_lt_ref] at this
    omega

/-- An atom goes to the place of its first occurrence among the kept ones. -/
theorem Occurrences.image (occurrences : Occurrences b firsts) (first : firsts[n]? = some (.ref k)) :
    ∃ p, (kept firsts)[p]? = some (.ref k) ∧
      (mergeMap (kept firsts) firsts).image? (.ref n) = some (.ref p) ∧
      mergedPlace firsts (.ref n) = .ref p := by
  have inside : n < b.size := by
    rw [← occurrences.length]
    exact (List.getElem?_eq_some_iff.1 first).1
  obtain ⟨k', _, first', own⟩ := occurrences.first n inside
  rw [first, Option.some.injEq] at first'
  rw [← first'] at own
  have member : Index.ref k ∈ kept firsts := mem_kept.2 ⟨k, rfl, by
    cases first'
    exact own⟩
  obtain ⟨p, found⟩ := Option.isSome_iff_exists.1 (List.isSome_idxOf?.2 member)
  have image : (mergeMap (kept firsts) firsts).image? (.ref n) = some (.ref p) := by
    unfold Renumbering.image?
    simp [Index.isNull, mergeMap_entry, first, found]
  refine ⟨p, ?_, image, ?_⟩
  · obtain ⟨inside, same, _⟩ := List.idxOf?_eq_some_iff.1 found
    rw [List.getElem?_eq_some_iff]
    exact ⟨inside, by simpa using same⟩
  · rw [mergedPlace, Renumbering.place, image]
    rfl

theorem Occurrences.outside (occurrences : Occurrences b firsts) (outside : b.size ≤ n) :
    mergedPlace firsts (.ref n) = .ref n := by
  have absent : firsts[n]? = none := List.getElem?_eq_none (by rw [occurrences.length]; exact outside)
  simp [mergedPlace, Renumbering.place, Renumbering.image?, Index.isNull, mergeMap_entry, absent]

theorem mergedPlace_null (firsts : List Index) : mergedPlace firsts .null = .null := rfl

theorem kept_length_le (firsts : List Index) : (kept firsts).length ≤ firsts.length := by
  unfold kept
  have := List.length_filterMap_le (fun (p : Index × Nat) => if p.1 = .ref p.2 then some p.1 else none)
    firsts.zipIdx
  rwa [List.length_zipIdx] at this

theorem Occurrences.place_eq (occurrences : Occurrences b firsts) (inside : n < b.size) {j : Index}
    (same : mergedPlace firsts j = mergedPlace firsts (.ref n)) :
    ∃ k, j = .ref k ∧ k < b.size ∧ firsts[k]? = firsts[n]? := by
  obtain ⟨m, _, first, _⟩ := occurrences.first n inside
  obtain ⟨p, at_p, _, place⟩ := occurrences.image first
  rw [place] at same
  cases j with
  | null => rw [mergedPlace_null] at same; cases same
  | ref k =>
    by_cases within : k < b.size
    · obtain ⟨m', _, first', _⟩ := occurrences.first k within
      obtain ⟨q, at_q, _, place'⟩ := occurrences.image first'
      rw [place', Index.ref.injEq] at same
      subst same
      rw [at_p, Option.some.injEq] at at_q
      exact ⟨k, rfl, within, by rw [first, first', at_q]⟩
    · rw [occurrences.outside (by omega), Index.ref.injEq] at same
      have := (List.getElem?_eq_some_iff.1 at_p).1
      have := kept_length_le firsts
      rw [occurrences.length] at this
      omega

/-- An atom that merging leaves alone shares its place with no other. -/
theorem Occurrences.solo (occurrences : Occurrences b firsts) {a : Atom}
    (found : b.atoms[n]? = some a) (fixed : ¬ Loose b n a) : Solo (mergedPlace firsts) (.ref n) := by
  intro j same
  have inside : n < b.size := (Array.getElem?_eq_some_iff.1 found).1
  obtain ⟨k, rfl, within, equal⟩ := occurrences.place_eq inside same
  obtain ⟨m, le, first, own⟩ := occurrences.first n inside
  obtain ⟨a', present⟩ := exists_atom (Nat.lt_of_le_of_lt le inside)
  have here : n = m := by
    by_contra other
    exact fixed (occurrences.alike n m _ _ first other found present).1
  subst here
  by_contra other
  rw [first] at equal
  have differ : k ≠ n := fun clash => other (by rw [clash])
  exact fixed (occurrences.alike k n _ a equal differ (Array.getElem?_eq_getElem within) found).2.1

theorem Occurrences.place_canonical (occurrences : Occurrences b firsts) (i : Index) :
    mergedPlace firsts (canonical firsts i) = mergedPlace firsts i := by
  cases i with
  | null => rfl
  | ref n =>
    by_cases inside : n < b.size
    · obtain ⟨m, _, first, own⟩ := occurrences.first n inside
      obtain ⟨p, at_p, _, place⟩ := occurrences.image first
      obtain ⟨q, at_q, _, place'⟩ := occurrences.image own
      have known : canonical firsts (.ref n) = .ref m := by
        simp [canonical, Index.pos?, first]
      rw [known, place, place', kept_inj at_p at_q]
    · have absent : firsts[n]? = none :=
        List.getElem?_eq_none (by rw [occurrences.length]; omega)
      simp [canonical, Index.pos?, absent]

theorem Occurrences.first_of_solo (occurrences : Occurrences b firsts) (inside : n < b.size)
    (solo : Solo (mergedPlace firsts) (.ref n)) : firsts[n]? = some (.ref n) := by
  obtain ⟨m, _, first, own⟩ := occurrences.first n inside
  have known : canonical firsts (.ref n) = .ref m := by
    simp [canonical, Index.pos?, first]
  have same := occurrences.place_canonical (.ref n)
  rw [known] at same
  cases solo _ same
  exact own

theorem Occurrences.order (occurrences : Occurrences b firsts) (inside : k < b.size) (below : n < k)
    (solo : Solo (mergedPlace firsts) (.ref n)) (solo' : Solo (mergedPlace firsts) (.ref k)) :
    mergedPlace firsts (.ref n) < mergedPlace firsts (.ref k) := by
  obtain ⟨p, at_p, _, place⟩ := occurrences.image (occurrences.first_of_solo (by omega) solo)
  obtain ⟨q, at_q, _, place'⟩ := occurrences.image (occurrences.first_of_solo inside solo')
  rw [place, place', Index.ref_lt_ref]
  exact kept_lt at_p at_q below

theorem rebuilt_atom {items : List Index} {atoms : List Atom} (place : Index → Index)
    (read : items.mapM b.atom = .ok atoms) (own : items[p]? = some (.ref n)) :
    ∃ a, b.atoms[n]? = some a ∧
      (atoms.map (·.mapAddresses place))[p]? = some (a.mapAddresses place) := by
  obtain ⟨length, each⟩ := List.forall₂_iff_get.1 (Except.mapM_ok_iff.1 read)
  obtain ⟨inside, same⟩ := List.getElem?_eq_some_iff.1 own
  have answer := each p inside (by omega)
  simp only [List.get_eq_getElem, same, atom_ok_iff, get?_ref] at answer
  refine ⟨_, answer, ?_⟩
  rw [List.getElem?_map, List.getElem?_eq_getElem (by omega)]
  rfl

theorem Occurrences.backward (occurrences : Occurrences b firsts) (backward : b.Backward)
    (rebuilt : b.rebuild (kept firsts) (mergeMap (kept firsts) firsts) = .ok c) : c.Backward := by
  obtain ⟨atoms, read, rfl⟩ := rebuild_ok rebuilt
  intro p a' found o' member
  have inside : p < (kept firsts).length := by
    have length := (List.forall₂_iff_get.1 (Except.mapM_ok_iff.1 read)).1
    have := (Array.getElem?_eq_some_iff.1 found).1
    simp only [List.size_toArray, List.length_map] at this
    omega
  obtain ⟨n, same, own⟩ := mem_kept.1 (List.getElem_mem inside)
  have at_p : (kept firsts)[p]? = some (.ref n) := by
    rw [List.getElem?_eq_getElem inside, same]
  obtain ⟨a, present, image⟩ := rebuilt_atom (mergedPlace firsts) read at_p
  have shape : a' = a.mapAddresses (mergedPlace firsts) := by
    rw [List.getElem?_toArray] at found
    exact Option.some.inj (found.symm.trans image)
  subst shape
  obtain ⟨visible, position⟩ := Atom.mem_operands.1 member
  rw [Atom.addresses_mapAddresses (mergedPlace_null firsts)] at position
  have branch : (a.mapAddresses (mergedPlace firsts)).isBranch = a.isBranch := by cases a <;> rfl
  rw [branch] at position
  -- the operand here is the place of an operand there
  have source : ∃ o, o' = mergedPlace firsts o ∧ (o = a.addresses.1 ∨
      (o = a.addresses.2 ∧ a.isBranch = false)) := by
    rcases position with first | ⟨second, other⟩
    · exact ⟨_, first, Or.inl rfl⟩
    · exact ⟨_, second, Or.inr ⟨rfl, other⟩⟩
  obtain ⟨o, rfl, used⟩ := source
  cases o with
  | null => cases visible
  | ref k =>
    have early := backward.address_lt present used
    rw [Index.ref_lt_ref] at early
    have within : n < b.size := (Array.getElem?_eq_some_iff.1 present).1
    obtain ⟨m, le, first, _⟩ := occurrences.first k (by omega)
    obtain ⟨q, at_q, _, place⟩ := occurrences.image first
    exact ⟨q, place, kept_lt at_q at_p (by omega)⟩

theorem Occurrences.keeps (occurrences : Occurrences b firsts) (inside : n < b.size) :
    Kept (mergedPlace firsts) (.ref n) := by
  obtain ⟨m, _, first, _⟩ := occurrences.first n inside
  obtain ⟨p, _, _, place⟩ := occurrences.image first
  exact kept_of_place place

theorem Occurrences.folds (occurrences : Occurrences b firsts) (backward : b.Backward)
    (rebuilt : b.rebuild (kept firsts) (mergeMap (kept firsts) firsts) = .ok c) :
    Folds b c (mergedPlace firsts) := by
  have behind := occurrences.backward backward rebuilt
  obtain ⟨atoms, read, rfl⟩ := rebuild_ok rebuilt
  refine ⟨rfl, ?_, ?_, ?_, ?_, behind⟩
  · intro n a found _
    obtain ⟨m, _, first, own⟩ := occurrences.first n (Array.getElem?_eq_some_iff.1 found).1
    obtain ⟨p, at_p, _, place⟩ := occurrences.image first
    obtain ⟨a', found', image⟩ := rebuilt_atom (mergedPlace firsts) read at_p
    have alike : a.mapAddresses (mergedPlace firsts) = a'.mapAddresses (mergedPlace firsts) := by
      by_cases here : n = m
      · subst here
        rw [found, Option.some.injEq] at found'
        rw [found']
      · have through : mergedPlace firsts = mergedPlace firsts ∘ canonical firsts :=
          funext fun i => (occurrences.place_canonical i).symm
        rw [through, ← Atom.mapAddresses_comp, ← Atom.mapAddresses_comp,
          (occurrences.alike n m a a' first here found found').2.2]
    rw [place, alike, get?_ref, List.getElem?_toArray]
    exact image
  · intro n a _ found o used
    obtain ⟨k, rfl, below⟩ := backward n a found o used
    exact occurrences.keeps (Nat.lt_trans below (Array.getElem?_eq_some_iff.1 found).1)
  · intro k inside
    have length := (List.forall₂_iff_get.1 (Except.mapM_ok_iff.1 read)).1
    simp only [size, List.size_toArray, List.length_map] at inside
    obtain ⟨n, same, own⟩ := mem_kept.1 (List.getElem_mem (length ▸ inside))
    have at_k : (kept firsts)[k]? = some (.ref n) := by
      rw [List.getElem?_eq_getElem (length ▸ inside), same]
    obtain ⟨p, at_p, _, place⟩ := occurrences.image own
    refine ⟨n, ?_, by rw [place, kept_inj at_p at_k]⟩
    rw [← occurrences.length]
    exact (List.getElem?_eq_some_iff.1 own).1
  · intro n inside _
    obtain ⟨m, _, first, _⟩ := occurrences.first n inside
    obtain ⟨p, _, image, place⟩ := occurrences.image first
    rw [Bool.eq_iff_iff, place]
    unfold isSynthesized
    rw [Std.ExtTreeSet.contains_iff_mem, Std.ExtTreeSet.contains_iff_mem, Renumbering.mem_indexSet]
    constructor
    · rintro ⟨j, captured, goes⟩
      have same : mergedPlace firsts j = mergedPlace firsts (.ref n) := by
        rw [place, mergedPlace, Renumbering.place, goes]
        rfl
      obtain ⟨k, rfl, within, _⟩ := occurrences.place_eq inside same
      obtain ⟨a, found⟩ := exists_atom within
      have fixed : ¬ Loose b k a := by
        intro loose
        have free := loose.uncaptured
        rw [isSynthesized, ← Bool.not_eq_true, Std.ExtTreeSet.contains_iff_mem] at free
        exact free captured
      rw [occurrences.solo found fixed _ same.symm]
      exact captured
    · intro captured
      exact ⟨.ref n, captured, image⟩

theorem Occurrences.valid (occurrences : Occurrences b firsts) (valid : b.validate = .ok ())
    (rebuilt : b.rebuild (kept firsts) (mergeMap (kept firsts) firsts) = .ok c) :
    c.validate = .ok () := by
  have folds := occurrences.folds (backward_of_validate valid) rebuilt
  obtain ⟨checked, noted⟩ := validate_ok_iff.1 valid
  have notes : ∀ (j i : Index), (∃ a, b.get? j = some a) →
      (mergeMap (kept firsts) firsts).image? j = some i → ∃ (n : Nat) (a : Atom),
        b.atoms[n]? = some a ∧ Kept (mergedPlace firsts) (.ref n) ∧ mergedPlace firsts (.ref n) = i := by
    rintro j i ⟨a, found⟩ image
    cases j with
    | null => cases found
    | ref n =>
      refine ⟨n, a, found, occurrences.keeps (Array.getElem?_eq_some_iff.1 found).1, ?_⟩
      rw [mergedPlace, Renumbering.place, image]
      rfl
  refine folds.valid valid ?_ ?_
  · intro n t kind cond found _ later
    have fixed : ∀ {k : Nat} {kind : BranchKind} {cond next : Index},
        ¬ Loose b k (.branch kind cond next) := fun loose => nomatch loose.quiet
    rcases (checked n _ found).2 kind cond (.ref t) rfl with absent | ⟨_, kind', cond', next, target⟩
    · cases absent
    · have inside := (Array.getElem?_eq_some_iff.1 target).1
      exact ⟨occurrences.keeps inside, occurrences.order inside later (occurrences.solo found fixed)
        (occurrences.solo target fixed)⟩
  · intro i member
    obtain ⟨atoms, _, rfl⟩ := rebuild_ok rebuilt
    rcases member with captured | decorated
    · obtain ⟨j, captured, image⟩ := Renumbering.mem_indexSet.1 captured
      exact notes j i (noted j (Or.inl captured)) image
    · obtain ⟨j, decorated, image⟩ := Renumbering.mem_indexMap decorated
      exact notes j i (noted j (Or.inr decorated)) image

end

end Optimizer

end ShaderForge
