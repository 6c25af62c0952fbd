import ShaderForge.Proofs.Buffer.Tree
import ShaderForge.Proofs.Optimizer.Retyping

/-!
One compaction shares all there is to share. Atoms that may be merged and are equal on first
occurrences have the same first occurrence. What is written through merged atoms is written still, so
an atom that may be merged afterwards might have been before, and a second compaction finds nothing.
Unfolded, every expression is what it was.
-/

namespace ShaderForge.Optimizer

open Buffer

variable {b c : Buffer} {written : IndexSet} {n : Nat} {a : Atom}

/-! ### Equal atoms have the same first occurrence -/

/-- The first occurrence that an atom would be merged into. -/
def Seen.lookup (s : Seen) (key : Atom × Option Decoration) : Option Index :=
  (s.keys.find? (·.1 == key)).map Prod.snd

theorem Seen.add_first (s : Seen) (i : Index) (mergeable : Bool) :
    (s.add b i a mergeable).first = s.first.push
      (if mergeable then (s.lookup (a.mapAddresses s.canonical, b.decoration? i)).getD i else i) := by
  unfold add lookup
  split
  · simp only
    split <;> rename_i seen <;> rw [seen] <;> rfl
  · rfl

theorem Seen.mem_keys_of_lookup {s : Seen} {key : Atom × Option Decoration} {j : Index}
    (h : s.lookup key = some j) : (key, j) ∈ s.keys := by
  obtain ⟨⟨key', j'⟩, seen, same⟩ := Option.map_eq_some_iff.1 h
  cases same
  have equal : key' = key := by simpa using List.find?_some seen
  rw [← equal]
  exact List.mem_of_find?_eq_some seen

theorem Seen.add_keys {s : Seen} {i : Index} {mergeable : Bool}
    {entry : (Atom × Option Decoration) × Index} (member : entry ∈ (s.add b i a mergeable).keys) :
    entry ∈ s.keys ∨ entry = ((a.mapAddresses s.canonical, b.decoration? i), i) := by
  unfold add at member
  split at member
  · simp only at member
    split at member
    · exact Or.inl member
    · exact (List.mem_cons.1 member).symm
  · exact Or.inl member

/-- Adding an atom keeps what was found, and an atom that may be merged is found from then on. -/
theorem Seen.add_lookup (s : Seen) (i : Index) (mergeable : Bool) (key : Atom × Option Decoration) :
    (s.add b i a mergeable).lookup key =
      if mergeable = true ∧ key = (a.mapAddresses s.canonical, b.decoration? i) then
        some ((s.lookup key).getD i)
      else s.lookup key := by
  unfold add
  cases mergeable with
  | false => rfl
  | true =>
    simp only [if_true, true_and]
    split
    · rename_i entry j seen
      split
      · rename_i same
        subst same
        simp [lookup, seen]
      · rfl
    · rename_i unseen
      unfold lookup
      rw [List.find?_cons]
      by_cases same : key = (a.mapAddresses s.canonical, b.decoration? i)
      · subst same
        simp [unseen]
      · have other : ((a.mapAddresses s.canonical, b.decoration? i) == key) = false :=
          beq_false_of_ne (Ne.symm same)
        simp [same, other]

/-- What has been found out about names and equal atoms before `k`. -/
structure Shared (b : Buffer) (written : IndexSet) (s : Seen) (k : Nat) : Prop where
  entries : ∀ key d j, ((key, d), j) ∈ s.keys → b.decoration? j = d
  names : ∀ n m, s.first[n]? = some (.ref m) → b.decoration? (.ref n) = b.decoration? (.ref m)
  complete : ∀ n a, n < k → b.atoms[n]? = some a → isMergeable b written (.ref n) a = .ok true →
    s.lookup (a.mapAddresses s.canonical, b.decoration? (.ref n)) = s.first[n]?

theorem Shared.add {s : Seen} {k : Nat} (shared : Shared b written s k) (merged : Merged b s k)
    (backward : b.Backward) (found : b.atoms[k]? = some a) {mergeable : Bool}
    (decided : isMergeable b written (.ref k) a = .ok mergeable) :
    Shared b written (s.add b (.ref k) a mergeable) (k + 1) := by
  have pushed := s.add_first (b := b) (a := a) (.ref k) mergeable
  refine ⟨?_, ?_, ?_⟩
  · intro key d j member
    rcases Seen.add_keys member with old | new
    · exact shared.entries key d j old
    · cases new
      rfl
  · intro n m known
    rcases merged.push_cases pushed known with ⟨rfl, same⟩ | old
    · split at same
      · cases seen : s.lookup (a.mapAddresses s.canonical, b.decoration? (.ref n)) with
        | none => rw [seen] at same; cases same; rfl
        | some j =>
          rw [seen] at same
          cases same
          exact (shared.entries _ _ _ (Seen.mem_keys_of_lookup seen)).symm
      · cases same
        rfl
    · exact shared.names n m old
  · intro n x below there yes
    rw [merged.mapAddresses_push backward pushed (Nat.le_of_lt_succ below) there (loose_of_mergeable yes),
      Seen.add_lookup]
    rcases Nat.lt_succ_iff_lt_or_eq.1 below with before | rfl
    · obtain ⟨m, _, first, _⟩ := merged.first n before
      rw [shared.complete n x before there yes, first, push_getElem? pushed first]
      split <;> rfl
    · rw [found, Option.some.injEq] at there
      subst there
      rw [decided, Except.ok.injEq] at yes
      subst yes
      rw [if_pos ⟨rfl, rfl⟩, merged.push_last pushed]
      rfl

/-- What first occurrences say about names and equal atoms. -/
structure Sharing (b : Buffer) (written : IndexSet) (firsts : List Index) : Prop where
  names : ∀ n m, firsts[n]? = some (.ref m) → b.decoration? (.ref n) = b.decoration? (.ref m)
  joins : ∀ n m a a', b.atoms[n]? = some a → b.atoms[m]? = some a' →
    isMergeable b written (.ref n) a = .ok true → isMergeable b written (.ref m) a' = .ok true →
    a.mapAddresses (canonical firsts) = a'.mapAddresses (canonical firsts) →
    b.decoration? (.ref n) = b.decoration? (.ref m) → firsts[n]? = firsts[m]?

theorem sharing_of_firstOccurrences {firsts : List Index} (backward : b.Backward)
    (h : firstOccurrences b = .ok firsts) :
    ∃ written, writtenStorage b = .ok written ∧ Sharing b written firsts := by
  unfold firstOccurrences at h
  obtain ⟨written, found, h⟩ := Except.bind_ok h
  obtain ⟨seen, walked, h⟩ := Except.bind_ok h
  cases h
  have fresh : Shared b written {} 0 := by
    refine ⟨?_, ?_, fun n a below => by omega⟩
    · intro key d j member
      cases member
    · intro n m known
      simp at known
  have whole := Except.foldlM_inv (fun k s => Merged b s k ∧ Shared b written s k)
    ⟨merged_fresh b, fresh⟩ ?_ walked
  · rw [indexed_length] at whole
    obtain ⟨merged, shared⟩ := whole
    have same : canonical seen.first.toList = seen.canonical := by
      funext i
      simp [Seen.canonical, canonical]
    refine ⟨written, found, by simpa using shared.names, ?_⟩
    intro n m a a' there there' yes yes' alike named
    rw [same] at alike
    have first := shared.complete n a (Array.getElem?_eq_some_iff.1 there).1 there yes
    have second := shared.complete m a' (Array.getElem?_eq_some_iff.1 there').1 there' yes'
    rw [alike, named, second] at first
    simpa using first.symm
  · rintro k ⟨i, a⟩ s t item ⟨merged, shared⟩ h
    rw [indexed_getElem?] at item
    obtain ⟨a', there, same⟩ := Option.map_eq_some_iff.1 item
    cases same
    obtain ⟨mergeable, decided, h⟩ := Except.bind_ok h
    cases h
    refine ⟨merged.add backward there ?_, shared.add merged backward there decided⟩
    rintro rfl
    exact loose_of_mergeable decided

/-! ### What is written -/

def Writes (b : Buffer) (i : Index) : Prop :=
  ∃ a ∈ b.atoms.toList, ∃ targets, writtenThrough b a = .ok targets ∧ ∃ t ∈ targets, b.storage t = .ok i

def Writable (b : Buffer) : Prop :=
  ∀ a ∈ b.atoms.toList, ∃ targets, writtenThrough b a = .ok targets ∧ ∀ t ∈ targets, ∃ i, b.storage t = .ok i

theorem storages_ok {targets : List Index} {before after : IndexSet}
    (h : targets.foldlM (fun written i => return written.insert (← b.storage i)) before = .ok after) :
    (∀ t ∈ targets, ∃ i, b.storage t = .ok i) ∧
      ∀ i, i ∈ after ↔ i ∈ before ∨ ∃ t ∈ targets, b.storage t = .ok i := by
  induction targets generalizing before with
  | nil =>
    cases h
    simp
  | cons t rest ih =>
    rw [List.foldlM_cons] at h
    obtain ⟨between, first, h⟩ := Except.bind_ok h
    obtain ⟨j, stored, first⟩ := Except.bind_ok first
    cases first
    obtain ⟨each, member⟩ := ih h
    refine ⟨List.forall_mem_cons.2 ⟨⟨j, stored⟩, each⟩, fun i => ?_⟩
    rw [member, Liveness.mem_insert_index]
    simp only [List.exists_mem_cons_iff, stored, Except.ok.injEq]
    tauto

theorem writings_ok {atoms : List Atom} {before after : IndexSet}
    (h : atoms.foldlM (fun written a => do
      let targets ← writtenThrough b a
      targets.foldlM (fun written i => return written.insert (← b.storage i)) written) before = .ok after) :
    (∀ a ∈ atoms, ∃ targets, writtenThrough b a = .ok targets ∧ ∀ t ∈ targets, ∃ i, b.storage t = .ok i) ∧
      ∀ i, i ∈ after ↔ i ∈ before ∨ ∃ a ∈ atoms, ∃ targets, writtenThrough b a = .ok targets ∧
        ∃ t ∈ targets, b.storage t = .ok i := by
  induction atoms generalizing before with
  | nil =>
    cases h
    simp
  | cons a rest ih =>
    rw [List.foldlM_cons] at h
    obtain ⟨between, first, h⟩ := Except.bind_ok h
    obtain ⟨targets, through, first⟩ := Except.bind_ok first
    obtain ⟨stored, member⟩ := storages_ok first
    obtain ⟨each, member'⟩ := ih h
    refine ⟨List.forall_mem_cons.2 ⟨⟨targets, through, stored⟩, each⟩, fun i => ?_⟩
    rw [member', member]
    simp only [List.exists_mem_cons_iff, through, Except.ok.injEq, exists_eq_left', or_assoc]

theorem writtenStorage_ok (h : writtenStorage b = .ok written) :
    Writable b ∧ ∀ i, i ∈ written ↔ Writes b i := by
  obtain ⟨each, member⟩ := writings_ok h
  refine ⟨each, fun i => (member i).trans (or_iff_right ?_)⟩
  exact Std.ExtTreeSet.not_mem_empty

theorem exists_writtenStorage (writable : Writable b) : ∃ written, writtenStorage b = .ok written := by
  refine Except.exists_foldlM (fun a member before => ?_) _
  obtain ⟨targets, through, stored⟩ := writable a member
  obtain ⟨after, done⟩ : ∃ after, targets.foldlM
      (fun written i => return written.insert (← b.storage i)) before = Except.ok after := by
    refine Except.exists_foldlM (fun t inside before => ?_) _
    obtain ⟨i, found⟩ := stored t inside
    exact ⟨before.insert i, by rw [found]; rfl⟩
  exact ⟨after, by rw [through]; exact done⟩

/-! ### Writing and merging along a fold -/

section

variable {fold : Index → Index}

theorem writtenThrough_fold (folds : Folds b c fold) (found : b.atoms[n]? = some a)
    (kept : Kept fold (.ref n)) {targets : List Index} (through : writtenThrough b a = .ok targets) :
    writtenThrough c (a.mapAddresses fold) = .ok (targets.map fold) ∧ ∀ t ∈ targets, Kept fold t := by
  have first : Kept fold a.addresses.1 := folds.kept_address found kept (Or.inl rfl)
  have second : a.isBranch = false → Kept fold a.addresses.2 :=
    fun other => folds.kept_address found kept (Or.inr ⟨rfl, other⟩)
  have taken : ∀ args, Kept fold args → (do return (← b.expandList args).take 1) = Except.ok targets →
      (do return (← c.expandList (fold args)).take 1) = Except.ok (targets.map fold) ∧
        ∀ t ∈ targets, Kept fold t := by
    intro args kept' given
    obtain ⟨items, listed, same⟩ := Except.bind_ok given
    cases same
    rw [folds.expandList kept' listed, Except.ok_bind, List.map_take]
    exact ⟨rfl, fun t member => folds.kept_items kept' listed t (List.mem_of_mem_take member)⟩
  cases a with
  | store dst src =>
    cases through
    exact ⟨rfl, fun t member => List.mem_singleton.1 member ▸ first⟩
  | call callee ty args =>
    exact ⟨folds.expandList (second rfl) through, folds.kept_items (second rfl) through⟩
  | intrinsic code args =>
    cases code with
    | atomicAdd | imageStore => exact taken args first through
    | _ =>
      cases through
      exact ⟨rfl, fun t member => nomatch member⟩
  | _ =>
    cases through
    exact ⟨rfl, fun t member => nomatch member⟩

theorem Writable.along (writable : Writable b) (folds : Folds b c fold) : Writable c := by
  intro a' member
  obtain ⟨k, inside, rfl⟩ := List.getElem_of_mem member
  obtain ⟨n, within, place⟩ := folds.onto k (by simpa [size] using inside)
  obtain ⟨a, found⟩ := exists_atom within
  have kept := kept_of_place place
  have image := folds.atoms n a found kept
  rw [place, get?_ref, ← Array.getElem?_toList, List.getElem?_eq_getElem inside, Option.some.injEq] at image
  obtain ⟨targets, through, stored⟩ :=
    writable a (List.mem_of_getElem? (by rw [Array.getElem?_toList]; exact found))
  obtain ⟨through', keeps⟩ := writtenThrough_fold folds found kept through
  refine ⟨targets.map fold, by rw [image]; exact through', fun o listed => ?_⟩
  obtain ⟨t, given, rfl⟩ := List.mem_map.1 listed
  obtain ⟨i, found⟩ := stored t given
  exact ⟨fold i, (folds.storage (keeps t given) found).1⟩

theorem Writes.along (folds : Folds b c fold) (whole : ∀ n, n < b.size → Kept fold (.ref n)) {i : Index}
    (writes : Writes b i) : Writes c (fold i) := by
  obtain ⟨a, member, targets, through, t, inside, stored⟩ := writes
  obtain ⟨n, found⟩ := List.getElem?_of_mem member
  rw [Array.getElem?_toList] at found
  have kept := whole n (Array.getElem?_eq_some_iff.1 found).1
  obtain ⟨k, _, image⟩ := folds.atom_at found kept
  obtain ⟨through', keeps⟩ := writtenThrough_fold folds found kept through
  refine ⟨_, List.mem_of_getElem? (by rw [Array.getElem?_toList]; exact image), _, through', fold t,
    List.mem_map_of_mem inside, (folds.storage (keeps t inside) stored).1⟩

/-- What may be merged after a fold might have been merged before it. -/
theorem isMergeable_fold (folds : Folds b c fold) {written' : IndexSet}
    (still : ∀ i ∈ written, fold i ∈ written') (found : b.atoms[n]? = some a)
    (kept : Kept fold (.ref n)) {mergeable : Bool}
    (decided : isMergeable b written (.ref n) a = .ok mergeable) :
    ∃ mergeable', isMergeable c written' (fold (.ref n)) (a.mapAddresses fold) = .ok mergeable' ∧
      (mergeable' = true → mergeable = true) := by
  have captured := folds.captured n (Array.getElem?_eq_some_iff.1 found).1 kept
  have read : ∀ {m : Bool}, (do return !written.contains (← b.storage (.ref n))) = Except.ok m →
      ∃ m', (do return !written'.contains (← c.storage (fold (.ref n)))) = Except.ok m' ∧
        (m' = true → m = true) := by
    intro m given
    obtain ⟨i, stored, same⟩ := Except.bind_ok given
    cases same
    rw [(folds.storage kept stored).1, Except.ok_bind]
    refine ⟨_, rfl, fun free => ?_⟩
    rw [Bool.not_eq_true', Bool.eq_false_iff, ne_eq, Std.ExtTreeSet.contains_iff_mem] at free ⊢
    exact fun inside => free (still i inside)
  unfold isMergeable at decided ⊢
  rw [captured]
  split
  · rename_i yes
    rw [if_pos yes] at decided
    exact ⟨mergeable, decided, id⟩
  · rename_i no
    rw [if_neg no] at decided
    cases a with
    | load | access | swizzle => exact read decided
    | _ => exact ⟨mergeable, decided, id⟩

end

/-! ### Compaction -/

section

variable {firsts : List Index}

/-- The first occurrence of an atom is what was kept at its place. -/
theorem Occurrences.canonical_eq (occurrences : Occurrences b firsts) (i : Index) :
    canonical firsts i = canonical (kept firsts) (mergedPlace firsts i) := by
  cases i with
  | null => rfl
  | ref n =>
    by_cases inside : n < b.size
    · obtain ⟨m, _, first, _⟩ := occurrences.first n inside
      obtain ⟨p, at_p, _, place⟩ := occurrences.image first
      simp [canonical, Index.pos?, first, place, at_p]
    · have short := kept_length_le firsts
      rw [occurrences.length] at short
      have gone : firsts[n]? = none := List.getElem?_eq_none (by rw [occurrences.length]; omega)
      have gone' : (kept firsts)[n]? = none := List.getElem?_eq_none (by omega)
      rw [occurrences.outside (Nat.not_lt.1 inside)]
      simp [canonical, Index.pos?, gone, gone']

theorem Occurrences.alike_of_place (occurrences : Occurrences b firsts) {a a' : Atom}
    (same : a.mapAddresses (mergedPlace firsts) = a'.mapAddresses (mergedPlace firsts)) :
    a.mapAddresses (canonical firsts) = a'.mapAddresses (canonical firsts) := by
  have through : canonical firsts = canonical (kept firsts) ∘ mergedPlace firsts :=
    funext occurrences.canonical_eq
  rw [through, ← Atom.mapAddresses_comp, ← Atom.mapAddresses_comp, same]

theorem Sharing.decoration (sharing : Sharing b written firsts) (occurrences : Occurrences b firsts)
    (rebuilt : b.rebuild (kept firsts) (mergeMap (kept firsts) firsts) = .ok c) (inside : n < b.size) :
    c.decoration? (mergedPlace firsts (.ref n)) = b.decoration? (.ref n) := by
  obtain ⟨atoms, _, rfl⟩ := rebuild_ok rebuilt
  obtain ⟨m, _, first, _⟩ := occurrences.first n inside
  obtain ⟨p, _, image, place⟩ := occurrences.image first
  rw [place]
  refine Renumbering.getElem?_indexMap image fun j _ goes => ?_
  have same : mergedPlace firsts j = mergedPlace firsts (.ref n) := by
    rw [place, mergedPlace, Renumbering.place, goes]
    rfl
  obtain ⟨k, rfl, _, equal⟩ := occurrences.place_eq inside same
  rw [first] at equal
  exact (sharing.names k m equal).trans (sharing.names n m first).symm

/-- Every place is that of an atom that is its own first occurrence. -/
theorem Occurrences.source (occurrences : Occurrences b firsts) (backward : b.Backward)
    (rebuilt : b.rebuild (kept firsts) (mergeMap (kept firsts) firsts) = .ok c) {p : Nat} {a' : Atom}
    (found' : c.atoms[p]? = some a') :
    ∃ n a, firsts[n]? = some (.ref n) ∧ mergedPlace firsts (.ref n) = .ref p ∧ b.atoms[n]? = some a ∧
      a' = a.mapAddresses (mergedPlace firsts) := by
  have folds := occurrences.folds backward rebuilt
  obtain ⟨k, inside, place⟩ := folds.onto p (Array.getElem?_eq_some_iff.1 found').1
  obtain ⟨n, le, first, own⟩ := occurrences.first k inside
  have known : canonical firsts (.ref k) = .ref n := by simp [canonical, Index.pos?, first]
  have place' : mergedPlace firsts (.ref n) = .ref p := by
    rw [← known, occurrences.place_canonical, place]
  obtain ⟨a, found⟩ := exists_atom (Nat.lt_of_le_of_lt le inside)
  have image := folds.atoms n a found (kept_of_place place')
  rw [place', get?_ref, found', Option.some.injEq] at image
  exact ⟨n, a, own, place', found, image⟩

theorem distinct_of_rebuild (backward : b.Backward) (found : firstOccurrences b = .ok firsts)
    (rebuilt : b.rebuild (kept firsts) (mergeMap (kept firsts) firsts) = .ok c) :
    (∃ firsts', firstOccurrences c = .ok firsts') ∧ Distinct c := by
  have occurrences := occurrences_of_firstOccurrences backward found
  have folds := occurrences.folds backward rebuilt
  obtain ⟨written, known, sharing⟩ := sharing_of_firstOccurrences backward found
  obtain ⟨_, known', decided⟩ := exists_firstOccurrences_iff.1 ⟨firsts, found⟩
  rw [known, Except.ok.injEq] at known'
  subst known'
  obtain ⟨writable, writes⟩ := writtenStorage_ok known
  obtain ⟨written', known'⟩ := exists_writtenStorage (writable.along folds)
  have still : ∀ i ∈ written, mergedPlace firsts i ∈ written' := by
    intro i member
    rw [(writtenStorage_ok known').2]
    exact ((writes i).1 member).along folds fun _ inside => occurrences.keeps inside
  -- every atom there is one that is its own first occurrence, and may be merged at most when that may
  have source : ∀ p a', c.atoms[p]? = some a' → ∃ n a mergeable, firsts[n]? = some (.ref n) ∧
      mergedPlace firsts (.ref n) = .ref p ∧ b.atoms[n]? = some a ∧
      a' = a.mapAddresses (mergedPlace firsts) ∧ isMergeable c written' (.ref p) a' = .ok mergeable ∧
      (mergeable = true → isMergeable b written (.ref n) a = .ok true) := by
    intro p a' found'
    obtain ⟨n, a, own, place, there, rfl⟩ := occurrences.source backward rebuilt found'
    obtain ⟨before, decides⟩ := decided (.ref n, a) (mem_indexed.2 ⟨n, rfl, there⟩)
    obtain ⟨after, decides', implied⟩ := isMergeable_fold folds still there (kept_of_place place) decides
    rw [place] at decides'
    exact ⟨n, a, after, own, place, there, rfl, decides', fun yes => by rw [← implied yes]; exact decides⟩
  constructor
  · refine exists_firstOccurrences_iff.2 ⟨written', known', ?_⟩
    rintro ⟨i, a'⟩ member
    obtain ⟨p, rfl, found'⟩ := mem_indexed.1 member
    obtain ⟨_, _, mergeable, _, _, _, _, decides, _⟩ := source p a' found'
    exact ⟨mergeable, decides⟩
  · rintro written'' known'' p q ⟨a', at_p, at_q, yes, yes', named⟩
    rw [known', Except.ok.injEq] at known''
    subst known''
    obtain ⟨n, a, _, own, place, there, rfl, decides, mergeable⟩ := source p a' at_p
    obtain ⟨m, x, _, own', place', there', same, decides', mergeable'⟩ := source q _ at_q
    rw [yes, Except.ok.injEq] at decides
    rw [yes', Except.ok.injEq] at decides'
    rw [← place, ← place', sharing.decoration occurrences rebuilt (Array.getElem?_eq_some_iff.1 there).1,
      sharing.decoration occurrences rebuilt (Array.getElem?_eq_some_iff.1 there').1] at named
    have joined := sharing.joins n m a x there there' (mergeable decides.symm) (mergeable' decides'.symm)
      (occurrences.alike_of_place same) named
    rw [own, own', Option.some.injEq] at joined
    rw [joined, place', Index.ref.injEq] at place
    exact place.symm

theorem tree_of_rebuild (backward : b.Backward) (found : firstOccurrences b = .ok firsts)
    (rebuilt : b.rebuild (kept firsts) (mergeMap (kept firsts) firsts) = .ok c) (i : Index) :
    c.tree (mergedPlace firsts i) = b.tree i := by
  have occurrences := occurrences_of_firstOccurrences backward found
  obtain ⟨_, _, sharing⟩ := sharing_of_firstOccurrences backward found
  cases i with
  | null => rw [mergedPlace_null, tree_null, tree_null]
  | ref n =>
    by_cases inside : n < b.size
    · exact (occurrences.folds backward rebuilt).tree_eq backward
        (fun n inside _ => sharing.decoration occurrences rebuilt inside) inside (occurrences.keeps inside)
    · have outside : b.size ≤ n := Nat.not_lt.1 inside
      have smaller : c.size ≤ b.size := by
        rw [rebuild_size rebuilt, ← occurrences.length]
        exact kept_length_le firsts
      rw [occurrences.outside outside, tree_missing (Array.getElem?_eq_none (Nat.le_trans smaller outside)),
        tree_missing (Array.getElem?_eq_none outside)]

theorem Occurrences.place_self (occurrences : Occurrences b firsts)
    (all : (kept firsts).length = firsts.length) (i : Index) : mergedPlace firsts i = i := by
  cases i with
  | null => rfl
  | ref n =>
    by_cases inside : n < b.size
    · rw [mergedPlace, Renumbering.place, occurrences.image_self all inside]
      rfl
    · exact occurrences.outside (by omega)

end

/-- One compaction shares all there is to share. Every address unfolds where it goes to the tree it was,
names included; no two atoms that may be merged are equal with their names any more; a second compaction
finds nothing to do; and it says that it did nothing exactly when it left the buffer as it was. -/
theorem compact_shares {changed : Bool} (valid : b.validate = .ok ())
    (compacted : compact.apply b = (.ok changed, c)) :
    (∃ firsts, firstOccurrences b = .ok firsts ∧ ∀ i, c.tree (mergedPlace firsts i) = b.tree i) ∧
      Distinct c ∧ compact.apply c = (.ok false, c) ∧ (changed = false ↔ c = b) := by
  have backward := backward_of_validate valid
  obtain ⟨firsts, found, h⟩ := compact_iff.1 compacted
  have occurrences := occurrences_of_firstOccurrences backward found
  split at h
  · rename_i all
    obtain ⟨rfl, rfl⟩ := h
    have distinct := (firstOccurrences_distinct found).2.1 all
    exact ⟨⟨firsts, found, fun i => by rw [occurrences.place_self all]⟩, distinct,
      compact_still ⟨firsts, found⟩ distinct, iff_of_true rfl rfl⟩
  · rename_i fewer
    obtain ⟨rfl, rebuilt⟩ := h
    obtain ⟨again, distinct⟩ := distinct_of_rebuild backward found rebuilt
    refine ⟨⟨firsts, found, tree_of_rebuild backward found rebuilt⟩, distinct, compact_still again distinct, ?_⟩
    refine iff_of_false (fun no => nomatch no) fun same => ?_
    have size := rebuild_size rebuilt
    rw [same, ← occurrences.length] at size
    exact fewer size.symm

/-- A number stored to and read twice, and a sum of two equal numbers written out twice under one name. -/
def nested : Buffer :=
  .ofContent [.literal (.i32 1), .literal (.i32 1), .operation .addition (.ref 0) (.ref 0),
    .operation .addition (.ref 1) (.ref 1), .literal (.i32 5), .load (.ref 4) (-1),
    .store (.ref 5) (.ref 2), .load (.ref 4) (-1), .store (.ref 5) (.ref 3), .ret (.ref 7)] []
    [(.ref 2, { name := "sum" }), (.ref 3, { name := "sum" })]

/-- The sums become one, the reads of what is written stay apart. -/
theorem nested_shares :
    nested.validate = .ok () ∧ ∃ c firsts, compact.apply nested = (.ok true, c) ∧ c.size = 8 ∧
      firstOccurrences nested = .ok firsts ∧ mergedPlace firsts (.ref 3) = mergedPlace firsts (.ref 2) ∧
      c.tree (mergedPlace firsts (.ref 3)) = nested.tree (.ref 3) ∧ Distinct c ∧
      compact.apply c = (.ok false, c) := by
  have valid : nested.validate = .ok () := Except.toOption_eq_some_iff.1 (by decide +kernel)
  have known : ((compact.exec nested).toOption.any (fun c => c.size == 8) &&
      (firstOccurrences nested).toOption.any fun firsts =>
        mergedPlace firsts (.ref 3) == mergedPlace firsts (.ref 2)) = true := by decide +kernel
  simp only [Bool.and_eq_true, Option.any_eq_true, Except.toOption_eq_some_iff, Edit.exec_ok_iff,
    beq_iff_eq] at known
  obtain ⟨⟨c, ⟨changed, compacted⟩, size⟩, firsts, found, joined⟩ := known
  obtain ⟨⟨firsts', found', trees⟩, distinct, again, same⟩ := compact_shares valid compacted
  rw [found, Except.ok.injEq] at found'
  subst found'
  cases changed with
  | false =>
    have larger : nested.size = 10 := by decide +kernel
    rw [same.1 rfl, larger] at size
    cases size
  | true => exact ⟨valid, c, firsts, compacted, size, found, joined, trees _, distinct, again⟩

end ShaderForge.Optimizer
