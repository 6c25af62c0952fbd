import ShaderForge.Proofs.Optimizer.Compaction

/-!
When compaction finds nothing to merge: no two atoms that may be merged are equal with their
names. As long as nothing has been merged every atom is compared as it stands, so this can be
said without following the walk.
-/

namespace ShaderForge.Optimizer

open Buffer

/-- Two atoms that compaction takes for one: both may be merged, and they are equal with their
names. -/
def Clash (b : Buffer) (written : IndexSet) (m n : Nat) : Prop :=
  ∃ a, b.atoms[m]? = some a ∧ b.atoms[n]? = some a ∧ isMergeable b written (.ref m) a = .ok true ∧
    isMergeable b written (.ref n) a = .ok true ∧ b.decoration? (.ref m) = b.decoration? (.ref n)

/-- No two atoms that may be merged are equal with their names. -/
def Distinct (b : Buffer) : Prop :=
  ∀ written, writtenStorage b = .ok written → ∀ m n, Clash b written m n → m = n

/-- Nothing has been merged among the atoms before `k`. -/
structure Plain (b : Buffer) (written : IndexSet) (s : Seen) (k : Nat) : Prop where
  size : s.first.size = k
  own : ∀ n < k, s.first[n]? = some (.ref n)
  keys : ∀ a d j, ((a, d), j) ∈ s.keys ↔ ∃ m < k, j = .ref m ∧ b.atoms[m]? = some a ∧
    isMergeable b written (.ref m) a = .ok true ∧ b.decoration? (.ref m) = d
  apart : ∀ m n, m < n → n < k → ¬ Clash b written m n

/-- Something has been merged among the atoms before `k`. -/
def Joined (b : Buffer) (written : IndexSet) (s : Seen) (k : Nat) : Prop :=
  s.first.size = k ∧ ∃ m n, m < n ∧ s.first[n]? = some (.ref m) ∧ Clash b written m n

section

variable {b : Buffer} {written : IndexSet} {s : Seen} {k : Nat} {a : Atom}

theorem Plain.canonical (plain : Plain b written s k) : s.canonical = fun i => i := by
  funext i
  cases i with
  | null => rfl
  | ref n =>
    rw [Seen.canonical_ref]
    by_cases below : n < k
    · rw [plain.own n below]
      rfl
    · rw [Array.getElem?_eq_none (by rw [plain.size]; omega)]
      rfl

theorem mapAddresses_self (a : Atom) : a.mapAddresses (fun i => i) = a := by
  cases a <;> rfl

theorem Plain.push (plain : Plain b written s k) {t : Seen} (first : t.first = s.first.push (.ref k))
    (keys : ∀ a d j, ((a, d), j) ∈ t.keys ↔ ((a, d), j) ∈ s.keys ∨ (j = .ref k ∧
      b.atoms[k]? = some a ∧ isMergeable b written (.ref k) a = .ok true ∧ b.decoration? (.ref k) = d))
    (alone : ∀ m < k, ¬ Clash b written m k) : Plain b written t (k + 1) := by
  refine ⟨by rw [first, Array.size_push, plain.size], ?_, ?_, ?_⟩
  · intro n below
    rw [first, Array.getElem?_push, plain.size]
    split
    · rename_i here
      rw [here]
    · exact plain.own n (by omega)
  · intro a d j
    rw [keys, plain.keys]
    constructor
    · rintro (⟨m, below, entry⟩ | entry)
      · exact ⟨m, by omega, entry⟩
      · exact ⟨k, by omega, entry⟩
    · rintro ⟨m, below, entry⟩
      rcases Nat.lt_succ_iff_lt_or_eq.1 below with below | rfl
      · exact Or.inl ⟨m, below, entry⟩
      · exact Or.inr entry
  · intro m n before below
    rcases Nat.lt_succ_iff_lt_or_eq.1 below with below | rfl
    · exact plain.apart m n before below
    · exact alone m before

theorem Plain.add (plain : Plain b written s k) (found : b.atoms[k]? = some a) {mergeable : Bool}
    (decided : isMergeable b written (.ref k) a = .ok mergeable) :
    Plain b written (s.add b (.ref k) a mergeable) (k + 1) ∨
      Joined b written (s.add b (.ref k) a mergeable) (k + 1) := by
  cases mergeable with
  | false =>
    have kept : ∀ x, b.atoms[k]? = some x → isMergeable b written (.ref k) x ≠ .ok true := by
      intro x here yes
      rw [found, Option.some.injEq] at here
      rw [← here, decided] at yes
      cases yes
    refine Or.inl (plain.push rfl ?_ ?_)
    · intro x d j
      refine ⟨Or.inl, ?_⟩
      rintro (old | ⟨_, here, yes, _⟩)
      · exact old
      · exact (kept x here yes).elim
    · rintro m _ ⟨x, _, here, _, yes, _⟩
      exact kept x here yes
  | true =>
    unfold Seen.add
    rw [plain.canonical, mapAddresses_self]
    simp only [if_true]
    split
    · rename_i entry j seen
      right
      have equal : entry = (a, b.decoration? (.ref k)) := by simpa using List.find?_some seen
      subst equal
      obtain ⟨m, below, rfl, there, yes, same⟩ := (plain.keys _ _ _).1 (List.mem_of_find?_eq_some seen)
      refine ⟨by rw [Array.size_push, plain.size], m, k, below, ?_, a, there, found, yes, decided, same⟩
      rw [← plain.size, Array.getElem?_push_size]
    · rename_i unseen
      refine Or.inl (plain.push rfl ?_ ?_)
      · intro x d j
        rw [List.mem_cons, Prod.mk.injEq, Prod.mk.injEq]
        constructor
        · rintro (⟨⟨rfl, rfl⟩, rfl⟩ | old)
          · exact Or.inr ⟨rfl, found, decided, rfl⟩
          · exact Or.inl old
        · rintro (old | ⟨rfl, here, _, rfl⟩)
          · exact Or.inr old
          · rw [found, Option.some.injEq] at here
            exact Or.inl ⟨⟨here.symm, rfl⟩, rfl⟩
      · rintro m below ⟨x, there, here, yes, _, same⟩
        rw [found, Option.some.injEq] at here
        subst here
        have member := (plain.keys a (b.decoration? (.ref k)) (.ref m)).2 ⟨m, below, rfl, there, yes, same⟩
        exact List.find?_eq_none.1 unseen _ member (by simp)

theorem Joined.add (joined : Joined b written s k) (mergeable : Bool) :
    Joined b written (s.add b (.ref k) a mergeable) (k + 1) := by
  obtain ⟨size, m, n, before, merged, clash⟩ := joined
  have pushed : ∃ i, (s.add b (.ref k) a mergeable).first = s.first.push i := by
    unfold Seen.add
    split
    · simp only
      split <;> exact ⟨_, rfl⟩
    · exact ⟨_, rfl⟩
  obtain ⟨i, first⟩ := pushed
  refine ⟨by rw [first, Array.size_push, size], m, n, before, ?_, clash⟩
  exact push_getElem? first merged

theorem Clash.symm {m n : Nat} (clash : Clash b written m n) : Clash b written n m := by
  obtain ⟨a, there, here, first, second, same⟩ := clash
  exact ⟨a, here, there, second, first, same.symm⟩

theorem Clash.lt_size {m n : Nat} (clash : Clash b written m n) : n < b.size := by
  obtain ⟨_, _, here, _⟩ := clash
  exact (Array.getElem?_eq_some_iff.1 here).1

theorem kept_length_iff (firsts : List Index) :
    (kept firsts).length = firsts.length ↔ ∀ n < firsts.length, firsts[n]? = some (.ref n) := by
  have whole := List.filterMap_length_eq_length (l := firsts.zipIdx)
    (f := fun (p : Index × Nat) => if p.1 = .ref p.2 then some p.1 else none)
  rw [List.length_zipIdx] at whole
  refine whole.trans ?_
  constructor
  · intro all n below
    have member : (firsts[n], n) ∈ firsts.zipIdx := by
      rw [List.mk_mem_zipIdx_iff_getElem?]
      exact List.getElem?_eq_getElem below
    have own := all _ member
    rw [List.getElem?_eq_getElem below]
    split at own
    · rename_i same
      exact congrArg some same
    · cases own
  · rintro own ⟨i, n⟩ member
    have found := List.mk_mem_zipIdx_iff_getElem?.1 member
    rw [own n (List.getElem?_eq_some_iff.1 found).1, Option.some.injEq] at found
    rw [if_pos found.symm]
    rfl

/-- Every atom is its own first occurrence exactly when no two clash. -/
theorem firstOccurrences_distinct {firsts : List Index} (h : firstOccurrences b = .ok firsts) :
    firsts.length = b.size ∧ ((kept firsts).length = firsts.length ↔ Distinct b) := by
  unfold firstOccurrences at h
  obtain ⟨written, found, h⟩ := Except.bind_ok h
  obtain ⟨seen, walked, h⟩ := Except.bind_ok h
  cases h
  have whole := Except.foldlM_inv (fun k s => Plain b written s k ∨ Joined b written s k)
    (Or.inl ⟨rfl, fun n below => by omega, ?_, fun m n _ below => by omega⟩) ?_ walked
  · have size : seen.first.toList.length = b.size := by
      rw [indexed_length] at whole
      rcases whole with plain | joined
      · simpa using plain.size
      · simpa using joined.1
    refine ⟨size, ?_⟩
    rw [kept_length_iff, size]
    rw [indexed_length] at whole
    rcases whole with plain | ⟨_, m, n, before, merged, clash⟩
    · refine iff_of_true (fun n below => by simpa using plain.own n below) ?_
      intro written' found' m n clash
      rw [found, Except.ok.injEq] at found'
      subst found'
      rcases Nat.lt_trichotomy m n with before | same | after
      · exact (plain.apart m n before clash.lt_size clash).elim
      · exact same
      · exact (plain.apart n m after clash.symm.lt_size clash.symm).elim
    · refine iff_of_false (fun own => ?_) fun distinct => ?_
      · have here := own n clash.lt_size
        rw [Array.getElem?_toList, merged, Option.some.injEq, Index.ref.injEq] at here
        omega
      · have same := distinct written found m n clash
        omega
  · intro a d j
    constructor
    · intro member
      cases member
    · rintro ⟨m, below, _⟩
      omega
  · rintro k ⟨i, a⟩ s t item so_far h
    rw [indexed_getElem?] at item
    obtain ⟨a', there, same⟩ := Option.map_eq_some_iff.1 item
    cases same
    obtain ⟨mergeable, decided, h⟩ := Except.bind_ok h
    cases h
    rcases so_far with plain | joined
    · exact plain.add there decided
    · exact Or.inr (joined.add mergeable)

end

/-! ### Buffers with the same atoms -/

section

variable {b c : Buffer}

theorem writtenThrough_congr (same : b.atoms = c.atoms) (a : Atom) :
    (writtenThrough b a).toOption = (writtenThrough c a).toOption := by
  cases a with
  | call _ _ args => exact expandList_congr same args
  | intrinsic code args =>
    cases code with
    | atomicAdd | imageStore =>
      simp only [writtenThrough, Except.toOption_bind, expandList_congr same args]
    | _ => rfl
  | _ => rfl

theorem writtenStorage_congr (same : b.atoms = c.atoms) :
    (writtenStorage b).toOption = (writtenStorage c).toOption := by
  unfold writtenStorage
  rw [same]
  apply Except.toOption_foldlM_congr
  intro a _ written
  rw [Except.toOption_bind, Except.toOption_bind, writtenThrough_congr same]
  refine congrArg _ (funext fun targets => ?_)
  apply Except.toOption_foldlM_congr
  intro i _ written
  rw [Except.toOption_bind, Except.toOption_bind, storage_congr same]

theorem isMergeable_congr (atoms : b.atoms = c.atoms) (synthesized : b.synthesized = c.synthesized)
    (written : IndexSet) (i : Index) (a : Atom) :
    (isMergeable b written i a).toOption = (isMergeable c written i a).toOption := by
  have captured : b.isSynthesized i = c.isSynthesized i := by
    rw [isSynthesized, isSynthesized, synthesized]
  unfold isMergeable
  rw [captured]
  split
  · rfl
  · cases a with
    | load | access | swizzle =>
      simp only [Except.toOption_bind, storage_congr atoms]
    | _ => rfl

theorem exists_firstOccurrences_iff :
    (∃ firsts, firstOccurrences b = .ok firsts) ↔ ∃ written, writtenStorage b = .ok written ∧
      ∀ x ∈ b.indexed, ∃ mergeable, isMergeable b written x.1 x.2 = .ok mergeable := by
  unfold firstOccurrences
  constructor
  · rintro ⟨firsts, h⟩
    obtain ⟨written, found, h⟩ := Except.bind_ok h
    obtain ⟨seen, walked, _⟩ := Except.bind_ok h
    refine ⟨written, found, fun x member => ?_⟩
    obtain ⟨_, _, step⟩ := Except.foldlM_each walked x member
    obtain ⟨mergeable, decided, _⟩ := Except.bind_ok step
    exact ⟨mergeable, decided⟩
  · rintro ⟨written, found, each⟩
    have walk : ∃ seen, b.indexed.foldlM (fun (s : Seen) x =>
        return s.add b x.1 x.2 (← isMergeable b written x.1 x.2)) {} = Except.ok seen := by
      refine Except.exists_foldlM (fun x member s => ?_) _
      obtain ⟨mergeable, decided⟩ := each x member
      exact ⟨s.add b x.1 x.2 mergeable, by simp only [decided]; rfl⟩
    obtain ⟨seen, walked⟩ := walk
    refine ⟨seen.first.toList, ?_⟩
    rw [found, Except.ok_bind]
    exact congrArg (· >>= fun s => pure s.first.toList) walked

/-- Whether the first occurrences are found does not depend on names and types. -/
theorem exists_firstOccurrences_congr (atoms : b.atoms = c.atoms)
    (synthesized : b.synthesized = c.synthesized) (h : ∃ firsts, firstOccurrences b = .ok firsts) :
    ∃ firsts, firstOccurrences c = .ok firsts := by
  obtain ⟨written, found, each⟩ := exists_firstOccurrences_iff.1 h
  refine exists_firstOccurrences_iff.2 ⟨written, ?_, fun x member => ?_⟩
  · rwa [← Except.toOption_eq_some_iff, ← writtenStorage_congr atoms, Except.toOption_eq_some_iff]
  · rw [indexed, ← atoms] at member
    obtain ⟨mergeable, decided⟩ := each x member
    refine ⟨mergeable, ?_⟩
    rwa [← Except.toOption_eq_some_iff, ← isMergeable_congr atoms synthesized,
      Except.toOption_eq_some_iff]

theorem Distinct.congr (distinct : Distinct b) (atoms : b.atoms = c.atoms)
    (synthesized : b.synthesized = c.synthesized) (names : b.decorations = c.decorations) :
    Distinct c := by
  intro written found m n clash
  have found' : writtenStorage b = .ok written := by
    rwa [← Except.toOption_eq_some_iff, writtenStorage_congr atoms, Except.toOption_eq_some_iff]
  have mergeable : ∀ {i : Index} {a : Atom}, isMergeable c written i a = .ok true →
      isMergeable b written i a = .ok true := by
    intro i a yes
    rwa [← Except.toOption_eq_some_iff, isMergeable_congr atoms synthesized,
      Except.toOption_eq_some_iff]
  obtain ⟨a, there, here, first, second, same⟩ := clash
  refine distinct written found' m n ⟨a, ?_, ?_, mergeable first, mergeable second, ?_⟩
  · rwa [atoms]
  · rwa [atoms]
  · rwa [decoration?, decoration?, names]

/-! ### Compaction -/

theorem compact_still (found : ∃ firsts, firstOccurrences b = .ok firsts) (distinct : Distinct b) :
    Succeeds compact b false b := by
  obtain ⟨firsts, found⟩ := found
  refine compact_iff.2 ⟨firsts, found, ?_⟩
  rw [if_pos ((firstOccurrences_distinct found).2.2 distinct)]
  exact ⟨rfl, rfl⟩

theorem compact_quiet (h : Succeeds compact b false c) :
    c = b ∧ (∃ firsts, firstOccurrences b = .ok firsts) ∧ Distinct b := by
  obtain ⟨firsts, found, h⟩ := compact_iff.1 h
  split at h
  · rename_i all
    exact ⟨h.2, ⟨firsts, found⟩, (firstOccurrences_distinct found).2.1 all⟩
  · cases h.1

theorem compact_size_lt {changed : Bool} (h : Succeeds compact b changed c) (clash : ¬ Distinct b) :
    c.size < b.size := by
  obtain ⟨firsts, found, h⟩ := compact_iff.1 h
  obtain ⟨length, whole⟩ := firstOccurrences_distinct found
  split at h
  · rename_i all
    exact (clash (whole.1 all)).elim
  · have := kept_length_le firsts
    rw [rebuild_size h.2]
    omega

end

end ShaderForge.Optimizer
