import ShaderForge.Proofs.Typing.Fold
import ShaderForge.Optimizer.Compaction

/-!
What compaction merges. Every atom has a first occurrence, which is its own; an atom that is not
its own first occurrence does the same as that one on first occurrences.
-/

namespace ShaderForge

theorem Atom.mapAddresses_congr {a : Atom} {f g : Index → Index}
    (first : f a.addresses.1 = g a.addresses.1) (second : f a.addresses.2 = g a.addresses.2) :
    a.mapAddresses f = a.mapAddresses g := by
  cases a <;> simp_all [Atom.mapAddresses, Atom.addresses]

theorem Atom.mapAddresses_comp (a : Atom) (f g : Index → Index) :
    (a.mapAddresses f).mapAddresses g = a.mapAddresses (g ∘ f) := by
  cases a <;> rfl

namespace Optimizer

open Buffer

structure Loose (b : Buffer) (n : Nat) (a : Atom) : Prop where
  uncaptured : b.isSynthesized (.ref n) = false
  quiet : a.isSideEffect = false
  unbound : ∀ underlying number, a ≠ .qualifier underlying .parameter number
  shared : ∀ ty args, a ≠ .construct ty args .normal

theorem loose_of_mergeable {b : Buffer} {written : IndexSet} {n : Nat} {a : Atom}
    (h : isMergeable b written (.ref n) a = .ok true) : Loose b n a := by
  unfold isMergeable at h
  split at h
  · cases h
  · rename_i uncaptured
    rw [Bool.not_eq_true] at uncaptured
    cases a with
    | store | ret | branch | call => cases h
    | intrinsic code args =>
      have quiet : (code.isSideEffect || code.isLayout) = false := by
        simpa [pure, Except.pure] using h
      exact ⟨uncaptured, quiet, by simp, by simp⟩
    | construct ty args mode =>
      cases mode with
      | normal => cases h
      | transient => exact ⟨uncaptured, rfl, by simp, by simp⟩
    | qualifier underlying kind number =>
      refine ⟨uncaptured, rfl, ?_, by simp⟩
      intro underlying' number' same
      cases same
      cases h
    | _ => exact ⟨uncaptured, rfl, by simp, by simp⟩

theorem Loose.isBranch {b : Buffer} {n : Nat} {a : Atom} (loose : Loose b n a) : a.isBranch = false := by
  cases a with
  | branch => cases loose.quiet
  | _ => rfl

/-! ### First occurrences -/

theorem Seen.canonical_ref (s : Seen) (n : Nat) :
    s.canonical (.ref n) = s.first[n]?.getD (.ref n) := rfl

theorem Seen.canonical_push {s t : Seen} {x o : Index} (pushed : t.first = s.first.push x)
    (early : o < .ref s.first.size) : t.canonical o = s.canonical o := by
  cases o with
  | null => rfl
  | ref n =>
    rw [Index.ref_lt_ref] at early
    rw [canonical_ref, canonical_ref, pushed, Array.getElem?_push, if_neg (by omega)]

/-- What has been found out about the atoms before `k`. -/
structure Merged (b : Buffer) (s : Seen) (k : Nat) : Prop where
  size : s.first.size = k
  first : ∀ n < k, ∃ m ≤ n, s.first[n]? = some (.ref m) ∧ s.first[m]? = some (.ref m)
  alike : ∀ (n m : Nat) (a a' : Atom), s.first[n]? = some (.ref m) → n ≠ m →
    b.atoms[n]? = some a → b.atoms[m]? = some a' →
    Loose b n a ∧ Loose b m a' ∧ a.mapAddresses s.canonical = a'.mapAddresses s.canonical
  keys : ∀ key d j, ((key, d), j) ∈ s.keys → ∃ (m : Nat) (a : Atom), j = .ref m ∧
    s.first[m]? = some (.ref m) ∧ b.atoms[m]? = some a ∧ Loose b m a ∧
    key = a.mapAddresses s.canonical

section

variable {b : Buffer} {s t : Seen} {k : Nat} {a : Atom} {x : Index}

/-- Atoms use earlier ones, so what they are on first occurrences stays as it is. -/
theorem Merged.mapAddresses_push (merged : Merged b s k) (backward : b.Backward)
    (pushed : t.first = s.first.push x) {n : Nat} {a : Atom} (below : n ≤ k)
    (found : b.atoms[n]? = some a) (loose : Loose b n a) :
    a.mapAddresses t.canonical = a.mapAddresses s.canonical := by
  have early : ∀ {o : Index}, o < .ref n → o < .ref s.first.size := by
    intro o before
    rw [merged.size]
    exact Nat.lt_of_lt_of_le before (Nat.succ_le_succ below)
  apply Atom.mapAddresses_congr
  · exact Seen.canonical_push pushed (early (backward.address_lt found (Or.inl rfl)))
  · exact Seen.canonical_push pushed (early (backward.address_lt found (Or.inr ⟨rfl, loose.isBranch⟩)))

theorem push_getElem? (pushed : t.first = s.first.push x) {n : Nat} {i : Index}
    (known : s.first[n]? = some i) : t.first[n]? = some i := by
  have below := (Array.getElem?_eq_some_iff.1 known).1
  rw [pushed, Array.getElem?_push, if_neg (by omega), known]

theorem Merged.push_last (merged : Merged b s k) (pushed : t.first = s.first.push x) :
    t.first[k]? = some x := by
  rw [pushed, ← merged.size, Array.getElem?_push_size]

theorem Merged.push_cases (merged : Merged b s k) (pushed : t.first = s.first.push x) {n : Nat}
    {i : Index} (known : t.first[n]? = some i) : (n = k ∧ i = x) ∨ s.first[n]? = some i := by
  rw [pushed, Array.getElem?_push, merged.size] at known
  split at known
  · exact Or.inl ⟨‹_›, (Option.some.inj known).symm⟩
  · exact Or.inr known

theorem Merged.push_keys (merged : Merged b s k) (backward : b.Backward)
    (pushed : t.first = s.first.push x) :
    ∀ key d j, ((key, d), j) ∈ s.keys → ∃ (m : Nat) (a : Atom), j = .ref m ∧
      t.first[m]? = some (.ref m) ∧ b.atoms[m]? = some a ∧ Loose b m a ∧
      key = a.mapAddresses t.canonical := by
  intro key d j member
  obtain ⟨m, a, same, own, found, loose, shape⟩ := merged.keys key d j member
  have below : m < k := by
    have := (Array.getElem?_eq_some_iff.1 own).1
    rwa [merged.size] at this
  refine ⟨m, a, same, push_getElem? pushed own, found, loose, ?_⟩
  rw [shape, merged.mapAddresses_push backward pushed (by omega) found loose]

theorem Merged.push_alike (merged : Merged b s k) (backward : b.Backward)
    (pushed : t.first = s.first.push x) {n m : Nat} {a a' : Atom}
    (known : s.first[n]? = some (.ref m)) (other : n ≠ m) (found : b.atoms[n]? = some a)
    (found' : b.atoms[m]? = some a') :
    Loose b n a ∧ Loose b m a' ∧ a.mapAddresses t.canonical = a'.mapAddresses t.canonical := by
  have below : n < k := by
    have := (Array.getElem?_eq_some_iff.1 known).1
    rwa [merged.size] at this
  obtain ⟨m', le, known', _⟩ := merged.first n below
  rw [known, Option.some.injEq, Index.ref.injEq] at known'
  obtain ⟨loose, loose', alike⟩ := merged.alike n m a a' known other found found'
  refine ⟨loose, loose', ?_⟩
  rw [merged.mapAddresses_push backward pushed (by omega) found loose,
    merged.mapAddresses_push backward pushed (by omega) found' loose', alike]

theorem Merged.own (merged : Merged b s k) (backward : b.Backward)
    (pushed : t.first = s.first.push (.ref k))
    (keys : ∀ entry ∈ t.keys, entry ∈ s.keys ∨ ∃ a d, entry = ((a.mapAddresses s.canonical, d), .ref k) ∧
      b.atoms[k]? = some a ∧ Loose b k a) : Merged b t (k + 1) := by
  refine ⟨by rw [pushed, Array.size_push, merged.size], ?_, ?_, ?_⟩
  · intro n below
    rcases Nat.lt_succ_iff_lt_or_eq.1 below with below | rfl
    · obtain ⟨m, le, known, own⟩ := merged.first n below
      exact ⟨m, le, push_getElem? pushed known, push_getElem? pushed own⟩
    · exact ⟨n, Nat.le_refl n, merged.push_last pushed, merged.push_last pushed⟩
  · intro n m a a' known other found found'
    rcases merged.push_cases pushed known with ⟨rfl, same⟩ | known
    · cases same
      exact (other rfl).elim
    · exact merged.push_alike backward pushed known other found found'
  · intro key d j member
    rcases keys _ member with old | ⟨a, d', same, found, loose⟩
    · exact merged.push_keys backward pushed key d j old
    · cases same
      refine ⟨k, a, rfl, merged.push_last pushed, found, loose, ?_⟩
      rw [merged.mapAddresses_push backward pushed (Nat.le_refl k) found loose]

theorem Merged.into (merged : Merged b s k) (backward : b.Backward) {m : Nat} {a' : Atom}
    (found : b.atoms[k]? = some a) (loose : Loose b k a) (own : s.first[m]? = some (.ref m))
    (found' : b.atoms[m]? = some a') (loose' : Loose b m a')
    (equal : a.mapAddresses s.canonical = a'.mapAddresses s.canonical)
    (pushed : t.first = s.first.push (.ref m)) (keys : t.keys = s.keys) : Merged b t (k + 1) := by
  have below : m < k := by
    have := (Array.getElem?_eq_some_iff.1 own).1
    rwa [merged.size] at this
  refine ⟨by rw [pushed, Array.size_push, merged.size], ?_, ?_, ?_⟩
  · intro n before
    rcases Nat.lt_succ_iff_lt_or_eq.1 before with before | rfl
    · obtain ⟨m', le, known, own'⟩ := merged.first n before
      exact ⟨m', le, push_getElem? pushed known, push_getElem? pushed own'⟩
    · exact ⟨m, by omega, merged.push_last pushed, push_getElem? pushed own⟩
  · intro n m' x x' known other here there
    rcases merged.push_cases pushed known with ⟨rfl, same⟩ | known
    · cases same
      rw [found, Option.some.injEq] at here
      rw [found', Option.some.injEq] at there
      subst here there
      refine ⟨loose, loose', ?_⟩
      rw [merged.mapAddresses_push backward pushed (Nat.le_refl n) found loose,
        merged.mapAddresses_push backward pushed (by omega) found' loose', equal]
    · exact merged.push_alike backward pushed known other here there
  · rw [keys]
    exact merged.push_keys backward pushed

theorem Merged.add (merged : Merged b s k) (backward : b.Backward) (found : b.atoms[k]? = some a)
    {mergeable : Bool} (loose : mergeable = true → Loose b k a) :
    Merged b (s.add b (.ref k) a mergeable) (k + 1) := by
  unfold Seen.add
  split
  · rename_i yes
    have free := loose yes
    simp only
    split
    · rename_i entry j seen
      obtain ⟨key, d⟩ := entry
      obtain ⟨m, a', rfl, own, found', free', shape⟩ :=
        merged.keys _ _ _ (List.mem_of_find?_eq_some seen)
      have equal : (key, d) = (a.mapAddresses s.canonical, b.decoration? (.ref k)) := by
        simpa using List.find?_some seen
      rw [Prod.mk.injEq] at equal
      exact merged.into backward found free own found' free' (equal.1.symm.trans shape) rfl rfl
    · refine merged.own backward rfl ?_
      intro entry member
      rcases List.mem_cons.1 member with rfl | old
      · exact Or.inr ⟨a, _, rfl, found, free⟩
      · exact Or.inl old
  · exact merged.own backward rfl fun entry member => Or.inl member

theorem merged_fresh (b : Buffer) : Merged b {} 0 := by
  refine ⟨rfl, fun n below => by omega, ?_, ?_⟩
  · intro n m a a' known
    simp at known
  · intro key d j member
    cases member

end

/-- The first occurrence of an address in a list of them. -/
def canonical (firsts : List Index) (i : Index) : Index :=
  (i.pos?.bind fun n => firsts[n]?).getD i

structure Occurrences (b : Buffer) (firsts : List Index) : Prop where
  length : firsts.length = b.size
  first : ∀ n < b.size, ∃ m ≤ n, firsts[n]? = some (.ref m) ∧ firsts[m]? = some (.ref m)
  alike : ∀ (n m : Nat) (a a' : Atom), firsts[n]? = some (.ref m) → n ≠ m →
    b.atoms[n]? = some a → b.atoms[m]? = some a' →
    Loose b n a ∧ Loose b m a' ∧
      a.mapAddresses (canonical firsts) = a'.mapAddresses (canonical firsts)

theorem occurrences_of_firstOccurrences {b : Buffer} {first : List Index} (backward : b.Backward)
    (h : firstOccurrences b = .ok first) : Occurrences b first := by
  unfold firstOccurrences at h
  obtain ⟨written, _, h⟩ := Except.bind_ok h
  obtain ⟨seen, walked, h⟩ := Except.bind_ok h
  cases h
  have merged := Except.foldlM_inv (fun k s => Merged b s k) (merged_fresh b) ?_ walked
  · rw [indexed_length] at merged
    refine ⟨by simp [merged.size], ?_, ?_⟩
    · simpa using merged.first
    · intro n m a a' known
      have same : seen.canonical = canonical seen.first.toList := by
        funext i
        simp [Seen.canonical, canonical]
      rw [← same]
      exact merged.alike n m a a' (by simpa using known)
  · rintro k ⟨i, a⟩ s t item merged h
    rw [indexed_getElem?] at item
    obtain ⟨a', found, same⟩ := Option.map_eq_some_iff.1 item
    cases same
    obtain ⟨mergeable, decided, h⟩ := Except.bind_ok h
    cases h
    refine merged.add backward found ?_
    rintro rfl
    exact loose_of_mergeable decided

end Optimizer

end ShaderForge
