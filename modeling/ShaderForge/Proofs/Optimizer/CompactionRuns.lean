import ShaderForge.Proofs.Optimizer.Answers
import ShaderForge.Proofs.Optimizer.Compaction

/-!
What compaction does to the answers of native code. Equal atoms can be merged as long as none of
them is a statement: a statement owns a slot, which a store may change and which has its value
only from there on.
-/

namespace ShaderForge.Optimizer

open Buffer Linkage Native

/-- No statement has the same first occurrence as another atom. -/
def StatementsApart (f : Function) : Prop :=
  ∀ firsts, firstOccurrences f.buffer = .ok firsts →
    ∀ n k, f.IsStatement n → firsts[k]? = firsts[n]? → k = n

theorem Occurrences.signed {b : Buffer} {firsts : List Index} (occurrences : Occurrences b firsts) {n : Nat}
    {a : Atom} (there : b.atoms[n]? = some a)
    (special : (Function.position? a).isSome ∨ (Function.returned? a).isSome) :
    Solo (mergedPlace firsts) (.ref n) := by
  refine occurrences.solo there fun loose => ?_
  rcases special with bound | leaves
  · obtain ⟨position, chosen⟩ := Option.isSome_iff_exists.1 bound
    obtain ⟨underlying, number, rfl, _⟩ := Function.position?_eq_some chosen
    exact loose.unbound underlying number rfl
  · cases a with
    | ret value => cases loose.quiet
    | _ => cases leaves

theorem standsFor_compact {raw f : Function} {c : Buffer} {changed : Bool}
    (made : Succeeds Function.prepare raw () f) (compacted : Succeeds compact f.buffer changed c)
    (apart : StatementsApart f) : StandsFor { f with buffer := c } f := by
  obtain ⟨firsts, found, rfl | ⟨merging, rebuilt⟩⟩ := compact_succeeds compacted
  · exact StandsFor.refl f
  have backward := (Function.prepared_of_prepare made).1.backward
  have occurrences := occurrences_of_firstOccurrences backward found
  have nonempty : f.buffer.size ≠ 0 := by
    rw [← occurrences.length]
    exact fun empty => merging (List.eq_nil_of_length_eq_zero empty)
  refine ⟨rfl, fun g again => ?_⟩
  have valid : f.buffer.validate = .ok () := ((Function.prepare_succeeds nonempty).1 again).1
  have atoms := (Function.prepared_of_prepare again).2.2.2
  have solo : ∀ n, g.IsStatement n → Solo (mergedPlace firsts) (.ref n) := by
    rintro n ⟨marked, a, there, acts⟩ j same
    rw [atoms] at there
    have own := (Function.marked_prepare made again n).1 marked
    obtain ⟨k, rfl, _, equal⟩ := occurrences.place_eq (Array.getElem?_eq_some_iff.1 there).1 same
    rw [apart firsts found n k ⟨own, a, there, acts⟩ equal]
  obtain ⟨g', prepared, goes⟩ := Function.prepare_fold again nonempty (fun _ => rebuild_fresh rebuilt)
    (occurrences.valid valid rebuilt) (occurrences.folds backward rebuilt)
    (fun n a there _ => occurrences.keeps (Array.getElem?_eq_some_iff.1 there).1)
    (fun n k => occurrences.order) (fun n a there _ => occurrences.signed there) fun n _ => solo n
  exact ⟨g', _, prepared, goes⟩

/-- Compaction preserves the answers of every function of a registry, as long as it merges no
statement of the compacted one. -/
theorem compact_sameAnswers {r : Registry} {name : String} {id : FunctionId} {b c : Buffer}
    {f : Function} {changed : Bool} (built : Function.build name id b = .ok f)
    (known : r.get? id = some f) (compacted : compact.apply f.buffer = (.ok changed, c))
    (apart : StatementsApart f) : SameAnswers r (r.put { f with buffer := c }) := by
  have made := build_succeeds built
  have same : f.id = id := (Function.prepared_of_prepare made).2.1
  exact sameAnswers_of_echoes (echoes_put (same ▸ known) (standsFor_compact made compacted apart))

/-! ### Two functions -/

/-- The sum of a number and itself. -/
def doubled : Buffer :=
  { atoms := #[.literal (.i32 1), .literal (.i32 1), .operation .addition (.ref 0) (.ref 1), .ret (.ref 2)] }

theorem doubled_sameAnswers :
    ∃ f changed c, Function.build "f" 0 doubled = .ok f ∧ compact.apply f.buffer = (.ok changed, c) ∧
      c.size = 3 ∧ Optimizer.answer? (only f) "f" [] = some [2] ∧
      SameAnswers (only f) ((only f).put { f with buffer := c }) := by
  obtain ⟨f, changed, c, built, compacted, holds⟩ := exists_edited compact doubled (fun f g =>
    (firstOccurrences f.buffer).toOption == some [.ref 0, .ref 0, .ref 2, .ref 3] &&
      f.buffer.marked.toList == [.ref 3] && g.buffer.size == 3 && f.id == 0 &&
      Optimizer.answer? (only f) "f" [] == some [2]) (by decide +kernel)
  simp only [Bool.and_eq_true, beq_iff_eq, Except.toOption_eq_some_iff] at holds
  obtain ⟨⟨⟨⟨firsts, marked⟩, size⟩, id⟩, answer⟩ := holds
  refine ⟨f, changed, c, built, compacted, size, answer, compact_sameAnswers built ?_ compacted ?_⟩
  · simp [only, Registry.get?, Registry.put, id]
  · intro others found n k statement same
    rw [firsts, Except.ok.injEq] at found
    subst found
    have last : n = 3 := by
      have member := Std.ExtTreeSet.mem_toList.2 statement.1
      rw [marked, List.mem_singleton] at member
      exact Index.ref.inj member
    subst last
    match k with
    | 0 | 1 | 2 => cases same
    | 3 => rfl
    | k + 4 => cases same

/-- Two equal numbers, one of which is stored to. -/
def overwritten : Buffer :=
  { atoms := #[.literal (.i32 1), .literal (.i32 1), .literal (.i32 5), .store (.ref 0) (.ref 2), .ret (.ref 1)] }

/-- The store reaches the other number once they are merged. -/
theorem overwritten_not_sameAnswers :
    ∃ f changed c, Function.build "f" 0 overwritten = .ok f ∧
      compact.apply f.buffer = (.ok changed, c) ∧
      ¬ SameAnswers (only f) ((only f).put { f with buffer := c }) := by
  obtain ⟨f, changed, c, built, compacted, holds⟩ := exists_edited compact overwritten (fun f g =>
    Optimizer.answer? (only f) "f" [] == some [1] &&
      Optimizer.answer? ((only f).put g) "f" [] == some [5]) (by decide +kernel)
  simp only [Bool.and_eq_true, beq_iff_eq] at holds
  refine ⟨f, changed, c, built, compacted, fun same => ?_⟩
  have kept := same.answer? holds.1
  rw [holds.2] at kept
  cases kept

end ShaderForge.Optimizer
