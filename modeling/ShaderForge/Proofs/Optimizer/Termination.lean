import Mathlib.Algebra.GroupWithZero.Nat
import Mathlib.Algebra.Order.BigOperators.Group.List
import Mathlib.Algebra.Order.Group.Nat
import Mathlib.Logic.Relation
import ShaderForge.Proofs.Optimizer.Failures
import ShaderForge.Proofs.Optimizer.Settling

/-!
Sweeps come to an end. A change removes atoms or moves addresses of the same atoms to earlier ones,
so the number of atoms with the sum of their addresses goes down; the bound on the sweeps is never
met, nor any other, and the loop without it gives the same answer.
-/

namespace ShaderForge.Optimizer

open Buffer

variable {b c : Buffer}

/-! ### What changes lower -/

def addressRank (a : Atom) : Nat := a.addresses.1.rank + a.addresses.2.rank

def addressSum (b : Buffer) : Nat := (b.atoms.toList.map addressRank).sum

/-- Atoms weigh more than all addresses of a buffer of up to `limit` atoms. -/
def weight (limit : Nat) (b : Buffer) : Nat := b.size * (2 * limit * (limit + 1) + 1) + addressSum b

theorem rank_le_size (valid : b.validate = .ok ()) {n : Nat} {a : Atom} {o : Index}
    (found : b.atoms[n]? = some a) (used : o = a.addresses.1 ∨ o = a.addresses.2) : o.rank ≤ b.size := by
  cases o with
  | null => exact Nat.zero_le _
  | ref k =>
    obtain ⟨_, there⟩ := exists_of_address valid found used rfl
    exact (Array.getElem?_eq_some_iff.1 there).1

theorem addressSum_le {limit : Nat} (valid : b.validate = .ok ()) (small : b.size ≤ limit) :
    addressSum b ≤ 2 * limit * (limit + 1) := by
  have each : ∀ r ∈ b.atoms.toList.map addressRank, r ≤ 2 * limit := by
    intro r member
    obtain ⟨a, inside, rfl⟩ := List.mem_map.1 member
    obtain ⟨n, found⟩ := List.mem_iff_getElem?.1 inside
    rw [Array.getElem?_toList] at found
    have first := rank_le_size valid found (Or.inl rfl)
    have second := rank_le_size valid found (Or.inr rfl)
    unfold addressRank
    omega
  calc addressSum b ≤ (b.atoms.toList.map addressRank).length • (2 * limit) :=
        List.sum_le_card_nsmul _ _ each
    _ = b.size * (2 * limit) := by simp [size]
    _ ≤ (limit + 1) * (2 * limit) := Nat.mul_le_mul_right _ (by omega)
    _ = 2 * limit * (limit + 1) := Nat.mul_comm _ _

theorem weight_lt_of_size_lt {limit : Nat} (valid : c.validate = .ok ()) (fewer : c.size < b.size)
    (small : b.size ≤ limit) : weight limit c < weight limit b := by
  have light : addressSum c ≤ 2 * limit * (limit + 1) := addressSum_le valid (by omega)
  unfold weight
  generalize 2 * limit * (limit + 1) = atom at light ⊢
  calc c.size * (atom + 1) + addressSum c < c.size * (atom + 1) + (atom + 1) := by omega
    _ = (c.size + 1) * (atom + 1) := (Nat.succ_mul _ _).symm
    _ ≤ b.size * (atom + 1) := Nat.mul_le_mul_right _ fewer
    _ ≤ b.size * (atom + 1) + addressSum b := Nat.le_add_right _ _

theorem Diverts.addressSum_lt {divert : Index → Index} (diverts : Diverts b divert)
    (moved : ∃ a ∈ b.atoms.toList, divert a.addresses.1 < a.addresses.1 ∨
      divert a.addresses.2 < a.addresses.2) : addressSum (diverted b divert) < addressSum b := by
  -- No address goes to a later atom, and one goes to an earlier one.
  have lower : ∀ a : Atom, addressRank (a.mapAddresses divert) ≤ addressRank a := by
    intro a
    unfold addressRank
    rw [Atom.addresses_mapAddresses diverts.null]
    exact Nat.add_le_add (diverts.lower _) (diverts.lower _)
  have sum : addressSum (diverted b divert) =
      (b.atoms.toList.map fun a => addressRank (a.mapAddresses divert)).sum := by
    simp [addressSum, diverted, Function.comp_def]
  rw [sum]
  refine List.sum_lt_sum _ _ (fun a _ => lower a) ?_
  obtain ⟨a, member, first | second⟩ := moved
  · refine ⟨a, member, ?_⟩
    unfold addressRank
    rw [Atom.addresses_mapAddresses diverts.null]
    exact Nat.add_lt_add_of_lt_of_le first (diverts.lower _)
  · refine ⟨a, member, ?_⟩
    unfold addressRank
    rw [Atom.addresses_mapAddresses diverts.null]
    exact Nat.add_lt_add_of_le_of_lt (diverts.lower _) second

theorem Rewrites.size_le (rewrites : Rewrites b c) : c.size ≤ b.size := by
  cases rewrites with
  | @merged firsts occurrences _ rebuilt =>
    rw [rebuild_size rebuilt, ← occurrences.length]
    exact kept_length_le firsts
  | forwarded _ _ changed =>
    subst changed
    simp [size, invalidate, diverted]
  | dropped found _ rebuilt =>
    rw [rebuild_size rebuilt]
    exact alive_size_le found

theorem Rewrites.weight_lt {limit : Nat} (rewrites : Rewrites b c) (valid : b.validate = .ok ())
    (small : b.size ≤ limit) : weight limit c < weight limit b := by
  have valid' := rewrites.valid valid
  have fewer := rewrites.size_le
  cases rewrites with
  | @merged firsts occurrences other rebuilt =>
    refine weight_lt_of_size_lt valid' ?_ small
    rw [rebuild_size rebuilt, ← occurrences.length] at fewer ⊢
    omega
  | @forwarded divert diverts moved changed =>
    subst changed
    have same : (diverted b divert).invalidate.size = b.size := by
      simp [size, invalidate, diverted]
    unfold weight
    rw [same]
    exact Nat.add_lt_add_left (diverts.addressSum_lt moved) _
  | dropped _ other rebuilt =>
    refine weight_lt_of_size_lt valid' ?_ small
    rw [rebuild_size rebuilt] at fewer ⊢
    omega

/-! ### The loop -/

/-- The loop in the middle of its work: the passes of this sweep that are still to come, whether one of
this sweep has changed the buffer and whether one of an earlier sweep has. -/
structure Stage where
  todo : List Pass
  changed : Bool
  earlier : Bool
  buffer : Buffer

namespace Stage

/-- One step of a loop without a bound: the next pass, or another sweep after one that has changed the
buffer, or the answer with the buffer as it stands. -/
def step (ps : List Pass) : Stage → Stage ⊕ (Except Fault Bool × Buffer)
  | ⟨p :: rest, changed, earlier, b⟩ =>
    match p.run.apply b with
    | (.ok modified, c) => .inl ⟨rest, changed || modified, earlier, c⟩
    | (.error e, c) => .inr (.error e, c)
  | ⟨[], true, _, b⟩ => .inl ⟨ps, false, true, b⟩
  | ⟨[], false, earlier, b⟩ => .inr (.ok earlier, b)

/-- Stages that come after a stage, whatever the number of steps. -/
def Leads (ps : List Pass) : Stage → Stage → Prop :=
  Relation.ReflTransGen fun s t => s.step ps = .inl t

def start (ps : List Pass) (b : Buffer) : Stage := ⟨ps, false, false, b⟩

variable {ps todo : List Pass} {s t : Stage} {changed earlier : Bool}

theorem step_valid (valid : s.buffer.validate = .ok ()) (h : s.step ps = .inl t) :
    t.buffer.validate = .ok () := by
  obtain ⟨todo, changed, earlier, b⟩ := s
  cases todo with
  | nil =>
    cases changed with
    | true => cases h; exact valid
    | false => cases h
  | cons p rest =>
    simp only [step] at h
    split at h
    · rename_i ran
      cases h
      exact run_valid valid ran
    · cases h

theorem last_valid {answer : Except Fault Bool} (valid : s.buffer.validate = .ok ())
    (h : s.step ps = .inr (answer, c)) : c.validate = .ok () ∧ ∀ e, answer = .error e → e.Definite := by
  obtain ⟨todo, changed, earlier, b⟩ := s
  cases todo with
  | nil =>
    cases changed with
    | true => cases h
    | false => cases h; exact ⟨valid, fun _ failed => nomatch failed⟩
  | cons p rest =>
    simp only [step] at h
    split at h
    · cases h
    · rename_i ran
      cases h
      refine ⟨run_valid valid ran, fun e same => ?_⟩
      rw [Except.error.inj same] at ran
      exact run_definite valid ran

theorem Leads.valid (leads : Leads ps s t) (valid : s.buffer.validate = .ok ()) :
    t.buffer.validate = .ok () := by
  induction leads with
  | refl => exact valid
  | tail _ next ih => exact step_valid ih next

theorem sweep_ok {later : Bool} (h : Succeeds (sweep todo) b later c) :
    Leads ps ⟨todo, changed, earlier, b⟩ ⟨[], changed || later, earlier, c⟩ := by
  induction todo generalizing b changed later with
  | nil =>
    obtain ⟨rfl, rfl⟩ := Succeeds.of_pure.1 h
    rw [Bool.or_false]
    exact .refl
  | cons p rest ih =>
    obtain ⟨first, others, d, ran, swept, rfl⟩ := sweep_cons.1 h
    rw [← Bool.or_assoc]
    refine .head ?_ (ih swept)
    have ran : p.run.apply b = (.ok first, d) := ran
    simp only [step, ran]

theorem sweep_error {e : Fault} (h : outcome (sweep todo) b = (.error e, c)) :
    ∃ s, Leads ps ⟨todo, changed, earlier, b⟩ s ∧ s.step ps = .inr (.error e, c) := by
  induction todo generalizing b changed with
  | nil => cases h
  | cons p rest ih =>
    rw [sweep, outcome_bind] at h
    cases ran : outcome p.run b with
    | mk answer d =>
      rw [ran] at h
      have ran : p.run.apply b = (answer, d) := ran
      cases answer with
      | error e' =>
        cases h
        exact ⟨_, .refl, by simp only [step, ran]⟩
      | ok first =>
        have swept : outcome (sweep rest) d = (.error e, c) := by
          change outcome (sweep rest >>= fun later => pure (first || later)) d = _ at h
          rw [outcome_bind] at h
          generalize outcome (sweep rest) d = result at h
          obtain ⟨answer, d'⟩ := result
          cases answer <;> cases h
          rfl
        obtain ⟨s, leads, last⟩ := @ih d (changed || first) swept
        refine ⟨s, .head ?_ leads, last⟩
        simp only [step, ran]

end Stage

/-! ### Sweeps -/

/-- A sweep makes a buffer no heavier, and one that changes it makes it lighter. -/
theorem sweep_weight {limit : Nat} {ps : List Pass} {changed : Bool} (valid : b.validate = .ok ())
    (small : b.size ≤ limit) (h : Succeeds (sweep ps) b changed c) :
    c.validate = .ok () ∧ c.size ≤ limit ∧ weight limit c ≤ weight limit b ∧
      (changed = true → weight limit c < weight limit b) := by
  induction ps generalizing b changed with
  | nil =>
    obtain ⟨rfl, rfl⟩ := Succeeds.of_pure.1 h
    exact ⟨valid, small, Nat.le_refl _, nofun⟩
  | cons p rest ih =>
    obtain ⟨first, later, d, ran, swept, rfl⟩ := sweep_cons.1 h
    have small' := Nat.le_trans (run_shrinks ran).size small
    obtain ⟨valid', least, lighter, changed⟩ := ih (run_valid valid ran) small' swept
    have once : weight limit d ≤ weight limit b ∧ (first = true → weight limit d < weight limit b) := by
      -- Typing on the way touches no atom, so the typed buffer weighs the same.
      obtain ⟨e, typed, validTyped, cases⟩ := run_cases valid ran
      have same : weight limit e = weight limit b := by
        rcases typed with rfl | readied
        · rfl
        · unfold weight addressSum size
          rw [readied.atoms]
      have smallTyped : e.size ≤ limit := by
        rcases typed with rfl | readied
        · exact small
        · rwa [size, readied.atoms]
      rcases cases with ⟨still, rfl⟩ | ⟨_, rewrites⟩
      · exact ⟨Nat.le_of_eq same, fun changed => (still (congrArg _ changed)).elim⟩
      · rw [← same]
        have lighter := rewrites.weight_lt validTyped smallTyped
        exact ⟨Nat.le_of_lt lighter, fun _ => lighter⟩
    refine ⟨valid', least, Nat.le_trans lighter once.1, fun either => ?_⟩
    rcases Bool.or_eq_true_iff.1 either with here | there
    · exact Nat.lt_of_le_of_lt lighter (once.2 here)
    · exact Nat.lt_of_lt_of_le (changed there) once.1

theorem settle_outcome (ps : List Pass) (fuel : Nat) (b : Buffer) :
    outcome (settle ps (fuel + 1)) b =
      match outcome (sweep ps) b with
      | (.ok true, d) => ((outcome (settle ps fuel) d).1.map fun _ => true, (outcome (settle ps fuel) d).2)
      | (.ok false, c) => (.ok false, c)
      | (.error e, c) => (.error e, c) := by
  rw [settle, outcome_bind]
  generalize outcome (sweep ps) b = result
  obtain ⟨answer, d⟩ := result
  cases answer with
  | error e => rfl
  | ok again =>
    cases again with
    | false => rfl
    | true =>
      change outcome (settle ps fuel >>= fun _ => pure true) d =
        ((outcome (settle ps fuel) d).1.map fun _ => true, (outcome (settle ps fuel) d).2)
      rw [outcome_bind]
      generalize outcome (settle ps fuel) d = result
      obtain ⟨answer, c⟩ := result
      cases answer <;> rfl

/-- With more sweeps to spare than the buffer weighs, the loop ends with the answer of the bounded
one. -/
theorem settle_ends {limit fuel : Nat} {ps : List Pass} (valid : b.validate = .ok ()) (small : b.size ≤ limit)
    (enough : weight limit b < fuel) (earlier : Bool) :
    ∃ s, Stage.Leads ps ⟨ps, false, earlier, b⟩ s ∧ s.step ps =
      .inr ((outcome (settle ps fuel) b).1.map (earlier || ·), (outcome (settle ps fuel) b).2) := by
  induction fuel generalizing b earlier with
  | zero => omega
  | succ fuel ih =>
    rw [settle_outcome]
    cases swept : outcome (sweep ps) b with
    | mk answer d =>
      cases answer with
      | error e => exact Stage.sweep_error swept
      | ok again =>
        have leads : Stage.Leads ps ⟨ps, false, earlier, b⟩ ⟨[], false || again, earlier, d⟩ :=
          Stage.sweep_ok swept
        cases again with
        | false => exact ⟨_, leads, by simp [Stage.step, Except.map]⟩
        | true =>
          -- The sweep has made the buffer lighter, so the sweeps left are still enough.
          obtain ⟨valid', small', _, lighter⟩ := sweep_weight valid small swept
          obtain ⟨s, later, last⟩ := ih valid' small' (by have := lighter rfl; omega) true
          refine ⟨s, (leads.tail rfl).trans later, ?_⟩
          rw [last]
          dsimp only
          cases (outcome (settle ps fuel) d).1 <;> simp [Except.map]

theorem weight_lt_sweepBound (valid : b.validate = .ok ()) : weight b.size b < sweepBound b.size := by
  have light := addressSum_le valid (Nat.le_refl b.size)
  unfold weight sweepBound
  generalize 2 * b.size * (b.size + 1) = atom at light ⊢
  rw [Nat.add_mul, Nat.one_mul]
  have more : b.size * (atom + 1) ≤ b.size * (atom + 2) := Nat.mul_le_mul_left _ (by omega)
  omega

/-- The loop over the passes of a level ends, without a bound on its sweeps, with the answer and the
buffer of `optimize`; the buffer is valid before every step and when the loop ends. If that is with a
fault, no walk of the failing pass went in a circle or met a bound. -/
theorem optimize_ends_valid (level : OptLevel) (valid : b.validate = .ok ()) :
    (∃ s, Stage.Leads (passes level) (.start (passes level) b) s ∧
      s.step (passes level) = .inr ((optimize level).apply b)) ∧
    ∀ s, Stage.Leads (passes level) (.start (passes level) b) s → s.buffer.validate = .ok () ∧
      ∀ answer c, s.step (passes level) = .inr (answer, c) →
        c.validate = .ok () ∧ ∀ e, answer = .error e → e.Definite := by
  refine ⟨?_, fun s leads => ⟨leads.valid valid, fun answer c last => ?_⟩⟩
  · obtain ⟨s, leads, last⟩ := @settle_ends b _ _ (passes level) valid (Nat.le_refl _)
      (weight_lt_sweepBound valid) false
    refine ⟨s, leads, ?_⟩
    have opened : (optimize level).apply b = outcome (settle (passes level) (sweepBound b.size)) b := rfl
    rw [last, opened]
    cases outcome (settle (passes level) (sweepBound b.size)) b with
    | mk answer c => cases answer <;> simp [Except.map]
  · exact Stage.last_valid (leads.valid valid) last

/-- A parameter put into a struct and read out of it. -/
def wrapped : Buffer :=
  { atoms := #[.type .nil .null .null, .type .i32 .null (.ref 0), .type .nil (.ref 1) .null,
      .type .i32 .null .null, .qualifier (.ref 3) .parameter 0, .list (.ref 4) .null,
      .construct (.ref 2) (.ref 5) .normal, .load (.ref 6) 0, .ret (.ref 7)] }

/-- The read is forwarded and the struct removed; the sweep after that is the last. -/
theorem wrapped_ends_valid :
    wrapped.validate = .ok () ∧ ∃ changed c s, (optimize .basic).apply wrapped = (.ok changed, c) ∧
      c.size = 3 ∧ Stage.Leads (passes .basic) (.start (passes .basic) wrapped) s ∧
      s.step (passes .basic) = .inr (.ok changed, c) ∧ c.validate = .ok () := by
  have valid : wrapped.validate = .ok () := rfl
  obtain ⟨changed, c, _, _, ran, _, size⟩ :=
    exists_optimized wrapped (fun c _ => c.size == 3) (by decide +kernel)
  obtain ⟨⟨s, leads, last⟩, valid'⟩ := optimize_ends_valid .basic valid
  rw [ran] at last
  exact ⟨valid, changed, c, s, ran, beq_iff_eq.1 size, leads, last, ((valid' s leads).2 _ c last).1⟩

end ShaderForge.Optimizer
