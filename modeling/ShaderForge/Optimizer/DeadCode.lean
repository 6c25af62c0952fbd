import ShaderForge.Optimizer.Storage

/-!
# Dead code elimination

Removes atoms that no remaining atom uses and that have no effect.  A worklist
holds the atoms whose last user went.
-/

namespace ShaderForge.Optimizer

def exempt (b : Buffer) : Except Fault IndexSet :=
  b.indexed.foldlM
    (fun (s : IndexSet) (i, a) => do
      return if ← Liveness.isAnchored b i a then s.insert i else s) ∅

/-- The atoms that an atom uses, branch targets included, one entry for each use. -/
def uses (b : Buffer) (i : Index) : List Index :=
  match b.get? i with
  | some a => [a.addresses.1, a.addresses.2].filter fun j => (b.get? j).isSome
  | none => []

abbrev Users := IndexMap IndexSet

def Users.of (users : Users) (j : Index) : IndexSet := (users[j]?).getD ∅

def Users.add (users : Users) (user j : Index) : Users := users.insert j ((users.of j).insert user)

structure Sweep where
  users : Users
  alive : IndexSet
  /-- Atoms that nothing uses, the next one to remove first. -/
  due : List Index

namespace Sweep

def start (b : Buffer) (exempt : IndexSet) : Sweep :=
  let all := b.indexed.map Prod.fst
  let users := all.foldl (fun users i => (uses b i).foldl (·.add i ·) users) (∅ : Users)
  { users
    alive := .ofList all
    due := all.reverse.filter fun i => (users.of i).isEmpty && !exempt.contains i }

/-- Takes a user from an atom, which is due when it was the last one. -/
def release (exempt : IndexSet) (user : Index) (s : Sweep) (j : Index) : Sweep :=
  let left := (s.users.of j).erase user
  let idle := left.isEmpty && !exempt.contains j && s.alive.contains j
  { s with users := s.users.insert j left, due := if idle then j :: s.due else s.due }

def remove (b : Buffer) (exempt : IndexSet) (s : Sweep) (i : Index) : Sweep :=
  (uses b i).foldl (release exempt i) { s with alive := s.alive.erase i }

theorem length_uses_le (b : Buffer) (i : Index) : (uses b i).length ≤ 2 := by
  unfold uses
  split
  · exact List.length_filter_le _ _
  · exact Nat.zero_le _

theorem release_due_le (exempt : IndexSet) (user : Index) (s : Sweep) (j : Index) :
    (s.release exempt user j).due.length ≤ s.due.length + 1 := by
  unfold release
  dsimp only
  split
  · exact Nat.le_refl _
  · exact Nat.le_succ _

theorem foldl_release_le (exempt : IndexSet) (user : Index) (items : List Index) (s : Sweep) :
    (items.foldl (release exempt user) s).alive = s.alive ∧
      (items.foldl (release exempt user) s).due.length ≤ s.due.length + items.length := by
  induction items generalizing s with
  | nil => exact ⟨rfl, Nat.le_refl _⟩
  | cons j rest ih =>
    obtain ⟨same, bound⟩ := ih (s.release exempt user j)
    have first := release_due_le exempt user s j
    rw [List.foldl_cons, List.length_cons]
    exact ⟨same, by omega⟩

/-- A removal costs an atom and makes at most two more due. -/
theorem remove_lt (b : Buffer) (exempt : IndexSet) {s : Sweep} {i : Index} (alive : s.alive.contains i = true) :
    3 * (s.remove b exempt i).alive.size + (s.remove b exempt i).due.length <
      3 * s.alive.size + (s.due.length + 1) := by
  obtain ⟨same, bound⟩ := foldl_release_le exempt i (uses b i) { s with alive := s.alive.erase i }
  have few := length_uses_le b i
  have fewer : (s.alive.erase i).size + 1 = s.alive.size := by
    have nonempty : s.alive.size ≠ 0 := by
      intro none
      rw [Std.ExtTreeSet.eq_empty_iff_size_eq_zero.2 none, Std.ExtTreeSet.contains_empty] at alive
      cases alive
    rw [Std.ExtTreeSet.size_erase, if_pos alive]
    omega
  unfold remove
  rw [same]
  dsimp only at bound ⊢
  omega

/-- Removes what is due until nothing is; an atom may be due twice. -/
def run (b : Buffer) (exempt : IndexSet) : Sweep → IndexSet
  | ⟨_, alive, []⟩ => alive
  | ⟨users, alive, i :: due⟩ =>
    if alive.contains i then run b exempt (remove b exempt ⟨users, alive, due⟩ i)
    else run b exempt ⟨users, alive, due⟩
termination_by s => 3 * s.alive.size + s.due.length
decreasing_by
  · exact remove_lt b exempt (s := ⟨users, alive, due⟩) ‹_›
  · exact Nat.lt_succ_self _

end Sweep

def alive (b : Buffer) : Except Fault IndexSet := do
  let exempt ← exempt b
  return (Sweep.start b exempt).run b exempt

/-- Numbers the kept atoms from zero and removes the others. -/
def removalMap (b : Buffer) (kept : List Index) : Renumbering :=
  let removed := b.indexed.foldl (fun m (i, _) => m.remove i) ({} : Renumbering)
  kept.zipIdx.foldl (fun m (i, n) => m.set i (.ref n)) removed

/-- Removes dead atoms; says whether there were any. -/
def eliminate : Edit Bool := do
  if (← get).isEmpty then return false
  if !(← get).isAnalyzed then Buffer.analyze
  let kept := (← Edit.query alive).toList
  if kept.length = (← get).size then return false
  set (← Edit.query fun b => b.rebuild kept (removalMap b kept))
  return true

end ShaderForge.Optimizer
