import ShaderForge.Proofs.Linkage.Wrappers
import ShaderForge.Proofs.Optimizer.Sharing
import ShaderForge.Source.Statement

/-!
Names of one variable. Different atoms can denote the same parameter or global: a placeholder stands
for its qualifier, a wrapper for what it wraps, and a global may be declared twice. What is recorded as
written are atoms, so an atom of a written variable is recorded just where something is written through
that very atom.
-/

namespace ShaderForge.Optimizer

open Buffer

variable {b : Buffer} {i j : Index} {written : IndexSet}

/-- What an assignable expression comes to: a parameter or a global. -/
inductive Variable where
  | parameter (position : Int32)
  | global (g : Global)
deriving DecidableEq

/-- The variable that generated code reads or writes for an atom. -/
inductive Denotes (b : Buffer) : Index → Variable → Prop
  | through {i src : Index} {a : Atom} {t : Variable} (found : b.get? i = some a)
      (read : a.through? = some src) (rest : Denotes b src t) : Denotes b i t
  | placeholder {i ty args : Index} {t : Variable} (found : b.get? i = some (.construct ty args .transient))
      (stands : ∃ underlying kind number, b.get? ty = some (.qualifier underlying kind number))
      (rest : Denotes b ty t) : Denotes b i t
  | parameter {i underlying : Index} {number : Int32}
      (found : b.get? i = some (.qualifier underlying .parameter number)) : Denotes b i (.parameter number)
  | global {i : Index} {g : Global} (resolved : Global.resolve? b i = some g) : Denotes b i (.global g)

def Root (b : Buffer) (j : Index) : Prop := ∃ a, b.get? j = some a ∧ a.through? = none

theorem exists_qualifier_of_resolve? {g : Global} (resolved : Global.resolve? b i = some g) :
    ∃ underlying kind number, b.get? i = some (.qualifier underlying kind number) := by
  unfold Global.resolve? at resolved
  rw [Global.resolveFrom] at resolved
  split at resolved
  · exact ⟨_, _, _, ‹_›⟩
  · cases resolved

theorem storageRun_of_root (root : Root b j) : StorageRun b.atoms j j := by
  obtain ⟨a, found, own⟩ := root
  cases j with
  | null => cases found
  | ref n => exact .here found own

/-- The walk to the storage of an atom ends at an atom that denotes the same variable. -/
theorem Denotes.storage {t : Variable} (denotes : Denotes b i t) :
    ∃ j, StorageRun b.atoms i j ∧ Root b j ∧ Denotes b j t := by
  have here : ∀ {j : Index} {a : Atom} {t : Variable}, b.get? j = some a → a.through? = none →
      Denotes b j t → ∃ k, StorageRun b.atoms j k ∧ Root b k ∧ Denotes b k t :=
    fun found own denotes => ⟨_, storageRun_of_root ⟨_, found, own⟩, ⟨_, found, own⟩, denotes⟩
  induction denotes with
  | @through i src a t found read rest ih =>
    obtain ⟨j, run, root, denotes⟩ := ih
    cases i with
    | null => cases found
    | ref n => exact ⟨j, .step found read run, root, denotes⟩
  | placeholder found stands rest => exact here found rfl (.placeholder found stands rest)
  | parameter found => exact here found rfl (.parameter found)
  | global resolved =>
    obtain ⟨underlying, kind, number, found⟩ := exists_qualifier_of_resolve? resolved
    exact here found rfl (.global resolved)

/-! ### What generated code assigns to -/

def spelled (s : Statement.Scope) (phantom : Bool) : Variable → String
  | .parameter position => Naming.argument position.toInt.toNat
  | .global g =>
    match g with
    | .uniform _ | .buffer _ | .pushConstant => s.dialect.blockMember (s.dialect.global g) phantom
    | g => s.dialect.global g

section

variable {s : Statement.Scope} {t : Variable} {text : String}

theorem qualifier_spelled {underlying : Index} {kind : Qualifier} {number : Int32}
    (found : s.buffer.get? i = some (.qualifier underlying kind number)) (denotes : Denotes s.buffer i t)
    (printed : s.qualifier i kind number = .ok text) : ∃ phantom, text = spelled s phantom t := by
  unfold Statement.Scope.qualifier at printed
  cases denotes with
  | through found' read =>
    rw [found] at found'
    cases found'
    cases read
  | placeholder found' =>
    rw [found] at found'
    cases found'
  | parameter found' =>
    rw [found] at found'
    cases found'
    cases printed
    exact ⟨false, rfl⟩
  | @global _ g resolved =>
    by_cases parameter : kind = .parameter
    · subst parameter
      rw [Linkage.resolve?_of_resourceOf (Linkage.resourceOf_of_plain found rfl)] at resolved
      cases resolved
    · rw [if_neg parameter] at printed
      simp only [resolved] at printed
      cases g with
      | uniform | buffer | pushConstant =>
        obtain ⟨ty, _, printed⟩ := Except.bind_ok printed
        split at printed
        all_goals
          obtain ⟨phantom, _, printed⟩ := Except.bind_ok printed
          cases printed
          exact ⟨phantom, rfl⟩
      | _ =>
        cases printed
        exact ⟨false, rfl⟩

theorem place_qualifier {depth : Nat} {underlying : Index} {kind : Qualifier} {number : Int32}
    (found : s.buffer.get? i = some (.qualifier underlying kind number)) (unbound : s.locals[i]? = none)
    (printed : (s.printers depth).place i = .ok text) : s.qualifier i kind number = .ok text := by
  have there : s.atom i = .ok (.qualifier underlying kind number) :=
    TargetFault.ofFault_ok_iff.2 (atom_ok_iff.2 found)
  cases depth with
  | zero => cases printed
  | succ depth =>
    simp only [Statement.Scope.printers, Statement.Scope.placeOf, there, Except.ok_bind,
      Statement.Scope.valueOf, unbound, Statement.Scope.expression] at printed
    exact printed

/-- What an atom that is no read prints to be assigned to is the variable that it denotes. -/
theorem place_spelled {depth : Nat} (root : Root s.buffer j) (denotes : Denotes s.buffer j t)
    (unbound : ∀ i underlying kind number, s.buffer.get? i = some (.qualifier underlying kind number) →
      s.locals[i]? = none)
    (printed : (s.printers depth).place j = .ok text) : ∃ phantom, text = spelled s phantom t := by
  obtain ⟨a, there, own⟩ := root
  have declared : ∀ {i underlying : Index} {kind : Qualifier} {number : Int32} {depth : Nat},
      s.buffer.get? i = some (.qualifier underlying kind number) → Denotes s.buffer i t →
      (s.printers depth).place i = .ok text → ∃ phantom, text = spelled s phantom t :=
    fun found denotes printed =>
      qualifier_spelled found denotes (place_qualifier found (unbound _ _ _ _ found) printed)
  cases denotes with
  | through found read =>
    rw [there] at found
    cases found
    rw [own] at read
    cases read
  | @placeholder _ ty args _ found stands rest =>
    obtain ⟨underlying, kind, number, below⟩ := stands
    have here : s.atom j = .ok (.construct ty args .transient) :=
      TargetFault.ofFault_ok_iff.2 (atom_ok_iff.2 found)
    have stands : s.isPlaceholder ty .transient = true := by
      simp [Member.isPlaceholder, below]
    cases depth with
    | zero => cases printed
    | succ depth =>
      simp only [Statement.Scope.printers, Statement.Scope.placeOf, here, Except.ok_bind, stands, if_true] at printed
      exact declared below rest printed
  | parameter found => exact declared found (.parameter found) printed
  | global resolved =>
    obtain ⟨underlying, kind, number, found⟩ := exists_qualifier_of_resolve? resolved
    exact declared found (.global resolved) printed

end

/-! ### What is recorded as written -/

/-- A store's destination, or the target of a writing intrinsic. -/
inductive Destination (b : Buffer) : Index → Prop
  | store {n : Nat} {d src : Index} (found : b.atoms[n]? = some (.store d src)) : Destination b d
  | intrinsic {n : Nat} {code : Intrinsic} {args d : Index} {rest : List Index}
      (found : b.atoms[n]? = some (.intrinsic code args)) (writes : code = .atomicAdd ∨ code = .imageStore)
      (items : b.expandList args = .ok (d :: rest)) : Destination b d

/-- An expression through which something is written: a destination, or an argument of a call. -/
inductive Exposed (b : Buffer) : Index → Prop
  | destination {d : Index} (writes : Destination b d) : Exposed b d
  | argument {n : Nat} {callee : FunctionId} {ty args item : Index} {items : List Index}
      (found : b.atoms[n]? = some (.call callee ty args)) (listed : b.expandList args = .ok items)
      (member : item ∈ items) : Exposed b item

theorem exposed_iff : Exposed b i ↔ ∃ a ∈ b.atoms.toList, ∃ targets, writtenThrough b a = .ok targets ∧ i ∈ targets := by
  have listed : ∀ {n : Nat} {a : Atom}, b.atoms[n]? = some a → a ∈ b.atoms.toList :=
    fun found => Array.mem_toList_iff.2 (Array.mem_of_getElem? found)
  constructor
  · rintro (⟨⟨found⟩ | ⟨found, writes, items⟩⟩ | ⟨found, items, member⟩)
    · exact ⟨_, listed found, _, rfl, List.mem_singleton_self _⟩
    · refine ⟨_, listed found, [i], ?_, List.mem_singleton_self _⟩
      rcases writes with rfl | rfl <;> simp [writtenThrough, items]
    · exact ⟨_, listed found, _, items, member⟩
  · rintro ⟨a, member, targets, through, inside⟩
    obtain ⟨n, found⟩ := Array.mem_iff_getElem?.1 (Array.mem_toList_iff.1 member)
    have first : ∀ {code : Intrinsic} {args : Index}, a = .intrinsic code args →
        code = .atomicAdd ∨ code = .imageStore →
        (do return (← b.expandList args).take 1) = Except.ok targets → Exposed b i := by
      intro code args same writes given
      obtain ⟨items, expanded, taken⟩ := Except.bind_ok given
      cases taken
      cases items with
      | nil => simp at inside
      | cons item rest =>
        obtain rfl : i = item := by simpa using inside
        exact .destination (.intrinsic (same ▸ found) writes expanded)
    unfold writtenThrough at through
    split at through
    · cases through
      exact .destination (.store (List.mem_singleton.1 inside ▸ found))
    · exact .argument found through inside
    · exact first rfl (Or.inl rfl) through
    · exact first rfl (Or.inr rfl) through
    · cases through
      simp at inside

theorem mem_written_iff (backward : b.Backward) (known : writtenStorage b = .ok written) :
    j ∈ written ↔ ∃ e, Exposed b e ∧ StorageRun b.atoms e j := by
  rw [(writtenStorage_ok known).2]
  simp only [exposed_iff, storage_ok_iff backward, Writes]
  tauto

/-- Every atom of a written variable is recorded under its storage. -/
def Sound (b : Buffer) (written : IndexSet) : Prop :=
  ∀ d r t, Destination b d → Denotes b d t → Denotes b r t → ∃ j, b.storage r = .ok j ∧ j ∈ written

def Unaliased (b : Buffer) : Prop :=
  ∀ d t, Destination b d → Denotes b d t → ∀ j j', Root b j → Root b j' → Denotes b j t → Denotes b j' t → j = j'

/-- What is recorded as written, of a valid buffer: where all that is written through has storage, just
that storage. It covers all atoms of the written variables exactly where something is written through
each of their names; so it does where they have one name each. Each name is printed as its variable. -/
theorem writtenStorage_sound_iff (valid : b.validate = .ok ()) :
    ((∃ written, writtenStorage b = .ok written) ↔ Writable b) ∧
    (∀ (s : Statement.Scope) depth j t text, s.buffer = b → Root b j → Denotes b j t →
      (∀ i underlying kind number, b.get? i = some (.qualifier underlying kind number) → s.locals[i]? = none) →
      (s.printers depth).place j = .ok text → ∃ phantom, text = spelled s phantom t) ∧
    ∀ written, writtenStorage b = .ok written →
      (∀ j, j ∈ written ↔ ∃ e, Exposed b e ∧ b.storage e = .ok j) ∧
      (Sound b written ↔ ∀ d t, Destination b d → Denotes b d t → ∀ j, Root b j → Denotes b j t →
        ∃ e, Exposed b e ∧ b.storage e = .ok j) ∧
      (Unaliased b → Sound b written) := by
  have backward := backward_of_validate valid
  refine ⟨⟨?_, exists_writtenStorage⟩, ?_, fun written known => ?_⟩
  · rintro ⟨written, known⟩
    exact (writtenStorage_ok known).1
  · rintro s depth j t text rfl root denotes unbound printed
    exact place_spelled root denotes unbound printed
  have recorded := fun j => mem_written_iff (j := j) backward known
  simp only [storage_ok_iff backward]
  refine ⟨recorded, ⟨fun sound d t writes denotes j root other => ?_, fun each d r t writes denotes other => ?_⟩,
    fun unaliased d r t writes denotes other => ?_⟩
  · -- a name is its own storage, so soundness puts the name itself into the set
    obtain ⟨k, stored, member⟩ := sound d j t writes denotes other
    rw [(storage_ok_iff backward).2 (storageRun_of_root root)] at stored
    cases stored
    exact (recorded j).1 member
  · obtain ⟨j, run, root, same⟩ := other.storage
    exact ⟨j, (storage_ok_iff backward).2 run, (recorded j).2 (each d t writes denotes j root same)⟩
  · -- the walks from the reader and from the destination end at the only name there is
    obtain ⟨j, run, root, same⟩ := other.storage
    obtain ⟨k, there, root', same'⟩ := denotes.storage
    obtain rfl := unaliased d t writes denotes k j root' root same' same
    exact ⟨k, (storage_ok_iff backward).2 run, (recorded k).2 ⟨d, .destination writes, there⟩⟩

/-- Atoms that can denote a variable without reading another one. -/
def isName : Atom → Bool
  | .qualifier .. | .construct .. => true
  | _ => false

theorem Denotes.isName {t : Variable} (denotes : Denotes b j t) (root : Root b j) :
    ∃ a, b.get? j = some a ∧ Optimizer.isName a = true := by
  cases denotes with
  | through found read =>
    obtain ⟨a, there, own⟩ := root
    rw [there] at found
    cases found
    rw [own] at read
    cases read
  | placeholder found | parameter found => exact ⟨_, found, rfl⟩
  | global resolved =>
    obtain ⟨underlying, kind, number, found⟩ := exists_qualifier_of_resolve? resolved
    exact ⟨_, found, rfl⟩

theorem unaliased_of_one (k : Index) (one : ∀ item ∈ b.indexed, isName item.2 = true → item.1 = k) : Unaliased b := by
  have only : ∀ {j : Index} {t : Variable}, Root b j → Denotes b j t → j = k := by
    intro j t root denotes
    obtain ⟨a, found, name⟩ := denotes.isName root
    cases j with
    | null => cases found
    | ref n => exact one (.ref n, a) (mem_indexed.2 ⟨n, rfl, found⟩) name
  intro d t _ _ j j' root root' denotes denotes'
  rw [only root denotes, only root' denotes']

/-- A parameter read, written and read again. -/
def rewritten : Buffer :=
  .ofContent [.type .i32 .null .null, .qualifier (.ref 0) .parameter 0, .load (.ref 1) (-1), .literal (.i32 5),
    .store (.ref 1) (.ref 3), .load (.ref 1) (-1), .ret (.ref 5)] [] []

theorem rewritten_sound : ∃ written, writtenStorage rewritten = .ok written ∧ .ref 1 ∈ written ∧ Sound rewritten written := by
  have valid : rewritten.validate = .ok () := by
    have sound : rewritten.defect? = none := by decide +kernel
    rw [validate, sound]
  have recorded : ((writtenStorage rewritten).toOption.any fun written => written.contains (.ref 1)) = true := by
    decide +kernel
  obtain ⟨written, known, member⟩ := (Option.any_eq_true _ _).1 recorded
  rw [Except.toOption_eq_some_iff] at known
  refine ⟨written, known, Std.ExtTreeSet.contains_iff_mem.1 member, ?_⟩
  exact ((writtenStorage_sound_iff valid).2.2 written known).2.2 (unaliased_of_one (.ref 1) (by decide +kernel))

/-- A parameter read, written through its placeholder and read again. -/
def bypassed : Buffer :=
  .ofContent [.type .i32 .null .null, .qualifier (.ref 0) .parameter 0, .load (.ref 1) (-1),
    .construct (.ref 1) .null .transient, .literal (.i32 5), .store (.ref 3) (.ref 4), .load (.ref 1) (-1),
    .ret (.ref 6)] [] []

/-- The placeholder is recorded, the parameter is not. -/
theorem bypassed_not_sound : bypassed.validate = .ok () ∧
    ∃ written, writtenStorage bypassed = .ok written ∧ ¬ Sound bypassed written := by
  have valid : bypassed.validate = .ok () := by
    have sound : bypassed.defect? = none := by decide +kernel
    rw [validate, sound]
  have unrecorded : ((writtenStorage bypassed).toOption.any fun written => !written.contains (.ref 1)) = true := by
    decide +kernel
  obtain ⟨written, known, missing⟩ := (Option.any_eq_true _ _).1 unrecorded
  rw [Except.toOption_eq_some_iff] at known
  refine ⟨valid, written, known, fun sound => ?_⟩
  have parameter : Denotes bypassed (.ref 1) (.parameter 0) := .parameter rfl
  obtain ⟨j, stored, member⟩ := sound (.ref 3) (.ref 2) (.parameter 0) (.store (n := 5) rfl)
    (.placeholder rfl ⟨_, _, _, rfl⟩ parameter) (.through rfl rfl parameter)
  have run : StorageRun bypassed.atoms (.ref 2) (.ref 1) := .step rfl rfl (storageRun_of_root ⟨_, rfl, rfl⟩)
  rw [(storage_ok_iff (backward_of_validate valid)).2 run] at stored
  cases stored
  rw [← Std.ExtTreeSet.contains_iff_mem] at member
  simp [member] at missing

end ShaderForge.Optimizer
