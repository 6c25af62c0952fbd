import ShaderForge.Proofs.Linkage.Closure
import ShaderForge.Proofs.Source.Declarations
import ShaderForge.Proofs.Typing.Wide

/-!
Required extensions. What is printed is the visible atoms; those that have a type spelled out are marked,
so a wide type anywhere in print is found at a marked atom. Only numbers computed from literals, printed
inside other expressions, may be found nowhere.
-/

namespace ShaderForge

open Buffer Linkage

namespace Function

variable {f : Function}

/-- Whatever is reached from marked atoms through operands is a statement or is read by one. -/
theorem Prepared.forced_or_used (prepared : f.Prepared) (nonempty : f.buffer.size ≠ 0) :
    ∃ b : Buffer, b.atoms = f.buffer.atoms ∧ (∀ n, .ref n ∈ f.buffer.marked ↔ Liveness.Forced b n) ∧
      ∀ n, .ref n ∈ visibleAtoms f.buffer → Liveness.Forced b n ∨ Liveness.Used b n := by
  obtain ⟨raw, made⟩ := prepared.made
  have filled : raw.buffer.size ≠ 0 := by
    obtain ⟨_, _, _, atoms⟩ := prepared_of_prepare made
    unfold Buffer.size at nonempty ⊢
    rwa [← atoms]
  obtain ⟨_, types, hints, marked, args, returns, analyzed, live, _, _, rfl⟩ := (prepare_succeeds filled).1 made
  have found : ∀ n, .ref n ∈ marked ↔ Liveness.Forced (raw.buffer.withAnalysis types hints) n := by
    intro n
    rw [(Liveness.marks_of_mark live).mem_iff_forced (prepared.backward.of_atoms_eq rfl)]
    exact ⟨fun ⟨_, same, forced⟩ => by cases same; exact forced, fun forced => ⟨n, rfl, forced⟩⟩
  refine ⟨raw.buffer.withAnalysis types hints, rfl, found, fun n shown => ?_⟩
  let Reached (i : Index) : Prop := ∀ n, i = .ref n →
    Liveness.Forced (raw.buffer.withAnalysis types hints) n ∨ Liveness.Used (raw.buffer.withAnalysis types hints) n
  have marks : ∀ i ∈ marked, Reached i := by
    rintro i member n rfl
    exact Or.inl ((found n).1 member)
  refine visibleAtoms_least marks (fun m a reached present o operand => ?_) _ shown n rfl
  rintro n rfl
  exact Liveness.forced_or_used_of_uses (reached m rfl) ⟨a, present, operand⟩

/-- A visible atom that stands alone is marked, and so is every declaration that a visible atom names. -/
theorem Prepared.marked_of_shown (prepared : f.Prepared) {n : Nat} {a : Atom} (shown : .ref n ∈ visibleAtoms f.buffer)
    (found : f.buffer.atoms[n]? = some a) :
    (a.StandsAlone → .ref n ∈ f.buffer.marked) ∧ ∀ k, .ref k ∈ a.declares → .ref k ∈ f.buffer.marked := by
  have inside := (Array.getElem?_eq_some_iff.1 found).1
  obtain ⟨b, atoms, marked, reached⟩ := prepared.forced_or_used (Nat.ne_of_gt (Nat.zero_lt_of_lt inside))
  rw [← atoms] at found
  refine ⟨fun alone => (marked n).2 ?_, fun k declared => (marked k).2 ?_⟩
  · rcases reached n shown with forced | used
    · exact forced
    · exact .printed used found (Or.inr alone)
  · rcases reached n shown with forced | used
    · exact .declared forced found declared
    · by_cases own : Liveness.Printed b n a
      · exact .declared (.printed used found own) found declared
      · exact .carried used found own declared

end Function

namespace Extension

variable {f : Function} {n : Nat} {ty : Ty} {d : Data}

/-- A marked atom whose type is a 64-bit integer or an array of such. -/
def Seen (f : Function) : Prop :=
  ∃ n ty, .ref n ∈ f.buffer.marked ∧ f.buffer.table (.ref n) = some ty ∧ isWide ty = true

theorem isWide_of_data? (value : ty.data? = some (.prim .u64)) : isWide ty = true := by
  simp [isWide, Ty.prim?, value]

/-- A struct with a 64-bit integer inside has one in a field that is spelled out. -/
theorem seen_of_struct (prepared : f.Prepared) (typed : f.buffer.Typed) (wide : f.buffer.Wide d) :
    ∀ head, d = .struct head → head ∈ visibleAtoms f.buffer → Seen f := by
  have closed := visibleAtoms_useClosed prepared.backward
  induction wide with
  | number => nofun
  | @field head node fields ty d chain member answer value wide ih =>
    rintro _ ⟨⟩ shown
    have known := typed.typeOf_ok_iff.1 answer
    obtain ⟨n, item, down, next, rfl, found, d', value', kind⟩ := typed.ruled.chain_node chain member known
    obtain rfl : d = d' := Option.some.inj (value.symm.trans value')
    have here := closed.fields chain shown _ member
    rcases kind with ⟨_, rfl⟩ | ⟨linked, rfl⟩
    · cases wide
      exact ⟨n, ty, (prepared.marked_of_shown here found).1 trivial, known, isWide_of_data? value⟩
    · exact ih down rfl (closed n _ here found down (Atom.mem_operands.2 ⟨linked, Or.inl rfl⟩))

/-- A visible 64-bit integer, or an array of such or a reference to such, has its type spelled out at a
marked atom, or is computed from literals. -/
theorem seen_of_number (prepared : f.Prepared) (typed : f.buffer.Typed) (n : Nat)
    (shown : .ref n ∈ visibleAtoms f.buffer) (known : f.buffer.table (.ref n) = some ty)
    (wide : ty.content? = some (.prim .u64)) : Seen f ∨ f.buffer.FromLiterals n ∧ ty.bare = .prim .u64 := by
  have closed := visibleAtoms_useClosed prepared.backward
  have backward := prepared.backward
  induction n using Nat.strongRecOn generalizing ty with
  | ind n ih =>
    obtain ⟨a, found, value⟩ := typed.ruled.entry n ty known
    -- what the atom names first comes before it and is visible
    have first : ∀ {inner : Ty}, f.buffer.table a.addresses.1 = some inner → inner.content? = some (.prim .u64) →
        ∃ m, a.addresses.1 = .ref m ∧ (Seen f ∨ f.buffer.FromLiterals m ∧ inner.bare = .prim .u64) := by
      intro inner answer wide
      have early := backward.address_lt found (Or.inl rfl)
      have used : a.addresses.1.isNull = false → a.addresses.1 ∈ visibleAtoms f.buffer := fun given =>
        closed n a shown found _ (Atom.mem_operands.2 ⟨given, Or.inl rfl⟩)
      cases place : a.addresses.1 with
      | null =>
        rw [place] at answer
        cases answer
        cases wide
      | ref m =>
        rw [place] at answer early used
        exact ⟨m, rfl, ih m (Index.ref_lt_ref.1 early) (used rfl) answer wide⟩
    cases typed.ruled.wideBy backward value wide with
    | node value => exact Or.inl ⟨n, ty, (prepared.marked_of_shown shown found).1 trivial, known, isWide_of_data? value⟩
    | declared declares answer wide =>
      obtain ⟨m, place, seen | ⟨_, bare⟩⟩ := first answer wide
      · exact Or.inl seen
      · rw [place] at declares answer
        refine Or.inl ⟨m, _, (prepared.marked_of_shown shown found).2 m declares, answer, isWide_of_data? ?_⟩
        rw [Ty.data?, bare]
    | literal v => exact Or.inr ⟨.literal found, rfl⟩
    | @operation code x y some each =>
      by_cases seen : Seen f
      · exact Or.inl seen
      · refine Or.inr ⟨.operation found some fun m member => ?_, rfl⟩
        obtain ⟨inner, answer, bare⟩ := each _ member
        obtain ⟨k, same, below⟩ := backward n _ found _ member
        cases same
        have wide : inner.content? = Option.some (.prim .u64) := by rw [Ty.content?, bare]
        exact ((ih m below (closed n _ shown found _ member) answer wide).resolve_left seen).1
    | read whole answer inside =>
      obtain ⟨m, rfl, seen | ⟨source, bare⟩⟩ := first answer inside
      · exact Or.inl seen
      · exact Or.inr ⟨.read found whole source, by rw [bare]; rfl⟩
    | @field src head node field fields outer own answer carried chain member asked inside =>
      obtain ⟨m, item, down, next, rfl, there, d, value, _⟩ := typed.ruled.chain_node chain member asked
      have number : own.data? = some (.prim .u64) := by
        rw [value, ← inside, Ty.content?_of_data? value]
      cases src with
      | null =>
        cases answer
        cases carried
      | ref k =>
        have source := closed n _ shown found _ (Atom.mem_operands.2 ⟨rfl, Or.inl rfl⟩)
        obtain ⟨_, _, _, headed, _⟩ := typed.struct_head backward closed k source answer carried
        have here := closed.fields chain headed _ member
        exact Or.inl ⟨m, own, (prepared.marked_of_shown here there).1 trivial, asked, isWide_of_data? number⟩
    | @element src loc inner size answer bare =>
      have inside : inner.content? = some (.prim .u64) := by rw [Ty.content?, bare]
      obtain ⟨m, _, seen | ⟨_, bare'⟩⟩ := first answer inside
      · exact Or.inl seen
      · rw [bare] at bare'
        cases bare'

/-! ### What a unit requires -/

variable {u : Linkage} {stage : Stage} {e : Extension}

theorem mem_required : e ∈ required u stage ↔ e ∈ all ∧
    (e ∈ ofGlobals u.globals ∨ e ∈ ofStage stage u.control ∨ e ∈ ofAggregates u.aggregates.toList ∨
      ∃ f ∈ u.functions, e ∈ ofBuffer f.buffer) := by
  simp only [required, List.mem_filter, List.contains_iff_mem, List.mem_append, List.mem_flatMap, or_assoc]

theorem mem_all (e : Extension) : e ∈ all := by cases e <;> decide

theorem required_of_intrinsic {code : Intrinsic} {args : Index} (member : f ∈ u.functions)
    (found : f.buffer.atoms[n]? = some (.intrinsic code args)) (listed : ofIntrinsic? code = some e) :
    e ∈ required u stage := by
  refine mem_required.2 ⟨mem_all e, Or.inr (Or.inr (Or.inr ⟨f, member, ?_⟩))⟩
  rw [ofBuffer, List.mem_flatMap]
  exact ⟨_, mem_indexed.2 ⟨n, rfl, found⟩, List.mem_append_left _ (by simp [listed])⟩

theorem required_of_seen (member : f ∈ u.functions) (typed : f.buffer.Typed) (seen : Seen f) :
    int64 ∈ required u stage := by
  obtain ⟨n, ty, marked, known, wide⟩ := seen
  refine mem_required.2 ⟨mem_all _, Or.inr (Or.inr (Or.inr ⟨f, member, ?_⟩))⟩
  obtain ⟨a, found, _⟩ := typed.ruled.entry n ty known
  rw [ofBuffer, List.mem_flatMap]
  refine ⟨_, mem_indexed.2 ⟨n, rfl, found⟩, List.mem_append_right _ ?_⟩
  have here : f.buffer.isMarked (.ref n) = true := Std.ExtTreeSet.contains_iff_mem.2 marked
  simp [typed.typeOf_ok_iff.2 known, here, wide]

/-- Atoms that print a 64-bit integer: its literals, and what has a type that is about such or about a struct
with one inside. -/
inductive Needs64 (b : Buffer) (n : Nat) : Atom → Prop
  | literal (v : UInt64) : Needs64 b n (.literal (.u64 v))
  | typed {a : Atom} {ty : Ty} {d : Data} (answer : b.typeOf (.ref n) = .ok ty) (about : ty.content? = some d)
      (wide : b.Wide d) : Needs64 b n a

theorem required_or_fromLiterals (coherent : Coherent u) (member : f ∈ u.functions) {a : Atom}
    (found : f.buffer.atoms[n]? = some a) (shown : .ref n ∈ visibleAtoms f.buffer) (needs : Needs64 f.buffer n a) :
    int64 ∈ required u stage ∨ f.buffer.FromLiterals n := by
  have prepared := (coherent.placed f member).prepared
  cases needs with
  | literal => exact Or.inr (.literal found)
  | @typed _ ty d answer about wide =>
    have inside := (Array.getElem?_eq_some_iff.1 found).1
    have typed := prepared.typed (Nat.ne_of_gt (Nat.zero_lt_of_lt inside))
    have known := typed.typeOf_ok_iff.1 answer
    cases d with
    | prim p =>
      cases wide
      exact (seen_of_number prepared typed n shown known about).imp (required_of_seen member typed) And.left
    | struct head =>
      have closed := visibleAtoms_useClosed prepared.backward
      have carried := Ty.struct?_of_content? about
      obtain ⟨_, _, _, headed, _⟩ := typed.struct_head prepared.backward closed n shown known carried
      exact Or.inl (required_of_seen member typed (seen_of_struct prepared typed wide head rfl headed))

theorem exists_literal {P : Index → Prop} {b : Buffer} (closed : b.UseClosed P) (made : b.FromLiterals n)
    (reached : P (.ref n)) : ∃ m v, P (.ref m) ∧ b.atoms[m]? = some (.literal (.u64 v)) := by
  induction made with
  | literal found => exact ⟨_, _, reached, found⟩
  | read found _ _ ih => exact ih (closed _ _ reached found _ (Atom.mem_operands.2 ⟨rfl, Or.inl rfl⟩))
  | @operation n code x y found some each ih =>
    obtain ⟨o, rest, operands⟩ := List.exists_cons_of_ne_nil some
    have member : o ∈ (Atom.operation code x y).operands := operands ▸ List.mem_cons_self
    cases o with
    | null => cases (Atom.mem_operands.1 member).1
    | ref m => exact ih m member (closed _ _ reached found _ member)

/-- Required extensions cover what is printed, but for numbers computed from literals. The extension of every
intrinsic is required. That of 64-bit integers is required wherever one is printed, unless the atom is
computed from literals; it is required of every atom that needs it just when some other atom calls for it or
no 64-bit literal is printed at all. -/
theorem required_covers_printed {r : Registry} {entries : List FunctionId} (linked : link r entries = .ok u)
    (stage : Stage) :
    (∀ f ∈ u.functions, ∀ (n : Nat) code args e, f.buffer.atoms[n]? = some (Atom.intrinsic code args) →
      ofIntrinsic? code = some e → e ∈ required u stage) ∧
    (∀ f ∈ u.functions, ∀ (n : Nat) a, f.buffer.atoms[n]? = some a → .ref n ∈ visibleAtoms f.buffer →
      Needs64 f.buffer n a → int64 ∈ required u stage ∨ f.buffer.FromLiterals n) ∧
    ((∀ f ∈ u.functions, ∀ (n : Nat) a, f.buffer.atoms[n]? = some a → .ref n ∈ visibleAtoms f.buffer →
        Needs64 f.buffer n a → int64 ∈ required u stage) ↔
      int64 ∈ required u stage ∨ ∀ f ∈ u.functions, ∀ (n : Nat) v, f.buffer.atoms[n]? = some (Atom.literal (.u64 v)) →
        .ref n ∉ visibleAtoms f.buffer) := by
  have coherent := (linked_of_link linked).made.coherent
  have either : ∀ f ∈ u.functions, ∀ (n : Nat) a, f.buffer.atoms[n]? = some a → .ref n ∈ visibleAtoms f.buffer →
      Needs64 f.buffer n a → int64 ∈ required u stage ∨ f.buffer.FromLiterals n :=
    fun f member n a found shown needs => required_or_fromLiterals coherent member found shown needs
  refine ⟨fun f member n code args e found listed => required_of_intrinsic member found listed, either, ?_⟩
  constructor
  · intro covers
    by_cases needed : int64 ∈ required u stage
    · exact Or.inl needed
    · exact Or.inr fun f member n v found shown => needed (covers f member n _ found shown (.literal v))
  · rintro (needed | bare) f member n a found shown needs
    · exact needed
    · refine (either f member n a found shown needs).resolve_right fun made => ?_
      have closed := visibleAtoms_useClosed (coherent.placed f member).prepared.backward
      obtain ⟨m, v, reached, literal⟩ := exists_literal closed made shown
      exact bare f member m v literal reached

/-- A comparison of a 64-bit literal with itself, or of a parameter. -/
def compared (literal : Bool) : Registry :=
  let b := Buffer.ofContent (if literal then
      [.literal (.u64 1), .operation .less (.ref 0) (.ref 0), .ret (.ref 1)]
    else [.type .u64 .null .null, .qualifier (.ref 0) .parameter 0, .operation .less (.ref 1) (.ref 1),
      .ret (.ref 2)]) [] []
  (Registry.empty.register "f" b).2

theorem exists_function (r : Registry) (o : Options) (test : Linkage → String → Function → Bool)
    (passes : ((link r [0]).toOption.any fun u => (Glsl.generate u o).toOption.any fun text =>
      u.functions.any (test u text)) = true) :
    ∃ u text f, link r [0] = .ok u ∧ Glsl.generate u o = .ok text ∧ f ∈ u.functions ∧ test u text f = true := by
  obtain ⟨u, text, linked, printed, passes⟩ := Glsl.exists_source r [0] o (fun u text => u.functions.any (test u text)) passes
  obtain ⟨f, member, passes⟩ := List.any_eq_true.1 passes
  exact ⟨u, text, f, linked, printed, member, passes⟩

theorem compared_covered :
    ∃ u f, link (compared false) [0] = .ok u ∧ f ∈ u.functions ∧
      f.buffer.atoms[1]? = some (Atom.qualifier (.ref 0) .parameter 0) ∧ .ref 1 ∈ visibleAtoms f.buffer ∧
      Needs64 f.buffer 1 (.qualifier (.ref 0) .parameter 0) ∧ int64 ∈ required u .vertex := by
  obtain ⟨u, _, f, linked, _, member, passes⟩ := exists_function (compared false) {} (fun _ _ f =>
    decide (f.buffer.atoms[1]? = some (Atom.qualifier (.ref 0) .parameter 0) ∧
      (f.buffer.typeOf (.ref 1)).toOption = some (.prim .u64)) && (visibleAtoms f.buffer).contains (.ref 1))
    (by decide +kernel)
  obtain ⟨known, shown⟩ := Bool.and_eq_true_iff.1 passes
  obtain ⟨found, answer⟩ := of_decide_eq_true known
  have needs : Needs64 f.buffer 1 (.qualifier (.ref 0) .parameter 0) :=
    .typed (Except.toOption_eq_some_iff.1 answer) rfl .number
  have shown := Std.ExtTreeSet.contains_iff_mem.1 shown
  obtain ⟨_, covered, _⟩ := required_covers_printed linked .vertex
  refine ⟨u, f, linked, member, found, shown, needs, ?_⟩
  refine (covered f member 1 _ found shown needs).resolve_right fun made => ?_
  cases made with
  | literal there | read there | operation there =>
    rw [found] at there
    cases there

/-- A literal inside a comparison is printed, and the extension is not required. -/
theorem compared_not_covered :
    ∃ u f text, link (compared true) [0] = .ok u ∧ f ∈ u.functions ∧
      f.buffer.atoms[0]? = some (Atom.literal (.u64 1)) ∧ .ref 0 ∈ visibleAtoms f.buffer ∧
      int64 ∉ required u .vertex ∧ Glsl.generate u {} = .ok text ∧
      text = "#version 460\n\n\nbool f() \x7b\n    return (1ul < 1ul);\n\x7d\n" := by
  obtain ⟨u, text, f, linked, printed, member, passes⟩ := exists_function (compared true) {}
    (fun u text f => decide (f.buffer.atoms[0]? = some (Atom.literal (.u64 1)) ∧ int64 ∉ required u .vertex ∧
      text = "#version 460\n\n\nbool f() \x7b\n    return (1ul < 1ul);\n\x7d\n") &&
      (visibleAtoms f.buffer).contains (.ref 0)) (by decide +kernel)
  obtain ⟨known, shown⟩ := Bool.and_eq_true_iff.1 passes
  obtain ⟨found, narrow, same⟩ := of_decide_eq_true known
  exact ⟨u, f, text, linked, member, found, Std.ExtTreeSet.contains_iff_mem.1 shown, narrow, printed, same⟩

end Extension

end ShaderForge
