import ShaderForge.Native.Lowering
import ShaderForge.Proofs.Blocks.Grammar
import ShaderForge.Proofs.Buffer.Addresses
import ShaderForge.Proofs.Effects

/-!
Generators and their markers. Text keeps the depth of its lines, native code a stack of blocks.
Either moves at markers only, whatever else is printed or lowered in between, so the markers of a
function decide whether a generator is content with its blocks.
-/

namespace ShaderForge

/-- Defects of the block structure. -/
def Defect.isBlock : Defect → Bool
  | .blockLeftOpen _ | .closesNothing .. | .outsideLoop .. | .noConditional .. => true
  | _ => false

/-- The kind of a marker. -/
def Atom.marker? : Atom → Option BranchKind
  | .branch kind _ _ => some kind
  | _ => none

def Buffer.marker? (b : Buffer) (i : Index) : Option BranchKind := (b.get? i).bind Atom.marker?

theorem Buffer.branch_of_marker {b : Buffer} {i : Index} {kind : BranchKind}
    (found : b.marker? i = some kind) : ∃ cond target, b.get? i = some (.branch kind cond target) := by
  obtain ⟨a, present, marks⟩ := Option.bind_eq_some_iff.1 found
  cases a with
  | branch kind' cond target =>
    cases marks
    exact ⟨cond, target, present⟩
  | _ => cases marks

theorem Member.atom_ok_iff {m : Member} {i : Index} {a : Atom} :
    m.atom i = .ok a ↔ m.buffer.get? i = some a :=
  TargetFault.ofFault_ok_iff.trans Buffer.atom_ok_iff

namespace Blocks

def BlockFault {α : Type} (x : Except TargetFault α) : Prop :=
  ∃ defect snapshot, x = .error (.link (.ir (.structural defect snapshot))) ∧ defect.isBlock = true

theorem BlockFault.bind {α β : Type} {x : Except TargetFault α} (fault : BlockFault x)
    (k : α → Except TargetFault β) : BlockFault (x >>= k) := by
  obtain ⟨defect, snapshot, rfl, block⟩ := fault
  exact ⟨defect, snapshot, rfl, block⟩

theorem blockFault_defect {α : Type} (m : Member) {d : Defect} (block : d.isBlock = true) :
    BlockFault (m.defect d : Except TargetFault α) :=
  ⟨d, m.buffer, rfl, block⟩

theorem BlockFault.ne_ok {α : Type} {x : Except TargetFault α} (fault : BlockFault x) (a : α) :
    x ≠ .ok a := by
  obtain ⟨_, _, rfl, _⟩ := fault
  nofun

/-- A generator that goes through the atoms of a function. Values are generated from what it
remembers of earlier atoms. -/
structure Generator (σ μ : Type) where
  act : σ → Index → Except TargetFault σ
  memory : σ → μ
  start : μ → σ
  memory_start : ∀ m, memory (start m) = m
  marker? : Index → Option BranchKind
  ready : μ → Index → Prop

/-- Every atom can be generated after those before it: the conditions of markers, and whatever is
no marker. Whether the markers nest is left open. -/
inductive Supported {σ μ : Type} (g : Generator σ μ) : μ → List Index → Prop
  | nil (memory : μ) : Supported g memory []
  | marker {memory : μ} {i : Index} {kind : BranchKind} {rest : List Index}
      (found : g.marker? i = some kind) (ready : g.ready memory i) (later : Supported g memory rest) :
      Supported g memory (i :: rest)
  | plain {memory : μ} {i : Index} {st : σ} {rest : List Index} (other : g.marker? i = none)
      (done : g.act (g.start memory) i = .ok st) (later : Supported g (g.memory st) rest) :
      Supported g memory (i :: rest)

/-- Where one computation succeeds, so does another, with a result in relation to its own. -/
def Mirrors {ε σ : Type} (R : σ → σ → Prop) (x y : Except ε σ) : Prop :=
  ∀ a, x = .ok a → ∃ b, y = .ok b ∧ R a b

namespace Mirrors

variable {ε σ α : Type} {R : σ → σ → Prop}

theorem ok {a b : σ} (related : R a b) : Mirrors R (.ok a : Except ε σ) (.ok b) := by
  rintro _ ⟨⟩
  exact ⟨b, rfl, related⟩

theorem error (e : ε) (y : Except ε σ) : Mirrors R (.error e) y := nofun

theorem bind {x : Except ε α} {k k' : α → Except ε σ} (each : ∀ a, x = .ok a → Mirrors R (k a) (k' a)) :
    Mirrors R (x >>= k) (x >>= k') := by
  cases x with
  | error e => exact nofun
  | ok a => exact each a rfl

theorem ite {c : Prop} [Decidable c] {x x' y y' : Except ε σ} (first : Mirrors R x x')
    (second : Mirrors R y y') : Mirrors R (if c then x else y) (if c then x' else y') := by
  split
  · exact first
  · exact second

end Mirrors

/-- What a generator keeps of the blocks moves at markers, and at nothing else. -/
structure Tracks {σ μ τ : Type} (g : Generator σ μ) (view : σ → τ) (move : τ → BranchKind → Option τ) :
    Prop where
  plain : ∀ st st' i, g.marker? i = none → g.memory st = g.memory st' →
    Mirrors (fun a b => g.memory a = g.memory b ∧ view b = view st') (g.act st i) (g.act st' i)
  moves : ∀ st i kind next, g.marker? i = some kind → g.ready (g.memory st) i →
    move (view st) kind = some next →
    ∃ st', g.act st i = .ok st' ∧ g.memory st' = g.memory st ∧ view st' = next
  stops : ∀ st i kind, g.marker? i = some kind → g.ready (g.memory st) i → move (view st) kind = none →
    BlockFault (g.act st i)
  asks : ∀ st i kind st', g.marker? i = some kind → g.act st i = .ok st' → g.ready (g.memory st) i

section

variable {σ μ τ : Type} {g : Generator σ μ} {view : σ → τ} {move : τ → BranchKind → Option τ}

/-- Over a whole run, what is kept of the blocks is what the markers make of it. -/
theorem Tracks.run (tracks : Tracks g view move) {items : List Index} {st : σ}
    (supported : Supported g (g.memory st) items) :
    (∀ next, (items.filterMap g.marker?).foldlM move (view st) = some next →
      ∃ st', items.foldlM g.act st = .ok st' ∧ view st' = next) ∧
    ((items.filterMap g.marker?).foldlM move (view st) = none → BlockFault (items.foldlM g.act st)) := by
  induction items generalizing st with
  | nil =>
    refine ⟨?_, nofun⟩
    rintro _ ⟨⟩
    exact ⟨st, rfl, rfl⟩
  | cons i rest ih =>
    rw [List.foldlM_cons]
    cases supported with
    | plain other done later =>
      obtain ⟨st', act, memory, same⟩ := tracks.plain _ st i other (g.memory_start _) _ done
      rw [memory] at later
      rw [List.filterMap_cons_none other, act, ← same]
      exact ih later
    | @marker _ _ kind _ found ready later =>
      rw [List.filterMap_cons_some found, List.foldlM_cons]
      cases moved : move (view st) kind with
      | none => exact ⟨nofun, fun _ => (tracks.stops st i kind found ready moved).bind _⟩
      | some next =>
        obtain ⟨st', act, memory, rfl⟩ := tracks.moves st i kind next found ready moved
        rw [← memory] at later
        rw [act]
        exact ih later

theorem Tracks.supported (tracks : Tracks g view move) {items : List Index} {st last : σ}
    (run : items.foldlM g.act st = .ok last) : Supported g (g.memory st) items := by
  induction items generalizing st with
  | nil => exact .nil _
  | cons i rest ih =>
    obtain ⟨st', act, run⟩ := Except.bind_ok run
    have later := ih run
    cases found : g.marker? i with
    | none =>
      obtain ⟨other, alone, memory, _⟩ := tracks.plain st _ i found (g.memory_start _).symm _ act
      rw [memory] at later
      exact .plain found alone later
    | some kind =>
      have ready := tracks.asks st i kind st' found act
      cases moved : move (view st) kind with
      | none => exact absurd act ((tracks.stops st i kind found ready moved).ne_ok st')
      | some next =>
        obtain ⟨_, same, memory, _⟩ := tracks.moves st i kind next found ready moved
        cases act.symm.trans same
        rw [memory] at later
        exact .marker found ready later

/-- Something is done exactly when a condition holds; else the blocks are at fault. -/
structure Decides {α : Type} (x : Except TargetFault α) (accepted : Prop) : Prop where
  done : accepted → ∃ a, x = .ok a
  fault : ¬ accepted → BlockFault x

theorem Decides.fault_iff {α : Type} {x : Except TargetFault α} {accepted : Prop}
    (decides : Decides x accepted) : BlockFault x ↔ ¬ accepted := by
  refine ⟨fun fault holds => ?_, decides.fault⟩
  obtain ⟨a, ok⟩ := decides.done holds
  exact fault.ne_ok a ok

theorem Decides.done_iff {α : Type} {x : Except TargetFault α} {accepted : Prop}
    (decides : Decides x accepted) : (∃ a, x = .ok a) ↔ accepted := by
  refine ⟨fun ⟨a, ok⟩ => ?_, decides.done⟩
  by_contra refused
  exact (decides.fault refused).ne_ok a ok

/-- Where all else can be generated, the markers decide, if the end is a matter of the open blocks. -/
theorem Tracks.decides (tracks : Tracks g view move) {items : List Index} {st : σ} {last : τ} {α : Type}
    {finish : σ → Except TargetFault α} (supported : Supported g (g.memory st) items)
    (closed : ∀ st', view st' = last → ∃ a, finish st' = .ok a)
    (unclosed : ∀ st', view st' ≠ last → BlockFault (finish st')) :
    Decides (items.foldlM g.act st >>= finish)
      ((items.filterMap g.marker?).foldlM move (view st) = some last) := by
  obtain ⟨moves, stops⟩ := tracks.run supported
  constructor
  · intro reached
    obtain ⟨st', run, same⟩ := moves last reached
    rw [run]
    exact closed st' same
  · intro missed
    cases moved : (items.filterMap g.marker?).foldlM move (view st) with
    | none => exact (stops moved).bind _
    | some next =>
      obtain ⟨st', run, rfl⟩ := moves next moved
      rw [run]
      refine unclosed st' fun same => missed ?_
      rw [moved, same]

end

end Blocks

/-! ### Text -/

namespace Statement

open Blocks

def generator (s : Scope) : Generator State (IndexMap String) where
  act := statement s
  memory := State.locals
  start locals := { locals }
  memory_start _ := rfl
  marker? := s.buffer.marker?
  ready locals i := ∀ kind cond target, s.buffer.get? i = some (.branch kind cond target) →
    kind.hasCondition = true → ∃ text, Scope.value { s with locals } cond = .ok text

section

variable {s : Scope} {st st' : State} {i : Index} (same : st.locals = st'.locals)
include same

/-- The text of an atom other than a marker stands at the depth there is, and leaves it. -/
abbrev AtDepth (st' : State) : State → State → Prop :=
  fun a b => a.locals = b.locals ∧ b.depth = st'.depth

theorem declare_plain (d : Dialect) (ty : String) (init : Option String) :
    AtDepth st' (st.declare d i ty init) (st'.declare d i ty init) := by
  simp [AtDepth, State.declare, State.line, same]

theorem bindLocal_plain : Mirrors (AtDepth st') (bindLocal s st i) (bindLocal s st' i) := by
  unfold bindLocal
  exact .bind fun _ _ => .bind fun ty _ => .bind fun init _ => .ok (declare_plain same _ ty _)

theorem effect_plain : Mirrors (AtDepth st') (effect s st i) (effect s st' i) := by
  unfold effect
  exact .bind fun _ _ => .ite (.bind fun _ _ => .ok ⟨same, rfl⟩) (bindLocal_plain same)

theorem statement_plain (other : s.buffer.marker? i = none) :
    Mirrors (AtDepth st') (statement s st i) (statement s st' i) := by
  unfold statement
  rw [same]
  refine .bind fun a found => ?_
  cases a with
  | branch kind cond target =>
    rw [Buffer.marker?, Member.atom_ok_iff.1 found] at other
    cases other
  | qualifier | type | list => exact .ok ⟨same, rfl⟩
  | literal | swizzle | operation | load | access => exact bindLocal_plain same
  | store dst src => exact .bind fun _ _ => .bind fun _ _ => .ok ⟨same, rfl⟩
  | ret value =>
    cases value with
    | null => exact .ok ⟨same, rfl⟩
    | ref n => exact .bind fun _ _ => .ok ⟨same, rfl⟩
  | intrinsic => exact .ite (.ok ⟨same, rfl⟩) (effect_plain same)
  | call => exact effect_plain same
  | construct ty args mode =>
    cases mode with
    | transient => exact .ok ⟨same, rfl⟩
    | normal =>
      cases args with
      | ref n => exact bindLocal_plain same
      | null =>
        refine .bind fun own _ => ?_
        cases own with
        | reference => exact bindLocal_plain same
        | _ => exact .bind fun ty _ => .ok (declare_plain same _ ty _)

end

variable {s : Scope} {st : State} {i : Index} {kind : BranchKind}

theorem statement_branch {cond target : Index} (found : s.buffer.get? i = some (.branch kind cond target)) :
    statement s st i = branch { s with locals := st.locals } st i kind cond := by
  have atom : Member.atom s.toMember i = .ok (.branch kind cond target) := Member.atom_ok_iff.2 found
  unfold statement
  simp only [atom]
  rfl

/-- A marker is printed, unless it closes a block where none is open. -/
theorem statement_marker {text : String} {cond target : Index}
    (found : s.buffer.get? i = some (.branch kind cond target))
    (condition : (if kind.hasCondition then Scope.value { s with locals := st.locals } cond else pure "") =
      .ok text) :
    statement s st i =
      if closes kind && decide (st.depth ≤ 1) then s.defect (.closesNothing kind i)
      else
        let outer := if closes kind then { st with depth := st.depth - 1 } else st
        let line := outer.line (branchText kind text)
        .ok (if kind.opens then { line with depth := line.depth + 1 } else line) := by
  rw [statement_branch found]
  unfold branch
  by_cases asks : kind.hasCondition = true
  · rw [if_pos asks] at condition
    rw [if_pos asks, condition]
    rfl
  · rw [if_neg asks] at condition
    cases condition
    rw [if_neg asks]
    rfl

theorem exists_condition (ready : (generator s).ready st.locals i) {cond target : Index}
    (found : s.buffer.get? i = some (.branch kind cond target)) :
    ∃ text, (if kind.hasCondition then Scope.value { s with locals := st.locals } cond else pure "") =
      .ok text := by
  by_cases asks : kind.hasCondition = true
  · simp only [asks, ↓reduceIte]
    exact ready kind cond target found asks
  · simp only [asks, Bool.false_eq_true, ↓reduceIte]
    exact ⟨"", rfl⟩

theorem generator_tracks (s : Scope) : Tracks (generator s) State.depth climb where
  plain _ _ _ other same := statement_plain same other
  moves st i kind next found ready moved := by
    obtain ⟨cond, target, present⟩ := Buffer.branch_of_marker found
    obtain ⟨text, condition⟩ := exists_condition ready present
    have printed := statement_marker present condition
    unfold climb at moved
    split at moved
    · cases moved
    · rename_i free
      rw [if_neg free] at printed
      cases moved
      refine ⟨_, printed, ?_, ?_⟩ <;> cases kind <;> rfl
  stops st i kind found ready moved := by
    obtain ⟨cond, target, present⟩ := Buffer.branch_of_marker found
    obtain ⟨text, condition⟩ := exists_condition ready present
    have printed := statement_marker present condition
    unfold climb at moved
    split at moved
    · rename_i stuck
      rw [if_pos stuck] at printed
      change BlockFault (statement s st i)
      rw [printed]
      exact blockFault_defect _ rfl
    · cases moved
  asks st i kind st' found printed := by
    intro kind' cond target present asks
    change statement s st i = .ok st' at printed
    rw [statement_branch present] at printed
    simp only [branch, asks, ↓reduceIte] at printed
    obtain ⟨text, condition, _⟩ := Except.bind_ok printed
    exact ⟨text, condition⟩

end Statement

/-! ### Native code -/

namespace Native

open Blocks

def generator (s : Scope) : Generator State (IndexMap (List Prim)) where
  act := statement s
  memory := State.slots
  start slots := { slots }
  memory_start _ := rfl
  marker? := s.buffer.marker?
  ready slots i := ∀ kind cond target, s.buffer.get? i = some (.branch kind cond target) →
    kind.hasCondition = true → ∃ e, Scope.condition { s with slots } cond = .ok e

/-- The block that a frame stands for. -/
def Frame.block : Frame → Block
  | .conditional _ _ (some _) => .arm
  | .conditional _ _ none => .last
  | .loop .. => .loop

def State.blocks (st : State) : List Block := st.frames.map Frame.block

section

variable {s : Scope} {st st' : State} {i : Index} (same : st.slots = st'.slots)
include same

/-- The code of an atom other than a marker stands in the blocks there are, and leaves them. -/
abbrev InBlocks (st' : State) : State → State → Prop :=
  fun a b => a.slots = b.slots ∧ b.blocks = st'.blocks

theorem bind_plain (value : Expr) : Mirrors (InBlocks st') (st.bind s i value) (st'.bind s i value) := by
  unfold State.bind
  refine .bind fun scalars _ => .ite (.error _ _) (.ok ⟨?_, rfl⟩)
  simp only [same]

theorem effect_plain : Mirrors (InBlocks st') (effect s st i) (effect s st' i) := by
  unfold effect
  exact .bind fun _ _ => .ite (.bind fun _ _ => .ok ⟨same, rfl⟩) (.bind fun value _ => bind_plain same value)

theorem statement_plain (other : s.buffer.marker? i = none) :
    Mirrors (InBlocks st') (statement s st i) (statement s st' i) := by
  unfold statement
  rw [same]
  refine .bind fun a found => ?_
  cases a with
  | branch kind cond target =>
    rw [Buffer.marker?, Member.atom_ok_iff.1 found] at other
    cases other
  | qualifier | type | list => exact .ok ⟨same, rfl⟩
  | literal | swizzle | operation | load | access => exact .bind fun value _ => bind_plain same value
  | store dst src =>
    exact .bind fun _ _ => .bind fun _ _ => .ite (.error _ _) (.ite (.error _ _) (.ok ⟨same, rfl⟩))
  | ret value =>
    cases value with
    | null => exact .ok ⟨same, rfl⟩
    | ref n => exact .bind fun _ _ => .bind fun _ _ => .ok ⟨same, rfl⟩
  | intrinsic => exact .ite (.ok ⟨same, rfl⟩) (effect_plain same)
  | call => exact effect_plain same
  | construct ty args mode =>
    cases mode with
    | transient => exact .ok ⟨same, rfl⟩
    | normal =>
      cases args with
      | null => exact .bind fun _ _ => bind_plain same _
      | ref n => exact .bind fun value _ => bind_plain same value

end

variable {s : Scope} {st : State} {i : Index} {kind : BranchKind} {cond target : Index}

theorem statement_branch (found : s.buffer.get? i = some (.branch kind cond target)) :
    statement s st i = branch { s with slots := st.slots } st i kind cond := by
  have atom : Member.atom s.toMember i = .ok (.branch kind cond target) := Member.atom_ok_iff.2 found
  unfold statement
  simp only [atom]
  rfl

theorem inLoop_iff : st.inLoop = true ↔ .loop ∈ st.blocks := by
  unfold State.inLoop State.blocks
  rw [List.any_eq_true, List.mem_map]
  refine exists_congr fun frame => and_congr_right fun _ => ?_
  cases frame with
  | loop => exact ⟨fun _ => rfl, fun _ => rfl⟩
  | conditional _ _ pending => cases pending <;> exact ⟨nofun, nofun⟩

/-- An arm, or the last one where nothing is pending. -/
def armOf (pending : Option Expr) : Block := Frame.block (.conditional .skip [] pending)

theorem alternative_ok {condition : Lowered (Option Expr)} {pending : Option Expr} {outer : List Block}
    (inner : st.blocks = .arm :: outer) (value : condition = .ok pending) :
    ∃ st', alternative s st i kind condition = .ok st' ∧ st'.slots = st.slots ∧
      st'.blocks = armOf pending :: outer := by
  obtain ⟨slots, code, frames⟩ := st
  subst value
  match frames, inner with
  | .conditional _ _ (some _) :: _, inner =>
    refine ⟨_, rfl, rfl, ?_⟩
    rw [← (List.cons.inj inner).2]
    cases pending <;> rfl

theorem alternative_stops {condition : Lowered (Option Expr)}
    (other : ∀ outer, st.blocks ≠ .arm :: outer) : BlockFault (alternative s st i kind condition) := by
  unfold alternative
  split
  · rename_i frames
    exact absurd (by unfold State.blocks; rw [frames]; rfl) (other _)
  · exact blockFault_defect _ rfl

theorem close_ok {block : Block} {outer : List Block} (inner : st.blocks = block :: outer) :
    ∃ st', close s st i = .ok st' ∧ st'.slots = st.slots ∧ st'.blocks = outer := by
  obtain ⟨slots, code, frames⟩ := st
  match frames, inner with
  | .conditional .. :: _, inner | .loop .. :: _, inner => exact ⟨_, rfl, rfl, (List.cons.inj inner).2⟩

theorem close_stops (outside : st.blocks = []) : BlockFault (close s st i) := by
  have frames : st.frames = [] := List.map_eq_nil_iff.1 outside
  unfold close
  rw [frames]
  exact blockFault_defect _ rfl

theorem branch_ok {next : List Block}
    (ready : kind.hasCondition = true → ∃ e, s.condition cond = .ok e)
    (moved : advance st.blocks kind = some next) :
    ∃ st', branch s st i kind cond = .ok st' ∧ st'.slots = st.slots ∧ st'.blocks = next := by
  cases kind with
  | ifThen | whileLoop | forLoop =>
    obtain ⟨e, value⟩ := ready rfl
    simp only [branch, value]
    cases moved
    exact ⟨_, rfl, rfl, by rfl⟩
  | elseIf =>
    obtain ⟨e, value⟩ := ready rfl
    obtain ⟨outer, inner, rfl⟩ := advance_elseIf.1 moved
    simp only [branch, value]
    exact alternative_ok inner rfl
  | otherwise =>
    obtain ⟨outer, inner, rfl⟩ := advance_otherwise.1 moved
    exact alternative_ok inner rfl
  | next =>
    obtain ⟨around, rfl⟩ := (advance_jump (Or.inl rfl)).1 moved
    simp only [branch, inLoop_iff.2 around, ↓reduceIte]
    exact ⟨_, rfl, rfl, rfl⟩
  | leave =>
    obtain ⟨around, rfl⟩ := (advance_jump (Or.inr rfl)).1 moved
    simp only [branch, inLoop_iff.2 around, ↓reduceIte]
    exact ⟨_, rfl, rfl, rfl⟩
  | close =>
    obtain ⟨block, inner⟩ := advance_close.1 moved
    exact close_ok inner

theorem branch_stops (stuck : advance st.blocks kind = none) : BlockFault (branch s st i kind cond) := by
  cases kind with
  | ifThen | whileLoop | forLoop => cases stuck
  | elseIf =>
    refine alternative_stops fun outer inner => ?_
    rw [advance_elseIf.2 ⟨outer, inner, rfl⟩] at stuck
    cases stuck
  | otherwise =>
    refine alternative_stops fun outer inner => ?_
    rw [advance_otherwise.2 ⟨outer, inner, rfl⟩] at stuck
    cases stuck
  | next | leave =>
    have outside : ¬ st.inLoop = true := by
      intro around
      simp [advance, inLoop_iff.1 around] at stuck
    simp only [branch, outside, Bool.false_eq_true, ↓reduceIte]
    exact blockFault_defect _ rfl
  | close =>
    refine close_stops ?_
    cases blocks : st.blocks with
    | nil => rfl
    | cons block outer =>
      rw [advance_close.2 ⟨block, blocks⟩] at stuck
      cases stuck

theorem condition_of_branch {st' : State} (lowered : branch s st i kind cond = .ok st')
    (asks : kind.hasCondition = true) : ∃ e, s.condition cond = .ok e := by
  cases kind with
  | ifThen | whileLoop | forLoop =>
    obtain ⟨e, condition, _⟩ := Except.bind_ok lowered
    exact ⟨e, condition⟩
  | elseIf =>
    simp only [branch, alternative] at lowered
    split at lowered
    · obtain ⟨pending, condition, _⟩ := Except.bind_ok lowered
      obtain ⟨e, condition, _⟩ := Except.bind_ok condition
      exact ⟨e, condition⟩
    · cases lowered
  | _ => cases asks

theorem generator_tracks (s : Scope) : Tracks (generator s) State.blocks advance where
  plain _ _ _ other same := statement_plain same other
  moves st i kind next found ready moved := by
    obtain ⟨cond, target, present⟩ := Buffer.branch_of_marker found
    change ∃ st', statement s st i = .ok st' ∧ _
    rw [statement_branch present]
    exact branch_ok (ready kind cond target present) moved
  stops st i kind found _ stuck := by
    obtain ⟨cond, target, present⟩ := Buffer.branch_of_marker found
    change BlockFault (statement s st i)
    rw [statement_branch present]
    exact branch_stops stuck
  asks st i kind st' found lowered := by
    intro kind' cond target present asks
    change statement s st i = .ok st' at lowered
    rw [statement_branch present] at lowered
    exact condition_of_branch lowered asks

end Native

end ShaderForge
