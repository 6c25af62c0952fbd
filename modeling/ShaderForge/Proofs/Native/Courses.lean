import ShaderForge.Proofs.Native.Refinement

/-!
Lowering side by side, block by block. Facts gathered along the code hold until its block is left; what is
then still known is what was known where the block was opened.
-/

namespace ShaderForge.Native

open Linkage

/-! ### Expressions and code that go over -/

variable {rounds : Nat} {callees callees' : Callees} {starts middle ends ends' leaves : Env → Env → Prop}
  {c c' d d' : Code} {e e' : Expr}

/-- An expression of the same registers, which a machine takes and computes as the first. -/
structure Expr.Keeps (callees callees' : Callees) (starts : Env → Env → Prop) (e e' : Expr) : Prop where
  registers : e'.registers = e.registers
  accepted : e.accepted = true → e'.accepted = true
  agrees : Code.Agrees callees callees' starts e e'

/-- Code that a machine takes and runs as the first. -/
structure Code.Keeps (rounds : Nat) (callees callees' : Callees) (starts ends leaves : Env → Env → Prop)
    (c c' : Code) : Prop where
  tracks : c.Tracks rounds callees callees' starts ends leaves c'
  accepted : c.accepted = true → c'.accepted = true

theorem Expr.Keeps.imp (keeps : e.Keeps callees callees' middle e')
    (before : ∀ env env', starts env env' → middle env env') : e.Keeps callees callees' starts e' :=
  ⟨keeps.registers, keeps.accepted, fun env env' related => keeps.agrees env env' (before _ _ related)⟩

theorem Expr.Keeps.tests (keeps : e.Keeps callees callees' starts e') : Native.tests e' = Native.tests e := by
  unfold Native.tests
  rw [keeps.registers]

theorem Expr.Keeps.width (keeps : e.Keeps callees callees' starts e') : e'.width = e.width :=
  congrArg List.length keeps.registers

theorem Expr.congruent_keeps (u : Linkage) (below : callees.Below callees') :
    Expr.Congruent u (Expr.Keeps callees callees' starts) where
  registers keeps := keeps.registers
  literal _ := ⟨rfl, id, fun _ _ _ => .refl _⟩
  zeros _ := ⟨rfl, id, fun _ _ _ => .refl _⟩
  pick _ keeps := ⟨by simp only [registers, keeps.registers], keeps.accepted,
    fun env env' related => (keeps.agrees env env' related).bind fun _ _ => .refl _⟩
  join first second := ⟨by simp only [registers, first.registers, second.registers],
    by simpa only [accepted, Bool.and_eq_true] using And.imp first.accepted second.accepted,
    fun env env' related => (first.agrees env env' related).bind fun _ _ =>
      (second.agrees env env' related).bind fun _ _ => .refl _⟩
  unary _ _ keeps := ⟨by simp only [registers, keeps.registers],
    by simpa only [accepted, keeps.registers, Bool.and_eq_true] using And.imp_left keeps.accepted,
    fun env env' related => (keeps.agrees env env' related).bind fun _ _ => .refl _⟩
  binary _ _ first second := ⟨by simp only [registers, first.registers, second.registers],
    by simpa only [accepted, first.registers, second.registers, first.width, second.width, Bool.and_eq_true] using
      And.imp_left (And.imp first.accepted second.accepted),
    fun env env' related => (first.agrees env env' related).bind fun _ _ =>
      (second.agrees env env' related).bind fun _ _ => .refl _⟩
  fold _ _ keeps := ⟨by simp only [registers, keeps.registers],
    by simpa only [accepted, keeps.registers, Bool.and_eq_true] using And.imp_left keeps.accepted,
    fun env env' related => (keeps.agrees env env' related).bind fun _ _ => .refl _⟩
  convert _ _ keeps := ⟨by simp only [registers, keeps.registers],
    by simpa only [accepted, keeps.registers, Bool.and_eq_true] using And.imp_left keeps.accepted,
    fun env env' related => (keeps.agrees env env' related).bind fun _ _ => .refl _⟩
  call id _ _ _ keeps := ⟨rfl, by simpa only [accepted, keeps.registers, Bool.and_eq_true] using And.imp_left keeps.accepted,
    fun env env' related => (keeps.agrees env env' related).bind fun _ _ => below id _⟩

namespace Code.Keeps

theorem skip : Code.Keeps rounds callees callees' starts starts leaves .skip .skip := ⟨.skip, id⟩

theorem imp (keeps : c.Keeps rounds callees callees' middle ends leaves c')
    (before : ∀ env env', starts env env' → middle env env') (after : ∀ env env', ends env env' → ends' env env') :
    c.Keeps rounds callees callees' starts ends' leaves c' :=
  ⟨keeps.tracks.imp before after, keeps.accepted⟩

theorem seq (first : c.Keeps rounds callees callees' starts middle leaves c')
    (second : d.Keeps rounds callees callees' middle ends leaves d') :
    Code.Keeps rounds callees callees' starts ends leaves (.seq c d) (.seq c' d') := by
  refine ⟨first.tracks.seq second.tracks, fun accepted => ?_⟩
  simp only [Code.accepted, Bool.and_eq_true] at accepted ⊢
  exact ⟨first.accepted accepted.1, second.accepted accepted.2⟩

theorem branch (tested : e.Keeps callees callees' starts e') (yes : c.Keeps rounds callees callees' starts ends leaves c')
    (no : d.Keeps rounds callees callees' starts ends leaves d') :
    Code.Keeps rounds callees callees' starts ends leaves (.branch e c d) (.branch e' c' d') := by
  refine ⟨.branch tested.agrees yes.tracks no.tracks, fun accepted => ?_⟩
  simp only [Code.accepted, Bool.and_eq_true, tested.tests] at accepted ⊢
  exact ⟨⟨⟨tested.accepted accepted.1.1.1, accepted.1.1.2⟩, yes.accepted accepted.1.2⟩, no.accepted accepted.2⟩

theorem loop (tested : e.Keeps callees callees' starts e')
    (body : c.Keeps rounds callees callees' starts starts starts c') :
    Code.Keeps rounds callees callees' starts starts leaves (.loop e c) (.loop e' c') := by
  refine ⟨.loop tested.agrees body.tracks, fun accepted => ?_⟩
  simp only [Code.accepted, Bool.and_eq_true, tested.tests] at accepted ⊢
  exact ⟨⟨tested.accepted accepted.1.1, accepted.1.2⟩, body.accepted accepted.2⟩

theorem arms {otherwise otherwise' : Code} {finished finished' : List (Expr × Code)}
    (each : List.Forall₂ (fun arm arm' => arm.1.Keeps callees callees' starts arm'.1 ∧
      arm.2.Keeps rounds callees callees' starts starts leaves arm'.2) finished finished')
    (last : otherwise.Keeps rounds callees callees' starts starts leaves otherwise') :
    (Native.arms finished otherwise).Keeps rounds callees callees' starts starts leaves
      (Native.arms finished' otherwise') := by
  induction each with
  | nil => exact last
  | cons first _ ih => exact branch first.1 first.2 ih

end Code.Keeps

/-! ### Courses -/

/-- What is known at a point of a function, and what was known where each open block was opened. -/
structure Course where
  here : List Index := []
  around : List (List Index) := []
deriving DecidableEq

namespace Course

def opening (course : Course) : List Index := course.around.headD []

/-- What is known where the condition of a control marker is tested: a further one is tested where the first is. -/
def tested (course : Course) : BranchKind → List Index
  | .elseIf => course.opening
  | _ => course.here

def turn (course : Course) : BranchKind → Course
  | .ifThen | .whileLoop | .forLoop => { course with around := course.here :: course.around }
  | .elseIf | .otherwise => { course with here := course.opening }
  | .close => { here := course.opening, around := course.around.tail }
  | .next | .leave => course

def Nested (course : Course) : Prop := (course.here :: course.around).Pairwise fun inner outer => outer ⊆ inner

theorem Nested.turn {course : Course} (nested : course.Nested) (kind : BranchKind) : (course.turn kind).Nested := by
  obtain ⟨here, around⟩ := course
  have entered : ∀ {known : List Index} {outside : List (List Index)}, Nested ⟨known, outside⟩ →
      Nested ⟨known, known :: outside⟩ :=
    fun nested => .cons (List.forall_mem_cons.2 ⟨List.Subset.refl _, (List.pairwise_cons.1 nested).1⟩) nested
  cases kind with
  | ifThen | whileLoop | forLoop => exact entered nested
  | elseIf | otherwise =>
    cases around with
    | nil => exact List.pairwise_singleton _ _
    | cons known outside => exact entered (List.pairwise_cons.1 nested).2
  | close =>
    cases around with
    | nil => exact List.pairwise_singleton _ _
    | cons known outside => exact (List.pairwise_cons.1 nested).2
  | next | leave => exact nested

theorem Nested.opening_subset {course : Course} (nested : course.Nested) : course.opening ⊆ course.here := by
  unfold Course.opening
  cases around : course.around with
  | nil => exact List.nil_subset _
  | cons outer _ => exact (List.pairwise_cons.1 nested).1 outer (around ▸ List.mem_cons_self)

theorem Nested.turn_subset {course : Course} (nested : course.Nested) (kind : BranchKind) :
    (course.turn kind).here ⊆ course.here := by
  cases kind with
  | ifThen | whileLoop | forLoop | next | leave => exact List.Subset.refl _
  | elseIf | otherwise | close => exact nested.opening_subset

end Course

/-- What is known where the rounds of the innermost loop start. -/
def roundStart : List Frame → List (List Index) → List Index
  | .loop .. :: _, known :: _ => known
  | .conditional .. :: frames, _ :: around => roundStart frames around
  | _, _ => []

theorem roundStart_subset {known : List Index} (frames : List Frame) {around : List (List Index)}
    (outside : ∀ outer ∈ around, outer ⊆ known) : roundStart frames around ⊆ known := by
  induction frames generalizing around with
  | nil => exact List.nil_subset _
  | cons frame frames ih =>
    cases around with
    | nil => cases frame <;> exact List.nil_subset _
    | cons outer around =>
      cases frame with
      | conditional => exact ih fun outer member => outside outer (List.mem_cons_of_mem _ member)
      | loop => exact outside outer List.mem_cons_self

section

variable (rounds : Nat) (callees callees' : Callees) (I : List Index → Env → Env → Prop)

inductive Frames.Keeps : List Frame → List Frame → List (List Index) → Prop
  | nil : Keeps [] [] []
  | conditional {outer outer' : Code} {arms arms' : List (Expr × Code)} {pending pending' : Option Expr}
      {frames frames' : List Frame} {known : List Index} {around : List (List Index)}
      (outside : outer.Keeps rounds callees callees' (I (around.headD [])) (I known) (I (roundStart frames around)) outer')
      (each : List.Forall₂ (fun arm arm' => arm.1.Keeps callees callees' (I known) arm'.1 ∧
        arm.2.Keeps rounds callees callees' (I known) (I known) (I (roundStart frames around)) arm'.2) arms arms')
      (tested : Option.Rel (Expr.Keeps callees callees' (I known)) pending pending')
      (later : Keeps frames frames' around) :
      Keeps (.conditional outer arms pending :: frames) (.conditional outer' arms' pending' :: frames')
        (known :: around)
  | loop {outer outer' : Code} {condition condition' : Expr} {frames frames' : List Frame} {known : List Index}
      {around : List (List Index)}
      (outside : outer.Keeps rounds callees callees' (I (around.headD [])) (I known) (I (roundStart frames around)) outer')
      (tested : condition.Keeps callees callees' (I known) condition') (later : Keeps frames frames' around) :
      Keeps (.loop outer condition :: frames) (.loop outer' condition' :: frames') (known :: around)

/-- The code so far goes over: what is known holds wherever it comes to an end. -/
structure State.Keeps (course : Course) (st st' : State) : Prop where
  code : st.code.Keeps rounds callees callees' (I course.opening) (I course.here)
    (I (roundStart st.frames course.around)) st'.code
  frames : Frames.Keeps rounds callees callees' I st.frames st'.frames course.around

end

section

variable {I : List Index → Env → Env → Prop} {course : Course}
  (antitone : ∀ known less, less ⊆ known → ∀ env env', I known env env' → I less env env') (nested : course.Nested)

include antitone nested

theorem Course.Nested.round (frames : List Frame) :
    ∀ env env', I course.here env env' → I (roundStart frames course.around) env env' :=
  antitone _ _ (roundStart_subset _ (List.pairwise_cons.1 nested).1)

theorem Course.Nested.opening : ∀ env env', I course.here env env' → I course.opening env env' :=
  antitone _ _ nested.opening_subset

end

namespace State.Keeps

variable {I : List Index → Env → Env → Prop} {course : Course} {st st' next : State} {s s' : Scope} {i i' : Index}
  (keeps : st.Keeps rounds callees callees' I course st')

include keeps

theorem append {here : List Index}
    (piece : c.Keeps rounds callees callees' (I course.here) (I here) (I (roundStart st.frames course.around)) c') :
    (st.append c).Keeps rounds callees callees' I { course with here } (st'.append c') :=
  ⟨keeps.code.seq piece, keeps.frames⟩

theorem alone {here : List Index} (stays : ∀ env env' flow, I course.here env env' →
      c.exec callees rounds env = .ok flow → ∃ after, flow = .running after ∧ I here after env') :
    (st.append c).Keeps rounds callees callees' I { course with here } st' := by
  refine ⟨⟨keeps.code.tracks.alone stays, fun accepted => ?_⟩, keeps.frames⟩
  simp only [State.append, Code.accepted, Bool.and_eq_true] at accepted
  exact keeps.code.accepted accepted.1

theorem inLoop : st'.inLoop = st.inLoop := by
  have frames := keeps.frames
  unfold State.inLoop
  generalize st.frames = fs, st'.frames = fs', course.around = around at frames
  induction frames with
  | nil => rfl
  | conditional _ _ _ _ ih | loop _ _ _ ih => simp only [List.any_cons, ih]

section

variable (antitone : ∀ known less, less ⊆ known → ∀ env env', I known env env' → I less env env')
  (nested : course.Nested)

include antitone nested

theorem close (h : Native.close s st i = .ok next) :
    ∃ next', Native.close s' st' i' = .ok next' ∧ next.Keeps rounds callees callees' I (course.turn .close) next' ∧
      next.slots = st.slots ∧ next'.slots = st'.slots := by
  obtain ⟨slots, code, frames⟩ := st
  obtain ⟨slots', code', frames'⟩ := st'
  obtain ⟨here, around⟩ := course
  have inside := keeps.code
  have back := nested.opening antitone
  cases keeps.frames with
  | nil => cases h
  | @conditional outer outer' finished finished' pending pending' frames frames' known around outside each tested later =>
    cases h
    refine ⟨_, rfl, ⟨outside.seq ?_, later⟩, rfl, rfl⟩
    have last := inside.imp (fun _ _ known => known) back
    cases tested with
    | none => exact .arms each last
    | some condition => exact .arms (List.rel_append each (.cons ⟨condition, last⟩ .nil)) .skip
  | loop outside tested later =>
    cases h
    exact ⟨_, rfl, ⟨outside.seq (.loop tested (inside.imp (fun _ _ known => known) back)), later⟩, rfl, rfl⟩

theorem alternative {kind : BranchKind} {condition condition' : Lowered (Option Expr)}
    (transfers : ∀ e, condition = .ok e → ∃ e', condition' = .ok e' ∧
      Option.Rel (Expr.Keeps callees callees' (I course.opening)) e e')
    (h : Native.alternative s st i kind condition = .ok next) :
    ∃ next', Native.alternative s' st' i' kind condition' = .ok next' ∧
      next.Keeps rounds callees callees' I { course with here := course.opening } next' ∧
      next.slots = st.slots ∧ next'.slots = st'.slots := by
  obtain ⟨slots, code, frames⟩ := st
  obtain ⟨slots', code', frames'⟩ := st'
  obtain ⟨here, around⟩ := course
  have inside := keeps.code
  have back := nested.opening antitone
  cases keeps.frames with
  | nil => cases h
  | @conditional outer outer' finished finished' _ _ frames frames' known around outside each tested later =>
    cases tested with
    | none => cases h
    | @some pending pending' first =>
      obtain ⟨e, computed, h⟩ := Except.bind_ok h
      obtain ⟨e', computed', related⟩ := transfers e computed
      cases h
      refine ⟨⟨slots', .skip, .conditional outer' (finished' ++ [(pending', code')]) e' :: frames'⟩, ?_,
        ⟨.skip, .conditional outside ?_ related later⟩, rfl, rfl⟩
      · show (condition' >>= _) = _
        rw [computed']
        rfl
      · exact List.rel_append each (.cons ⟨first, inside.imp (fun _ _ known => known) back⟩ .nil)
  | loop => cases h

theorem branch {kind : BranchKind} {cond cond' : Index}
    (transfers : ∀ e, s.condition cond = .ok e → ∃ e', s'.condition cond' = .ok e' ∧
      e.Keeps callees callees' (I (course.tested kind)) e')
    (h : Native.branch s st i kind cond = .ok next) :
    ∃ next', Native.branch s' st' i' kind cond' = .ok next' ∧ next.Keeps rounds callees callees' I (course.turn kind) next' ∧
      next.slots = st.slots ∧ next'.slots = st'.slots := by
  cases kind with
  | ifThen =>
    obtain ⟨e, computed, h⟩ := Except.bind_ok h
    obtain ⟨e', computed', related⟩ := transfers e computed
    cases h
    refine ⟨⟨st'.slots, .skip, .conditional st'.code [] (some e') :: st'.frames⟩, ?_,
      ⟨.skip, .conditional keeps.code .nil (.some related) keeps.frames⟩, rfl, rfl⟩
    show (s'.condition cond' >>= _) = _
    rw [computed']
    rfl
  | whileLoop | forLoop =>
    obtain ⟨e, computed, h⟩ := Except.bind_ok h
    obtain ⟨e', computed', related⟩ := transfers e computed
    cases h
    refine ⟨⟨st'.slots, .skip, .loop st'.code e' :: st'.frames⟩, ?_, ⟨.skip, .loop keeps.code related keeps.frames⟩,
      rfl, rfl⟩
    show (s'.condition cond' >>= _) = _
    rw [computed']
    rfl
  | elseIf =>
    refine alternative keeps antitone nested ?_ h
    intro e computed
    obtain ⟨condition, inner, same⟩ := Except.bind_ok computed
    cases same
    obtain ⟨condition', computed', related⟩ := transfers condition inner
    rw [computed']
    exact ⟨_, rfl, .some related⟩
  | otherwise =>
    refine alternative keeps antitone nested ?_ h
    intro e computed
    cases computed
    exact ⟨_, rfl, .none⟩
  | next | leave =>
    unfold Native.branch at h ⊢
    simp only [keeps.inLoop] at h ⊢
    split at h
    · rename_i inside
      rw [if_pos inside]
      cases h
      refine ⟨_, rfl, keeps.append ⟨?_, fun accepted => accepted⟩, rfl, rfl⟩
      first
        | exact .next (nested.round antitone _)
        | exact .leave (nested.round antitone _)
    · cases h
  | close => exact close keeps antitone nested h

end

end State.Keeps

end ShaderForge.Native
