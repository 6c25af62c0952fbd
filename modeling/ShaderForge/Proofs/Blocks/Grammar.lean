import ShaderForge.Source.Statement

/-!
Sequences of control markers. A grammar says which ones nest; a stack of open blocks decides it.
Counting the open blocks decides less: only that there is always one to close, and that all are.
-/

namespace ShaderForge.Blocks

/-! ### The grammar -/

mutual

/-- Items in a row; the flag says whether a loop is around them. -/
inductive Items : Bool → List BranchKind → Prop
  | nil (l : Bool) : Items l []
  | conditional {l : Bool} {body arms rest : List BranchKind} (first : Items l body) (others : Arms l arms)
      (later : Items l rest) : Items l (.ifThen :: (body ++ (arms ++ rest)))
  | loop {l : Bool} {kind : BranchKind} {body rest : List BranchKind}
      (opens : kind = .whileLoop ∨ kind = .forLoop) (inner : Items true body) (later : Items l rest) :
      Items l (kind :: (body ++ .close :: rest))
  | jump {kind : BranchKind} {rest : List BranchKind} (jumps : kind = .next ∨ kind = .leave)
      (later : Items true rest) : Items true (kind :: rest)

/-- What follows the first arm of a conditional: further arms, perhaps a last one, and the end. -/
inductive Arms : Bool → List BranchKind → Prop
  | close (l : Bool) : Arms l [.close]
  | elseIf {l : Bool} {body arms : List BranchKind} (inner : Items l body) (others : Arms l arms) :
      Arms l (.elseIf :: (body ++ arms))
  | otherwise {l : Bool} {body : List BranchKind} (inner : Items l body) :
      Arms l (.otherwise :: (body ++ [.close]))

end

def Nested (kinds : List BranchKind) : Prop := Items false kinds

/-! ### Open blocks -/

/-- A block that is open: an arm that another may follow, a last arm, or a loop. -/
inductive Block where
  | arm
  | last
  | loop
deriving DecidableEq

/-- The blocks that are open after a marker, innermost first. -/
def advance (blocks : List Block) (kind : BranchKind) : Option (List Block) :=
  match kind, blocks with
  | .ifThen, _ => some (.arm :: blocks)
  | .whileLoop, _ | .forLoop, _ => some (.loop :: blocks)
  | .elseIf, .arm :: outer => some (.arm :: outer)
  | .otherwise, .arm :: outer => some (.last :: outer)
  | .next, _ | .leave, _ => if .loop ∈ blocks then some blocks else none
  | .close, _ :: outer => some outer
  | _, _ => none

theorem advance_elseIf {blocks next : List Block} :
    advance blocks .elseIf = some next ↔ ∃ outer, blocks = .arm :: outer ∧ next = .arm :: outer := by
  cases blocks with
  | nil => simp [advance]
  | cons block outer => cases block <;> simp [advance, eq_comm]

theorem advance_otherwise {blocks next : List Block} :
    advance blocks .otherwise = some next ↔ ∃ outer, blocks = .arm :: outer ∧ next = .last :: outer := by
  cases blocks with
  | nil => simp [advance]
  | cons block outer => cases block <;> simp [advance, eq_comm]

theorem advance_close {blocks next : List Block} :
    advance blocks .close = some next ↔ ∃ block, blocks = block :: next := by
  cases blocks <;> simp [advance]

theorem advance_jump {blocks next : List Block} {kind : BranchKind} (jumps : kind = .next ∨ kind = .leave) :
    advance blocks kind = some next ↔ .loop ∈ blocks ∧ blocks = next := by
  rcases jumps with rfl | rfl <;> simp [advance]

def inLoop (blocks : List Block) : Bool := decide (.loop ∈ blocks)

@[simp] theorem inLoop_arm (blocks : List Block) : inLoop (.arm :: blocks) = inLoop blocks := by
  simp [inLoop]

@[simp] theorem inLoop_last (blocks : List Block) : inLoop (.last :: blocks) = inLoop blocks := by
  simp [inLoop]

@[simp] theorem inLoop_loop (blocks : List Block) : inLoop (.loop :: blocks) = true := by
  simp [inLoop]

mutual

theorem Items.advance {l : Bool} : ∀ {kinds : List BranchKind}, Items l kinds → ∀ blocks : List Block,
    (l = true → inLoop blocks = true) → kinds.foldlM advance blocks = some blocks
  | _, .nil _, _, _ => rfl
  | _, .conditional first others later, blocks, around => by
    have inner := first.advance (.arm :: blocks) (by simpa using around)
    rw [List.foldlM_cons]
    simp [Blocks.advance, inner, others.advance blocks around, later.advance blocks around]
  | _, .loop opens inner later, blocks, around => by
    have body := inner.advance (.loop :: blocks) (by simp)
    rcases opens with rfl | rfl <;> simp [Blocks.advance, body, later.advance blocks around]
  | _, .jump jumps later, blocks, around => by
    have loop : .loop ∈ blocks := by simpa [inLoop] using around rfl
    rcases jumps with rfl | rfl <;> simp [Blocks.advance, loop, later.advance blocks around]

theorem Arms.advance {l : Bool} : ∀ {kinds : List BranchKind}, Arms l kinds → ∀ blocks : List Block,
    (l = true → inLoop blocks = true) → kinds.foldlM Blocks.advance (.arm :: blocks) = some blocks
  | _, .close _, _, _ => rfl
  | _, .elseIf inner others, blocks, around => by
    have body := inner.advance (.arm :: blocks) (by simpa using around)
    simp [Blocks.advance, body, others.advance blocks around]
  | _, .otherwise inner, blocks, around => by
    have body := inner.advance (.last :: blocks) (by simpa using around)
    simp [Blocks.advance, body]

end

/-- What is left to come while blocks are open: the rest of the innermost one, then that of the
blocks around it. -/
def Closes : List Block → List BranchKind → Prop
  | [], kinds => Items false kinds
  | .arm :: outer, kinds => ∃ body arms rest, kinds = body ++ (arms ++ rest) ∧
      Items (inLoop outer) body ∧ Arms (inLoop outer) arms ∧ Closes outer rest
  | .last :: outer, kinds => ∃ body rest, kinds = body ++ .close :: rest ∧
      Items (inLoop outer) body ∧ Closes outer rest
  | .loop :: outer, kinds => ∃ body rest, kinds = body ++ .close :: rest ∧
      Items true body ∧ Closes outer rest

/-- What can stand before items can stand before the rest of a block. -/
theorem Closes.prepend {blocks : List Block} {kinds : List BranchKind} (closes : Closes blocks kinds)
    (item : List BranchKind)
    (fits : ∀ rest, Items (inLoop blocks) rest → Items (inLoop blocks) (item ++ rest)) :
    Closes blocks (item ++ kinds) := by
  cases blocks with
  | nil => exact fits kinds closes
  | cons block outer =>
    cases block with
    | arm =>
      obtain ⟨body, arms, rest, rfl, inner, others, later⟩ := closes
      rw [inLoop_arm] at fits
      exact ⟨item ++ body, arms, rest, by simp, fits body inner, others, later⟩
    | last =>
      obtain ⟨body, rest, rfl, inner, later⟩ := closes
      rw [inLoop_last] at fits
      exact ⟨item ++ body, rest, by simp, fits body inner, later⟩
    | loop =>
      obtain ⟨body, rest, rfl, inner, later⟩ := closes
      rw [inLoop_loop] at fits
      exact ⟨item ++ body, rest, by simp, fits body inner, later⟩

theorem Closes.step {blocks next : List Block} {kind : BranchKind} {kinds : List BranchKind}
    (moves : advance blocks kind = some next) (closes : Closes next kinds) :
    Closes blocks (kind :: kinds) := by
  have looped : ∀ {opening : BranchKind}, opening = .whileLoop ∨ opening = .forLoop →
      Closes (.loop :: blocks) kinds → Closes blocks (opening :: kinds) := by
    rintro opening opens ⟨body, rest, rfl, inner, later⟩
    have item := later.prepend (opening :: (body ++ [.close])) fun rest' tail => by
      have whole := Items.loop opens inner tail
      simpa using whole
    simpa using item
  have jumped : ∀ {jump : BranchKind}, jump = .next ∨ jump = .leave → .loop ∈ blocks →
      Closes blocks kinds → Closes blocks (jump :: kinds) := by
    intro jump jumps around later
    refine later.prepend [jump] fun rest tail => ?_
    have loop : inLoop blocks = true := by simpa [inLoop] using around
    rw [loop] at tail ⊢
    exact .jump jumps tail
  cases kind with
  | ifThen =>
    cases moves
    obtain ⟨body, arms, rest, rfl, inner, others, later⟩ := closes
    have item := later.prepend (.ifThen :: (body ++ arms)) fun rest' tail => by
      have whole := Items.conditional inner others tail
      simpa using whole
    simpa using item
  | whileLoop => cases moves; exact looped (Or.inl rfl) closes
  | forLoop => cases moves; exact looped (Or.inr rfl) closes
  | elseIf =>
    obtain ⟨outer, rfl, rfl⟩ := advance_elseIf.1 moves
    obtain ⟨body, arms, rest, rfl, inner, others, later⟩ := closes
    exact ⟨[], .elseIf :: (body ++ arms), rest, by simp, .nil _, .elseIf inner others, later⟩
  | otherwise =>
    obtain ⟨outer, rfl, rfl⟩ := advance_otherwise.1 moves
    obtain ⟨body, rest, rfl, inner, later⟩ := closes
    exact ⟨[], .otherwise :: (body ++ [.close]), rest, by simp, .nil _, .otherwise inner, later⟩
  | next =>
    obtain ⟨around, rfl⟩ := (advance_jump (Or.inl rfl)).1 moves
    exact jumped (Or.inl rfl) around closes
  | leave =>
    obtain ⟨around, rfl⟩ := (advance_jump (Or.inr rfl)).1 moves
    exact jumped (Or.inr rfl) around closes
  | close =>
    obtain ⟨block, rfl⟩ := advance_close.1 moves
    cases block with
    | arm => exact ⟨[], [.close], kinds, rfl, .nil _, .close _, closes⟩
    | last | loop => exact ⟨[], kinds, rfl, .nil _, closes⟩

theorem closes_of_advance {blocks : List Block} {kinds : List BranchKind}
    (moves : kinds.foldlM advance blocks = some []) : Closes blocks kinds := by
  induction kinds generalizing blocks with
  | nil => cases moves; exact .nil false
  | cons kind kinds ih =>
    rw [List.foldlM_cons] at moves
    obtain ⟨next, first, moves⟩ := Option.bind_eq_some_iff.1 moves
    exact Closes.step first (ih moves)

/-- The blocks of a sequence open and close exactly when it is one of the grammar. -/
theorem nested_iff {kinds : List BranchKind} : Nested kinds ↔ kinds.foldlM advance [] = some [] := by
  constructor
  · intro items
    exact items.advance [] nofun
  · exact closes_of_advance

instance (kinds : List BranchKind) : Decidable (Nested kinds) := decidable_of_iff _ nested_iff.symm

/-! ### Counting -/

/-- The depth after a marker; outside of all blocks it is one. -/
def climb (depth : Nat) (kind : BranchKind) : Option Nat :=
  if Statement.closes kind && decide (depth ≤ 1) then none
  else
    let outer := if Statement.closes kind then depth - 1 else depth
    some (if kind.opens then outer + 1 else outer)

def weight (kind : BranchKind) : Int :=
  (if kind.opens then 1 else 0) - (if Statement.closes kind then 1 else 0)

/-- The number of open blocks after markers. -/
def height : List BranchKind → Int
  | [] => 0
  | kind :: kinds => weight kind + height kinds

/-- Every marker that closes a block stands where one is open, and all are closed in the end. -/
def Balanced (kinds : List BranchKind) : Prop :=
  (∀ before kind rest, kinds = before ++ kind :: rest → Statement.closes kind = true → 0 < height before) ∧
    height kinds = 0

theorem climb_some {depth next : Nat} {kind : BranchKind} :
    climb depth kind = some next ↔
      (Statement.closes kind = true → 1 < depth) ∧ (next : Int) = depth + weight kind := by
  unfold climb weight
  cases kind <;> simp [Statement.closes, BranchKind.opens] <;> omega

theorem exists_climb {depth : Nat} {kind : BranchKind} (room : Statement.closes kind = true → 1 < depth) :
    ∃ next, climb depth kind = some next := by
  unfold climb
  split
  · rename_i stuck
    simp only [Bool.and_eq_true, decide_eq_true_eq] at stuck
    have := room stuck.1
    omega
  · exact ⟨_, rfl⟩

theorem climbs_iff {start last : Nat} {kinds : List BranchKind} :
    kinds.foldlM climb start = some last ↔
      (∀ before kind rest, kinds = before ++ kind :: rest → Statement.closes kind = true →
        1 < start + height before) ∧ (last : Int) = start + height kinds := by
  induction kinds generalizing start with
  | nil =>
    have last_eq : ([] : List BranchKind).foldlM climb start = some last ↔ start = last := Option.some_inj
    rw [last_eq, height]
    refine ⟨fun same => ⟨?_, by omega⟩, fun ⟨_, same⟩ => by omega⟩
    intro before kind rest split
    simp at split
  | cons kind kinds ih =>
    have unfolded : (kind :: kinds).foldlM climb start = some last ↔
        ∃ next, climb start kind = some next ∧ kinds.foldlM climb next = some last :=
      Option.bind_eq_some_iff
    rw [unfolded]
    constructor
    · rintro ⟨next, first, later⟩
      obtain ⟨room, here⟩ := climb_some.1 first
      obtain ⟨below, done⟩ := ih.1 later
      refine ⟨?_, by rw [height]; omega⟩
      intro before other rest split closes
      cases before with
      | nil =>
        cases split
        have := room closes
        rw [height]
        omega
      | cons k before =>
        cases split
        have := below before other rest rfl closes
        rw [height]
        omega
    · rintro ⟨below, done⟩
      have room : Statement.closes kind = true → 1 < start := by
        intro closes
        have := below [] kind kinds rfl closes
        rw [height] at this
        omega
      obtain ⟨next, first⟩ := exists_climb room
      have here := (climb_some.1 first).2
      rw [height] at done
      refine ⟨next, first, ih.2 ⟨?_, by omega⟩⟩
      intro before other rest split closes
      have := below (kind :: before) other rest (by rw [split]; rfl) closes
      rw [height] at this
      omega

theorem balanced_iff {kinds : List BranchKind} : Balanced kinds ↔ kinds.foldlM climb 1 = some 1 := by
  rw [climbs_iff, Balanced]
  refine and_congr (forall_congr' fun before => forall_congr' fun kind => forall_congr' fun rest =>
    imp_congr_right fun _ => imp_congr_right fun _ => ?_) ?_ <;> omega

instance (kinds : List BranchKind) : Decidable (Balanced kinds) := decidable_of_iff _ balanced_iff.symm

theorem climb_of_advance {blocks next : List Block} {kind : BranchKind}
    (moves : advance blocks kind = some next) :
    climb (blocks.length + 1) kind = some (next.length + 1) := by
  unfold advance at moves
  split at moves
  case h_6 | h_7 =>
    obtain ⟨_, same⟩ := Option.ite_none_right_eq_some.1 moves
    cases same
    rfl
  all_goals cases moves
  all_goals simp [climb, Statement.closes, BranchKind.opens]

theorem climbs_of_advance {kinds : List BranchKind} {blocks next : List Block}
    (moves : kinds.foldlM advance blocks = some next) :
    kinds.foldlM climb (blocks.length + 1) = some (next.length + 1) := by
  induction kinds generalizing blocks with
  | nil =>
    cases moves
    rfl
  | cons kind kinds ih =>
    obtain ⟨middle, first, later⟩ := Option.bind_eq_some_iff.1 moves
    exact Option.bind_eq_some_iff.2 ⟨_, climb_of_advance first, ih later⟩

theorem Nested.balanced {kinds : List BranchKind} (nested : Nested kinds) : Balanced kinds :=
  balanced_iff.2 (climbs_of_advance (nested_iff.1 nested))

/-- Counting misses jumps outside loops and arms that follow no other. -/
example : Balanced [.leave] ∧ ¬ Nested [.leave] ∧
    Balanced [.whileLoop, .otherwise, .close] ∧ ¬ Nested [.whileLoop, .otherwise, .close] := by decide

end ShaderForge.Blocks
