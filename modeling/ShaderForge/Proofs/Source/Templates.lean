import ShaderForge.Proofs.Effects
import ShaderForge.Linkage.Unit

/-!
Source as a template. What is printed for a unit depends on the names of its aggregates in one way: the
same pieces stand in the same order under all names, and some of the pieces are names.
-/

namespace ShaderForge

abbrev Titles := Nat → String

/-- A piece of source in which aggregates are named. -/
inductive Piece where
  | text (s : String)
  | name (n : Nat)
  | declaration (n : Nat)
deriving DecidableEq, Repr

def Piece.render (names : Titles) : Piece → String
  | text s => s
  | name n => names n
  | declaration n => "struct " ++ names n ++ " \x7b\n"

abbrev Template := List Piece

def Template.render (names : Titles) (t : Template) : String := String.join (t.map (Piece.render names))

theorem Template.render_append (names : Titles) (s t : Template) :
    Template.render names (s ++ t) = Template.render names s ++ Template.render names t := by
  simp only [Template.render, List.map_append]
  induction s with
  | nil => simp
  | cons p rest ih => simp only [List.map_cons, List.cons_append, String.join_cons, ih, String.append_assoc]

def Linkage.named (u : Linkage) (names : Titles) : Linkage :=
  { u with aggregates := u.aggregates.mapIdx fun n a => { a with name := names n } }

/-! ### Texts without declarations -/

/-- Texts that are one template under all names. It declares nothing and names only aggregates of `P`. -/
def Draft (P : Nat → Prop) (text : Titles → String) : Prop :=
  ∃ t : Template, (∀ names, text names = t.render names) ∧ (∀ n, Piece.declaration n ∉ t) ∧
    ∀ n, Piece.name n ∈ t → P n

def Each {α : Type} (Q : (Titles → α) → Prop) (items : Titles → List α) : Prop :=
  ∃ parts : List (Titles → α), (∀ names, items names = parts.map (· names)) ∧ ∀ a ∈ parts, Q a

namespace Draft

variable {P : Nat → Prop} {a b : Titles → String} {items : Titles → List String}

theorem const (s : String) : Draft P fun _ => s := by
  refine ⟨[.text s], fun names => ?_, by simp, by simp⟩
  simp [Template.render, Piece.render]

theorem name {n : Nat} (holds : P n) : Draft P fun names => names n := by
  refine ⟨[.name n], fun names => ?_, by simp, ?_⟩
  · simp [Template.render, Piece.render]
  · intro m member
    simp only [List.mem_singleton, Piece.name.injEq] at member
    exact member ▸ holds

theorem append (first : Draft P a) (second : Draft P b) : Draft P fun names => a names ++ b names := by
  obtain ⟨s, drawn, bare, named⟩ := first
  obtain ⟨t, drawn', bare', named'⟩ := second
  refine ⟨s ++ t, fun names => ?_, fun n member => ?_, fun n member => ?_⟩
  · simp only [Template.render_append, drawn, drawn']
  · exact (List.mem_append.1 member).elim (bare n) (bare' n)
  · exact (List.mem_append.1 member).elim (named n) (named' n)

theorem between (draft : Draft P a) (head tail : String) : Draft P fun names => head ++ a names ++ tail :=
  ((const head).append draft).append (const tail)

theorem join (each : Each (Draft P) items) : Draft P fun names => String.join (items names) := by
  obtain ⟨parts, same, drafts⟩ := each
  simp only [same]
  clear same
  induction parts with
  | nil => exact const ""
  | cons part rest ih =>
    simp only [List.map_cons, String.join_cons]
    exact (drafts part List.mem_cons_self).append (ih fun a member => drafts a (List.mem_cons_of_mem _ member))

theorem intercalate (sep : String) (each : Each (Draft P) items) :
    Draft P fun names => sep.intercalate (items names) := by
  obtain ⟨parts, same, drafts⟩ := each
  simp only [same]
  clear same
  induction parts with
  | nil => exact const ""
  | cons part rest ih =>
    have first := drafts part List.mem_cons_self
    have later := ih fun a member => drafts a (List.mem_cons_of_mem _ member)
    cases rest with
    | nil => simpa using first
    | cons next rest =>
      simp only [List.map_cons, String.intercalate_cons_cons] at later ⊢
      exact (first.append (const sep)).append later

end Draft

namespace Each

variable {α : Type} {Q : (Titles → α) → Prop} {a : Titles → α} {items others : Titles → List α}

theorem nil : Each Q fun _ => [] := ⟨[], fun _ => rfl, nofun⟩

theorem cons (first : Q a) (later : Each Q items) : Each Q fun names => a names :: items names := by
  obtain ⟨parts, same, holds⟩ := later
  refine ⟨a :: parts, fun names => by simp only [same, List.map_cons], fun b member => ?_⟩
  rcases List.mem_cons.1 member with rfl | member
  · exact first
  · exact holds b member

theorem append (first : Each Q items) (second : Each Q others) : Each Q fun names => items names ++ others names := by
  obtain ⟨parts, same, holds⟩ := first
  obtain ⟨more, same', holds'⟩ := second
  refine ⟨parts ++ more, fun names => by simp only [same, same', List.map_append], fun b member => ?_⟩
  exact (List.mem_append.1 member).elim (holds b) (holds' b)

end Each

/-! ### Answers under all names -/

/-- Answers that fail alike under all names, or give under all of them what `Q` says. -/
def Uniform {ε α : Type} (Q : (Titles → α) → Prop) (x : Titles → Except ε α) : Prop :=
  (∃ e, ∀ names, x names = .error e) ∨ ∃ a, (∀ names, x names = .ok (a names)) ∧ Q a

namespace Uniform

variable {ε α β : Type} {Q Q' : (Titles → α) → Prop} {R : (Titles → β) → Prop} {x : Titles → Except ε α}

theorem of_ok {a : Titles → α} (holds : Q a) : Uniform Q (ε := ε) fun names => .ok (a names) :=
  Or.inr ⟨a, fun _ => rfl, holds⟩

theorem of_error (e : ε) : Uniform Q fun _ => .error e := Or.inl ⟨e, fun _ => rfl⟩

theorem imp (uniform : Uniform Q x) (each : ∀ a, Q a → Q' a) : Uniform Q' x :=
  Or.imp id (fun ⟨a, same, holds⟩ => ⟨a, same, each a holds⟩) uniform

theorem bind {f : Titles → α → Except ε β} (first : Uniform Q x)
    (later : ∀ a, Q a → Uniform R fun names => f names (a names)) : Uniform R fun names => x names >>= f names := by
  rcases first with ⟨e, fails⟩ | ⟨a, same, holds⟩
  · simp only [fails]
    exact of_error e
  · simp only [same]
    exact later a holds

theorem answer_bind {y : Except ε α} {f : Titles → α → Except ε β}
    (later : ∀ a, y = .ok a → Uniform R fun names => f names a) : Uniform R fun names => y >>= f names := by
  cases y with
  | error e => exact of_error e
  | ok a => exact later a rfl

theorem choice {c : Prop} {decided : Titles → Decidable c} {y : Titles → Except ε α} (yes : Uniform Q x)
    (no : Uniform Q y) :
    Uniform Q fun names => @ite _ c (decided names) (x names) (y names) := by
  by_cases holds : c
  · simpa only [holds, if_true] using yes
  · simpa only [holds, if_false] using no

theorem mapM_aligned {f : Titles → β → Except ε α} {items : List β} {S : β → (Titles → α) → Prop}
    (each : ∀ b ∈ items, Uniform (S b) fun names => f names b) :
    Uniform (fun results => ∃ parts : List (Titles → α), (∀ names, results names = parts.map (· names)) ∧
      List.Forall₂ S items parts) fun names => items.mapM (f names) := by
  induction items with
  | nil => exact of_ok ⟨[], fun _ => rfl, .nil⟩
  | cons b rest ih =>
    simp only [List.mapM_cons]
    refine (each b List.mem_cons_self).bind fun a holds => ?_
    refine (ih fun b member => each b (List.mem_cons_of_mem _ member)).bind ?_
    rintro others ⟨parts, same, aligned⟩
    refine of_ok ⟨a :: parts, fun names => ?_, .cons holds aligned⟩
    simp only [same, List.map_cons]

theorem mapM {f : Titles → β → Except ε α} {items : List β} (each : ∀ b ∈ items, Uniform Q fun names => f names b) :
    Uniform (Each Q) fun names => items.mapM (f names) := by
  refine (mapM_aligned each).imp ?_
  rintro results ⟨parts, same, aligned⟩
  refine ⟨parts, same, ?_⟩
  clear same
  induction aligned with
  | nil => exact nofun
  | cons first _ ih =>
    intro a member
    rcases List.mem_cons.1 member with rfl | member
    · exact first
    · exact ih (fun b member => each b (List.mem_cons_of_mem _ member)) a member

theorem foldlM {f : Titles → α → β → Except ε α} {items : List β} {a : Titles → α} (start : Q a)
    (step : ∀ b ∈ items, ∀ a, Q a → Uniform Q fun names => f names (a names) b) :
    Uniform Q fun names => items.foldlM (f names) (a names) := by
  induction items generalizing a with
  | nil => exact of_ok start
  | cons b rest ih =>
    simp only [List.foldlM_cons]
    exact (step b List.mem_cons_self a start).bind fun c holds =>
      ih holds fun b member => step b (List.mem_cons_of_mem _ member)

end Uniform

end ShaderForge
