import Mathlib.Data.List.Infix

/-!
Tokens of C-like source. A text falls apart into lexemes, the longest one at each place; blanks and
comments between them are no tokens. All lexemes but a single character are lexemes without their
last character too, so one character of lookahead finds the longest. Quotes are single characters here:
no expression holds a string or a character constant.
-/

namespace ShaderForge.Lexer

def isBlank (c : Char) : Bool := [' ', '\n', '\t', '\r'].contains c

def isWordChar (c : Char) : Bool := c.isAlphanum || c == '_'

/-- Names and keywords. -/
def isWord : List Char → Bool
  | [] => false
  | c :: rest => isWordChar c && !c.isDigit && rest.all isWordChar

/-- What a number goes on with after a character: word characters, points, and the sign of an exponent. -/
def isNumberTail (before : Char) : List Char → Bool
  | [] => true
  | c :: rest =>
    (isWordChar c || c == '.' || ((c == '+' || c == '-') && ['e', 'E', 'p', 'P'].contains before))
      && isNumberTail c rest

/-- Numbers as the preprocessor reads them, from a digit or a point and a digit on. -/
def isNumber : List Char → Bool
  | '.' :: d :: rest => d.isDigit && isNumberTail d rest
  | d :: rest => d.isDigit && isNumberTail d rest
  | [] => false

/-- The operators of more than one character. `...` and `%:%:` are left out, as they begin with none. -/
def operators : List (List Char) :=
  [['+', '+'], ['-', '-'], ['<', '<'], ['>', '>'], ['<', '='], ['>', '='], ['=', '='], ['!', '='], ['&', '&'],
    ['|', '|'], ['^', '^'], ['+', '='], ['-', '='], ['*', '='], ['/', '='], ['%', '='], ['&', '='], ['|', '='],
    ['^', '='], ['<', '<', '='], ['>', '>', '='], ['<', '=', '>'], ['-', '>'], ['-', '>', '*'], ['.', '*'],
    [':', ':'], ['#', '#'], ['<', ':'], [':', '>'], ['<', '%'], ['%', '>'], ['%', ':']]

/-- Texts in which a block comment is closed nowhere but at the end. -/
def isOpen : List Char → Bool
  | '*' :: '/' :: rest => rest.isEmpty
  | _ :: rest => isOpen rest
  | [] => true

/-- Comments, those that are still open included. -/
def isComment : List Char → Bool
  | '/' :: '/' :: rest => !rest.contains '\n'
  | '/' :: '*' :: rest => isOpen rest
  | _ => false

def isLexeme : List Char → Bool
  | [] => false
  | [c] => !isBlank c
  | cs => isWord cs || isNumber cs || operators.contains cs || isComment cs

def emit (cs : List Char) : List (List Char) := if cs.isEmpty || isComment cs then [] else [cs]

/-- Where a lexeme begins after the one before has ended. -/
def start (c : Char) : List Char := if isLexeme [c] then [c] else []

/-- The tokens of a text that goes on after the beginning of a lexeme. -/
def munch : List Char → List Char → List (List Char)
  | cur, [] => emit cur
  | cur, c :: rest => if isLexeme (cur ++ [c]) then munch (cur ++ [c]) rest else emit cur ++ munch (start c) rest

def tokens (text : String) : List String := (munch [] text.toList).map String.ofList

/-! ### Beginnings of lexemes -/

variable {c : Char} {cs ds cur rest xs ys : List Char} {ts : List (List Char)}

theorem isNumberTail_of_append {before : Char} (h : isNumberTail before (cs ++ ds) = true) :
    isNumberTail before cs = true := by
  induction cs generalizing before with
  | nil => rfl
  | cons c cs ih =>
    rw [List.cons_append, isNumberTail, Bool.and_eq_true] at h
    rw [isNumberTail, Bool.and_eq_true]
    exact ⟨h.1, ih h.2⟩

theorem isOpen_of_append (h : isOpen (cs ++ ds) = true) : isOpen cs = true := by
  induction cs using isOpen.induct with
  | case1 cs =>
    rw [List.cons_append, List.cons_append, isOpen, List.isEmpty_iff, List.append_eq_nil_iff] at h
    rw [isOpen, h.1]
    rfl
  | case2 c cs other ih =>
    rw [isOpen.eq_2 _ _ other]
    cases cs with
    | nil => rfl
    | cons d cs =>
      refine ih ?_
      rwa [List.cons_append, isOpen.eq_2] at h
      rintro rest rfl same
      exact other cs rfl (by rw [List.cons_append, List.cons.injEq] at same; rw [same.1])
  | case3 => rfl

theorem isLexeme_longer_iff (many : 2 ≤ cs.length) :
    isLexeme cs = true ↔ isWord cs = true ∨ isNumber cs = true ∨ cs ∈ operators ∨ isComment cs = true := by
  match cs, many with
  | c :: d :: rest, _ => simp only [isLexeme, Bool.or_eq_true, List.contains_iff_mem, or_assoc]

theorem isWord_of_append (given : cs ≠ []) (h : isWord (cs ++ ds) = true) : isWord cs = true := by
  obtain ⟨c, rest, rfl⟩ := List.exists_cons_of_ne_nil given
  rw [List.cons_append, isWord, List.all_append, ← Bool.and_assoc, Bool.and_eq_true] at h
  exact h.1

theorem isNumber_of_append (many : 2 ≤ cs.length) (h : isNumber (cs ++ ds) = true) : isNumber cs = true := by
  match cs, many with
  | c :: d :: rest, _ =>
    by_cases point : c = '.'
    · subst point
      rw [List.cons_append, List.cons_append, isNumber, Bool.and_eq_true] at h
      rw [isNumber, Bool.and_eq_true]
      exact ⟨h.1, isNumberTail_of_append h.2⟩
    · rw [List.cons_append, isNumber.eq_2 _ _ (fun d rest same _ => point same), Bool.and_eq_true] at h
      rw [isNumber.eq_2 _ _ (fun d rest same _ => point same), Bool.and_eq_true]
      exact ⟨h.1, isNumberTail_of_append h.2⟩

theorem isComment_of_append (many : 2 ≤ cs.length) (h : isComment (cs ++ ds) = true) : isComment cs = true := by
  match cs, many with
  | c :: d :: rest, _ =>
    rw [List.cons_append, List.cons_append] at h
    unfold isComment at h ⊢
    split at h
    · rename_i same
      cases same
      simp only [List.contains_append, Bool.not_or, Bool.and_eq_true] at h
      exact h.1
    · rename_i same
      cases same
      exact isOpen_of_append h
    · cases h

theorem isLexeme_operator_prefix : ∀ op ∈ operators, ∀ p ∈ op.inits, p ≠ [] → isLexeme p = true := by decide +kernel

theorem isBlank_of_isLexeme (h : isLexeme (c :: cs) = true) : isBlank c = false := by
  have operator : ∀ op ∈ operators, op.head?.any isBlank = false := by decide +kernel
  cases cs with
  | nil => exact Bool.not_eq_eq_eq_not.1 h
  | cons d rest =>
    refine Bool.eq_false_iff.2 fun blank => ?_
    have among : c = ' ' ∨ c = '\n' ∨ c = '\t' ∨ c = '\r' := by simpa [isBlank] using blank
    rcases (isLexeme_longer_iff (by simp)).1 h with word | number | listed | comment
    · rcases among with rfl | rfl | rfl | rfl <;> cases word
    · rcases among with rfl | rfl | rfl | rfl <;> cases number
    · exact Bool.eq_false_iff.1 (operator _ listed) blank
    · rcases among with rfl | rfl | rfl | rfl <;> cases comment

theorem isLexeme_of_append (given : cs ≠ []) (h : isLexeme (cs ++ ds) = true) : isLexeme cs = true := by
  by_cases more : ds = []
  · rwa [more, List.append_nil] at h
  have length : 2 ≤ (cs ++ ds).length := by
    have := List.length_pos_iff.2 given
    have := List.length_pos_iff.2 more
    rw [List.length_append]
    omega
  by_cases many : 2 ≤ cs.length
  · rcases (isLexeme_longer_iff length).1 h with word | number | operator | comment
    · exact (isLexeme_longer_iff many).2 (Or.inl (isWord_of_append given word))
    · exact (isLexeme_longer_iff many).2 (Or.inr (Or.inl (isNumber_of_append many number)))
    · exact isLexeme_operator_prefix _ operator cs ((List.mem_inits _ _).2 (List.prefix_append cs ds)) given
    · exact (isLexeme_longer_iff many).2 (Or.inr (Or.inr (Or.inr (isComment_of_append many comment))))
  · obtain ⟨c, rest, rfl⟩ := List.exists_cons_of_ne_nil given
    obtain rfl : rest = [] := List.length_eq_zero_iff.1 (by rw [List.length_cons] at many; omega)
    exact congrArg not (isBlank_of_isLexeme h)

/-! ### Lexemes in a row -/

/-- The lexeme that a text ends in, after the beginning of a lexeme. -/
def pending : List Char → List Char → List Char
  | cur, [] => cur
  | cur, c :: rest => if isLexeme (cur ++ [c]) then pending (cur ++ [c]) rest else pending (start c) rest

theorem munch_append (cur xs : List Char) :
    ∃ before, ∀ ys, munch cur (xs ++ ys) = before ++ munch (pending cur xs) ys := by
  induction xs generalizing cur with
  | nil => exact ⟨[], fun ys => rfl⟩
  | cons c rest ih =>
    by_cases further : isLexeme (cur ++ [c]) = true
    · obtain ⟨before, split⟩ := ih (cur ++ [c])
      refine ⟨before, fun ys => ?_⟩
      rw [List.cons_append, munch, if_pos further, pending, if_pos further, split]
    · obtain ⟨before, split⟩ := ih (start c)
      refine ⟨emit cur ++ before, fun ys => ?_⟩
      rw [List.cons_append, munch, if_neg further, pending, if_neg further, split, List.append_assoc]

theorem munch_of_ends (ends : isLexeme (cur ++ [c]) = false) : munch cur (c :: ys) = emit cur ++ munch [] (c :: ys) := by
  have fresh : munch [] (c :: ys) = munch (start c) ys := by
    rw [munch, List.nil_append, start]
    split <;> rfl
  rw [fresh, munch, if_neg (Bool.eq_false_iff.1 ends)]

/-- Tokens do not reach across a character that no lexeme goes on with. -/
theorem munch_split (ends : pending [] xs = [] ∨ isLexeme (pending [] xs ++ [c]) = false) :
    munch [] (xs ++ c :: ys) = munch [] xs ++ munch [] (c :: ys) := by
  obtain ⟨before, split⟩ := munch_append [] xs
  have whole := split []
  rw [List.append_nil] at whole
  rw [split, whole, List.append_assoc]
  rcases ends with empty | ends
  · rw [empty]
    rfl
  · rw [munch_of_ends ends]
    rfl

theorem reads_lexeme (found : isLexeme (cur ++ xs) = true) :
    pending cur xs = cur ++ xs ∧ munch cur xs = emit (cur ++ xs) := by
  induction xs generalizing cur with
  | nil => exact ⟨(List.append_nil cur).symm, by rw [munch, List.append_nil]⟩
  | cons c rest ih =>
    rw [List.append_cons] at found ⊢
    have further : isLexeme (cur ++ [c]) = true := isLexeme_of_append (by simp) found
    rw [pending, if_pos further, munch, if_pos further]
    exact ih found

theorem munch_lexeme (found : isLexeme cs = true) (ends : ∀ c ∈ ys.head?, isLexeme (cs ++ [c]) = false) :
    munch [] (cs ++ ys) = emit cs ++ munch [] ys := by
  obtain ⟨whole, alone⟩ := reads_lexeme (show isLexeme ([] ++ cs) = true from found)
  rw [List.nil_append] at whole alone
  cases ys with
  | nil => rw [List.append_nil, alone, show munch [] [] = [] from rfl, List.append_nil]
  | cons c rest => rw [munch_split (Or.inr (by rw [whole]; exact ends c rfl)), alone]

/-- Texts with their tokens: at each place the longest lexeme there is. -/
inductive Munches : List Char → List (List Char) → Prop
  | done : Munches [] []
  | blank {c : Char} {rest : List Char} {ts : List (List Char)} (skipped : isLexeme [c] = false)
      (later : Munches rest ts) : Munches (c :: rest) ts
  | lexeme {cs rest : List Char} {ts : List (List Char)} (found : isLexeme cs = true)
      (longest : ∀ more, more ≠ [] → more <+: rest → isLexeme (cs ++ more) = false) (later : Munches rest ts) :
      Munches (cs ++ rest) (emit cs ++ ts)

theorem munches_start (c : Char) (later : Munches (start c ++ rest) (munch (start c) rest)) :
    Munches (c :: rest) (munch (start c) rest) := by
  cases here : isLexeme [c] with
  | true =>
    rw [start, here] at later ⊢
    exact later
  | false =>
    rw [start, here] at later ⊢
    exact .blank here later

theorem munches_munch (begun : cur = [] ∨ isLexeme cur = true) : Munches (cur ++ rest) (munch cur rest) := by
  induction rest generalizing cur with
  | nil =>
    rcases begun with rfl | found
    · exact .done
    · have none : ∀ more, more ≠ [] → more <+: [] → isLexeme (cur ++ more) = false :=
        fun more given within => absurd (List.prefix_nil.1 within) given
      simpa only [munch, List.append_nil] using Munches.lexeme found none .done
  | cons c rest ih =>
    have next : Munches (c :: rest) (munch (start c) rest) := by
      refine munches_start c (ih ?_)
      cases here : isLexeme [c] with
      | true => exact Or.inr (by rw [start, here]; exact here)
      | false => exact Or.inl (by rw [start, here]; rfl)
    rw [munch]
    split
    · rename_i further
      have later := ih (Or.inr further)
      rwa [List.append_assoc] at later
    · rename_i ends
      rcases begun with rfl | found
      · exact next
      · refine .lexeme found (fun more given within => ?_) next
        -- a longer lexeme would begin with the character that ends this one
        obtain ⟨d, more, rfl⟩ := List.exists_cons_of_ne_nil given
        obtain ⟨rfl, _⟩ := List.cons_prefix_cons.1 within
        by_contra longer
        have whole : isLexeme ((cur ++ [d]) ++ more) = true := by
          rw [List.append_assoc]
          exact Bool.not_eq_false _ ▸ longer
        exact ends (isLexeme_of_append (by simp) whole)

theorem munches_iff : Munches xs ts ↔ munch [] xs = ts := by
  constructor
  · intro munches
    induction munches with
    | done => rfl
    | blank skipped _ ih =>
      rw [munch, List.nil_append, skipped, if_neg Bool.false_ne_true, start, skipped, ← ih]
      rfl
    | lexeme found longest _ ih =>
      rw [munch_lexeme found, ih]
      intro c first
      obtain ⟨more, rfl⟩ := List.head?_eq_some_iff.1 first
      exact longest [c] (List.cons_ne_nil c []) (List.prefix_append [c] more)
  · rintro rfl
    exact munches_munch (Or.inl rfl)

example : tokens "((-2 - x) + 1e-5f) /* a - b */ <<= --y" =
    ["(", "(", "-", "2", "-", "x", ")", "+", "1e-5f", ")", "<<=", "--", "y"] := by decide +kernel

/-! ### Texts without comments -/

theorem pending_suffix (cur xs : List Char) : pending cur xs <:+ cur ++ xs := by
  induction xs generalizing cur with
  | nil => rw [pending, List.append_nil]
  | cons c rest ih =>
    rw [pending]
    split
    · simpa using ih (cur ++ [c])
    · refine (ih (start c)).trans ?_
      refine List.IsSuffix.trans ?_ (List.suffix_append cur (c :: rest))
      unfold start
      split
      · exact List.suffix_refl _
      · exact List.suffix_cons c rest

/-- Texts that open no comment, wherever more text follows. -/
def isTame : List Char → Bool
  | [] => true
  | c :: rest => (c != '/' || rest.head?.any fun d => d != '/' && d != '*') && isTame rest

theorem isTame_append (first : isTame xs = true) (second : isTame ys = true) : isTame (xs ++ ys) = true := by
  induction xs with
  | nil => exact second
  | cons c rest ih =>
    rw [isTame, Bool.and_eq_true] at first
    rw [List.cons_append, isTame, Bool.and_eq_true]
    refine ⟨?_, ih first.2⟩
    cases rest with
    | nil =>
      rw [List.head?_nil, Option.any_none, Bool.or_false] at first
      rw [first.1, Bool.true_or]
    | cons d rest => exact first.1

theorem isTame_of_not_mem (without : '/' ∉ xs) : isTame xs = true := by
  induction xs with
  | nil => rfl
  | cons c rest ih =>
    rw [List.mem_cons, not_or] at without
    rw [isTame, ih without.2]
    simp [Ne.symm without.1]

theorem isTame_of_suffix (suffix : cs <:+ xs) (tame : isTame xs = true) : isTame cs = true := by
  obtain ⟨front, rfl⟩ := suffix
  induction front with
  | nil => exact tame
  | cons c front ih =>
    rw [List.cons_append, isTame, Bool.and_eq_true] at tame
    exact ih tame.2

theorem isComment_opens (h : isComment cs = true) : ∃ d rest, cs = '/' :: d :: rest ∧ (d = '/' ∨ d = '*') := by
  unfold isComment at h
  split at h
  · exact ⟨_, _, rfl, Or.inl rfl⟩
  · exact ⟨_, _, rfl, Or.inr rfl⟩
  · cases h

theorem isComment_of_isTame (tame : isTame cs = true) (given : cs ≠ []) : isComment (cs ++ [c]) = false := by
  refine Bool.eq_false_iff.2 fun comment => ?_
  obtain ⟨d, rest, same, opens⟩ := isComment_opens comment
  match cs, given with
  | [first], _ =>
    cases same
    cases tame
  | first :: e :: others, _ =>
    cases same
    rcases opens with rfl | rfl <;> cases tame

/-- Characters that no lexeme but a comment goes on with. -/
def isClosing (c : Char) : Bool := c == ' ' || c == ')'

theorem not_closing_of_isWordChar (h : isWordChar c = true) : isClosing c = false := by
  refine Bool.eq_false_iff.2 fun closing => ?_
  rw [isClosing, Bool.or_eq_true, beq_iff_eq, beq_iff_eq] at closing
  rcases closing with rfl | rfl <;> cases h

theorem not_closing_of_isNumberTail {before : Char} (h : isNumberTail before cs = true) :
    ∀ c ∈ cs, isClosing c = false := by
  induction cs generalizing before with
  | nil => exact fun c member => absurd member List.not_mem_nil
  | cons d rest ih =>
    rw [isNumberTail, Bool.and_eq_true] at h
    refine List.forall_mem_cons.2 ⟨?_, ih h.2⟩
    simp only [Bool.or_eq_true, Bool.and_eq_true, beq_iff_eq] at h
    rcases h.1 with (word | rfl) | ⟨rfl | rfl, _⟩
    · exact not_closing_of_isWordChar word
    all_goals rfl

theorem isWordChar_of_isDigit (h : c.isDigit = true) : isWordChar c = true := by
  rw [isWordChar, Char.isAlphanum, h, Bool.or_true, Bool.true_or]

theorem not_closing_of_isNumber (h : isNumber cs = true) : ∀ c ∈ cs, isClosing c = false := by
  unfold isNumber at h
  split at h
  · rw [Bool.and_eq_true] at h
    refine List.forall_mem_cons.2 ⟨rfl, List.forall_mem_cons.2 ⟨?_, not_closing_of_isNumberTail h.2⟩⟩
    exact not_closing_of_isWordChar (isWordChar_of_isDigit h.1)
  · rw [Bool.and_eq_true] at h
    exact List.forall_mem_cons.2 ⟨not_closing_of_isWordChar (isWordChar_of_isDigit h.1),
      not_closing_of_isNumberTail h.2⟩
  · cases h

theorem not_closing_of_isWord (h : isWord cs = true) : ∀ c ∈ cs, isClosing c = false := by
  cases cs with
  | nil => cases h
  | cons d rest =>
    rw [isWord, Bool.and_eq_true, Bool.and_eq_true, List.all_eq_true] at h
    exact List.forall_mem_cons.2 ⟨not_closing_of_isWordChar h.1.1,
      fun c member => not_closing_of_isWordChar (h.2 c member)⟩

theorem isLexeme_closing (closing : isClosing c = true) (tame : isTame cs = true) (given : cs ≠ []) :
    isLexeme (cs ++ [c]) = false := by
  have operator : ∀ op ∈ operators, op.all (fun c => !isClosing c) = true := by decide +kernel
  have last : c ∈ cs ++ [c] := List.mem_append_right _ List.mem_cons_self
  have length : 2 ≤ (cs ++ [c]).length := by
    have := List.length_pos_iff.2 given
    rw [List.length_append, List.length_singleton]
    omega
  refine Bool.eq_false_iff.2 fun h => ?_
  rcases (isLexeme_longer_iff length).1 h with word | number | listed | comment
  · exact Bool.eq_false_iff.1 (not_closing_of_isWord word c last) closing
  · exact Bool.eq_false_iff.1 (not_closing_of_isNumber number c last) closing
  · have other := List.all_eq_true.1 (operator _ listed) c last
    rw [closing] at other
    cases other
  · exact Bool.eq_false_iff.1 (isComment_of_isTame tame given) comment

theorem munch_closing (closing : isClosing c = true) (tame : isTame xs = true) :
    munch [] (xs ++ c :: ys) = munch [] xs ++ munch [] (c :: ys) := by
  refine munch_split ?_
  by_cases empty : pending [] xs = []
  · exact Or.inl empty
  · exact Or.inr (isLexeme_closing closing (isTame_of_suffix (pending_suffix [] xs) tame) empty)

end ShaderForge.Lexer
