import ShaderForge.Proofs.Source.Renderings
import ShaderForge.Proofs.Source.Resources
import ShaderForge.Proofs.Source.Spelling
import ShaderForge.Proofs.Typing.Wide

/-!
Operators in print. Blanks and parentheses keep an operator apart from its operands, but nothing stands
between a unary operator and its operand. Only a minus before a negative constant runs into it.
-/

namespace ShaderForge.Statement

open Buffer Linkage Lexer

variable {s t : Scope} {worded : Bool} {p : Printers} {i src : Index} {a : Atom} {text : String}

/-! ### Negative constants -/

/-- Atoms that are written out as a negative constant, or as a read of one as it is. -/
inductive Negative (s : Scope) (worded : Bool) : Index → Prop
  | literal {i : Index} {v : Literal} (unbound : s.locals[i]? = none) (held : s.atom i = .ok (.literal v))
      (negative : v.isNegative worded = true) : Negative s worded i
  | read {i src : Index} {field : Int32} (unbound : s.locals[i]? = none) (held : s.atom i = .ok (.load src field))
      (whole : field < 0) (inner : Negative s worded src) : Negative s worded i

/-- What printing relies on: types, names, and how the dialect spells things. -/
structure Printable (s : Scope) (worded : Bool) : Prop where
  tidy : s.dialect.Tidy s.unit worded
  named : s.unit.PlainlyNamed
  typed : s.buffer.size ≠ 0 → s.buffer.Typed
  locals : ∀ (i : Index) (name : String), s.locals[i]? = some name → IsName name

theorem Printable.typing (printable : Printable s worded) (held : s.atom i = .ok a) :
    ∃ ty, s.typeOf i = .ok ty ∧ (Typing.rule s.buffer i a).value? s.buffer.table = some ty ∧ s.buffer.Typed := by
  obtain ⟨n, rfl, found⟩ := atom_found held
  have inside := (Array.getElem?_eq_some_iff.1 found).1
  have typed := printable.typed (Nat.ne_of_gt (Nat.zero_lt_of_lt inside))
  have remembered : n < s.buffer.types.size := by
    rw [typed.complete]
    exact inside
  have known : s.buffer.types[n]? = some s.buffer.types[n] := Array.getElem?_eq_getElem remembered
  refine ⟨_, ?_, (typed.confirmed n a found).trans known, typed⟩
  rw [Member.typeOf, TargetFault.ofFault_ok_iff]
  exact typed.typeOf_ok_iff.2 known

theorem Printable.negative_typeOf (printable : Printable s worded) (signed : Negative s worded i) :
    ∃ v : Literal, s.typeOf i = .ok (.prim v.ty) := by
  induction signed with
  | @literal i v _ held _ =>
    obtain ⟨ty, answer, value, _⟩ := printable.typing held
    cases value
    exact ⟨v, answer⟩
  | @read i src field _ held whole _ ih =>
    obtain ⟨v, inner⟩ := ih
    obtain ⟨ty, answer, value, typed⟩ := printable.typing held
    rw [Member.typeOf, TargetFault.ofFault_ok_iff] at inner
    simp only [Typing.rule, Inquiry.value?_bind, Inquiry.value?_typeOf, typed.typeOf_ok_iff.1 inner] at value
    rcases Typing.load_cases value with ⟨_, rfl⟩ | ⟨_, _, _, _, same, _⟩
    · exact ⟨v, answer⟩
    · cases same

/-- Selections and fields are not taken of constants, nor elements. -/
theorem Printable.not_negative (printable : Printable s worded) (held : s.atom i = .ok a)
    (selects : (∃ code, a = .swizzle src code) ∨ (∃ field, a = .load src field ∧ ¬ field < 0) ∨
      ∃ loc, a = .access src loc) : ¬ Negative s worded src := by
  intro signed
  obtain ⟨v, inner⟩ := printable.negative_typeOf signed
  obtain ⟨ty, _, value, typed⟩ := printable.typing held
  rw [Member.typeOf, TargetFault.ofFault_ok_iff] at inner
  have known := typed.typeOf_ok_iff.1 inner
  rcases selects with ⟨code, rfl⟩ | ⟨field, rfl, part⟩ | ⟨loc, rfl⟩
  · simp only [Typing.rule, Inquiry.value?_bind, Inquiry.value?_typeOf, known] at value
    cases v <;> cases value
  · simp only [Typing.rule, Inquiry.value?_bind, Inquiry.value?_typeOf, known] at value
    rcases Typing.load_cases value with ⟨whole, _⟩ | ⟨_, _, _, _, same, _⟩
    · exact part whole
    · cases same
  · simp only [Typing.rule, Inquiry.value?_bind, Inquiry.value?_typeOf, known] at value
    cases v <;> cases value

theorem Printable.negation (printable : Printable s worded) {code : Operator} {x y : Index}
    (held : s.atom i = .ok (.operation code x y)) (alone : y.isNull = true) : code.symbol = "-" ↔ code = .negation := by
  obtain ⟨ty, _, value, _⟩ := printable.typing held
  simp only [Typing.rule, Inquiry.value?_bind, Inquiry.value?_ofExcept, Inquiry.value?_typesOf] at value
  obtain ⟨args, asked, value⟩ := Option.bind_eq_some_iff.1 value
  obtain ⟨signature, member, fits, _⟩ := Overload.select_fits (Except.toOption_eq_some_iff.1 value)
  have two : ∀ signature ∈ Overload.ofOperator .subtraction, signature.args.length = 2 := by decide +kernel
  have few : args.length ≤ 1 := by
    rw [(Aggregates.mapM_some_getElem? asked).1, List.filter_cons, List.filter_cons, alone]
    split <;> simp
  constructor
  · intro minus
    cases code with
    | negation => rfl
    | subtraction =>
      have length := congrArg List.length fits
      rw [two signature member, List.length_map, List.length_map] at length
      omega
    | _ => exact absurd minus (by decide)
  · rintro rfl
    rfl

/-! ### How expressions begin -/

/-- Printers whose values begin with a minus where they are negative constants, and nowhere else. -/
structure Proper (s : Scope) (worded : Bool) (p : Printers) : Prop where
  value : ∀ i text, p.value i = .ok text → Headed (Negative s worded i) text
  place : ∀ i text, p.place i = .ok text → Tame text

theorem not_negative_of_atom (held : s.atom i = .ok a) (literal : ∀ v, a ≠ .literal v) (load : ∀ src field, a ≠ .load src field) :
    ¬ Negative s worded i := by
  intro signed
  cases signed with
  | literal _ other _ => exact literal _ (Except.ok.inj (held.symm.trans other))
  | read _ other _ _ => exact load _ _ (Except.ok.inj (held.symm.trans other))

theorem Printable.tame_operand (printable : Printable s worded) {print : Index → Printed}
    (tame : ∀ text, print src = .ok text → Tame text) (printed : s.operand print src = .ok text) : Tame text := by
  obtain ⟨inner, before, printed⟩ := Except.bind_ok printed
  obtain ⟨ty, _, printed⟩ := Except.bind_ok printed
  split at printed
  · split at printed
    · obtain ⟨phantom, _, printed⟩ := Except.bind_ok printed
      cases printed
      exact (printable.tidy.dereference phantom).tame (tame _ before)
    · cases printed
      exact tame _ before
  · cases printed
    exact tame _ before

theorem Printable.headed_operand (printable : Printable s worded) {print : Index → Printed}
    (headed : ∀ text, print src = .ok text → Headed (Negative s worded src) text)
    (printed : s.operand print src = .ok text) : Headed (Negative s worded src) text := by
  obtain ⟨inner, before, printed⟩ := Except.bind_ok printed
  obtain ⟨ty, typed, printed⟩ := Except.bind_ok printed
  split at printed
  · rename_i refers
    split at printed
    · obtain ⟨phantom, _, printed⟩ := Except.bind_ok printed
      cases printed
      have plain : ¬ Negative s worded src := by
        intro signed
        obtain ⟨v, same⟩ := printable.negative_typeOf signed
        cases typed.symm.trans same
        cases refers
      have none : Negative s worded src ↔ False := iff_false_intro plain
      exact ((printable.tidy.dereference phantom).headed ((headed _ before).iff none)).iff none.symm
    · cases printed
      exact headed _ before
  · cases printed
    exact headed _ before

theorem Printable.load_text (printable : Printable s worded) {print : Index → Printed} {field : Int32}
    (printed : s.load print src field = .ok text) : ∃ base, s.operand print src = .ok base ∧
      (field < 0 ∧ text = base ∨ ¬ field < 0 ∧ ∃ name, Tame name ∧ text = base ++ "." ++ name) := by
  obtain ⟨base, operand, printed⟩ := Except.bind_ok printed
  refine ⟨base, operand, ?_⟩
  split at printed
  · cases printed
    exact Or.inl ⟨‹_›, rfl⟩
  · obtain ⟨ty, _, printed⟩ := Except.bind_ok printed
    obtain ⟨n, _, printed⟩ := Except.bind_ok printed
    split at printed
    · rename_i f found
      cases printed
      obtain ⟨aggregate, known, member⟩ := Option.bind_eq_some_iff.1 found
      exact Or.inr ⟨‹_›, f.name, printable.named.tame_field known (List.mem_of_getElem? member), rfl⟩
    · cases printed

theorem Printable.tame_load (printable : Printable s worded) {print : Index → Printed}
    (tame : ∀ text, print src = .ok text → Tame text) {field : Int32} (printed : s.load print src field = .ok text) :
    Tame text := by
  obtain ⟨base, operand, ⟨_, rfl⟩ | ⟨_, name, plain, rfl⟩⟩ := printable.load_text printed
  · exact printable.tame_operand tame operand
  · exact ((printable.tame_operand tame operand).append (by decide)).append plain

theorem Proper.items (proper : Proper s worded p) {items : List Index} {texts : List String}
    (printed : items.mapM p.value = .ok texts) : ∀ text ∈ texts, Tame text := by
  have each := Except.mapM_ok_iff.1 printed
  clear printed
  induction each with
  | nil => exact fun text member => absurd member List.not_mem_nil
  | cons first _ ih => exact List.forall_mem_cons.2 ⟨(proper.value _ _ first).tame, ih⟩

theorem Proper.arguments (proper : Proper s worded p) {parameters : List Ty} {items : List Index}
    {texts : List String} (printed : Scope.callArguments p parameters items = .ok texts) : ∀ text ∈ texts, Tame text := by
  induction items generalizing parameters texts with
  | nil =>
    cases printed
    exact fun text member => absurd member List.not_mem_nil
  | cons item rest ih =>
    rw [Scope.callArguments] at printed
    have listed : ∀ first, Tame first → (do return first :: (← Scope.callArguments p parameters.tail rest)) = .ok texts →
        ∀ text ∈ texts, Tame text := by
      intro first tame printed
      obtain ⟨later, others, printed⟩ := Except.bind_ok printed
      cases printed
      exact List.forall_mem_cons.2 ⟨tame, ih others⟩
    split at printed
    · obtain ⟨first, one, printed⟩ := Except.bind_ok printed
      exact listed first (proper.place item first one) printed
    · obtain ⟨first, one, printed⟩ := Except.bind_ok printed
      exact listed first (proper.value item first one).tame printed

theorem Printable.qualifier (printable : Printable s worded) {kind : Qualifier} {number : Int32}
    (printed : s.qualifier i kind number = .ok text) : Headed False text := by
  have block : ∀ g phantom, Headed False (s.dialect.blockMember (s.dialect.global g) phantom) :=
    fun g phantom => (printable.tidy.blockMember phantom).headed (printable.tidy.global g)
  unfold Scope.qualifier at printed
  split at printed
  · cases printed
    exact (Headed.of_name (a := "_arg") (by decide)).append (headed_nat _).tame
  · simp only at printed
    split at printed
    · split at printed
      case h_4 =>
        cases printed
        exact printable.tidy.global _
      all_goals
        obtain ⟨ty, _, printed⟩ := Except.bind_ok printed
        split at printed
        all_goals
          obtain ⟨phantom, _, printed⟩ := Except.bind_ok printed
          cases printed
          exact block _ phantom
    · cases printed

theorem Printable.symbol (printable : Printable s worded) {id : FunctionId} (known : s.symbol id = .ok text) :
    Headed False text := printable.named.headed_symbol (Scope.symbol_ok_iff.1 known)

theorem not_negative_of_placeholder {ty : Index} {mode : Mode} (stands : s.isPlaceholder ty mode = true) :
    ¬ Negative s worded ty := by
  rw [Member.isPlaceholder, Bool.and_eq_true] at stands
  have held := stands.2
  split at held
  · rename_i found
    exact not_negative_of_atom (Member.atom_ok_iff.2 found) (fun _ other => by cases other) (fun _ _ other => by cases other)
  · cases held

theorem Printable.construct (printable : Printable s worded) (proper : Proper s worded p) {ty args : Index} {mode : Mode}
    (printed : s.construct p i ty args mode = .ok text) : Headed False text := by
  unfold Scope.construct at printed
  split at printed
  · rename_i stands
    exact (proper.value ty text printed).iff (iff_false_intro (not_negative_of_placeholder stands))
  · obtain ⟨own, _, printed⟩ := Except.bind_ok printed
    obtain ⟨resolved, _, printed⟩ := Except.bind_ok printed
    obtain ⟨name, known, printed⟩ := Except.bind_ok printed
    obtain ⟨items, _, printed⟩ := Except.bind_ok printed
    obtain ⟨texts, listed, printed⟩ := Except.bind_ok printed
    have headed := printable.tidy.typeName _ _ known
    have each := proper.items listed
    split at printed
    · split at printed
      · rename_i address
        cases printed
        exact printable.tidy.addressCast name address headed (each address List.mem_cons_self)
      · cases printed
    · cases printed
      exact printable.tidy.construct resolved name texts headed each

theorem Printable.operation (printable : Printable s worded) (code : Operator) {x : String} {signed : Prop}
    (first : Headed signed x) : Headed False (s.dialect.operation code x none) ∧
      ∀ y, Tame y → Headed False (s.dialect.operation code x (some y)) := by
  rw [printable.tidy.unary]
  refine ⟨?_, fun y second => ?_⟩
  · have grouped := (Headed.paren.append (first.tame_symbol code)).append (b := ")") (by decide)
    rwa [← String.append_assoc] at grouped
  · have middle : Tame (" " ++ code.symbol ++ " ") := by cases code <;> decide
    rw [printable.tidy.binary, show "(" ++ x ++ " " ++ code.symbol ++ " " ++ y ++ ")" =
      "(" ++ x ++ (" " ++ code.symbol ++ " ") ++ y ++ ")" by simp only [String.append_assoc]]
    exact (((Headed.paren.append first.tame).append middle).append second).append (by decide)

theorem Printable.expression (printable : Printable s worded) (proper : Proper s worded p) (unbound : s.locals[i]? = none)
    (printed : s.expression p i = .ok text) : Headed (Negative s worded i) text := by
  obtain ⟨a, held, printed⟩ := Except.bind_ok printed
  -- all but constants and reads begin as they do wherever they stand
  have plain : (∀ v, a ≠ .literal v) → (∀ src field, a ≠ .load src field) → Headed False text →
      Headed (Negative s worded i) text := fun literal load headed =>
    headed.iff (iff_of_false id (not_negative_of_atom held literal load))
  cases a with
  | qualifier _ kind number => exact plain nofun nofun (printable.qualifier printed)
  | literal v =>
    cases printed
    refine (printable.tidy.literal v).iff ⟨.literal unbound held, fun signed => ?_⟩
    cases signed with
    | literal _ other negative =>
      cases held.symm.trans other
      exact negative
    | read _ other =>
      cases held.symm.trans other
  | swizzle src code =>
    obtain ⟨inner, one, printed⟩ := Except.bind_ok printed
    cases printed
    have whole := iff_false_intro (printable.not_negative held (Or.inl ⟨code, rfl⟩))
    exact plain nofun nofun ((printable.tidy.swizzle code).headed ((proper.value src inner one).iff whole))
  | operation code x y =>
    refine plain nofun nofun ?_
    obtain ⟨left, one, printed⟩ := Except.bind_ok printed
    obtain ⟨unary, binary⟩ := printable.operation code (proper.value x left one)
    split at printed
    · cases printed
      exact unary
    · obtain ⟨right, two, printed⟩ := Except.bind_ok printed
      cases printed
      exact binary right (proper.value y right two).tame
  | intrinsic code args =>
    obtain ⟨items, _, printed⟩ := Except.bind_ok printed
    obtain ⟨texts, listed, printed⟩ := Except.bind_ok printed
    exact plain nofun nofun (printable.tidy.intrinsic code texts text (proper.items listed) printed)
  | construct ty args mode => exact plain nofun nofun (printable.construct proper printed)
  | call callee _ args =>
    obtain ⟨items, _, printed⟩ := Except.bind_ok printed
    obtain ⟨texts, listed, printed⟩ := Except.bind_ok printed
    obtain ⟨symbol, named, printed⟩ := Except.bind_ok printed
    cases printed
    exact plain nofun nofun (printable.tidy.call callee symbol texts (printable.symbol named) (proper.arguments listed))
  | load src field =>
    obtain ⟨base, operand, ⟨whole, rfl⟩ | ⟨part, name, tame, rfl⟩⟩ := printable.load_text printed
    · refine (printable.headed_operand (proper.value src) operand).iff ⟨.read unbound held whole, fun signed => ?_⟩
      cases signed with
      | literal _ other =>
        cases held.symm.trans other
      | read _ other _ inner =>
        cases held.symm.trans other
        exact inner
    · have whole := iff_false_intro (printable.not_negative held (Or.inr (Or.inl ⟨field, rfl, part⟩)))
      have begins := (printable.headed_operand (proper.value src) operand).iff whole
      refine ((begins.append (by decide)).append tame).iff (iff_of_false id fun signed => ?_)
      cases signed with
      | literal _ other =>
        cases held.symm.trans other
      | read _ other whole =>
        cases held.symm.trans other
        exact part whole
  | access src loc =>
    obtain ⟨base, operand, printed⟩ := Except.bind_ok printed
    obtain ⟨place, one, printed⟩ := Except.bind_ok printed
    cases printed
    have whole := iff_false_intro (printable.not_negative held (Or.inr (Or.inr ⟨loc, rfl⟩)))
    have begins := (printable.headed_operand (proper.value src) operand).iff whole
    exact plain nofun nofun (((begins.append (by decide)).append (proper.value loc place one).tame).append (by decide))
  | _ => cases printed

theorem Printable.valueOf (printable : Printable s worded) (proper : Proper s worded p) (printed : s.valueOf p i = .ok text) :
    Headed (Negative s worded i) text := by
  unfold Scope.valueOf at printed
  split at printed
  · rename_i name bound
    cases printed
    refine (Headed.of_name (printable.locals i _ bound)).iff (iff_of_false id fun signed => ?_)
    cases signed with
    | literal unbound | read unbound =>
      rw [bound] at unbound
      cases unbound
  · rename_i unbound
    exact printable.expression proper unbound printed

theorem Printable.placeOf (printable : Printable s worded) (proper : Proper s worded p) (printed : s.placeOf p i = .ok text) :
    Tame text := by
  obtain ⟨a, held, printed⟩ := Except.bind_ok printed
  cases a with
  | swizzle src code =>
    obtain ⟨inner, one, printed⟩ := Except.bind_ok printed
    cases printed
    exact (printable.tidy.swizzleTarget code).tame (proper.place src inner one)
  | load src field => exact printable.tame_load (proper.place src) printed
  | access src loc =>
    obtain ⟨base, operand, printed⟩ := Except.bind_ok printed
    obtain ⟨place, one, printed⟩ := Except.bind_ok printed
    cases printed
    have inner := printable.tame_operand (proper.place src) operand
    exact ((inner.append (by decide)).append (proper.value loc place one).tame).append (by decide)
  | construct ty args mode =>
    simp only at printed
    split at printed
    · exact proper.place ty text printed
    · exact (printable.valueOf proper printed).tame
  | _ => exact (printable.valueOf proper printed).tame

theorem Printable.printers (printable : Printable s worded) (depth : Nat) : Proper s worded (s.printers depth) := by
  induction depth with
  | zero => exact ⟨fun i text printed => (by cases printed), fun i text printed => (by cases printed)⟩
  | succ depth ih => exact ⟨fun i text => printable.valueOf ih, fun i text => printable.placeOf ih⟩

/-! ### Symbols between tokens -/

variable {code : Operator} {c : Char} {ys : List Char}

theorem isLexeme_marked {d : Char} {rest : List Char} (more : rest ≠ []) (mark : isWordChar d = false ∧ d ≠ '.')
    (quiet : isComment (d :: rest) = false) (unlisted : d :: rest ∉ operators) : isLexeme (d :: rest) = false := by
  have length : 2 ≤ (d :: rest).length := by
    have := List.length_pos_iff.2 more
    rw [List.length_cons]
    omega
  refine Bool.eq_false_iff.2 fun h => ?_
  rcases (isLexeme_longer_iff length).1 h with word | number | listed | comment
  · rw [isWord, mark.1] at word
    cases word
  · rw [isNumber.eq_2 _ _ fun _ _ same _ => mark.2 same, Bool.and_eq_true] at number
    exact Bool.eq_false_iff.1 mark.1 (isWordChar_of_isDigit number.1)
  · exact unlisted listed
  · exact Bool.eq_false_iff.1 quiet comment

theorem munch_paren (ys : List Char) : munch [] ('(' :: ys) = ['('] :: munch [] ys := by
  have operator : ∀ op ∈ operators, op.head? ≠ some '(' := by decide +kernel
  have alone : ∀ c, isLexeme ['(', c] = false := fun c =>
    isLexeme_marked (List.cons_ne_nil c []) (by decide) rfl fun listed => operator _ listed rfl
  exact munch_lexeme (show isLexeme ['('] = true from rfl) fun c _ => alone c

theorem munch_minuses (ys : List Char) : munch [] ('-' :: '-' :: ys) = ['-', '-'] :: munch [] ys := by
  have operator : ∀ op ∈ operators, op.take 2 = ['-', '-'] → op.length = 2 := by decide +kernel
  have alone : ∀ c, isLexeme ['-', '-', c] = false := fun c =>
    isLexeme_marked (List.cons_ne_nil '-' [c]) (by decide) rfl fun listed => by cases operator _ listed rfl
  exact munch_lexeme (show isLexeme ['-', '-'] = true from rfl) fun c _ => alone c

theorem munch_symbol (apart : isLexeme (code.symbol.toList ++ [c]) = false) :
    munch [] (code.symbol.toList ++ c :: ys) = code.symbol.toList :: munch [] (c :: ys) := by
  have symbol : isLexeme code.symbol.toList = true := by cases code <;> decide +kernel
  have token : emit code.symbol.toList = [code.symbol.toList] := by cases code <;> rfl
  rw [munch_lexeme symbol (by rintro _ ⟨⟩; exact apart), token]
  rfl

/-- Only a minus runs into the text after it, and only into another one. -/
theorem symbol_apart (opens : isWordChar c = true ∨ c = '(' ∨ c = '-') :
    isLexeme (code.symbol.toList ++ [c]) = false ∨ code.symbol = "-" ∧ c = '-' := by
  have operator : ∀ op ∈ operators, op.all (fun d => !isWordChar d && d != '(') = true := by decide +kernel
  by_cases minus : c = '-'
  · subst minus
    cases code with
    | subtraction | negation => exact Or.inr ⟨rfl, rfl⟩
    | _ => exact Or.inl (by decide +kernel)
  · left
    have unlisted : code.symbol.toList ++ [c] ∉ operators := by
      intro listed
      have mark := List.all_eq_true.1 (operator _ listed) c (List.mem_append_right _ List.mem_cons_self)
      rcases opens with word | rfl | same
      · rw [word] at mark
        cases mark
      · cases mark
      · exact minus same
    have quiet : isComment ['/', c] = false := by
      refine Bool.eq_false_iff.2 fun comment => ?_
      obtain ⟨_, _, same, rfl | rfl⟩ := isComment_opens comment
      all_goals
        cases same
        revert opens
        decide
    cases code with
    | division => exact isLexeme_marked (by simp) (by decide) quiet unlisted
    | _ => exact isLexeme_marked (by simp) (by decide) rfl unlisted

theorem munch_blank (ys : List Char) : munch [] (' ' :: ys) = munch [] ys := rfl

theorem tokens_binary {x y : String} (first : Tame x) (second : Tame y) :
    tokens ("(" ++ x ++ " " ++ code.symbol ++ " " ++ y ++ ")") =
      "(" :: (tokens x ++ code.symbol :: (tokens y ++ [")"])) := by
  have text : ("(" ++ x ++ " " ++ code.symbol ++ " " ++ y ++ ")").toList =
      '(' :: (x.toList ++ ' ' :: (code.symbol.toList ++ ' ' :: (y.toList ++ [')']))) := by
    simp [String.toList_append]
  have apart : isLexeme (code.symbol.toList ++ [' ']) = false := by cases code <;> decide +kernel
  have last : munch [] [')'] = [[')']] := by decide +kernel
  unfold tokens
  rw [text, munch_paren, munch_closing (by decide) first, munch_blank, munch_symbol apart, munch_blank,
    munch_closing (by decide) second, last]
  simp

theorem tokens_unary {signed : Prop} {x : String} (headed : Headed signed x) :
    tokens ("(" ++ code.symbol ++ x ++ ")") = "(" :: code.symbol :: (tokens x ++ [")"]) ↔
      ¬ (code.symbol = "-" ∧ signed) := by
  obtain ⟨tame, c, rest, same, opens⟩ := headed
  have text : ("(" ++ code.symbol ++ x ++ ")").toList = '(' :: (code.symbol.toList ++ c :: (rest ++ [')'])) := by
    simp [String.toList_append, same]
  have last : munch [] [')'] = [[')']] := by decide +kernel
  constructor
  · rintro split ⟨minus, negative⟩
    obtain rfl : c = '-' := (opens.resolve_right fun other => other.1 negative).2
    have fused : munch [] ("-".toList ++ '-' :: (rest ++ [')'])) = ['-', '-'] :: munch [] (rest ++ [')']) :=
      munch_minuses _
    rw [tokens, text, minus, munch_paren, fused, List.map_cons, List.map_cons, List.cons.injEq, List.cons.injEq] at split
    exact absurd split.2.1 (by decide)
  · intro whole
    have apart : isLexeme (code.symbol.toList ++ [c]) = false := by
      rcases opens with ⟨negative, rfl⟩ | ⟨_, begins⟩
      · exact (symbol_apart (Or.inr (Or.inr rfl))).resolve_right fun other => whole ⟨other.1, negative⟩
      · refine (symbol_apart (begins.imp id Or.inl)).resolve_right fun other => ?_
        rw [other.2] at begins
        revert begins
        decide
    rw [tokens, text, munch_paren, munch_symbol apart, ← List.cons_append, ← same, munch_closing (by decide) tame, last]
    simp [tokens]

/-! ### Statements -/

theorem isName_localName (n : Nat) : IsName (Naming.localName n) := by
  have text : (Naming.localName n).toList = 's' :: (toString n).toList := String.toList_append
  refine ⟨text ▸ List.cons_ne_nil _ _, List.all_eq_true.2 fun c member => ?_⟩
  rw [text] at member
  rcases List.mem_cons.1 member with rfl | digit
  · rfl
  · exact isWordChar_of_isDigit (isDigit_of_mem_toString digit)

theorem statements_locals {items : List Index} {st st' : State} (printed : items.foldlM (statement s) st = .ok st')
    (named : ∀ (j : Index) (name : String), st.locals[j]? = some name → IsName name) :
    ∀ (j : Index) (name : String), st'.locals[j]? = some name → IsName name := by
  induction items generalizing st with
  | nil =>
    cases printed
    exact named
  | cons first rest ih =>
    rw [List.foldlM_cons] at printed
    obtain ⟨next, one, printed⟩ := Except.bind_ok printed
    refine ih printed fun j name bound => ?_
    rcases statement_locals one with same | same
    · rw [same] at bound
      exact named j name bound
    · rw [same, Std.ExtTreeMap.getElem?_insert] at bound
      split at bound
      · cases bound
        exact isName_localName _
      · exact named j name bound

def Underway (s t : Scope) : Prop :=
  ∃ done rest st, s.buffer.marked.toList = done ++ rest ∧ done.foldlM (statement s) {} = .ok st ∧
    t = { s with locals := st.locals }

/-- The text dialects, with whether they have a word for infinity. -/
inductive Spells : Dialect → Bool → Prop
  | glsl : Spells Glsl.dialect false
  | cpp : Spells Cpp.dialect true

theorem Spells.tidy {d : Dialect} {u : Linkage} (spells : Spells d worded) (named : u.PlainlyNamed) :
    d.Tidy u worded := by
  cases spells with
  | glsl => exact Glsl.tidy named
  | cpp => exact Cpp.tidy named

theorem printable_of_underway {r : Registry} {entries : List FunctionId} (linked : link r entries = .ok s.unit)
    (member : s.function ∈ s.unit.functions) (named : s.unit.PlainlyNamed) (spells : Spells s.dialect worded)
    (underway : Underway s t) : Printable t worded := by
  obtain ⟨done, rest, st, _, printed, rfl⟩ := underway
  have prepared := ((linked_of_link linked).made.coherent.placed s.function member).prepared
  refine ⟨spells.tidy named, named, prepared.typed, statements_locals printed fun j name bound => ?_⟩
  rw [show ({} : State).locals = ∅ from rfl, Std.ExtTreeMap.getElem?_empty] at bound
  cases bound

/-- Operators are apart from their operands in print, but for a minus before a negative constant. Whenever an
operation is written out, in whatever statement and at whatever depth, the tokens of its text are those of its
operands with a parenthesis on both sides and its symbol between them or before the only one; where the
symbol of a negation meets the minus of a negative constant, and only there, the two are one token. -/
theorem operators_compose {r : Registry} {entries : List FunctionId} (linked : link r entries = .ok s.unit)
    (member : s.function ∈ s.unit.functions) (named : s.unit.PlainlyNamed) (spells : Spells s.dialect worded)
    (underway : Underway s t) {depth : Nat} {x y : Index} (held : t.atom i = .ok (.operation code x y))
    (printed : t.expression (t.printers depth) i = .ok text) :
    ∃ left, (t.printers depth).value x = .ok left ∧
      (y.isNull = false → ∃ right, (t.printers depth).value y = .ok right ∧
        tokens text = "(" :: (tokens left ++ code.symbol :: (tokens right ++ [")"]))) ∧
      (y.isNull = true → (tokens text = "(" :: code.symbol :: (tokens left ++ [")"]) ↔
        ¬ (code = .negation ∧ Negative t worded x))) := by
  have printable := printable_of_underway linked member named spells underway
  have proper := printable.printers depth
  unfold Scope.expression at printed
  rw [held, Except.ok_bind] at printed
  obtain ⟨left, one, printed⟩ := Except.bind_ok printed
  have first := proper.value x left one
  refine ⟨left, one, fun given => ?_, fun alone => ?_⟩
  · rw [given, if_neg Bool.false_ne_true] at printed
    obtain ⟨right, two, printed⟩ := Except.bind_ok printed
    cases printed
    rw [printable.tidy.binary]
    exact ⟨right, two, tokens_binary first.tame (proper.value y right two).tame⟩
  · rw [alone, if_pos rfl] at printed
    cases printed
    rw [printable.tidy.unary, tokens_unary first, printable.negation held alone]

/-- A function that negates -2, or the product of -2 with itself. -/
def negating (product : Bool) : Registry :=
  let b := Buffer.ofContent (if product then
      [.literal (.i32 (-2)), .operation .multiplication (.ref 0) (.ref 0), .operation .negation (.ref 1) .null,
        .ret (.ref 2)]
    else [.literal (.i32 (-2)), .operation .negation (.ref 0) .null, .ret (.ref 1)]) [] []
  (Registry.empty.register "f" b).2

theorem underway_first (s : Scope) : Underway s { s with locals := ∅ } :=
  ⟨[], s.buffer.marked.toList, {}, rfl, rfl, rfl⟩

theorem negated_product_composes :
    ∃ (s t : Scope), link (negating true) [0] = .ok s.unit ∧ s.function ∈ s.unit.functions ∧ s.unit.PlainlyNamed ∧
      Spells s.dialect false ∧ Underway s t ∧ t.atom (.ref 2) = .ok (.operation .negation (.ref 1) .null) ∧
      t.expression (t.printers 3) (.ref 2) = .ok "(-(-2 * -2))" ∧ ¬ Negative t false (.ref 1) ∧
      tokens "(-(-2 * -2))" = "(" :: "-" :: (tokens "(-2 * -2)" ++ [")"]) := by
  obtain ⟨s, linked, member, passes⟩ := exists_scope (negating true) 0 Glsl.dialect (fun s =>
    let t : Scope := { s with dialect := Glsl.dialect, locals := ∅ }
    decide (s.unit.PlainlyNamed ∧
      (t.atom (.ref 1)).toOption = some (.operation .multiplication (.ref 0) (.ref 0)) ∧
      (t.atom (.ref 2)).toOption = some (.operation .negation (.ref 1) .null) ∧
      (t.expression (t.printers 3) (.ref 2)).toOption = some "(-(-2 * -2))" ∧
      ((t.printers 3).value (.ref 1)).toOption = some "(-2 * -2)")) (by decide +kernel)
  obtain ⟨named, product, held, printed, value⟩ := of_decide_eq_true passes
  rw [Except.toOption_eq_some_iff] at product held printed value
  let whole : Scope := { s with dialect := Glsl.dialect }
  have underway : Underway whole { whole with locals := ∅ } := underway_first whole
  have plain : ¬ Negative { whole with locals := ∅ } false (.ref 1) := not_negative_of_atom product nofun nofun
  obtain ⟨left, one, _, unary⟩ := operators_compose (s := whole) linked member named .glsl underway held printed
  cases value.symm.trans one
  exact ⟨whole, _, linked, member, named, .glsl, underway, held, printed, plain, (unary rfl).2 fun both => plain both.2⟩

/-- The negation of -2 decrements 2 in print. -/
theorem negated_constant_fuses :
    ∃ (s t : Scope), link (negating false) [0] = .ok s.unit ∧ s.function ∈ s.unit.functions ∧
      Spells s.dialect false ∧ Underway s t ∧ t.atom (.ref 1) = .ok (.operation .negation (.ref 0) .null) ∧
      t.expression (t.printers 2) (.ref 1) = .ok "(--2)" ∧ (t.printers 2).value (.ref 0) = .ok "-2" ∧
      body s = .ok "    return (--2);\n" ∧ tokens "(--2)" = ["(", "--", "2", ")"] ∧
      tokens "(--2)" ≠ "(" :: "-" :: (tokens "-2" ++ [")"]) := by
  obtain ⟨s, linked, member, passes⟩ := exists_scope (negating false) 0 Glsl.dialect (fun s =>
    let t : Scope := { s with dialect := Glsl.dialect, locals := ∅ }
    decide ((t.atom (.ref 1)).toOption = some (.operation .negation (.ref 0) .null) ∧
      (t.expression (t.printers 2) (.ref 1)).toOption = some "(--2)" ∧
      ((t.printers 2).value (.ref 0)).toOption = some "-2" ∧
      (body { s with dialect := Glsl.dialect }).toOption = some "    return (--2);\n")) (by decide +kernel)
  obtain ⟨held, printed, value, written⟩ := of_decide_eq_true passes
  rw [Except.toOption_eq_some_iff] at held printed value written
  exact ⟨{ s with dialect := Glsl.dialect }, _, linked, member, .glsl, underway_first _, held, printed, value, written,
    by decide +kernel, by decide +kernel⟩

end ShaderForge.Statement
