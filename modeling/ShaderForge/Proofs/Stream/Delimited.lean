import ShaderForge.Proofs.Stream.Readers

/-!
Delimited readers. A reader that succeeds has read a definite piece of a stream: with more bytes after
it the answer is the same, and where the stream is cut the answer is the same or the stream is refused.
So no accepted stream begins another. On any bytes at all a reader stays inside the stream, and what
it reports when it refuses is there.
-/

namespace ShaderForge.Stream

namespace Reader

variable {α β : Type}

/-- How a successful run depends on what follows its start. -/
structure Reads (r : Reader α) (c : Cursor) (a : α) (d : Cursor) : Prop where
  ahead : ∃ used, c.rest = used ++ d.rest ∧ d.position = c.position + used.length
  longer : ∀ more, r.run ⟨c.rest ++ more, c.position⟩ = .ok (a, ⟨d.rest ++ more, d.position⟩)
  shorter : ∀ cut, cut <+: c.rest → (∃ e, r.run ⟨cut, c.position⟩ = .error (.stream e)) ∨
    ∃ left, left <+: d.rest ∧ r.run ⟨cut, c.position⟩ = .ok (a, ⟨left, d.position⟩)

def Delimited (r : Reader α) : Prop := ∀ c a d, r.run c = .ok (a, d) → Reads r c a d

namespace Delimited

theorem pure (a : α) : Delimited (Pure.pure a) := by
  intro c a' d ran
  cases ran
  exact ⟨⟨[], rfl, rfl⟩, fun _ => rfl, fun cut part => Or.inr ⟨cut, part, rfl⟩⟩

theorem throw (e : Fault) : Delimited (throw e : Reader α) := by
  intro c a d ran
  cases ran

theorem refuse (e : StreamDefect) : Delimited (Reader.refuse e : Reader α) := throw _

theorem bind {r : Reader α} {f : α → Reader β} (head : Delimited r) (tail : ∀ a, Delimited (f a)) :
    Delimited (r >>= f) := by
  intro c b d ran
  rw [StateT.run_bind] at ran
  obtain ⟨⟨a, m⟩, first, later⟩ := Except.bind_ok ran
  have reads := head c a m first
  have reads' := tail a m b d later
  refine ⟨?_, ?_, ?_⟩
  · obtain ⟨used, before, count⟩ := reads.ahead
    obtain ⟨used', before', count'⟩ := reads'.ahead
    refine ⟨used ++ used', by rw [before, before', List.append_assoc], ?_⟩
    rw [count', count, List.length_append]
    omega
  · intro more
    rw [StateT.run_bind, reads.longer, Except.ok_bind]
    exact reads'.longer more
  · intro cut part
    rw [StateT.run_bind]
    rcases reads.shorter cut part with ⟨e, refused⟩ | ⟨left, part', same⟩
    · rw [refused]
      exact Or.inl ⟨e, rfl⟩
    · rw [same, Except.ok_bind]
      exact reads'.shorter left part'

/-- Where a reader stands is the same however the stream goes on. -/
theorem get_bind {f : Cursor → Reader β} (same : ∀ c c', c.position = c'.position → f c = f c')
    (each : ∀ c, Delimited (f c)) : Delimited (get >>= f) := by
  intro c b d ran
  have reads := each c c b d ran
  refine ⟨reads.ahead, fun more => ?_, fun cut part => ?_⟩
  · change (f ⟨c.rest ++ more, c.position⟩).run _ = _
    rw [same ⟨c.rest ++ more, c.position⟩ c rfl]
    exact reads.longer more
  · change (∃ e, (f ⟨cut, c.position⟩).run _ = _) ∨ ∃ left, _ ∧ (f ⟨cut, c.position⟩).run _ = _
    rw [same ⟨cut, c.position⟩ c rfl]
    exact reads.shorter cut part

end Delimited

theorem take_run (n : Nat) (c : Cursor) :
    (take n).run c = if n ≤ c.rest.length then .ok (c.rest.take n, ⟨c.rest.drop n, c.position + n⟩)
      else .error (.stream (.unexpectedEnd c.position)) := by
  simp only [take, StateT.run_bind, StateT.run_get, pure_bind]
  split <;> rfl

theorem take_delimited (n : Nat) : Delimited (take n) := by
  intro c raw d ran
  rw [take_run] at ran
  split at ran
  case isFalse => cases ran
  case isTrue enough =>
    cases ran
    have taken : (c.rest.take n).length = n := List.length_take_of_le enough
    refine ⟨⟨c.rest.take n, (List.take_append_drop n _).symm, by rw [taken]⟩, fun more => ?_, fun cut part => ?_⟩
    · rw [take_run, if_pos (by rw [List.length_append]; omega), List.take_append_of_le_length enough,
        List.drop_append_of_le_length enough]
    · rw [take_run]
      split
      · rename_i room
        obtain ⟨gone, whole⟩ := part
        refine Or.inr ⟨cut.drop n, ⟨gone, ?_⟩, ?_⟩
        · rw [← whole, List.drop_append_of_le_length room]
        · rw [← whole, List.take_append_of_le_length room]
      · exact Or.inl ⟨_, rfl⟩

theorem number_delimited (width : Nat) : Delimited (number width) := by
  rw [number, map_eq_pure_bind]
  exact (take_delimited width).bind fun _ => .pure _

theorem byte_delimited : Delimited byte := number_delimited 1

theorem word_delimited : Delimited word := number_delimited 4

theorem signed_delimited : Delimited signed := word_delimited.bind fun _ => .pure _

theorem index_delimited : Delimited index := signed_delimited.bind fun _ => .pure _

theorem code_delimited [Coded α] (family : String) : Delimited (code family : Reader α) := by
  refine (number_delimited 2).bind fun n => ?_
  split
  · exact .pure _
  · exact .refuse _

/-- The check of a length asks for bytes that it does not read: it may fail where the stream is cut,
and nowhere else. -/
theorem length_delimited (unit : Nat) : Delimited (length unit) := by
  refine word_delimited.bind fun n => ?_
  intro c n' d ran
  have opened (c : Cursor) : StateT.run (do
        let c ← get
        if c.rest.length < n * unit then Reader.refuse (.lengthExceeds n (c.position - 4)) else return n) c =
      if c.rest.length < n * unit then .error (.stream (.lengthExceeds n (c.position - 4)))
      else .ok (n, c) := by
    simp only [StateT.run_bind, StateT.run_get, pure_bind]
    split <;> rfl
  rw [opened] at ran
  split at ran
  · cases ran
  · rename_i fits
    cases ran
    refine ⟨⟨[], rfl, rfl⟩, fun more => ?_, fun cut part => ?_⟩
    · rw [opened, if_neg (by simp only [List.length_append]; omega)]
    · rw [opened]
      split
      · exact Or.inl ⟨_, rfl⟩
      · exact Or.inr ⟨cut, part, rfl⟩

theorem text_delimited : Delimited text := by
  refine (length_delimited 1).bind fun n => Delimited.get_bind (fun c c' same => by simp only [same]) ?_
  intro c
  refine (take_delimited n).bind fun raw => ?_
  split
  · exact .pure _
  · exact .refuse _

theorem many_delimited {item : Reader α} (each : Delimited item) (n : Nat) : Delimited (many item n) := by
  induction n with
  | zero => exact .pure _
  | succ n ih => exact each.bind fun _ => ih.bind fun _ => .pure _

theorem literal_delimited : Delimited literal := by
  refine byte_delimited.bind fun kind => (number_delimited 8).bind fun bits => ?_
  split
  case h_7 => exact .refuse _
  all_goals exact .pure _

theorem atom_delimited : Delimited atom := by
  refine Delimited.get_bind (fun c c' same => by simp only [same]) fun c => byte_delimited.bind fun tag => ?_
  have index := index_delimited
  split
  case h_1 => exact index.bind fun _ => signed_delimited.bind fun _ => (code_delimited _).bind fun _ => .pure _
  case h_2 => exact (code_delimited _).bind fun _ => index.bind fun _ => index.bind fun _ => .pure _
  case h_3 => exact literal_delimited.bind fun _ => .pure _
  case h_4 | h_6 => exact index.bind fun _ => (code_delimited _).bind fun _ => .pure _
  case h_5 | h_8 | h_13 =>
    exact index.bind fun _ => index.bind fun _ => (code_delimited _).bind fun _ => .pure _
  case h_7 | h_10 | h_12 => exact index.bind fun _ => index.bind fun _ => .pure _
  case h_9 => exact word_delimited.bind fun _ => index.bind fun _ => index.bind fun _ => .pure _
  case h_11 => exact index.bind fun _ => signed_delimited.bind fun _ => .pure _
  case h_14 => exact index.bind fun _ => .pure _
  case h_15 => exact .refuse _

theorem decoration_delimited : Delimited decoration :=
  index_delimited.bind fun _ => text_delimited.bind fun _ => byte_delimited.bind fun _ =>
    (length_delimited 4).bind fun n => (many_delimited text_delimited n).bind fun _ => .pure _

theorem body_delimited : Delimited body :=
  word_delimited.bind fun _ => (length_delimited 1).bind fun n => (many_delimited atom_delimited n).bind fun _ =>
    (length_delimited 4).bind fun n => (many_delimited index_delimited n).bind fun _ =>
      (length_delimited 4).bind fun n => (many_delimited decoration_delimited n).bind fun _ => .pure _

theorem entry_delimited : Delimited entry := by
  refine text_delimited.bind fun name => body_delimited.bind fun (id, b) => ?_
  cases valid : b.validate with
  | ok _ =>
    simp only [valid]
    exact .pure _
  | error e =>
    simp only [valid]
    exact .throw e

/-- The functions of a stream with their number, whatever follows them. -/
def listed : Reader (Nat × List Entry) := do
  let count ← word
  let entries ← many entry count
  return (count, entries)

theorem listed_delimited : Delimited listed :=
  word_delimited.bind fun count => (many_delimited entry_delimited count).bind fun _ => .pure _

theorem entries_run (c : Cursor) : entries.run c = listed.run c >>= fun ((count, es), d) =>
    if d.rest.isEmpty then .ok (es, d) else .error (.stream (.trailing d.rest.length count)) := by
  simp only [entries, listed, StateT.run_bind, StateT.run_get, StateT.run_pure, bind_assoc, pure_bind]
  congr 1
  funext (count, c)
  congr 1
  funext (es, d)
  dsimp only
  split <;> rfl

end Reader

open Reader

theorem readEntries_ok_iff {bytes : Bytes} {es : List Entry} : readEntries bytes = .ok es ↔
    ∃ count position, listed.run ⟨bytes, 0⟩ = .ok ((count, es), ⟨[], position⟩) := by
  unfold readEntries
  rw [entries_run]
  cases ran : listed.run ⟨bytes, 0⟩ with
  | error e => simp [Bind.bind, Except.bind, Functor.map, Except.map]
  | ok answer =>
    obtain ⟨⟨count, es'⟩, rest, position⟩ := answer
    rw [Except.ok_bind]
    cases rest with
    | nil => simp [Functor.map, Except.map]
    | cons first more => simp [Functor.map, Except.map]

theorem refused_of_prefix {s t : Bytes} {es : List Entry} (accepted : readEntries s = .ok es)
    (part : t <+: s) (strict : t ≠ s) : ∃ e, readEntries t = .error (.stream e) := by
  obtain ⟨count, position, ran⟩ := readEntries_ok_iff.1 accepted
  have reads := listed_delimited _ _ _ ran
  rcases reads.shorter t part with ⟨e, refused⟩ | ⟨left, ends, same⟩
  · refine ⟨e, ?_⟩
    unfold readEntries
    rw [entries_run, refused]
    rfl
  · -- a run that ends where the whole stream ends has read as much
    obtain ⟨used, whole, reached⟩ := reads.ahead
    obtain ⟨used', whole', reached'⟩ := (listed_delimited _ _ _ same).ahead
    simp only [List.prefix_nil.1 ends, List.append_nil] at whole whole' reached reached'
    exact (strict (part.eq_of_length (by rw [whole, whole']; omega))).elim

theorem refused_of_extension {s t : Bytes} {es : List Entry} (accepted : readEntries s = .ok es)
    (part : s <+: t) (strict : t ≠ s) : ∃ e, readEntries t = .error (.stream e) := by
  obtain ⟨count, position, ran⟩ := readEntries_ok_iff.1 accepted
  obtain ⟨more, rfl⟩ := part
  have continued := (listed_delimited _ _ _ ran).longer more
  unfold readEntries
  rw [entries_run, continued, Except.ok_bind]
  cases more with
  | nil => exact (strict (List.append_nil s)).elim
  | cons first rest => exact ⟨_, rfl⟩

/-! ### Staying inside the stream -/

/-- A place in a stream: what is left is what comes after it. -/
structure Cursor.On (bytes : Bytes) (c : Cursor) : Prop where
  inside : c.position ≤ bytes.length
  rest : c.rest = bytes.drop c.position

theorem Cursor.on_start (bytes : Bytes) : Cursor.On bytes ⟨bytes, 0⟩ := ⟨Nat.zero_le _, rfl⟩

/-- The number that `width` bytes of a stream denote. -/
def numberAt (bytes : Bytes) (position width : Nat) : Nat :=
  LittleEndian.decode ((bytes.drop position).take width)

def Reports (bytes : Bytes) : StreamDefect → Prop
  | .unexpectedEnd p => p ≤ bytes.length
  | .lengthExceeds n p => p + 4 ≤ bytes.length ∧ numberAt bytes p 4 = n
  | .notUtf8 p => 4 ≤ p ∧ p + numberAt bytes (p - 4) 4 ≤ bytes.length ∧
      String.fromUTF8? ⟨((bytes.drop p).take (numberAt bytes (p - 4) 4)).toArray⟩ = none
  | .unknownCode _ n => ∃ p, p + 2 ≤ bytes.length ∧ numberAt bytes p 2 = n
  | .unknownLiteral kind => ∃ p, p + 9 ≤ bytes.length ∧ numberAt bytes p 1 = kind
  | .unknownTag tag p => p < bytes.length ∧ numberAt bytes p 1 = tag
  | .trailing n _ => 0 < n ∧ n + 4 ≤ bytes.length

namespace Reader

variable {α β : Type} {bytes : Bytes} {p : Nat}

/-- Started at a position of the stream, the reader ends at one that satisfies `Q` with the answer, or
refuses with a true report. -/
def Stays (bytes : Bytes) (p : Nat) (r : Reader α) (Q : α → Nat → Prop) : Prop :=
  ∀ c, c.On bytes → c.position = p →
    (∀ a d, r.run c = .ok (a, d) → d.On bytes ∧ Q a d.position) ∧
    ∀ e, r.run c = .error (.stream e) → Reports bytes e

/-- Started anywhere in the stream, the reader goes on from there or refuses with a true report. -/
def Advances (bytes : Bytes) (r : Reader α) : Prop := ∀ p, Stays bytes p r fun _ q => p ≤ q

namespace Stays

theorem pure {Q : α → Nat → Prop} {a : α} (holds : Q a p) : Stays bytes p (Pure.pure a) Q := by
  intro c on at_p
  refine ⟨fun a' d ran => ?_, fun e ran => by cases ran⟩
  cases ran
  exact ⟨on, at_p ▸ holds⟩

theorem refuse {Q : α → Nat → Prop} {e : StreamDefect} (true_ : Reports bytes e) :
    Stays bytes p (Reader.refuse e) Q := by
  intro c on _
  refine ⟨fun a d ran => (by cases ran), fun e' ran => ?_⟩
  cases ran
  exact true_

theorem bind {P : α → Nat → Prop} {Q : β → Nat → Prop} {r : Reader α} {f : α → Reader β}
    (head : Stays bytes p r P) (tail : ∀ a q, P a q → Stays bytes q (f a) Q) :
    Stays bytes p (r >>= f) Q := by
  intro c on at_p
  rw [StateT.run_bind]
  obtain ⟨goes, refuses⟩ := head c on at_p
  cases first : r.run c with
  | error e =>
    refine ⟨fun a d ran => (by cases ran), fun e' ran => ?_⟩
    cases ran
    exact refuses e' first
  | ok answer =>
    obtain ⟨a, m⟩ := answer
    obtain ⟨on', holds⟩ := goes a m first
    exact tail a m.position holds m on' rfl

theorem get_bind {Q : β → Nat → Prop} {f : Cursor → Reader β}
    (each : ∀ c : Cursor, c.On bytes → c.position = p → Stays bytes p (f c) Q) :
    Stays bytes p (get >>= f) Q :=
  fun c on at_p => each c on at_p c on at_p

theorem mono {P Q : α → Nat → Prop} {r : Reader α} (stays : Stays bytes p r P)
    (weaker : ∀ a q, P a q → Q a q) : Stays bytes p r Q := by
  intro c on at_p
  obtain ⟨goes, refuses⟩ := stays c on at_p
  exact ⟨fun a d ran => ⟨(goes a d ran).1, weaker a _ (goes a d ran).2⟩, refuses⟩

end Stays

namespace Advances

theorem of_stays {r : Reader α} {Q : Nat → α → Nat → Prop} (stays : ∀ p, Stays bytes p r (Q p))
    (onward : ∀ p a q, Q p a q → p ≤ q) : Advances bytes r :=
  fun p => (stays p).mono (onward p)

theorem pure (a : α) : Advances bytes (Pure.pure a) := fun p => Stays.pure (Nat.le_refl p)

theorem bind {r : Reader α} {f : α → Reader β} (head : Advances bytes r)
    (tail : ∀ a, Advances bytes (f a)) : Advances bytes (r >>= f) :=
  fun p => (head p).bind fun a q onward => (tail a q).mono fun _ _ further => Nat.le_trans onward further

end Advances

theorem take_stays (n p : Nat) : Stays bytes p (take n) fun raw q =>
    raw = (bytes.drop p).take n ∧ q = p + n ∧ q ≤ bytes.length := by
  intro c on at_p
  rw [take_run]
  have inside := on.inside
  have rest := on.rest
  rw [at_p] at inside rest
  have left : c.rest.length = bytes.length - p := by rw [rest, List.length_drop]
  split
  · rename_i enough
    refine ⟨fun raw d ran => ?_, fun e ran => by cases ran⟩
    cases ran
    refine ⟨⟨?_, ?_⟩, ?_, ?_, ?_⟩
    · change c.position + n ≤ bytes.length
      omega
    · change c.rest.drop n = bytes.drop (c.position + n)
      rw [rest, List.drop_drop, at_p]
    · rw [rest]
    · change c.position + n = p + n
      omega
    · change c.position + n ≤ bytes.length
      omega
  · refine ⟨fun raw d ran => (by cases ran), fun e ran => ?_⟩
    cases ran
    exact on.inside

theorem number_run (width : Nat) (c : Cursor) : (number width).run c =
    if width ≤ c.rest.length then
      .ok (LittleEndian.decode (c.rest.take width), ⟨c.rest.drop width, c.position + width⟩)
    else .error (.stream (.unexpectedEnd c.position)) := by
  rw [number, StateT.run_map, take_run]
  split <;> rfl

theorem number_stays (width p : Nat) : Stays bytes p (number width) fun n q =>
    n = numberAt bytes p width ∧ q = p + width ∧ q ≤ bytes.length := by
  rw [number, map_eq_pure_bind]
  refine (take_stays width p).bind fun raw q taken => .pure ⟨?_, taken.2⟩
  rw [taken.1, numberAt]

theorem number_advances (width : Nat) : Advances bytes (number width) :=
  .of_stays (number_stays width) fun _ _ _ h => by omega

theorem signed_advances : Advances bytes signed := (number_advances 4).bind fun _ => .pure _

theorem index_advances : Advances bytes index := signed_advances.bind fun _ => .pure _

theorem code_advances [Coded α] (family : String) : Advances bytes (code family : Reader α) := by
  intro p
  refine (number_stays 2 p).bind fun n q read => ?_
  split
  · exact .pure (by omega)
  · exact .refuse ⟨p, by omega, read.1.symm⟩

theorem length_stays (unit p : Nat) : Stays bytes p (length unit) fun n q =>
    n = numberAt bytes p 4 ∧ q = p + 4 ∧ q + n * unit ≤ bytes.length := by
  refine (number_stays 4 p).bind fun n q read => Stays.get_bind fun c on at_q => ?_
  have left : c.rest.length = bytes.length - q := by rw [on.rest, List.length_drop, at_q]
  split
  · refine .refuse ?_
    rw [at_q, show q - 4 = p by omega]
    exact ⟨by omega, read.1.symm⟩
  · exact .pure ⟨read.1, read.2.1, by omega⟩

theorem length_advances (unit : Nat) : Advances bytes (length unit) :=
  .of_stays (length_stays unit) fun _ _ _ h => by omega

theorem text_advances : Advances bytes text := by
  intro p
  refine (length_stays 1 p).bind fun n q read => Stays.get_bind fun c _ at_q => ?_
  refine (take_stays n q).bind fun raw q' taken => ?_
  split
  · exact .pure (by omega)
  · rename_i undecoded
    refine .refuse ?_
    rw [at_q, Reports, show q - 4 = p by omega, ← read.1, ← taken.1]
    exact ⟨by omega, by omega, undecoded⟩

theorem many_advances {item : Reader α} (each : Advances bytes item) (n : Nat) :
    Advances bytes (many item n) := by
  induction n with
  | zero => exact .pure _
  | succ n ih => exact each.bind fun _ => ih.bind fun _ => .pure _

theorem literal_advances : Advances bytes literal := by
  intro p
  refine (number_stays 1 p).bind fun kind q first => (number_stays 8 q).bind fun bits q' second => ?_
  have onward : p ≤ q' := by omega
  split
  case h_7 => exact .refuse ⟨p, by omega, first.1.symm⟩
  all_goals exact .pure onward

theorem atom_advances : Advances bytes atom := by
  intro p
  refine Stays.get_bind fun c on at_p => (number_stays 1 p).bind fun tag q read => ?_
  have further {r : Reader Atom} (advances : Advances bytes r) : Stays bytes q r fun _ q' => p ≤ q' :=
    (advances q).mono fun _ _ onward => by omega
  have index : Advances bytes index := index_advances
  split
  case h_1 =>
    exact further (index.bind fun _ => signed_advances.bind fun _ => (code_advances _).bind fun _ => .pure _)
  case h_2 => exact further ((code_advances _).bind fun _ => index.bind fun _ => index.bind fun _ => .pure _)
  case h_3 => exact further (literal_advances.bind fun _ => .pure _)
  case h_4 | h_6 => exact further (index.bind fun _ => (code_advances _).bind fun _ => .pure _)
  case h_5 | h_8 | h_13 =>
    exact further (index.bind fun _ => index.bind fun _ => (code_advances _).bind fun _ => .pure _)
  case h_7 | h_10 | h_12 => exact further (index.bind fun _ => index.bind fun _ => .pure _)
  case h_9 => exact further ((number_advances 4).bind fun _ => index.bind fun _ => index.bind fun _ => .pure _)
  case h_11 => exact further (index.bind fun _ => signed_advances.bind fun _ => .pure _)
  case h_14 => exact further (index.bind fun _ => .pure _)
  case h_15 =>
    refine .refuse ?_
    rw [at_p]
    exact ⟨by omega, read.1.symm⟩

theorem decoration_advances : Advances bytes decoration :=
  index_advances.bind fun _ => text_advances.bind fun _ => (number_advances 1).bind fun _ =>
    (length_advances 4).bind fun n => (many_advances text_advances n).bind fun _ => .pure _

theorem body_advances : Advances bytes body :=
  (number_advances 4).bind fun _ => (length_advances 1).bind fun n => (many_advances atom_advances n).bind fun _ =>
    (length_advances 4).bind fun n => (many_advances index_advances n).bind fun _ =>
      (length_advances 4).bind fun n => (many_advances decoration_advances n).bind fun _ => .pure _

theorem validate_not_stream {b : Buffer} {e : StreamDefect} : b.validate ≠ .error (.stream e) := by
  unfold Buffer.validate Buffer.fault
  split <;> simp

theorem entry_advances : Advances bytes entry := by
  refine text_advances.bind fun name => body_advances.bind fun (id, b) => ?_
  cases valid : b.validate with
  | ok _ =>
    simp only [valid]
    exact .pure _
  | error e =>
    simp only [valid]
    intro p c _ _
    refine ⟨fun a d ran => (by cases ran), fun e' ran => ?_⟩
    cases ran
    exact (validate_not_stream valid).elim

theorem entries_advances : Advances bytes entries := by
  intro p
  refine (number_stays 4 p).bind fun count q read => ?_
  refine (many_advances entry_advances count q).bind fun es q' further => Stays.get_bind fun c on at_q => ?_
  dsimp only
  split
  · exact .pure (by omega)
  · rename_i more
    refine .refuse ⟨?_, ?_⟩
    · exact List.length_pos_of_ne_nil fun none => more (by rw [none]; rfl)
    · rw [on.rest, List.length_drop]
      omega

inductive Part : {α : Type} → Reader α → Prop
  | take (n : Nat) : Part (take n)
  | number (width : Nat) : Part (number width)
  | signed : Part signed
  | index : Part index
  | length (unit : Nat) : Part (length unit)
  | text : Part text
  | code {α : Type} [Coded α] (family : String) : Part (code family : Reader α)
  | many {α : Type} {item : Reader α} (part : Part item) (n : Nat) : Part (many item n)
  | literal : Part literal
  | atom : Part atom
  | decoration : Part decoration
  | body : Part body
  | entry : Part entry
  | entries : Part entries

theorem Part.advances {r : Reader α} (part : Part r) : Advances bytes r := by
  induction part with
  | take n => exact .of_stays (take_stays n) fun _ _ _ h => by omega
  | number width => exact number_advances width
  | signed => exact signed_advances
  | index => exact index_advances
  | length unit => exact length_advances unit
  | text => exact text_advances
  | code family => exact code_advances family
  | many _ n ih => exact many_advances ih n
  | literal => exact literal_advances
  | atom => exact atom_advances
  | decoration => exact decoration_advances
  | body => exact body_advances
  | entry => exact entry_advances
  | entries => exact entries_advances

/-- The bytes of a text are there once its length is accepted: it can only end too early within the
length. -/
theorem text_end {c : Cursor} (on : c.On bytes) {p : Nat}
    (refused : text.run c = .error (.stream (.unexpectedEnd p))) :
    p = c.position ∧ bytes.length < p + 4 := by
  have left : c.rest.length = bytes.length - c.position := by rw [on.rest, List.length_drop]
  have inside := on.inside
  rw [text, StateT.run_bind] at refused
  cases counted : (length 1).run c with
  | error e =>
    rw [counted] at refused
    cases refused
    rw [length, StateT.run_bind, word, number_run] at counted
    by_cases room : 4 ≤ c.rest.length
    · rw [if_pos room, Except.ok_bind, StateT.run_bind, StateT.run_get, pure_bind] at counted
      split at counted <;> cases counted
    · rw [if_neg room] at counted
      cases counted
      exact ⟨rfl, by omega⟩
  | ok answer =>
    obtain ⟨n, m⟩ := answer
    obtain ⟨on', _, _, fits⟩ := (length_stays 1 c.position c on rfl).1 n m counted
    have room : n ≤ m.rest.length := by
      rw [on'.rest, List.length_drop]
      omega
    rw [counted, Except.ok_bind, StateT.run_bind, StateT.run_get, pure_bind, StateT.run_bind, take_run,
      if_pos room, Except.ok_bind] at refused
    split at refused <;> cases refused

end Reader

/-- No accepted stream begins another or continues another. On any bytes, every reader that starts inside
the stream stays inside, goes forward only, and refuses with a report of what is there; and the bytes
that an accepted length announces are there. -/
theorem prefixFree_and_safe :
    (∀ (s : Bytes) (es : List Entry), readEntries s = .ok es → ∀ t, t ≠ s → t <+: s ∨ s <+: t →
      ∃ e, readEntries t = .error (.stream e)) ∧
    ∀ bytes : Bytes, Cursor.On bytes ⟨bytes, 0⟩ ∧
      ∀ c : Cursor, c.On bytes →
        (∀ (α : Type) (r : Reader α), Part r →
          (∀ a d, r.run c = .ok (a, d) → d.On bytes ∧ c.position ≤ d.position) ∧
          ∀ e, r.run c = .error (.stream e) → Reports bytes e) ∧
        ∀ p, Reader.text.run c = .error (.stream (.unexpectedEnd p)) →
          p = c.position ∧ bytes.length < p + 4 := by
  refine ⟨fun s es accepted t strict part => ?_, fun bytes => ⟨Cursor.on_start bytes, fun c on => ⟨?_, ?_⟩⟩⟩
  · rcases part with part | part
    · exact refused_of_prefix accepted part strict
    · exact refused_of_extension accepted part strict
  · exact fun α r part => part.advances c.position c on rfl
  · exact fun p refused => text_end on refused

/-- One function `f` with the number 5 that returns the constant true, which is captured. -/
def constantTrue : Bytes :=
  [1, 0, 0, 0] ++ [1, 0, 0, 0, 102] ++ [5, 0, 0, 0] ++
    [2, 0, 0, 0] ++ [2, 0, 1, 0, 0, 0, 0, 0, 0, 0] ++ [13, 0, 0, 0, 0] ++
    [1, 0, 0, 0] ++ [0, 0, 0, 0] ++ [0, 0, 0, 0]

/-- Without its last byte or with a byte more, the accepted stream is refused; and the length of the
name, read at its place, is followed by the name. -/
theorem constantTrue_alone :
    (readEntries constantTrue).isOk = true ∧
    (∃ e, readEntries (constantTrue.take 43) = .error (.stream e)) ∧
    (∃ e, readEntries (constantTrue ++ [0]) = .error (.stream e)) ∧
    (∀ n d, (Reader.length 1).run ⟨constantTrue.drop 4, 4⟩ = .ok (n, d) → d.On constantTrue ∧ 4 ≤ d.position) := by
  have accepted : (readEntries constantTrue).isOk = true := by decide +kernel
  obtain ⟨es, read⟩ : ∃ es, readEntries constantTrue = .ok es := by
    cases answer : readEntries constantTrue with
    | error e => rw [answer] at accepted; cases accepted
    | ok es => exact ⟨es, rfl⟩
  obtain ⟨alone, safe⟩ := prefixFree_and_safe
  refine ⟨accepted, alone _ es read _ (by decide) (Or.inl (List.take_prefix _ _)),
    alone _ es read _ (by decide) (Or.inr (List.prefix_append _ _)), fun n d ran => ?_⟩
  exact (((safe constantTrue).2 ⟨constantTrue.drop 4, 4⟩ ⟨by decide, rfl⟩).1 _ _ (.length 1)).1 n d ran

end ShaderForge.Stream
