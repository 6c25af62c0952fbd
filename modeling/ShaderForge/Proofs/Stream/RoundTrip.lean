import ShaderForge.Proofs.Stream.Readers

/-!
Streams lose nothing. Whatever has room in the lengths and addresses of a stream is read
back as it was written, up to the results of analysis, which a stream does not hold; and
whatever was read has that room.
-/

namespace ShaderForge

def Atom.Fits (a : Atom) : Prop := a.addresses.1.Fits ∧ a.addresses.2.Fits

instance (a : Atom) : Decidable a.Fits :=
  inferInstanceAs (Decidable (a.addresses.1.Fits ∧ a.addresses.2.Fits))

/-- A decoration whose texts and number of fields have room in a word. -/
structure Decoration.Fits (d : Decoration) : Prop where
  name : d.name.utf8ByteSize < 2 ^ 32
  fields : d.fields.length < 2 ^ 32
  fieldNames : ∀ field ∈ d.fields, field.utf8ByteSize < 2 ^ 32

instance (d : Decoration) : Decidable d.Fits :=
  decidable_of_iff (d.name.utf8ByteSize < 2 ^ 32 ∧ d.fields.length < 2 ^ 32 ∧
      ∀ field ∈ d.fields, field.utf8ByteSize < 2 ^ 32)
    ⟨fun ⟨name, fields, names⟩ => ⟨name, fields, names⟩, fun ⟨name, fields, names⟩ => ⟨name, fields, names⟩⟩

/-- A buffer whose counts, texts and addresses have room in a stream. -/
structure Buffer.Fits (b : Buffer) : Prop where
  atoms : b.atoms.toList.length < 2 ^ 32
  synthesized : b.synthesized.toList.length < 2 ^ 32
  decorations : b.decorations.toList.length < 2 ^ 32
  addresses : ∀ a ∈ b.atoms.toList, a.Fits
  captured : ∀ i ∈ b.synthesized.toList, i.Fits
  decorated : ∀ e ∈ b.decorations.toList, e.1.Fits ∧ e.2.Fits

instance (b : Buffer) : Decidable b.Fits :=
  decidable_of_iff ((b.atoms.toList.length < 2 ^ 32 ∧ b.synthesized.toList.length < 2 ^ 32 ∧
      b.decorations.toList.length < 2 ^ 32) ∧ (∀ a ∈ b.atoms.toList, a.Fits) ∧
      (∀ i ∈ b.synthesized.toList, i.Fits) ∧ ∀ e ∈ b.decorations.toList, e.1.Fits ∧ e.2.Fits)
    ⟨fun ⟨⟨atoms, captured, names⟩, each, places, named⟩ => ⟨atoms, captured, names, each, places, named⟩,
      fun fits => ⟨⟨fits.1, fits.2, fits.3⟩, fits.4, fits.5, fits.6⟩⟩

namespace Buffer

theorem foldl_emit (atoms : List Atom) (b : Buffer) (bare : b.invalidate = b) :
    atoms.foldl emit b = { b with atoms := b.atoms ++ atoms } := by
  induction atoms generalizing b with
  | nil => simp
  | cons a rest ih =>
    have same : b.emit a = { b with atoms := b.atoms.push a } := by rw [emit, bare]
    rw [List.foldl_cons, same, ih _ (by rw [← same]; rfl)]
    simp

theorem foldl_synthesize (captured : List Index) (b : Buffer) (bare : b.invalidate = b) :
    captured.foldl synthesize b = { b with synthesized := b.synthesized.insertMany captured } := by
  induction captured generalizing b with
  | nil => simp
  | cons i rest ih =>
    have kept : (b.synthesize i).invalidate = b.synthesize i := by
      rw [← bare]
      rfl
    rw [List.foldl_cons, ih _ kept, Std.ExtTreeSet.insertMany_cons, ← bare]
    rfl

theorem foldl_decorate (names : List (Index × Decoration)) (b : Buffer) :
    names.foldl (fun b (i, d) => b.decorate i d) b =
      { b with decorations := b.decorations.insertMany names } := by
  induction names generalizing b with
  | nil => simp
  | cons e rest ih =>
    rw [List.foldl_cons, ih, Std.ExtTreeMap.insertMany_cons]
    rfl

theorem ofContent_eq (atoms : List Atom) (captured : List Index) (names : List (Index × Decoration)) :
    ofContent atoms captured names =
      { atoms := atoms.toArray, synthesized := .ofList captured, decorations := .ofList names } := by
  simp only [ofContent]
  rw [foldl_emit _ _ rfl, foldl_synthesize _ _ rfl, foldl_decorate,
    Std.ExtTreeSet.ofList_eq_insertMany_empty, Std.ExtTreeMap.ofList_eq_insertMany_empty]
  simp

theorem Fits.invalidate {b : Buffer} (fits : b.Fits) : b.invalidate.Fits :=
  ⟨fits.atoms, fits.synthesized, fits.decorations, fits.addresses, fits.captured, fits.decorated⟩

/-- The content of a buffer is all of it but the results of analysis. -/
theorem ofContent_content (b : Buffer) :
    ofContent b.atoms.toList b.synthesized.toList b.decorations.toList = b.invalidate := by
  have captured : Std.ExtTreeSet.ofList b.synthesized.toList = b.synthesized := by
    apply Std.ExtTreeSet.ext_mem
    intro i
    rw [Std.ExtTreeSet.mem_ofList, List.contains_iff_mem, Std.ExtTreeSet.mem_toList]
  have names : Std.ExtTreeMap.ofList b.decorations.toList = b.decorations := by
    apply Std.ExtTreeMap.ext_getElem?
    intro i
    cases found : b.decorations[i]? with
    | none =>
      apply Std.ExtTreeMap.getElem?_ofList_of_contains_eq_false
      rw [Std.ExtTreeMap.map_fst_toList_eq_keys, ← Bool.not_eq_true, List.contains_iff_mem,
        Std.ExtTreeMap.mem_keys]
      intro named
      rw [Std.ExtTreeMap.getElem?_eq_some_getElem named] at found
      cases found
    | some d =>
      exact Std.ExtTreeMap.getElem?_ofList_of_mem Std.ReflCmp.compare_self
        Std.ExtTreeMap.distinct_keys_toList (Std.ExtTreeMap.mem_toList_iff_getElem?_eq_some.2 found)
  rw [ofContent_eq, captured, names]
  rfl

end Buffer

namespace Stream

open Reader

theorem Reader.literal_takes (l : Literal) :
    Takes literal (Stream.byte (literalKind l) ++ LittleEndian.encode 8 l.bits.toNat) l := by
  have known : literalKind l < 2 ^ 8 := by cases l <;> simp [literalKind]
  refine (byte_takes known).bind ?_
  rw [← List.append_nil (LittleEndian.encode 8 l.bits.toNat)]
  refine (number_takes l.bits.toNat_lt).bind ?_
  cases l with
  | bool v => cases v <;> exact Takes.pure _
  | i32 v | u32 v | f32 v | f64 v | u64 v =>
    simp only [literalKind, Literal.bits, UInt32.toNat_toUInt64, UInt32.ofNat_toNat,
      UInt64.ofNat_toNat, Int32.toInt32_toUInt32]
    exact Takes.pure _

theorem Reader.atom_takes {a : Atom} (fits : a.Fits) : Takes Reader.atom (Stream.atom a) a := by
  refine Takes.get_bind fun c => ?_
  obtain ⟨first, second⟩ := fits
  cases a with
  | qualifier _ _ _ =>
    simp only [Stream.atom, List.append_assoc]
    exact (byte_takes (by decide)).bind ((index_takes first).bind ((signed_takes _).bind
      ((code_takes _ _).bind_pure _)))
  | type _ _ _ =>
    simp only [Stream.atom, List.append_assoc]
    exact (byte_takes (by decide)).bind ((code_takes _ _).bind ((index_takes first).bind
      ((index_takes second).bind_pure _)))
  | literal value =>
    simp only [Stream.atom, List.append_assoc]
    exact (byte_takes (by decide)).bind ((literal_takes value).bind_pure _)
  | swizzle _ _ | intrinsic _ _ =>
    simp only [Stream.atom, List.append_assoc]
    exact (byte_takes (by decide)).bind ((index_takes first).bind ((code_takes _ _).bind_pure _))
  | operation _ _ _ | construct _ _ _ | branch _ _ _ =>
    simp only [Stream.atom, List.append_assoc]
    exact (byte_takes (by decide)).bind ((index_takes first).bind ((index_takes second).bind
      ((code_takes _ _).bind_pure _)))
  | list _ _ | store _ _ | access _ _ =>
    simp only [Stream.atom, List.append_assoc]
    exact (byte_takes (by decide)).bind ((index_takes first).bind ((index_takes second).bind_pure _))
  | call callee ty args =>
    simp only [Stream.atom, List.append_assoc]
    refine (byte_takes (n := 8) (by decide)).bind ((word_takes callee.toNat_lt).bind ?_)
    rw [UInt32.ofNat_toNat]
    exact (index_takes first).bind ((index_takes second).bind_pure _)
  | load _ _ =>
    simp only [Stream.atom, List.append_assoc]
    exact (byte_takes (by decide)).bind ((index_takes first).bind ((signed_takes _).bind_pure _))
  | ret _ => exact (byte_takes (by decide)).bind ((index_takes first).bind_pure _)

theorem Reader.decoration_takes {e : Index × Decoration} (place : e.1.Fits) (fits : e.2.Fits) :
    Takes Reader.decoration (Stream.decoration e) e := by
  simp only [Stream.decoration, List.append_assoc]
  refine (index_takes place).bind ((text_takes fits.name).bind ((byte_takes ?_).bind ?_))
  · cases e.2.phantom <;> decide
  rw [← List.append_nil (counted _ _)]
  refine Takes.counted_bind fits.fields (fun s _ => ?_) (fun s member => text_takes (fits.fieldNames s member)) ?_
  · simp [Stream.text, Stream.word]
  have flag : (e.2.phantom.toNat != 0) = e.2.phantom := by cases e.2.phantom <;> rfl
  rw [flag]
  exact Takes.pure e

theorem Reader.body_takes (id : FunctionId) {b : Buffer} (fits : b.Fits) :
    Takes Reader.body (Stream.body id b) (id, b.invalidate) := by
  simp only [Stream.body, List.append_assoc]
  refine (word_takes id.toNat_lt).bind ?_
  refine Takes.counted_bind fits.atoms (fun a _ => ?_) (fun a member => atom_takes (fits.addresses a member)) ?_
  · cases a <;> simp [Stream.atom, Stream.byte]
  refine Takes.counted_bind fits.synthesized (fun i _ => ?_) (fun i member => index_takes (fits.captured i member)) ?_
  · simp [Stream.index, Stream.word]
  rw [← List.append_nil (counted _ _)]
  refine Takes.counted_bind fits.decorations (fun e _ => ?_)
    (fun e member => decoration_takes (fits.decorated e member).1 (fits.decorated e member).2) ?_
  · simp [Stream.decoration, Stream.index, Stream.word]
  rw [UInt32.ofNat_toNat, Buffer.ofContent_content]
  exact Takes.pure _

def Entry.ofFunction (f : Function) : Entry := ⟨f.name, f.id, f.buffer.invalidate⟩

/-- A sound entry that has room in a stream and holds no results of analysis. -/
structure Entry.Sound (e : Entry) : Prop where
  name : e.name.utf8ByteSize < 2 ^ 32
  buffer : e.buffer.Fits
  bare : e.buffer.invalidate = e.buffer
  valid : e.buffer.validate = .ok ()

theorem Reader.entry_takes {e : Entry} (sound : e.Sound) :
    Takes Reader.entry (Stream.text e.name ++ Stream.body e.id e.buffer) e := by
  refine (text_takes sound.name).bind ?_
  rw [← List.append_nil (Stream.body _ _)]
  refine (body_takes e.id sound.buffer).bind ?_
  simp only [sound.bare, sound.valid]
  exact Takes.pure e

theorem readEntries_write {fs : List Function} (few : fs.length < 2 ^ 32)
    (sound : ∀ f ∈ fs, (Entry.ofFunction f).Sound) :
    readEntries (write fs) = .ok (fs.map Entry.ofFunction) := by
  have each : ∀ e ∈ fs.map Entry.ofFunction,
      Takes Reader.entry (Stream.text e.name ++ Stream.body e.id e.buffer) e := by
    intro e member
    obtain ⟨f, among, rfl⟩ := List.mem_map.1 member
    exact entry_takes (sound f among)
  have body := many_takes each [] (0 + (Stream.word fs.length).length)
  have count := word_takes few
    ((fs.map Entry.ofFunction).flatMap fun e => Stream.text e.name ++ Stream.body e.id e.buffer) 0
  have written : write fs = Stream.word fs.length ++ (fs.map Entry.ofFunction).flatMap
      fun e => Stream.text e.name ++ Stream.body e.id e.buffer := by
    rw [List.flatMap_map]
    rfl
  rw [List.length_map, List.append_nil] at body
  rw [readEntries, Reader.entries, StateT.run_bind, written, count, Except.ok_bind, StateT.run_bind,
    body]
  rfl

/-- A function with a named struct, and one that captures a call of it. -/
def pair : List Function :=
  [{ name := "width", id := 7,
      buffer := .ofContent
        [.type .nil .null .null, .type .f32 .null (.ref 0), .type .nil (.ref 1) .null,
          .qualifier (.ref 2) .parameter 0, .load (.ref 3) 0, .ret (.ref 4)] []
        [(.ref 1, { name := "Größe", fields := ["x"] })] },
    { name := "main", id := 0xffffffff,
      buffer := .ofContent
        [.type .f32 .null .null, .literal (.f32 0x7fc00001), .list (.ref 1) .null,
          .call 7 (.ref 0) (.ref 2), .branch .whileLoop (.ref 1) (.ref 5),
          .branch .close .null .null, .load (.ref 3) (-1), .ret (.ref 6)] [.ref 3] [] }]

def copies (n : Nat) : List Function := .replicate n { name := "f", id := 0, buffer := {} }

end Stream

end ShaderForge
