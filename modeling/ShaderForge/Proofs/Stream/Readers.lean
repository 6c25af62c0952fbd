import Mathlib.Algebra.Group.Nat.Defs
import Mathlib.Algebra.Ring.Int.Defs
import ShaderForge.Proofs.Buffer.Addresses
import ShaderForge.Stream.Decode

/-!
Readers against writers. `Takes r bytes a` says that `r` consumes exactly `bytes`, whatever
follows them, and answers `a`; `Yields r P` says that every answer of `r` has a property.
The first is what reading back needs, the second what writing again needs.
-/

namespace ShaderForge

namespace LittleEndian

/-- What is read is what was written, without the bytes beyond the width. -/
theorem decode_encode (width n : Nat) : decode (encode width n) = n % 256 ^ width := by
  induction width generalizing n with
  | zero => simp [encode, decode, Nat.mod_one]
  | succ width ih =>
    have split : n % (256 * 256 ^ width) = n % 256 + 256 * (n / 256 % 256 ^ width) :=
      Nat.mod_mul
    simp [encode, decode, ih, Nat.pow_succ', split]

theorem decode_lt (bytes : List UInt8) : decode bytes < 256 ^ bytes.length := by
  induction bytes with
  | nil => simp [decode]
  | cons b rest ih =>
    have low := b.toNat_lt
    simp only [decode, List.length_cons, Nat.pow_succ']
    omega

end LittleEndian

/-! ### Texts as bytes -/

theorem toList_loop (bytes : ByteArray) (i : Nat) (seen : List UInt8) :
    ByteArray.toList.loop bytes i seen = seen.reverse ++ bytes.data.toList.drop i := by
  fun_induction ByteArray.toList.loop bytes i seen with
  | case1 i seen inside ih =>
    have within : i < bytes.data.toList.length := by simpa using inside
    have here : bytes.get! i = bytes.data.toList[i] := by
      change bytes.data[i]! = _
      rw [getElem!_pos bytes.data i inside]
      rfl
    rw [ih, List.drop_eq_getElem_cons within, here, List.reverse_cons, List.append_assoc]
    rfl
  | case2 i seen outside =>
    rw [List.drop_of_length_le (by simpa using outside), List.append_nil]

theorem toList_eq_data (bytes : ByteArray) : bytes.toList = bytes.data.toList := by
  rw [ByteArray.toList, toList_loop]
  rfl

theorem length_toList_toUTF8 (s : String) : s.toUTF8.toList.length = s.utf8ByteSize := by
  rw [toList_eq_data, String.toUTF8_eq_toByteArray]
  rfl

theorem fromUTF8?_toList_toUTF8 (s : String) :
    String.fromUTF8? (ByteArray.mk s.toUTF8.toList.toArray) = some s := by
  have whole : ByteArray.mk s.toUTF8.toList.toArray = s.toByteArray := by
    rw [toList_eq_data, String.toUTF8_eq_toByteArray]
  rw [whole, String.fromUTF8?, dif_pos s.isValidUTF8]
  rfl

/-- A family whose members are all listed under numbers that half a word holds. -/
class Coded.Lawful (α : Type) [Coded α] : Prop where
  mem_all : ∀ a : α, a ∈ (Coded.all : List α)
  length_all : (Coded.all : List α).length ≤ 2 ^ 16

theorem Coded.code_lt {α : Type} [Coded α] [DecidableEq α] [Coded.Lawful α] (a : α) :
    Coded.code a < 2 ^ 16 :=
  Nat.lt_of_lt_of_le (List.idxOf_lt_length_of_mem (Lawful.mem_all a)) Lawful.length_all

instance : Coded.Lawful Prim := ⟨fun p => by cases p <;> decide, by decide⟩

instance : Coded.Lawful Swizzle := ⟨fun s => by cases s <;> decide, by decide⟩

instance : Coded.Lawful Operator := ⟨fun o => by cases o <;> decide, by decide⟩

instance : Coded.Lawful Intrinsic := ⟨fun i => by cases i <;> decide, by decide⟩

instance : Coded.Lawful BranchKind := ⟨fun k => by cases k <;> decide, by decide⟩

instance : Coded.Lawful Mode := ⟨fun m => by cases m <;> decide, by decide⟩

instance : Coded.Lawful Qualifier where
  mem_all q := by
    cases q with
    | input how | output how => cases how <;> decide
    | image channel dim | sampler channel dim => cases channel <;> cases dim <;> decide
    | format texel => cases texel <;> decide
    | builtin which => cases which <;> decide
    | _ => decide
  length_all := by decide

def Index.Fits (i : Index) : Prop := i < .ref (2 ^ 31)

instance (i : Index) : Decidable i.Fits := inferInstanceAs (Decidable (i < .ref (2 ^ 31)))

namespace Stream.Reader

variable {α β : Type}

/-- The reader consumes exactly `bytes`, whatever follows them, and answers `a`. -/
def Takes (r : Reader α) (bytes : Bytes) (a : α) : Prop :=
  ∀ rest position, r.run ⟨bytes ++ rest, position⟩ = .ok (a, ⟨rest, position + bytes.length⟩)

def Yields (r : Reader α) (P : α → Prop) : Prop :=
  ∀ c a d, r.run c = .ok (a, d) → P a

namespace Takes

theorem pure (a : α) : Takes (Pure.pure a) [] a := fun _ _ => rfl

theorem bind {r : Reader α} {f : α → Reader β} {first later : Bytes} {a : α} {b : β}
    (head : Takes r first a) (tail : Takes (f a) later b) : Takes (r >>= f) (first ++ later) b := by
  intro rest position
  rw [StateT.run_bind, List.append_assoc, head, Except.ok_bind, tail, List.length_append,
    Nat.add_assoc]

theorem bind_pure {r : Reader α} {bytes : Bytes} {a : α} (head : Takes r bytes a) (g : α → β) :
    Takes (r >>= fun x => Pure.pure (g x)) bytes (g a) := by
  have whole := head.bind (f := fun x => Pure.pure (g x)) (pure (g a))
  rwa [List.append_nil] at whole

theorem get_bind {f : Cursor → Reader β} {bytes : Bytes} {b : β}
    (tail : ∀ c, Takes (f c) bytes b) : Takes (get >>= f) bytes b :=
  fun rest position => tail ⟨bytes ++ rest, position⟩ rest position

end Takes

namespace Yields

variable {P Q : α → Prop}

theorem any (r : Reader α) : Yields r fun _ => True := fun _ _ _ _ => trivial

theorem pure {a : α} (holds : P a) : Yields (Pure.pure a) P := by
  intro c a' d ran
  cases ran
  exact holds

theorem refuse (defect : StreamDefect) : Yields (Reader.refuse defect) P := by
  intro c a d ran
  cases ran

theorem bind {R : β → Prop} {r : Reader α} {f : α → Reader β} (head : Yields r P)
    (tail : ∀ a, P a → Yields (f a) R) : Yields (r >>= f) R := by
  intro c b d ran
  rw [StateT.run_bind] at ran
  obtain ⟨⟨a, middle⟩, first, later⟩ := Except.bind_ok ran
  exact tail a (head c a middle first) middle b d later

theorem skip {R : β → Prop} {r : Reader α} {f : α → Reader β} (tail : ∀ a, Yields (f a) R) :
    Yields (r >>= f) R :=
  (any r).bind fun a _ => tail a

end Yields

/-! ### Numbers -/

theorem take_takes (bytes : Bytes) : Takes (take bytes.length) bytes bytes := by
  intro rest position
  have enough : bytes.length ≤ (bytes ++ rest).length := by simp
  have opened : (take bytes.length).run ⟨bytes ++ rest, position⟩ =
      if bytes.length ≤ (bytes ++ rest).length then
        .ok ((bytes ++ rest).take bytes.length,
          ⟨(bytes ++ rest).drop bytes.length, position + bytes.length⟩)
      else .error (.stream (.unexpectedEnd position)) := by
    simp only [take, StateT.run_bind, StateT.run_get, pure_bind]
    split <;> rfl
  rw [opened, if_pos enough, List.take_left, List.drop_left]

theorem take_yields (n : Nat) : Yields (take n) fun bytes => bytes.length = n := by
  refine Yields.skip fun c => ?_
  split
  · rename_i enough
    exact Yields.skip fun _ => Yields.pure (List.length_take_of_le enough)
  · exact Yields.refuse _

theorem number_takes {width n : Nat} (small : n < 256 ^ width) :
    Takes (number width) (LittleEndian.encode width n) n := by
  have taken := take_takes (LittleEndian.encode width n)
  rw [LittleEndian.length_encode] at taken
  have decoded := taken.bind_pure LittleEndian.decode
  rw [LittleEndian.decode_encode, Nat.mod_eq_of_lt small] at decoded
  rwa [number, map_eq_pure_bind]

theorem number_yields (width : Nat) : Yields (number width) (· < 256 ^ width) := by
  rw [number, map_eq_pure_bind]
  exact (take_yields width).bind fun bytes length => .pure (length ▸ LittleEndian.decode_lt bytes)

theorem byte_takes {n : Nat} (small : n < 2 ^ 8) : Takes byte (Stream.byte n) n := number_takes small

theorem half_takes {n : Nat} (small : n < 2 ^ 16) : Takes half (Stream.half n) n := number_takes small

theorem word_takes {n : Nat} (small : n < 2 ^ 32) : Takes word (Stream.word n) n := number_takes small

theorem word_yields : Yields word (· < 2 ^ 32) := number_yields 4

theorem signed_takes (n : Int32) : Takes signed (Stream.signed n) n := by
  have read := (word_takes n.toUInt32.toNat_lt).bind_pure fun m => (UInt32.ofNat m).toInt32
  simpa [signed, Stream.signed] using read

theorem ofInt_written {i : Index} (fits : i.Fits) :
    Index.ofInt (UInt32.ofNat (i.toInt % 2 ^ 32).toNat).toInt32.toInt = i := by
  cases i with
  | null => decide
  | ref n =>
    have small : n < 2 ^ 31 := Index.ref_lt_ref.1 fits
    have low : ((n : Int) % 2 ^ 32).toNat = n := by omega
    have value : (UInt32.ofNat n).toInt32 = Int32.ofNat n := UInt32.toInt32_ofNat'
    simp only [Index.toInt, low]
    rw [value, Int32.toInt_ofNat_of_lt small, Index.ofInt, if_neg (by omega), Int.toNat_natCast]

theorem index_takes {i : Index} (fits : i.Fits) : Takes index (Stream.index i) i := by
  have small : (i.toInt % 2 ^ 32).toNat < 2 ^ 32 := by omega
  have read := ((word_takes small).bind_pure fun m => (UInt32.ofNat m).toInt32).bind_pure
    fun n => Index.ofInt n.toInt
  rwa [ofInt_written fits] at read

theorem code_takes [Coded α] [DecidableEq α] [Coded.Lawful α] (family : String) (a : α) :
    Takes (code family) (Stream.code a) a := by
  have read := half_takes (Coded.code_lt a)
  rw [← List.append_nil (Stream.code a), code]
  refine read.bind ?_
  rw [Coded.ofCode?_code (Coded.Lawful.mem_all a)]
  exact Takes.pure a

/-! ### Lengths, lists and texts -/

theorem Takes.length_bind {f : Nat → Reader β} {n unit : Nat} {bytes : Bytes} {b : β}
    (small : n < 2 ^ 32) (room : n * unit ≤ bytes.length) (tail : Takes (f n) bytes b) :
    Takes (length unit >>= f) (Stream.word n ++ bytes) b := by
  unfold length
  rw [bind_assoc]
  refine (word_takes small).bind ?_
  intro rest position
  have fits : ¬ (bytes ++ rest).length < n * unit := by
    rw [List.length_append]
    omega
  rw [bind_assoc, StateT.run_bind, StateT.run_get, pure_bind]
  simp only [fits, ↓reduceIte, pure_bind]
  exact tail rest position

theorem length_yields (unit : Nat) : Yields (length unit) (· < 2 ^ 32) := by
  refine word_yields.bind fun n small => Yields.skip fun c => ?_
  split
  · exact Yields.refuse _
  · exact Yields.pure small

theorem many_takes {item : Reader α} {write : α → Bytes} {xs : List α}
    (each : ∀ x ∈ xs, Takes item (write x) x) : Takes (many item xs.length) (xs.flatMap write) xs := by
  induction xs with
  | nil => exact Takes.pure []
  | cons x rest ih =>
    have later := ih fun y member => each y (List.mem_cons_of_mem x member)
    exact (each x List.mem_cons_self).bind (later.bind_pure (x :: ·))

theorem many_yields {item : Reader α} {P : α → Prop} (each : Yields item P) (n : Nat) :
    Yields (many item n) fun xs => xs.length = n ∧ ∀ x ∈ xs, P x := by
  induction n with
  | zero => exact Yields.pure ⟨rfl, by simp⟩
  | succ n ih =>
    refine each.bind fun x holds => ih.bind fun rest later => Yields.pure ⟨?_, ?_⟩
    · rw [List.length_cons, later.1]
    · exact List.forall_mem_cons.2 ⟨holds, later.2⟩

theorem length_flatMap_ge {write : α → Bytes} {unit : Nat} {xs : List α}
    (wide : ∀ x ∈ xs, unit ≤ (write x).length) : xs.length * unit ≤ (xs.flatMap write).length := by
  induction xs with
  | nil => simp
  | cons x rest ih =>
    have first := wide x List.mem_cons_self
    have later := ih fun y member => wide y (List.mem_cons_of_mem x member)
    rw [List.flatMap_cons, List.length_append, List.length_cons, Nat.add_mul]
    omega

/-- A counted list is read back when every item is and no item is shorter than the unit. -/
theorem Takes.counted_bind {item : Reader α} {write : α → Bytes} {f : List α → Reader β} {unit : Nat}
    {xs : List α} {later : Bytes} {b : β} (few : xs.length < 2 ^ 32)
    (wide : ∀ x ∈ xs, unit ≤ (write x).length) (each : ∀ x ∈ xs, Takes item (write x) x)
    (tail : Takes (f xs) later b) :
    Takes (length unit >>= fun n => many item n >>= f) (counted write xs ++ later) b := by
  rw [counted, List.append_assoc]
  refine Takes.length_bind few ?_ ((many_takes each).bind tail)
  have room := length_flatMap_ge wide
  rw [List.length_append]
  omega

theorem Yields.counted_bind {item : Reader α} {P : α → Prop} {R : β → Prop} {f : List α → Reader β}
    {unit : Nat} (each : Yields item P)
    (tail : ∀ xs : List α, xs.length < 2 ^ 32 → (∀ x ∈ xs, P x) → Yields (f xs) R) :
    Yields (length unit >>= fun n => many item n >>= f) R :=
  (length_yields unit).bind fun n small =>
    (many_yields each n).bind fun xs found => tail xs (found.1 ▸ small) found.2

theorem text_takes {s : String} (short : s.utf8ByteSize < 2 ^ 32) : Takes text (Stream.text s) s := by
  have raw := take_takes s.toUTF8.toList
  rw [length_toList_toUTF8] at raw
  have room : s.utf8ByteSize * 1 ≤ s.toUTF8.toList.length :=
    Nat.le_of_eq (by rw [length_toList_toUTF8, Nat.mul_one])
  refine Takes.length_bind short room ?_
  refine Takes.get_bind fun c => ?_
  rw [← List.append_nil s.toUTF8.toList]
  refine raw.bind ?_
  rw [fromUTF8?_toList_toUTF8]
  exact Takes.pure s

end Stream.Reader

end ShaderForge
