import Mathlib.Order.Bounds.Basic
import ShaderForge.Native.Layout
import ShaderForge.Proofs.Stream.Readers

/-!
Packed layouts. Scalars whose size a word holds stand at the first places that suit them, in order and apart.
Values that are stored through a layout are loaded back where no displacement is negative, and no other byte
of the memory changes.
-/

namespace ShaderForge.Native

/-! ### Words -/

theorem memorySize_cases (s : Prim) : (memorySize s).toNat = 4 ∨ (memorySize s).toNat = 8 := by
  cases s <;> decide

theorem memorySize_pos (s : Prim) : 0 < (memorySize s).toNat := by
  have := memorySize_cases s
  omega

theorem sum?_eq_some {a b c : UInt32} : sum? a b = some c ↔ a.toNat + b.toNat = c.toNat := by
  have first := a.toNat_lt
  have second := b.toNat_lt
  have third := c.toNat_lt
  unfold sum?
  rw [Option.ite_none_right_eq_some, Option.some.injEq, UInt32.le_iff_toNat_le, ← UInt32.toNat_inj, UInt32.toNat_add]
  omega

/-- The least multiple of `unit` that is not below `n`, without a bound. -/
def roundUp (n unit : Nat) : Nat := (n + unit - 1) / unit * unit

theorem roundUp_isLeast {unit : Nat} (positive : 0 < unit) (n : Nat) :
    IsLeast {k | unit ∣ k ∧ n ≤ k} (roundUp n unit) := by
  unfold roundUp
  have whole := Nat.div_add_mod (n + unit - 1) unit
  have rest := Nat.mod_lt (n + unit - 1) positive
  rw [Nat.mul_comm] at whole
  refine ⟨⟨Nat.dvd_mul_left _ _, by omega⟩, ?_⟩
  rintro _ ⟨⟨c, rfl⟩, enough⟩
  rw [Nat.mul_comm unit c]
  apply Nat.mul_le_mul_right
  rw [← Nat.lt_succ_iff, Nat.div_lt_iff_lt_mul positive, Nat.succ_mul, Nat.mul_comm c unit]
  omega

theorem roundUp_eq {unit : Nat} (positive : 0 < unit) (n : Nat) :
    roundUp n unit = if n % unit = 0 then n else n + (unit - n % unit) := by
  obtain ⟨⟨whole, above⟩, least⟩ := roundUp_isLeast positive n
  have rest := Nat.mod_lt n positive
  split
  · rename_i even
    have := least ⟨Nat.dvd_of_mod_eq_zero even, Nat.le_refl n⟩
    omega
  · -- both are multiples, and less than one unit apart
    have next : unit ∣ n + (unit - n % unit) := by
      refine ⟨n / unit + 1, ?_⟩
      have := Nat.div_add_mod n unit
      rw [Nat.mul_succ]
      omega
    have order := least ⟨next, by omega⟩
    have apart := Nat.eq_zero_of_dvd_of_lt (Nat.dvd_sub next whole) (by omega)
    omega

theorem roundUp?_eq_some {n unit k : UInt32} (positive : 0 < unit.toNat) :
    roundUp? n unit = some k ↔ roundUp n.toNat unit.toNat = k.toNat := by
  have even : n % unit = 0 ↔ n.toNat % unit.toNat = 0 := by
    rw [← UInt32.toNat_inj, UInt32.toNat_mod]
    rfl
  rw [roundUp_eq positive]
  unfold roundUp?
  simp only [even]
  split
  · rw [Option.some.injEq, UInt32.toNat_inj]
  · have rest := Nat.mod_lt n.toNat positive
    have less : n % unit ≤ unit := by
      rw [UInt32.le_iff_toNat_le, UInt32.toNat_mod]
      omega
    rw [sum?_eq_some, UInt32.toNat_sub_of_le _ _ less, UInt32.toNat_mod]

theorem toNat_max (a b : UInt32) : (max a b).toNat = max a.toNat b.toNat := by
  show (if a ≤ b then b else a).toNat = _
  simp only [UInt32.le_iff_toNat_le]
  split <;> omega

/-! ### Places -/

def Layout.slots (l : Layout) : List (Prim × UInt32) := l.scalars.zip l.offsets

def slotEnd (slot : Prim × UInt32) : Nat := slot.2.toNat + (memorySize slot.1).toNat

/-- Scalars at the first places that suit them: each after the one before, the first at `free` or later. -/
inductive Packed : Nat → List (Prim × UInt32) → Nat → Prop
  | nil (free : Nat) : Packed free [] free
  | cons {free stop : Nat} {start : UInt32} {s : Prim} {rest : List (Prim × UInt32)}
      (least : IsLeast {n | (memorySize s).toNat ∣ n ∧ free ≤ n} start.toNat)
      (later : Packed (slotEnd (s, start)) rest stop) : Packed free ((s, start) :: rest) stop

/-- The first byte after scalars that are placed from a byte on, without a bound. -/
def reach (free : Nat) (scalars : List Prim) : Nat :=
  scalars.foldl (fun free s => roundUp free (memorySize s).toNat + (memorySize s).toNat) free

theorem le_reach (free : Nat) (scalars : List Prim) : free ≤ reach free scalars := by
  induction scalars generalizing free with
  | nil => exact Nat.le_refl _
  | cons s rest ih =>
    have above := (roundUp_isLeast (memorySize_pos s) free).1.2
    exact Nat.le_trans (Nat.le_trans above (Nat.le_add_right _ _)) (ih _)

theorem place_packed {free stop : UInt32} {scalars : List Prim} {offsets : List UInt32}
    (h : place free scalars = some (offsets, stop)) :
    offsets.length = scalars.length ∧ stop.toNat = reach free.toNat scalars ∧
      Packed free.toNat (scalars.zip offsets) stop.toNat := by
  induction scalars generalizing free offsets stop with
  | nil =>
    cases h
    exact ⟨rfl, rfl, .nil _⟩
  | cons s rest ih =>
    obtain ⟨start, rounded, h⟩ := Option.bind_eq_some_iff.1 h
    obtain ⟨next, summed, h⟩ := Option.bind_eq_some_iff.1 h
    obtain ⟨⟨later, last⟩, others, h⟩ := Option.bind_eq_some_iff.1 h
    cases h
    rw [roundUp?_eq_some (memorySize_pos s)] at rounded
    rw [sum?_eq_some] at summed
    obtain ⟨length, reached, packed⟩ := ih others
    refine ⟨congrArg Nat.succ length, ?_, .cons (rounded ▸ roundUp_isLeast (memorySize_pos s) free.toNat) ?_⟩
    · rw [reached, ← summed, ← rounded]
      rfl
    · rw [slotEnd, summed]
      exact packed

theorem exists_place_iff {free : UInt32} {scalars : List Prim} :
    (∃ placed, place free scalars = some placed) ↔ reach free.toNat scalars < 2 ^ 32 := by
  constructor
  · rintro ⟨⟨offsets, stop⟩, h⟩
    rw [← (place_packed h).2.1]
    exact stop.toNat_lt
  · intro fits
    induction scalars generalizing free with
    | nil => exact ⟨_, rfl⟩
    | cons s rest ih =>
      have reached := le_reach (roundUp free.toNat (memorySize s).toNat + (memorySize s).toNat) rest
      have fits : reach (roundUp free.toNat (memorySize s).toNat + (memorySize s).toNat) rest < 2 ^ 32 := fits
      have start : (UInt32.ofNat (roundUp free.toNat (memorySize s).toNat)).toNat =
          roundUp free.toNat (memorySize s).toNat := UInt32.toNat_ofNat_of_lt' (by show _ < 2 ^ 32; omega)
      have next : (UInt32.ofNat (roundUp free.toNat (memorySize s).toNat + (memorySize s).toNat)).toNat =
          roundUp free.toNat (memorySize s).toNat + (memorySize s).toNat := UInt32.toNat_ofNat_of_lt' (by show _ < 2 ^ 32; omega)
      obtain ⟨⟨offsets, stop⟩, later⟩ := @ih _ (next.symm ▸ fits)
      have summed := sum?_eq_some.2 ((congrArg (· + (memorySize s).toNat) start).trans next.symm)
      exact ⟨_, Option.bind_eq_some_iff.2 ⟨_, (roundUp?_eq_some (memorySize_pos s)).2 start.symm,
        Option.bind_eq_some_iff.2 ⟨_, summed, Option.bind_eq_some_iff.2 ⟨_, later, rfl⟩⟩⟩⟩

namespace Packed

variable {free stop : Nat} {slots : List (Prim × UInt32)}

theorem le_start (packed : Packed free slots stop) : ∀ slot ∈ slots, free ≤ slot.2.toNat := by
  induction packed with
  | nil => intro slot member; cases member
  | @cons free stop start s rest least _ ih =>
    have reached : free ≤ start.toNat := least.1.2
    intro slot member
    rcases List.mem_cons.1 member with rfl | later
    · exact reached
    · have after : start.toNat + (memorySize s).toNat ≤ slot.2.toNat := ih slot later
      omega

theorem stop_le_iff (packed : Packed free slots stop) (n : Nat) :
    stop ≤ n ↔ free ≤ n ∧ ∀ slot ∈ slots, slotEnd slot ≤ n := by
  induction packed with
  | nil => simp
  | @cons free stop start s rest least _ ih =>
    have reached : free ≤ start.toNat := least.1.2
    have next : slotEnd (s, start) = start.toNat + (memorySize s).toNat := rfl
    rw [ih, List.forall_mem_cons]
    constructor
    · rintro ⟨first, others⟩
      exact ⟨by omega, first, others⟩
    · exact fun all => all.2

theorem aligned (packed : Packed free slots stop) : ∀ slot ∈ slots, (memorySize slot.1).toNat ∣ slot.2.toNat := by
  induction packed with
  | nil => intro slot member; cases member
  | cons least _ ih =>
    intro slot member
    rcases List.mem_cons.1 member with rfl | later
    · exact least.1.1
    · exact ih slot later

theorem apart (packed : Packed free slots stop) : slots.Pairwise fun p q => slotEnd p ≤ q.2.toNat := by
  induction packed with
  | nil => exact .nil
  | cons _ later ih => exact .cons later.le_start ih

theorem least (packed : Packed free slots stop) {before after : List (Prim × UInt32)} {slot : Prim × UInt32}
    (split : slots = before ++ slot :: after) :
    IsLeast {n | (memorySize slot.1).toNat ∣ n ∧ (before.getLast?.map slotEnd).getD free ≤ n} slot.2.toNat := by
  induction packed generalizing before with
  | nil => simp at split
  | @cons free stop start s rest least _ ih =>
    cases before with
    | nil =>
      obtain ⟨rfl, _⟩ := List.cons.inj split
      exact least
    | cons first before =>
      obtain ⟨rfl, tail⟩ := List.cons.inj split
      have found := ih tail
      cases before with
      | nil => exact found
      | cons second before =>
        rw [List.getLast?_cons_cons]
        obtain ⟨last, known⟩ := Option.isSome_iff_exists.1 (List.getLast?_isSome.2 (List.cons_ne_nil second before))
        rw [known] at found ⊢
        exact found

end Packed

theorem widest_isGreatest (scalars : List Prim) :
    IsGreatest {n | n = 1 ∨ ∃ s ∈ scalars, n = (memorySize s).toNat} (widest scalars).toNat := by
  have fold : ∀ (scalars : List Prim) (n : UInt32), IsGreatest {m | m = n.toNat ∨ ∃ s ∈ scalars, m = (memorySize s).toNat}
      (scalars.foldl (fun n s => max n (memorySize s)) n).toNat := by
    intro scalars
    induction scalars with
    | nil => intro n; simp
    | cons s rest ih =>
      intro n
      obtain ⟨found, above⟩ := ih (max n (memorySize s))
      rw [List.foldl_cons]
      refine ⟨?_, ?_⟩
      · rcases found with same | ⟨t, member, same⟩
        · rw [toNat_max] at same
          rcases Nat.le_total n.toNat (memorySize s).toNat with order | order
          · exact Or.inr ⟨s, List.mem_cons_self, by rw [same]; omega⟩
          · exact Or.inl (by rw [same]; omega)
        · exact Or.inr ⟨t, List.mem_cons_of_mem _ member, same⟩
      · have first := above (Or.inl rfl)
        rw [toNat_max] at first
        rintro m (rfl | ⟨t, member, rfl⟩)
        · omega
        · rcases List.mem_cons.1 member with rfl | later
          · omega
          · exact above (Or.inr ⟨t, later, rfl⟩)
  exact fold scalars 1

theorem widest_pos (scalars : List Prim) : 0 < (widest scalars).toNat := (widest_isGreatest scalars).2 (Or.inl rfl)

/-- The bytes of packed scalars, without a bound. -/
def extent (scalars : List Prim) : Nat := roundUp (reach 0 scalars) (widest scalars).toNat

theorem pack_eq_some {scalars : List Prim} {l : Layout} (h : Layout.pack scalars = some l) :
    ∃ stop, place 0 scalars = some (l.offsets, stop) ∧ l.scalars = scalars ∧ l.size.toNat = extent scalars := by
  obtain ⟨⟨offsets, stop⟩, placed, h⟩ := Option.bind_eq_some_iff.1 h
  obtain ⟨size, rounded, h⟩ := Option.bind_eq_some_iff.1 h
  cases h
  rw [roundUp?_eq_some (widest_pos scalars), (place_packed placed).2.1] at rounded
  exact ⟨stop, placed, rfl, rounded.symm⟩

theorem exists_pack_iff {scalars : List Prim} : (∃ l, Layout.pack scalars = some l) ↔ extent scalars < 2 ^ 32 := by
  constructor
  · rintro ⟨l, h⟩
    obtain ⟨_, _, _, size⟩ := pack_eq_some h
    rw [← size]
    exact l.size.toNat_lt
  · intro fits
    have above := (roundUp_isLeast (widest_pos scalars) (reach 0 scalars)).1.2
    obtain ⟨⟨offsets, stop⟩, placed⟩ := (@exists_place_iff 0 scalars).2 (Nat.lt_of_le_of_lt above fits)
    have size : roundUp stop.toNat (widest scalars).toNat = (UInt32.ofNat (extent scalars)).toNat := by
      rw [(place_packed placed).2.1, UInt32.toNat_ofNat_of_lt' fits]
      rfl
    exact ⟨_, Option.bind_eq_some_iff.2 ⟨_, placed,
      Option.bind_eq_some_iff.2 ⟨_, (roundUp?_eq_some (widest_pos scalars)).2 size, rfl⟩⟩⟩

/-- No byte is left free that a scalar could take in its order, and none stands after the last but those
that bring the size to a multiple of the widest scalar. -/
structure Layout.Tight (l : Layout) : Prop where
  length : l.offsets.length = l.scalars.length
  aligned : ∀ slot ∈ l.slots, (memorySize slot.1).toNat ∣ slot.2.toNat
  ascending : l.slots.Pairwise fun p q => p.2 < q.2
  apart : l.slots.Pairwise fun p q => slotEnd p ≤ q.2.toNat
  least : ∀ before slot after, l.slots = before ++ slot :: after →
    IsLeast {n | (memorySize slot.1).toNat ∣ n ∧ (before.getLast?.map slotEnd).getD 0 ≤ n} slot.2.toNat
  size : ∃ unit, IsGreatest {n | n = 1 ∨ ∃ s ∈ l.scalars, n = (memorySize s).toNat} unit ∧
    IsLeast {n | unit ∣ n ∧ ∀ slot ∈ l.slots, slotEnd slot ≤ n} l.size.toNat

theorem pack_tight {scalars : List Prim} {l : Layout} (h : Layout.pack scalars = some l) : l.Tight := by
  obtain ⟨stop, placed, rfl, size⟩ := pack_eq_some h
  obtain ⟨length, reached, packed⟩ := place_packed placed
  have greatest := widest_isGreatest l.scalars
  refine ⟨length, packed.aligned, packed.apart.imp ?_, packed.apart, fun _ _ _ => packed.least, _, greatest, ?_⟩
  · intro p q after
    have := memorySize_pos p.1
    unfold slotEnd at after
    rw [UInt32.lt_iff_toNat_lt]
    omega
  · have least := roundUp_isLeast (widest_pos l.scalars) stop.toNat
    simp only [packed.stop_le_iff, UInt32.toNat_zero, Nat.zero_le, true_and] at least
    rw [size, extent, ← UInt32.toNat_zero, ← reached]
    exact least

/-! ### Memory -/

@[simp] theorem size_poke (m : Memory) (position : Int) (b : UInt8) : (poke m position b).size = m.size := by
  unfold poke
  split
  · rfl
  · exact Array.size_setIfInBounds

@[simp] theorem size_write (m : Memory) (start : Int) (bytes : List UInt8) : (write m start bytes).size = m.size := by
  induction bytes generalizing m start with
  | nil => rfl
  | cons b rest ih => rw [write, ih, size_poke]

theorem poke_outside {m : Memory} {position : Int} {b : UInt8} {p : Nat} (other : position ≠ p) :
    (poke m position b)[p]? = m[p]? := by
  unfold poke
  split
  · rfl
  · exact Array.getElem?_setIfInBounds_ne (by omega)

theorem write_outside {m : Memory} {start : Int} {p : Nat} {bytes : List UInt8}
    (outside : (p : Int) < start ∨ start + bytes.length ≤ p) : (write m start bytes)[p]? = m[p]? := by
  induction bytes generalizing m start with
  | nil => rfl
  | cons b rest ih =>
    rw [List.length_cons] at outside
    rw [write, ih (by omega), poke_outside (by omega)]

theorem peek_congr {m m' : Memory} {position : Int} (same : ∀ p : Nat, position = p → m'[p]? = m[p]?) :
    peek m' position = peek m position := by
  unfold peek
  split
  · rfl
  · rw [same position.toNat (by omega)]

theorem read_congr {m m' : Memory} {start : Int} (size : Nat)
    (same : ∀ p : Nat, start ≤ p → p < start + size → m'[p]? = m[p]?) : read m' start size = read m start size := by
  induction size generalizing start with
  | zero => rfl
  | succ size ih =>
    rw [read, read, peek_congr fun p here => same p (by omega) (by omega),
      ih fun p after before => same p (by omega) (by omega)]

theorem read_write {m : Memory} {start : Nat} {bytes : List UInt8} (inside : start + bytes.length ≤ m.size) :
    read (write m start bytes) start bytes.length = bytes := by
  induction bytes generalizing m start with
  | nil => rfl
  | cons b rest ih =>
    rw [List.length_cons] at inside
    have poked : (poke m start b)[start]? = some b := by
      rw [poke, if_neg (by omega), Int.toNat_natCast, Array.getElem?_setIfInBounds_self_of_lt (by omega)]
    have first : peek (write m start (b :: rest)) start = b := by
      rw [peek, if_neg (by omega), write, Int.toNat_natCast, write_outside (by omega), poked]
      rfl
    have later := @ih (poke m start b) (start + 1) (by rw [size_poke]; omega)
    rw [List.length_cons, read, first, write]
    exact congrArg (b :: ·) later

theorem read_before {m : Memory} {start : Int} {size : Nat} (before : start + size ≤ 0) :
    read m start size = List.replicate size 0 := by
  induction size generalizing start with
  | zero => rfl
  | succ size ih => rw [read, peek, if_pos (by omega), ih (by omega), List.replicate_succ]

def Reachable (slot : Prim × UInt32) : Prop := slot.2.toNat < 2 ^ 31

theorem position_eq (offset : UInt32) :
    Layout.position offset = if offset.toNat < 2 ^ 31 then (offset.toNat : Int) else offset.toNat - 2 ^ 32 := by
  show offset.toBitVec.toInt = _
  rw [BitVec.toInt_eq_toNat_cond]
  show (if 2 * offset.toNat < 2 ^ 32 then (offset.toNat : Int) else offset.toNat - (2 ^ 32 : Nat)) = _
  split <;> split <;> omega

theorem position_reachable {slot : Prim × UInt32} (near : Reachable slot) :
    Layout.position slot.2 = slot.2.toNat := by
  unfold Reachable at near
  rw [position_eq, if_pos near]

theorem position_far {slot : Prim × UInt32} (far : ¬ Reachable slot)
    (aligned : (memorySize slot.1).toNat ∣ slot.2.toNat) :
    Layout.position slot.2 + ((memorySize slot.1).toNat : Int) ≤ 0 := by
  have bound := slot.2.toNat_lt
  unfold Reachable at far
  rw [position_eq, if_neg far]
  rcases memorySize_cases slot.1 with size | size <;> rw [size] at aligned ⊢ <;> omega

theorem Word.bits_lt (w : Word) : w.bits.toNat < 256 ^ w.register.bytes := by
  cases w with
  | i8 b => exact b.toNat_lt
  | i32 b | f32 b => exact b.toNat_lt
  | i64 b | f64 b => exact b.toNat_lt

theorem bytes_ofPrim_le (s : Prim) : (Register.ofPrim s).bytes ≤ (memorySize s).toNat := by
  cases s <;> decide

/-- A value of a scalar type: a word of the type's own register, zero or one if it is a boolean. -/
structure Word.Suits (s : Prim) (w : Word) : Prop where
  register : w.register = .ofPrim s
  truth : s = .boolean → w.bits = 0 ∨ w.bits = 1

namespace Word.Suits

variable {s : Prim} {w : Word}

theorem bits_lt (suits : w.Suits s) : w.bits.toNat < 256 ^ (memorySize s).toNat := by
  have below := w.bits_lt
  rw [suits.register] at below
  exact Nat.lt_of_lt_of_le below (Nat.pow_le_pow_right (by decide) (bytes_ofPrim_le s))

/-- The bytes of a value are those of its bits, as many as its type takes in memory. -/
theorem stored_eq (suits : w.Suits s) : stored s w = LittleEndian.encode (memorySize s).toNat w.bits.toNat := by
  unfold stored
  split
  · rename_i boolean
    rw [boolean]
    rfl
  · rename_i other
    rw [suits.register]
    cases s <;> first | rfl | exact (other rfl).elim

theorem loaded_eq (suits : w.Suits s) : loaded s w.bits = w := by
  unfold loaded
  split
  · rename_i boolean
    have register := suits.register
    have truth := suits.truth boolean
    rw [boolean] at register
    cases w with
    | i8 b =>
      rcases truth with zero | one
      · obtain rfl : b = 0 := UInt8.toUInt64_inj.1 zero
        rfl
      · obtain rfl : b = 1 := UInt8.toUInt64_inj.1 one
        rfl
    | _ => cases register
  · rw [Word.ofScalar, ← suits.register, Word.ofBits_bits]

end Word.Suits


/-! ### Storing and loading -/

def Memory.put (m : Memory) (e : (Prim × UInt32) × Word) : Memory :=
  write m (Layout.position e.1.2) (stored e.1.1 e.2)

theorem storeAt_eq (m : Memory) (scalars : List Prim) (offsets : List UInt32) (ws : List Word) :
    Layout.storeAt m scalars offsets ws = ((scalars.zip offsets).zip ws).foldl Memory.put m := by
  fun_induction Layout.storeAt m scalars offsets ws with
  | case1 m s scalars start offsets w ws ih => exact ih
  | case2 scalars m offsets ws short =>
    cases scalars with
    | nil => rfl
    | cons s scalars =>
      cases offsets with
      | nil => rfl
      | cons start offsets =>
        cases ws with
        | nil => rfl
        | cons w ws => exact (short s scalars start offsets w ws rfl rfl rfl).elim

section

variable {es : List ((Prim × UInt32) × Word)} {m : Memory}

theorem size_foldl_put (es : List ((Prim × UInt32) × Word)) (m : Memory) : (es.foldl Memory.put m).size = m.size := by
  induction es generalizing m with
  | nil => rfl
  | cons e rest ih => rw [List.foldl_cons, ih, Memory.put, size_write]

theorem length_stored {e : (Prim × UInt32) × Word} (suits : e.2.Suits e.1.1) :
    (stored e.1.1 e.2).length = (memorySize e.1.1).toNat := by
  rw [suits.stored_eq, LittleEndian.length_encode]

theorem put_eq {e : (Prim × UInt32) × Word} (near : Reachable e.1) : m.put e = write m e.1.2.toNat (stored e.1.1 e.2) := by
  rw [Memory.put, position_reachable near]

theorem foldl_put_outside (suits : ∀ e ∈ es, e.2.Suits e.1.1) (near : ∀ e ∈ es, Reachable e.1) {p : Nat}
    (outside : ∀ e ∈ es, p < e.1.2.toNat ∨ slotEnd e.1 ≤ p) : (es.foldl Memory.put m)[p]? = m[p]? := by
  induction es generalizing m with
  | nil => rfl
  | cons e rest ih =>
    rw [List.forall_mem_cons] at suits near outside
    rw [List.foldl_cons, ih suits.2 near.2 outside.2, put_eq near.1, write_outside]
    have other := outside.1
    unfold slotEnd at other
    rw [length_stored suits.1]
    omega

theorem read_foldl_put (suits : ∀ e ∈ es, e.2.Suits e.1.1) (near : ∀ e ∈ es, Reachable e.1)
    (apart : es.Pairwise fun e f => slotEnd e.1 ≤ f.1.2.toNat) (inside : ∀ e ∈ es, slotEnd e.1 ≤ m.size) :
    ∀ e ∈ es, read (es.foldl Memory.put m) e.1.2.toNat (memorySize e.1.1).toNat = stored e.1.1 e.2 := by
  induction es generalizing m with
  | nil => intro e member; cases member
  | cons first rest ih =>
    rw [List.forall_mem_cons] at suits near inside
    rw [List.pairwise_cons] at apart
    intro e member
    rcases List.mem_cons.1 member with rfl | later
    · -- the later scalars all stand after this one
      have kept : read (rest.foldl Memory.put (m.put e)) e.1.2.toNat (memorySize e.1.1).toNat =
          read (m.put e) e.1.2.toNat (memorySize e.1.1).toNat := by
        apply read_congr
        intro p _ before
        apply foldl_put_outside suits.2 near.2
        intro f member
        have := apart.1 f member
        unfold slotEnd at this
        omega
      rw [List.foldl_cons, kept, put_eq near.1, ← length_stored suits.1, read_write]
      rw [length_stored suits.1]
      exact inside.1
    · rw [List.foldl_cons]
      apply ih suits.2 near.2 apart.2 ?_ e later
      rw [Memory.put, size_write]
      exact inside.2

end

section

variable {scalars : List Prim} {offsets : List UInt32} {ws : List Word} {m : Memory}
variable (suits : List.Forall₂ (fun s w => Word.Suits s w) scalars ws)
include suits

theorem suits_of_zip : ∀ e ∈ (scalars.zip offsets).zip ws, e.2.Suits e.1.1 := by
  induction suits generalizing offsets with
  | nil => intro e member; cases member
  | cons first _ ih =>
    cases offsets with
    | nil => intro e member; cases member
    | cons start offsets =>
      intro e member
      rcases List.mem_cons.1 member with rfl | later
      · exact first
      · exact ih e later

theorem bits_of_read (length : offsets.length = scalars.length)
    (bits : ∀ e ∈ (scalars.zip offsets).zip ws, Layout.bitsAt m e.1.1 e.1.2 = e.2.bits) :
    scalars.zipWith (Layout.bitsAt m) offsets = ws.map Word.bits := by
  induction suits generalizing offsets with
  | nil => rfl
  | cons _ _ ih =>
    cases offsets with
    | nil => cases length
    | cons start offsets =>
      rw [List.zip_cons_cons, List.zip_cons_cons, List.forall_mem_cons] at bits
      rw [List.zipWith_cons_cons, List.map_cons, bits.1, ih (Nat.succ.inj length) bits.2]

theorem loaded_of_bits : scalars.zipWith loaded (ws.map Word.bits) = ws := by
  induction suits with
  | nil => rfl
  | cons first _ ih => rw [List.map_cons, List.zipWith_cons_cons, first.loaded_eq, ih]

end

/-- What is stored through a layout stands in its places, and nothing else changes. -/
structure Layout.Stores (l : Layout) (m m' : Memory) (ws : List Word) : Prop where
  size : m'.size = m.size
  bytes : ∀ e ∈ l.slots.zip ws,
    read m' e.1.2.toNat (memorySize e.1.1).toNat = LittleEndian.encode (memorySize e.1.1).toNat e.2.bits.toNat
  others : ∀ p, (∀ slot ∈ l.slots, p < slot.2.toNat ∨ slotEnd slot ≤ p) → m'[p]? = m[p]?

namespace Layout

variable {l : Layout} {m m' : Memory} {ws : List Word}

def Near (l : Layout) : Prop := ∀ slot ∈ l.slots, Reachable slot

theorem Tight.stores (tight : l.Tight) (near : l.Near) (room : l.size.toNat ≤ m.size)
    (suits : List.Forall₂ (fun s w => Word.Suits s w) l.scalars ws) : l.Stores m (l.store m ws) ws := by
  have full : (l.slots.zip ws).map Prod.fst = l.slots := by
    apply List.map_fst_zip
    rw [slots, List.length_zip, tight.length, Nat.min_self, suits.length_eq]
  obtain ⟨_, _, ⟨_, within⟩, _⟩ := tight.size
  have own : ∀ e ∈ l.slots.zip ws, e.2.Suits e.1.1 := suits_of_zip suits
  have slot : ∀ e ∈ l.slots.zip ws, e.1 ∈ l.slots := fun _ member => (List.of_mem_zip member).1
  have near : ∀ e ∈ l.slots.zip ws, Reachable e.1 := fun e member => near _ (slot e member)
  have same : l.store m ws = (l.slots.zip ws).foldl Memory.put m := storeAt_eq m l.scalars l.offsets ws
  rw [same]
  refine ⟨size_foldl_put _ m, fun e member => ?_, fun p outside => ?_⟩
  · have apart : (l.slots.zip ws).Pairwise fun e f => slotEnd e.1 ≤ f.1.2.toNat :=
      List.pairwise_map.1 (full ▸ tight.apart)
    have inside : ∀ e ∈ l.slots.zip ws, slotEnd e.1 ≤ m.size :=
      fun e member => Nat.le_trans (within _ (slot e member)) room
    rw [read_foldl_put own near apart inside e member, (own e member).stored_eq]
  · exact foldl_put_outside own near fun e member => outside _ (slot e member)

theorem Stores.load_eq (stores : l.Stores m m' ws) (length : l.offsets.length = l.scalars.length) (near : l.Near)
    (suits : List.Forall₂ (fun s w => Word.Suits s w) l.scalars ws) : l.load m' = ws := by
  have bits : l.bits m' = ws.map Word.bits := by
    apply bits_of_read suits length
    intro e member
    have below := (suits_of_zip suits e member).bits_lt
    rw [bitsAt, position_reachable (near _ (List.of_mem_zip member).1), stores.bytes e member,
      LittleEndian.decode_encode, Nat.mod_eq_of_lt below, UInt64.ofNat_toNat]
  rw [load, bits, loaded_of_bits suits]

theorem bitsAt_far {slot : Prim × UInt32} (far : ¬ Reachable slot) (aligned : (memorySize slot.1).toNat ∣ slot.2.toNat)
    (m : Memory) : bitsAt m slot.1 slot.2 = 0 := by
  rw [bitsAt, read_before (position_far far aligned)]
  rcases memorySize_cases slot.1 with size | size <;> rw [size] <;> rfl

theorem load_eq_map (l : Layout) (m : Memory) : l.load m = l.slots.map fun slot => loaded slot.1 (bitsAt m slot.1 slot.2) := by
  unfold load bits slots
  generalize l.offsets = offsets
  induction l.scalars generalizing offsets with
  | nil => rfl
  | cons s rest ih =>
    cases offsets with
    | nil => rfl
    | cons start offsets => exact congrArg (_ :: ·) (ih offsets)

end Layout

def oneOf (s : Prim) : Word := .ofScalar s 1

theorem suits_oneOf (s : Prim) : (oneOf s).Suits s := by
  cases s <;> exact ⟨rfl, fun _ => Or.inr rfl⟩

theorem oneOf_ne_zero (s : Prim) : oneOf s ≠ loaded s 0 := by
  cases s <;> decide

theorem Layout.Tight.near_iff {l : Layout} (tight : l.Tight) : l.Near ↔ l.size.toNat ≤ 2 ^ 31 := by
  obtain ⟨unit, ⟨greatest, _⟩, ⟨_, within⟩, least⟩ := tight.size
  constructor
  · -- 2 ^ 31 is a multiple of every unit, and of every size of a scalar
    intro near
    refine least ⟨?_, fun slot member => ?_⟩
    · rcases greatest with rfl | ⟨s, _, rfl⟩
      · exact Nat.one_dvd _
      · rcases memorySize_cases s with size | size <;> rw [size] <;> decide
    · have below : slot.2.toNat < 2 ^ 31 := near slot member
      have aligned := tight.aligned slot member
      unfold slotEnd
      rcases memorySize_cases slot.1 with size | size <;> rw [size] at aligned ⊢ <;> omega
  · intro small slot member
    have last : slot.2.toNat + (memorySize slot.1).toNat ≤ l.size.toNat := within slot member
    have positive := memorySize_pos slot.1
    show slot.2.toNat < 2 ^ 31
    omega

/-- Layouts load every value that they store just where no displacement is negative. -/
theorem Layout.Tight.restores_iff {l : Layout} (tight : l.Tight) : l.Near ↔ ∀ m ws, l.size.toNat ≤ m.size →
    List.Forall₂ (fun s w => Word.Suits s w) l.scalars ws → l.load (l.store m ws) = ws := by
  refine ⟨fun near m ws room suits => (tight.stores near room suits).load_eq tight.length near suits, ?_⟩
  intro restores slot member
  by_contra far
  have scalars : l.slots.map Prod.fst = l.scalars := List.map_fst_zip (by rw [tight.length])
  have suits : List.Forall₂ (fun s w => Word.Suits s w) l.scalars (l.scalars.map oneOf) :=
    List.forall₂_map_right_iff.2 (List.forall₂_same.2 fun s _ => suits_oneOf s)
  have same := restores (blank l.size) _ (by simp [blank]) suits
  rw [load_eq_map, ← scalars, List.map_map, List.map_inj_left] at same
  have zero := same slot member
  rw [bitsAt_far far (tight.aligned slot member)] at zero
  exact oneOf_ne_zero slot.1 zero.symm

/-- Scalars have a layout just where a word holds their size, and the layout is as tight as the sizes of its
scalars allow. Up to 2 ^ 31 bytes, and not beyond, values that are stored through it into a memory with room for
it are loaded back; each stands in its own place as the bytes of its bits, a boolean as zero or one in four of
them, and no other byte changes. -/
theorem pack_roundTrip (scalars : List Prim) :
    ((∃ l, Layout.pack scalars = some l) ↔ extent scalars < 2 ^ 32) ∧
    ∀ l, Layout.pack scalars = some l → l.scalars = scalars ∧ l.size.toNat = extent scalars ∧ l.Tight ∧
      (l.size.toNat ≤ 2 ^ 31 ↔ ∀ m ws, l.size.toNat ≤ m.size → List.Forall₂ (fun s w => Word.Suits s w) scalars ws →
        l.load (l.store m ws) = ws) ∧
      (l.size.toNat ≤ 2 ^ 31 → ∀ m ws, l.size.toNat ≤ m.size →
        List.Forall₂ (fun s w => Word.Suits s w) scalars ws → l.Stores m (l.store m ws) ws) := by
  refine ⟨exists_pack_iff, fun l packed => ?_⟩
  have tight := pack_tight packed
  obtain ⟨_, _, rfl, size⟩ := pack_eq_some packed
  refine ⟨rfl, size, tight, ?_, fun small m ws room suits => tight.stores (tight.near_iff.2 small) room suits⟩
  rw [← tight.near_iff]
  exact tight.restores_iff

/-- A record of booleans and numbers of both sizes. -/
def mixed : List (Prim × Word) :=
  [(.boolean, .i8 1), (.f64, .f64 0x3ff8000000000000), (.f32, .f32 0x7fc00001), (.boolean, .i8 0),
    (.u64, .i64 0xffffffffffffffff), (.i32, .i32 0x80000000)]

theorem mixed_roundTrip : ∃ l, Layout.pack (mixed.map Prod.fst) = some l ∧ l.offsets = [0, 8, 16, 20, 24, 32] ∧
    l.size = 40 ∧
    let m := l.store (Array.replicate 48 0xaa) (mixed.map Prod.snd)
    l.load m = mixed.map Prod.snd ∧ read m 0 4 = [1, 0, 0, 0] ∧ read m 20 4 = [0, 0, 0, 0] ∧ m[4]? = some 0xaa ∧
      m[36]? = some 0xaa ∧ m.size = 48 := by
  have packed : Layout.pack (mixed.map Prod.fst) =
      some { scalars := mixed.map Prod.fst, offsets := [0, 8, 16, 20, 24, 32], size := 40 } := by decide
  have suits : List.Forall₂ (fun s w => Word.Suits s w) (mixed.map Prod.fst) (mixed.map Prod.snd) := by
    refine .cons ⟨rfl, fun _ => Or.inr rfl⟩ (.cons ⟨rfl, nofun⟩ (.cons ⟨rfl, nofun⟩ (.cons ⟨rfl, fun _ => Or.inl rfl⟩
      (.cons ⟨rfl, nofun⟩ (.cons ⟨rfl, nofun⟩ .nil)))))
  obtain ⟨_, _, _, restores, stores⟩ := (pack_roundTrip (mixed.map Prod.fst)).2 _ packed
  have kept := stores (by decide) (Array.replicate 48 0xaa) _ (by decide) suits
  refine ⟨_, packed, rfl, rfl, restores.1 (by decide) _ _ (by decide) suits, ?_, ?_, ?_, ?_, kept.size⟩
  · exact kept.bytes ((.boolean, 0), .i8 1) (by decide)
  · exact kept.bytes ((.boolean, 20), .i8 0) (by decide)
  · exact kept.others 4 (by decide)
  · exact kept.others 36 (by decide)

theorem extent_octets (n : Nat) : extent (List.replicate n .f64) = 8 * n := by
  have reached : ∀ n k : Nat, reach (8 * k) (List.replicate n .f64) = 8 * (k + n) := by
    intro n
    induction n with
    | zero => exact fun k => rfl
    | succ n ih =>
      intro k
      have first : roundUp (8 * k) (memorySize .f64).toNat + (memorySize .f64).toNat = 8 * (k + 1) := by
        rw [roundUp_eq (memorySize_pos _)]
        show (if 8 * k % 8 = 0 then _ else _) + 8 = _
        rw [if_pos (Nat.mul_mod_right 8 k)]
        omega
      rw [List.replicate_succ]
      show reach (roundUp (8 * k) (memorySize .f64).toNat + (memorySize .f64).toNat) _ = _
      rw [first, ih]
      omega
  have whole : 8 * n % (widest (List.replicate n .f64)).toNat = 0 := by
    rcases (widest_isGreatest (List.replicate n .f64)).1 with one | ⟨s, member, same⟩
    · rw [one, Nat.mod_one]
    · rw [same, List.eq_of_mem_replicate member]
      exact Nat.mul_mod_right 8 n
  have all := reached n 0
  rw [Nat.zero_add] at all
  rw [extent, roundUp_eq (widest_pos _), show reach 0 _ = 8 * n from all, if_pos whole]

/-- 2 ^ 29 double precision numbers have no layout; half as many and one more have one, whose last displacement
is negative. -/
theorem octets_not_roundTrip :
    (¬ ∃ l, Layout.pack (List.replicate (2 ^ 29) .f64) = some l) ∧
    ∃ l, Layout.pack (List.replicate (2 ^ 28 + 1) .f64) = some l ∧
      ¬ ∀ m ws, l.size.toNat ≤ m.size →
        List.Forall₂ (fun s w => Word.Suits s w) (List.replicate (2 ^ 28 + 1) .f64) ws → l.load (l.store m ws) = ws := by
  refine ⟨fun packed => ?_, ?_⟩
  · have fits := exists_pack_iff.1 packed
    rw [extent_octets] at fits
    omega
  · obtain ⟨l, packed⟩ := (@exists_pack_iff (List.replicate (2 ^ 28 + 1) .f64)).2 (by rw [extent_octets]; omega)
    have tight := pack_tight packed
    obtain ⟨_, _, same, size⟩ := pack_eq_some packed
    refine ⟨l, packed, fun restores => ?_⟩
    rw [← same] at restores
    have small := tight.near_iff.1 (tight.restores_iff.2 restores)
    rw [size, extent_octets] at small
    omega

end ShaderForge.Native
