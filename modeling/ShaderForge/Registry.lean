import ShaderForge.Function

/-!
# Registries

The functions built so far, by number, and the counters that hand out numbers.
-/

namespace ShaderForge

/-- Why a registry gives no answer. -/
inductive Refusal where
  | fault (e : Fault)
  /-- A counter has no next value; this ends the program. -/
  | overflow

namespace Refusal

def message : Refusal → String
  | fault e => e.message
  | overflow => "attempt to add with overflow"

def lift {α : Type} : Except Fault α → Except Refusal α
  | .ok a => .ok a
  | .error e => .error (.fault e)

end Refusal

def Registry.Keyed (table : Std.ExtTreeMap FunctionId Function) : Prop :=
  ∀ (id : FunctionId) (f : Function), table[id]? = some f → f.id = id

/-- Functions by number, with the next free number and the next unique id. -/
structure Registry where
  nextFunction : FunctionId := 0
  nextUnique : UInt64 := 0
  table : Std.ExtTreeMap FunctionId Function := ∅
  keyed : Registry.Keyed table := by simp [Registry.Keyed]

namespace Registry

theorem Keyed.insert {table : Std.ExtTreeMap FunctionId Function} (keyed : Keyed table) (f : Function) :
    Keyed (table.insert f.id f) := by
  intro id g found
  rw [Std.ExtTreeMap.getElem?_insert] at found
  split at found
  · rename_i here
    cases found
    exact Std.LawfulEqCmp.eq_of_compare here
  · exact keyed id g found

def empty : Registry := {}

/-- Takes the next function number, if there is one after it. -/
def takeFunctionId (r : Registry) : Except Refusal FunctionId × Registry :=
  if r.nextFunction < r.nextFunction + 1 then
    (.ok r.nextFunction, { r with nextFunction := r.nextFunction + 1 })
  else (.error .overflow, r)

/-- Takes the next unique id, if there is one after it. -/
def takeUnique (r : Registry) : Except Refusal UInt64 × Registry :=
  if r.nextUnique < r.nextUnique + 1 then
    (.ok r.nextUnique, { r with nextUnique := r.nextUnique + 1 })
  else (.error .overflow, r)

/-- Puts a function in the table, in the place of one of the same number. -/
def put (r : Registry) (f : Function) : Registry :=
  { r with table := r.table.insert f.id f, keyed := r.keyed.insert f }

/-- Adds a function, if there is a number after its own. -/
def insert (r : Registry) (f : Function) : Except Refusal Registry :=
  if f.id < f.id + 1 then
    .ok { r.put f with nextFunction := max r.nextFunction (f.id + 1) }
  else .error .overflow

/-- Builds a function under the next number.  The number is used up even when
building fails. -/
def register (r : Registry) (name : String) (b : Buffer) : Except Refusal FunctionId × Registry :=
  match r.takeFunctionId with
  | (.error e, r) => (.error e, r)
  | (.ok id, r) =>
    match Refusal.lift (Function.build name id b) >>= r.insert with
    | .ok r => (.ok id, r)
    | .error e => (.error e, r)

def get? (r : Registry) (id : FunctionId) : Option Function := r.table[id]?

def functions (r : Registry) : List Function := r.table.values

def find? (r : Registry) (name : String) : Option Function :=
  r.functions.find? (·.name == name)

def size (r : Registry) : Nat := r.table.size

end Registry

end ShaderForge
