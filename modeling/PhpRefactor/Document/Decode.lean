import PhpRefactor.Document.Error

/-!
# Decoding JSON values

A decoder turns a JSON value into a value of a domain type or says what is wrong with it.  The
decoders of this module are those that the documents share: scalars, lists, optional values and
names out of a fixed choice.
-/

set_option autoImplicit false

namespace PhpRefactor

/-- Reads a JSON value as a value of another type. -/
abbrev Decoder (α : Type) := Json → Except DataError α

namespace Decoder

variable {α : Type}

def string : Decoder String
  | .string s => .ok s
  | v => .error (.wrongType v "a string")

def bool : Decoder Bool
  | .bool b => .ok b
  | v => .error (.wrongType v "a boolean")

/-- An integer in a range, both ends included. -/
def intWithin (low high : Int) (wanted : String) : Decoder Int
  | .int n => if low ≤ n ∧ n ≤ high then .ok n else .error (.badValue (.int n) wanted)
  | v => .error (.wrongType v wanted)

def int64 : Decoder Int64 := fun v =>
  (intWithin Int64.minValue.toInt Int64.maxValue.toInt "i64" v).map Int64.ofInt

def uint32 : Decoder UInt32 := fun v =>
  (intWithin 0 (UInt32.size - 1) "u32" v).map fun n => UInt32.ofNat n.toNat

/-- A count of up to 64 bits. -/
def count : Decoder Nat := fun v => (intWithin 0 (UInt64.size - 1) "usize" v).map Int.toNat

/-- A float; integers are rounded to the nearest one. -/
def double : Decoder Double
  | .float d => .ok d
  | .int n => .ok (Double.withSign (decide (n < 0)) (Double.ofNat n.natAbs))
  | v => .error (.wrongType v "f64")

def list (item : Decoder α) : Decoder (List α)
  | .array vs => vs.mapM item
  | v => .error (.wrongType v "a sequence")

/-- `null`, or a value. -/
def optional (item : Decoder α) : Decoder (Option α)
  | .null => .ok none
  | v => (item v).map some

/-- One of several values, by name. -/
def named (choices : List α) (name : α → String) (x : String) : Except DataError α :=
  match choices.find? fun c => name c = x with
  | some c => .ok c
  | none => .error (.unknownVariant x (choices.map name))

/-- One of several values: its name, or an object with that name as its only key and nothing behind
it, which is `null` or an empty object. -/
def choice (choices : List α) (name : α → String) : Decoder α
  | .string x => named choices name x
  | .object [(x, v)] => do
    let c ← named choices name x
    match v with
    | .null | .object [] => return c
    | v => throw (.wrongType v "unit")
  | .object fields => .error (.badValue (.object fields) "map with a single key")
  | v => .error (.wrongType v "string or map")

end Decoder

end PhpRefactor
