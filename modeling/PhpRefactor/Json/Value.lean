import PhpRefactor.Number.Decimal

/-!
# JSON values

A value keeps what a document says: the order of an object's members, repeated keys, and whether a
number was spelled as an integer.
-/

set_option autoImplicit false

namespace PhpRefactor

/-- A JSON value. -/
inductive Json where
  | null
  | bool (value : Bool)
  | int (value : Int)
  | float (value : Double)
  | string (value : String)
  | array (items : List Json)
  | object (fields : List (String × Json))
  deriving Repr, Inhabited

namespace Json

mutual

/-- How many arrays and objects lie inside one another. -/
def depth : Json → Nat
  | array items => 1 + depthItems items
  | object fields => 1 + depthFields fields
  | _ => 0

def depthItems : List Json → Nat
  | [] => 0
  | v :: vs => max v.depth (depthItems vs)

def depthFields : List (String × Json) → Nat
  | [] => 0
  | (_, v) :: fs => max v.depth (depthFields fs)

end

/-- Written floats turn to exponents below `0.00001` and from `1e+16` on; a half goes to the even
digit. -/
def floatLayout : Layout := ⟨-5, 16, "+", .even⟩

end Json

end PhpRefactor
