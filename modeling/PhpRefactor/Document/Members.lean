import PhpRefactor.Document.Decode

/-!
# The members of an object

Which members an object must have, may have and what is made of them is a `Members`: an applicative
that picks members by their keys.  A member may stand anywhere among the others but only once, and
members that nobody asks for are passed over.

Of two faults the one that stands first in the object counts.  A member that is given twice is at
fault where it is given again; a member that is missing is at fault behind all that are there, so a
missing member is reported only of an object that has no other fault, and the first of several that
are missing in the order in which they are asked for.
-/

set_option autoImplicit false

namespace PhpRefactor

/-- A fault in an object, and how many members stand before it. -/
structure MemberFault where
  place : Nat
  reason : DataError

namespace MemberFault

/-- The fault that stands first; of two that stand side by side, the left one. -/
def first (a b : MemberFault) : MemberFault := if b.place < a.place then b else a

end MemberFault

/-- Reads the members of an object as a value. -/
structure Members (α : Type) where
  find : List (String × Json) → Except MemberFault α

namespace Members

variable {α β : Type}

/-- Applies a function to an argument that was read from the same object. -/
def apply : Except MemberFault (α → β) → Except MemberFault α → Except MemberFault β
  | .ok f, .ok x => .ok (f x)
  | .ok _, .error b => .error b
  | .error a, .ok _ => .error a
  | .error a, .error b => .error (a.first b)

instance : Applicative Members where
  pure x := ⟨fun _ => .ok x⟩
  map f m := ⟨fun fields => (m.find fields).map f⟩
  seq f m := ⟨fun fields => apply (f.find fields) ((m ()).find fields)⟩

/-- The values of a key, each with the number of members before it. -/
def occurrences (key : String) (fields : List (String × Json)) : List (Nat × Json) :=
  fields.zipIdx.filterMap fun ((k, v), place) => if k = key then some (place, v) else none

/-- The member with this key; `absent` is what a missing one stands for. -/
def member (key : String) (item : Decoder α) (absent : Except DataError α) : Members α where
  find fields :=
    match occurrences key fields with
    | [] => absent.mapError fun reason => ⟨fields.length, reason⟩
    | (place, v) :: others =>
      match item v, others with
      | .error reason, _ => .error ⟨place, reason⟩
      | .ok x, [] => .ok x
      | .ok _, (place, _) :: _ => .error ⟨place, .duplicateField key⟩

/-- The member with this key, which must be there. -/
def required (key : String) (item : Decoder α) : Members α :=
  member key item (.error (.missingField key))

/-- The member with this key, or its default. -/
def defaulted (key : String) (item : Decoder α) (value : α) : Members α :=
  member key item (.ok value)

/-- The optional member with this key: missing, `null` or a value. -/
def optional (key : String) (item : Decoder α) : Members (Option α) :=
  defaulted key (Decoder.optional item) none

/-- The value that the members of an object say. -/
def decode (m : Members α) (fields : List (String × Json)) : Except DataError α :=
  (m.find fields).mapError MemberFault.reason

theorem find_map (f : α → β) (m : Members α) (fields : List (String × Json)) :
    (f <$> m).find fields = (m.find fields).map f := rfl

theorem find_seq (f : Members (α → β)) (m : Members α) (fields : List (String × Json)) :
    (f <*> m).find fields = apply (f.find fields) (m.find fields) := rfl

/-- Two parts of an object can be read exactly when each of them can. -/
theorem find_seq_eq_ok {f : Members (α → β)} {m : Members α} {fields : List (String × Json)}
    {y : β} :
    (f <*> m).find fields = .ok y ↔
      ∃ g x, f.find fields = .ok g ∧ m.find fields = .ok x ∧ g x = y := by
  rw [find_seq]
  cases f.find fields <;> cases m.find fields <;> simp [apply]

end Members

end PhpRefactor
