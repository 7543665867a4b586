import PhpRefactor.Document.Decode
import PhpRefactor.Json.Skip

/-!
# Reading documents from left to right

A document reader takes tokens from the front of a text.  It complains of the first thing that is
wrong, be it the JSON or the data: what stands behind that place does not matter.

The outer part of a document is read in this way, member by member and item by item.  Where only a
complete value shows what it should have been, the value is read first (`DocumentReader.value`) and
then decoded.
-/

set_option autoImplicit false

namespace PhpRefactor

/-- The nesting that a document may have. -/
def documentDepth : Nat := 127

/-- Reads a value off the front of the tokens. -/
abbrev DocumentReader (α : Type) := StateT (List Token) (Except DocumentError) α

namespace DocumentReader

variable {α σ : Type}

/-- The JSON is at fault. -/
def malformed (reason : SyntaxError) : DocumentReader α := throw (.notJson reason)

/-- The data is at fault. -/
def refuse (reason : DataError) : DocumentReader α := throw (.badData reason)

/-- What a decoder made of a value. -/
def accept : Except DataError α → DocumentReader α
  | .ok x => pure x
  | .error reason => refuse reason

/-! ## Values -/

/-- A value with at most `limit` arrays and objects inside one another. -/
def value (limit : Nat) : DocumentReader Json := fun tokens =>
  (Json.readFrom limit .start tokens).mapError .notJson

/-- A value that nobody asked for. -/
def skipped : DocumentReader Unit := fun tokens =>
  match Json.skip tokens with
  | .ok rest => .ok ((), rest)
  | .error reason => .error (.notJson reason)

/-- The bracket that opens an array or object, if one stands here. -/
def opening : DocumentReader (Option Json.Bracket)
  | .openArray :: tokens => .ok (some .array, tokens)
  | .openObject :: tokens => .ok (some .object, tokens)
  | tokens => .ok (none, tokens)

/-- A value that is neither an array nor an object: these are refused where they open. -/
def scalar (item : Decoder α) : DocumentReader α := do
  match ← opening with
  | some .array => accept (item (.array []))
  | some .object => accept (item (.object []))
  | none => accept (item (← value 0))

/-- An array or an object, told apart by what opens it; any other value is of the wrong type. -/
def container (wanted : String) (array object : DocumentReader α) : DocumentReader α := do
  match ← opening with
  | some .array => array
  | some .object => object
  | none => refuse (.wrongType (← value 0) wanted)

/-- An array is of the wrong type. -/
def noArray (wanted : String) : DocumentReader α := refuse (.wrongType (.array []) wanted)

/-- An object is of the wrong type. -/
def noObject (wanted : String) : DocumentReader α := refuse (.wrongType (.object []) wanted)

/-! ## Arrays -/

/-- Another item follows; otherwise the array ends here.  The comma before the item is taken. -/
def anotherItem (first : Bool) : DocumentReader Bool
  | [] => .error (.notJson .endInArray)
  | .closeArray :: tokens => .ok (false, tokens)
  | tokens =>
    match first, tokens with
    | true, tokens => .ok (true, tokens)
    | false, .comma :: .closeArray :: _ => .error (.notJson .trailingComma)
    | false, .comma :: tokens => .ok (true, tokens)
    | false, _ => .error (.notJson .noCommaInArray)

/-- An array must end here. -/
def arrayEnd : DocumentReader Unit
  | [] => .error (.notJson .endInArray)
  | .closeArray :: tokens => .ok ((), tokens)
  | .comma :: .closeArray :: _ => .error (.notJson .trailingComma)
  | _ => .error (.notJson .trailingCharacters)

/-- The items of an array behind its bracket; each takes a token, so `fuel` is their number. -/
def itemsWithin (item : DocumentReader α) : Nat → Bool → DocumentReader (List α)
  | 0, _ => malformed .endInArray
  | fuel + 1, first => do
    if ← anotherItem first then
      let x ← item
      return x :: (← itemsWithin item fuel false)
    else return []

/-- The items of an array behind its bracket. -/
def items (item : DocumentReader α) : DocumentReader (List α) := do
  itemsWithin item ((← get).length + 1) true

/-- The items of an array behind its first one, read as one value with at most `limit` arrays and
objects inside one another, the array itself counted. -/
def otherItems (limit : Nat) : DocumentReader (List Json) := fun tokens =>
  match Json.readFrom limit ⟨[.array []], .separator⟩ tokens with
  | .ok (.array vs, rest) => .ok (vs, rest)
  | .ok (_, rest) => .ok ([], rest)
  | .error reason => .error (.notJson reason)

/-! ## Objects -/

/-- The key of another member; without one, the object ends here. -/
def anotherKey (first : Bool) : DocumentReader (Option String)
  | [] => .error (.notJson .endInObject)
  | .closeObject :: tokens => .ok (none, tokens)
  | tokens =>
    match first, tokens with
    | true, .string key :: tokens | false, .comma :: .string key :: tokens => .ok (some key, tokens)
    | true, .fault true reason _ :: _ | false, .comma :: .fault true reason _ :: _ =>
      .error (.notJson reason)
    | true, _ => .error (.notJson .noKey)
    | false, [.comma] => .error (.notJson .endInValue)
    | false, .comma :: .closeObject :: _ => .error (.notJson .trailingComma)
    | false, .comma :: _ => .error (.notJson .noKey)
    | false, _ => .error (.notJson .noCommaInObject)

/-- What stands behind a key. -/
def behindColon (item : DocumentReader α) : DocumentReader α := fun tokens =>
  match tokens with
  | [] => .error (.notJson .endInObject)
  | .colon :: tokens => item tokens
  | _ => .error (.notJson .noColon)

/-- The members of an object behind its brace, one after another: `member` takes what a key has
behind it into account.  Each takes a token, so `fuel` is their number. -/
def membersWithin (member : σ → String → DocumentReader σ) : Nat → Bool → σ → DocumentReader σ
  | 0, _, _ => malformed .endInObject
  | fuel + 1, first, s => do
    match ← anotherKey first with
    | none => return s
    | some key => membersWithin member fuel false (← member s key)

/-- The members of an object behind its brace. -/
def members (member : σ → String → DocumentReader σ) (start : σ) : DocumentReader σ := do
  membersWithin member ((← get).length + 1) true start

/-- A member that may be given only once; `already` is what was read under its key before. -/
def once (key : String) (already : Option α) (item : DocumentReader α) :
    DocumentReader (Option α) := do
  if already.isSome then refuse (.duplicateField key)
  return some (← behindColon item)

/-- A member that must have been given. -/
def given (key : String) : Option α → DocumentReader α
  | some x => pure x
  | none => refuse (.missingField key)

/-! ## Texts -/

/-- Reads a whole text: nothing may stand behind the document. -/
def run (reader : DocumentReader α) (text : String) : Except DocumentError α :=
  match reader (Token.scan text.toList) with
  | .error e => .error e
  | .ok (x, []) => .ok x
  | .ok (_, _ :: _) => .error (.notJson .trailingCharacters)

end DocumentReader

end PhpRefactor
