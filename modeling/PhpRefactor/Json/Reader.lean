import PhpRefactor.Json.Token

/-!
# Reading JSON

The reader goes through the tokens once, with a stack of the arrays and objects that are still
open.  What may come next is one of six expectations.  It stops as soon as the outermost value is
complete and hands back the tokens behind it: whether anything may follow is for the caller to
decide.

The height of the stack is the nesting depth, so the depth limit is a check where something is
opened.
-/

set_option autoImplicit false

namespace PhpRefactor

namespace Json

/-- An array or object that is still open; what it holds so far stands last first. -/
inductive Frame where
  | array (items : List Json)
  | object (fields : List (String × Json))
  /-- An object whose next value belongs to this key. -/
  | member (fields : List (String × Json)) (key : String)
  deriving Repr

/-- What must come next. -/
inductive Expectation where
  | value
  /-- Behind the bracket that opens an array. -/
  | firstItem
  /-- Behind the brace that opens an object. -/
  | firstKey
  /-- Behind a comma in an object. -/
  | key
  | colon
  /-- Behind a value: a comma, or the end of what is open. -/
  | separator
  deriving DecidableEq, Repr

/-- What is open, and what must come next. -/
structure Cursor where
  frames : List Frame
  expect : Expectation
  deriving Repr

/-- Where the reader stands after a token: inside the outermost value, or behind it. -/
inductive Progress where
  | inside (cursor : Cursor)
  | complete (value : Json)

namespace Cursor

/-- Before the outermost value. -/
def start : Cursor := ⟨[], .value⟩

end Cursor

/-- A value is complete: it goes into what is open. -/
def close (frames : List Frame) (value : Json) : Progress :=
  match frames with
  | .member fields key :: frames => .inside ⟨.object ((key, value) :: fields) :: frames, .separator⟩
  | .array items :: frames => .inside ⟨.array (value :: items) :: frames, .separator⟩
  | .object fields :: frames => .inside ⟨.object fields :: frames, .separator⟩
  | [] => .complete value

/-- Opens an array or object, unless `limit` of them are open already. -/
def openFrame (limit : Nat) (frames : List Frame) (frame : Frame) (expect : Expectation) :
    Except SyntaxError Progress :=
  if frames.length < limit then .ok (.inside ⟨frame :: frames, expect⟩) else .error .tooDeep

/-- A value begins with this token. -/
def startValue (limit : Nat) (frames : List Frame) (token : Token) : Except SyntaxError Progress :=
  match token with
  | .scalar v => .ok (close frames v)
  | .string s => .ok (close frames (.string s))
  | .openArray => openFrame limit frames (.array []) .firstItem
  | .openObject => openFrame limit frames (.object []) .firstKey
  | .fault _ reason _ => .error reason
  | _ => .error .noValue

/-- Takes one token.  What is wrong inside a token matters only where the token could have stood: a
string where a key is due, anything where a value is due. -/
def advance (limit : Nat) (cursor : Cursor) (token : Token) : Except SyntaxError Progress :=
  match cursor.expect, cursor.frames, token with
  | .value, .array _ :: _, .closeArray => .error .trailingComma
  | .value, frames, token => startValue limit frames token
  | .firstItem, _ :: frames, .closeArray => .ok (close frames (.array []))
  | .firstItem, frames, token => startValue limit frames token
  | .firstKey, _ :: frames, .closeObject => .ok (close frames (.object []))
  | .key, _, .closeObject => .error .trailingComma
  | .firstKey, .object fields :: frames, .string k =>
    .ok (.inside ⟨.member fields k :: frames, .colon⟩)
  | .key, .object fields :: frames, .string k =>
    .ok (.inside ⟨.member fields k :: frames, .colon⟩)
  | .colon, frames, .colon => .ok (.inside ⟨frames, .value⟩)
  | .separator, .array items :: frames, .comma => .ok (.inside ⟨.array items :: frames, .value⟩)
  | .separator, .array items :: frames, .closeArray => .ok (close frames (.array items.reverse))
  | .separator, .object fields :: frames, .comma => .ok (.inside ⟨.object fields :: frames, .key⟩)
  | .separator, .object fields :: frames, .closeObject =>
    .ok (close frames (.object fields.reverse))
  | .separator, .array _ :: _, _ => .error .noCommaInArray
  | .separator, _, _ => .error .noCommaInObject
  | .colon, _, _ => .error .noColon
  | _, _, .fault true reason _ => .error reason
  | _, _, _ => .error .noKey

/-- What is missing when the tokens end here. -/
def Cursor.atEnd (cursor : Cursor) : SyntaxError :=
  match cursor.expect, cursor.frames with
  | .value, _ | .key, _ => .endInValue
  | .firstItem, _ => .endInArray
  | .separator, .array _ :: _ => .endInArray
  | _, _ => .endInObject

/-- Reads on until the outermost value is complete. -/
def readFrom (limit : Nat) (cursor : Cursor) :
    List Token → Except SyntaxError (Json × List Token)
  | [] => .error cursor.atEnd
  | t :: ts =>
    match advance limit cursor t with
    | .error e => .error e
    | .ok (.inside cursor) => readFrom limit cursor ts
    | .ok (.complete v) => .ok (v, ts)

/-- The value that a text is, with at most `limit` arrays and objects inside one another. -/
def read (limit : Nat) (text : String) : Except SyntaxError Json :=
  match readFrom limit .start (Token.scan text.toList) with
  | .error e => .error e
  | .ok (v, []) => .ok v
  | .ok (_, _ :: _) => .error .trailingCharacters

end Json

end PhpRefactor
