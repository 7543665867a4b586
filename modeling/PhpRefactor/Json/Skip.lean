import PhpRefactor.Json.Reader

/-!
# Passing over JSON

A value that nobody asked for is passed over (`Json.skip`): its brackets, commas and colons must be
in order, but nothing is kept of it.  So nothing limits its nesting, a string in it may hold a lone
surrogate, and a number in it may lie beyond the finite range.

What may come next is one of the six expectations of the reader, and of what is open only the
brackets are known.
-/

set_option autoImplicit false

namespace PhpRefactor

namespace Json

/-- What a bracket opens. -/
inductive Bracket where
  | array
  | object
  deriving DecidableEq, Repr

/-- What is open, and what must come next. -/
structure Outline where
  opened : List Bracket
  expect : Expectation
  deriving Repr

namespace Outline

/-- A value is complete; `none` when it is the outermost one. -/
def close : List Bracket → Option Outline
  | [] => none
  | opened => some ⟨opened, .separator⟩

/-- A value begins with this token. -/
def startValue (opened : List Bracket) (token : Token) : Except SyntaxError (Option Outline) :=
  match token with
  | .scalar _ | .string _ | .fault _ _ none => .ok (close opened)
  | .openArray => .ok (some ⟨.array :: opened, .firstItem⟩)
  | .openObject => .ok (some ⟨.object :: opened, .firstKey⟩)
  | .fault _ _ (some shape) => .error shape
  | _ => .error .noValue

/-- Takes one token. -/
def advance (outline : Outline) (token : Token) : Except SyntaxError (Option Outline) :=
  match outline.expect, outline.opened, token with
  | .firstItem, .array :: opened, .closeArray => .ok (close opened)
  | .value, opened, token | .firstItem, opened, token => startValue opened token
  | .firstKey, .object :: opened, .closeObject => .ok (close opened)
  | .firstKey, opened, .string _ | .key, opened, .string _ => .ok (some ⟨opened, .colon⟩)
  | .firstKey, opened, .fault true _ none | .key, opened, .fault true _ none =>
    .ok (some ⟨opened, .colon⟩)
  | .colon, opened, .colon => .ok (some ⟨opened, .value⟩)
  | .separator, .array :: opened, .comma => .ok (some ⟨.array :: opened, .value⟩)
  | .separator, .object :: opened, .comma => .ok (some ⟨.object :: opened, .key⟩)
  | .separator, .array :: opened, .closeArray => .ok (close opened)
  | .separator, .object :: opened, .closeObject => .ok (close opened)
  | .separator, .array :: _, _ => .error .noCommaInArray
  | .separator, _, _ => .error .noCommaInObject
  | .colon, _, _ => .error .noColon
  | _, _, .fault true _ (some shape) => .error shape
  | _, _, _ => .error .noKey

/-- What is missing when the tokens end here. -/
def atEnd (outline : Outline) : SyntaxError :=
  match outline.expect, outline.opened with
  | .value, _ => .endInValue
  | .firstItem, _ | .separator, .array :: _ => .endInArray
  | _, _ => .endInObject

end Outline

/-- Passes over the rest of a value. -/
def skipFrom (outline : Outline) : List Token → Except SyntaxError (List Token)
  | [] => .error outline.atEnd
  | t :: ts =>
    match outline.advance t with
    | .error e => .error e
    | .ok (some outline) => skipFrom outline ts
    | .ok none => .ok ts

/-- Passes over a value; returns the tokens behind it. -/
def skip (tokens : List Token) : Except SyntaxError (List Token) := skipFrom ⟨[], .value⟩ tokens

end Json

end PhpRefactor
