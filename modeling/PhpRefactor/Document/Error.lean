import PhpRefactor.Json.Token
import PhpRefactor.Text.Hidden

/-!
# What is wrong with a document

A document fails for one of two reasons: its text is not JSON (`SyntaxError`), or the JSON is not
what the document has to be (`DataError`).  A data error names the field, variant or value at fault;
`DataError.message` puts it into words.
-/

set_option autoImplicit false

namespace PhpRefactor

/-- Why a JSON value is not the value that was asked for. -/
inductive DataError where
  | missingField (name : String)
  | duplicateField (name : String)
  | unknownField (name : String) (known : List String)
  | unknownVariant (name : String) (known : List String)
  /-- A value of the wrong type. -/
  | wrongType (found : Json) (wanted : String)
  /-- A value of the right type, but not one of those that are allowed. -/
  | badValue (found : Json) (wanted : String)
  /-- An array of the wrong length. -/
  | wrongLength (found : Nat) (wanted : String)
  deriving Repr

/-- Why a text is not the document that was asked for. -/
inductive DocumentError where
  | notJson (reason : SyntaxError)
  | badData (reason : DataError)
  deriving Repr

namespace DataError

/-- A hexadecimal number in lower case, without leading zeros. -/
def hexText (n : Nat) : List Char := Nat.toDigits 16 n

/-- A character of a string that is shown between double quotes: a hidden one by its number. -/
def showChar (c : Char) : List Char :=
  if c = '"' then ['\\', '"']
  else if c = '\\' then ['\\', '\\']
  else if c = '\n' then ['\\', 'n']
  else if c = '\r' then ['\\', 'r']
  else if c = '\t' then ['\\', 't']
  else if c.toNat = 0 then ['\\', '0']
  else if Text.isHidden c then '\\' :: 'u' :: '\x7b' :: hexText c.toNat ++ ['\x7d']
  else [c]

/-- What was found, in words. -/
def describe : Json → String
  | .null => "null"
  | .bool b => "boolean `" ++ toString b ++ "`"
  | .int n => "integer `" ++ toString n ++ "`"
  | .float d => "floating point `" ++ Json.floatLayout.text d ++ "`"
  | .string s => "string \"" ++ String.ofList (s.toList.flatMap showChar) ++ "\""
  | .array _ => "sequence"
  | .object _ => "map"

/-- A choice of names, in words. -/
def choice (names : List String) : String :=
  match names.map fun x => "`" ++ x ++ "`" with
  | [] => "nothing"
  | [x] => x
  | [x, y] => x ++ " or " ++ y
  | xs => "one of " ++ String.intercalate ", " xs

def message : DataError → String
  | missingField name => "missing field `" ++ name ++ "`"
  | duplicateField name => "duplicate field `" ++ name ++ "`"
  | unknownField name known => "unknown field `" ++ name ++ "`, expected " ++ choice known
  | unknownVariant name known => "unknown variant `" ++ name ++ "`, expected " ++ choice known
  | wrongType found wanted => "invalid type: " ++ describe found ++ ", expected " ++ wanted
  | badValue found wanted => "invalid value: " ++ describe found ++ ", expected " ++ wanted
  | wrongLength found wanted => "invalid length " ++ toString found ++ ", expected " ++ wanted

end DataError

namespace DocumentError

def message : DocumentError → String
  | notJson reason => reason.message
  | badData reason => reason.message

end DocumentError

end PhpRefactor
