import PhpRefactor.Json.Value

/-!
# Writing JSON

Two layouts of one value: on a single line, and with each member on a line of its own, two blanks
deeper than what it is in.  Strings escape the quote, the backslash and control characters, and
nothing else.
-/

set_option autoImplicit false

namespace PhpRefactor

namespace Json

/-- One hexadecimal digit, in lower case. -/
def hexDigit (n : Nat) : Char := Char.ofNat (if n < 10 then 48 + n else 87 + n)

/-- A character inside a string. -/
def escapeChar (c : Char) : List Char :=
  if c = '"' then ['\\', '"']
  else if c = '\\' then ['\\', '\\']
  else if c = '\x08' then ['\\', 'b']
  else if c = '\t' then ['\\', 't']
  else if c = '\n' then ['\\', 'n']
  else if c = '\x0c' then ['\\', 'f']
  else if c = '\r' then ['\\', 'r']
  else if c.toNat < 0x20 then
    ['\\', 'u', '0', '0', hexDigit (c.toNat / 16), hexDigit (c.toNat % 16)]
  else [c]

/-- A string with its quotes. -/
def quote (s : String) : String := String.ofList ('"' :: s.toList.flatMap escapeChar ++ ['"'])

/-- A value that is neither an array nor an object. -/
def scalarText : Json → String
  | null => "null"
  | bool true => "true"
  | bool false => "false"
  | int n => toString n
  | float d => if d.isFinite then floatLayout.text d else "null"
  | string s => quote s
  | array _ | object _ => ""

/-- The beginning of a line. -/
def newLine (indent : Nat) : String := String.ofList ('\n' :: List.replicate (2 * indent) ' ')

mutual

/-- The value over several lines; `indent` counts what it is in. -/
def prettyAt (indent : Nat) : Json → String
  | array [] => "[]"
  | array (v :: vs) =>
    "[" ++ newLine (indent + 1) ++ prettyAt (indent + 1) v ++ prettyItems (indent + 1) vs ++
      newLine indent ++ "]"
  | object [] => "\x7b\x7d"
  | object ((k, v) :: fs) =>
    "\x7b" ++ newLine (indent + 1) ++ quote k ++ ": " ++ prettyAt (indent + 1) v ++
      prettyFields (indent + 1) fs ++ newLine indent ++ "\x7d"
  | scalar => scalarText scalar

/-- The items behind the first. -/
def prettyItems (indent : Nat) : List Json → String
  | [] => ""
  | v :: vs => "," ++ newLine indent ++ prettyAt indent v ++ prettyItems indent vs

/-- The members behind the first. -/
def prettyFields (indent : Nat) : List (String × Json) → String
  | [] => ""
  | (k, v) :: fs =>
    "," ++ newLine indent ++ quote k ++ ": " ++ prettyAt indent v ++ prettyFields indent fs

end

/-- The value over several lines. -/
def pretty (v : Json) : String := v.prettyAt 0

mutual

/-- The value on one line, without blanks. -/
def compact : Json → String
  | array [] => "[]"
  | array (v :: vs) => "[" ++ v.compact ++ compactItems vs ++ "]"
  | object [] => "\x7b\x7d"
  | object ((k, v) :: fs) => "\x7b" ++ quote k ++ ":" ++ v.compact ++ compactFields fs ++ "\x7d"
  | scalar => scalarText scalar

/-- The items behind the first. -/
def compactItems : List Json → String
  | [] => ""
  | v :: vs => "," ++ v.compact ++ compactItems vs

/-- The members behind the first. -/
def compactFields : List (String × Json) → String
  | [] => ""
  | (k, v) :: fs => "," ++ quote k ++ ":" ++ v.compact ++ compactFields fs

end

end Json

end PhpRefactor
