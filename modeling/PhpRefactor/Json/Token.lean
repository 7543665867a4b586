import PhpRefactor.Json.Value

/-!
# The tokens of a JSON text

`Token.scan` cuts a text into tokens.  A place where no value can be read becomes a `fault`, so that
a reader that is satisfied earlier never sees it.  Every token takes at least one character
(`Token.length_lt_of_next?`), which is why scanning ends.

The grammar is the strict one: no comments, no leading zeros, no raw control characters in strings,
no lone surrogates.  Two things can be cut out of a text without having a value, a string with a
lone surrogate and a number beyond the finite range: behind them scanning goes on, behind any other
fault there is no next token.
-/

set_option autoImplicit false

namespace PhpRefactor

/-- Why a text is not a JSON document. -/
inductive SyntaxError where
  | endInValue
  | endInString
  | endInArray
  | endInObject
  | noValue
  | noLiteral
  | noKey
  | noColon
  | noCommaInArray
  | noCommaInObject
  | trailingComma
  | badNumber
  | numberOutOfRange
  | badEscape
  | badHexEscape
  | loneSurrogate
  | controlCharacter
  | tooDeep
  | trailingCharacters
  deriving DecidableEq, Repr

namespace SyntaxError

def message : SyntaxError → String
  | endInValue => "EOF while parsing a value"
  | endInString => "EOF while parsing a string"
  | endInArray => "EOF while parsing a list"
  | endInObject => "EOF while parsing an object"
  | noValue => "expected value"
  | noLiteral => "expected ident"
  | noKey => "key must be a string"
  | noColon => "expected `:`"
  | noCommaInArray => "expected `,` or `]`"
  | noCommaInObject => "expected `,` or `\x7d`"
  | trailingComma => "trailing comma"
  | badNumber => "invalid number"
  | numberOutOfRange => "number out of range"
  | badEscape => "invalid escape"
  | badHexEscape => "unexpected end of hex escape"
  | loneSurrogate => "lone leading surrogate in hex escape"
  | controlCharacter => "control character (\\u0000-\\u001F) found while parsing a string"
  | tooDeep => "recursion limit exceeded"
  | trailingCharacters => "trailing characters"

end SyntaxError

/-- The smallest unit of a JSON text. -/
inductive Token where
  | openArray
  | closeArray
  | openObject
  | closeObject
  | colon
  | comma
  | string (value : String)
  /-- A literal or a number. -/
  | scalar (value : Json)
  /-- No value can be read here.  `quoted` says that it begins like a string.  `shape` is what is
  wrong for a reader that only passes over the value; it is `none` when there is a whole token here,
  which merely has no value. -/
  | fault (quoted : Bool) (reason : SyntaxError) (shape : Option SyntaxError)
  deriving Repr

/-- What a reader returns: a value and the text behind it. -/
abbrev Reading (α : Type) := Except SyntaxError (α × List Char)

namespace Reading

variable {α β : Type}

/-- Applies a function to the value that was read. -/
def apply (f : α → β) : Reading α → Reading β
  | .ok (x, rest) => .ok (f x, rest)
  | .error e => .error e

theorem of_apply {f : α → β} {read : Reading α} {y : β} {rest : List Char}
    (h : read.apply f = .ok (y, rest)) : ∃ x, read = .ok (x, rest) ∧ y = f x := by
  cases read with
  | error e => simp [apply] at h
  | ok p =>
    simp only [apply, Except.ok.injEq, Prod.mk.injEq] at h
    exact ⟨p.1, by rw [← h.2], h.1.symm⟩

end Reading

namespace Token

/-! ## Strings -/

def hexDigit? (c : Char) : Option Nat :=
  if '0' ≤ c ∧ c ≤ '9' then some (c.toNat - '0'.toNat)
  else if 'a' ≤ c ∧ c ≤ 'f' then some (c.toNat - 'a'.toNat + 10)
  else if 'A' ≤ c ∧ c ≤ 'F' then some (c.toNat - 'A'.toNat + 10)
  else none

/-- The number that four hexadecimal digits write. -/
def hexQuad? (a b c d : Char) : Option Nat := do
  return (((← hexDigit? a) * 16 + (← hexDigit? b)) * 16 + (← hexDigit? c)) * 16 + (← hexDigit? d)

/-- The character behind a backslash, the hexadecimal escape left out. -/
def escaped? : Char → Option Char
  | '"' => some '"'
  | '\\' => some '\\'
  | '/' => some '/'
  | 'b' => some '\x08'
  | 'f' => some '\x0c'
  | 'n' => some '\n'
  | 'r' => some '\r'
  | 't' => some '\t'
  | _ => none

def isHighSurrogate (u : Nat) : Bool := 0xD800 ≤ u && u < 0xDC00
def isLowSurrogate (u : Nat) : Bool := 0xDC00 ≤ u && u < 0xE000

/-- What is wrong with a `\\u` that fewer than four characters follow: the text ends, unless these
take four bytes or more. -/
def shortEscape (rest : List Char) : SyntaxError :=
  if (String.ofList rest).utf8ByteSize < 4 then .endInString else .badEscape

/-- What is wrong with a high surrogate that no escape follows. -/
def brokenPair : List Char → SyntaxError
  | [] | ['\\'] => .endInString
  | '\\' :: 'u' :: rest => shortEscape rest
  | _ => .badHexEscape

/-- Reads a string up to its closing quote; returns its characters and the text behind the quote. -/
def readString : List Char → Reading (List Char)
  | [] => .error .endInString
  | '"' :: rest => .ok ([], rest)
  | '\\' :: 'u' :: a :: b :: c :: d :: rest =>
    match hexQuad? a b c d with
    | none => .error .badEscape
    | some u =>
      if isHighSurrogate u then
        match rest with
        | '\\' :: 'u' :: a' :: b' :: c' :: d' :: rest' =>
          match hexQuad? a' b' c' d' with
          | none => .error .badEscape
          | some v =>
            if isLowSurrogate v then
              (readString rest').apply
                (Char.ofNat (0x10000 + (u - 0xD800) * 0x400 + (v - 0xDC00)) :: ·)
            else .error .loneSurrogate
        | rest => .error (brokenPair rest)
      else if isLowSurrogate u then .error .loneSurrogate
      else (readString rest).apply (Char.ofNat u :: ·)
  | '\\' :: c :: rest =>
    match escaped? c with
    | some x => (readString rest).apply (x :: ·)
    | none => .error (if c = 'u' then shortEscape rest else .badEscape)
  | ['\\'] => .error .endInString
  | c :: rest =>
    if c.toNat < 0x20 then .error .controlCharacter else (readString rest).apply (c :: ·)

/-- Passes over a string up to its closing quote, whatever characters its escapes stand for; returns
the text behind the quote. -/
def passString : List Char → Except SyntaxError (List Char)
  | [] => .error .endInString
  | '"' :: rest => .ok rest
  | '\\' :: 'u' :: a :: b :: c :: d :: rest =>
    if (hexQuad? a b c d).isSome then passString rest else .error .badEscape
  | '\\' :: c :: rest =>
    if (escaped? c).isSome then passString rest
    else .error (if c = 'u' then shortEscape rest else .badEscape)
  | ['\\'] => .error .endInString
  | c :: rest => if c.toNat < 0x20 then .error .controlCharacter else passString rest

theorem length_lt_of_readString {s cs rest : List Char} (h : readString s = .ok (cs, rest)) :
    rest.length < s.length := by
  fun_induction readString s generalizing cs rest with
  | case1 => simp at h
  | case2 r => simp at h; simp [h]
  | case5 a b c d u _ _ a' b' c' d' r v _ _ ih =>
    obtain ⟨cs, h, _⟩ := Reading.of_apply h
    have := ih h
    simp; omega
  | case9 a b c d r u _ _ _ ih =>
    obtain ⟨cs, h, _⟩ := Reading.of_apply h
    have := ih h
    simp; omega
  | case10 c r _ x _ ih =>
    obtain ⟨cs, h, _⟩ := Reading.of_apply h
    have := ih h
    simp; omega
  | case14 c r _ _ _ _ _ ih =>
    obtain ⟨cs, h, _⟩ := Reading.of_apply h
    have := ih h
    simp; omega
  | _ => simp at h

theorem length_lt_of_passString {s rest : List Char} (h : passString s = .ok rest) :
    rest.length < s.length := by
  fun_induction passString s generalizing rest with
  | case2 r => simp at h; simp [h]
  | case3 a b c d r _ ih => have := ih h; simp; omega
  | case5 c r _ _ ih => have := ih h; simp; omega
  | case9 c r _ _ _ _ _ ih => have := ih h; simp; omega
  | _ => simp at h

/-! ## Numbers -/

def digitValue (c : Char) : Nat := c.toNat - '0'.toNat

/-- The digits at the front of a text. -/
def leadingDigits (s : List Char) : List Nat := (s.takeWhile Char.isDigit).map digitValue

/-- The text behind its leading digits. -/
def afterDigits (s : List Char) : List Char := s.dropWhile Char.isDigit

theorem length_afterDigits_le (s : List Char) : (afterDigits s).length ≤ s.length := by
  unfold afterDigits
  exact (List.dropWhile_suffix _).length_le

/-- Reads the digits that must follow here. -/
def readDigits (s : List Char) : Reading (List Nat) :=
  match s with
  | [] => .error .endInValue
  | _ =>
    if (leadingDigits s).isEmpty then .error .badNumber
    else .ok (leadingDigits s, afterDigits s)

/-- Takes the sign off an exponent; says whether it is negative. -/
def takeSign : List Char → Bool × List Char
  | '-' :: rest => (true, rest)
  | '+' :: rest => (false, rest)
  | rest => (false, rest)

/-- Reads the exponent that may follow here: its value, `none` without one. -/
def readExponent (s : List Char) : Reading (Option Int) :=
  match s with
  | [] => .ok (none, [])
  | e :: rest =>
    if e = 'e' ∨ e = 'E' then
      (readDigits (takeSign rest).2).apply fun digits =>
        let n : Int := Decimal.digitsToNat 0 digits
        some (if (takeSign rest).1 then -n else n)
    else .ok (none, s)

/-- Reads the fraction that may follow here: its digits, none without one. -/
def readFraction (s : List Char) : Reading (List Nat) :=
  match s with
  | '.' :: rest => readDigits rest
  | _ => .ok ([], s)

/-- A number as it is spelled. -/
structure Numeral where
  negative : Bool
  whole : List Nat
  fraction : List Nat
  exponent : Option Int
  deriving DecidableEq, Repr

/-- The value of a number.  An integer spelling from `-2 ^ 63` to `2 ^ 64 - 1` is an integer, except
that `-0` is the negative zero; all else is a float. -/
def Numeral.value (n : Numeral) : Except SyntaxError Json :=
  let whole := Decimal.digitsToNat 0 n.whole
  let isInteger := n.fraction.isEmpty && n.exponent.isNone
  if isInteger && !n.negative && whole < Nat.pow 2 64 then .ok (.int whole)
  else if isInteger && n.negative && 0 < whole && whole ≤ Nat.pow 2 63 then .ok (.int (-whole))
  else
    match (Decimal.mk n.negative n.whole n.fraction (n.exponent.getD 0)).scaled? with
    | some d => .ok (.float d)
    | none => .error .numberOutOfRange

/-- Reads the spelling of a number behind its sign. -/
def readNumeral (negative : Bool) (s : List Char) : Reading Numeral :=
  match readDigits s with
  | .error e => .error e
  | .ok (whole, rest) =>
    if whole.length ≠ 1 ∧ whole.head? = some 0 then .error .badNumber
    else
      match readFraction rest with
      | .error e => .error e
      | .ok (fraction, rest) =>
        (readExponent rest).apply fun exponent => ⟨negative, whole, fraction, exponent⟩

theorem length_lt_of_readDigits {s rest : List Char} {ds : List Nat}
    (h : readDigits s = .ok (ds, rest)) : rest.length < s.length := by
  unfold readDigits at h
  split at h
  · simp at h
  · split at h
    · simp at h
    · next hne =>
      simp only [Except.ok.injEq, Prod.mk.injEq] at h
      rw [← h.2]
      cases s with
      | nil => simp [leadingDigits] at hne
      | cons c r =>
        have := length_afterDigits_le r
        by_cases hc : c.isDigit = true
        · simp only [afterDigits, List.dropWhile_cons_of_pos hc, List.length_cons] at *
          omega
        · simp [leadingDigits, hc] at hne

theorem length_le_of_readFraction {s rest : List Char} {ds : List Nat}
    (h : readFraction s = .ok (ds, rest)) : rest.length ≤ s.length := by
  unfold readFraction at h
  split at h
  · have := length_lt_of_readDigits h
    simp; omega
  · simp at h
    simp [h]

theorem length_takeSign_le (s : List Char) : (takeSign s).2.length ≤ s.length := by
  unfold takeSign
  split <;> simp

theorem length_le_of_readExponent {s rest : List Char} {e : Option Int}
    (h : readExponent s = .ok (e, rest)) : rest.length ≤ s.length := by
  unfold readExponent at h
  split at h
  · simp at h
    simp [h]
  · next c r =>
    split at h
    · obtain ⟨digits, h, _⟩ := Reading.of_apply h
      have h₁ := length_lt_of_readDigits h
      have h₂ := length_takeSign_le r
      simp only [List.length_cons]
      omega
    · simp at h
      simp [h]

theorem length_lt_of_readNumeral {negative : Bool} {s rest : List Char} {n : Numeral}
    (h : readNumeral negative s = .ok (n, rest)) : rest.length < s.length := by
  unfold readNumeral at h
  split at h
  · simp at h
  · next whole r hd =>
    split at h
    · simp at h
    · split at h
      · simp at h
      · next fraction r' hf =>
        obtain ⟨exponent, h, _⟩ := Reading.of_apply h
        have h₁ := length_lt_of_readDigits hd
        have h₂ := length_le_of_readFraction hf
        have h₃ := length_le_of_readExponent h
        omega

/-! ## Literals -/

/-- Reads the rest of a literal. -/
def readLiteral (value : Json) : List Char → List Char → Reading Json
  | [], s => .ok (value, s)
  | _ :: _, [] => .error .endInValue
  | e :: expected, c :: s => if c = e then readLiteral value expected s else .error .noLiteral

theorem length_le_of_readLiteral {value v : Json} {expected s rest : List Char}
    (h : readLiteral value expected s = .ok (v, rest)) : rest.length ≤ s.length := by
  fun_induction readLiteral value expected s with
  | case1 s => simp at h; simp [h]
  | case2 => simp at h
  | case3 expected e s ih => have := ih h; simp; omega
  | case4 => simp at h

/-! ## Scanning -/

def isBlank (c : Char) : Bool := c = ' ' || c = '\t' || c = '\n' || c = '\r'

/-- The token of a string behind its opening quote, and the text behind the token. -/
def stringToken (s : List Char) : Token × List Char :=
  match readString s with
  | .ok (cs, rest) => (.string (String.ofList cs), rest)
  | .error reason =>
    match passString s with
    | .ok rest => (.fault true reason none, rest)
    | .error shape => (.fault true reason (some shape), [])

/-- The token of a number behind its sign, and the text behind the token. -/
def numberToken (negative : Bool) (s : List Char) : Token × List Char :=
  match readNumeral negative s with
  | .ok (n, rest) =>
    match n.value with
    | .ok v => (.scalar v, rest)
    | .error reason => (.fault false reason none, rest)
  | .error reason => (.fault false reason (some .badNumber), [])

/-- The token of a literal behind its first letter, and the text behind the token. -/
def literalToken (value : Json) (expected s : List Char) : Token × List Char :=
  match readLiteral value expected s with
  | .ok (v, rest) => (.scalar v, rest)
  | .error reason => (.fault false reason (some reason), [])

/-- The token that begins with this character, and the text behind it. -/
def startingWith (c : Char) (rest : List Char) : Token × List Char :=
  match c with
  | '[' => (.openArray, rest)
  | ']' => (.closeArray, rest)
  | '\x7b' => (.openObject, rest)
  | '\x7d' => (.closeObject, rest)
  | ':' => (.colon, rest)
  | ',' => (.comma, rest)
  | '"' => stringToken rest
  | '-' => numberToken true rest
  | 'n' => literalToken .null ['u', 'l', 'l'] rest
  | 't' => literalToken (.bool true) ['r', 'u', 'e'] rest
  | 'f' => literalToken (.bool false) ['a', 'l', 's', 'e'] rest
  | c =>
    if c.isDigit then numberToken false (c :: rest)
    else (.fault false .noValue (some .noValue), [])

/-- The first token of a text and the text behind it; `none` when only blanks are left. -/
def next? (s : List Char) : Option (Token × List Char) :=
  match s.dropWhile isBlank with
  | [] => none
  | c :: rest => some (startingWith c rest)

theorem length_stringToken_le (s : List Char) : (stringToken s).2.length ≤ s.length := by
  unfold stringToken
  split
  · next h => exact Nat.le_of_lt (length_lt_of_readString h)
  · split
    · next h => exact Nat.le_of_lt (length_lt_of_passString h)
    · simp

/-- Behind a number there is less text than before it, unless there was none. -/
theorem length_numberToken_le (negative : Bool) (s : List Char) :
    (numberToken negative s).2.length ≤ s.length - 1 := by
  unfold numberToken
  split
  · next h =>
    have := length_lt_of_readNumeral h
    split <;> simp <;> omega
  · simp

theorem length_literalToken_le (value : Json) (expected s : List Char) :
    (literalToken value expected s).2.length ≤ s.length := by
  unfold literalToken
  split
  · next h => exact length_le_of_readLiteral h
  · simp

theorem length_startingWith_le (c : Char) (rest : List Char) :
    (startingWith c rest).2.length ≤ rest.length := by
  unfold startingWith
  split
  case h_7 => exact length_stringToken_le rest
  case h_8 => exact Nat.le_trans (length_numberToken_le true rest) (Nat.sub_le ..)
  case h_9 | h_10 | h_11 => exact length_literalToken_le ..
  case h_12 =>
    split
    · exact length_numberToken_le false (_ :: rest)
    · simp
  all_goals simp

theorem length_lt_of_next? {s rest : List Char} {t : Token} (h : next? s = some (t, rest)) :
    rest.length < s.length := by
  unfold next? at h
  have blanks := (List.dropWhile_suffix isBlank (l := s)).length_le
  split at h
  · simp at h
  · next c r hs =>
    have := length_startingWith_le c r
    simp only [Option.some.injEq] at h
    simp only [h] at this
    rw [hs, List.length_cons] at blanks
    omega

/-- The tokens of a text. -/
def scan (s : List Char) : List Token :=
  match _h : next? s with
  | none => []
  | some (t, rest) => t :: scan rest
termination_by s.length
decreasing_by exact length_lt_of_next? ‹_›

end Token

end PhpRefactor
