import PhpRefactor.Number.Decimal
import PhpRefactor.Syntax.Basic

/-!
# Source text

The PHP text of a tree.  Statements stand on lines of their own, four blanks deeper than what they
are in; expressions stand inside a line.  A statement inside a closure is written on the closure's
line, so that a closure of simple statements keeps to one line.

A node is written in one of two ways: inside a line (`none`), or as lines at a depth (`some depth`).
-/

set_option autoImplicit false

namespace PhpRefactor

namespace Source

/-- Floats in source text turn to exponents below `0.0001` and from `1e16` on. -/
def floatLayout : Layout := ⟨-4, 16, "", .upper⟩

/-- A float literal; what is not finite has a constant of its own. -/
def floatText (d : Double) : String :=
  if d.isNaN then "NAN"
  else if d.isInfinite then (if d.isNegative then "-INF" else "INF")
  else floatLayout.text d

/-- Inside single quotes a backslash and a quote are written with a backslash before them. -/
def escapeChars : List Char → List Char
  | [] => []
  | c :: cs => if c = '\\' ∨ c = '\'' then '\\' :: c :: escapeChars cs else c :: escapeChars cs

/-- A string literal. -/
def stringText (s : String) : String := "'" ++ String.ofList (escapeChars s.toList) ++ "'"

/-- A line of text at a depth, with its line end. -/
def line (depth : Nat) (text : String) : String :=
  String.ofList (List.replicate (4 * depth) ' ') ++ text ++ "\n"

/-- The text without the line ends behind it. -/
def dropLineEnds (s : String) : String :=
  String.ofList (s.toList.reverse.dropWhile (· = '\n')).reverse

/-- An expression inside a line, or as a line of its own. -/
def asExpression (mode : Option Nat) (text : String) : String :=
  match mode with
  | none => text
  | some depth => line depth text

/-- Lines inside a line lose their last line end. -/
def asStatement (mode : Option Nat) (text : String) : String :=
  match mode with
  | none => dropLineEnds text
  | some _ => text

/-- An operand that is an operation or an assignment itself stands in parentheses. -/
def parenthesize (operand : Node) (text : String) : String :=
  match operand.form with
  | .binary .. | .assign .. => "(" ++ text ++ ")"
  | _ => text

/-- What a parameter is written with, its default value left out. -/
def paramText (p : Param Node) : String := (p.hint.elim "" (· ++ " ")) ++ "$" ++ p.name

/-- `public`, or `public static`. -/
def modifiers (visibility : Visibility) (isStatic : Bool) : String :=
  visibility.keyword ++ (if isStatic then " static" else "")

mutual

/-- The text of a node, inside a line or as lines at a depth. -/
def emit (mode : Option Nat) : Node → String
  | ⟨_, _, form⟩ =>
    let depth := mode.getD 0
    match form with
    | .var x => asExpression mode ("$" ++ x)
    | .fetch o x => asExpression mode (emit none o ++ "->" ++ x)
    | .assign t v => asExpression mode (emit none t ++ " = " ++ emit none v)
    | .newObject c args => asExpression mode ("new " ++ c ++ "(" ++ emitArgs args ++ ")")
    | .methodCall o x args =>
      asExpression mode (emit none o ++ "->" ++ x ++ "(" ++ emitArgs args ++ ")")
    | .funcCall x args => asExpression mode (x ++ "(" ++ emitArgs args ++ ")")
    | .closure ps us ss =>
      asExpression mode
        ("function (" ++ emitParams ps ++ ")" ++
          (if us.isEmpty then "" else " use (" ++ emitArgs us ++ ")") ++
          (if ss.isEmpty then " \x7b\x7d" else " \x7b " ++ emitInline ss ++ " \x7d"))
    | .closureUse v byRef => asExpression mode ((if byRef then "&" else "") ++ emit none v)
    | .binary op l r =>
      asExpression mode
        (parenthesize l (emit none l) ++ " " ++ op.symbol ++ " " ++ parenthesize r (emit none r))
    | .negation e => asExpression mode ("!" ++ parenthesize e (emit none e))
    | .array es => asExpression mode ("[" ++ emitArgs es ++ "]")
    | .string s => asExpression mode (stringText s)
    | .int i => asExpression mode (toString i.toInt)
    | .float d => asExpression mode (floatText d)
    | .bool b => asExpression mode (toString b)
    | .null => asExpression mode "null"
    | .file ss => line depth "<?php" ++ emitSpaced depth ss
    | .classDecl x parent ms =>
      asStatement mode
        (line depth ("class " ++ x ++ parent.elim "" (" extends " ++ ·)) ++ line depth "\x7b" ++
          emitMembers (depth + 1) ms ++ line depth "\x7d")
    | .property v st x none =>
      asStatement mode (line depth (modifiers v st ++ " $" ++ x ++ ";"))
    | .property v st x (some d) =>
      asStatement mode (line depth (modifiers v st ++ " $" ++ x ++ " = " ++ emit none d ++ ";"))
    | .method x v st ps ss =>
      asStatement mode
        (line depth (modifiers v st ++ " function " ++ x ++ "(" ++ emitParams ps ++ ")") ++
          line depth "\x7b" ++ emitBlock (depth + 1) ss ++ line depth "\x7d")
    | .function x ps ss =>
      asStatement mode
        (line depth ("function " ++ x ++ "(" ++ emitParams ps ++ ")") ++
          line depth "\x7b" ++ emitBlock (depth + 1) ss ++ line depth "\x7d")
    | .ifStmt c ss es e =>
      asStatement mode
        (line depth ("if (" ++ emit none c ++ ") \x7b") ++ emitBlock (depth + 1) ss ++
          emitElseIfs depth es ++ emitElse depth e ++ line depth "\x7d")
    | .elseIf c ss =>
      asStatement mode
        (line depth ("elseif (" ++ emit none c ++ ") \x7b") ++ emitBlock (depth + 1) ss ++
          line depth "\x7d")
    | .elseBranch ss =>
      asStatement mode (line depth "else \x7b" ++ emitBlock (depth + 1) ss ++ line depth "\x7d")
    | .whileLoop c ss =>
      asStatement mode
        (line depth ("while (" ++ emit none c ++ ") \x7b") ++ emitBlock (depth + 1) ss ++
          line depth "\x7d")
    | .tryBlock ss cs none =>
      asStatement mode
        (line depth "try \x7b" ++ emitBlock (depth + 1) ss ++ emitCatches depth cs ++
          line depth "\x7d")
    | .tryBlock ss cs (some fin) =>
      asStatement mode
        (line depth "try \x7b" ++ emitBlock (depth + 1) ss ++ emitCatches depth cs ++
          line depth "\x7d finally \x7b" ++ emitBlock (depth + 1) fin ++ line depth "\x7d")
    | .catchClause ts v ss =>
      asStatement mode
        (line depth ("catch (" ++ String.intercalate " | " ts ++ " " ++ emit none v ++ ") \x7b") ++
          emitBlock (depth + 1) ss ++ line depth "\x7d")
    | .exprStmt e => asStatement mode (line depth (emit none e ++ ";"))
    | .returnStmt none => asStatement mode (line depth "return;")
    | .returnStmt (some e) => asStatement mode (line depth ("return " ++ emit none e ++ ";"))
    | .echo es => asStatement mode (line depth ("echo " ++ emitArgs es ++ ";"))

/-- Nodes inside a line, with commas between them. -/
def emitArgs : List Node → String
  | [] => ""
  | n :: ns => emit none n ++ (if ns.isEmpty then "" else ", ") ++ emitArgs ns

/-- Statements inside a line, with blanks between them. -/
def emitInline : List Node → String
  | [] => ""
  | n :: ns => emit none n ++ (if ns.isEmpty then "" else " ") ++ emitInline ns

/-- Statements on lines of their own. -/
def emitBlock (depth : Nat) : List Node → String
  | [] => ""
  | n :: ns => emit (some depth) n ++ emitBlock depth ns

/-- Statements with an empty line before each. -/
def emitSpaced (depth : Nat) : List Node → String
  | [] => ""
  | n :: ns => "\n" ++ emit (some depth) n ++ emitSpaced depth ns

/-- Class members with an empty line between them. -/
def emitMembers (depth : Nat) : List Node → String
  | [] => ""
  | n :: ns =>
    emit (some depth) n ++ (if ns.isEmpty then "" else "\n") ++ emitMembers depth ns

/-- The `elseif` branches of an `if`; what is no such branch is not written. -/
def emitElseIfs (depth : Nat) : List Node → String
  | [] => ""
  | ⟨_, _, .elseIf c ss⟩ :: ns =>
    line depth ("\x7d elseif (" ++ emit none c ++ ") \x7b") ++ emitBlock (depth + 1) ss ++
      emitElseIfs depth ns
  | _ :: ns => emitElseIfs depth ns

/-- The `else` branch of an `if`; what is no such branch is not written. -/
def emitElse (depth : Nat) : Option Node → String
  | some ⟨_, _, .elseBranch ss⟩ => line depth "\x7d else \x7b" ++ emitBlock (depth + 1) ss
  | _ => ""

/-- The `catch` clauses of a `try`; what is no such clause is not written. -/
def emitCatches (depth : Nat) : List Node → String
  | [] => ""
  | ⟨_, _, .catchClause ts v ss⟩ :: ns =>
    line depth ("\x7d catch (" ++ String.intercalate " | " ts ++ " " ++ emit none v ++ ") \x7b") ++
      emitBlock (depth + 1) ss ++ emitCatches depth ns
  | _ :: ns => emitCatches depth ns

/-- Parameters with commas between them. -/
def emitParams : List (Param Node) → String
  | [] => ""
  | ⟨x, hint, none⟩ :: ps =>
    paramText ⟨x, hint, none⟩ ++ (if ps.isEmpty then "" else ", ") ++ emitParams ps
  | ⟨x, hint, some d⟩ :: ps =>
    paramText ⟨x, hint, none⟩ ++ " = " ++ emit none d ++ (if ps.isEmpty then "" else ", ") ++
      emitParams ps

end

end Source

namespace Node

/-- The source text of a tree.  A file ends with a line end, anything else does not. -/
def source (n : Node) : String := Source.emit none n

/-- A short text for messages: literals and variables as they are, anything else by its kind. -/
def display (n : Node) : String :=
  match n.form with
  | .var x => "$" ++ x
  | .string s => "'" ++ s ++ "'"
  | .int i => toString i.toInt
  | .bool b => toString b
  | .null => "null"
  | form => "<" ++ form.kind.name ++ ">"

end Node

namespace Source

/-- The source text of several trees, one after the other. -/
def ofList (nodes : List Node) : String := String.intercalate "\n" (nodes.map Node.source)

end Source

end PhpRefactor
