import PhpRefactor.Syntax.Walk

/-!
# Static types

The best that is known about the value of an expression.  `unknown` is a valid answer and the
cautious one.  Only objects are true under every circumstance.
-/

set_option autoImplicit false

namespace PhpRefactor

/-- The types of values without parts. -/
inductive Scalar where
  | bool
  | int
  | float
  | string
  deriving DecidableEq, Repr

namespace Scalar

def text : Scalar → String
  | bool => "bool"
  | int => "int"
  | float => "float"
  | string => "string"

end Scalar

/-- The best known type of an expression. -/
inductive StaticType where
  | unknown
  | null
  | scalar (type : Scalar)
  | array
  /-- An object, with its fully qualified class name if that is known. -/
  | object (className : Option String)
  deriving DecidableEq, Repr

/-- A text in lower case; letters outside of ASCII stay. -/
def lowerAscii (s : String) : String := String.ofList (s.toList.map Char.toLower)

/-- A class name without the backslashes before it. -/
def dropBackslashes (s : String) : String := String.ofList (s.toList.dropWhile (· = '\\'))

/-- The same name but for the case of ASCII letters. -/
def sameName (a b : String) : Bool := lowerAscii a = lowerAscii b

namespace StaticType

/-- An object of the class with this name. -/
def ofClass (name : String) : StaticType := object (some (dropBackslashes name))

/-- An object of the class with this name: the case of ASCII letters and backslashes before the name
do not matter. -/
def isObjectOf : StaticType → String → Bool
  | object (some own), name => sameName own (dropBackslashes name)
  | _, _ => false

/-- Objects are true whatever their value. -/
def isAlwaysTrue : StaticType → Bool
  | object _ => true
  | _ => false

/-- The class name of an object. -/
def className? : StaticType → Option String
  | object name => name
  | _ => none

def text : StaticType → String
  | unknown => "unknown"
  | null => "null"
  | scalar s => s.text
  | array => "array"
  | object (some name) => name
  | object none => "object"

end StaticType

/-- The declarations around an expression. -/
structure Scope where
  classDecl : Option Node
  function : Option Node

namespace Scope

/-- Around no declaration. -/
def empty : Scope := ⟨none, none⟩

/-- The name of the class around the expression. -/
def className? (scope : Scope) : Option String :=
  match scope.classDecl with
  | some ⟨_, _, .classDecl name _ _⟩ => some name
  | _ => none

/-- The parameters of the function around the expression. -/
def params (scope : Scope) : List (Param Node) :=
  match scope.function with
  | some ⟨_, _, .method _ _ _ ps _⟩ => ps
  | some ⟨_, _, .function _ ps _⟩ => ps
  | some ⟨_, _, .closure ps _ _⟩ => ps
  | _ => []

theorem params_eq (cls : Option Node) (f : Node) : params ⟨cls, some f⟩ = f.form.params := by
  cases f with
  | mk id span form => cases form <;> rfl

/-- A node that gives the variable of this name a new value: an assignment to it, or a `catch`
clause that catches into it. -/
def isRebinding (name : String) (n : Node) : Bool :=
  match n.form with
  | .assign target _ => target.isVariable name
  | .catchClause _ v _ => v.isVariable name
  | _ => false

/-- The function gives the variable a new value somewhere below, in nested functions too. -/
def rebinds (scope : Scope) (name : String) : Bool :=
  match scope.function with
  | none => false
  | some f => f.descendants.any (isRebinding name)

end Scope

/-- Answers what type an expression has among the declarations around it. -/
abbrev Oracle := Scope → Node → StaticType

end PhpRefactor
