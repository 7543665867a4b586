import PhpRefactor.Number.Double

/-!
# Syntax trees

A tree of a PHP-like class language.  A `Node` is an identity, a source position and a syntactic
form; a `Form` is one of thirty constructs with holes for the nodes below it.  Keeping the
construct apart from the node lets one say what a construct *is* with the nodes left out (`Form
Unit`), and lets every walk and every edit be written once, on the children, instead of thirty
times.

Identities are plain naturals.  Nothing here hands them out or compares them: two nodes may carry
the same identity, and `PhpRefactor.Index` is where that matters.
-/

set_option autoImplicit false

namespace PhpRefactor

/-- Where a node stood in its source text. -/
structure Span where
  start : UInt32
  stop : UInt32
  line : UInt32
  deriving DecidableEq, Repr

namespace Span

/-- The position of a node that came from no text. -/
def none : Span := ⟨0, 0, 0⟩

instance : Inhabited Span := ⟨none⟩

end Span

/-- Who may use a class member. -/
inductive Visibility where
  | isPublic
  | isProtected
  | isPrivate
  deriving DecidableEq, Repr, Inhabited

namespace Visibility

/-- The keyword. -/
def keyword : Visibility → String
  | isPublic => "public"
  | isProtected => "protected"
  | isPrivate => "private"

def all : List Visibility := [isPublic, isProtected, isPrivate]

end Visibility

/-- A binary operator. -/
inductive Operator where
  | concat
  | add
  | subtract
  | multiply
  | divide
  | equal
  | notEqual
  | identical
  | notIdentical
  | less
  | greater
  | and
  | or
  deriving DecidableEq, Repr

namespace Operator

def all : List Operator :=
  [concat, add, subtract, multiply, divide, equal, notEqual, identical, notIdentical, less,
    greater, and, or]

/-- The name of the operator in a tree document. -/
def name : Operator → String
  | concat => "Concat"
  | add => "Add"
  | subtract => "Subtract"
  | multiply => "Multiply"
  | divide => "Divide"
  | equal => "Equal"
  | notEqual => "NotEqual"
  | identical => "Identical"
  | notIdentical => "NotIdentical"
  | less => "Less"
  | greater => "Greater"
  | and => "And"
  | or => "Or"

/-- The operator as it is written in source text. -/
def symbol : Operator → String
  | concat => "."
  | add => "+"
  | subtract => "-"
  | multiply => "*"
  | divide => "/"
  | equal => "=="
  | notEqual => "!="
  | identical => "==="
  | notIdentical => "!=="
  | less => "<"
  | greater => ">"
  | and => "&&"
  | or => "||"

/-- Comparisons and connectives: the result is a boolean whatever the operands are. -/
def isBoolean : Operator → Bool
  | concat | add | subtract | multiply | divide => false
  | _ => true

end Operator

/-- The tag of a construct. -/
inductive Kind where
  | file
  | classDecl
  | property
  | method
  | function
  | ifStmt
  | elseIf
  | elseBranch
  | whileLoop
  | tryBlock
  | catchClause
  | exprStmt
  | returnStmt
  | echo
  | var
  | fetch
  | assign
  | newObject
  | methodCall
  | funcCall
  | closure
  | closureUse
  | binary
  | negation
  | array
  | string
  | int
  | float
  | bool
  | null
  deriving DecidableEq, Repr

namespace Kind

/-- Every kind: declarations and statements first, then expressions. -/
def all : List Kind :=
  [file, classDecl, property, method, function, ifStmt, elseIf, elseBranch, whileLoop, tryBlock,
    catchClause, exprStmt, returnStmt, echo, var, fetch, assign, newObject, methodCall, funcCall,
    closure, closureUse, binary, negation, array, string, int, float, bool, null]

/-- The name of the kind, in tree documents and in messages. -/
def name : Kind → String
  | file => "File"
  | classDecl => "Class"
  | property => "Property"
  | method => "Method"
  | function => "Function"
  | ifStmt => "If"
  | elseIf => "ElseIf"
  | elseBranch => "Else"
  | whileLoop => "While"
  | tryBlock => "Try"
  | catchClause => "Catch"
  | exprStmt => "Expression"
  | returnStmt => "Return"
  | echo => "Echo"
  | var => "Variable"
  | fetch => "PropertyFetch"
  | assign => "Assign"
  | newObject => "New"
  | methodCall => "MethodCall"
  | funcCall => "FuncCall"
  | closure => "Closure"
  | closureUse => "ClosureUse"
  | binary => "BinaryOp"
  | negation => "BooleanNot"
  | array => "Array"
  | string => "String"
  | int => "Int"
  | float => "Float"
  | bool => "Bool"
  | null => "Null"

/-- The kind of this name. -/
def ofName? (name : String) : Option Kind := all.find? (·.name = name)

theorem mem_all (k : Kind) : k ∈ all := by cases k <;> decide

end Kind

/-- A parameter of a method, function or closure. -/
structure Param (α : Type) where
  name : String
  hint : Option String
  initial : Option α
  deriving DecidableEq, Repr

/-- A construct whose child nodes are of type `α`. -/
inductive Form (α : Type) where
  | file (stmts : List α)
  | classDecl (name : String) (parent : Option String) (members : List α)
  | property (visibility : Visibility) (isStatic : Bool) (name : String) (initial : Option α)
  | method (name : String) (visibility : Visibility) (isStatic : Bool) (params : List (Param α))
      (stmts : List α)
  | function (name : String) (params : List (Param α)) (stmts : List α)
  | ifStmt (cond : α) (stmts : List α) (elseIfs : List α) (elseBranch : Option α)
  | elseIf (cond : α) (stmts : List α)
  | elseBranch (stmts : List α)
  | whileLoop (cond : α) (stmts : List α)
  | tryBlock (stmts : List α) (catches : List α) (final : Option (List α))
  | catchClause (types : List String) (var : α) (stmts : List α)
  | exprStmt (expr : α)
  | returnStmt (expr : Option α)
  | echo (exprs : List α)
  | var (name : String)
  | fetch (object : α) (name : String)
  | assign (target : α) (value : α)
  | newObject (className : String) (args : List α)
  | methodCall (object : α) (name : String) (args : List α)
  | funcCall (name : String) (args : List α)
  | closure (params : List (Param α)) (uses : List α) (stmts : List α)
  | closureUse (var : α) (byRef : Bool)
  | binary (op : Operator) (left : α) (right : α)
  | negation (expr : α)
  | array (items : List α)
  | string (value : String)
  | int (value : Int64)
  | float (value : Double)
  | bool (value : Bool)
  | null
  deriving DecidableEq, Repr

namespace Form

variable {α : Type}

/-- The tag of a construct. -/
def kind : Form α → Kind
  | file .. => .file
  | classDecl .. => .classDecl
  | property .. => .property
  | method .. => .method
  | function .. => .function
  | ifStmt .. => .ifStmt
  | elseIf .. => .elseIf
  | elseBranch .. => .elseBranch
  | whileLoop .. => .whileLoop
  | tryBlock .. => .tryBlock
  | catchClause .. => .catchClause
  | exprStmt .. => .exprStmt
  | returnStmt .. => .returnStmt
  | echo .. => .echo
  | var .. => .var
  | fetch .. => .fetch
  | assign .. => .assign
  | newObject .. => .newObject
  | methodCall .. => .methodCall
  | funcCall .. => .funcCall
  | closure .. => .closure
  | closureUse .. => .closureUse
  | binary .. => .binary
  | negation .. => .negation
  | array .. => .array
  | string .. => .string
  | int .. => .int
  | float .. => .float
  | bool .. => .bool
  | null => .null

/-- The name of a class, property, method or function declaration. -/
def declaredName : Form α → Option String
  | classDecl name .. | property _ _ name _ | method name .. | function name .. => some name
  | _ => none

end Form

/-- A node of a syntax tree. -/
structure Node where
  id : Nat
  span : Span
  form : Form Node

namespace Node

/-- The tag of the node's construct. -/
def kind (n : Node) : Kind := n.form.kind

/-- The name of a class, property, method or function declaration. -/
def declaredName (n : Node) : Option String := n.form.declaredName

/-- The node is the variable of this name. -/
def isVariable (n : Node) (name : String) : Bool :=
  match n.form with
  | .var x => x = name
  | _ => false

instance : Inhabited Node := ⟨⟨0, .none, .null⟩⟩

end Node

end PhpRefactor
