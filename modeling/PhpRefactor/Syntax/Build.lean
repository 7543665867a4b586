import PhpRefactor.Syntax.Basic

/-!
# Trees in code

Short ways to write down a tree.  The nodes come from no text and have no numbers of their own yet:
every identity is zero until `Node.number` numbers the finished tree.
-/

set_option autoImplicit false

namespace PhpRefactor

/-- A node that is not numbered yet and came from no text. -/
def Node.ofForm (form : Form Node) : Node := ⟨0, .none, form⟩

namespace Build

/-! ## Declarations -/

def file (stmts : List Node) : Node := .ofForm (.file stmts)

/-- A class that extends no other. -/
def classDecl (name : String) (members : List Node) : Node :=
  .ofForm (.classDecl name none members)

/-- A property without a default value. -/
def property (visibility : Visibility) (name : String) : Node :=
  .ofForm (.property visibility false name none)

def method (visibility : Visibility) (name : String) (params : List (Param Node))
    (stmts : List Node) : Node :=
  .ofForm (.method name visibility false params stmts)

/-- A public constructor. -/
def constructor (params : List (Param Node)) (stmts : List Node) : Node :=
  method .isPublic "__construct" params stmts

def function (name : String) (params : List (Param Node)) (stmts : List Node) : Node :=
  .ofForm (.function name params stmts)

/-- A parameter without a type. -/
def param (name : String) : Param Node := ⟨name, none, none⟩

def typedParam (hint name : String) : Param Node := ⟨name, some hint, none⟩

/-! ## Expressions -/

def var (name : String) : Node := .ofForm (.var name)

def this : Node := var "this"

def fetch (object : Node) (name : String) : Node := .ofForm (.fetch object name)

def assign (target value : Node) : Node := .ofForm (.assign target value)

def newObject (className : String) (args : List Node) : Node := .ofForm (.newObject className args)

def methodCall (object : Node) (name : String) (args : List Node) : Node :=
  .ofForm (.methodCall object name args)

def funcCall (name : String) (args : List Node) : Node := .ofForm (.funcCall name args)

/-- A variable that a closure takes over by value. -/
def closureUse (name : String) : Node := .ofForm (.closureUse (var name) false)

/-- A closure, with the names of the variables that it takes over. -/
def closure (params : List (Param Node)) (uses : List String) (stmts : List Node) : Node :=
  .ofForm (.closure params (uses.map closureUse) stmts)

def binary (op : Operator) (left right : Node) : Node := .ofForm (.binary op left right)

def negation (expr : Node) : Node := .ofForm (.negation expr)

def array (items : List Node) : Node := .ofForm (.array items)

def string (value : String) : Node := .ofForm (.string value)

def int (value : Int64) : Node := .ofForm (.int value)

def float (value : Double) : Node := .ofForm (.float value)

def bool (value : Bool) : Node := .ofForm (.bool value)

def null : Node := .ofForm .null

/-! ## Statements -/

def exprStmt (expr : Node) : Node := .ofForm (.exprStmt expr)

/-- The statement `$this->name = value;`. -/
def assignOwn (name : String) (value : Node) : Node := exprStmt (assign (fetch this name) value)

def returnStmt (expr : Option Node) : Node := .ofForm (.returnStmt expr)

def echo (exprs : List Node) : Node := .ofForm (.echo exprs)

/-- An `if` without other branches. -/
def ifStmt (cond : Node) (stmts : List Node) : Node := .ofForm (.ifStmt cond stmts [] none)

/-- An `if` with an `else`. -/
def ifElse (cond : Node) (stmts elseStmts : List Node) : Node :=
  .ofForm (.ifStmt cond stmts [] (some (.ofForm (.elseBranch elseStmts))))

def whileLoop (cond : Node) (stmts : List Node) : Node := .ofForm (.whileLoop cond stmts)

/-- A `try` without `finally`. -/
def tryBlock (stmts catches : List Node) : Node := .ofForm (.tryBlock stmts catches none)

/-- A `catch` clause that catches into the variable of this name. -/
def catchClause (types : List String) (name : String) (stmts : List Node) : Node :=
  .ofForm (.catchClause types (var name) stmts)

end Build

end PhpRefactor
