import PhpRefactor.Types.Basic

/-!
# Types from declarations

An oracle that looks at literals, `new` expressions and the declared types of parameters, and at
nothing that would need a flow analysis.  A parameter keeps its declared type only as long as the
function gives it no other value, and a declared type counts only if it excludes null.
-/

set_option autoImplicit false

namespace PhpRefactor

namespace Oracle

/-- An object of the class around the expression. -/
def scopeObject (scope : Scope) : StaticType := .object scope.className?

/-- The type that a type hint promises.  A hint that is nullable or a union promises nothing. -/
def ofHint (scope : Scope) (hint : String) : StaticType :=
  if hint.toList.head? = some '?' || '|' ∈ hint.toList then .unknown
  else
    match lowerAscii hint with
    | "int" => .scalar .int
    | "float" => .scalar .float
    | "string" => .scalar .string
    | "bool" | "true" | "false" => .scalar .bool
    | "array" | "iterable" => .array
    | "mixed" | "null" | "void" | "callable" => .unknown
    | "object" => .object none
    | "self" | "static" => scopeObject scope
    | _ => .ofClass hint

/-- The default value is the literal `null`. -/
def isNullLiteral (value : Option Node) : Bool :=
  match value with
  | some ⟨_, _, .null⟩ => true
  | _ => false

/-- The type of a variable.  A parameter with the default `null` can be null whatever its hint. -/
def ofVariable (scope : Scope) (name : String) : StaticType :=
  if name = "this" then
    if scope.classDecl.isSome then scopeObject scope else .unknown
  else
    match scope.params.find? (·.name = name) with
    | none => .unknown
    | some p =>
      if isNullLiteral p.initial || scope.rebinds name then .unknown
      else
        match p.hint with
        | some hint => ofHint scope hint
        | none => .unknown

/-- The class of a `new` expression. -/
def ofNew (scope : Scope) (className : String) : StaticType :=
  match lowerAscii className with
  | "self" | "static" => scopeObject scope
  | _ => .ofClass className

/-- The oracle that works from declarations. -/
def declared (scope : Scope) : Node → StaticType
  | ⟨_, _, form⟩ =>
    match form with
    | .newObject className _ => ofNew scope className
    | .closure .. => .ofClass "Closure"
    | .var name => ofVariable scope name
    | .string _ => .scalar .string
    | .int _ => .scalar .int
    | .float _ => .scalar .float
    | .bool _ | .negation _ => .scalar .bool
    | .null => .null
    | .array _ => .array
    | .binary op _ _ =>
      if op.isBoolean then .scalar .bool
      else if op = .concat then .scalar .string
      else .unknown
    | .assign _ value => declared scope value
    | _ => .unknown

/-! ## What is read off declarations -/

theorem isNullLiteral_some (c : Node) : isNullLiteral (some c) = decide (c.kind = .null) := by
  cases c with
  | mk id span form => cases form <;> rfl

/-- A type hint is read with the name of the class alone. -/
theorem ofHint_congr {scope scope' : Scope} (h : scope.className? = scope'.className?)
    (hint : String) : ofHint scope hint = ofHint scope' hint := by
  unfold ofHint scopeObject
  rw [h]

theorem declared_of_var {scope : Scope} {n : Node} {x : String} (h : n.form = .var x) :
    declared scope n = ofVariable scope x := by
  cases n with
  | mk id span form =>
    dsimp only at h
    subst h
    simp only [declared]

end Oracle

end PhpRefactor
