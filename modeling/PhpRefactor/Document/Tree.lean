import PhpRefactor.Document.Members
import PhpRefactor.Document.Reader
import PhpRefactor.Json.Writer
import PhpRefactor.Syntax.Walk

/-!
# Tree documents

The JSON form of a tree.  A node is an object with its position under `span`, the name of its
construct under `kind`, and the fields of that construct beside them; children are nested
objects.  Identities are not written: a tree that is read gets new ones, in pre-order.

Writing (`Node.toJson`) puts every field down.  Reading (`Document.readTree`) lets fields with a
usual value be missing, takes them in any order, and passes over fields that the construct does not
have.  The outermost node is read member by member, its position at once and the rest when its
object is complete; the nodes below it are decoded from complete values (`Decoder.node`).
-/

set_option autoImplicit false

namespace PhpRefactor

/-! ## Writing -/

namespace Span

def toJson (span : Span) : Json :=
  .object [("start", .int span.start.toNat), ("end", .int span.stop.toNat),
    ("line", .int span.line.toNat)]

end Span

namespace Json

def ofOption (v : Option Json) : Json := v.getD .null

def ofStrings (xs : List String) : Json := .array (xs.map .string)

def ofParam (p : Param Json) : Json :=
  .object [("name", .string p.name), ("type_hint", ofOption (p.hint.map .string)),
    ("default", ofOption p.initial)]

def ofParams (ps : List (Param Json)) : Json := .array (ps.map ofParam)

end Json

namespace Form

open Json (ofOption ofStrings ofParams)

/-- The fields of a construct whose children are written already. -/
def toFields : Form Json → List (String × Json)
  | file ss => [("stmts", .array ss)]
  | classDecl x parent ms =>
    [("name", .string x), ("extends", ofOption (parent.map .string)), ("members", .array ms)]
  | property v st x d =>
    [("visibility", .string v.keyword), ("is_static", .bool st), ("name", .string x),
      ("default", ofOption d)]
  | method x v st ps ss =>
    [("name", .string x), ("visibility", .string v.keyword), ("is_static", .bool st),
      ("params", ofParams ps), ("stmts", .array ss)]
  | function x ps ss => [("name", .string x), ("params", ofParams ps), ("stmts", .array ss)]
  | ifStmt c ss es e =>
    [("cond", c), ("stmts", .array ss), ("elseifs", .array es), ("else_branch", ofOption e)]
  | elseIf c ss => [("cond", c), ("stmts", .array ss)]
  | elseBranch ss => [("stmts", .array ss)]
  | whileLoop c ss => [("cond", c), ("stmts", .array ss)]
  | tryBlock ss cs fin =>
    [("stmts", .array ss), ("catches", .array cs), ("finally", ofOption (fin.map .array))]
  | catchClause ts v ss => [("types", ofStrings ts), ("var", v), ("stmts", .array ss)]
  | exprStmt e => [("expr", e)]
  | returnStmt e => [("expr", ofOption e)]
  | echo es => [("exprs", .array es)]
  | var x => [("name", .string x)]
  | fetch o x => [("var", o), ("name", .string x)]
  | assign t v => [("var", t), ("expr", v)]
  | newObject c args => [("class", .string c), ("args", .array args)]
  | methodCall o x args => [("var", o), ("name", .string x), ("args", .array args)]
  | funcCall x args => [("name", .string x), ("args", .array args)]
  | closure ps us ss => [("params", ofParams ps), ("uses", .array us), ("stmts", .array ss)]
  | closureUse v r => [("var", v), ("by_ref", .bool r)]
  | binary op l r => [("op", .string op.name), ("left", l), ("right", r)]
  | negation e => [("expr", e)]
  | array es => [("items", .array es)]
  | string s => [("value", .string s)]
  | int i => [("value", .int i.toInt)]
  | float d => [("value", if d.isFinite then .float d else .null)]
  | bool b => [("value", .bool b)]
  | null => []

end Form

namespace Node

/-- The JSON form of a tree. -/
def toJson (n : Node) : Json :=
  n.fold fun _ span form =>
    .object (("span", span.toJson) :: ("kind", .string form.kind.name) :: form.toFields)

end Node

/-! ## Reading -/

namespace Decoder

variable {α : Type}

/-- A position: an object, or an array of its three numbers. -/
def span : Decoder Span
  | .object fields =>
    (Span.mk <$> .required "start" uint32 <*> .required "end" uint32 <*>
      .required "line" uint32 : Members Span).decode fields
  | .array [a, b, c] => do return ⟨← uint32 a, ← uint32 b, ← uint32 c⟩
  | .array vs => do
    let _ ← (vs.take 3).mapM uint32
    if vs.length < 3 then throw (.wrongLength vs.length "struct Span with 3 elements")
    else throw (.wrongLength vs.length "3 elements in sequence")
  | v => .error (.wrongType v "struct Span")

/-- A parameter: an object, or an array of up to three values. -/
def param (child : Decoder α) : Decoder (Param α)
  | .object fields =>
    (Param.mk <$> .required "name" string <*> .optional "type_hint" string <*>
      .optional "default" child : Members (Param α)).decode fields
  | .array [] => .error (.wrongLength 0 "struct Param with 3 elements")
  | .array [x] => do return ⟨← string x, none, none⟩
  | .array [x, hint] => do return ⟨← string x, ← optional string hint, none⟩
  | .array (x :: hint :: value :: rest) => do
    let p : Param α := ⟨← string x, ← optional string hint, ← optional child value⟩
    if rest.isEmpty then return p
    else throw (.wrongLength (rest.length + 3) "3 elements in sequence")
  | v => .error (.wrongType v "struct Param")

def params (child : Decoder α) : Decoder (List (Param α)) := list (param child)

/-- The name of a construct, or its place in the list of all constructs. -/
def kind : Decoder Kind
  | .string x => named Kind.all Kind.name x
  | .int n =>
    if n < 0 then .error (.wrongType (.int n) "variant identifier")
    else
      match Kind.all[n.toNat]? with
      | some k => .ok k
      | none => .error (.badValue (.int n) "variant index 0 <= i < 30")
  | v => .error (.wrongType v "variant identifier")

def visibility : Decoder Visibility := choice Visibility.all Visibility.keyword

def operator : Decoder Operator := choice Operator.all Operator.name

end Decoder

namespace Members

open Decoder (bool double int64 list operator params string visibility)

variable {α : Type}

/-- The fields of a kind of construct. -/
def form (child : Decoder α) (k : Kind) : Members (Form α) :=
  let children := list child
  match k with
  | .file => .file <$> required "stmts" children
  | .classDecl =>
    .classDecl <$> required "name" string <*> optional "extends" string <*>
      required "members" children
  | .property =>
    .property <$> defaulted "visibility" visibility .isPublic <*>
      defaulted "is_static" bool false <*> required "name" string <*> optional "default" child
  | .method =>
    .method <$> required "name" string <*> defaulted "visibility" visibility .isPublic <*>
      defaulted "is_static" bool false <*> defaulted "params" (params child) [] <*>
      required "stmts" children
  | .function =>
    .function <$> required "name" string <*> defaulted "params" (params child) [] <*>
      required "stmts" children
  | .ifStmt =>
    .ifStmt <$> required "cond" child <*> required "stmts" children <*>
      defaulted "elseifs" children [] <*> optional "else_branch" child
  | .elseIf => .elseIf <$> required "cond" child <*> required "stmts" children
  | .elseBranch => .elseBranch <$> required "stmts" children
  | .whileLoop => .whileLoop <$> required "cond" child <*> required "stmts" children
  | .tryBlock =>
    .tryBlock <$> required "stmts" children <*> defaulted "catches" children [] <*>
      optional "finally" children
  | .catchClause =>
    .catchClause <$> required "types" (list string) <*> required "var" child <*>
      required "stmts" children
  | .exprStmt => .exprStmt <$> required "expr" child
  | .returnStmt => .returnStmt <$> optional "expr" child
  | .echo => .echo <$> required "exprs" children
  | .var => .var <$> required "name" string
  | .fetch => .fetch <$> required "var" child <*> required "name" string
  | .assign => .assign <$> required "var" child <*> required "expr" child
  | .newObject => .newObject <$> required "class" string <*> defaulted "args" children []
  | .methodCall =>
    .methodCall <$> required "var" child <*> required "name" string <*> defaulted "args" children []
  | .funcCall => .funcCall <$> required "name" string <*> defaulted "args" children []
  | .closure =>
    .closure <$> defaulted "params" (params child) [] <*> defaulted "uses" children [] <*>
      required "stmts" children
  | .closureUse => .closureUse <$> required "var" child <*> defaulted "by_ref" bool false
  | .binary =>
    .binary <$> required "op" operator <*> required "left" child <*> required "right" child
  | .negation => .negation <$> required "expr" child
  | .array => .array <$> required "items" children
  | .string => .string <$> required "value" string
  | .int => .int <$> required "value" int64
  | .float => .float <$> required "value" double
  | .bool => .bool <$> required "value" bool
  | .null => pure .null

end Members

namespace Decoder

variable {α : Type}

/-- The construct of a node: its kind is settled before its fields. -/
def construct (child : Decoder α) (fields : List (String × Json)) : Except DataError (Form α) := do
  let k ← (Members.required "kind" kind).decode fields
  (Members.form child k).decode fields

/-- A node whose JSON form nests at most `depth` deep; all identities are zero.  Its position is
settled before its construct. -/
def node (depth : Nat) : Decoder Node
  | .object fields =>
    match depth with
    | 0 => .error (.missingField "kind")
    | depth + 1 => do
      let position ← (Members.defaulted "span" span .none).decode fields
      return ⟨0, position, ← construct (node depth) fields⟩
  | v => .error (.wrongType v "struct Node")

end Decoder

/-! ## Texts -/

namespace DocumentReader

/-- What is known of a position while its members are read. -/
structure SpanParts where
  start : Option UInt32
  stop : Option UInt32
  line : Option UInt32

/-- One of the three numbers of a position that is an array. -/
def spanItem (place : Nat) : DocumentReader UInt32 := do
  if ← anotherItem (place == 0) then scalar Decoder.uint32
  else refuse (.wrongLength place "struct Span with 3 elements")

/-- A member of a position that is an object. -/
def spanMember (parts : SpanParts) (key : String) : DocumentReader SpanParts := do
  match key with
  | "start" => return { parts with start := ← once key parts.start (scalar Decoder.uint32) }
  | "end" => return { parts with stop := ← once key parts.stop (scalar Decoder.uint32) }
  | "line" => return { parts with line := ← once key parts.line (scalar Decoder.uint32) }
  | _ =>
    behindColon skipped
    return parts

/-- The position of the outermost node. -/
def span : DocumentReader Span :=
  container "struct Span"
    (do
      let span : Span := ⟨← spanItem 0, ← spanItem 1, ← spanItem 2⟩
      arrayEnd
      return span)
    (do
      let parts ← members spanMember ⟨none, none, none⟩
      return ⟨← given "start" parts.start, ← given "end" parts.stop, ← given "line" parts.line⟩)

/-- What is known of the outermost node while its members are read; `fields` stand last first. -/
structure RootParts where
  position : Option Span
  fields : List (String × Json)

/-- A member of the outermost node. -/
def rootMember (parts : RootParts) (key : String) : DocumentReader RootParts := do
  if key = "span" then return { parts with position := ← once key parts.position span }
  else
    let v ← behindColon (value (documentDepth - 1))
    return { parts with fields := (key, v) :: parts.fields }

/-- The outermost node, with all that is below it; all identities are zero. -/
def root : DocumentReader Node :=
  container "struct Node" (noArray "struct Node")
    (do
      let parts ← members rootMember ⟨none, []⟩
      let fields := parts.fields.reverse
      let form ← accept (Decoder.construct (Decoder.node (Json.depthFields fields)) fields)
      return ⟨0, parts.position.getD .none, form⟩)

end DocumentReader

namespace Document

/-- Reads a tree.  The nodes are numbered in pre-order from `next` on; the next free number comes
back as well. -/
def readTree (next : Nat) (text : String) : Except DocumentError (Node × Nat) :=
  (DocumentReader.root.run text).map (Node.number next)

/-- The text of a tree, with a line end. -/
def writeTree (tree : Node) : String := tree.toJson.pretty ++ "\n"

end Document

end PhpRefactor
