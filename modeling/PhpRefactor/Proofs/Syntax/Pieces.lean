import PhpRefactor.Proofs.Syntax.Literal
import PhpRefactor.Proofs.Syntax.Join

/-!
# Code and string literals

The source text of a tree is code with string literals in it.  A `Source.Piece` is a run of code or
a literal.  `Source.Spells` says of a text that depends on what literals hold that it is laid out in
pieces once and for all: other contents change the literals and leave the code as it is.  Texts of
that kind are put together from smaller ones, and the lines of statements are made of them.
-/

set_option autoImplicit false

namespace PhpRefactor

/-! ## The literals of a tree -/

/-- The construct with what it holds as a string literal replaced. -/
def Form.mapLiteral {α : Type} (f : String → String) : Form α → Form α
  | .string s => .string (f s)
  | form => form

namespace Node

/-- The tree with other strings in its string literals. -/
def mapLiterals (f : Nat → String → String) : Node → Node :=
  fold fun id span form => ⟨id, span, form.mapLiteral (f id)⟩

theorem mapLiterals_eq (f : Nat → String → String) (n : Node) :
    n.mapLiterals f = ⟨n.id, n.span, (n.form.map (mapLiterals f)).mapLiteral (f n.id)⟩ := by
  rw [mapLiterals, fold_eq]

/-- The children that the source text is made of.  What stands for a branch of an `if` or for a
clause of a `try` and is none is not written. -/
def written (n : Node) : List Node :=
  match n.form with
  | .ifStmt c ss es e =>
    c :: (ss ++ es.filter (·.kind = .elseIf) ++ e.toList.filter (·.kind = .elseBranch))
  | .tryBlock ss cs fin => ss ++ cs.filter (·.kind = .catchClause) ++ fin.getD []
  | _ => n.children

theorem written_subset (n : Node) : n.written ⊆ n.children := by
  intro c hc
  unfold written at hc
  unfold children Form.children
  split at hc
  · rename_i hform
    rw [hform]
    simp only [List.mem_cons, List.mem_append, List.mem_filter] at hc
    simp only [Form.segments, Segment.toList, List.flatMap_cons, List.flatMap_nil, List.mem_append,
      List.mem_singleton]
    tauto
  · rename_i ss cs fin hform
    rw [hform]
    simp only [List.mem_append, List.mem_filter] at hc
    cases fin <;>
      simp only [Form.segments, Segment.toList, List.flatMap_cons, List.flatMap_nil,
        List.mem_append, List.not_mem_nil, Option.getD_none, Option.getD_some] at hc ⊢ <;>
      tauto
  · exact hc

/-- The literal that the node is. -/
def literal (n : Node) : List (Nat × String) :=
  match n.form with
  | .string s => [(n.id, s)]
  | _ => []

/-- The string literals that are written for the node, in order. -/
def literals (n : Node) : List (Nat × String) :=
  n.literal ++ n.written.attach.flatMap fun ⟨c, _⟩ => c.literals
termination_by sizeOf n
decreasing_by exact sizeOf_lt_of_mem_children (written_subset n ‹_›)

theorem literals_eq (n : Node) : n.literals = n.literal ++ n.written.flatMap literals := by
  rw [literals]
  simp [List.flatMap_def]

end Node

namespace Source

/-! ## Pieces -/

/-- A piece of source text. -/
inductive Piece where
  | code (cs : List Char)
  | literal (id : Nat) (value : String)

namespace Piece

/-- What is written for a piece. -/
def text (f : Nat → String → String) : Piece → List Char
  | code cs => cs
  | literal id value => (stringText (f id value)).toList

/-- The text of several pieces. -/
def layOut (f : Nat → String → String) (pieces : List Piece) : List Char := pieces.flatMap (text f)

/-- The literals among several pieces. -/
def literals (pieces : List Piece) : List (Nat × String) :=
  pieces.filterMap fun
    | code _ => none
    | literal id value => some (id, value)

theorem layOut_append (f : Nat → String → String) (before behind : List Piece) :
    layOut f (before ++ behind) = layOut f before ++ layOut f behind := List.flatMap_append

theorem layOut_literal (f : Nat → String → String) (id : Nat) (value : String)
    (behind : List Piece) : layOut f (literal id value :: behind) =
      (stringText (f id value)).toList ++ layOut f behind := List.flatMap_cons

end Piece

/-- The text is laid out in pieces, with these literals among them, whatever the literals hold. -/
def Spells (text : (Nat → String → String) → String) (literals : List (Nat × String)) : Prop :=
  ∃ pieces, Piece.literals pieces = literals ∧ ∀ f, (text f).toList = Piece.layOut f pieces

section

variable {F G : (Nat → String → String) → String} {ks ls : List (Nat × String)}

theorem spells_code (code : String) : Spells (fun _ => code) [] :=
  ⟨[.code code.toList], rfl, fun _ => (List.append_nil _).symm⟩

theorem spells_literal (id : Nat) (value : String) :
    Spells (fun f => stringText (f id value)) [(id, value)] :=
  ⟨[.literal id value], rfl, fun _ => (List.append_nil _).symm⟩

theorem Spells.append (hF : Spells F ks) (hG : Spells G ls) :
    Spells (fun f => F f ++ G f) (ks ++ ls) := by
  obtain ⟨before, rfl, hbefore⟩ := hF
  obtain ⟨behind, rfl, hbehind⟩ := hG
  refine ⟨before ++ behind, List.filterMap_append, fun f => ?_⟩
  rw [String.toList_append, hbefore, hbehind, Piece.layOut_append]

theorem Spells.behind (h : Spells F ls) (code : String) : Spells (fun f => F f ++ code) ls := by
  simpa using h.append (spells_code code)

theorem Spells.before (code : String) (h : Spells F ls) : Spells (fun f => code ++ F f) ls :=
  (spells_code code).append h

theorem Spells.congr (h : Spells F ls) (htext : ∀ f, G f = F f) : Spells G ls := by
  rwa [funext htext]

theorem Spells.of_eq (h : Spells F ks) (hliterals : ls = ks) : Spells F ls := hliterals ▸ h

end

/-! ## Lines -/

theorem dropLineEnds_brace (text : String) :
    dropLineEnds (text ++ "\x7d" ++ "\n") = text ++ "\x7d" := by
  refine String.toList_injective ?_
  simp [dropLineEnds]

theorem dropLineEnds_semicolon (text : String) :
    dropLineEnds (text ++ ";" ++ "\n") = text ++ ";" := by
  refine String.toList_injective ?_
  simp [dropLineEnds]

section

variable {F : (Nat → String → String) → String} {ls : List (Nat × String)} (mode : Option Nat)
  (depth : Nat)

theorem Spells.line (h : Spells F ls) : Spells (fun f => line depth (F f)) ls :=
  (h.before _).behind "\n"

theorem Spells.expression (h : Spells F ls) : Spells (fun f => asExpression mode (F f)) ls := by
  cases mode with
  | none => exact h
  | some depth => exact h.line depth

/-- A statement that ends with a line of its own, a closing brace. -/
theorem Spells.braced (h : Spells F ls) :
    Spells (fun f => asStatement mode (F f ++ Source.line depth "\x7d")) ls := by
  cases mode with
  | none =>
    have htext : ∀ text, dropLineEnds (text ++ Source.line depth "\x7d") =
        text ++ (String.ofList (List.replicate (4 * depth) ' ') ++ "\x7d") := by
      intro text
      rw [Source.line, ← String.append_assoc, ← String.append_assoc, dropLineEnds_brace]
    simp only [asStatement, htext]
    exact h.behind _
  | some _ => exact h.behind _

/-- A statement on one line, with a semicolon at its end. -/
theorem Spells.closed (h : Spells F ls) :
    Spells (fun f => asStatement mode (Source.line depth (F f ++ ";"))) ls := by
  cases mode with
  | none =>
    have htext : ∀ text, dropLineEnds (Source.line depth (text ++ ";")) =
        String.ofList (List.replicate (4 * depth) ' ') ++ text ++ ";" := by
      intro text
      rw [Source.line, ← String.append_assoc, dropLineEnds_semicolon]
    simp only [asStatement, htext]
    exact (h.before _).behind _
  | some _ => exact (h.behind _).line depth

end

end Source

end PhpRefactor
