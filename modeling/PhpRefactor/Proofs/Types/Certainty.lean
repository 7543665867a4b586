import PhpRefactor.Types.Declared
import PhpRefactor.Proofs.Syntax.Insertion

/-!
# More statements, fewer certainties

The oracle that works from declarations trusts the type hint of a parameter until it finds a node
that gives the parameter another value (`Node.Rebinds`), at whatever depth below the function.
Statements that are added to the function (`Node.Grows`) can add such nodes and never take one away,
and they leave what is read off the parameters alone.  So a variable has the type that it had, or
none if one of the new nodes rebinds it (`Oracle.ofVariable_of_grows`).

`Oracle.declared_of_grows` says it of all expressions.
-/

set_option autoImplicit false

namespace PhpRefactor

namespace Node

/-- The node gives the variable of this name a new value. -/
def Rebinds (n : Node) (name : String) : Prop :=
  (∃ target value, n.form = .assign target value ∧ target.form = .var name) ∨
    ∃ types v body, n.form = .catchClause types v body ∧ v.form = .var name

/-- The variable that the first of several runs consists of. -/
def leadingVar? : List (Segment Node) → Option String
  | .required c :: _ => c.varName?
  | _ => none

theorem leadingVar?_eq {segments segments' : List (Segment Node)}
    (h : List.Forall₂ (Segment.Alike Resembles) segments segments') :
    leadingVar? segments' = leadingVar? segments := by
  cases h with
  | nil => rfl
  | cons h _ =>
    cases h with
    | required h => exact h.varName?_eq
    | _ => rfl

variable {n : Node} {name : String}

/-- What is assigned to and what is caught into is the first child. -/
theorem isRebinding_eq (name : String) (n : Node) :
    Scope.isRebinding name n =
      (decide (n.kind ∈ [Kind.assign, .catchClause]) &&
        leadingVar? n.form.segments == some name) := by
  rw [kind]
  unfold Scope.isRebinding
  cases n.form <;> simp [Form.kind, Form.segments, leadingVar?, isVariable_eq]

theorem isRebinding_iff : Scope.isRebinding name n = true ↔ n.Rebinds name := by
  unfold Scope.isRebinding Rebinds
  cases n.form <;> simp [isVariable_eq, varName?_eq_some_iff]

/-- The nodes that make way for a new statement rebind what they rebound before. -/
theorem Inserts.isRebinding_eq {s m m' : Node} (h : Inserts s m m') (name : String) :
    Scope.isRebinding name m' = Scope.isRebinding name m := by
  rw [Node.isRebinding_eq, Node.isRebinding_eq, h.resembles.kind_eq, leadingVar?_eq h.runs]

end Node

/-! ## Parameters -/

namespace Param

/-- What is read off a parameter: its name, its type hint, and whether its default value is
`null`. -/
def reading (p : Param Node) : String × Option String × Bool :=
  (p.name, p.hint, Oracle.isNullLiteral p.initial)

theorem reading_withSegment {p : Param Node} {s : Segment Node}
    (h : Segment.Alike Node.Resembles p.segment s) : (p.withSegment s).reading = p.reading := by
  obtain ⟨name, hint, initial⟩ := p
  cases h with
  | empty => rfl
  | filled h =>
    simp only [reading, withSegment, Oracle.isNullLiteral_some, h.kind_eq]

theorem map_reading_fill {ps : List (Param Node)} {rest segments : List (Segment Node)}
    (h : List.Forall₂ (Segment.Alike Node.Resembles) (ps.map segment ++ rest) segments) :
    (fill ps segments).map reading = ps.map reading := by
  induction ps generalizing segments with
  | nil => rfl
  | cons p ps ih =>
    obtain ⟨s, segments, hs, hrest, rfl⟩ := List.forall₂_cons_left_iff.mp h
    rw [fill, List.map_cons, List.map_cons, reading_withSegment hs, ih hrest]

end Param

/-- Default values may have new statements in them, but none becomes `null` or ceases to be. -/
theorem Node.Inserts.map_reading_params {s m m' : Node} (h : Inserts s m m') :
    m'.form.params.map Param.reading = m.form.params.map Param.reading := by
  obtain ⟨rest, hrest⟩ := m.form.exists_segments_eq
  have hruns := h.runs
  rw [h.form_eq, (Form.withSegments_of_fits h.fits).2]
  rw [hrest] at hruns
  exact Param.map_reading_fill hruns

theorem Node.Grows.map_reading_params {added : List Node} {m m' : Node} (h : Grows added m m') :
    m'.form.params.map Param.reading = m.form.params.map Param.reading := by
  induction h with
  | refl => rfl
  | insert _ hs ih => rw [hs.map_reading_params, ih]

/-! ## Variables and expressions -/

namespace Oracle

/-- What the declaration of a parameter promises as long as the parameter keeps its value. -/
def promised (scope : Scope) (name : String) : StaticType :=
  match (scope.params.map Param.reading).find? (·.1 = name) with
  | some (_, some hint, false) => ofHint scope hint
  | _ => .unknown

theorem ofVariable_eq (scope : Scope) {name : String} (hname : name ≠ "this") :
    ofVariable scope name = if scope.rebinds name then .unknown else promised scope name := by
  have hfind : (scope.params.map Param.reading).find? (·.1 = name) =
      (scope.params.find? (·.name = name)).map Param.reading := by
    rw [List.find?_map]
    rfl
  unfold ofVariable promised
  rw [if_neg hname, hfind]
  cases scope.params.find? (·.name = name) with
  | none => simp
  | some p =>
    obtain ⟨x, hint, initial⟩ := p
    cases scope.rebinds name <;> cases hnull : isNullLiteral initial <;> cases hint <;>
      simp [Param.reading, hnull]

section

variable {added : List Node} {f f' : Node} {name : String}

theorem rebinds_of_grows (h : Node.Grows added f f') (cls : Option Node) (name : String) :
    Scope.rebinds ⟨cls, some f'⟩ name =
      (Scope.rebinds ⟨cls, some f⟩ name ||
        (added.flatMap Node.preorder).any (Scope.isRebinding name)) :=
  h.any_descendants fun hs => hs.isRebinding_eq name

theorem promised_of_grows (h : Node.Grows added f f') (cls : Option Node) (name : String) :
    promised ⟨cls, some f'⟩ name = promised ⟨cls, some f⟩ name := by
  have hclass : Scope.className? ⟨cls, some f'⟩ = Scope.className? ⟨cls, some f⟩ := rfl
  unfold promised
  rw [Scope.params_eq, Scope.params_eq, h.map_reading_params]
  simp only [ofHint_congr hclass]

/-- A variable has the type that it had, or none if one of the new nodes gives it another value. -/
theorem ofVariable_of_grows (h : Node.Grows added f f') (cls : Option Node)
    (hname : name ≠ "this") :
    ofVariable ⟨cls, some f'⟩ name =
      if (added.flatMap Node.preorder).any (Scope.isRebinding name) then .unknown
      else ofVariable ⟨cls, some f⟩ name := by
  rw [ofVariable_eq _ hname, ofVariable_eq _ hname, rebinds_of_grows h, promised_of_grows h]
  cases Scope.rebinds ⟨cls, some f⟩ name with
  | false => simp
  | true => simp

theorem declared_eq_or_unknown (h : Node.Grows added f f') (cls : Option Node) (e : Node) :
    declared ⟨cls, some f'⟩ e = declared ⟨cls, some f⟩ e ∨
      declared ⟨cls, some f'⟩ e = .unknown := by
  induction e using Node.induction with
  | step e ih =>
    cases e with
    | mk id span form =>
      cases form with
      | assign t v =>
        simp only [declared]
        exact ih v (by simp [Node.children, Form.children, Form.segments, Segment.toList])
      | var name =>
        simp only [declared]
        by_cases hname : name = "this"
        · subst hname
          exact .inl rfl
        · rw [ofVariable_of_grows h cls hname]
          split
          · exact .inr rfl
          · exact .inl rfl
      | newObject className args =>
        simp only [declared]
        exact .inl rfl
      | _ =>
        left
        simp only [declared]

end

/-- Statements that are added to a function, anywhere, leave an expression the type that it had or
take it away.  The type that a parameter has is taken away exactly if one of the new nodes, at
whatever depth, gives the parameter another value. -/
theorem declared_of_grows {added : List Node} {f f' : Node} (h : Node.Grows added f f')
    (cls : Option Node) (e : Node) :
    (declared ⟨cls, some f'⟩ e = declared ⟨cls, some f⟩ e ∨
      declared ⟨cls, some f'⟩ e = .unknown) ∧
    ∀ name, e.form = .var name → name ≠ "this" → declared ⟨cls, some f⟩ e ≠ .unknown →
      (declared ⟨cls, some f'⟩ e = .unknown ↔
        ∃ n ∈ added.flatMap Node.preorder, n.Rebinds name) := by
  refine ⟨declared_eq_or_unknown h cls e, ?_⟩
  intro name hform hname hknown
  rw [declared_of_var hform] at hknown ⊢
  rw [ofVariable_of_grows h cls hname]
  simp only [← Node.isRebinding_iff, ← List.any_eq_true]
  split
  · rename_i hrebound
    exact iff_of_true rfl hrebound
  · rename_i hkept
    exact iff_of_false hknown hkept

/-- A loop with this body. -/
def round (body : List Node) : Node := ⟨2, .none, .whileLoop ⟨3, .none, .var "y"⟩ body⟩

/-- A function with two parameters of known types, and the loop. -/
def walk (body : List Node) : Node :=
  ⟨1, .none, .function "walk" [⟨"x", some "Foo", none⟩, ⟨"y", some "Bar", none⟩] [round body]⟩

/-- A statement with a closure that loses the value of `$x`. -/
def stumble : Node :=
  ⟨4, .none, .exprStmt ⟨5, .none, .closure [] []
    [⟨6, .none, .exprStmt ⟨7, .none, .assign ⟨8, .none, .var "x"⟩ ⟨9, .none, .null⟩⟩⟩]⟩⟩

theorem declared_of_grows_walk :
    Node.Grows [stumble] (walk []) (walk [stumble]) ∧
      declared ⟨none, some (walk [])⟩ ⟨10, .none, .var "x"⟩ = .object (some "Foo") ∧
      declared ⟨none, some (walk [stumble])⟩ ⟨10, .none, .var "x"⟩ = .unknown ∧
      declared ⟨none, some (walk [stumble])⟩ ⟨11, .none, .var "y"⟩ = .object (some "Bar") := by
  have hempty : (round []).form.segments =
      [.required ⟨3, .none, .var "y"⟩] ++ .stmts ([] ++ []) :: [] := rfl
  have hround : Node.Inserts stumble (round []) (round [stumble]) :=
    .here (Node.insertsOwn_withSegments hempty stumble)
  have hwalk : Node.Inserts stumble (walk []) (walk [stumble]) :=
    .deeper ⟨rfl, rfl, .mk [.slot none, .slot none] [] (.stmts [] [_] []), rfl⟩ hround
  have hgrows : Node.Grows [stumble] (walk []) (walk [stumble]) := .insert (.refl _) hwalk
  have hx : declared ⟨none, some (walk [])⟩ ⟨10, .none, .var "x"⟩ = .object (some "Foo") := by
    decide +kernel
  have hy : declared ⟨none, some (walk [])⟩ ⟨11, .none, .var "y"⟩ = .object (some "Bar") := by
    decide +kernel
  refine ⟨hgrows, hx, ?_, ?_⟩
  · refine ((declared_of_grows hgrows none _).2 "x" rfl (by decide) (by simp [hx])).mpr ?_
    simp only [← Node.isRebinding_iff, ← List.any_eq_true]
    decide +kernel
  · obtain ⟨hkept | hlost, hrebound⟩ := declared_of_grows hgrows none ⟨11, .none, .var "y"⟩
    · rw [hkept, hy]
    · have h := (hrebound "y" rfl (by decide) (by simp [hy])).mp hlost
      simp only [← Node.isRebinding_iff, ← List.any_eq_true] at h
      exact absurd h (by decide +kernel)

end Oracle

end PhpRefactor
