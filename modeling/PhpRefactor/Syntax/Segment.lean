import PhpRefactor.Syntax.Basic

/-!
# The children of a construct

The children of a construct stand in a natural order: the order of execution or of reading.  This
module cuts them into segments in that order.  A `Segment` says what its place admits: exactly one
child, at most one, a list of statements, or a list of something else.  `Form.segments` takes a
construct apart, `Form.withSegments` puts new segments in, and all else derives from the two: the
list of children, overwriting one of them, refilling all of them, and the three edits of
`PhpRefactor.Index.Edit`.

Only statement lists accept several nodes in place of one; any list and any optional place can lose
a node; a required place can only change its node for another.
-/

set_option autoImplicit false

namespace PhpRefactor

/-- A run of neighbouring children and what its place admits. -/
inductive Segment (α : Type) where
  /-- A child that must be there. -/
  | required (child : α)
  /-- A child that may be missing. -/
  | slot (child : Option α)
  /-- A list of statements or class members. -/
  | stmts (children : List α)
  /-- Any other list of children. -/
  | items (children : List α)
  deriving DecidableEq, Repr

namespace Segment

variable {α β : Type}

/-- The children of the run, in order. -/
def toList : Segment α → List α
  | required c => [c]
  | slot c => c.toList
  | stmts cs | items cs => cs

def map (f : α → β) : Segment α → Segment β
  | required c => required (f c)
  | slot c => slot (c.map f)
  | stmts cs => stmts (cs.map f)
  | items cs => items (cs.map f)

@[simp] theorem toList_map (f : α → β) (s : Segment α) : (s.map f).toList = s.toList.map f := by
  cases s with
  | slot c => cases c <;> rfl
  | _ => simp [map, toList]

/-- Overwrites the child at this position; a position outside changes nothing. -/
def set (s : Segment α) (i : Nat) (x : α) : Segment α :=
  match s with
  | required c => if i = 0 then required x else required c
  | slot c => if i = 0 then slot (c.map fun _ => x) else slot c
  | stmts cs => stmts (cs.set i x)
  | items cs => items (cs.set i x)

/-- Takes as many new children as the run has, from the front of a list; where the list is too short
the children stay. -/
def refill (s : Segment α) (cs : List α) : Segment α :=
  match s, cs with
  | required _, x :: _ => required x
  | slot (some _), x :: _ => slot (some x)
  | stmts old, _ => if old.length ≤ cs.length then stmts (cs.take old.length) else s
  | items old, _ => if old.length ≤ cs.length then items (cs.take old.length) else s
  | _, _ => s

theorem sizeOf_lt_of_mem [SizeOf α] {s : Segment α} {c : α} (h : c ∈ s.toList) :
    sizeOf c < sizeOf s := by
  cases s with
  | required x => simp [toList] at h; subst h; simp
  | slot x =>
    cases x with
    | none => simp [toList] at h
    | some x => simp [toList] at h; subst h; simp; omega
  | stmts cs | items cs =>
    have := List.sizeOf_lt_of_mem (show c ∈ cs from h)
    simp; omega

end Segment

namespace Param

variable {α β : Type}

def map (f : α → β) (p : Param α) : Param β := ⟨p.name, p.hint, p.initial.map f⟩

/-- The default value as a segment. -/
def segment (p : Param α) : Segment α := .slot p.initial

/-- Puts the default value of a segment in. -/
def withSegment (p : Param α) : Segment α → Param α
  | .slot c => { p with initial := c }
  | _ => p

/-- Puts one segment per parameter in, from the front of a list. -/
def fill : List (Param α) → List (Segment α) → List (Param α)
  | p :: ps, s :: ss => p.withSegment s :: fill ps ss
  | ps, _ => ps

theorem fill_segment (ps : List (Param α)) (rest : List (Segment α)) :
    fill ps (ps.map segment ++ rest) = ps := by
  induction ps with
  | nil => cases rest <;> rfl
  | cons p ps ih => simp [fill, segment, withSegment, ih]

theorem sizeOf_segment_lt [SizeOf α] {ps : List (Param α)} {s : Segment α}
    (h : s ∈ ps.map segment) : sizeOf s < sizeOf ps := by
  obtain ⟨p, hp, rfl⟩ := List.mem_map.1 h
  have := List.sizeOf_lt_of_mem hp
  cases p
  simp [segment] at *
  omega

end Param

namespace Form

variable {α β : Type}

def map (f : α → β) : Form α → Form β
  | file ss => file (ss.map f)
  | classDecl x parent ms => classDecl x parent (ms.map f)
  | property v st x d => property v st x (d.map f)
  | method x v st ps ss => method x v st (ps.map (·.map f)) (ss.map f)
  | function x ps ss => function x (ps.map (·.map f)) (ss.map f)
  | ifStmt c ss es e => ifStmt (f c) (ss.map f) (es.map f) (e.map f)
  | elseIf c ss => elseIf (f c) (ss.map f)
  | elseBranch ss => elseBranch (ss.map f)
  | whileLoop c ss => whileLoop (f c) (ss.map f)
  | tryBlock ss cs fin => tryBlock (ss.map f) (cs.map f) (fin.map (·.map f))
  | catchClause ts v ss => catchClause ts (f v) (ss.map f)
  | exprStmt e => exprStmt (f e)
  | returnStmt e => returnStmt (e.map f)
  | echo es => echo (es.map f)
  | var x => var x
  | fetch o x => fetch (f o) x
  | assign t v => assign (f t) (f v)
  | newObject c args => newObject c (args.map f)
  | methodCall o x args => methodCall (f o) x (args.map f)
  | funcCall x args => funcCall x (args.map f)
  | closure ps us ss => closure (ps.map (·.map f)) (us.map f) (ss.map f)
  | closureUse v r => closureUse (f v) r
  | binary op l r => binary op (f l) (f r)
  | negation e => negation (f e)
  | array es => array (es.map f)
  | string s => string s
  | int i => int i
  | float d => float d
  | bool b => bool b
  | null => null

/-- The construct with its children left out. -/
def shape (form : Form α) : Form Unit := form.map fun _ => ()

/-- The runs of children, in natural order. -/
def segments : Form α → List (Segment α)
  | file ss | elseBranch ss => [.stmts ss]
  | classDecl _ _ ms => [.stmts ms]
  | property _ _ _ d => [.slot d]
  | method _ _ _ ps ss => ps.map Param.segment ++ [.stmts ss]
  | function _ ps ss => ps.map Param.segment ++ [.stmts ss]
  | ifStmt c ss es e => [.required c, .stmts ss, .items es, .slot e]
  | elseIf c ss | whileLoop c ss => [.required c, .stmts ss]
  | tryBlock ss cs none => [.stmts ss, .items cs]
  | tryBlock ss cs (some fin) => [.stmts ss, .items cs, .stmts fin]
  | catchClause _ v ss => [.required v, .stmts ss]
  | exprStmt e | negation e => [.required e]
  | returnStmt e => [.slot e]
  | echo es | array es => [.items es]
  | fetch o _ => [.required o]
  | closureUse v _ => [.required v]
  | assign t v => [.required t, .required v]
  | newObject _ args => [.items args]
  | funcCall _ args => [.items args]
  | methodCall o _ args => [.required o, .items args]
  | closure ps us ss => ps.map Param.segment ++ [.items us, .stmts ss]
  | binary _ l r => [.required l, .required r]
  | var _ | string _ | int _ | float _ | bool _ | null => []

/-- The parameters of a function. -/
def params : Form α → List (Param α)
  | method _ _ _ ps _ | function _ ps _ | closure ps _ _ => ps
  | _ => []

/-- The default values of parameters come first among the children. -/
theorem exists_segments_eq (form : Form α) :
    ∃ rest, form.segments = form.params.map Param.segment ++ rest := by
  cases form <;> exact ⟨_, rfl⟩

/-- The construct with new runs of children.  Runs that do not fit the construct leave it as it
is. -/
def withSegments (form : Form α) (segments : List (Segment α)) : Form α :=
  match form, segments with
  | file _, [.stmts ss] => file ss
  | elseBranch _, [.stmts ss] => elseBranch ss
  | classDecl x parent _, [.stmts ms] => classDecl x parent ms
  | property v st x _, [.slot d] => property v st x d
  | method x v st ps ss, segs =>
    match segs.drop ps.length with
    | [.stmts ss'] => method x v st (Param.fill ps segs) ss'
    | _ => method x v st ps ss
  | function x ps ss, segs =>
    match segs.drop ps.length with
    | [.stmts ss'] => function x (Param.fill ps segs) ss'
    | _ => function x ps ss
  | ifStmt .., [.required c, .stmts ss, .items es, .slot e] => ifStmt c ss es e
  | elseIf .., [.required c, .stmts ss] => elseIf c ss
  | whileLoop .., [.required c, .stmts ss] => whileLoop c ss
  | tryBlock _ _ none, [.stmts ss, .items cs] => tryBlock ss cs none
  | tryBlock _ _ (some _), [.stmts ss, .items cs, .stmts fin] => tryBlock ss cs (some fin)
  | catchClause ts _ _, [.required v, .stmts ss] => catchClause ts v ss
  | exprStmt _, [.required e] => exprStmt e
  | negation _, [.required e] => negation e
  | returnStmt _, [.slot e] => returnStmt e
  | echo _, [.items es] => echo es
  | array _, [.items es] => array es
  | fetch _ x, [.required o] => fetch o x
  | closureUse _ r, [.required v] => closureUse v r
  | assign .., [.required t, .required v] => assign t v
  | newObject c _, [.items args] => newObject c args
  | funcCall x _, [.items args] => funcCall x args
  | methodCall _ x _, [.required o, .items args] => methodCall o x args
  | closure ps us ss, segs =>
    match segs.drop ps.length with
    | [.items us', .stmts ss'] => closure (Param.fill ps segs) us' ss'
    | _ => closure ps us ss
  | binary op _ _, [.required l, .required r] => binary op l r
  | form, _ => form

/-- The children, in natural order. -/
def children (form : Form α) : List α := form.segments.flatMap Segment.toList

/-- Parameters whose default values are known to have a property that all of them have. -/
def attachParams (P : α → Prop) (ps : List (Param α))
    (h : ∀ c ∈ (ps.map Param.segment).flatMap Segment.toList, P c) : List (Param { c // P c }) :=
  ps.attach.map fun ⟨p, hp⟩ =>
    ⟨p.name, p.hint, p.initial.attachWith P fun c hc =>
      h c (List.mem_flatMap.2 ⟨p.segment, List.mem_map_of_mem hp, by
        simp [Param.segment, Segment.toList, hc]⟩)⟩

/-- The construct with each child known to have a property that all its children have. -/
def attachWith (form : Form α) (P : α → Prop) (h : ∀ c ∈ form.children, P c) :
    Form { c // P c } :=
  match form with
  | file ss =>
    file (ss.attachWith P fun c hc => h c (by simp [children, segments, Segment.toList, hc]))
  | classDecl x parent ms =>
    classDecl x parent
      (ms.attachWith P fun c hc => h c (by simp [children, segments, Segment.toList, hc]))
  | property v st x d =>
    property v st x
      (d.attachWith P fun c hc => h c (by simp [children, segments, Segment.toList, hc]))
  | method x v st ps ss =>
    method x v st (attachParams P ps fun c hc => h c (by simp [children, segments, hc]))
      (ss.attachWith P fun c hc => h c (by simp [children, segments, Segment.toList, hc]))
  | function x ps ss =>
    function x (attachParams P ps fun c hc => h c (by simp [children, segments, hc]))
      (ss.attachWith P fun c hc => h c (by simp [children, segments, Segment.toList, hc]))
  | ifStmt c ss es e =>
    ifStmt ⟨c, h c (by simp [children, segments, Segment.toList])⟩
      (ss.attachWith P fun c hc => h c (by simp [children, segments, Segment.toList, hc]))
      (es.attachWith P fun c hc => h c (by simp [children, segments, Segment.toList, hc]))
      (e.attachWith P fun c hc => h c (by simp [children, segments, Segment.toList, hc]))
  | elseIf c ss =>
    elseIf ⟨c, h c (by simp [children, segments, Segment.toList])⟩
      (ss.attachWith P fun c hc => h c (by simp [children, segments, Segment.toList, hc]))
  | elseBranch ss =>
    elseBranch (ss.attachWith P fun c hc => h c (by simp [children, segments, Segment.toList, hc]))
  | whileLoop c ss =>
    whileLoop ⟨c, h c (by simp [children, segments, Segment.toList])⟩
      (ss.attachWith P fun c hc => h c (by simp [children, segments, Segment.toList, hc]))
  | tryBlock ss cs none =>
    tryBlock (ss.attachWith P fun c hc => h c (by simp [children, segments, Segment.toList, hc]))
      (cs.attachWith P fun c hc => h c (by simp [children, segments, Segment.toList, hc])) none
  | tryBlock ss cs (some fin) =>
    tryBlock (ss.attachWith P fun c hc => h c (by simp [children, segments, Segment.toList, hc]))
      (cs.attachWith P fun c hc => h c (by simp [children, segments, Segment.toList, hc])) (some
      (fin.attachWith P fun c hc => h c (by simp [children, segments, Segment.toList, hc])))
  | catchClause ts v ss =>
    catchClause ts ⟨v, h v (by simp [children, segments, Segment.toList])⟩
      (ss.attachWith P fun c hc => h c (by simp [children, segments, Segment.toList, hc]))
  | exprStmt e => exprStmt ⟨e, h e (by simp [children, segments, Segment.toList])⟩
  | returnStmt e =>
    returnStmt (e.attachWith P fun c hc => h c (by simp [children, segments, Segment.toList, hc]))
  | echo es =>
    echo (es.attachWith P fun c hc => h c (by simp [children, segments, Segment.toList, hc]))
  | var x => var x
  | fetch o x => fetch ⟨o, h o (by simp [children, segments, Segment.toList])⟩ x
  | assign t v =>
    assign ⟨t, h t (by simp [children, segments, Segment.toList])⟩
      ⟨v, h v (by simp [children, segments, Segment.toList])⟩
  | newObject c args =>
    newObject c
      (args.attachWith P fun c hc => h c (by simp [children, segments, Segment.toList, hc]))
  | methodCall o x args =>
    methodCall ⟨o, h o (by simp [children, segments, Segment.toList])⟩ x
      (args.attachWith P fun c hc => h c (by simp [children, segments, Segment.toList, hc]))
  | funcCall x args =>
    funcCall x
      (args.attachWith P fun c hc => h c (by simp [children, segments, Segment.toList, hc]))
  | closure ps us ss =>
    closure (attachParams P ps fun c hc => h c (by simp [children, segments, hc]))
      (us.attachWith P fun c hc => h c (by simp [children, segments, Segment.toList, hc]))
      (ss.attachWith P fun c hc => h c (by simp [children, segments, Segment.toList, hc]))
  | closureUse v r => closureUse ⟨v, h v (by simp [children, segments, Segment.toList])⟩ r
  | binary op l r =>
    binary op ⟨l, h l (by simp [children, segments, Segment.toList])⟩
      ⟨r, h r (by simp [children, segments, Segment.toList])⟩
  | negation e => negation ⟨e, h e (by simp [children, segments, Segment.toList])⟩
  | array es =>
    array (es.attachWith P fun c hc => h c (by simp [children, segments, Segment.toList, hc]))
  | string s => string s
  | int i => int i
  | float d => float d
  | bool b => bool b
  | null => null

/-- The construct with each child known to be one of its children. -/
def attach (form : Form α) : Form { c : α // c ∈ form.children } :=
  form.attachWith (· ∈ form.children) fun _ h => h

/-- Overwrites the child at a position of a sequence of runs. -/
def setInSegments : List (Segment α) → Nat → α → List (Segment α)
  | [], _, _ => []
  | s :: ss, i, x =>
    if i < s.toList.length then s.set i x :: ss
    else s :: setInSegments ss (i - s.toList.length) x

/-- Overwrites the child at this position of `children`. -/
def setChild (form : Form α) (i : Nat) (x : α) : Form α :=
  form.withSegments (setInSegments form.segments i x)

/-- Refills a sequence of runs from a list. -/
def refillSegments : List (Segment α) → List α → List (Segment α)
  | [], _ => []
  | s :: ss, cs => s.refill cs :: refillSegments ss (cs.drop s.toList.length)

/-- The construct with these children in place of its own, in natural order. -/
def refill (form : Form α) (cs : List α) : Form α :=
  form.withSegments (refillSegments form.segments cs)

/-! ## Forgetting what children are known to have -/

theorem attachParams_map (P : α → Prop) (ps : List (Param α))
    (h : ∀ c ∈ (ps.map Param.segment).flatMap Segment.toList, P c) (f : α → β) :
    (attachParams P ps h).map (·.map fun c => f c.1) = ps.map (·.map f) := by
  simp only [attachParams, List.map_map, Function.comp_def, Param.map, Option.map_attachWith]
  simp

theorem attachWith_map (form : Form α) (P : α → Prop) (h : ∀ c ∈ form.children, P c)
    (f : α → β) : ((form.attachWith P h).map fun c => f c.1) = form.map f := by
  cases form with
  | tryBlock ss cs fin => cases fin <;> simp [attachWith, map]
  | _ => simp [attachWith, map, attachParams_map]

theorem attach_map (form : Form α) (f : α → β) : (form.attach.map fun c => f c.1) = form.map f :=
  attachWith_map form _ _ f

/-! ## Taking apart and putting together -/

/-- Putting back what was taken apart changes nothing. -/
@[simp] theorem withSegments_segments (form : Form α) : form.withSegments form.segments = form := by
  cases form with
  | method x v st ps ss => simp [segments, withSegments, Param.fill_segment]
  | function x ps ss => simp [segments, withSegments, Param.fill_segment]
  | closure ps us ss => simp [segments, withSegments, Param.fill_segment]
  | tryBlock ss cs fin => cases fin <;> rfl
  | _ => rfl

theorem segments_map (f : α → β) (form : Form α) :
    (form.map f).segments = form.segments.map (Segment.map f) := by
  cases form with
  | tryBlock ss cs fin => cases fin <;> rfl
  | method x v st ps ss =>
    simp [segments, map, Segment.map, Function.comp_def, Param.segment, Param.map]
  | function x ps ss =>
    simp [segments, map, Segment.map, Function.comp_def, Param.segment, Param.map]
  | closure ps us ss =>
    simp [segments, map, Segment.map, Function.comp_def, Param.segment, Param.map]
  | _ => rfl

@[simp] theorem children_map (f : α → β) (form : Form α) :
    (form.map f).children = form.children.map f := by
  simp [children, segments_map, List.flatMap_map, List.map_flatMap]

/-! ## Children are smaller -/

theorem sizeOf_segment_le [SizeOf α] {form : Form α} {s : Segment α} (h : s ∈ form.segments) :
    sizeOf s ≤ sizeOf form := by
  cases form with
  | method x v st ps ss =>
    rcases List.mem_append.1 h with h | h
    · have := Param.sizeOf_segment_lt h; simp; omega
    · rw [List.mem_singleton.1 h]; simp; omega
  | function x ps ss =>
    rcases List.mem_append.1 h with h | h
    · have := Param.sizeOf_segment_lt h; simp; omega
    · rw [List.mem_singleton.1 h]; simp; omega
  | closure ps us ss =>
    rcases List.mem_append.1 h with h | h
    · have := Param.sizeOf_segment_lt h; simp; omega
    · simp only [List.mem_cons, List.not_mem_nil, or_false] at h
      rcases h with rfl | rfl <;> simp <;> omega
  | tryBlock ss cs fin =>
    cases fin with
    | none =>
      simp only [segments, List.mem_cons, List.not_mem_nil, or_false] at h
      rcases h with rfl | rfl <;> simp <;> omega
    | some fin =>
      simp only [segments, List.mem_cons, List.not_mem_nil, or_false] at h
      rcases h with rfl | rfl | rfl <;> simp <;> omega
  | ifStmt c ss es e =>
    simp only [segments, List.mem_cons, List.not_mem_nil, or_false] at h
    rcases h with rfl | rfl | rfl | rfl <;> simp <;> omega
  | var | string | int | float | bool | null => simp [segments] at h
  | file | elseBranch | echo | array | classDecl | newObject | funcCall | exprStmt | negation
  | fetch | closureUse | property | returnStmt =>
    rw [List.mem_singleton.1 h]
    simp
    try omega
  | assign | binary | elseIf | whileLoop | catchClause | methodCall =>
    simp only [segments, List.mem_cons, List.not_mem_nil, or_false] at h
    rcases h with rfl | rfl <;> simp <;> omega

theorem sizeOf_lt_of_mem_children [SizeOf α] {form : Form α} {c : α} (h : c ∈ form.children) :
    sizeOf c < sizeOf form := by
  obtain ⟨s, hs, hc⟩ := List.mem_flatMap.1 h
  exact Nat.lt_of_lt_of_le (Segment.sizeOf_lt_of_mem hc) (sizeOf_segment_le hs)

end Form

namespace Node

/-- The direct children, in natural order. -/
def children (n : Node) : List Node := n.form.children

theorem sizeOf_lt_of_mem_children {n c : Node} (h : c ∈ n.children) : sizeOf c < sizeOf n := by
  have := Form.sizeOf_lt_of_mem_children h
  cases n
  simp_all
  omega

/-- The node with the child at a position overwritten. -/
def setChild (n : Node) (i : Nat) (x : Node) : Node := { n with form := n.form.setChild i x }

/-- Induction on trees: what passes from the children to their parent holds of every node. -/
theorem induction {P : Node → Prop} (step : ∀ n, (∀ c ∈ n.children, P c) → P n) (n : Node) : P n :=
  step n fun c _ => induction step c
termination_by sizeOf n
decreasing_by exact sizeOf_lt_of_mem_children ‹_›

end Node

end PhpRefactor
