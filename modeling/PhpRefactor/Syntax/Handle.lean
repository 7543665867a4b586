import PhpRefactor.Syntax.Walk

/-!
# Children to write to

To change a node one takes hold of it where it stands.  A `Handle` is what one has then: the part
that stands there, and for any other part the whole with that one in its place.  `Form.handles` goes
through the places of a construct as `Form.segments` does, but takes hold of what stands there;
`Node.handleAt?` goes a path down from handle to handle.

That the two listings name the same places in the same order is seen construct by construct: the
handles are those on the runs of the construct, with changed runs put back (`Form.handles_eq`).  That
there is one handle for each child and that it overwrites just that child is then one fact at every
level, for a list, a run, several runs and a construct (`Form.getElem?_handles`).
-/

set_option autoImplicit false

namespace PhpRefactor

/-- A part of type `α` of something of type `β`, taken hold of. -/
structure Handle (α β : Type) where
  /-- What stands there. -/
  held : α
  /-- The whole with something else there. -/
  put : α → β

namespace Handle

variable {α β γ : Type}

/-- The same part, as a part of something larger. -/
def map (f : β → γ) (h : Handle α β) : Handle α γ := ⟨h.held, fun x => f (h.put x)⟩

@[simp] theorem map_mk (f : β → γ) (c : α) (put : α → β) :
    map f ⟨c, put⟩ = ⟨c, fun x => f (put x)⟩ := rfl

@[simp] theorem map_comp_map {δ : Type} (f : β → γ) (g : γ → δ) :
    (map g ∘ map f : Handle α β → Handle α δ) = map (g ∘ f) := rfl

/-- The elements of a list. -/
def ofList : List α → List (Handle α (List α))
  | [] => []
  | c :: cs => ⟨c, (· :: cs)⟩ :: (ofList cs).map (map (c :: ·))

/-- What stands in an optional place. -/
def ofOption : Option α → List (Handle α (Option α))
  | none => []
  | some c => [⟨c, some⟩]

/-- The default values of parameters. -/
def ofParams : List (Param α) → List (Handle α (List (Param α)))
  | [] => []
  | p :: ps =>
    (ofOption p.initial).map (map fun c => { p with initial := c } :: ps) ++
      (ofParams ps).map (map (p :: ·))

/-- After a write to a default value there are as many parameters, and to put in the runs of what is
there now gives what is there now. -/
theorem fill_put_ofParams {ps : List (Param α)} {h : Handle α (List (Param α))}
    (hmem : h ∈ ofParams ps) (x : α) (rest : List (Segment α)) :
    (h.put x).length = ps.length ∧
      Param.fill ps ((h.put x).map Param.segment ++ rest) = h.put x := by
  induction ps generalizing h with
  | nil => cases hmem
  | cons p ps ih =>
    rcases List.mem_append.mp hmem with hmem | hmem
    · obtain ⟨own, -, rfl⟩ := List.mem_map.mp hmem
      exact ⟨rfl, congrArg (List.cons _) (Param.fill_segment ps rest)⟩
    · obtain ⟨other, hother, rfl⟩ := List.mem_map.mp hmem
      obtain ⟨hlength, hfill⟩ := ih hother
      exact ⟨congrArg (· + 1) hlength, congrArg (List.cons p) hfill⟩

/-- Two uses of the parameters agree on every write if they agree on parameters that fit. -/
theorem map_ofParams_congr {ps : List (Param α)} {f g : List (Param α) → β}
    (h : ∀ qs, qs.length = ps.length →
      (∀ rest, Param.fill ps (qs.map Param.segment ++ rest) = qs) → f qs = g qs) :
    (ofParams ps).map (map f) = (ofParams ps).map (map g) := by
  refine List.map_congr_left fun handle hmem =>
    congrArg (Handle.mk handle.held) (funext fun x => ?_)
  exact h _ (fill_put_ofParams hmem x []).1 fun rest => (fill_put_ofParams hmem x rest).2

theorem getElem?_ofList (cs : List α) (i : Nat) :
    (ofList cs)[i]? = cs[i]?.map fun c => ⟨c, cs.set i⟩ := by
  induction cs generalizing i with
  | nil => rfl
  | cons c cs ih =>
    cases i with
    | zero => rfl
    | succ i =>
      rw [ofList, List.getElem?_cons_succ, List.getElem?_map, ih, List.getElem?_cons_succ,
        Option.map_map]
      rfl

end Handle

namespace Segment

variable {α : Type}

/-- The children of the run. -/
def handles : Segment α → List (Handle α (Segment α))
  | required c => [⟨c, required⟩]
  | slot c => (Handle.ofOption c).map (Handle.map slot)
  | stmts cs => (Handle.ofList cs).map (Handle.map stmts)
  | items cs => (Handle.ofList cs).map (Handle.map items)

/-- The children of several runs. -/
def handlesIn : List (Segment α) → List (Handle α (List (Segment α)))
  | [] => []
  | s :: ss => s.handles.map (Handle.map (· :: ss)) ++ (handlesIn ss).map (Handle.map (s :: ·))

theorem handlesIn_params (ps : List (Param α)) (rest : List (Segment α)) :
    handlesIn (ps.map Param.segment ++ rest) =
      (Handle.ofParams ps).map (Handle.map (·.map Param.segment ++ rest)) ++
        (handlesIn rest).map (Handle.map (ps.map Param.segment ++ ·)) := by
  induction ps with
  | nil => exact (List.map_id _).symm
  | cons p ps ih =>
    rw [List.map_cons, List.cons_append, handlesIn, ih, Handle.ofParams, Param.segment, handles]
    simp only [List.map_append, List.map_map, Handle.map_comp_map, List.append_assoc]
    rfl

theorem getElem?_handles (s : Segment α) (i : Nat) :
    s.handles[i]? = s.toList[i]?.map fun c => ⟨c, s.set i⟩ := by
  cases s with
  | required c => cases i <;> rfl
  | slot c =>
    cases c with
    | none => rfl
    | some c => cases i <;> rfl
  | stmts cs | items cs =>
    rw [handles, List.getElem?_map, Handle.getElem?_ofList, Option.map_map]
    rfl

theorem length_handles (s : Segment α) : s.handles.length = s.toList.length := by
  refine Nat.le_antisymm ?_ ?_
  · rw [← List.getElem?_eq_none_iff, getElem?_handles, List.getElem?_eq_none (Nat.le_refl _)]
    rfl
  · rw [← List.getElem?_eq_none_iff, ← Option.map_eq_none_iff, ← getElem?_handles,
      List.getElem?_eq_none (Nat.le_refl _)]

theorem getElem?_handlesIn (segments : List (Segment α)) (i : Nat) :
    (handlesIn segments)[i]? = (segments.flatMap toList)[i]?.map fun c =>
      ⟨c, Form.setInSegments segments i⟩ := by
  induction segments generalizing i with
  | nil => rfl
  | cons s segments ih =>
    rw [handlesIn, List.flatMap_cons, List.getElem?_append, List.getElem?_append, List.length_map,
      length_handles]
    split
    · rename_i hlt
      rw [List.getElem?_map, getElem?_handles, Option.map_map]
      refine congrArg (Option.map · _) (funext fun c => ?_)
      simp only [Function.comp_apply, Handle.map, Form.setInSegments, if_pos hlt]
    · rename_i hge
      rw [List.getElem?_map, ih, Option.map_map]
      refine congrArg (Option.map · _) (funext fun c => ?_)
      simp only [Function.comp_apply, Handle.map, Form.setInSegments, if_neg hge]

end Segment

namespace Form

variable {α : Type}

/-- The children, in natural order. -/
def handles : Form α → List (Handle α (Form α))
  | file ss => (Handle.ofList ss).map (.map file)
  | elseBranch ss => (Handle.ofList ss).map (.map elseBranch)
  | classDecl x parent ms => (Handle.ofList ms).map (.map (classDecl x parent))
  | property v st x d => (Handle.ofOption d).map (.map (property v st x))
  | method x v st ps ss =>
    (Handle.ofParams ps).map (.map (method x v st · ss)) ++
      (Handle.ofList ss).map (.map (method x v st ps))
  | function x ps ss =>
    (Handle.ofParams ps).map (.map (function x · ss)) ++
      (Handle.ofList ss).map (.map (function x ps))
  | ifStmt c ss es e =>
    ⟨c, (ifStmt · ss es e)⟩ :: ((Handle.ofList ss).map (.map (ifStmt c · es e)) ++
      (Handle.ofList es).map (.map (ifStmt c ss · e)) ++
      (Handle.ofOption e).map (.map (ifStmt c ss es)))
  | elseIf c ss => ⟨c, (elseIf · ss)⟩ :: (Handle.ofList ss).map (.map (elseIf c))
  | whileLoop c ss => ⟨c, (whileLoop · ss)⟩ :: (Handle.ofList ss).map (.map (whileLoop c))
  | tryBlock ss cs none =>
    (Handle.ofList ss).map (.map (tryBlock · cs none)) ++
      (Handle.ofList cs).map (.map (tryBlock ss · none))
  | tryBlock ss cs (some fin) =>
    (Handle.ofList ss).map (.map (tryBlock · cs (some fin))) ++
      (Handle.ofList cs).map (.map (tryBlock ss · (some fin))) ++
      (Handle.ofList fin).map (.map fun fin => tryBlock ss cs (some fin))
  | catchClause ts v ss =>
    ⟨v, (catchClause ts · ss)⟩ :: (Handle.ofList ss).map (.map (catchClause ts v))
  | exprStmt e => [⟨e, exprStmt⟩]
  | negation e => [⟨e, negation⟩]
  | returnStmt e => (Handle.ofOption e).map (.map returnStmt)
  | echo es => (Handle.ofList es).map (.map echo)
  | array es => (Handle.ofList es).map (.map array)
  | fetch o x => [⟨o, (fetch · x)⟩]
  | closureUse v r => [⟨v, (closureUse · r)⟩]
  | assign t v => [⟨t, (assign · v)⟩, ⟨v, assign t⟩]
  | newObject x args => (Handle.ofList args).map (.map (newObject x))
  | funcCall x args => (Handle.ofList args).map (.map (funcCall x))
  | methodCall o x args =>
    ⟨o, (methodCall · x args)⟩ :: (Handle.ofList args).map (.map (methodCall o x))
  | closure ps us ss =>
    (Handle.ofParams ps).map (.map (closure · us ss)) ++
      (Handle.ofList us).map (.map (closure ps · ss)) ++
      (Handle.ofList ss).map (.map (closure ps us))
  | binary op l r => [⟨l, (binary op · r)⟩, ⟨r, binary op l⟩]
  | var _ | string _ | int _ | float _ | bool _ | null => []

/-- The handles are those on the runs of the construct, with changed runs put back. -/
theorem handles_eq (form : Form α) :
    form.handles = (Segment.handlesIn form.segments).map (.map form.withSegments) := by
  cases form
  case' tryBlock => rename_i fin; cases fin
  case var | string | int | float | bool | null => rfl
  -- Runs are put into parameters one by one, so here it matters that written parameters fit.
  case method x v st ps ss | function x ps ss | closure ps us ss =>
    simp only [handles, segments, Segment.handlesIn_params, Segment.handlesIn, Segment.handles,
      List.map_append, List.map_map, Handle.map_comp_map, List.map_nil, List.append_nil,
      List.append_assoc]
    refine congr (congrArg _ (Handle.map_ofParams_congr fun qs hlength hfill => ?_)) ?_
    · simp [withSegments, ← hlength, hfill]
    · simp [withSegments, Param.fill_segment, Function.comp_def]
  all_goals
    simp only [handles, segments, Segment.handlesIn, Segment.handles, List.map_append,
      List.map_map, Handle.map_comp_map, List.map_cons, List.map_nil, List.append_nil,
      List.nil_append, List.cons_append, List.append_assoc, Handle.map_mk]
    rfl

/-- There is a handle for each child, and it overwrites the child. -/
theorem getElem?_handles (form : Form α) (i : Nat) :
    form.handles[i]? = form.children[i]?.map fun c => ⟨c, form.setChild i⟩ := by
  rw [handles_eq, List.getElem?_map, Segment.getElem?_handlesIn, Option.map_map]
  rfl

end Form

namespace Node

/-- The direct children, in natural order. -/
def handles (n : Node) : List (Handle Node Node) :=
  n.form.handles.map (Handle.map fun form => { n with form := form })

theorem getElem?_handles (n : Node) (i : Nat) :
    n.handles[i]? = n.children[i]?.map fun c => ⟨c, n.setChild i⟩ := by
  rw [handles, List.getElem?_map, Form.getElem?_handles, Option.map_map]
  rfl

/-- The node at the end of a path, taken hold of on the way down. -/
def handleAt? (n : Node) : List Nat → Option (Handle Node Node)
  | [] => some ⟨n, fun x => x⟩
  | i :: path => do
    let child ← n.handles[i]?
    let below ← child.held.handleAt? path
    return below.map child.put

end Node

end PhpRefactor
