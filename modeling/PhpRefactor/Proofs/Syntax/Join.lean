import PhpRefactor.Syntax.Walk
import Mathlib.Data.List.Nodup

/-!
# Constructs with lists in the places of children

An edit puts several nodes, or none, where one node stood.  Seen from the parent, every child
becomes a list of nodes, and the construct `Form (List Node)` has to be laid out again:
`Form.join` does that.  Lists of children take whole lists; a place for one child can hold only
one, so `Form.Joinable` says when nothing is lost.

`children_join` is the main statement: the children of a joinable construct, laid out, are its
lists one after the other.
-/

set_option autoImplicit false

namespace PhpRefactor

theorem flatten_map_singleton {α β : Type} (f : α → β) (l : List α) :
    (l.map fun c => [f c]).flatten = l.map f := by
  rw [← List.flatMap_def, ← List.map_eq_flatMap]

section

variable {α β : Type} (g : α → List β)

theorem flatten_map_flatten (ls : List (List α)) :
    (ls.flatten.map g).flatten = (ls.map fun l => l.flatMap g).flatten := by
  induction ls with
  | nil => rfl
  | cons l ls ih =>
    rw [List.flatten_cons, List.map_append, List.flatten_append, ih, List.map_cons,
      List.flatten_cons, List.flatMap_def]

theorem flatMap_headD [Inhabited α] {l : List α} (h : l.length = 1) :
    l.flatMap g = g (l.headD default) := by
  obtain ⟨x, rfl⟩ := List.length_eq_one_iff.mp h
  exact List.flatMap_singleton g x

theorem bind_head?_map {l : Option (List α)} (h : ∀ xs ∈ l, xs.length ≤ 1) :
    ((l.bind List.head?).map g).bind List.head? =
      (l.map fun xs => xs.flatMap g).bind List.head? := by
  cases l with
  | none => rfl
  | some xs =>
    have hlen : xs.length ≤ 1 := h xs rfl
    match xs, hlen with
    | [], _ => rfl
    | [x], _ => simp

end

namespace Segment

variable {α β γ : Type}

/-- Lays out lists in a run of children.  A place for one child takes the first of its list. -/
def join [Inhabited α] : Segment (List α) → Segment α
  | required l => required (l.headD default)
  | slot l => slot (l.bind List.head?)
  | stmts ls => stmts ls.flatten
  | items ls => items ls.flatten

/-- No place for one child is given more than it can hold. -/
def Joinable : Segment (List α) → Prop
  | required l => l.length = 1
  | slot l => ∀ xs ∈ l, xs.length ≤ 1
  | stmts _ | items _ => True

theorem toList_join [Inhabited α] {s : Segment (List α)} (h : s.Joinable) :
    s.join.toList = s.toList.flatten := by
  cases s with
  | required l =>
    obtain ⟨x, rfl⟩ := List.length_eq_one_iff.mp h
    rfl
  | slot l =>
    cases l with
    | none => rfl
    | some xs =>
      have hlen : xs.length ≤ 1 := h xs rfl
      match xs, hlen with
      | [], _ => rfl
      | [x], _ => rfl
  | stmts ls => rfl
  | items ls => rfl

theorem map_map (g : β → γ) (f : α → β) (s : Segment α) : (s.map f).map g = s.map (g ∘ f) := by
  cases s <;> simp [map]

theorem map_congr {f g : α → β} {s : Segment α} (h : ∀ c ∈ s.toList, f c = g c) :
    s.map f = s.map g := by
  cases s with
  | required c => simp [map, h c (by simp [toList])]
  | slot c =>
    cases c with
    | none => rfl
    | some c => simp [map, h c (by simp [toList])]
  | stmts cs => exact congrArg stmts (List.map_congr_left h)
  | items cs => exact congrArg items (List.map_congr_left h)

theorem map_id (s : Segment α) : s.map (fun c => c) = s := by
  cases s <;> simp [map]

theorem join_map_singleton [Inhabited β] (f : α → β) (s : Segment α) :
    (s.map fun c => [f c]).join = s.map f := by
  cases s with
  | required c => rfl
  | slot c => cases c <;> rfl
  | stmts cs => rw [map, join, flatten_map_singleton, map]
  | items cs => rw [map, join, flatten_map_singleton, map]

end Segment

namespace Param

variable {α β γ : Type}

/-- Lays out the list of a default value. -/
def join (p : Param (List α)) : Param α := ⟨p.name, p.hint, p.initial.bind List.head?⟩

theorem map_map (g : β → γ) (f : α → β) (p : Param α) : (p.map f).map g = p.map (g ∘ f) := by
  simp [map]

theorem join_map_singleton (f : α → β) (p : Param α) : (p.map fun c => [f c]).join = p.map f := by
  cases h : p.initial <;> simp [map, join, h]

/-- Default values fill the parameters that they were taken from. -/
theorem fill_segment_join (f : α → List α) (ps : List (Param α)) (rest : List (Segment α)) :
    fill ps (ps.map (fun p => (p.map f).join.segment) ++ rest) =
      ps.map fun p => (p.map f).join := by
  induction ps with
  | nil => cases rest <;> rfl
  | cons p ps ih =>
    simp only [List.map_cons, List.cons_append, fill, ih]
    rfl

theorem fill_map (g h : α → β) (ps : List (Param α)) (rest : List (Segment β)) :
    fill (ps.map (·.map g)) (ps.map (fun p => (p.map h).segment) ++ rest) = ps.map (·.map h) := by
  induction ps with
  | nil => cases rest <;> rfl
  | cons p ps ih =>
    simp only [List.map_cons, List.cons_append, fill, ih]
    rfl

end Param

namespace Form

variable {α β γ : Type}

/-- Lays out lists in the places of children. -/
def join [Inhabited α] : Form (List α) → Form α
  | file ss => file ss.flatten
  | classDecl x parent ms => classDecl x parent ms.flatten
  | property v st x d => property v st x (d.bind List.head?)
  | method x v st ps ss => method x v st (ps.map Param.join) ss.flatten
  | function x ps ss => function x (ps.map Param.join) ss.flatten
  | ifStmt c ss es e => ifStmt (c.headD default) ss.flatten es.flatten (e.bind List.head?)
  | elseIf c ss => elseIf (c.headD default) ss.flatten
  | elseBranch ss => elseBranch ss.flatten
  | whileLoop c ss => whileLoop (c.headD default) ss.flatten
  | tryBlock ss cs fin => tryBlock ss.flatten cs.flatten (fin.map List.flatten)
  | catchClause ts v ss => catchClause ts (v.headD default) ss.flatten
  | exprStmt e => exprStmt (e.headD default)
  | returnStmt e => returnStmt (e.bind List.head?)
  | echo es => echo es.flatten
  | var x => var x
  | fetch o x => fetch (o.headD default) x
  | assign t v => assign (t.headD default) (v.headD default)
  | newObject c args => newObject c args.flatten
  | methodCall o x args => methodCall (o.headD default) x args.flatten
  | funcCall x args => funcCall x args.flatten
  | closure ps us ss => closure (ps.map Param.join) us.flatten ss.flatten
  | closureUse v r => closureUse (v.headD default) r
  | binary op l r => binary op (l.headD default) (r.headD default)
  | negation e => negation (e.headD default)
  | array es => array es.flatten
  | string s => string s
  | int i => int i
  | float d => float d
  | bool b => bool b
  | null => null

/-- No place for one child is given more than it can hold. -/
def Joinable (form : Form (List α)) : Prop := ∀ s ∈ form.segments, s.Joinable

@[simp] theorem kind_map (f : α → β) (form : Form α) : (form.map f).kind = form.kind := by
  cases form <;> rfl

@[simp] theorem kind_join [Inhabited α] (form : Form (List α)) : form.join.kind = form.kind := by
  cases form <;> rfl

theorem segments_join [Inhabited α] (form : Form (List α)) :
    form.join.segments = form.segments.map Segment.join := by
  cases form with
  | tryBlock ss cs fin => cases fin <;> rfl
  | method | function | closure =>
    simp [segments, join, Segment.join, Function.comp_def, Param.segment, Param.join]
  | _ => rfl

/-- The children of a construct, laid out, are the lists in their places one after the other. -/
theorem children_join [Inhabited α] {form : Form (List α)} (h : form.Joinable) :
    form.join.children = form.children.flatten := by
  rw [children, children, segments_join, List.flatMap_map, List.flatMap_def, List.flatMap_def,
    List.flatten_flatten, List.map_map]
  refine congrArg List.flatten (List.map_congr_left fun s hs => ?_)
  exact Segment.toList_join (h s hs)

theorem map_map (g : β → γ) (f : α → β) (form : Form α) :
    (form.map f).map g = form.map (g ∘ f) := by
  cases form <;> simp [map, Param.map_map, Function.comp_def]

theorem map_id (form : Form α) : form.map (fun c => c) = form := by
  have hparam : ∀ p : Param α, p.map (fun c => c) = p := fun p => by simp [Param.map]
  cases form <;> simp [map, hparam]

/-- What a map does to the children is all that it does. -/
theorem map_congr {f g : α → β} {form : Form α} (h : ∀ c ∈ form.children, f c = g c) :
    form.map f = form.map g := by
  rw [← attach_map form f, ← attach_map form g]
  have hfun : (fun c : { c // c ∈ form.children } => f c.1) = fun c => g c.1 :=
    funext fun c => h c.1 c.2
  rw [hfun]

/-- Laying out lists of one changes no places. -/
theorem join_map_singleton [Inhabited β] (f : α → β) (form : Form α) :
    (form.map fun c => [f c]).join = form.map f := by
  cases form with
  | property v st x d => cases d <;> rfl
  | returnStmt e => cases e <;> rfl
  | ifStmt c ss es e => cases e <;> simp only [map, join, flatten_map_singleton] <;> rfl
  | tryBlock ss cs fin =>
    cases fin <;> simp only [map, join, flatten_map_singleton, Option.map_some, Option.map_none]
  | method | function | closure =>
    simp only [map, join, flatten_map_singleton, List.map_map, Function.comp_def,
      Param.join_map_singleton]
  | _ => simp only [map, join, flatten_map_singleton, List.headD_cons]

/-- The runs of a laid out construct fit the construct that it was made from. -/
theorem withSegments_join [Inhabited α] (f : α → List α) (form : Form α) :
    form.withSegments (form.map f).join.segments = (form.map f).join := by
  cases form with
  | tryBlock ss cs fin => cases fin <;> rfl
  | method | function | closure =>
    simp [map, join, segments, withSegments, Function.comp_def, Param.fill_segment_join]
  | _ => rfl

/-- The runs of one map fit the construct that another one makes. -/
theorem withSegments_map (g h : α → β) (form : Form α) :
    (form.map g).withSegments (form.map h).segments = form.map h := by
  cases form with
  | tryBlock ss cs fin => cases fin <;> rfl
  | method | function | closure =>
    simp [map, segments, withSegments, Function.comp_def, Param.fill_map]
  | _ => rfl

/-- To lay out twice is to lay out once. -/
theorem join_map_join [Inhabited α] [Inhabited β] (g : α → List β) {form : Form (List α)}
    (h : form.Joinable) :
    (form.join.map g).join = (form.map fun l => l.flatMap g).join := by
  have hparams : ∀ ps : List (Param (List α)), (∀ s ∈ ps.map Param.segment, s.Joinable) →
      ((ps.map Param.join).map (·.map g)).map Param.join =
        (ps.map (·.map fun l => l.flatMap g)).map Param.join := by
    intro ps hps
    rw [List.map_map, List.map_map, List.map_map]
    refine List.map_congr_left ?_
    intro p hp
    have hinitial := bind_head?_map g (hps _ (List.mem_map_of_mem hp))
    simp only [Function.comp_apply, Param.join, Param.map, hinitial]
  unfold Joinable at h
  cases form with
  | property v st x d | returnStmt d =>
    have hd : ∀ xs ∈ d, xs.length ≤ 1 := h (.slot d) List.mem_cons_self
    simp only [map, join, bind_head?_map g hd]
  | method x v st ps ss | function x ps ss | closure ps us ss =>
    have hps := hparams ps fun s hs => h s (List.mem_append_left _ hs)
    simp only [map, join, flatten_map_flatten, hps]
  | ifStmt c ss es e =>
    have hc : c.length = 1 := h (.required c) List.mem_cons_self
    have he : ∀ xs ∈ e, xs.length ≤ 1 := h (.slot e) (by simp [segments])
    simp only [map, join, flatten_map_flatten, flatMap_headD g hc, bind_head?_map g he]
  | elseIf c ss | whileLoop c ss | catchClause ts c ss | methodCall c x ss =>
    have hc : c.length = 1 := h (.required c) List.mem_cons_self
    simp only [map, join, flatten_map_flatten, flatMap_headD g hc]
  | tryBlock ss cs fin =>
    cases fin <;> simp only [map, join, flatten_map_flatten, Option.map_some, Option.map_none]
  | exprStmt c | fetch c x | closureUse c r | negation c =>
    have hc : c.length = 1 := h (.required c) List.mem_cons_self
    simp only [map, join, flatMap_headD g hc]
  | assign l r | binary op l r =>
    have hl : l.length = 1 := h (.required l) List.mem_cons_self
    have hr : r.length = 1 := h (.required r) (by simp [segments])
    simp only [map, join, flatMap_headD g hl, flatMap_headD g hr]
  | _ => simp only [map, join, flatten_map_flatten]

end Form

end PhpRefactor
