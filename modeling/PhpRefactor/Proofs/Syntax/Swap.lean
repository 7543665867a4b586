import PhpRefactor.Proofs.Syntax.Occurrence
import Mathlib.Data.List.Forall2

/-!
# One node exchanged, the rest as it was

`Node.Swaps n xs m m'` says that the tree `m'` is the tree `m` with the nodes `xs` where one node
`n` below its root stood.  It is read off the two trees alone: down the way to the place every node
keeps its identity, its position, its construct and its other children, and at the end of the way
one run of children holds `xs` instead of `n` (`Segment.Swap`).  What lies beside the way is the
same in both trees.

No identity has to be unique for that, so it is also the way to speak of an exchange in a tree that
is known only in part; the graft of `PhpRefactor.Proofs.Syntax.Graft` changes every node of an
identity.
-/

set_option autoImplicit false

namespace PhpRefactor

/-- One element of a list changes to a related one, and the others stay. -/
theorem forall₂_among {α : Type} {R : α → α → Prop} {a b : α} (hR : ∀ a, R a a) (l r : List α)
    (h : R a b) : List.Forall₂ R (l ++ a :: r) (l ++ b :: r) := by
  have hrefl : ∀ as : List α, List.Forall₂ R as as :=
    fun as => List.forall₂_same.mpr fun a _ => hR a
  exact List.rel_append (hrefl l) (.cons h (hrefl r))

namespace Segment

variable {α : Type}

/-- A run with the nodes `xs` where the child `c` stood. A place for one child has one again, or
none if it may be empty. -/
inductive Swap (c : α) : List α → Segment α → Segment α → Prop
  | required (x : α) : Swap c [x] (required c) (required x)
  | filled (x : α) : Swap c [x] (slot (some c)) (slot (some x))
  | emptied : Swap c [] (slot (some c)) (slot none)
  | stmts (l xs r : List α) : Swap c xs (stmts (l ++ c :: r)) (stmts (l ++ xs ++ r))
  | items (l xs r : List α) : Swap c xs (items (l ++ c :: r)) (items (l ++ xs ++ r))

/-- Several runs, one of them with other nodes where one child stood. -/
inductive SwapIn (c : α) (xs : List α) : List (Segment α) → List (Segment α) → Prop
  | mk {s s' : Segment α} (l r : List (Segment α)) (h : Swap c xs s s') :
    SwapIn c xs (l ++ s :: r) (l ++ s' :: r)

/-- A run can stand in the place of another one: it is a run of the same sort. -/
inductive Fits : Segment α → Segment α → Prop
  | required (c d : α) : Fits (required c) (required d)
  | slot (c d : Option α) : Fits (slot c) (slot d)
  | stmts (cs ds : List α) : Fits (stmts cs) (stmts ds)
  | items (cs ds : List α) : Fits (items cs) (items ds)

variable {c x : α} {xs : List α} {s s' : Segment α} {segments segments' : List (Segment α)}

theorem Fits.refl (s : Segment α) : s.Fits s := by
  cases s <;> constructor

theorem Swap.fits (h : Swap c xs s s') : s.Fits s' := by
  cases h <;> constructor

theorem SwapIn.fits (h : SwapIn c xs segments segments') :
    List.Forall₂ Fits segments segments' := by
  obtain ⟨l, r, h⟩ := h
  exact forall₂_among Fits.refl l r h.fits

theorem SwapIn.cons (s : Segment α) (h : SwapIn c xs segments segments') :
    SwapIn c xs (s :: segments) (s :: segments') := by
  obtain ⟨l, r, h⟩ := h
  exact ⟨s :: l, r, h⟩

/-- The child that makes way is one of the children. -/
theorem SwapIn.mem (h : SwapIn c xs segments segments') : c ∈ segments.flatMap toList := by
  obtain ⟨l, r, h⟩ := h
  refine List.mem_flatMap.mpr ⟨_, List.mem_append_right l List.mem_cons_self, ?_⟩
  cases h <;> simp [toList]

/-- To overwrite a child is to exchange it for one node. -/
theorem swap_set {i : Nat} (h : s.toList[i]? = some c) (x : α) : Swap c [x] s (s.set i x) := by
  obtain ⟨hlt, hget⟩ := List.getElem?_eq_some_iff.mp h
  have hsplit : ∀ cs : List α, (hi : i < cs.length) → cs[i] = c →
      cs = cs.take i ++ c :: cs.drop (i + 1) ∧
        cs.set i x = cs.take i ++ [x] ++ cs.drop (i + 1) := by
    rintro cs hi rfl
    refine ⟨by simp, ?_⟩
    rw [List.set_eq_take_append_cons_drop, if_pos hi, List.append_assoc]
    rfl
  cases s with
  | required d =>
    obtain rfl : i = 0 := by simpa [toList] using hlt
    obtain rfl : d = c := hget
    exact .required x
  | slot d =>
    cases d with
    | none => simp [toList] at hlt
    | some d =>
      obtain rfl : i = 0 := by simpa [toList] using hlt
      obtain rfl : d = c := hget
      exact .filled x
  | stmts cs =>
    obtain ⟨hcs, hset⟩ := hsplit cs hlt hget
    rw [set, hset]
    conv => arg 3; rw [hcs]
    exact .stmts _ _ _
  | items cs =>
    obtain ⟨hcs, hset⟩ := hsplit cs hlt hget
    rw [set, hset]
    conv => arg 3; rw [hcs]
    exact .items _ _ _

theorem swapIn_setInSegments {i : Nat} (h : (segments.flatMap toList)[i]? = some c) (x : α) :
    SwapIn c [x] segments (Form.setInSegments segments i x) := by
  induction segments generalizing i with
  | nil => simp at h
  | cons s segments ih =>
    rw [List.flatMap_cons, List.getElem?_append] at h
    rw [Form.setInSegments]
    split at h
    · rename_i hlt
      rw [if_pos hlt]
      exact ⟨[], segments, swap_set h x⟩
    · rename_i hge
      rw [if_neg hge]
      exact (ih h).cons s

end Segment

namespace Param

variable {α : Type}

/-- Runs that fit several parameters and what comes after them are default values and runs that fit
the rest. -/
theorem exists_of_fits {ps : List (Param α)} {rest segments : List (Segment α)}
    (h : List.Forall₂ Segment.Fits (ps.map segment ++ rest) segments) :
    ∃ (ds : List (Option α)) (rest' : List (Segment α)), segments = ds.map Segment.slot ++ rest' ∧
      ds.length = ps.length ∧ List.Forall₂ Segment.Fits rest rest' := by
  induction ps generalizing segments with
  | nil => exact ⟨[], segments, rfl, rfl, h⟩
  | cons p ps ih =>
    obtain ⟨s, segments, hs, hrest, rfl⟩ := List.forall₂_cons_left_iff.mp h
    obtain ⟨ds, rest', rfl, hlength, hfits⟩ := ih hrest
    cases hs with
    | slot _ d => exact ⟨d :: ds, rest', rfl, by simp [hlength], hfits⟩

/-- Parameters hold the default values that were put in. -/
theorem map_segment_fill {ps : List (Param α)} {ds : List (Option α)} (rest : List (Segment α))
    (h : ds.length = ps.length) :
    (fill ps (ds.map Segment.slot ++ rest)).map segment = ds.map Segment.slot := by
  induction ps generalizing ds with
  | nil =>
    obtain rfl := List.eq_nil_of_length_eq_zero h
    cases rest <;> rfl
  | cons p ps ih =>
    obtain ⟨d, ds, rfl⟩ := List.exists_cons_of_length_eq_add_one h
    rw [List.map_cons, List.cons_append, fill, List.map_cons, ih (by simpa using h)]
    rfl

end Param

/-- Runs that fit a construct are the runs of the construct that they are put in. -/
theorem Form.segments_withSegments {α : Type} {form : Form α} {segments : List (Segment α)}
    (h : List.Forall₂ Segment.Fits form.segments segments) :
    (form.withSegments segments).segments = segments := by
  cases form with
  | method x v st ps ss | function x ps ss =>
    obtain ⟨ds, rest, rfl, hlength, hrest⟩ := Param.exists_of_fits h
    obtain ⟨_, _, hs, hnil, rfl⟩ := List.forall₂_cons_left_iff.mp hrest
    cases hs
    cases hnil
    simp [withSegments, Form.segments, ← hlength, Param.map_segment_fill _ hlength]
  | closure ps us ss =>
    obtain ⟨ds, rest, rfl, hlength, hrest⟩ := Param.exists_of_fits h
    obtain ⟨_, _, hus, htail, rfl⟩ := List.forall₂_cons_left_iff.mp hrest
    obtain ⟨_, _, hss, hnil, rfl⟩ := List.forall₂_cons_left_iff.mp htail
    cases hus
    cases hss
    cases hnil
    simp [withSegments, Form.segments, ← hlength, Param.map_segment_fill _ hlength]
  | tryBlock ss cs fin =>
    cases fin <;> rcases h with _ | ⟨⟨⟩, _ | ⟨⟨⟩, _ | ⟨⟨⟩, ⟨⟩⟩⟩⟩ <;> rfl
  | _ =>
    rcases h with _ | ⟨⟨⟩, _ | ⟨⟨⟩, _ | ⟨⟨⟩, _ | ⟨⟨⟩, ⟨⟩⟩⟩⟩⟩
    rfl

namespace Node

/-- The node `m'` is the node `m` with the nodes `xs` where its child `c` stood. -/
structure SwapsChild (c : Node) (xs : List Node) (m m' : Node) : Prop where
  id_eq : m'.id = m.id
  span_eq : m'.span = m.span
  /-- The other children stand where they stood. -/
  children : Segment.SwapIn c xs m.form.segments m'.form.segments
  /-- All of the construct but the children stays. -/
  form_eq : m'.form = m.form.withSegments m'.form.segments

/-- The tree `m'` is the tree `m` with the nodes `xs` where the node `n` below the root stood. -/
inductive Swaps (n : Node) (xs : List Node) : Node → Node → Prop
  | child {m m' : Node} (h : SwapsChild n xs m m') : Swaps n xs m m'
  | deeper {m m' c c' : Node} (h : SwapsChild c [c'] m m') (hc : Swaps n xs c c') : Swaps n xs m m'

variable {n m m' c : Node} {xs : List Node}

theorem swapsChild_withSegments {segments : List (Segment Node)}
    (h : Segment.SwapIn c xs m.form.segments segments) :
    SwapsChild c xs m { m with form := m.form.withSegments segments } where
  id_eq := rfl
  span_eq := rfl
  children := by
    change Segment.SwapIn c xs m.form.segments (m.form.withSegments segments).segments
    rw [Form.segments_withSegments h.fits]
    exact h
  form_eq := by
    change m.form.withSegments segments =
      m.form.withSegments (m.form.withSegments segments).segments
    rw [Form.segments_withSegments h.fits]

theorem swapsChild_setChild {i : Nat} (h : m.children[i]? = some c) (x : Node) :
    SwapsChild c [x] m (m.setChild i x) :=
  swapsChild_withSegments (Segment.swapIn_setInSegments h x)

/-- The node at the end of a path can be put back changed, and that changes nothing else: it is the
root, or it stands below the root and the rest stays. -/
theorem exists_setAt?_eq {path : List Nat} (h : m.at? path = some n) (x : Node) :
    ∃ m', m.setAt? path x = some m' ∧ (n = m ∧ m' = x ∨ Swaps n [x] m m') := by
  induction path generalizing m with
  | nil => exact ⟨x, rfl, .inl ⟨(Option.some.inj h).symm, rfl⟩⟩
  | cons i path ih =>
    obtain ⟨c, hc, hpath⟩ := Option.bind_eq_some_iff.mp h
    obtain ⟨c', hset, hplace⟩ := ih hpath
    refine ⟨m.setChild i c', by simp [setAt?, hc, hset], .inr ?_⟩
    have hchild : SwapsChild c [c'] m (m.setChild i c') := swapsChild_setChild hc c'
    rcases hplace with ⟨rfl, rfl⟩ | hbelow
    · exact .child hchild
    · exact .deeper hchild hbelow

/-- An exchange somewhere in a part of the tree, put back, is an exchange in the tree. -/
theorem exists_setAt?_swaps {path : List Nat} {p p' : Node} (h : m.at? path = some p)
    (hp : Swaps n xs p p') : ∃ m', m.setAt? path p' = some m' ∧ Swaps n xs m m' := by
  induction path generalizing m with
  | nil =>
    obtain rfl := Option.some.inj h
    exact ⟨p', rfl, hp⟩
  | cons i path ih =>
    obtain ⟨c, hc, hpath⟩ := Option.bind_eq_some_iff.mp h
    obtain ⟨c', hset, hbelow⟩ := ih hpath
    exact ⟨m.setChild i c', by simp [setAt?, hc, hset], .deeper (swapsChild_setChild hc c') hbelow⟩

/-- What is exchanged stood in the tree. -/
theorem Swaps.mem_preorder (h : Swaps n xs m m') : n ∈ m.preorder := by
  induction h with
  | child h =>
    rw [preorder_eq]
    exact List.mem_cons_of_mem _ (List.mem_flatMap_of_mem h.children.mem n.mem_preorder_self)
  | deeper h _ ih =>
    rw [preorder_eq]
    exact List.mem_cons_of_mem _ (List.mem_flatMap_of_mem h.children.mem ih)

end Node

end PhpRefactor
