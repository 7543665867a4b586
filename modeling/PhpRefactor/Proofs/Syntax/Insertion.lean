import PhpRefactor.Proofs.Syntax.Graft
import PhpRefactor.Proofs.Syntax.Swap

/-!
# Trees with more statements

`Node.Inserts s m m'` says that the tree `m'` is the tree `m` with the statement `s` put into one of
its lists of statements, in the list of the root or in one at any depth below it;
`Node.Grows added m m'` says the same of any number of statements, one after the other.  A statement
may also go into one that came before it.

The nodes on the way to the list are other nodes afterwards, but they look the same: they have the
same construct and their children look the same (`Inserts.runs`), and a variable is never on the way
since it has no list below it.  So a test that looks no deeper finds in the larger tree what it
found in the smaller one and what it finds in the statements that were added
(`Grows.any_descendants`).
-/

set_option autoImplicit false

namespace PhpRefactor

namespace Form

variable {α : Type}

/-- Runs that fit a construct leave its kind, and of its parameters they change the default values
alone. -/
theorem withSegments_of_fits {form : Form α} {segments : List (Segment α)}
    (h : List.Forall₂ Segment.Fits form.segments segments) :
    (form.withSegments segments).kind = form.kind ∧
      (form.withSegments segments).params = Param.fill form.params segments := by
  cases form with
  | method x v st ps ss | function x ps ss =>
    obtain ⟨ds, rest, rfl, hlength, hrest⟩ := Param.exists_of_fits h
    obtain ⟨_, _, hs, hnil, rfl⟩ := List.forall₂_cons_left_iff.mp hrest
    cases hs
    cases hnil
    simp [withSegments, kind, params, ← hlength]
  | closure ps us ss =>
    obtain ⟨ds, rest, rfl, hlength, hrest⟩ := Param.exists_of_fits h
    obtain ⟨_, _, hus, htail, rfl⟩ := List.forall₂_cons_left_iff.mp hrest
    obtain ⟨_, _, hss, hnil, rfl⟩ := List.forall₂_cons_left_iff.mp htail
    cases hus
    cases hss
    cases hnil
    simp [withSegments, kind, params, ← hlength]
  | tryBlock ss cs fin =>
    cases fin <;> rcases h with _ | ⟨⟨⟩, _ | ⟨⟨⟩, _ | ⟨⟨⟩, ⟨⟩⟩⟩⟩ <;> exact ⟨rfl, rfl⟩
  | _ =>
    rcases h with _ | ⟨⟨⟩, _ | ⟨⟨⟩, _ | ⟨⟨⟩, _ | ⟨⟨⟩, ⟨⟩⟩⟩⟩⟩
    exact ⟨rfl, rfl⟩

end Form

namespace Segment

variable {α : Type}

/-- Two runs of one sort.  Where there is one child it is related to the other one; of lists nothing
is known. -/
inductive Alike (R : α → α → Prop) : Segment α → Segment α → Prop
  | required {c d : α} (h : R c d) : Alike R (required c) (required d)
  | empty : Alike R (slot none) (slot none)
  | filled {c d : α} (h : R c d) : Alike R (slot (some c)) (slot (some d))
  | stmts (cs ds : List α) : Alike R (stmts cs) (stmts ds)
  | items (cs ds : List α) : Alike R (items cs) (items ds)

variable {R : α → α → Prop} {c d : α} {s s' : Segment α} {segments segments' : List (Segment α)}

theorem Alike.refl (hR : ∀ c, R c c) (s : Segment α) : Alike R s s := by
  cases s with
  | required c => exact .required (hR c)
  | slot c =>
    cases c with
    | none => exact .empty
    | some c => exact .filled (hR c)
  | stmts cs => exact .stmts cs cs
  | items cs => exact .items cs cs

theorem Alike.fits (h : Alike R s s') : s.Fits s' := by
  cases h <;> constructor

theorem Swap.alike (h : Swap c [d] s s') (hcd : R c d) : Alike R s s' := by
  cases h with
  | required => exact .required hcd
  | filled => exact .filled hcd
  | stmts => exact .stmts _ _
  | items => exact .items _ _

theorem forall₂_alike_stmts (hR : ∀ c, R c c) (l r : List (Segment α)) (cs ds : List α) :
    List.Forall₂ (Alike R) (l ++ stmts cs :: r) (l ++ stmts ds :: r) :=
  forall₂_among (Alike.refl hR) l r (.stmts cs ds)

theorem SwapIn.alike (h : SwapIn c [d] segments segments') (hR : ∀ c, R c c) (hcd : R c d) :
    List.Forall₂ (Alike R) segments segments' := by
  obtain ⟨l, r, h⟩ := h
  exact forall₂_among (Alike.refl hR) l r (h.alike hcd)

/-- Other nodes where one child stood, seen in the list of all children. -/
theorem SwapIn.exists_children_eq {xs : List α} (h : SwapIn c xs segments segments') :
    ∃ l r, segments.flatMap toList = l ++ c :: r ∧ segments'.flatMap toList = l ++ xs ++ r := by
  obtain ⟨before, after, h⟩ := h
  cases h with
  | required x => exact ⟨before.flatMap toList, after.flatMap toList, by simp [toList]⟩
  | filled x => exact ⟨before.flatMap toList, after.flatMap toList, by simp [toList]⟩
  | emptied => exact ⟨before.flatMap toList, after.flatMap toList, by simp [toList]⟩
  | stmts l xs r =>
    exact ⟨before.flatMap toList ++ l, r ++ after.flatMap toList, by simp [toList]⟩
  | items l xs r =>
    exact ⟨before.flatMap toList ++ l, r ++ after.flatMap toList, by simp [toList]⟩

end Segment

namespace Node

/-- The node `m'` is the node `m` with the statement `s` in one of its own lists of statements. -/
structure InsertsOwn (s m m' : Node) : Prop where
  id_eq : m'.id = m.id
  span_eq : m'.span = m.span
  /-- One list has one statement more, and all other runs are the same. -/
  lists : ∃ before after l r, m.form.segments = before ++ .stmts (l ++ r) :: after ∧
    m'.form.segments = before ++ .stmts (l ++ s :: r) :: after
  /-- All of the construct but the children stays. -/
  form_eq : m'.form = m.form.withSegments m'.form.segments

/-- The tree `m'` is the tree `m` with the statement `s` in one of its lists of statements. -/
inductive Inserts (s : Node) : Node → Node → Prop
  | here {m m' : Node} (h : InsertsOwn s m m') : Inserts s m m'
  | deeper {m m' c c' : Node} (h : SwapsChild c [c'] m m') (hc : Inserts s c c') : Inserts s m m'

/-- The tree `m'` is the tree `m` with all these statements added, the last one first. -/
inductive Grows : List Node → Node → Node → Prop
  | refl (m : Node) : Grows [] m m
  | insert {added : List Node} {s m m' m'' : Node} (h : Grows added m m') (hs : Inserts s m' m'') :
    Grows (s :: added) m m''

/-- Two nodes of one construct; when they are variables they are one variable. -/
structure Resembles (c d : Node) : Prop where
  kind_eq : d.kind = c.kind
  varName?_eq : d.varName? = c.varName?

theorem Resembles.refl (c : Node) : Resembles c c := ⟨rfl, rfl⟩

variable {s m m' : Node} {added : List Node}

/-- A statement can be put anywhere into any list of statements. -/
theorem insertsOwn_withSegments {before after : List (Segment Node)} {l r : List Node}
    (h : m.form.segments = before ++ .stmts (l ++ r) :: after) (s : Node) :
    InsertsOwn s m
      { m with form := m.form.withSegments (before ++ .stmts (l ++ s :: r) :: after) } := by
  have halike := Segment.forall₂_alike_stmts Resembles.refl before after (l ++ r) (l ++ s :: r)
  rw [← h] at halike
  have hsegments := Form.segments_withSegments (halike.imp fun _ _ => Segment.Alike.fits)
  exact ⟨rfl, rfl, ⟨before, after, l, r, h, hsegments⟩, by dsimp only; rw [hsegments]⟩

theorem InsertsOwn.exists_children_eq (h : InsertsOwn s m m') :
    ∃ l r, m.children = l ++ r ∧ m'.children = l ++ s :: r := by
  obtain ⟨before, after, l, r, hm, hm'⟩ := h.lists
  refine ⟨before.flatMap Segment.toList ++ l, r ++ after.flatMap Segment.toList, ?_, ?_⟩
  · rw [children, Form.children, hm]
    simp [Segment.toList]
  · rw [children, Form.children, hm']
    simp [Segment.toList]

theorem InsertsOwn.runs (h : InsertsOwn s m m') :
    List.Forall₂ (Segment.Alike Resembles) m.form.segments m'.form.segments := by
  obtain ⟨before, after, l, r, hm, hm'⟩ := h.lists
  rw [hm, hm']
  exact Segment.forall₂_alike_stmts Resembles.refl before after _ _

namespace Inserts

theorem form_eq (h : Inserts s m m') : m'.form = m.form.withSegments m'.form.segments := by
  cases h with
  | here h => exact h.form_eq
  | deeper h => exact h.form_eq

theorem fits (h : Inserts s m m') :
    List.Forall₂ Segment.Fits m.form.segments m'.form.segments := by
  cases h with
  | here h => exact h.runs.imp fun _ _ => Segment.Alike.fits
  | deeper h => exact h.children.fits

/-- A node on the way to a list of statements has children. -/
theorem segments_ne_nil (h : Inserts s m m') : m.form.segments ≠ [] := by
  cases h with
  | here h =>
    obtain ⟨before, after, l, r, hm, -⟩ := h.lists
    simp [hm]
  | deeper h =>
    intro hnil
    have hmem := h.children.mem
    rw [hnil] at hmem
    simp at hmem

theorem resembles (h : Inserts s m m') : Resembles m m' := by
  have hkind : m'.kind = m.kind := by
    rw [kind, h.form_eq, (Form.withSegments_of_fits h.fits).1]
    rfl
  have hvar : m.kind ≠ .var := by
    intro hvar
    refine h.segments_ne_nil ?_
    rw [kind] at hvar
    cases hform : m.form <;> simp_all [Form.kind, Form.segments]
  refine ⟨hkind, ?_⟩
  rw [varName?_of_kind hvar, varName?_of_kind (hkind ▸ hvar)]

/-- The children look the same afterwards. -/
theorem runs (h : Inserts s m m') :
    List.Forall₂ (Segment.Alike Resembles) m.form.segments m'.form.segments := by
  cases h with
  | here h => exact h.runs
  | deeper h hc => exact h.children.alike Resembles.refl hc.resembles

/-- A test that does not see the difference on the way to the list finds what it found before and
what it finds in the new statement. -/
theorem any_descendants {p : Node → Bool} (hp : ∀ {m m' : Node}, Inserts s m m' → p m' = p m)
    (h : Inserts s m m') : m'.descendants.any p = (m.descendants.any p || s.preorder.any p) := by
  have hpreorder : ∀ n : Node, n.preorder.any p = (p n || n.descendants.any p) := by
    intro n
    rw [preorder_eq, List.any_cons]
    rfl
  induction h with
  | here h =>
    obtain ⟨l, r, hm, hm'⟩ := h.exists_children_eq
    simp only [descendants, hm, hm', List.flatMap_append, List.flatMap_cons, List.any_append]
    ac_rfl
  | @deeper m m' c c' h hc ih =>
    have hway : c'.preorder.any p = (c.preorder.any p || s.preorder.any p) := by
      rw [hpreorder c', hpreorder c, hp hc, ih, Bool.or_assoc]
    obtain ⟨l, r, hm, hm'⟩ := h.children.exists_children_eq
    change children _ = _ at hm hm'
    simp only [descendants, hm, hm', List.flatMap_append, List.flatMap_cons, List.flatMap_nil,
      List.any_append, List.append_nil, hway]
    ac_rfl

end Inserts

/-- A test that does not see the difference on the way to a list finds in a larger tree what it
found before and what it finds in the statements that were added. -/
theorem Grows.any_descendants {p : Node → Bool}
    (hp : ∀ {s m m' : Node}, Inserts s m m' → p m' = p m) (h : Grows added m m') :
    m'.descendants.any p = (m.descendants.any p || (added.flatMap preorder).any p) := by
  induction h with
  | refl m => simp
  | insert h hs ih =>
    rw [hs.any_descendants hp, ih, List.flatMap_cons, List.any_append]
    ac_rfl

end Node

end PhpRefactor
