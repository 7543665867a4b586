import PhpRefactor.Proofs.Syntax.Graft

/-!
# Rewriting a tree in one walk

What is to become of the nodes of a tree is said here by a function, which sees a node and the nodes
around it: the node stays, or its statements take its place, or another node does (`Fate`).
`Node.rewriteIn` is the one walk that carries this out, with all nodes judged as they stand in the
tree before.

The rules edit a tree step by step instead, and a tree that was edited once is judged anew.  If the
edit leaves the other nodes their fates, and in its place leads where the walk leads, then the walk
comes to the same end from the new tree (`GraftSite.rewriteIn_grafted`).
-/

set_option autoImplicit false

namespace PhpRefactor

namespace Form

variable {α β : Type}

/-- The statements of an `if`. -/
def ifBody : Form α → List α
  | ifStmt _ ss _ _ => ss
  | _ => []

theorem ifBody_map (f : α → β) (form : Form α) : (form.map f).ifBody = form.ifBody.map f := by
  cases form <;> rfl

theorem ifBody_join [Inhabited α] (form : Form (List α)) :
    form.join.ifBody = form.ifBody.flatten := by
  cases form <;> rfl

theorem mem_children_of_mem_ifBody {form : Form α} {c : α} (h : c ∈ form.ifBody) :
    c ∈ form.children := by
  cases form with
  | ifStmt cond ss es e =>
    have hss : c ∈ ss := h
    simp [children, segments, Segment.toList, hss]
  | _ => exact absurd h List.not_mem_nil

end Form

/-- What becomes of a node. -/
inductive Fate where
  /-- It stays, with what becomes of its children. -/
  | stays
  /-- What becomes of its statements takes its place. -/
  | opens
  /-- Another node takes its place. -/
  | becomes (x : Node)

namespace Node

/-- What comes of a node below these nodes when every node meets its fate. -/
def rewriteIn (fate : List Node → Node → Fate) (around : List Node) (n : Node) : List Node :=
  let form := n.form.attach.map fun ⟨c, _⟩ => c.rewriteIn fate (n :: around)
  match fate around n with
  | .stays => [⟨n.id, n.span, form.join⟩]
  | .opens => form.ifBody.flatten
  | .becomes x => [x]
termination_by sizeOf n
decreasing_by exact sizeOf_lt_of_mem_children ‹_›

/-- What comes of a tree. -/
def rewrite (fate : List Node → Node → Fate) (root : Node) : List Node := root.rewriteIn fate []

variable {fate fate' : List Node → Node → Fate}

theorem rewriteIn_eq (fate : List Node → Node → Fate) (around : List Node) (n : Node) :
    n.rewriteIn fate around =
      match fate around n with
      | .stays => [⟨n.id, n.span, (n.form.map (rewriteIn fate (n :: around))).join⟩]
      | .opens => (n.form.ifBody.map (rewriteIn fate (n :: around))).flatten
      | .becomes x => [x] := by
  rw [rewriteIn, Form.attach_map n.form (rewriteIn fate (n :: around)), Form.ifBody_map]

/-- Where every node stays nothing changes. -/
theorem rewriteIn_of_stays {root : Node} {around : List Node}
    (h : ∀ inner p, Occurs root inner p → fate (inner ++ around) p = .stays) :
    root.rewriteIn fate around = [root] := by
  have key : ∀ (n : Node) (inner : List Node), Occurs root inner n →
      n.rewriteIn fate (inner ++ around) = [n] := by
    intro n
    induction n using Node.induction with
    | step n ih =>
      intro inner hn
      have hform : n.form.map (rewriteIn fate (n :: (inner ++ around))) =
          n.form.map fun c => [c] :=
        Form.map_congr fun c hc => ih c hc (n :: inner) (hn.child hc)
      rw [rewriteIn_eq, h inner n hn]
      dsimp only
      rw [hform, Form.join_map_singleton, Form.map_id]
      cases n
      rfl
  exact key root [] .root

/-- The same comes of a tree below other nodes where the fates are the same. -/
theorem rewriteIn_congr {root : Node} {around around' : List Node}
    (h : ∀ inner p, Occurs root inner p → fate' (inner ++ around') p = fate (inner ++ around) p) :
    root.rewriteIn fate' around' = root.rewriteIn fate around := by
  have key : ∀ (n : Node) (inner : List Node), Occurs root inner n →
      n.rewriteIn fate' (inner ++ around') = n.rewriteIn fate (inner ++ around) := by
    intro n
    induction n using Node.induction with
    | step n ih =>
      intro inner hn
      have hbelow : ∀ c ∈ n.children, c.rewriteIn fate' (n :: (inner ++ around')) =
          c.rewriteIn fate (n :: (inner ++ around)) :=
        fun c hc => ih c hc (n :: inner) (hn.child hc)
      rw [rewriteIn_eq, rewriteIn_eq, h inner n hn, Form.map_congr hbelow]
      split
      · rfl
      · exact congrArg List.flatten
          (List.map_congr_left fun c hc => hbelow c (Form.mem_children_of_mem_ifBody hc))
      · rfl
  exact key root [] .root

namespace GraftSite

variable {root m n p : Node} {around outer xs : List Node}

/-- The walk comes to the same end after a graft that leaves the other nodes their fates, if it does
so in the place. -/
theorem rewriteIn_grafted (site : GraftSite root around m n xs)
    (hfate : ∀ outer p, Occurs root outer p → (∀ a ∈ p :: outer, a.id ≠ n.id) →
      fate' (outer.map (grafted n.id xs)) (p.grafted n.id xs) = fate outer p)
    (hplace : xs.flatMap (rewriteIn fate' ((m :: around).map (grafted n.id xs))) =
      n.rewriteIn fate (m :: around)) (p : Node) :
    ∀ outer, Occurs root outer p → (∀ a ∈ outer, a.id ≠ n.id) →
      (p.graft n.id xs).flatMap (rewriteIn fate' (outer.map (grafted n.id xs))) =
        p.rewriteIn fate outer := by
  induction p using Node.induction with
  | step p ih =>
    intro outer hp hapart
    by_cases hid : p.id = n.id
    · obtain ⟨rfl, rfl⟩ := hp.unique site.nodup site.occurs hid
      rw [graft_of_id_eq rfl]
      exact hplace
    · have hne : ∀ a ∈ p :: outer, a.id ≠ n.id := by
        intro a ha
        rcases List.mem_cons.mp ha with rfl | ha
        · exact hid
        · exact hapart a ha
      have hbelow : ∀ c ∈ p.children,
          (c.graft n.id xs).flatMap
              (rewriteIn fate' (p.grafted n.id xs :: outer.map (grafted n.id xs))) =
            c.rewriteIn fate (p :: outer) :=
        fun c hc => ih c hc (p :: outer) (hp.child hc) hne
      rw [graft_of_id_ne hid, List.flatMap_singleton, rewriteIn_eq, rewriteIn_eq,
        hfate outer p hp hne]
      split
      · have hform : p.form.map (List.flatMap (rewriteIn fate'
            (p.grafted n.id xs :: outer.map (grafted n.id xs))) ∘ graft n.id xs) =
            p.form.map (rewriteIn fate (p :: outer)) := Form.map_congr hbelow
        rw [form_grafted, Form.join_map_join _ (joinable_graft (site.admits_of_occurs hp)),
          Form.map_map, hform]
        rfl
      · rw [form_grafted, Form.ifBody_join, Form.ifBody_map, flatten_map_flatten, List.map_map]
        refine congrArg List.flatten (List.map_congr_left fun c hc => ?_)
        exact hbelow c (Form.mem_children_of_mem_ifBody hc)
      · rfl

theorem rewrite_grafted (site : GraftSite root around m n xs)
    (hfate : ∀ outer p, Occurs root outer p → (∀ a ∈ p :: outer, a.id ≠ n.id) →
      fate' (outer.map (grafted n.id xs)) (p.grafted n.id xs) = fate outer p)
    (hplace : xs.flatMap (rewriteIn fate' ((m :: around).map (grafted n.id xs))) =
      n.rewriteIn fate (m :: around)) :
    (root.grafted n.id xs).rewrite fate' = root.rewrite fate := by
  have hwalk := site.rewriteIn_grafted hfate hplace root [] .root (by simp)
  rw [graft_of_id_ne site.root_ne, List.flatMap_singleton] at hwalk
  exact hwalk

end GraftSite

end Node

end PhpRefactor
