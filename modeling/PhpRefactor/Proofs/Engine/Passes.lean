import PhpRefactor.Proofs.Engine.Limit
import PhpRefactor.Proofs.Engine.Run
import PhpRefactor.Proofs.Engine.Visit

/-!
# A pass with the configured rules

What is kept by every visit of a pass is proved of the whole pass here, once (`Config.pass_cases`).
The theorem is about any property of the states between two visits, and what it adds is that the
pass ends: the open fetches and the nodes to be visited make up a budget, and every visit takes at
least one from it (`PassState.Accounted`).

So a pass is never cut off.  It comes to its end or an `if` stands in a place that refuses its body.
-/

set_option autoImplicit false

namespace PhpRefactor

/-- A tree without repeated identities, and a supply of new ones. -/
structure Workspace.Sound (w : Workspace) : Prop where
  nodup : w.tree.ids.Nodup
  below : ∀ i ∈ w.tree.ids, i < w.next

/-- A tree whose nodes are numbered in pre-order. -/
theorem Workspace.sound_of_ids_eq_range {w : Workspace} (h : w.tree.ids = List.range w.next) :
    w.Sound where
  nodup := by
    rw [h]
    exact List.nodup_range
  below i hi := by
    rw [h] at hi
    exact List.mem_range.mp hi

/-- The beginning of a pass. -/
def Workspace.begun (w : Workspace) : PassState := .start w.tree (.of w.tree) w.next w.stats

/-- A class whose constructor sets a property to an object, and a method that asks whether it is
set. -/
def Workspace.box : Workspace where
  tree := ⟨0, .none, .file [⟨1, .none, .classDecl "Box" none [
    ⟨2, .none, .property .isPrivate false "value" none⟩,
    ⟨3, .none, .method "__construct" .isPublic false [] [
      ⟨4, .none, .exprStmt ⟨5, .none, .assign ⟨6, .none, .fetch ⟨7, .none, .var "this"⟩ "value"⟩
        ⟨8, .none, .newObject "Inner" []⟩⟩⟩]⟩,
    ⟨9, .none, .method "get" .isPublic false [] [
      ⟨10, .none, .ifStmt ⟨11, .none, .fetch ⟨12, .none, .var "this"⟩ "value"⟩ [
        ⟨13, .none, .echo []⟩] [] none⟩]⟩]⟩]⟩
  next := 14
  stats := []

theorem Workspace.sound_box : box.Sound := sound_of_ids_eq_range (by decide +kernel)

namespace PassState

/-- An edit takes one open fetch, and nothing but an edit changes the tree. -/
theorem Moves.edit_cases {rules : List RuleConfig} {s s' : PassState} {done done' : List Nat}
    {around : List Node} {n : Node} {ahead ahead' : List Node}
    (h : s.Moves rules done around n ahead s' done' ahead') :
    (s'.edits = s.edits ∧ s'.tree = s.tree) ∨
      (s'.edits = s.edits + 1 ∧ s'.tree.openFetches + 1 = s.tree.openFetches) := by
  cases h with
  | keep _ htree hcount => exact .inl ⟨hcount, htree⟩
  | unwrap _ hbody _ site hloose htree hcount =>
    have hopen := site.openFetches_grafted (Node.kind_ne_fetch_of_holdsIn hloose)
    rw [TrueCondition.openFetches_of_settledBody? hbody, ← htree] at hopen
    exact .inr ⟨hcount, by omega⟩
  | @lengthen access x m outer _ hx haround site htree hcount =>
    obtain ⟨_, -, -, -, hparent⟩ := CanonicalAccess.containerIn?_eq_some_iff.mp hx
    obtain ⟨hone, hzero⟩ := CanonicalAccess.openFetches_of_containerIn? hx s.next
    have hopen := site.openFetches_grafted (hparent m (by rw [haround]; rfl))
    rw [hone, ← htree, List.flatMap_singleton] at hopen
    rw [Node.openFetches] at hzero
    exact .inr ⟨hcount, by omega⟩

/-- What is left to be visited and edited, counted against the tree `before` the pass. -/
structure Accounted (before : Node) (s : PassState) (done : List Nat) (ahead : List Node) :
    Prop extends Supplied s done ahead where
  edits_add : s.edits + s.tree.openFetches = before.openFetches
  visits_add_le : s.visits + (ahead.flatMap Node.preorder).length + s.tree.openFetches ≤
    before.visitBound

namespace Accounted

theorem start {w : Workspace} (hw : w.Sound) : Accounted w.tree w.begun [] [w.tree] where
  toSupplied := .start hw.nodup hw.below w.stats
  edits_add := Nat.zero_add _
  visits_add_le := by simp [Workspace.begun, PassState.start, Node.visitBound, Node.size]

/-- An edit takes one open fetch, and a visit takes what it leads to out of what is left. -/
theorem moves {before : Node} {rules : List RuleConfig} {s s' : PassState} {done done' : List Nat}
    {around : List Node} {n : Node} {ahead ahead' : List Node}
    (A : Accounted before s done (n :: ahead)) (hvisits : s'.visits = s.visits + 1)
    (h : Moves rules s done around n ahead s' done' ahead') (S : Supplied s' done' ahead') :
    Accounted before s' done' ahead' := by
  have hedits := A.edits_add
  have hleft := A.visits_add_le
  have hcases := h.edit_cases
  rw [List.flatMap_cons, List.length_append, Node.preorder_eq, List.length_cons] at hleft
  refine ⟨S, ?_, ?_⟩
  · rcases hcases with ⟨hcount, htree⟩ | ⟨hcount, hopen⟩
    · rw [hcount, htree]
      exact hedits
    · omega
  rw [hvisits]
  cases h with
  | keep _ htree _ =>
    rw [htree, List.flatMap_append, List.length_append]
    omega
  | @unwrap m outer body _ hbody _ _ _ _ hcount =>
    have hsize : (body.flatMap Node.preorder).length ≤ (n.children.flatMap Node.preorder).length :=
      ((TrueCondition.sublist_children_of_settledBody? hbody).flatMap Node.preorder).length_le
    rw [List.flatMap_append, List.length_append]
    omega
  | @lengthen access x m outer _ hx _ _ _ hcount =>
    obtain ⟨object, hform, hobject, -⟩ := CanonicalAccess.containerIn?_eq_some_iff.mp hx
    have hold : (n.children.flatMap Node.preorder).length = 1 := by
      simp [Node.children, Form.children, hform, Form.segments, Segment.toList, Node.preorder_eq,
        hobject]
    have hnew : ((access.lengthened n x s.next).children.flatMap Node.preorder).length = 2 := by
      simp [CanonicalAccess.lengthened, Node.children, Form.children, Form.segments, Segment.toList,
        Node.preorder_eq]
    rw [List.flatMap_append, List.length_append]
    omega

end Accounted

end PassState

namespace Engine

variable {e : Engine} {w : Workspace} {number : Nat}

theorem pass_of_run_eq_ok (hnodup : w.tree.ids.Nodup) {s : PassState}
    (hrun : w.begun.run e.rules e.oracle number (e.visitLimit w.tree) = .ok s) :
    e.pass number w = (⟨s.tree, s.next, s.stats⟩, .ok ⟨s.visits, s.edits⟩) := by
  unfold Workspace.begun at hrun
  unfold pass
  rw [TreeIndex.ofTree_of_nodup hnodup]
  simp only [hrun]

theorem pass_of_run_eq_error (hnodup : w.tree.ids.Nodup) {halt : Halt}
    (hrun : w.begun.run e.rules e.oracle number (e.visitLimit w.tree) = .error halt) :
    e.pass number w =
      (⟨halt.state.tree, halt.state.next, halt.state.stats⟩, .error halt.reason) := by
  unfold Workspace.begun at hrun
  unfold pass
  rw [TreeIndex.ofTree_of_nodup hnodup]
  simp only [hrun]

end Engine

section

variable (config : Config) (w : Workspace) (number : Nat)
  (P : PassState → List Nat → List Node → Prop)

/-- A pass over the workspace has come to this state, and the property holds. -/
def PassState.Underway (s : PassState) (done : List Nat) (ahead : List Node) : Prop :=
  w.begun.Reaches config.engine.rules .declared number s ∧ Accounted w.tree s done ahead ∧
    P s done ahead

/-- A pass over the workspace was stopped by an `if` whose place refuses its body. -/
def Halt.Stopped (halt : Halt) : Prop :=
  ∃ (s : PassState) (done : List Nat) (around : List Node) (n : Node) (ahead : List Node),
    s.Underway config w number P done (n :: ahead) ∧ s.tree.Occurs around n ∧
    s.Refuses config.rules around n halt

variable {config w number P}

theorem PassState.Underway.accounted {s : PassState} {done : List Nat} {ahead : List Node}
    (U : s.Underway config w number P done ahead) : Accounted w.tree s done ahead := U.2.1

/-- A visit leads on, or an `if` stands in a place that refuses its body. -/
theorem PassState.Underway.step {s : PassState} {done : List Nat} {ahead : List Node}
    (hmoves : ∀ (s : PassState) done around n ahead s' done' ahead',
      Supplied s done (n :: ahead) → s.tree.Occurs around n → P s done (n :: ahead) →
      Moves config.rules s done around n ahead s' done' ahead' → P s' done' ahead')
    (U : s.Underway config w number P done ahead) (hpending : s.pending ≠ []) :
    (∃ s' done' ahead', s.step config.engine.rules .declared number = .ok s' ∧
      s'.Underway config w number P done' ahead' ∧ s'.visits = s.visits + 1) ∨
    ∃ halt : Halt, s.step config.engine.rules .declared number = .error halt ∧
      halt.Stopped config w number P := by
  obtain ⟨hreach, A, hP⟩ := U
  cases ahead with
  | nil => exact absurd A.pending_eq hpending
  | cons n ahead =>
    obtain ⟨around, hn⟩ := Node.mem_preorder_iff.mp (A.mem n List.mem_cons_self)
    rcases A.visit_cases hn config.rules number with
      ⟨s', done', ahead', hstep, hmove, S⟩ | ⟨halt, hstep, hrefuses⟩
    · have hsteps : Steps config.engine.rules .declared number s s' := ⟨hpending, hstep⟩
      have hvisits := visits_of_steps hsteps
      refine .inl ⟨s', done', ahead', hstep, ⟨hreach.tail hsteps, ?_, ?_⟩, hvisits⟩
      · exact A.moves hvisits hmove S
      · exact hmoves s done around n ahead s' done' ahead' A.toSupplied hn hP hmove
    · exact .inr ⟨halt, hstep, s, done, around, n, ahead, ⟨hreach, A, hP⟩, hn, hrefuses⟩

/-- A property that every visit keeps holds at the end of a pass.  The pass comes to its end, or an
`if` stands in a place that refuses its body. -/
theorem Config.pass_cases (config : Config) (number : Nat) (hw : w.Sound)
    (hstart : P w.begun [] [w.tree])
    (hmoves : ∀ (s : PassState) done around n ahead s' done' ahead',
      s.Supplied done (n :: ahead) → s.tree.Occurs around n → P s done (n :: ahead) →
      PassState.Moves config.rules s done around n ahead s' done' ahead' → P s' done' ahead') :
    (∃ (s : PassState) (done : List Nat), s.Underway config w number P done [] ∧
      config.engine.pass number w = (⟨s.tree, s.next, s.stats⟩, .ok ⟨s.visits, s.edits⟩)) ∨
    ∃ halt : Halt, halt.Stopped config w number P ∧
      config.engine.pass number w =
        (⟨halt.state.tree, halt.state.next, halt.state.stats⟩, .error halt.reason) := by
  -- What is left of the budget gets smaller with every visit.
  have hends :
      (∃ s : PassState,
        w.begun.run config.engine.rules .declared number w.tree.visitBound = .ok s ∧
          (∃ done ahead, s.Underway config w number P done ahead) ∧ s.pending = []) ∨
      ∃ halt : Halt,
        w.begun.run config.engine.rules .declared number w.tree.visitBound = .error halt ∧
          halt.Stopped config w number P := by
    refine PassState.run_ends
      (fun s : PassState => ∃ done ahead, s.Underway config w number P done ahead)
      (Halt.Stopped config w number P) (fun s => w.tree.visitBound - s.visits) ?_ ?_ ?_ ?_
    · rintro s ⟨done, ahead, hreach, A, hP⟩ hpending
      cases ahead with
      | nil => exact absurd A.pending_eq hpending
      | cons n ahead =>
        have hleft := A.visits_add_le
        have hsize := n.size_pos
        rw [Node.size] at hsize
        rw [List.flatMap_cons, List.length_append] at hleft
        omega
    · rintro s ⟨done, ahead, U⟩ hpending
      rcases U.step hmoves hpending with ⟨s', done', ahead', hstep, U', hvisits⟩ | hstopped
      · have hleft := U'.accounted.visits_add_le
        exact .inl ⟨s', hstep, ⟨done', ahead', U'⟩, by omega⟩
      · exact .inr hstopped
    · exact ⟨[], [w.tree], .refl, .start hw, hstart⟩
    · exact Nat.sub_le _ _
  rcases hends with ⟨s, hrun, ⟨done, ahead, U⟩, hpending⟩ | ⟨halt, hrun, hstopped⟩
  · rw [U.accounted.pending_eq, List.map_eq_nil_iff] at hpending
    subst hpending
    exact .inl ⟨s, done, U, Engine.pass_of_run_eq_ok hw.nodup hrun⟩
  · exact .inr ⟨halt, hstopped, Engine.pass_of_run_eq_error hw.nodup hrun⟩

/-- Where nothing is refused a pass comes to its end, and what every visit keeps holds there of all
nodes. -/
theorem Config.pass_of_unrefused (config : Config) (number : Nat) (hw : w.Sound)
    {R : PassState → List Nat → Prop} (hstart : R w.begun [])
    (hmoves : ∀ (s : PassState) done around n ahead s' done' ahead',
      s.Supplied done (n :: ahead) → s.tree.Occurs around n → R s done →
      s.Moves config.rules done around n ahead s' done' ahead' → R s' done')
    (hrefuses : ∀ (s : PassState) done around n halt, s.tree.Occurs around n → R s done →
      ¬ s.Refuses config.rules around n halt) :
    ∃ s : PassState, R s s.tree.ids ∧ (⟨s.tree, s.next, s.stats⟩ : Workspace).Sound ∧
      config.engine.pass number w = (⟨s.tree, s.next, s.stats⟩, .ok ⟨s.visits, s.edits⟩) := by
  rcases config.pass_cases number hw (P := fun s done _ => R s done) hstart hmoves with
    ⟨s, done, ⟨-, A, hR⟩, hpass⟩ | ⟨halt, ⟨s, done, around, n, ahead, ⟨-, -, hR⟩, hn, hrefused⟩, -⟩
  · have hdone : s.tree.ids = done := by
      rw [A.ids_eq, List.flatMap_nil, List.append_nil]
    exact ⟨s, hdone ▸ hR, ⟨A.nodup, A.below⟩, hpass⟩
  · exact absurd hrefused (hrefuses s done around n halt hn hR)

end

end PhpRefactor
