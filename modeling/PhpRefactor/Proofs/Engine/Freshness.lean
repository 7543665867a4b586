import PhpRefactor.Engine.Basic
import PhpRefactor.Proofs.Engine.Frontier

/-!
# A pass never works on an outdated index

Whatever the rules answer, every visit of a pass begins in good order: the index is that of the
present tree, every pending identity leads to a node of it, and pending nodes lie apart.  So no
look-up of a pass misses.  A pass can only be halted by a place that refuses an edit, and then the
tree is as it was, or by an edit that brings in an identity that is there already
(`Engine.pass_in_order`).
-/

set_option autoImplicit false

namespace PhpRefactor

/-- A rule that has an answer for every node of a tree with its own index. -/
def Rule.Answers (rule : Rule) : Prop :=
  ∀ (root : Node) oracle pass, root.ids.Nodup → ∀ n ∈ root.preorder, ∀ next,
    ∃ answer, rule.apply ⟨root.indexed, oracle, pass⟩ n next = .ok answer

/-- Rules that always answer find an edit, if only that of keeping the node. -/
theorem offer_answers {rules : List Rule} (h : ∀ rule ∈ rules, rule.Answers) {root n : Node}
    (hnodup : root.ids.Nodup) (hn : n ∈ root.preorder) (oracle : Oracle) (pass : Nat)
    (stats : Stats) (next : Nat) :
    ∃ edit, (offer ⟨root.indexed, oracle, pass⟩ n stats next rules).answer = .ok edit := by
  induction rules generalizing stats next with
  | nil => exact ⟨.keep, rfl⟩
  | cons rule rules ih =>
    have hrest := ih fun r hr => h r (List.mem_cons_of_mem _ hr)
    rw [offer]
    split
    · obtain ⟨⟨edit, after⟩, hanswer⟩ := h rule List.mem_cons_self root oracle pass hnodup n hn next
      rw [hanswer]
      cases edit with
      | keep => exact hrest _ _
      | replace x => exact ⟨_, rfl⟩
      | splice xs => exact ⟨_, rfl⟩
      | remove => exact ⟨_, rfl⟩
    · exact hrest _ _

namespace PassState

/-- Two nodes of which neither stands below the other. -/
def Apart (a b : Node) : Prop := a.id ≠ b.id ∧ a ∉ b.descendants ∧ b ∉ a.descendants

/-- The order in which every visit of a pass begins. -/
structure InOrder (s : PassState) : Prop where
  /-- The index is that of the present tree. -/
  fresh : TreeIndex.ofTree s.tree = .ok s.index
  /-- Every pending identity leads to a node of the tree, and these nodes lie apart. -/
  pending : ∃ ahead : List Node, s.pending = ahead.map (·.id) ∧
    (∀ n ∈ ahead, s.index.find? s.tree n.id = some n ∧ n ∈ s.tree.preorder) ∧
    ahead.Pairwise Apart

/-- How a visit can be halted: the place of the node refuses an edit and nothing has changed, or the
edited tree repeats an identity that the edit has brought in. -/
def HaltsInOrder (s : PassState) (halt : Halt) : Prop :=
  (∃ e : TreeError, e.IsRefusal ∧ halt.reason = .badTree e ∧ halt.state.tree = s.tree ∧
    halt.state.tree.ids.Nodup) ∨
  ∃ (edit : Edit) (id i : Nat), s.pending.head? = some id ∧
    edit.apply s.index s.tree id = .ok halt.state.tree ∧ i ∈ edit.brought ∧
    TreeIndex.ofTree halt.state.tree = .error (.duplicate i) ∧
    halt.reason = .badTree (.duplicate i)

namespace Frontier

variable {s : PassState} {done : List Nat} {ahead : List Node}

theorem inOrder (F : Frontier s done ahead) : InOrder s where
  fresh := TreeIndex.ofTree_eq_ok_iff.mpr ⟨F.nodup, F.index_eq⟩
  pending := by
    refine ⟨ahead, F.pending_eq, fun n hn => ⟨F.find?_eq hn, F.mem n hn⟩, ?_⟩
    have h := F.nodup
    rw [F.ids_eq, List.nodup_append, List.nodup_flatMap] at h
    refine h.2.1.2.imp ?_
    intro a b hdisjoint
    refine ⟨?_, ?_, ?_⟩
    · intro heq
      exact hdisjoint a.id_mem_ids (heq ▸ b.id_mem_ids)
    · intro hmem
      refine hdisjoint a.id_mem_ids ?_
      rw [Node.ids, Node.preorder_eq]
      exact List.mem_map_of_mem (List.mem_cons_of_mem _ hmem)
    · intro hmem
      refine hdisjoint ?_ b.id_mem_ids
      rw [Node.ids, Node.preorder_eq]
      exact List.mem_map_of_mem (List.mem_cons_of_mem _ hmem)

/-- A visit moves the frontier or is halted in order. -/
theorem step_cases {rules : List Rule} {oracle : Oracle} {pass : Nat}
    (hrules : ∀ rule ∈ rules, rule.Answers) (F : Frontier s done ahead)
    (hpending : s.pending ≠ []) :
    (∃ s' done' ahead', s.step rules oracle pass = .ok s' ∧ Frontier s' done' ahead') ∨
      ∃ halt, s.step rules oracle pass = .error halt ∧ HaltsInOrder s halt := by
  cases ahead with
  | nil => exact absurd F.pending_eq hpending
  | cons n ahead =>
    by_cases hoffered : n.id ∈ s.offered
    · exact .inl ⟨_, _, _, F.step_of_offered hoffered, F.descend rfl rfl rfl⟩
    · obtain ⟨found, hfound⟩ :
          ∃ found, offer ⟨⟨s.tree, s.index⟩, oracle, pass⟩ n s.stats s.next rules = found :=
        ⟨_, rfl⟩
      obtain ⟨edit, hanswer⟩ :=
        offer_answers hrules F.nodup (F.mem n List.mem_cons_self) oracle pass s.stats s.next
      rw [Node.indexed, ← F.index_eq, hfound] at hanswer
      by_cases hedit : edit = .keep
      · subst hedit
        exact .inl ⟨_, _, _, F.step_of_keep hoffered hfound hanswer, F.descend rfl rfl rfl⟩
      · rw [F.step_of_edit hoffered hfound hanswer hedit]
        rcases F.carryOut_cases hedit found with ⟨e, -, hrefusal, h⟩ |
          ⟨tree, i, happly, hrepeated, hbrought, h⟩ | ⟨tree, s', -, -, h, F'⟩
        · exact .inr ⟨_, h, .inl ⟨e, hrefusal, rfl, rfl, F.nodup⟩⟩
        · refine .inr ⟨_, h, .inr ⟨edit, n.id, i, ?_, happly, hbrought, hrepeated, rfl⟩⟩
          simp [F.pending_eq]
        · exact .inl ⟨s', _, _, h, F'⟩

/-- Every state that a pass reaches has a frontier. -/
theorem of_reaches {rules : List Rule} {oracle : Oracle} {pass : Nat} {s' : PassState}
    (hrules : ∀ rule ∈ rules, rule.Answers) (F : Frontier s done ahead)
    (h : Reaches rules oracle pass s s') : ∃ done' ahead', Frontier s' done' ahead' := by
  refine h.keeps (P := fun s => ∃ done ahead, Frontier s done ahead) ?_ ⟨done, ahead, F⟩
  rintro a b ⟨done, ahead, F⟩ ⟨hpending, hstep⟩
  rcases F.step_cases hrules hpending with ⟨b', done', ahead', heq, F'⟩ | ⟨halt, heq, -⟩
  · obtain rfl := Except.ok.inj (hstep.symm.trans heq)
    exact ⟨done', ahead', F'⟩
  · exact absurd (hstep.symm.trans heq) (by simp)

end Frontier

end PassState

namespace Engine

/-- Every visit of a pass begins in order, whatever the rules answer, and a pass that fails was
halted in order or has made all the visits that it may make. -/
theorem pass_in_order (e : Engine) (hrules : ∀ rule ∈ e.rules, rule.Answers) (w : Workspace)
    (hnodup : w.tree.ids.Nodup) (number : Nat) :
    ∃ index, TreeIndex.ofTree w.tree = .ok index ∧
      (∀ s, (PassState.start w.tree index w.next w.stats).Reaches e.rules e.oracle number s →
        s.InOrder) ∧
      ∀ w' reason, e.pass number w = (w', .error reason) →
        ∃ s, (PassState.start w.tree index w.next w.stats).Reaches e.rules e.oracle number s ∧
          s.pending ≠ [] ∧
          ((∃ halt, s.step e.rules e.oracle number = .error halt ∧ s.HaltsInOrder halt ∧
              halt.reason = reason ∧ halt.state.tree = w'.tree) ∨
            reason = .tooManyVisits s.visits ∧ s.visits = e.visitLimit w.tree ∧
              w'.tree = s.tree) := by
  refine ⟨.of w.tree, TreeIndex.ofTree_of_nodup hnodup, ?_, ?_⟩
  · intro s hs
    obtain ⟨done, ahead, F⟩ := (PassState.Frontier.start hnodup w.next w.stats).of_reaches hrules hs
    exact F.inOrder
  · intro w' reason hpass
    rw [pass, TreeIndex.ofTree_of_nodup hnodup] at hpass
    dsimp only at hpass
    split at hpass
    · rename_i cause stopped hrun
      obtain ⟨rfl, rfl⟩ : (⟨stopped.tree, stopped.next, stopped.stats⟩ : Workspace) = w' ∧
        cause = reason := by simpa using hpass
      obtain ⟨s, hs, hpending, hcases⟩ := PassState.reaches_of_run_eq_error hrun
      refine ⟨s, hs, hpending, ?_⟩
      obtain ⟨done, ahead, F⟩ :=
        (PassState.Frontier.start hnodup w.next w.stats).of_reaches hrules hs
      rcases hcases with hstep | ⟨hlimit, hvisits⟩
      · rcases F.step_cases hrules hpending with ⟨_, _, _, hok, -⟩ | ⟨halt, herror, hhalts⟩
        · exact absurd (hstep.symm.trans hok) (by simp)
        · obtain rfl := Except.error.inj (hstep.symm.trans herror)
          exact .inl ⟨_, hstep, hhalts, rfl, rfl⟩
      · obtain ⟨rfl, rfl⟩ := Halt.mk.inj hlimit
        exact .inr ⟨rfl, by simpa [PassState.start] using hvisits, rfl⟩
    · exact absurd hpass (by simp)

/-- An engine with one rule, which asks for every `echo` twice. -/
def doubling : Engine where
  rules :=
    [⟨"Double", "Repeats what is printed", [.echo], fun _ n next => .ok (.splice [n, n], next)⟩]
  oracle := .declared
  maxPasses := 1
  visitLimit := Node.size

/-- A page that prints once. -/
def page : Workspace := doubling.workspace ⟨0, .none, .file [⟨1, .none, .echo []⟩]⟩ 2

theorem pass_in_order_doubling :
    (doubling.pass 1 page).2 = .error (.badTree (.duplicate 1)) ∧
    ∃ (s : PassState) (halt : Halt), s.InOrder ∧ s.step doubling.rules .declared 1 = .error halt ∧
      s.HaltsInOrder halt ∧ halt.reason = .badTree (.duplicate 1) := by
  have hanswers : ∀ rule ∈ doubling.rules, rule.Answers := by
    intro rule hrule root oracle pass _ n _ next
    rw [List.mem_singleton.mp hrule]
    exact ⟨_, rfl⟩
  have hnodup : page.tree.ids.Nodup := by decide +kernel
  have hpass : (doubling.pass 1 page).2 = .error (.badTree (.duplicate 1)) := by
    decide +kernel
  obtain ⟨index, -, horder, hfails⟩ := pass_in_order doubling hanswers page hnodup 1
  obtain ⟨s, hs, -, ⟨halt, hstep, hhalts, hreason, -⟩ | ⟨hlimit, -⟩⟩ :=
    hfails (doubling.pass 1 page).1 _ (Prod.ext rfl hpass)
  · exact ⟨hpass, s, halt, horder s hs, hstep, hhalts, hreason⟩
  · exact absurd hlimit (by simp)

end Engine

end PhpRefactor
