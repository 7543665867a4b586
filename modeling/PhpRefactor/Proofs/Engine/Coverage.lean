import PhpRefactor.Engine.Basic
import PhpRefactor.Proofs.Engine.Frontier

/-!
# A pass covers the tree, in order and once

A pass goes through a list of pending identities while the rules take nodes out of the tree and
bring others in.  What it visits is written down here (`Engine.log`), each visit with the answer of
the rules, and compared with the tree that is there in the end.  If the nodes that were taken out
are left out, and a node that was exchanged stands for the one that came in its place, the visits
are the listing of that tree in pre-order (`Engine.pass_covers_tree`), whatever the rules answer.

A visited node need not be in the tree in the end as it was: the nodes below it may have changed
since.  Its identity, its position and its kind have not (`Node.label`).
-/

set_option autoImplicit false

namespace PhpRefactor

/-- What a node keeps when the nodes below it change. -/
def Node.label (n : Node) : Nat × Span × Kind := (n.id, n.span, n.kind)

theorem Node.label_grafted (i : Nat) (xs : List Node) (n : Node) :
    (n.grafted i xs).label = n.label := by
  simp [label, grafted, kind]

theorem Node.id_eq_of_label_eq (p q : Node) (h : p.label = q.label) : p.id = q.id :=
  congrArg Prod.fst h

/-- A visit of a node, and what the rules answered if the node was offered to them. -/
structure Visit where
  node : Node
  answer : Option Edit

namespace Visit

/-- The visited node, or the node that came in its place; none if the node was taken out. -/
def standing (v : Visit) : List Node :=
  match v.answer with
  | none | some .keep => [v.node]
  | some (.replace x) => [x]
  | some (.splice _) | some .remove => []

/-- The node was offered to the rules. -/
def isOffer (v : Visit) : Bool := v.answer.isSome

/-- The rules took the node out: statements came in its place, or nothing. -/
def takesOut (v : Visit) : Bool :=
  match v.answer with
  | some (.splice _) | some .remove => true
  | _ => false

theorem length_standing_add (v : Visit) :
    v.standing.length + ([v].filter takesOut).length = 1 := by
  obtain ⟨n, answer⟩ := v
  cases answer with
  | none => rfl
  | some edit => cases edit <;> rfl

/-- Every visit has left a node in the tree or taken one out. -/
theorem length_flatMap_standing_add (log : List Visit) :
    (log.flatMap standing).length + (log.filter takesOut).length = log.length := by
  induction log with
  | nil => rfl
  | cons v log ih =>
    have hv := v.length_standing_add
    rw [← List.singleton_append, List.filter_append, List.flatMap_append, List.flatMap_singleton,
      List.length_append, List.length_append, List.length_append, List.length_singleton]
    omega

end Visit

theorem Edit.flatMap_puts {edit : Edit} (hedit : edit ≠ .keep) (n : Node) :
    edit.puts.flatMap Node.preorder =
      Visit.standing ⟨n, some edit⟩ ++ edit.incoming.flatMap Node.preorder := by
  cases edit with
  | keep => exact absurd rfl hedit
  | replace x => simp [puts, Visit.standing, incoming, Node.preorder_eq x]
  | _ => simp [puts, Visit.standing, incoming]

theorem Edit.passed_eq {edit : Edit} (hedit : edit ≠ .keep) (n : Node) :
    edit.passed = (Visit.standing ⟨n, some edit⟩).map (·.id) := by
  cases edit with
  | keep => exact absurd rfl hedit
  | _ => rfl

namespace PassState

/-- The node whose turn it is. -/
def upNext? (s : PassState) : Option Node := s.pending.head?.bind fun i => s.index.find? s.tree i

/-- What the rules answer when a node is offered to them, which is not done a second time. -/
def answerTo (rules : List Rule) (oracle : Oracle) (pass : Nat) (s : PassState) (n : Node) :
    Option Edit :=
  if n.id ∈ s.offered then none
  else (offer ⟨⟨s.tree, s.index⟩, oracle, pass⟩ n s.stats s.next rules).answer.toOption

/-- The visits of a run that is as long as `run`.  A visit that fails is not written down. -/
def log (rules : List Rule) (oracle : Oracle) (pass : Nat) : Nat → PassState → List Visit
  | 0, _ => []
  | visits + 1, s =>
    match s.upNext?, s.step rules oracle pass with
    | some n, .ok s' => ⟨n, s.answerTo rules oracle pass n⟩ :: s'.log rules oracle pass visits
    | _, _ => []

theorem log_of_pending_eq_nil {rules : List Rule} {oracle : Oracle} {pass : Nat} {s : PassState}
    {visits : Nat} (h : s.pending = []) : s.log rules oracle pass visits = [] := by
  cases visits with
  | zero => rfl
  | succ visits =>
    rw [log, upNext?, h]
    rfl

/-- The visits that were made have left in the tree, in pre-order, what comes before the pending
subtrees. -/
structure Covers (s : PassState) (log : List Visit) (ahead : List Node) : Prop extends
    Frontier s ((log.flatMap Visit.standing).map (·.id)) ahead where
  labels_eq : s.tree.preorder.map Node.label =
    (log.flatMap Visit.standing).map Node.label ++ (ahead.flatMap Node.preorder).map Node.label
  offered_eq : s.offered = ((log.filter Visit.isOffer).map (·.node.id)).reverse
  offered_nodup : s.offered.Nodup
  visits_eq : s.visits = log.length

variable {rules : List Rule} {oracle : Oracle} {pass : Nat} {s s' : PassState} {log : List Visit}
  {n : Node} {ahead : List Node}

/-- An edit of the node whose turn it is changes the listing in its place. -/
theorem Frontier.labels_apply {done : List Nat} (F : Frontier s done (n :: ahead)) {edit : Edit}
    (hedit : edit ≠ .keep) {tree : Node} (happly : edit.apply s.index s.tree n.id = .ok tree)
    {before : List (Nat × Span × Kind)}
    (heq : s.tree.preorder.map Node.label =
      before ++ ((n :: ahead).flatMap Node.preorder).map Node.label) :
    tree.preorder.map Node.label = before ++ (edit.puts.flatMap Node.preorder).map Node.label ++
      (ahead.flatMap Node.preorder).map Node.label := by
  obtain ⟨around, hn⟩ := Node.mem_preorder_iff.mp (F.mem n List.mem_cons_self)
  rw [F.index_eq] at happly
  cases around with
  | nil =>
    obtain ⟨-, rfl⟩ | ⟨c, hc, above, habove, -⟩ := hn.eq_root_or_below
    · obtain ⟨-, rfl⟩ := F.eq_nil_of_root rfl
      have hbefore : before = [] := by
        rw [List.flatMap_singleton] at heq
        exact List.append_left_eq_self.mp heq.symm
      rcases Edit.apply_root hedit F.nodup with ⟨e, herror, -⟩ | ⟨x, rfl, hroot⟩
      · exact absurd (happly.symm.trans herror) (by simp)
      · obtain rfl := Except.ok.inj (happly.symm.trans hroot)
        simp [hbefore, Edit.puts]
    · exact absurd habove (by simp)
  | cons m around =>
    rcases Edit.apply_of_occurs hedit F.nodup hn with ⟨e, herror, -⟩ | ⟨hok, site, -⟩
    · exact absurd (happly.symm.trans herror) (by simp)
    · obtain rfl := Except.ok.inj (happly.symm.trans hok)
      exact F.map_preorder_grafted site (Node.label_grafted n.id edit.puts) Node.id_eq_of_label_eq
        heq

namespace Covers

theorem start {tree : Node} (h : tree.ids.Nodup) (next : Nat) (stats : Stats) :
    Covers (.start tree (.of tree) next stats) [] [tree] where
  toFrontier := .start h next stats
  labels_eq := by simp [PassState.start]
  offered_eq := rfl
  offered_nodup := List.nodup_nil
  visits_eq := rfl

theorem eq_nil_of_pending (C : Covers s log ahead) (h : s.pending = []) : ahead = [] :=
  List.map_eq_nil_iff.mp (C.pending_eq.symm.trans h)

theorem upNext?_eq (C : Covers s log (n :: ahead)) : s.upNext? = some n := by
  rw [upNext?, C.pending_eq]
  exact C.find?_eq List.mem_cons_self

/-- Walking on to the children of a node that stays. -/
theorem descend (C : Covers s log (n :: ahead)) {v : Visit} (hv : v.standing = [n])
    (htree : s'.tree = s.tree) (hindex : s'.index = s.index)
    (hpending : s'.pending = n.children.map (·.id) ++ ahead.map (·.id))
    (hvisits : s'.visits = s.visits + 1)
    (hoffered : s'.offered = (if v.isOffer then [v.node.id] else []) ++ s.offered)
    (hnew : s'.offered.Nodup) : Covers s' (log ++ [v]) (n.children ++ ahead) where
  toFrontier := by
    have F := C.toFrontier.descend htree hindex hpending
    rw [List.flatMap_append, List.flatMap_singleton, hv, List.map_append]
    exact F
  labels_eq := by
    rw [htree, C.labels_eq, List.flatMap_cons, Node.preorder_eq, List.flatMap_append,
      List.flatMap_append, List.flatMap_singleton, hv]
    simp
  offered_eq := by
    rw [hoffered, C.offered_eq, List.filter_append, List.map_append, List.reverse_append]
    cases h : v.isOffer <;> simp [h]
  offered_nodup := hnew
  visits_eq := by
    rw [hvisits, C.visits_eq, List.length_append, List.length_singleton]

/-- Walking on to what an edit brought in. -/
theorem edited (C : Covers s log (n :: ahead)) {edit : Edit} (hedit : edit ≠ .keep) {tree : Node}
    (happly : edit.apply s.index s.tree n.id = .ok tree) {v : Visit} (hv : v = ⟨n, some edit⟩)
    {found : Offer}
    (hs' : s' = { s.asked n (ahead.map (·.id)) found with
      tree, index := .of tree, edits := s.edits + 1
      pending := edit.arrivals ++ ahead.map (·.id) })
    (F : Frontier s' ((log.flatMap Visit.standing).map (·.id) ++ edit.passed)
      (edit.incoming ++ ahead))
    (hnew : n.id ∉ s.offered) : Covers s' (log ++ [v]) (edit.incoming ++ ahead) where
  toFrontier := by
    rw [List.flatMap_append, List.flatMap_singleton, hv, List.map_append, ← edit.passed_eq hedit]
    exact F
  labels_eq := by
    have heq := C.toFrontier.labels_apply hedit happly C.labels_eq
    rw [edit.flatMap_puts hedit n] at heq
    rw [hs', hv]
    simpa using heq
  offered_eq := by
    rw [hs', hv, List.filter_append, List.map_append, List.reverse_append, ← C.offered_eq]
    rfl
  offered_nodup := by
    rw [hs']
    exact List.nodup_cons.mpr ⟨hnew, C.offered_nodup⟩
  visits_eq := by
    rw [hs', List.length_append, ← C.visits_eq]
    rfl

/-- A visit that does not fail adds itself to the log. -/
theorem visit (C : Covers s log ahead) (h : Steps rules oracle pass s s') :
    ∃ n ahead', s.upNext? = some n ∧
      Covers s' (log ++ [⟨n, s.answerTo rules oracle pass n⟩]) ahead' := by
  obtain ⟨hpending, hstep⟩ := h
  cases ahead with
  | nil => exact absurd C.pending_eq hpending
  | cons n ahead =>
    by_cases hoffered : n.id ∈ s.offered
    · rw [C.step_of_offered hoffered] at hstep
      obtain rfl := Except.ok.inj hstep
      refine ⟨n, n.children ++ ahead, C.upNext?_eq, ?_⟩
      rw [answerTo, if_pos hoffered]
      exact C.descend rfl rfl rfl rfl rfl rfl C.offered_nodup
    · obtain ⟨found, hfound⟩ :
          ∃ found, offer ⟨⟨s.tree, s.index⟩, oracle, pass⟩ n s.stats s.next rules = found :=
        ⟨_, rfl⟩
      cases hanswer : found.answer with
      | error e =>
        rw [C.step_of_error hoffered hfound hanswer] at hstep
        exact absurd hstep (by simp)
      | ok edit =>
        have hanswerTo : s.answerTo rules oracle pass n = some edit := by
          rw [answerTo, if_neg hoffered, hfound, hanswer]
          rfl
        refine ⟨n, ?_⟩
        rw [hanswerTo]
        by_cases hedit : edit = .keep
        · subst hedit
          rw [C.step_of_keep hoffered hfound hanswer] at hstep
          obtain rfl := Except.ok.inj hstep
          refine ⟨n.children ++ ahead, C.upNext?_eq, ?_⟩
          exact C.descend rfl rfl rfl rfl rfl rfl
            (List.nodup_cons.mpr ⟨hoffered, C.offered_nodup⟩)
        · rw [C.step_of_edit hoffered hfound hanswer hedit] at hstep
          rcases C.carryOut_cases hedit found with
            ⟨e, -, -, herror⟩ | ⟨tree, i, -, -, -, herror⟩ | ⟨tree, next, happly, hnext, hok, F⟩
          · exact absurd (hstep.symm.trans herror) (by simp)
          · exact absurd (hstep.symm.trans herror) (by simp)
          · obtain rfl := Except.ok.inj (hstep.symm.trans hok)
            exact ⟨_, C.upNext?_eq, C.edited hedit happly rfl hnext F hoffered⟩

/-- A run that ends has visited all there is. -/
theorem run {limit : Nat} (C : Covers s log ahead) (h : Ends rules oracle pass s limit s') :
    Covers s' (log ++ s.log rules oracle pass limit) [] := by
  induction h generalizing log ahead with
  | done limit hpending =>
    rw [log_of_pending_eq_nil hpending, List.append_nil]
    exact C.eq_nil_of_pending hpending ▸ C
  | @visit s next s' limit hstep _ ih =>
    obtain ⟨n, ahead', hnext, C'⟩ := C.visit hstep
    have hlog : s.log rules oracle pass (limit + 1) =
        ⟨n, s.answerTo rules oracle pass n⟩ :: next.log rules oracle pass limit := by
      rw [PassState.log, hnext, hstep.2]
    rw [hlog, List.append_cons]
    exact ih C'

end Covers

end PassState

namespace Engine

/-- The visits of a pass, in the order in which they are made. -/
def log (e : Engine) (number : Nat) (w : Workspace) : List Visit :=
  match TreeIndex.ofTree w.tree with
  | .error _ => []
  | .ok index =>
    (PassState.start w.tree index w.next w.stats).log e.rules e.oracle number (e.visitLimit w.tree)

/-- The visits of a pass that does not fail are, but for the nodes that were taken out, the final
tree in pre-order, and no node was offered to the rules twice. -/
theorem pass_covers_tree (e : Engine) (number : Nat) {w w' : Workspace} {counts : PassSummary}
    (hnodup : w.tree.ids.Nodup) (hpass : e.pass number w = (w', .ok counts)) :
    (e.log number w).length = counts.visits ∧
      ((e.log number w).flatMap Visit.standing).map Node.label =
        w'.tree.preorder.map Node.label ∧
      counts.visits = w'.tree.size + ((e.log number w).filter Visit.takesOut).length ∧
      (((e.log number w).filter Visit.isOffer).map (·.node.id)).Nodup := by
  rw [pass, TreeIndex.ofTree_of_nodup hnodup] at hpass
  dsimp only at hpass
  split at hpass
  · exact absurd hpass (by simp)
  · rename_i s hrun
    obtain ⟨rfl, rfl⟩ : (⟨s.tree, s.next, s.stats⟩ : Workspace) = w' ∧
      (⟨s.visits, s.edits⟩ : PassSummary) = counts := by simpa using hpass
    have C := (PassState.Covers.start hnodup w.next w.stats).run (PassState.run_eq_ok_iff.mp hrun)
    have hlog : e.log number w =
        (PassState.start w.tree (.of w.tree) w.next w.stats).log e.rules e.oracle number
          (e.visitLimit w.tree) := by
      rw [log, TreeIndex.ofTree_of_nodup hnodup]
    rw [List.nil_append, ← hlog] at C
    have hlabels : ((e.log number w).flatMap Visit.standing).map Node.label =
        s.tree.preorder.map Node.label := by
      rw [C.labels_eq, List.flatMap_nil, List.map_nil, List.append_nil]
    have hsize := congrArg List.length hlabels
    rw [List.length_map, List.length_map] at hsize
    refine ⟨C.visits_eq.symm, hlabels, ?_, ?_⟩
    · dsimp only
      rw [C.visits_eq, ← Visit.length_flatMap_standing_add, hsize, Node.size]
    · rw [← List.nodup_reverse, ← C.offered_eq]
      exact C.offered_nodup

/-- An engine that takes out what is printed, leaves the body of every `if`, and gives every
variable another name and identity. -/
def sweeping : Engine where
  rules := [
    ⟨"Drop", "Prints nothing", [.echo], fun _ _ next => .ok (.remove, next)⟩,
    ⟨"Open", "Leaves the body of an if", [.ifStmt], fun _ n next =>
      match n.form with
      | .ifStmt _ body _ _ => .ok (.splice body, next)
      | _ => .ok (.keep, next)⟩,
    ⟨"Rename", "Renames variables", [.var], fun _ n next =>
      .ok (.replace ⟨next, n.span, .var "x"⟩, next + 1)⟩]
  oracle := .declared
  maxPasses := 1
  visitLimit n := 2 * n.size

/-- A page with all that is swept. -/
def cluttered : Workspace :=
  sweeping.workspace
    ⟨0, .none, .file [
      ⟨1, .none, .echo []⟩,
      ⟨2, .none, .ifStmt ⟨3, .none, .var "a"⟩ [
        ⟨4, .none, .ifStmt ⟨5, .none, .var "b"⟩ [⟨6, .none, .echo []⟩] [] none⟩,
        ⟨7, .none, .exprStmt ⟨8, .none, .var "c"⟩⟩] [] none⟩]⟩ 9

theorem pass_covers_tree_cluttered :
    (sweeping.pass 1 cluttered).2 = .ok ⟨7, 5⟩ ∧
      ((sweeping.log 1 cluttered).flatMap Visit.standing).map Node.label =
        (sweeping.pass 1 cluttered).1.tree.preorder.map Node.label ∧
      (sweeping.pass 1 cluttered).1.tree.preorder.map Node.label =
        [(0, .none, .file), (7, .none, .exprStmt), (9, .none, .var)] ∧
      7 = (sweeping.pass 1 cluttered).1.tree.size + 4 ∧
      (((sweeping.log 1 cluttered).filter Visit.isOffer).map (·.node.id)).Nodup := by
  have hnodup : cluttered.tree.ids.Nodup := by decide +kernel
  have hcounts : (sweeping.pass 1 cluttered).2 = .ok ⟨7, 5⟩ := by decide +kernel
  have hpass : sweeping.pass 1 cluttered = ((sweeping.pass 1 cluttered).1, .ok ⟨7, 5⟩) :=
    Prod.ext rfl hcounts
  have hout : ((sweeping.log 1 cluttered).filter Visit.takesOut).length = 4 := by decide +kernel
  obtain ⟨-, hlabels, hvisits, honce⟩ := pass_covers_tree sweeping 1 hnodup hpass
  rw [hout] at hvisits
  exact ⟨hcounts, hlabels, by decide +kernel, hvisits, honce⟩

end Engine

end PhpRefactor
