import PhpRefactor.Proofs.Engine.Course
import PhpRefactor.Proofs.Engine.Renumbering
import PhpRefactor.Proofs.Rule.Outermost
import Mathlib.Algebra.Ring.Nat

/-!
# The statements of a file are rewritten one by one

A pass over a file is, one after the other, a pass over each of its statements.  While it is in one
of them a pass over a file of this statement alone goes on beside it (`PassState.Beside`): the same
node is next in both, it is offered with the same answer because a rule does not see the file
(`RuleConfig.answer_append_file`), and the edit is made in the statement or refused in both
(`PassState.Beside.step`).  So the pass comes to the end of the statement, or fails there, as the
pass over the statement alone does (`Config.pass_statement`).

A pass does not see numbers either (`Config.pass_alike`), so the statement alone may be numbered in
any way.
-/

set_option autoImplicit false

namespace PhpRefactor

theorem Node.children_of_file {n : Node} {stmts : List Node} (h : n.form = .file stmts) :
    n.children = stmts := by
  simp [children, Form.children, h, Form.segments, Segment.toList]

/-- A file without one of its statements. -/
structure FileFrame where
  id : Nat
  span : Span
  /-- The statements before the one that is missing. -/
  pre : List Node
  /-- The statements after it. -/
  post : List Node

namespace FileFrame

/-- The file with the missing statement. -/
def whole (f : FileFrame) (x : Node) : Node := ⟨f.id, f.span, .file (f.pre ++ x :: f.post)⟩

/-- The file without its other statements. -/
def bared (f : FileFrame) : FileFrame := { f with pre := [], post := [] }

variable (f : FileFrame) (x : Node)

theorem ids_whole : (f.whole x).ids = f.id :: (f.pre ++ x :: f.post).flatMap Node.ids := by
  have hchildren : (f.whole x).children = f.pre ++ x :: f.post := Node.children_of_file rfl
  rw [Node.ids_eq, hchildren]
  rfl

@[simp] theorem kind_whole : (f.whole x).kind = .file := rfl

theorem children_whole_bared : (f.bared.whole x).children = [x] := rfl

theorem ids_bared_sublist : (f.bared.whole x).ids.Sublist (f.whole x).ids := by
  rw [ids_whole, ids_whole]
  refine List.Sublist.cons_cons _ ?_
  rw [List.flatMap_append, List.flatMap_cons]
  simp [bared]

end FileFrame

namespace Node

variable {x n : Node} {above : List Node}

/-- What stands in a statement of a file stands in the file. -/
theorem Occurs.of_file (h : x.Occurs above n) (f : FileFrame) :
    Occurs (f.whole x) (above ++ [f.whole x]) n := by
  have hchildren : (f.whole x).children = f.pre ++ x :: f.post := children_of_file rfl
  refine (Occurs.root.child ?_).trans h
  rw [hchildren]
  exact List.mem_append_right _ List.mem_cons_self

/-- A graft within a statement of a file leaves the other statements. -/
theorem grafted_file {f : FileFrame} (hnodup : (f.whole x).ids.Nodup) (hn : n.id ∈ x.ids)
    (hne : x.id ≠ n.id) (xs : List Node) :
    (f.whole x).grafted n.id xs = f.whole (x.grafted n.id xs) := by
  have hother : ∀ ys : List Node, (∀ y ∈ ys, n.id ∉ y.ids) →
      (ys.map (graft n.id xs)).flatten = ys := by
    intro ys hys
    have hgraft : ys.map (graft n.id xs) = ys.map fun y => [y] :=
      List.map_congr_left fun y hy => graft_of_notMem (hys y hy)
    rw [hgraft, flatten_map_singleton, List.map_id']
  have hids : ((f.pre ++ x :: f.post).flatMap ids).Nodup := by
    rw [f.ids_whole, List.nodup_cons] at hnodup
    exact hnodup.2
  rw [List.flatMap_append, List.flatMap_cons, List.nodup_append, List.nodup_append] at hids
  obtain ⟨-, ⟨-, -, hpost⟩, hpre⟩ := hids
  have hbefore := hother f.pre fun y hy hmem =>
    hpre n.id (List.mem_flatMap_of_mem hy hmem) n.id (List.mem_append_left _ hn) rfl
  have hafter := hother f.post fun y hy hmem =>
    hpost n.id hn n.id (List.mem_flatMap_of_mem hy hmem) rfl
  have hform : ((Form.file (f.pre ++ x :: f.post)).map (graft n.id xs)).join =
      .file (f.pre ++ x.grafted n.id xs :: f.post) := by
    simp only [Form.map, Form.join, List.map_append, List.map_cons, List.flatten_append,
      List.flatten_cons, hbefore, hafter, graft_of_id_ne hne, List.singleton_append]
  rw [FileFrame.whole, grafted, hform]
  rfl

/-- What is a file with one statement, but for numbers and positions, is a file with one
statement. -/
theorem exists_of_bare_eq_file {b : Node} (n : Node) (h : n.bare = ⟨0, .none, .file [b]⟩) :
    ∃ y, n = ⟨n.id, n.span, .file [y]⟩ ∧ y.bare = b := by
  obtain ⟨id, span, form⟩ := n
  rw [bare_eq] at h
  have hform : form.map bare = .file [b] := congrArg Node.form h
  cases form with
  | file stmts =>
    obtain ⟨y, rfl, hy⟩ := List.map_eq_singleton_iff.mp (Form.file.inj hform)
    exact ⟨y, rfl, hy⟩
  | _ => exact nomatch hform

end Node

namespace PassState

variable {f : FileFrame} {visits edits : Nat} {s t t' : PassState} {n : Node} {ahead : List Node}

/-- A pass over a file is in one of its statements, and a pass over a file that has this statement
only is at the same node of it.  The first has made so many visits and edits more. -/
structure Beside (f : FileFrame) (visits edits : Nat) (s t : PassState) (ahead : List Node) :
    Prop where
  whole : ∃ done, s.Supplied done (ahead ++ f.post)
  alone : ∃ done, t.Supplied (f.id :: done) ahead
  trees : ∃ x, s.tree = f.whole x ∧ t.tree = f.bared.whole x
  next_eq : s.next = t.next
  visits_eq : s.visits = visits + t.visits
  edits_eq : s.edits = edits + t.edits

namespace Beside

/-- The node that is next stands in the statement. -/
theorem exists_occurs (B : Beside f visits edits s t (n :: ahead)) :
    ∃ x above, s.tree = f.whole x ∧ t.tree = f.bared.whole x ∧ x.Occurs above n := by
  obtain ⟨x, hs, ht⟩ := B.trees
  obtain ⟨done, T⟩ := B.alone
  obtain ⟨around, hn⟩ := Node.mem_preorder_iff.mp (T.mem n List.mem_cons_self)
  rcases hn.eq_root_or_below with ⟨-, hroot⟩ | ⟨c, hc, above, -, hbelow⟩
  · -- The file itself was visited.
    have hid : n.id = f.id := by rw [hroot, ht]; rfl
    have hnodup := T.nodup
    rw [T.ids_eq, List.cons_append, List.nodup_cons, List.flatMap_cons, ← hid] at hnodup
    exact absurd (List.mem_append_right _ (List.mem_append_left _ n.id_mem_ids)) hnodup.1
  · rw [ht, f.children_whole_bared, List.mem_singleton] at hc
    exact ⟨x, above, hs, ht, hc ▸ hbelow⟩

variable (rules : List RuleConfig) (pass pass' : Nat)

/-- Both passes offer the same node and get the same answer.  If it is an edit the node stands below
the statement. -/
theorem offers (B : Beside f visits edits s t (n :: ahead)) :
    ∃ x above stats stats' after edit,
      s.tree = f.whole x ∧ t.tree = f.bared.whole x ∧ x.Occurs above n ∧
      (edit ≠ .keep → ∃ m outer, above = m :: outer) ∧
      offer ⟨⟨s.tree, s.index⟩, .declared, pass⟩ n s.stats s.next (rules.map RuleConfig.rule) =
        ⟨stats, after, .ok edit⟩ ∧
      offer ⟨⟨t.tree, t.index⟩, .declared, pass'⟩ n t.stats t.next (rules.map RuleConfig.rule) =
        ⟨stats', after, .ok edit⟩ := by
  obtain ⟨x, above, hs, ht, hn⟩ := B.exists_occurs
  obtain ⟨done, S⟩ := B.whole
  obtain ⟨done', T⟩ := B.alone
  have hwhole : s.tree.Occurs (above ++ [s.tree]) n := hs ▸ hn.of_file f
  have halone : t.tree.Occurs (above ++ [t.tree]) n := ht ▸ hn.of_file f.bared
  have hfile : s.tree.kind = .file := by rw [hs, f.kind_whole]
  have hfile' : t.tree.kind = .file := by rw [ht, FileFrame.kind_whole]
  have happly : ∀ rule ∈ rules.map RuleConfig.rule, ∀ next,
      rule.apply ⟨s.tree.indexed, .declared, pass⟩ n next =
        rule.apply ⟨t.tree.indexed, .declared, pass'⟩ n next := by
    intro rule hrule next
    obtain ⟨rule, -, rfl⟩ := List.mem_map.mp hrule
    rw [rule.apply_of_occurs S.nodup hwhole, rule.apply_of_occurs T.nodup halone,
      rule.answer_append_file hfile, rule.answer_append_file hfile']
  have hcongr := offer_congr happly s.stats t.stats s.next
  obtain ⟨stats, after, edit, hoffer, hdecision⟩ :=
    offer_decision S.nodup hwhole pass rules s.stats s.next
  obtain ⟨stats', after', edit', hoffer', -⟩ :=
    offer_decision T.nodup halone pass' rules t.stats t.next
  rw [hoffer, B.next_eq, hoffer'] at hcongr
  obtain rfl : edit = edit' := Except.ok.inj hcongr.1
  obtain rfl : after = after' := hcongr.2
  rw [Node.indexed, ← S.index_eq] at hoffer
  rw [Node.indexed, ← T.index_eq] at hoffer'
  refine ⟨x, above, stats, stats', after, edit, hs, ht, hn, fun hedit => ?_, hoffer, hoffer'⟩
  obtain ⟨rule, -, hwants⟩ := hdecision.exists_wants hedit
  exact ((rule.wants_append_file_iff hfile above n).mp hwants).exists_parent

/-- A visit leaves the two passes beside each other, or both fail. -/
theorem step (B : Beside f visits edits s t (n :: ahead)) :
    (∃ s' t' ahead', s.step (rules.map RuleConfig.rule) .declared pass = .ok s' ∧
      t.step (rules.map RuleConfig.rule) .declared pass' = .ok t' ∧
      Beside f visits edits s' t' ahead') ∨
    ∃ halt halt', s.step (rules.map RuleConfig.rule) .declared pass = .error halt ∧
      t.step (rules.map RuleConfig.rule) .declared pass' = .error halt' := by
  obtain ⟨x, above, stats, stats', after, edit, hs, ht, hn, hparent, hoffer, hoffer'⟩ :=
    B.offers rules pass pass'
  obtain ⟨done, S⟩ := B.whole
  obtain ⟨done', T⟩ := B.alone
  rw [List.cons_append] at S
  have hvisits := B.visits_eq
  have hedits := B.edits_eq
  by_cases hedit : edit = .keep
  · -- The node is kept, and both walks go on below it.
    subst hedit
    have hstep := S.step_of_keep S.id_notMem_offered hoffer rfl
    have hstep' := T.step_of_keep T.id_notMem_offered hoffer' rfl
    have S' := S.of_step_eq_ok hstep (S.descend rfl rfl rfl)
    have T' := T.of_step_eq_ok hstep' (T.descend rfl rfl rfl)
    rw [← List.append_assoc] at S'
    refine .inl ⟨_, _, _, hstep, hstep', ⟨_, S'⟩, ⟨_, T'⟩, ⟨x, hs, ht⟩, rfl, ?_, hedits⟩
    exact (congrArg (· + 1) hvisits).trans (Nat.add_assoc _ _ _)
  · -- The parent of the node stands in the statement, and says what becomes of the edit.
    obtain ⟨m, outer, rfl⟩ := hparent hedit
    have hwhole : s.tree.Occurs (m :: (outer ++ [s.tree])) n := hs ▸ hn.of_file f
    have halone : t.tree.Occurs (m :: (outer ++ [t.tree])) n := ht ▸ hn.of_file f.bared
    cases hrefusal : edit.refusal? m n.id with
    | some e =>
      exact .inr ⟨_, _, S.step_of_refused hwhole hoffer rfl hedit hrefusal,
        T.step_of_refused halone hoffer' rfl hedit hrefusal⟩
    | none =>
      obtain ⟨s', hstep, hstree, hsnext, hsvisits, hsedits, S'⟩ :=
        S.step_of_admitted hwhole hoffer rfl hedit hrefusal
      obtain ⟨t', hstep', httree, htnext, htvisits, htedits, T'⟩ :=
        T.step_of_admitted halone hoffer' rfl hedit hrefusal
      have hx : x ∈ t.tree.children := by
        rw [ht, f.children_whole_bared]
        exact List.mem_singleton_self x
      have hne : x.id ≠ n.id := fun hid =>
        nomatch (Node.Occurs.root.unique (Node.nodup_of_mem_children T.nodup hx) hn hid).1
      rw [hs, Node.grafted_file (hs ▸ S.nodup) hn.id_mem hne] at hstree
      rw [ht, Node.grafted_file (ht ▸ T.nodup) hn.id_mem hne] at httree
      rw [← List.append_assoc] at S'
      rw [List.cons_append] at T'
      exact .inl ⟨s', t', _, hstep, hstep', ⟨_, S'⟩, ⟨_, T'⟩, ⟨_, hstree, httree⟩,
        hsnext.trans htnext.symm, by omega, by omega⟩

/-- As far as the pass over the statement alone comes, so far comes the pass over the file. -/
theorem follow (B : Beside f visits edits s t ahead)
    (h : t.Reaches (rules.map RuleConfig.rule) .declared pass' t') :
    ∃ s' ahead', s.Reaches (rules.map RuleConfig.rule) .declared pass s' ∧
      Beside f visits edits s' t' ahead' := by
  induction h with
  | refl => exact ⟨s, ahead, .refl, B⟩
  | @tail u t' _ hsteps ih =>
    obtain ⟨s', ahead', hreach, B'⟩ := ih
    obtain ⟨hpending, hstep⟩ := hsteps
    cases ahead' with
    | nil =>
      obtain ⟨done, T⟩ := B'.alone
      exact absurd T.pending_eq hpending
    | cons n ahead' =>
      obtain ⟨done, S⟩ := B'.whole
      have hturn : s'.pending ≠ [] := by
        rw [S.pending_eq]
        exact List.cons_ne_nil _ _
      rcases B'.step rules pass pass' with ⟨a, b, ahead'', ha, hb, B''⟩ | ⟨_, halt, -, hhalt⟩
      · obtain rfl := Except.ok.inj (hb.symm.trans hstep)
        exact ⟨a, ahead'', hreach.tail ⟨hturn, ha⟩, B''⟩
      · exact nomatch hhalt.symm.trans hstep

end Beside

/-- The root is kept, and its children are next. -/
theorem steps_of_begun (rules : List RuleConfig) (pass : Nat) {w : Workspace} (hw : w.Sound) :
    ∃ s, Steps (rules.map RuleConfig.rule) .declared pass w.begun s ∧
      s.Supplied [w.tree.id] w.tree.children ∧ s.tree = w.tree ∧ s.next = w.next ∧
      s.visits = 1 ∧ s.edits = 0 := by
  have S : w.begun.Supplied [] [w.tree] := .start hw.nodup hw.below w.stats
  have hpending : w.begun.pending ≠ [] := List.cons_ne_nil _ _
  rcases S.visit_cases .root rules pass with ⟨s, done, ahead, hstep, hmove, S'⟩ | ⟨halt, -, R⟩
  · have hsteps : Steps (rules.map RuleConfig.rule) .declared pass w.begun s := ⟨hpending, hstep⟩
    have hvisits := visits_of_steps hsteps
    cases hmove with
    | keep _ htree hedits hnext =>
      rw [List.append_nil] at S'
      exact ⟨s, hsteps, S', htree, hnext, hvisits, hedits⟩
    | unwrap _ _ haround => exact nomatch haround
    | lengthen _ _ haround => exact nomatch haround
  · obtain ⟨m, outer, hnil, -⟩ := R.place
    exact nomatch hnil

end PassState

namespace Config

variable (config : Config) {w v : Workspace} {f : FileFrame} {s : PassState} {done : List Nat}
  {x : Node}

/-- The file alone with the statement that a pass has come to can be worked on as well. -/
theorem sound_bared (S : s.Supplied done (x :: f.post)) (htree : s.tree = f.whole x)
    (stats : Stats) : (⟨f.bared.whole x, s.next, stats⟩ : Workspace).Sound where
  nodup := (f.ids_bared_sublist x).nodup (htree ▸ S.nodup)
  below i hi := S.below i (htree ▸ (f.ids_bared_sublist x).subset hi)

/-- A pass over a file alone with the statement that a pass over a file has come to goes on beside
it: both come to the end of the statement, or both fail. -/
theorem pass_beside (number number' : Nat) (hw : w.Sound) (stats : Stats)
    (hreach : w.begun.Reaches config.engine.rules .declared number s)
    (S : s.Supplied done (x :: f.post)) (htree : s.tree = f.whole x) (hvisits : 1 ≤ s.visits) :
    (∃ s' done' y v' counts, w.begun.Reaches config.engine.rules .declared number s' ∧
      s'.Supplied done' f.post ∧ s'.tree = f.whole y ∧
      config.engine.pass number' ⟨f.bared.whole x, s.next, stats⟩ = (v', .ok counts) ∧
      v'.tree = f.bared.whole y ∧ 1 ≤ counts.visits ∧
      s'.visits + 1 = s.visits + counts.visits ∧ s'.edits = s.edits + counts.edits) ∨
    ∃ w' v' e d, config.engine.pass number w = (w', .error e) ∧
      config.engine.pass number' ⟨f.bared.whole x, s.next, stats⟩ = (v', .error d) := by
  have hv : (⟨f.bared.whole x, s.next, stats⟩ : Workspace).Sound := sound_bared S htree stats
  obtain ⟨t, hfirst, T, httree, htnext, htvisits, htedits⟩ :=
    PassState.steps_of_begun config.rules number' hv
  have B : PassState.Beside f (s.visits - 1) s.edits s t [x] :=
    ⟨⟨done, S⟩, ⟨[], T⟩, ⟨x, htree, httree⟩, htnext.symm, by omega, by omega⟩
  rcases config.pass_course number' hv with
    ⟨t', ht', hpending, hpass⟩ | ⟨t', halt, ht', hpending, hstep, hpass⟩
  · -- Nobody is pending in the statement alone, so in the file the statements after it are next.
    have hway := ht'.of_steps hfirst (PassState.final_of_pending_eq_nil hpending)
    obtain ⟨s', ahead, hs', B'⟩ := B.follow config.rules number number' hway
    obtain ⟨done', S'⟩ := B'.whole
    obtain ⟨_, T'⟩ := B'.alone
    obtain ⟨y, hstree, ht'tree⟩ := B'.trees
    have hcount := B'.visits_eq
    have hgrown := hway.visits_le
    rw [T'.pending_eq, List.map_eq_nil_iff] at hpending
    subst hpending
    exact .inl ⟨s', done', y, _, _, hreach.trans hs', S', hstree, hpass, ht'tree,
      by dsimp only; omega, by dsimp only; omega, B'.edits_eq⟩
  · have hway := ht'.of_steps hfirst (PassState.final_of_step_eq_error hstep)
    obtain ⟨s', ahead, hs', B'⟩ := B.follow config.rules number number' hway
    cases ahead with
    | nil =>
      obtain ⟨_, T'⟩ := B'.alone
      exact absurd T'.pending_eq hpending
    | cons n ahead =>
      rcases B'.step config.rules number number' with ⟨_, t'', _, -, hok, -⟩ | ⟨stop, _, hstop, -⟩
      · exact nomatch hstep.symm.trans hok
      · exact .inr ⟨_, _, _, _, pass_of_reaches_halt hw (hreach.trans hs') hstop, hpass⟩

/-- What a pass over a file alone with a statement comes to: a file alone with this statement, but
for numbers and positions, and these counts. -/
def Rewrites (number : Nat) (v : Workspace) (result : Node × PassSummary) : Prop :=
  ∃ v' i span y, config.engine.pass number v = (v', .ok result.2) ∧
    v'.tree = ⟨i, span, .file [y]⟩ ∧ y.bare = result.1.bare ∧ 1 ≤ result.2.visits

/-- A file alone with the statement that a pass has come to, under any numbers: the pass comes to
the end of the statement and has done what a pass over the statement alone does, or both fail. -/
theorem pass_statement (number number' : Nat) (hw : w.Sound)
    (hreach : w.begun.Reaches config.engine.rules .declared number s)
    (S : s.Supplied done (x :: f.post)) (htree : s.tree = f.whole x) (hvisits : 1 ≤ s.visits)
    (hv : v.Sound) (hbare : v.tree.bare = ⟨0, .none, .file [x.bare]⟩) :
    (∃ s' done' y counts, w.begun.Reaches config.engine.rules .declared number s' ∧
      s'.Supplied done' f.post ∧ s'.tree = f.whole y ∧
      config.Rewrites number' v (y, counts) ∧
      s'.visits + 1 = s.visits + counts.visits ∧ s'.edits = s.edits + counts.edits) ∨
    ∃ w' v' e d, config.engine.pass number w = (w', .error e) ∧
      config.engine.pass number' v = (v', .error d) := by
  have halike : (⟨f.bared.whole x, s.next, v.stats⟩ : Workspace).Alike v := by
    refine ⟨?_, rfl⟩
    rw [hbare, Node.bare_eq]
    rfl
  rcases config.pass_alike number' (sound_bared S htree v.stats) hv halike with
    ⟨u', v', counts, hu, hpass, -, -, hsame⟩ | ⟨u', v', e, d, hu, hpass, -, -⟩
  · rcases config.pass_beside number number' hw v.stats hreach S htree hvisits with
      ⟨s', done', y, u'', counts', hs', S', hstree, hbeside, hutree, hcounts, hs'visits, hs'edits⟩ |
      ⟨_, _, _, _, -, hfail⟩
    · obtain ⟨rfl, hok⟩ := Prod.mk.inj (hbeside.symm.trans hu)
      obtain rfl := Except.ok.inj hok
      obtain ⟨z, hfile, hz⟩ := v'.tree.exists_of_bare_eq_file (b := y.bare) (by
        rw [← hsame.bare_eq, hutree, Node.bare_eq]
        rfl)
      exact .inl ⟨s', done', y, counts', hs', S', hstree, ⟨v', _, _, z, hpass, hfile, hz, hcounts⟩,
        hs'visits, hs'edits⟩
    · exact nomatch (Prod.mk.inj (hfail.symm.trans hu)).2
  · rcases config.pass_beside number number' hw v.stats hreach S htree hvisits with
      ⟨_, _, _, _, _, -, -, -, hok, -⟩ | ⟨w', _, e', _, hfail, -⟩
    · exact nomatch (Prod.mk.inj (hok.symm.trans hu)).2
    · exact .inr ⟨w', v', e', d, hfail, hpass⟩

/-- A pass that has come to some statements of a file comes to the end of all of them and has done
what passes over each of them alone do, or it fails, and so does a pass over one of them alone. -/
theorem pass_statements (number number' : Nat) (hw : w.Sound) (alone : Node → Workspace) {i : Nat}
    {span : Span} {post : List Node}
    (halone : ∀ x ∈ post, (alone x).Sound ∧ (alone x).tree.bare = ⟨0, .none, .file [x.bare]⟩) :
    ∀ {pre : List Node} {s : PassState} {done : List Nat},
      w.begun.Reaches config.engine.rules .declared number s → s.Supplied done post →
      s.tree = ⟨i, span, .file (pre ++ post)⟩ → 1 ≤ s.visits →
      (∃ w' counts results, config.engine.pass number w = (w', .ok counts) ∧
        w'.tree = ⟨i, span, .file (pre ++ results.map (·.1))⟩ ∧
        List.Forall₂ (fun x => config.Rewrites number' (alone x)) post results ∧
        counts.visits = s.visits + (results.map (·.2.visits - 1)).sum ∧
        counts.edits = s.edits + (results.map (·.2.edits)).sum) ∨
      ∃ w' e, config.engine.pass number w = (w', .error e) ∧
        ∃ x ∈ post, ∃ v' d, config.engine.pass number' (alone x) = (v', .error d) := by
  induction post with
  | nil =>
    intro pre s done hreach S htree _
    refine .inl ⟨_, _, [], pass_of_reaches hw hreach S.pending_eq, htree, .nil, ?_, ?_⟩
    · simp
    · simp
  | cons x post ih =>
    intro pre s done hreach S htree hvisits
    obtain ⟨hv, hbare⟩ := halone x List.mem_cons_self
    rcases config.pass_statement (f := ⟨i, span, pre, post⟩) number number' hw hreach S htree
        hvisits hv hbare with
      ⟨s', done', y, counts, hs', S', hstree, hrewrites, hs'visits, hs'edits⟩ |
      ⟨w', v', e, d, hpass, hfail⟩
    · have hcounts : 1 ≤ counts.visits := by
        obtain ⟨_, _, _, _, -, -, -, hcounts⟩ := hrewrites
        exact hcounts
      have hstree' : s'.tree = ⟨i, span, .file ((pre ++ [y]) ++ post)⟩ := by
        rw [hstree, FileFrame.whole, List.append_assoc]
        rfl
      rcases ih (fun z hz => halone z (List.mem_cons_of_mem _ hz)) hs' S' hstree' (by omega) with
        ⟨w', total, results, hpass, htree', hall, htotal, hedits⟩ | ⟨w', e, hpass, z, hz, hfail⟩
      · refine .inl ⟨w', total, (y, counts) :: results, hpass, ?_, .cons hrewrites hall, ?_, ?_⟩
        · rw [htree', List.append_assoc]
          rfl
        · rw [htotal, List.map_cons, List.sum_cons]
          dsimp only
          omega
        · rw [hedits, List.map_cons, List.sum_cons]
          dsimp only
          omega
      · exact .inr ⟨w', e, hpass, z, List.mem_cons_of_mem _ hz, hfail⟩
    · exact .inr ⟨w', e, hpass, x, List.mem_cons_self, v', d, hfail⟩

/-- What the single passes come to, one after the other. -/
theorem of_rewrites {number : Nat} {alone : Node → Workspace} {stmts : List Node}
    {results : List (Node × PassSummary)}
    (h : List.Forall₂ (fun x => config.Rewrites number (alone x)) stmts results) :
    (∀ x ∈ stmts, ∃ v counts, config.engine.pass number (alone x) = (v, .ok counts)) ∧
    ∀ (result : Node → Workspace) (count : Node → PassSummary),
      (∀ x ∈ stmts, config.engine.pass number (alone x) = (result x, .ok (count x))) →
      results.map (·.1.bare) =
          stmts.flatMap (fun x => (result x).tree.children.map Node.bare) ∧
        results.map (·.2) = stmts.map count ∧
        ∀ x ∈ stmts, (∃ i span y, (result x).tree = ⟨i, span, .file [y]⟩) ∧
          1 ≤ (count x).visits := by
  induction h with
  | nil => exact ⟨by simp, fun _ _ _ => ⟨rfl, rfl, by simp⟩⟩
  | @cons x r stmts results hrewrites _ ih =>
    obtain ⟨v, i, span, y, hpass, htree, hy, hcounts⟩ := hrewrites
    refine ⟨?_, fun result count hok => ?_⟩
    · exact List.forall_mem_cons.mpr ⟨⟨v, r.2, hpass⟩, ih.1⟩
    · obtain ⟨hbare, hcount, hsingle⟩ :=
        ih.2 result count fun z hz => hok z (List.mem_cons_of_mem _ hz)
      obtain ⟨rfl, heq⟩ := Prod.mk.inj (hpass.symm.trans (hok x List.mem_cons_self))
      have hr : r.2 = count x := Except.ok.inj heq
      have hchildren : (result x).tree.children = [y] := by rw [htree]; rfl
      refine ⟨?_, ?_, List.forall_mem_cons.mpr ⟨⟨⟨i, span, y, htree⟩, hr ▸ hcounts⟩, hsingle⟩⟩
      · rw [List.map_cons, List.flatMap_cons, hbare, hchildren, ← hy]
        rfl
      · rw [List.map_cons, List.map_cons, hcount, hr]

/-- The statements of a file are rewritten independently.  Let a file alone with each of them be
numbered in any way.  A pass over the whole file succeeds if and only if a pass over each of these
files does.  Then its statements are those that the single passes left, one for each, in order, and
but for numbers and positions; the edits add up, and so do the visits, that of the file itself left
out. -/
theorem pass_splits (config : Config) (w : Workspace) (hw : w.Sound) (stmts : List Node)
    (hfile : w.tree.form = .file stmts) (alone : Node → Workspace)
    (halone : ∀ x ∈ stmts, (alone x).Sound ∧ (alone x).tree.bare = ⟨0, .none, .file [x.bare]⟩)
    (number number' : Nat) :
    ((∃ w' counts, config.engine.pass number w = (w', .ok counts)) ↔
      ∀ x ∈ stmts, ∃ v counts, config.engine.pass number' (alone x) = (v, .ok counts)) ∧
    ∀ w' counts (result : Node → Workspace) (count : Node → PassSummary),
      config.engine.pass number w = (w', .ok counts) →
      (∀ x ∈ stmts, config.engine.pass number' (alone x) = (result x, .ok (count x))) →
      ∃ stmts' : List Node, w'.tree = ⟨w.tree.id, w.tree.span, .file stmts'⟩ ∧
        stmts'.map Node.bare = stmts.flatMap (fun x => (result x).tree.children.map Node.bare) ∧
        (∀ x ∈ stmts, ∃ i span y, (result x).tree = ⟨i, span, .file [y]⟩) ∧
        counts.edits = (stmts.map fun x => (count x).edits).sum ∧
        1 ≤ counts.visits ∧ (∀ x ∈ stmts, 1 ≤ (count x).visits) ∧
        counts.visits - 1 = (stmts.map fun x => (count x).visits - 1).sum := by
  obtain ⟨s, hsteps, S, htree, -, hvisits, hedits⟩ :=
    PassState.steps_of_begun config.rules number hw
  have hchildren : w.tree.children = stmts := Node.children_of_file hfile
  have hwhole : s.tree = ⟨w.tree.id, w.tree.span, .file ([] ++ stmts)⟩ := by
    rw [htree, List.nil_append, ← hfile]
    cases w.tree
    rfl
  rw [hchildren] at S
  rcases config.pass_statements number number' hw alone halone (.single hsteps) S hwhole (by omega)
    with ⟨w₀, total, results, hpass, htree', hall, htotal, hsum⟩ |
      ⟨w₀, e, hpass, x, hx, v, d, hfail⟩
  · obtain ⟨hsingles, hresults⟩ := config.of_rewrites hall
    refine ⟨⟨fun _ => hsingles, fun _ => ⟨w₀, total, hpass⟩⟩, ?_⟩
    intro w' counts result count hok hsingle
    obtain ⟨rfl, heq⟩ := Prod.mk.inj (hok.symm.trans hpass)
    obtain rfl := Except.ok.inj heq
    obtain ⟨hbare, hcount, hfiles⟩ := hresults result count hsingle
    have hcounted : ∀ g : PassSummary → Nat,
        results.map (fun r => g r.2) = stmts.map fun x => g (count x) := by
      intro g
      have hmap := congrArg (List.map g) hcount
      rwa [List.map_map, List.map_map] at hmap
    rw [hcounted fun c => c.visits - 1] at htotal
    rw [hcounted PassSummary.edits] at hsum
    rw [List.nil_append] at htree'
    refine ⟨results.map (·.1), htree', ?_, fun x hx => (hfiles x hx).1, by omega, by omega,
      fun x hx => (hfiles x hx).2, by omega⟩
    rw [List.map_map]
    exact hbare
  · refine ⟨⟨?_, ?_⟩, ?_⟩
    · rintro ⟨w', counts, hok⟩
      exact nomatch (Prod.mk.inj (hok.symm.trans hpass)).2
    · intro hok
      obtain ⟨v', counts, hok⟩ := hok x hx
      exact nomatch (Prod.mk.inj (hok.symm.trans hfail)).2
    · intro w' counts result count hok
      exact nomatch (Prod.mk.inj (hok.symm.trans hpass)).2

/-- The class of `Workspace.box` and an instruction after it, in one file. -/
def boxAndEcho : Workspace where
  tree := ⟨14, .none, .file (Workspace.box.tree.children ++ [⟨15, .none, .echo []⟩])⟩
  next := 16
  stats := []

/-- A statement in a file of its own. -/
def alone (x : Node) : Workspace := ⟨⟨16, .none, .file [x]⟩, 17, []⟩

theorem pass_splits_boxAndEcho :
    boxAndEcho.Sound ∧
    ∃ w' counts, standard.engine.pass 1 boxAndEcho = (w', .ok counts) ∧ counts.edits = 1 ∧
    (∀ x ∈ boxAndEcho.tree.children,
      ∃ v counts, standard.engine.pass 2 (alone x) = (v, .ok counts)) ∧
    ∀ (result : Node → Workspace) (count : Node → PassSummary),
      (∀ x ∈ boxAndEcho.tree.children,
        standard.engine.pass 2 (alone x) = (result x, .ok (count x))) →
      (boxAndEcho.tree.children.map fun x => (count x).edits).sum = 1 ∧
        w'.tree.children.map Node.bare =
          boxAndEcho.tree.children.flatMap fun x => (result x).tree.children.map Node.bare := by
  have hw : boxAndEcho.Sound := ⟨by decide +kernel, by decide +kernel⟩
  have halone : ∀ x ∈ boxAndEcho.tree.children,
      (alone x).Sound ∧ (alone x).tree.bare = ⟨0, .none, .file [x.bare]⟩ := by
    have hnumbers : ∀ x ∈ boxAndEcho.tree.children,
        (alone x).tree.ids.Nodup ∧ ∀ i ∈ (alone x).tree.ids, i < 17 := by decide +kernel
    exact fun x hx => ⟨⟨(hnumbers x hx).1, (hnumbers x hx).2⟩, Node.bare_eq _⟩
  obtain ⟨hiff, hresults⟩ := pass_splits standard boxAndEcho hw _ rfl alone halone 1 2
  have hedits : (standard.engine.pass 1 boxAndEcho).2.toOption.map (·.edits) = some 1 := by
    decide +kernel
  rcases hpass : standard.engine.pass 1 boxAndEcho with ⟨w', e | counts⟩
  · rw [hpass] at hedits
    exact nomatch hedits
  · rw [hpass] at hedits
    have hone : counts.edits = 1 := Option.some.inj hedits
    refine ⟨hw, w', counts, rfl, hone, hiff.mp ⟨w', counts, hpass⟩, fun result count hok => ?_⟩
    obtain ⟨stmts', htree, hbare, -, hsum, -⟩ := hresults w' counts result count hpass hok
    have hchildren : w'.tree.children = stmts' := Node.children_of_file (by rw [htree])
    exact ⟨hsum.symm.trans hone, hchildren ▸ hbare⟩

end Config

end PhpRefactor
