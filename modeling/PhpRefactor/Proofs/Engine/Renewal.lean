import PhpRefactor.Proofs.Engine.Counts
import PhpRefactor.Proofs.Engine.Course
import PhpRefactor.Proofs.Engine.Renumbering
import PhpRefactor.Proofs.Index.Renew

/-!
# Another supply of identities

The nodes that the configured rules bring in take their identities from a supply.  Two passes with
the same rules over trees that differ in their identities, and with different supplies, go on side
by side (`PassState.Abreast`): where one has taken the number `a + k` the other has taken `b + k`.
So both come to the same tree but for numbers, with the same counts, or both fail with the same
error but for numbers (`Moved`).  Such an error names nodes that were there in the beginning, since
it is about an `if` and what is around it (`Node.IfsBelow`).

If the trees were the same, only new nodes have other numbers, and the errors are the very same
(`SameButNew`).

What was counted before need not stand in the same order in both, as long as the same is counted
under every name (`Stats.Alike`).
-/

set_option autoImplicit false

namespace PhpRefactor

/-! ## Answers -/

section

variable {f : Nat → Nat} {a b k : Nat} {root n : Node} {around : List Node}

theorem TrueCondition.unwrap_map (g : Node → Node) (body : Option (List Node)) :
    unwrap (body.map (List.map g)) = (unwrap body).map g := by
  cases body with
  | none => rfl
  | some body => cases body <;> rfl

theorem TrueCondition.settledBody?_mapIds (hnodup : (root.ids.map f).Nodup)
    (h : root.Occurs around n) :
    settledBody? .declared (around.map (Node.mapIds f)) (n.mapIds f) =
      (settledBody? .declared around n).map (List.map (Node.mapIds f)) := by
  have hsame := (h.samePlace_mapIds hnodup).settledBody?_eq
  cases hleft : settledBody? .declared around n with
  | none =>
    rw [hleft] at hsame
    exact Option.map_eq_none_iff.mp hsame.symm
  | some body =>
    -- Both are settled, and the body is read off the form.
    rw [hleft] at hsame
    obtain ⟨body', hright, -⟩ := Option.map_eq_some_iff.mp hsame.symm
    obtain ⟨_, _, _, _, hform, -⟩ := settledBody?_eq_some_iff.mp hleft
    obtain ⟨_, _, _, _, hform', -⟩ := settledBody?_eq_some_iff.mp hright
    rw [Node.form_mapIds, hform] at hform'
    simp only [Form.map, Form.ifStmt.injEq] at hform'
    rw [hright, ← hform'.2.1]
    rfl

theorem CanonicalAccess.mapIds_lengthened (hf : Renames f a b) (access : CanonicalAccess) (n : Node)
    (x : String) (k : Nat) :
    (access.lengthened n x (a + k)).mapIds f = access.lengthened (n.mapIds f) x (b + k) := by
  have hinner : f (a + k + 1) = b + k + 1 := hf.add (k + 1)
  rw [lengthened, lengthened, Node.id_mapIds, Node.span_mapIds, Node.mapIds_eq]
  simp only [Form.map]
  rw [Node.mapIds_eq]
  simp only [Form.map]
  rw [Node.mapIds_eq]
  simp only [Form.map, hinner, hf.add]

/-- A rule answers the same, with numbers from the other supply. -/
theorem RuleConfig.answer_mapIds (hf : Renames f a b) (hnodup : (root.ids.map f).Nodup)
    (h : root.Occurs around n) (rule : RuleConfig) :
    ∃ edit l, rule.answer around n (a + k) = (edit, a + l) ∧
      rule.answer (around.map (Node.mapIds f)) (n.mapIds f) (b + k) =
        (edit.map (Node.mapIds f), b + l) := by
  cases rule with
  | trueCondition =>
    refine ⟨_, k, rfl, ?_⟩
    rw [answer, TrueCondition.settledBody?_mapIds hnodup h, TrueCondition.unwrap_map]
  | canonicalAccess access =>
    have hsame := (h.samePlace_mapIds hnodup).containerIn?_eq access
    rw [answer, answer, ← hsame]
    cases access.containerIn? .declared around n with
    | none => exact ⟨.keep, k, rfl, rfl⟩
    | some x =>
      refine ⟨_, k + 2, rfl, ?_⟩
      rw [CanonicalAccess.lengthen, Edit.map, access.mapIds_lengthened hf]
      rfl

/-- Offered to the same rules, a node gets the same edit, with numbers from the other supply, and
the same is counted under every name. -/
theorem offer_mapIds (hf : Renames f a b) (hnodup : (root.ids.map f).Nodup)
    (h : root.Occurs around n) (pass : Nat) (rules : List RuleConfig) {stats stats' : Stats}
    (hstats : stats.Alike stats') :
    ∃ counted counted' edit l,
      offer ⟨root.indexed, .declared, pass⟩ n stats (a + k) (rules.map RuleConfig.rule) =
        ⟨counted, a + l, .ok edit⟩ ∧
      offer ⟨(root.mapIds f).indexed, .declared, pass⟩ (n.mapIds f) stats'
          (b + k) (rules.map RuleConfig.rule) =
        ⟨counted', b + l, .ok (edit.map (Node.mapIds f))⟩ ∧
      counted.Alike counted' := by
  induction rules generalizing stats stats' k with
  | nil => exact ⟨stats, stats', .keep, k, rfl, rfl, hstats⟩
  | cons rule rules ih =>
    have hplace := h.samePlace_mapIds hnodup
    rw [List.map_cons, offer, offer, Node.kind_mapIds,
      RuleConfig.apply_of_occurs hplace.left hplace.occurs_left,
      RuleConfig.apply_of_occurs hplace.right hplace.occurs_right]
    split
    · obtain ⟨edit, l, hleft, hright⟩ := rule.answer_mapIds (k := k) hf hnodup h
      have hinvoked := hstats.invoked rule.rule.name
      rw [hleft, hright]
      cases edit with
      | keep => exact ih hinvoked
      | _ => exact ⟨_, _, _, l, rfl, rfl, hinvoked.edited rule.rule.name⟩
    · exact ih hstats

end

/-! ## What was there in the beginning -/

/-- Every `if` and all that is around it have identities below a number. -/
def Node.IfsBelow (a : Nat) (root : Node) : Prop :=
  ∀ around n, root.Occurs around n → n.kind = .ifStmt → ∀ p ∈ n :: around, p.id < a

namespace Node.IfsBelow

variable {a : Nat} {root m n : Node} {around xs : List Node}

theorem of_forall_lt (h : ∀ i ∈ root.ids, i < a) : root.IfsBelow a := by
  intro around n hn _ p hp
  rcases List.mem_cons.mp hp with rfl | hp
  · exact h _ hn.id_mem
  · obtain ⟨_, _, _, hp, -⟩ := hn.of_mem_around hp
    exact h _ hp.id_mem

/-- A graft keeps this if what comes in are children of the node, or parts without an `if`. -/
theorem grafted (h : root.IfsBelow a) (site : GraftSite root around m n xs)
    (hxs : ∀ x ∈ xs, x ∈ n.children ∨ ∀ q ∈ x.preorder, q.kind ≠ .ifStmt) :
    (root.grafted n.id xs).IfsBelow a := by
  intro above q hq hkind p hp
  rcases site.occurs_cases hq with ⟨outer, r, hr, -, rfl, rfl⟩ | ⟨x, hx, inner, hinner, rfl⟩
  · rw [← List.map_cons, List.mem_map] at hp
    obtain ⟨r', hr', rfl⟩ := hp
    exact h outer r hr (by rw [← hkind, kind_grafted]) r' hr'
  · rcases hxs x hx with hchild | hnone
    · have hbelow := h _ q ((site.occurs.child hchild).trans hinner) hkind
      rw [← List.cons_append, List.mem_append] at hp
      rcases hp with hp | hp
      · refine hbelow p ?_
        rw [← List.cons_append]
        exact List.mem_append_left _ hp
      · obtain ⟨p', hp', rfl⟩ := List.mem_map.mp hp
        refine hbelow p' (List.mem_cons_of_mem _ (List.mem_append_right _ ?_))
        exact List.mem_cons_of_mem _ hp'
    · exact absurd hkind (hnone q (Node.mem_preorder_iff.mpr ⟨inner, hinner⟩))

end Node.IfsBelow

theorem Edit.passed_mapIds (f : Nat → Nat) (edit : Edit) :
    (edit.map (Node.mapIds f)).passed = edit.passed.map f := by
  cases edit with
  | replace x => exact congrArg (fun i => [i]) (Node.id_mapIds x)
  | _ => rfl

theorem Edit.incoming_mapIds (f : Nat → Nat) (edit : Edit) :
    (edit.map (Node.mapIds f)).incoming = edit.incoming.map (Node.mapIds f) := by
  cases edit with
  | replace x => exact Node.children_mapIds x
  | _ => rfl

namespace RuleConfig.Decision

variable {rules : List RuleConfig} {around : List Node} {n : Node} {next after : Nat} {edit : Edit}

/-- Only an `if` can be refused. -/
theorem kind_of_refusal? (h : Decision rules around n next edit after) {m : Node} {i : Nat}
    {e : TreeError} (hrefusal : edit.refusal? m i = some e) : n.kind = .ifStmt := by
  cases h with
  | keep => cases hrefusal
  | unwrap _ hbody =>
    obtain ⟨_, _, _, _, hform, -⟩ := TrueCondition.settledBody?_eq_some_iff.mp hbody
    rw [Node.kind, hform]
    rfl
  | lengthen => cases hrefusal

/-- What comes in are children of the node, or fetches and variables. -/
theorem mem_puts (h : Decision rules around n next edit after) :
    ∀ x ∈ edit.puts, x ∈ n.children ∨ ∀ q ∈ x.preorder, q.kind ≠ .ifStmt := by
  intro x hx
  cases h with
  | keep => exact absurd hx List.not_mem_nil
  | unwrap _ hbody =>
    rw [TrueCondition.puts_unwrap] at hx
    exact .inl ((TrueCondition.sublist_children_of_settledBody? hbody).subset hx)
  | @lengthen access y _ _ _ =>
    refine .inr fun q hq => ?_
    rw [List.mem_singleton.mp hx, CanonicalAccess.mem_preorder_lengthened] at hq
    rcases hq with rfl | rfl | rfl <;> exact Kind.noConfusion

end RuleConfig.Decision

/-! ## Passes side by side -/

/-- The error names no number from a supply that begins at `a`. -/
def RunError.NamesBelow (a : Nat) (e : RunError) : Prop :=
  ∀ f : Nat → Nat, (∀ i < a, f i = i) → e.mapIds f = e

/-- Two passes failed for the same reason but for numbers, none of which is new, and came to the
same but for numbers. -/
structure Halt.Abreast (f : Nat → Nat) (a : Nat) (h k : Halt) : Prop where
  reason_eq : k.reason = h.reason.mapIds f
  below : h.reason.NamesBelow a
  tree_eq : k.state.tree = h.state.tree.mapIds f
  nodup : k.state.tree.ids.Nodup
  stats_alike : h.state.stats.Alike k.state.stats

namespace PassState

/-- Two passes are at the same place, one with a supply that began at `a` and the other with one
that began at `b`. -/
structure Abreast (f : Nat → Nat) (a b : Nat) (s t : PassState) (done : List Nat)
    (ahead : List Node) : Prop where
  renames : Renames f a b
  left : s.Supplied done ahead
  right : t.Supplied (done.map f) (ahead.map (Node.mapIds f))
  tree_eq : t.tree = s.tree.mapIds f
  next_eq : ∃ k, s.next = a + k ∧ t.next = b + k
  stats_alike : s.stats.Alike t.stats
  visits_eq : s.visits = t.visits
  edits_eq : s.edits = t.edits
  ifsBelow : s.tree.IfsBelow a

/-- Two passes are at the same place, whatever is behind and ahead of them. -/
def GoAbreast (f : Nat → Nat) (a b : Nat) (s t : PassState) : Prop :=
  ∃ done ahead, Abreast f a b s t done ahead

namespace Abreast

variable {f : Nat → Nat} {a b : Nat} {s t : PassState} {done : List Nat} {n : Node}
  {ahead : List Node}

theorem nodup (B : Abreast f a b s t done ahead) : (s.tree.ids.map f).Nodup := by
  rw [← Node.ids_mapIds, ← B.tree_eq]
  exact B.right.nodup

/-- The nodes whose turn it is stand in the same place, and get the same edit. -/
theorem offer (B : Abreast f a b s t done (n :: ahead)) (rules : List RuleConfig) (pass : Nat) :
    ∃ around counted counted' edit l,
      s.tree.Occurs around n ∧
      t.tree.Occurs (around.map (Node.mapIds f)) (n.mapIds f) ∧
      offer ⟨⟨s.tree, s.index⟩, .declared, pass⟩ n s.stats s.next (rules.map RuleConfig.rule) =
        ⟨counted, a + l, .ok edit⟩ ∧
      offer ⟨⟨t.tree, t.index⟩, .declared, pass⟩ (n.mapIds f) t.stats t.next
          (rules.map RuleConfig.rule) =
        ⟨counted', b + l, .ok (edit.map (Node.mapIds f))⟩ ∧
      counted.Alike counted' ∧ RuleConfig.Decision rules around n s.next edit (a + l) := by
  obtain ⟨around, hn⟩ := Node.mem_preorder_iff.mp (B.left.mem n List.mem_cons_self)
  obtain ⟨k, hnext, hnext'⟩ := B.next_eq
  obtain ⟨counted, counted', edit, l, hleft, hright, halike⟩ :=
    offer_mapIds (k := k) B.renames B.nodup hn pass rules B.stats_alike
  obtain ⟨stats, after, decided, hoffer, hdecision⟩ :=
    offer_decision B.left.nodup hn pass rules s.stats s.next
  rw [← hnext] at hleft
  obtain ⟨-, rfl, hanswer⟩ := Offer.mk.inj (hoffer.symm.trans hleft)
  obtain rfl := Except.ok.inj hanswer
  rw [Node.indexed, ← B.left.index_eq] at hleft
  rw [Node.indexed, ← B.tree_eq, ← B.right.index_eq, ← hnext'] at hright
  refine ⟨around, counted, counted', decided, l, hn, ?_, hleft, hright, halike, hdecision⟩
  rw [B.tree_eq]
  exact hn.mapIds f

variable {rules : List RuleConfig} {pass l : Nat} {around : List Node} {counted counted' : Stats}
  {edit : Edit}

/-- An edit is carried out in both passes, or its place refuses it with the same error. -/
theorem step_of_edit (B : Abreast f a b s t done (n :: ahead)) (hn : s.tree.Occurs around n)
    (hn' : t.tree.Occurs (around.map (Node.mapIds f)) (n.mapIds f))
    (hleft : PhpRefactor.offer ⟨⟨s.tree, s.index⟩, .declared, pass⟩ n s.stats s.next
      (rules.map RuleConfig.rule) = ⟨counted, a + l, .ok edit⟩)
    (hright : PhpRefactor.offer ⟨⟨t.tree, t.index⟩, .declared, pass⟩ (n.mapIds f) t.stats
      t.next (rules.map RuleConfig.rule) =
        ⟨counted', b + l, .ok (edit.map (Node.mapIds f))⟩)
    (halike : counted.Alike counted')
    (hdecision : RuleConfig.Decision rules around n s.next edit (a + l)) (hedit : edit ≠ .keep) :
    Agree (Halt.Abreast f a) (GoAbreast f a b) (s.step (rules.map RuleConfig.rule) .declared pass)
      (t.step (rules.map RuleConfig.rule) .declared pass) := by
  have hedit' : edit.map (Node.mapIds f) ≠ .keep :=
    fun h => hedit (Edit.map_eq_keep_iff.mp h)
  obtain ⟨rule, -, hwants⟩ := hdecision.exists_wants hedit
  obtain ⟨m, outer, rfl⟩ := hwants.exists_parent
  have hrefuses := Edit.refusal?_mapIds (f := f) (m := m) (i := n.id)
    (fun c hc => List.inj_on_of_nodup_map B.nodup (hn.parent.1.child hc).id_mem hn.id_mem) edit
  rw [← Node.id_mapIds (f := f) n] at hrefuses
  cases hrefusal : edit.refusal? m n.id with
  | some e =>
    have hbelow := B.ifsBelow _ n hn (hdecision.kind_of_refusal? hrefusal)
    rw [hrefusal, Option.map_some] at hrefuses
    rw [B.left.step_of_refused hn hleft rfl hedit hrefusal,
      B.right.step_of_refused hn' hright rfl hedit' hrefuses]
    refine .error ⟨rfl, fun g hg => congrArg RunError.badTree ?_, B.tree_eq, B.right.nodup, halike⟩
    exact Edit.mapIds_of_refusal? hrefusal (hg _ (hbelow m (by simp)))
      (hg _ (hbelow n List.mem_cons_self))
  | none =>
    rw [hrefusal, Option.map_none] at hrefuses
    have happly := Edit.apply_eq_of_occurs hedit B.left.nodup hn
    have happly' := Edit.apply_eq_of_occurs hedit' B.right.nodup hn'
    rw [← B.left.index_eq, hrefusal] at happly
    rw [← B.right.index_eq, hrefuses, Edit.puts_map] at happly'
    rcases B.left.step_of_edit_cases hleft rfl hedit with
      ⟨e, heq, -⟩ | ⟨tree, s', heq, rfl, hs, S⟩
    · cases heq.symm.trans happly
    rcases B.right.step_of_edit_cases hright rfl hedit' with
      ⟨e, heq', -⟩ | ⟨tree', t', heq', rfl, ht, S'⟩
    · cases heq'.symm.trans happly'
    obtain rfl := Except.ok.inj (heq.symm.trans happly)
    obtain rfl := Except.ok.inj (heq'.symm.trans happly')
    have site : Node.GraftSite s.tree outer m n edit.puts := by
      rcases Edit.apply_of_occurs hedit B.left.nodup hn with ⟨e, herror, -⟩ | ⟨-, site, -⟩
      · rw [← B.left.index_eq] at herror
        cases herror.symm.trans happly
      · exact site
    rw [hs, ht]
    refine .ok ⟨_, _, B.renames, S, ?_, ?_, ⟨l, rfl, rfl⟩, halike, congrArg (· + 1) B.visits_eq,
      congrArg (· + 1) B.edits_eq, B.ifsBelow.grafted site hdecision.mem_puts⟩
    · rw [Edit.passed_mapIds, Edit.incoming_mapIds, ← List.map_append, ← List.map_append] at S'
      exact S'
    · dsimp only
      rw [Node.mapIds_grafted B.renames.zero B.nodup site, B.tree_eq, Node.id_mapIds]

/-- A visit leaves two passes side by side, or both fail with the same error but for numbers. -/
theorem step (B : Abreast f a b s t done (n :: ahead)) (rules : List RuleConfig)
    (pass : Nat) :
    Agree (Halt.Abreast f a) (GoAbreast f a b) (s.step (rules.map RuleConfig.rule) .declared pass)
      (t.step (rules.map RuleConfig.rule) .declared pass) := by
  obtain ⟨around, counted, counted', edit, l, hn, hn', hleft, hright, halike, hdecision⟩ :=
    B.offer rules pass
  by_cases hedit : edit = .keep
  · -- Both nodes are kept, and both walks go on below them.
    subst hedit
    have hs := B.left.step_of_keep B.left.id_notMem_offered hleft rfl
    have ht := B.right.step_of_keep B.right.id_notMem_offered hright rfl
    have S := B.right.of_step_eq_ok ht (B.right.descend rfl rfl rfl)
    rw [Node.id_mapIds, Node.children_mapIds] at S
    rw [hs, ht]
    refine .ok ⟨_, _, B.renames, B.left.of_step_eq_ok hs (B.left.descend rfl rfl rfl), ?_,
      B.tree_eq, ⟨l, rfl, rfl⟩, halike, congrArg (· + 1) B.visits_eq, B.edits_eq, B.ifsBelow⟩
    rw [List.map_append, List.map_append]
    exact S
  · exact B.step_of_edit hn hn' hleft hright halike hdecision hedit

end Abreast

namespace GoAbreast

variable {f : Nat → Nat} {a b : Nat} {s t : PassState}

/-- Passes side by side are both at their end, or both have a visit before them. -/
theorem step_cases (rules : List RuleConfig) (pass : Nat) (h : GoAbreast f a b s t) :
    (s.pending = [] ∧ t.pending = []) ∨ (s.pending ≠ [] ∧ t.pending ≠ [] ∧
      Agree (Halt.Abreast f a) (GoAbreast f a b) (s.step (rules.map RuleConfig.rule) .declared pass)
        (t.step (rules.map RuleConfig.rule) .declared pass)) := by
  obtain ⟨done, ahead, B⟩ := h
  cases ahead with
  | nil => exact .inl ⟨B.left.pending_eq, B.right.pending_eq⟩
  | cons n ahead =>
    refine .inr ⟨?_, ?_, B.step rules pass⟩
    · rw [B.left.pending_eq]
      simp
    · rw [B.right.pending_eq]
      simp

/-- A run leaves two passes side by side, or both fail with the same error but for numbers. -/
theorem run (rules : List RuleConfig) (pass limit : Nat) (h : GoAbreast f a b s t) :
    Agree (Halt.Abreast f a) (GoAbreast f a b)
      (s.run (rules.map RuleConfig.rule) .declared pass limit)
      (t.run (rules.map RuleConfig.rule) .declared pass limit) := by
  refine agree_run (fun s t h => h.step_cases rules pass) ?_ limit h
  rintro s t ⟨_, _, B⟩
  exact ⟨by rw [B.visits_eq]; rfl, fun _ _ => rfl, B.tree_eq, B.right.nodup, B.stats_alike⟩

end GoAbreast

end PassState

/-! ## Runs side by side -/

/-- Two runs came to the same result, and to trees that differ in the numbers of new nodes only, one
with a supply that began at `a` and the other with one that began at `b`; no two nodes get one
number.  The same is counted under every name. -/
structure SameButNew {α : Type} (a b : Nat) (x y : Workspace × Except RunError α) : Prop where
  result_eq : x.2 = y.2
  tree_eq : y.1.tree = x.1.tree.mapIds (renew a b)
  nodup : y.1.tree.ids.Nodup
  stats_alike : x.1.stats.Alike y.1.stats

/-- Two runs came to the same but for numbers: to the same result, where an error names none from a
supply that began at `a`, and to the same tree, in which no two nodes get one number.  The same is
counted under every name. -/
structure Moved {α : Type} (f : Nat → Nat) (a : Nat) (x y : Workspace × Except RunError α) :
    Prop where
  result_eq : y.2 = x.2.mapError (RunError.mapIds f)
  below : ∀ e, x.2 = .error e → e.NamesBelow a
  tree_eq : y.1.tree = x.1.tree.mapIds f
  nodup : y.1.tree.ids.Nodup
  stats_alike : x.1.stats.Alike y.1.stats

/-- Where only numbers from the supply are others the errors are the very same. -/
theorem Moved.sameButNew {α : Type} {a b : Nat} {x y : Workspace × Except RunError α}
    (h : Moved (renew a b) a x y) : SameButNew a b x y := by
  refine ⟨?_, h.tree_eq, h.nodup, h.stats_alike⟩
  rw [h.result_eq]
  cases hresult : x.2 with
  | error e => exact congrArg Except.error (h.below e hresult _ fun i hi => renew_of_lt b hi).symm
  | ok result => rfl

/-- Two workspaces hold the same tree but for numbers, one with a supply that began at `a` and the
other with one that began at `b`. -/
structure Workspace.Abreast (f : Nat → Nat) (a b : Nat) (v w : Workspace) : Prop where
  renames : Renames f a b
  left : v.Sound
  right : w.Sound
  tree_eq : w.tree = v.tree.mapIds f
  next_eq : ∃ k, v.next = a + k ∧ w.next = b + k
  stats_alike : v.stats.Alike w.stats
  ifsBelow : v.tree.IfsBelow a

namespace Workspace.Abreast

variable {f : Nat → Nat} {a b : Nat} {v w : Workspace} {α : Type}

/-- In the beginning the trees are the same, and nothing is new. -/
theorem of_tree_eq (hv : v.Sound) (hw : w.Sound) (htree : v.tree = w.tree)
    (hstats : v.stats.Alike w.stats) : Abreast (renew v.next w.next) v.next w.next v w where
  renames :=
    renames_renew (Nat.lt_of_le_of_lt (Nat.zero_le _) (hv.below _ v.tree.id_mem_ids)) w.next
  left := hv
  right := hw
  tree_eq := by
    rw [Node.mapIds_of_forall_eq fun i hi => renew_of_lt w.next (hv.below i hi), htree]
  next_eq := ⟨0, rfl, rfl⟩
  stats_alike := hstats
  ifsBelow := .of_forall_lt hv.below

theorem moved_ok (h : Abreast f a b v w) (result : α) : Moved f a (v, .ok result) (w, .ok result) :=
  ⟨rfl, nofun, h.tree_eq, h.right.nodup, h.stats_alike⟩

theorem goAbreast (h : Abreast f a b v w) : PassState.GoAbreast f a b v.begun w.begun := by
  refine ⟨[], [v.tree], h.renames, .start h.left.nodup h.left.below v.stats, ?_, h.tree_eq,
    h.next_eq, h.stats_alike, rfl, rfl, h.ifsBelow⟩
  rw [List.map_singleton, ← h.tree_eq]
  exact .start h.right.nodup h.right.below w.stats

end Workspace.Abreast

namespace Config

variable {f : Nat → Nat} {a b : Nat} {v w : Workspace}

/-- Passes leave workspaces abreast, or both fail with the same error but for numbers. -/
theorem pass_abreast (config : Config) (number : Nat) (h : v.Abreast f a b w) :
    (∃ v' w' counts, config.engine.pass number v = (v', .ok counts) ∧
      config.engine.pass number w = (w', .ok counts) ∧ v'.Abreast f a b w') ∨
    ∃ v' w' e, config.engine.pass number v = (v', .error e) ∧
      config.engine.pass number w = (w', .error (e.mapIds f)) ∧ e.NamesBelow a ∧
      w'.tree = v'.tree.mapIds f ∧ w'.tree.ids.Nodup ∧ v'.stats.Alike w'.stats := by
  have hbare : w.tree.bare = v.tree.bare := by rw [h.tree_eq, Node.bare_mapIds]
  have hlimit : w.tree.visitBound = v.tree.visitBound := by
    rw [Node.visitBound, Node.visitBound, Node.size_eq_of_bare_eq hbare,
      Node.openFetches_of_bare_eq hbare]
  rcases (h.goAbreast.run config.rules number v.tree.visitBound).exists_eq with
    ⟨s, t, hs, ht, done, ahead, B⟩ | ⟨halt, other, hs, ht, hhalt⟩
  · rw [← hlimit] at ht
    refine .inl ⟨_, ⟨t.tree, t.next, t.stats⟩, _, Engine.pass_of_run_eq_ok h.left.nodup hs, ?_,
      h.renames, ⟨B.left.nodup, B.left.below⟩, ⟨B.right.nodup, B.right.below⟩, B.tree_eq, B.next_eq,
      B.stats_alike, B.ifsBelow⟩
    rw [B.visits_eq, B.edits_eq]
    exact Engine.pass_of_run_eq_ok h.right.nodup ht
  · rw [← hlimit] at ht
    refine .inr ⟨_, ⟨other.state.tree, other.state.next, other.state.stats⟩, _,
      Engine.pass_of_run_eq_error h.left.nodup hs, ?_, hhalt.below, hhalt.tree_eq, hhalt.nodup,
      hhalt.stats_alike⟩
    rw [← hhalt.reason_eq]
    exact Engine.pass_of_run_eq_error h.right.nodup ht

theorem pass_moved (config : Config) (number : Nat) (h : v.Abreast f a b w) :
    Moved f a (config.engine.pass number v) (config.engine.pass number w) := by
  rcases config.pass_abreast number h with
    ⟨v', w', counts, hv, hw, h'⟩ | ⟨v', w', e, hv, hw, hbelow, htree, hnodup, hstats⟩
  · rw [hv, hw]
    exact h'.moved_ok counts
  · rw [hv, hw]
    exact ⟨rfl, fun d hd => Except.error.inj hd ▸ hbelow, htree, hnodup, hstats⟩

theorem passesFrom_moved (config : Config) (summary : RunSummary) (passes : Nat)
    (h : v.Abreast f a b w) :
    Moved f a (config.engine.passesFrom v summary passes)
      (config.engine.passesFrom w summary passes) := by
  induction passes generalizing v w summary with
  | zero =>
    refine ⟨rfl, fun e he => ?_, h.tree_eq, h.right.nodup, h.stats_alike⟩
    exact Except.error.inj he ▸ fun _ _ => rfl
  | succ passes ih =>
    rw [Engine.passesFrom, Engine.passesFrom]
    rcases config.pass_abreast (summary.passes + 1) h with
      ⟨v', w', counts, hv, hw, h'⟩ | ⟨v', w', e, hv, hw, hbelow, htree, hnodup, hstats⟩
    · rw [hv, hw]
      dsimp only
      split
      · exact h'.moved_ok _
      · exact ih _ h'
    · rw [hv, hw]
      exact ⟨rfl, fun d hd => Except.error.inj hd ▸ hbelow, htree, hnodup, hstats⟩

end Config

end PhpRefactor
