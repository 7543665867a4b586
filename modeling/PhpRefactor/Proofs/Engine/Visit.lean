import PhpRefactor.Proofs.Engine.Frontier
import PhpRefactor.Proofs.Rule.Decision

/-!
# A visit with the configured rules

The rules of a configuration are less free than rules in general: what they bring in is part of the
tree already or has a new identity.  So no identity is ever repeated and no node is met twice, and
between two visits the state is `PassState.Supplied`.

`Supplied.visit_cases` says all that one visit can do.  A node is kept, an `if` gives way to its
body, a fetch is made longer (`PassState.Moves`), or the place of an `if` refuses the body
(`PassState.Refuses`).  Whatever is to be shown of a pass is shown of these four.
-/

set_option autoImplicit false

namespace PhpRefactor

/-- The rules want nothing of a root. -/
theorem RuleConfig.Wants.exists_parent {rule : RuleConfig} {around : List Node} {n : Node}
    (h : rule.Wants around n) : ∃ m outer, around = m :: outer := by
  cases around with
  | cons m outer => exact ⟨m, outer, rfl⟩
  | nil =>
    exfalso
    cases rule with
    | trueCondition =>
      obtain ⟨body, hbody⟩ := Option.isSome_iff_exists.mp h
      obtain ⟨_, _, _, _, _, _, hclass, -⟩ := TrueCondition.settledBody?_eq_some_iff.mp hbody
      exact absurd hclass (by simp [nearestClass?])
    | canonicalAccess access =>
      obtain ⟨x, hx⟩ := Option.isSome_iff_exists.mp h
      obtain ⟨object, -, hobject, hcontainer, -⟩ := CanonicalAccess.containerIn?_eq_some_iff.mp hx
      -- Around the root there are no declarations, and without them a variable has no type.
      have hunknown :
          Oracle.declared ⟨nearestClass? [], nearestFunction? []⟩ object = .unknown := by
        rw [Oracle.declared_of_var hobject]
        unfold Oracle.ofVariable
        split <;> rfl
      rw [hunknown] at hcontainer
      simp [CanonicalAccess.isContainer, StaticType.isObjectOf] at hcontainer

namespace Node

/-- What stands below a node is not the node. -/
theorem ne_id_of_mem_below {n : Node} {i : Nat} (h : n.ids.Nodup)
    (hi : i ∈ n.children.flatMap ids) : i ≠ n.id := by
  rw [ids_eq, List.nodup_cons] at h
  exact fun heq => h.1 (heq ▸ hi)

theorem mem_ids_of_mem_below {n : Node} {i : Nat} (hi : i ∈ n.children.flatMap ids) :
    i ∈ n.ids := by
  rw [ids_eq]
  exact List.mem_cons_of_mem _ hi

end Node

namespace TrueCondition

theorem puts_unwrap (body : List Node) : (unwrap (some body)).puts = body := by
  cases body <;> rfl

theorem passed_unwrap (body : List Node) : (unwrap (some body)).passed = [] := by
  cases body <;> rfl

theorem incoming_unwrap (body : List Node) : (unwrap (some body)).incoming = body := by
  cases body <;> rfl

theorem sublist_children_of_settledBody? {oracle : Oracle} {around body : List Node} {n : Node}
    (h : settledBody? oracle around n = some body) : body.Sublist n.children := by
  obtain ⟨cond, _, _, _, hform, -⟩ := settledBody?_eq_some_iff.mp h
  simp [Node.children, Form.children, hform, Form.segments, Segment.toList]

end TrueCondition

theorem CanonicalAccess.ids_lengthened (access : CanonicalAccess) (n : Node) (x : String)
    (next : Nat) : (access.lengthened n x next).ids = [n.id, next + 1, next] := by
  simp [lengthened, Node.ids_eq, Node.children, Form.children, Form.segments, Segment.toList]

namespace PassState

/-- The supply of identities is above all that were ever in use, and no node is met twice. -/
structure Supplied (s : PassState) (done : List Nat) (ahead : List Node) : Prop extends
    Frontier s done ahead where
  below : ∀ i ∈ s.tree.ids, i < s.next
  offered_below : ∀ i ∈ s.offered, i < s.next
  offered_apart : ∀ i ∈ s.offered, i ∉ ahead.flatMap Node.ids

/-- All that a visit of the node `n` can do when nothing refuses it. -/
inductive Moves (rules : List RuleConfig) (s : PassState) (done : List Nat) (around : List Node)
    (n : Node) (ahead : List Node) : PassState → List Nat → List Node → Prop where
  /-- No rule wants the node, and the walk goes on below it. -/
  | keep {s' : PassState} (hnone : ∀ rule ∈ rules, ¬ rule.Wants around n)
      (htree : s'.tree = s.tree) (hedits : s'.edits = s.edits) (hnext : s'.next = s.next) :
      Moves rules s done around n ahead s' (done ++ [n.id]) (n.children ++ ahead)
  /-- An `if` gives way to its body, and the walk goes on in the body. -/
  | unwrap {s' : PassState} {m : Node} {outer body : List Node} (hrule : .trueCondition ∈ rules)
      (hbody : TrueCondition.settledBody? .declared around n = some body)
      (haround : around = m :: outer) (site : Node.GraftSite s.tree outer m n body)
      (hloose : m.holdsIn Segment.isLoose n.id = true)
      (htree : s'.tree = s.tree.grafted n.id body) (hedits : s'.edits = s.edits + 1)
      (hnext : s'.next = s.next) :
      Moves rules s done around n ahead s' done (body ++ ahead)
  /-- A fetch is made longer, and the walk goes on below it. -/
  | lengthen {s' : PassState} {access : CanonicalAccess} {x : String} {m : Node}
      {outer : List Node} (hrule : .canonicalAccess access ∈ rules)
      (hx : access.containerIn? .declared around n = some x) (haround : around = m :: outer)
      (site : Node.GraftSite s.tree outer m n [access.lengthened n x s.next])
      (htree : s'.tree = s.tree.grafted n.id [access.lengthened n x s.next])
      (hedits : s'.edits = s.edits + 1) (hnext : s'.next = s.next + 2)
      (hfirst : RuleConfig.firstAccess? rules around n = some (access, x)) :
      Moves rules s done around n ahead s' (done ++ [n.id])
        ((access.lengthened n x s.next).children ++ ahead)

/-- An `if` that is no statement is to give way to its body, and its place refuses that. -/
structure Refuses (rules : List RuleConfig) (s : PassState) (around : List Node) (n : Node)
    (halt : Halt) : Prop where
  rule : .trueCondition ∈ rules
  settled : ∃ body, TrueCondition.settledBody? .declared around n = some body
  place : ∃ m outer, around = m :: outer ∧ m.holdsIn Segment.isStatements n.id = false
  reason : ∃ e : TreeError, halt.reason = .badTree e ∧ e.IsRefusal
  tree_eq : halt.state.tree = s.tree

namespace Supplied

variable {s : PassState} {done : List Nat} {n : Node} {ahead : List Node}

theorem start {tree : Node} {next : Nat} (hnodup : tree.ids.Nodup)
    (hbelow : ∀ i ∈ tree.ids, i < next) (stats : Stats) :
    Supplied (.start tree (.of tree) next stats) [] [tree] where
  toFrontier := .start hnodup next stats
  below := hbelow
  offered_below _ hi := absurd hi List.not_mem_nil
  offered_apart _ hi := absurd hi List.not_mem_nil

theorem id_notMem_offered (S : Supplied s done (n :: ahead)) : n.id ∉ s.offered := by
  intro hmem
  refine S.offered_apart n.id hmem ?_
  rw [List.flatMap_cons]
  exact List.mem_append_left _ n.id_mem_ids

/-- The identities of what is ahead do not meet those of the nodes visited, and these do not come
back as long as what comes in is new or stood below the node. -/
theorem next_of (S : Supplied s done (n :: ahead)) {s' : PassState} {done' : List Nat}
    {coming : List Node} (F : Frontier s' done' (coming ++ ahead))
    (hoffered : s'.offered = n.id :: s.offered) (hnext : s.next ≤ s'.next)
    (hbelow : ∀ i ∈ s'.tree.ids, i < s'.next)
    (hcoming : ∀ i ∈ coming.flatMap Node.ids, i ≠ n.id ∧ (i ∈ n.ids ∨ s.next ≤ i)) :
    Supplied s' done' (coming ++ ahead) where
  toFrontier := F
  below := hbelow
  offered_below i hi := by
    rw [hoffered] at hi
    rcases List.mem_cons.mp hi with rfl | hi
    · have hmem : n.id ∈ s.tree.ids := by
        rw [S.ids_eq, List.flatMap_cons]
        exact List.mem_append_right _ (List.mem_append_left _ n.id_mem_ids)
      exact Nat.lt_of_lt_of_le (S.below n.id hmem) hnext
    · exact Nat.lt_of_lt_of_le (S.offered_below i hi) hnext
  offered_apart i hi hmem := by
    rw [hoffered] at hi
    rw [List.flatMap_append] at hmem
    rcases List.mem_cons.mp hi with rfl | hi
    · rcases List.mem_append.mp hmem with hmem | hmem
      · exact (hcoming n.id hmem).1 rfl
      · obtain ⟨p, hp, hip⟩ := List.mem_flatMap.mp hmem
        exact S.apart hp n.id_mem_ids hip
    · have hapart := S.offered_apart i hi
      rw [List.flatMap_cons] at hapart
      rcases List.mem_append.mp hmem with hmem | hmem
      · rcases (hcoming i hmem).2 with hbelow | hnew
        · exact hapart (List.mem_append_left _ hbelow)
        · have hold := S.offered_below i hi
          omega
      · exact hapart (List.mem_append_right _ hmem)

/-- An edit that repeats no identity is carried out as a graft, unless the place is no list of
statements and refuses it. -/
theorem carryOut_graft (S : Supplied s done (n :: ahead)) {m : Node} {outer : List Node}
    (h : s.tree.Occurs (m :: outer) n) {edit : Edit} (hedit : edit ≠ .keep) (found : Offer)
    (hnodup : Node.GraftSite s.tree outer m n edit.puts →
      (s.tree.grafted n.id edit.puts).ids.Nodup) :
    (∃ halt e, (s.asked n (ahead.map (·.id)) found).carryOut n.id edit = .error halt ∧
      m.holdsIn Segment.isStatements n.id = false ∧ (∀ x, edit ≠ .replace x) ∧
      halt.reason = .badTree e ∧ e.IsRefusal ∧ halt.state.tree = s.tree) ∨
    ∃ s', (s.asked n (ahead.map (·.id)) found).carryOut n.id edit = .ok s' ∧
      Node.GraftSite s.tree outer m n edit.puts ∧
      (m.holdsIn Segment.isLoose n.id = true ∨ ∃ x, edit = .replace x) ∧
      s'.tree = s.tree.grafted n.id edit.puts ∧
      s'.edits = s.edits + 1 ∧ s'.offered = n.id :: s.offered ∧ s'.next = found.next ∧
      Frontier s' (done ++ edit.passed) (edit.incoming ++ ahead) := by
  have hgraft := Edit.apply_of_occurs hedit S.nodup h
  rw [← S.index_eq] at hgraft
  rcases S.carryOut_cases hedit found with ⟨e, happly, hrefusal, hcarry⟩ |
    ⟨tree, i, happly, hrepeated, -, -⟩ | ⟨tree, s', happly, hs', hcarry, F'⟩
  · rcases hgraft with ⟨-, -, -, hholds, hreplace⟩ | ⟨hok, -⟩
    · exact .inl ⟨_, e, hcarry, hholds, hreplace, rfl, hrefusal, rfl⟩
    · exact absurd (happly.symm.trans hok) (by simp)
  · rcases hgraft with ⟨_, herror, -⟩ | ⟨hok, site, -⟩
    · exact absurd (happly.symm.trans herror) (by simp)
    · obtain rfl := Except.ok.inj (happly.symm.trans hok)
      rw [TreeIndex.ofTree_of_nodup (hnodup site)] at hrepeated
      exact absurd hrepeated (by simp)
  · rcases hgraft with ⟨_, herror, -⟩ | ⟨hok, site, hplace⟩
    · exact absurd (happly.symm.trans herror) (by simp)
    · obtain rfl := Except.ok.inj (happly.symm.trans hok)
      subst hs'
      exact .inr ⟨_, hcarry, site, hplace, rfl, rfl, rfl, rfl, F'⟩

/-- An `if` gives way to its body, or its place refuses that. -/
theorem carryOut_unwrap (S : Supplied s done (n :: ahead)) {rules : List RuleConfig}
    {around body : List Node} (h : s.tree.Occurs around n) (hrule : .trueCondition ∈ rules)
    (hbody : TrueCondition.settledBody? .declared around n = some body) {found : Offer}
    (hnext : found.next = s.next) :
    (∃ s' done' ahead', (s.asked n (ahead.map (·.id)) found).carryOut n.id
        (TrueCondition.unwrap (some body)) = .ok s' ∧
      Moves rules s done around n ahead s' done' ahead' ∧ Supplied s' done' ahead') ∨
    ∃ halt, (s.asked n (ahead.map (·.id)) found).carryOut n.id
        (TrueCondition.unwrap (some body)) = .error halt ∧
        Refuses rules s around n halt := by
  have hwants : RuleConfig.trueCondition.Wants around n :=
    Option.isSome_iff_exists.mpr ⟨body, hbody⟩
  obtain ⟨m, outer, rfl⟩ := hwants.exists_parent
  have hedit := TrueCondition.unwrap_ne_keep body
  have hsublist := TrueCondition.sublist_children_of_settledBody? hbody
  have hcarry := S.carryOut_graft h hedit found
  rw [TrueCondition.puts_unwrap, TrueCondition.passed_unwrap, TrueCondition.incoming_unwrap,
    List.append_nil] at hcarry
  rcases hcarry fun site => (site.ids_grafted_sublist hsublist).nodup S.nodup with
    ⟨halt, e, heq, hholds, -, hreason, hrefusal, htree⟩ |
    ⟨s', heq, site, hplace, htree, hedits, hoffered, hafter, F'⟩
  · exact .inr ⟨halt, heq, hrule, ⟨body, hbody⟩, ⟨m, outer, rfl, hholds⟩, ⟨e, hreason, hrefusal⟩,
      htree⟩
  · have hloose : m.holdsIn Segment.isLoose n.id = true := by
      refine hplace.resolve_right ?_
      rintro ⟨x, hreplace⟩
      cases body <;> exact absurd hreplace (by simp [TrueCondition.unwrap])
    have hsame : s'.next = s.next := hafter.trans hnext
    refine .inl ⟨s', _, _, heq, .unwrap hrule hbody rfl site hloose htree hedits hsame, ?_⟩
    refine S.next_of F' hoffered (Nat.le_of_eq hsame.symm) ?_ ?_
    · intro i hi
      rw [htree] at hi
      rw [hsame]
      exact S.below i ((site.ids_grafted_sublist hsublist).subset hi)
    · intro i hi
      have hbelow := (hsublist.flatMap Node.ids).subset hi
      exact ⟨n.ne_id_of_mem_below (h.nodup S.nodup) hbelow, .inl (n.mem_ids_of_mem_below hbelow)⟩

/-- A longer fetch brings in two identities from the supply. -/
theorem ids_lengthened_perm (S : Supplied s done (n :: ahead)) {m : Node} {outer : List Node}
    {access : CanonicalAccess} {x : String}
    (site : Node.GraftSite s.tree outer m n [access.lengthened n x s.next]) :
    (s.tree.grafted n.id [access.lengthened n x s.next]).ids.Perm
      ((s.next + 1) :: s.next :: (done ++ n.id :: ahead.flatMap Node.ids)) := by
  rw [S.ids_grafted site, List.flatMap_singleton, access.ids_lengthened, List.perm_iff_count]
  intro i
  simp only [List.count_append, List.count_cons, List.count_nil]
  omega

theorem sublist_ids (S : Supplied s done (n :: ahead)) :
    (done ++ n.id :: ahead.flatMap Node.ids).Sublist s.tree.ids := by
  rw [S.ids_eq, List.flatMap_cons, Node.ids_eq, List.cons_append]
  exact (List.Sublist.refl _).append ((List.sublist_append_right _ _).cons_cons _)

theorem nodup_lengthened (S : Supplied s done (n :: ahead)) {m : Node} {outer : List Node}
    {access : CanonicalAccess} {x : String}
    (site : Node.GraftSite s.tree outer m n [access.lengthened n x s.next]) :
    (s.tree.grafted n.id [access.lengthened n x s.next]).ids.Nodup := by
  have hnew : ∀ i, s.next ≤ i → i ∉ done ++ n.id :: ahead.flatMap Node.ids := by
    intro i hi hmem
    have hless := S.below i (S.sublist_ids.subset hmem)
    omega
  rw [(S.ids_lengthened_perm site).nodup_iff, List.nodup_cons, List.nodup_cons]
  refine ⟨?_, hnew s.next (Nat.le_refl _), S.sublist_ids.nodup S.nodup⟩
  intro hmem
  rcases List.mem_cons.mp hmem with heq | hmem
  · omega
  · exact hnew (s.next + 1) (Nat.le_succ _) hmem

theorem below_lengthened (S : Supplied s done (n :: ahead)) {m : Node} {outer : List Node}
    {access : CanonicalAccess} {x : String}
    (site : Node.GraftSite s.tree outer m n [access.lengthened n x s.next]) :
    ∀ i ∈ (s.tree.grafted n.id [access.lengthened n x s.next]).ids, i < s.next + 2 := by
  intro i hi
  rw [(S.ids_lengthened_perm site).mem_iff, List.mem_cons, List.mem_cons] at hi
  rcases hi with rfl | rfl | hi
  · omega
  · omega
  · have hless := S.below i (S.sublist_ids.subset hi)
    omega

/-- A fetch is made longer, and no place refuses that. -/
theorem carryOut_lengthen (S : Supplied s done (n :: ahead)) {rules : List RuleConfig}
    {access : CanonicalAccess} {around : List Node} {x : String} (h : s.tree.Occurs around n)
    (hrule : .canonicalAccess access ∈ rules)
    (hx : access.containerIn? .declared around n = some x)
    (hfirst : RuleConfig.firstAccess? rules around n = some (access, x)) {found : Offer}
    (hnext : found.next = s.next + 2) :
    ∃ s' done' ahead', (s.asked n (ahead.map (·.id)) found).carryOut n.id
        (.replace (access.lengthened n x s.next)) = .ok s' ∧
      Moves rules s done around n ahead s' done' ahead' ∧ Supplied s' done' ahead' := by
  have hwants : (RuleConfig.canonicalAccess access).Wants around n :=
    Option.isSome_iff_exists.mpr ⟨x, hx⟩
  obtain ⟨m, outer, rfl⟩ := hwants.exists_parent
  have hedit : Edit.replace (access.lengthened n x s.next) ≠ .keep := by simp
  have hcarry := S.carryOut_graft h hedit found
  dsimp only [Edit.puts, Edit.passed, Edit.incoming] at hcarry
  rcases hcarry S.nodup_lengthened with
    ⟨halt, e, -, -, hreplace, -⟩ | ⟨s', heq, site, -, htree, hedits, hoffered, hafter, F'⟩
  · exact absurd rfl (hreplace _)
  · have hsupply : s'.next = s.next + 2 := hafter.trans hnext
    refine ⟨s', _, _, heq, .lengthen hrule hx rfl site htree hedits hsupply hfirst, ?_⟩
    refine S.next_of F' hoffered (by omega) ?_ ?_
    · intro i hi
      rw [htree] at hi
      rw [hsupply]
      exact S.below_lengthened site i hi
    · intro i hi
      have hn : n.id < s.next := S.below n.id h.id_mem
      have hids := access.ids_lengthened n x s.next
      rw [Node.ids_eq] at hids
      rw [(List.cons.inj hids).2] at hi
      have hnew : i = s.next + 1 ∨ i = s.next := by simpa using hi
      exact ⟨by omega, .inr (by omega)⟩

/-- What one visit with the rules of a configuration does. -/
theorem visit_cases (S : Supplied s done (n :: ahead)) {around : List Node}
    (h : s.tree.Occurs around n) (rules : List RuleConfig) (pass : Nat) :
    (∃ s' done' ahead', s.step (rules.map RuleConfig.rule) .declared pass = .ok s' ∧
      Moves rules s done around n ahead s' done' ahead' ∧ Supplied s' done' ahead') ∨
    ∃ halt, s.step (rules.map RuleConfig.rule) .declared pass = .error halt ∧
      Refuses rules s around n halt := by
  obtain ⟨stats, next, edit, hoffer, hdecision⟩ :=
    offer_decision S.nodup h pass rules s.stats s.next
  rw [Node.indexed, ← S.index_eq] at hoffer
  cases hdecision with
  | keep hnone =>
    refine .inl ⟨_, _, _, S.step_of_keep S.id_notMem_offered hoffer rfl,
      .keep hnone rfl rfl rfl, ?_⟩
    refine S.next_of (S.descend rfl rfl rfl) rfl (Nat.le_refl _) S.below ?_
    intro i hi
    exact ⟨n.ne_id_of_mem_below (h.nodup S.nodup) hi, .inl (n.mem_ids_of_mem_below hi)⟩
  | @unwrap body hrule hbody =>
    rw [S.step_of_edit S.id_notMem_offered hoffer rfl (TrueCondition.unwrap_ne_keep body)]
    exact S.carryOut_unwrap h hrule hbody rfl
  | lengthen hrule hx hfirst =>
    rw [S.step_of_edit S.id_notMem_offered hoffer rfl (by simp)]
    exact .inl (S.carryOut_lengthen h hrule hx hfirst rfl)

/-- After a visit the state is supplied again. -/
theorem of_step_eq_ok {s' : PassState} {done' : List Nat} {ahead' : List Node}
    (S : Supplied s done (n :: ahead)) {rules : List RuleConfig} {pass : Nat}
    (hstep : s.step (rules.map RuleConfig.rule) .declared pass = .ok s')
    (F : Frontier s' done' ahead') : Supplied s' done' ahead' := by
  obtain ⟨around, hn⟩ := Node.mem_preorder_iff.mp (S.mem n List.mem_cons_self)
  rcases S.visit_cases hn rules pass with ⟨next, d, l, heq, -, S'⟩ | ⟨halt, heq, -⟩
  · obtain rfl := Except.ok.inj (hstep.symm.trans heq)
    obtain ⟨rfl, rfl⟩ := S'.toFrontier.unique F
    exact S'
  · exact absurd (hstep.symm.trans heq) (by simp)

/-- An edit that the rules ask for is carried out if it can be applied, and fails if not. -/
theorem step_of_edit_cases (S : Supplied s done (n :: ahead)) {rules : List RuleConfig}
    {pass : Nat} {found : Offer}
    (hfound : offer ⟨⟨s.tree, s.index⟩, .declared, pass⟩ n s.stats s.next
      (rules.map RuleConfig.rule) = found)
    {edit : Edit} (hanswer : found.answer = .ok edit) (hedit : edit ≠ .keep) :
    (∃ e, edit.apply s.index s.tree n.id = .error e ∧
      s.step (rules.map RuleConfig.rule) .declared pass =
        .error ⟨.badTree e, { s.asked n (ahead.map (·.id)) found with edits := s.edits + 1 }⟩) ∨
    ∃ tree s', edit.apply s.index s.tree n.id = .ok tree ∧
      s' = { s.asked n (ahead.map (·.id)) found with
        tree, index := .of tree, edits := s.edits + 1
        pending := edit.arrivals ++ ahead.map (·.id) } ∧
      s.step (rules.map RuleConfig.rule) .declared pass = .ok s' ∧
      Supplied s' (done ++ edit.passed) (edit.incoming ++ ahead) := by
  have hstep := S.step_of_edit S.id_notMem_offered hfound hanswer hedit
  rcases S.carryOut_cases hedit found with ⟨e, happly, -, hcarry⟩ | ⟨tree, i, -, -, -, hcarry⟩ |
    ⟨tree, s', happly, hs', hcarry, F⟩
  · exact .inl ⟨e, happly, hstep.trans hcarry⟩
  · -- The configured rules repeat no identity.
    obtain ⟨around, hn⟩ := Node.mem_preorder_iff.mp (S.mem n List.mem_cons_self)
    rcases S.visit_cases hn rules pass with ⟨_, _, _, heq, -⟩ | ⟨halt, heq, hrefuses⟩
    · exact absurd (heq.symm.trans (hstep.trans hcarry)) (by simp)
    · obtain rfl := Except.error.inj (heq.symm.trans (hstep.trans hcarry))
      obtain ⟨e, hreason, hrefusal⟩ := hrefuses.reason
      obtain rfl := RunError.badTree.inj hreason
      exact hrefusal.elim
  · exact .inr ⟨tree, s', happly, hs', hstep.trans hcarry,
      S.of_step_eq_ok (hstep.trans hcarry) F⟩

theorem moves_of_steps {s' : PassState} {ahead : List Node} {rules : List RuleConfig} {pass : Nat}
    (S : Supplied s done ahead)
    (h : Steps (rules.map RuleConfig.rule) .declared pass s s') :
    ∃ n rest around done' ahead', ahead = n :: rest ∧ s.tree.Occurs around n ∧
      Moves rules s done around n rest s' done' ahead' ∧ Supplied s' done' ahead' := by
  obtain ⟨hpending, hstep⟩ := h
  cases ahead with
  | nil => exact absurd S.pending_eq hpending
  | cons n rest =>
    obtain ⟨around, hn⟩ := Node.mem_preorder_iff.mp (S.mem n List.mem_cons_self)
    rcases S.visit_cases hn rules pass with ⟨next, done', ahead', heq, hmove, S'⟩ | ⟨halt, heq, -⟩
    · obtain rfl := Except.ok.inj (hstep.symm.trans heq)
      exact ⟨n, rest, around, done', ahead', rfl, hn, hmove, S'⟩
    · exact absurd (hstep.symm.trans heq) (by simp)

end Supplied

end PassState

end PhpRefactor
