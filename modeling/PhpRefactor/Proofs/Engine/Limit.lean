import PhpRefactor.Engine.Limit
import PhpRefactor.Proofs.Rule.Decision
import PhpRefactor.Proofs.Index.Edit
import PhpRefactor.Proofs.Syntax.Renumber

/-!
# Open fetches, one by one

Every edit of the two rules takes away one open fetch.  Open fetches can be counted part by part:
as long as the place of a graft is not the object of a fetch, the count changes by what goes and
what comes (`GraftSite.openFetches_grafted`).  An `if` that gives way to its body takes its
condition with it, a fetch that is made longer is no longer open.
-/

set_option autoImplicit false

namespace PhpRefactor

namespace Node

theorem openFetchesIn_eq (fetched : Bool) (n : Node) :
    n.openFetchesIn fetched = (if n.isVariableFetch && !fetched then [n] else []) ++
      n.children.flatMap (openFetchesIn (n.kind = .fetch)) := by
  rw [openFetchesIn]
  simp [List.flatMap_def]

theorem isVariableFetch_eq (n : Node) :
    n.isVariableFetch = match n.form with
      | .fetch object _ => object.varName?.isSome
      | _ => false := by
  unfold isVariableFetch
  cases n.form with
  | fetch object name =>
    cases object with
    | mk id span form => cases form <;> rfl
  | _ => rfl

/-! ## Open fetches have no numbers -/

theorem isVariableFetch_renumber (f : Nat → Nat) (n : Node) :
    (n.renumber f).isVariableFetch = n.isVariableFetch := by
  unfold isVariableFetch
  rw [form_renumber]
  cases n.form with
  | fetch object name =>
    cases object with
    | mk id span form =>
      rw [Form.map, renumber_eq]
      cases form <;> rfl
  | _ => rfl

theorem openFetchesIn_renumber (f : Nat → Nat) (n : Node) :
    ∀ fetched, (n.renumber f).openFetchesIn fetched =
      (n.openFetchesIn fetched).map (renumber f) := by
  induction n using Node.induction with
  | step n ih =>
    intro fetched
    rw [openFetchesIn_eq, openFetchesIn_eq, isVariableFetch_renumber, kind_renumber,
      children_renumber, List.flatMap_map, List.map_append, List.map_flatMap]
    congr 1
    · split <;> rfl
    · exact List.flatMap_congr fun c hc => ih c hc _

theorem openFetches_renumber (f : Nat → Nat) (n : Node) :
    (n.renumber f).openFetches = n.openFetches := by
  rw [openFetches, openFetchesIn_renumber, List.length_map, openFetches]

theorem openFetches_of_bare_eq {a b : Node} (h : a.bare = b.bare) :
    a.openFetches = b.openFetches := by
  rw [← openFetches_renumber (fun _ => 0) a, ← openFetches_renumber (fun _ => 0) b]
  exact congrArg openFetches h

/-! ## Grafts -/

namespace GraftSite

variable {root m n p : Node} {around outer : List Node} {xs : List Node}

theorem isVariableFetch_grafted (site : GraftSite root around m n xs) (hm : m.kind ≠ .fetch)
    (hp : Occurs root outer p) : (p.grafted n.id xs).isVariableFetch = p.isVariableFetch := by
  rw [isVariableFetch_eq, isVariableFetch_eq, form_grafted]
  cases hform : p.form with
  | fetch object name =>
    have hobject : object ∈ p.children := by
      simp [children, Form.children, hform, Form.segments, Segment.toList]
    have hne : object.id ≠ n.id := by
      intro hid
      obtain ⟨rfl, -, -⟩ := site.eq_of_mem_children hp hobject hid
      exact hm (by rw [kind, hform]; rfl)
    simp [Form.map, Form.join, graft_of_id_ne hne]
  | _ => rfl

/-- What a graft that is not the object of a fetch does to the open fetches of a part of the tree
around it. -/
theorem openFetchesIn_grafted (site : GraftSite root around m n xs) (hm : m.kind ≠ .fetch)
    (p : Node) :
    ∀ outer above, Occurs root outer p → Occurs p above n → p.id ≠ n.id → ∀ fetched,
      ((p.grafted n.id xs).openFetchesIn fetched).length + n.openFetches =
        (p.openFetchesIn fetched).length + (xs.flatMap (openFetchesIn false)).length := by
  induction p using Node.induction with
  | step p ih =>
    intro outer above hp hn hid fetched
    rcases hn.eq_root_or_below with ⟨-, rfl⟩ | ⟨c, hc, inner, -, hn⟩
    · exact absurd rfl hid
    · obtain ⟨ls, rs, hsplit, hgraft⟩ :=
        exists_flatMap_graft_eq xs (hp.nodup site.nodup) hc hn.id_mem
      rw [openFetchesIn_eq, openFetchesIn_eq, site.isVariableFetch_grafted hm hp, kind_grafted,
        site.children_grafted hp, hgraft, hsplit]
      have hself : ∀ q : Node, (if p.isVariableFetch && !fetched then [q] else []).length =
          if p.isVariableFetch && !fetched then 1 else 0 := by
        intro q
        split <;> rfl
      simp only [List.flatMap_append, List.flatMap_cons, List.length_append, hself]
      have hchild : ((c.graft n.id xs).flatMap (openFetchesIn (p.kind = .fetch))).length +
          n.openFetches = (c.openFetchesIn (p.kind = .fetch)).length +
            (xs.flatMap (openFetchesIn false)).length := by
        by_cases hcn : c.id = n.id
        · obtain ⟨rfl, -, rfl⟩ := site.eq_of_mem_children hp hc hcn
          rw [graft_of_id_eq rfl, decide_eq_false hm]
          exact Nat.add_comm _ _
        · rw [graft_of_id_ne hcn, List.flatMap_singleton]
          exact ih c hc (p :: outer) inner (hp.child hc) hn hcn _
      omega

theorem openFetches_grafted (site : GraftSite root around m n xs) (hm : m.kind ≠ .fetch) :
    (root.grafted n.id xs).openFetches + n.openFetches =
      root.openFetches + (xs.flatMap (openFetchesIn false)).length :=
  site.openFetchesIn_grafted hm root [] (m :: around) .root site.occurs site.root_ne false

end GraftSite

end Node

/-! ## What the rules take away -/

/-- A fetch from a variable is open as long as nothing is fetched from it. -/
theorem Node.openFetchesIn_of_fetch {n object : Node} {name x : String}
    (hform : n.form = .fetch object name) (hobject : object.form = .var x) (fetched : Bool) :
    n.openFetchesIn fetched = if fetched then [] else [n] := by
  have hfetch : n.isVariableFetch = true := by
    rw [isVariableFetch_eq, hform]
    simp [varName?, hobject]
  have hvar : object.isVariableFetch = false := by
    rw [isVariableFetch_eq, hobject]
  have hchildren : n.children = [object] := by
    simp [children, Form.children, hform, Form.segments, Segment.toList]
  have hnone : object.children = [] := by
    simp [children, Form.children, hobject, Form.segments]
  rw [openFetchesIn_eq, hfetch, hchildren, List.flatMap_singleton, openFetchesIn_eq, hvar, hnone]
  cases fetched <;> rfl

theorem TrueCondition.openFetches_of_fetchedMember? {cond : Node} {member : String}
    (h : fetchedMember? cond = some member) : cond.openFetches = 1 := by
  obtain ⟨object, hform, hobject⟩ := fetchedMember?_eq_some_iff.mp h
  rw [Node.openFetches, Node.openFetchesIn_of_fetch hform hobject false]
  rfl

/-- Giving way to its body, an `if` takes away the fetch in its condition. -/
theorem TrueCondition.openFetches_of_settledBody? {oracle : Oracle} {around body : List Node}
    {n : Node} (h : settledBody? oracle around n = some body) :
    n.openFetches = (body.flatMap (Node.openFetchesIn false)).length + 1 := by
  obtain ⟨cond, member, _, _, hform, hmember, -⟩ := settledBody?_eq_some_iff.mp h
  have hfetch : n.isVariableFetch = false := by
    rw [Node.isVariableFetch_eq, hform]
  have hkind : n.kind = .ifStmt := by
    rw [Node.kind, hform]
    rfl
  have hchildren : n.children = cond :: body := by
    simp [Node.children, Form.children, hform, Form.segments, Segment.toList]
  have hcond : (cond.openFetchesIn false).length = 1 := openFetches_of_fetchedMember? hmember
  rw [Node.openFetches, Node.openFetchesIn_eq, hfetch, hkind, hchildren, List.flatMap_cons]
  change (cond.openFetchesIn false ++ body.flatMap (Node.openFetchesIn false)).length = _
  rw [List.length_append, hcond, Nat.add_comm]

/-- A fetch that is made longer was open, and no longer is. -/
theorem CanonicalAccess.openFetches_of_containerIn? {access : CanonicalAccess} {oracle : Oracle}
    {around : List Node} {n : Node} {x : String}
    (h : access.containerIn? oracle around n = some x) (next : Nat) :
    n.openFetches = 1 ∧ (access.lengthened n x next).openFetches = 0 := by
  obtain ⟨object, hform, hobject, -⟩ := containerIn?_eq_some_iff.mp h
  have hinner : Node.openFetchesIn true
      ⟨next + 1, .none, .fetch ⟨next, .none, .var x⟩ access.sentinel⟩ = [] :=
    Node.openFetchesIn_of_fetch rfl rfl true
  refine ⟨?_, ?_⟩
  · rw [Node.openFetches, Node.openFetchesIn_of_fetch hform hobject false]
    rfl
  rw [Node.openFetches, Node.openFetchesIn_eq, Node.isVariableFetch_eq]
  simp [lengthened, Node.varName?, Node.children, Form.children, Form.segments, Segment.toList,
    Node.kind, Form.kind, hinner]

end PhpRefactor
