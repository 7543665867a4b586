import PhpRefactor.Config
import PhpRefactor.Proofs.Types.Member

/-!
# What the configured rules decide

The two rules look at a node through the index.  In a tree with its own index the answer depends on
the node and the nodes around it alone: `TrueCondition.settledBody?` and
`CanonicalAccess.containerIn?` say it without an index, and so without a way to fail.

`offer_decision` puts the rules of a configuration together.  The first rule that wants the node
decides, and there are only three decisions: to keep the node, to leave the body of an `if`, to make
a fetch longer.
-/

set_option autoImplicit false

namespace PhpRefactor

/-- One of the functions around a node, out to the nearest class, is a constructor. -/
def underConstructor (around : List Node) : Bool :=
  (around.takeWhile fun m => m.kind ≠ .classDecl).any Node.isConstructor

theorem Node.kind_of_isConstructor {n : Node} (h : n.isConstructor = true) : n.kind = .method := by
  rw [isConstructor, isMethodNamed] at h
  split at h
  · rename_i hform
    rw [kind, hform]
    rfl
  · exact absurd h (by simp)

/-- The functions around a node, out to the nearest class. -/
def functionsAround (around : List Node) : List Node :=
  (around.takeWhile (·.kind ≠ .classDecl)).filter (·.kind ∈ [Kind.method, .function, .closure])

theorem functionsAround_sublist (around : List Node) :
    (functionsAround around).Sublist around :=
  List.filter_sublist.trans (List.takeWhile_sublist _)

theorem nearestFunction?_eq_head? (around : List Node) :
    nearestFunction? around = (functionsAround around).head? := by
  rw [nearestFunction?_eq, functionsAround, List.head?_filter]

theorem functionsAround_cons (m : Node) (around : List Node) :
    functionsAround (m :: around) =
      if m.kind = .classDecl then []
      else if m.kind ∈ [Kind.method, .function, .closure] then m :: functionsAround around
      else functionsAround around := by
  by_cases hclass : m.kind = .classDecl
  · simp [functionsAround, hclass]
  · rw [functionsAround, List.takeWhile_cons_of_pos (by simpa using hclass), if_neg hclass,
      List.filter_cons]
    simp only [decide_eq_true_eq]
    rfl

/-- Of the nodes around a node only functions are constructors. -/
theorem any_isConstructor_functionsAround (around : List Node) :
    (functionsAround around).any Node.isConstructor = underConstructor around := by
  rw [functionsAround, underConstructor, List.any_filter]
  congr 1
  funext m
  cases hconstructor : m.isConstructor with
  | false => rw [Bool.and_false]
  | true => simp [Node.kind_of_isConstructor hconstructor]

namespace IndexedTree

/-- The links from a function to the next one around it go through these functions and then end. -/
inductive Climbs (tree : IndexedTree) : Option Node → List Node → Prop where
  | top : Climbs tree none []
  | out {f : Node} {outer : Option Node} {fs : List Node}
      (hlink : tree.functionOf f.id = .ok outer) (h : Climbs tree outer fs) :
      Climbs tree (some f) (f :: fs)

/-- Where the links end the search for a constructor looks at each function on the way.  The limit
does not matter if it lets the search get that far. -/
theorem Climbs.insideConstructor_eq {tree : IndexedTree} {start : Option Node} {fs : List Node}
    {steps : Nat} (h : tree.Climbs start fs) (hsteps : fs.length ≤ steps) :
    tree.insideConstructor steps start = .ok (fs.any Node.isConstructor) := by
  induction h generalizing steps with
  | top => cases steps <;> rfl
  | @out f outer fs hlink _ ih =>
    rw [List.length_cons] at hsteps
    obtain ⟨steps, rfl⟩ : ∃ k, steps = k + 1 := ⟨steps - 1, by omega⟩
    rw [insideConstructor, List.any_cons]
    cases hf : f.isConstructor with
    | true => rfl
    | false =>
      rw [if_neg Bool.false_ne_true, hlink, Bool.false_or]
      exact ih (by omega)

/-- In a tree with its own index the links from a node go through the functions around it. -/
theorem climbs_of_occurs {root n : Node} {around : List Node} (hnodup : root.ids.Nodup)
    (h : root.Occurs around n) :
    root.indexed.Climbs (nearestFunction? around) (functionsAround around) := by
  induction around generalizing n with
  | nil => exact .top
  | cons m around ih =>
    have hm := h.parent.1
    have hrest := ih hm
    rw [nearestFunction?_eq_head?, functionsAround_cons]
    split_ifs with hclass hfunction
    · exact .top
    · exact .out (functionOf_of_occurs hnodup hm) hrest
    · rw [nearestFunction?_eq_head?] at hrest
      exact hrest

/-- Going from function to function and asking each whether it is a constructor is asking all nodes
out to the class. -/
theorem insideConstructor_of_occurs {root n : Node} {around : List Node} {steps : Nat}
    (hnodup : root.ids.Nodup) (h : root.Occurs around n) (hsteps : around.length < steps) :
    root.indexed.insideConstructor steps (nearestFunction? around) =
      .ok (underConstructor around) := by
  have hlength := (functionsAround_sublist around).length_le
  rw [(climbs_of_occurs hnodup h).insideConstructor_eq (by omega),
    any_isConstructor_functionsAround]

end IndexedTree

/-! ## Conditions that are always true -/

namespace TrueCondition

/-- The body of an `if` without other branches, when its condition is a property that the
constructor of the class around it sets to an object. -/
def settledBody? (oracle : Oracle) (around : List Node) (n : Node) : Option (List Node) :=
  match n.form with
  | .ifStmt cond body [] none =>
    match fetchedMember? cond, nearestClass? around with
    | some member, some cls =>
      if underConstructor around then none
      else
        match cls.memberResolution oracle member with
        | .resolved type => if type.isAlwaysTrue then some body else none
        | .unresolved _ => none
    | _, _ => none
  | _ => none

theorem fetchedMember?_eq_some_iff {cond : Node} {member : String} :
    fetchedMember? cond = some member ↔
      ∃ object, cond.form = .fetch object member ∧ object.form = .var "this" := by
  unfold fetchedMember?
  constructor
  · intro h
    split at h
    · rename_i object name hform
      split at h
      · rename_i hthis
        obtain rfl := Option.some.inj h
        exact ⟨object, hform, Node.isVariable_iff.mp hthis⟩
      · exact absurd h (by simp)
    · exact absurd h (by simp)
  · rintro ⟨object, hform, hobject⟩
    simp [hform, Node.isVariable_iff.mpr hobject]

theorem settledBody?_eq_some_iff {oracle : Oracle} {around body : List Node} {n : Node} :
    settledBody? oracle around n = some body ↔
      ∃ cond member cls type, n.form = .ifStmt cond body [] none ∧
        fetchedMember? cond = some member ∧ nearestClass? around = some cls ∧
        underConstructor around = false ∧
        cls.memberResolution oracle member = .resolved type ∧ type.isAlwaysTrue = true := by
  constructor
  · intro h
    unfold settledBody? at h
    split at h
    · rename_i cond body' hform
      split at h
      · rename_i member cls hmember hclass
        split at h
        · exact absurd h (by simp)
        · rename_i hunder
          split at h
          · rename_i type htype
            split at h
            · rename_i htrue
              obtain rfl := Option.some.inj h
              exact ⟨cond, member, cls, type, hform, hmember, hclass, by simpa using hunder, htype,
                htrue⟩
            · exact absurd h (by simp)
          · exact absurd h (by simp)
      · exact absurd h (by simp)
    · exact absurd h (by simp)
  · rintro ⟨cond, member, cls, type, hform, hmember, hclass, hunder, htype, htrue⟩
    simp [settledBody?, hform, hmember, hclass, hunder, htype, htrue]

/-- What the rule finds through the index is there without it. -/
theorem removableBody?_of_occurs {root n : Node} {around : List Node} (hnodup : root.ids.Nodup)
    (h : root.Occurs around n) (oracle : Oracle) (pass : Nat) :
    removableBody? ⟨root.indexed, oracle, pass⟩ n = .ok (settledBody? oracle around n) := by
  by_cases hplain : ∃ cond body, n.form = .ifStmt cond body [] none
  · obtain ⟨cond, body, hform⟩ := hplain
    unfold removableBody? settledBody?
    rw [hform]
    dsimp only
    cases fetchedMember? cond with
    | none => rfl
    | some member =>
      dsimp only
      rw [IndexedTree.classOf_of_occurs hnodup h]
      cases hclass : nearestClass? around with
      | none => rfl
      | some cls =>
        have hsteps : around.length < root.indexed.index.size + 1 := by
          have hbound := h.length_around_lt
          change around.length < (TreeIndex.of root).size + 1
          rw [TreeIndex.size_of]
          omega
        obtain ⟨-, outer, -, hcls, -⟩ := h.of_mem_around (List.mem_of_find?_eq_some hclass)
        change (root.indexed.functionOf n.id >>= fun function => _) = _
        rw [IndexedTree.functionOf_of_occurs hnodup h]
        change (root.indexed.insideConstructor (root.indexed.index.size + 1)
          (nearestFunction? around) >>= fun inside => _) = _
        rw [IndexedTree.insideConstructor_of_occurs hnodup h hsteps]
        cases underConstructor around with
        | true => rfl
        | false =>
          change (root.indexed.memberType oracle cls member >>= fun resolution => _) = _
          rw [IndexedTree.memberType_of_occurs hnodup hcls]
          change (match cls.memberResolution oracle member with
            | .resolved type => pure (if type.isAlwaysTrue then some body else none)
            | .unresolved _ => pure none) = _
          dsimp only
          cases cls.memberResolution oracle member with
          | resolved type => rfl
          | unresolved reason => rfl
  · have hnone : settledBody? oracle around n = none := by
      unfold settledBody?
      split
      · rename_i cond body hform
        exact absurd ⟨cond, body, hform⟩ hplain
      · rfl
    unfold removableBody?
    rw [hnone]
    split
    · rename_i cond body hform
      exact absurd ⟨cond, body, hform⟩ hplain
    · rfl

theorem unwrap_ne_keep (body : List Node) : unwrap (some body) ≠ .keep := by
  cases body <;> simp [unwrap]

end TrueCondition

/-! ## Access through a container -/

namespace CanonicalAccess

/-- The variable of a fetch that is to be made longer: it holds a container, and the fetch is not
fetched from. -/
def containerIn? (access : CanonicalAccess) (oracle : Oracle) (around : List Node) (n : Node) :
    Option String :=
  match n.form with
  | .fetch object name =>
    if name ≠ access.sentinel then none
    else
      match object.form with
      | .var x =>
        if !access.isContainer (oracle ⟨nearestClass? around, nearestFunction? around⟩ object) then
          none
        else if around.head?.any fun parent => parent.kind = .fetch then none
        else some x
      | _ => none
  | _ => none

variable {access : CanonicalAccess} {oracle : Oracle}

theorem containerIn?_eq_some_iff {around : List Node} {n : Node} {x : String} :
    access.containerIn? oracle around n = some x ↔
      ∃ object, n.form = .fetch object access.sentinel ∧ object.form = .var x ∧
        access.isContainer (oracle ⟨nearestClass? around, nearestFunction? around⟩ object) = true ∧
        ∀ parent ∈ around.head?, parent.kind ≠ .fetch := by
  constructor
  · intro h
    unfold containerIn? at h
    split at h
    · rename_i object name hform
      split at h
      · exact absurd h (by simp)
      · rename_i hname
        split at h
        · rename_i y hobject
          split at h
          · exact absurd h (by simp)
          · rename_i hcontainer
            split at h
            · exact absurd h (by simp)
            · rename_i hparent
              obtain rfl := Option.some.inj h
              rw [not_not] at hname
              subst hname
              refine ⟨object, hform, hobject, by simpa using hcontainer, ?_⟩
              intro parent hmem hkind
              exact hparent (by rw [Option.mem_def.mp hmem]; simpa using hkind)
        · exact absurd h (by simp)
    · exact absurd h (by simp)
  · rintro ⟨object, hform, hobject, hcontainer, hparent⟩
    have hfree : (around.head?.any fun parent => parent.kind = .fetch) = false := by
      rw [Option.any_eq_false]
      intro parent hmem
      simpa using hparent parent hmem
    simp [containerIn?, hform, hobject, hcontainer, hfree]

/-- What the rule finds through the index is there without it. -/
theorem container?_of_occurs {root n : Node} {around : List Node} (hnodup : root.ids.Nodup)
    (h : root.Occurs around n) (pass : Nat) :
    access.container? ⟨root.indexed, oracle, pass⟩ n =
      .ok (access.containerIn? oracle around n) := by
  have hscope : (⟨root.indexed, oracle, pass⟩ : Site).scopeOf n.id =
      .ok ⟨nearestClass? around, nearestFunction? around⟩ := by
    unfold Site.scopeOf
    rw [IndexedTree.classOf_of_occurs hnodup h, IndexedTree.functionOf_of_occurs hnodup h]
    rfl
  have hfetched : isFetched ⟨root.indexed, oracle, pass⟩ n =
      .ok (around.head?.any fun parent => parent.kind = .fetch) := by
    unfold isFetched
    rw [IndexedTree.parentOf_of_occurs hnodup h]
    cases around <;> rfl
  unfold container? containerIn?
  cases n.form with
  | fetch object name =>
    dsimp only
    by_cases hname : name = access.sentinel
    · rw [if_neg (not_not.mpr hname), if_neg (not_not.mpr hname)]
      cases object.form with
      | var x =>
        dsimp only
        rw [hscope]
        change (if (!access.isContainer (oracle _ object)) = true then pure none else _) = _
        cases
          access.isContainer (oracle ⟨nearestClass? around, nearestFunction? around⟩ object) with
        | false => rfl
        | true =>
          rw [hfetched]
          cases around.head?.any fun parent => parent.kind = .fetch <;> rfl
      | _ => rfl
    · rw [if_pos hname, if_pos hname]
  | _ => rfl

/-- The nodes of a longer fetch: itself, the fetch within it, and the variable. -/
theorem mem_preorder_lengthened {n q : Node} {x : String} {next : Nat} :
    q ∈ (access.lengthened n x next).preorder ↔ q = access.lengthened n x next ∨
      q = ⟨next + 1, .none, .fetch ⟨next, .none, .var x⟩ access.sentinel⟩ ∨
      q = ⟨next, .none, .var x⟩ := by
  simp [lengthened, Node.preorder_eq, Node.children, Form.children, Form.segments, Segment.toList]

end CanonicalAccess

/-! ## The rules of a configuration -/

namespace RuleConfig

/-- The rule wants to change the node. -/
def Wants (rule : RuleConfig) (around : List Node) (n : Node) : Prop :=
  match rule with
  | trueCondition => (TrueCondition.settledBody? .declared around n).isSome
  | canonicalAccess access => (access.containerIn? .declared around n).isSome

/-- The edit of the rule, and what is left of the supply of identities. -/
def answer (rule : RuleConfig) (around : List Node) (n : Node) (next : Nat) : Edit × Nat :=
  match rule with
  | trueCondition => (TrueCondition.unwrap (TrueCondition.settledBody? .declared around n), next)
  | canonicalAccess access => access.lengthen n next (access.containerIn? .declared around n)

section

variable {rule : RuleConfig} {around : List Node} {n : Node} {next : Nat}

/-- A rule answers, and the answer depends on the node and the nodes around it alone. -/
theorem apply_of_occurs {root : Node} (hnodup : root.ids.Nodup) (h : root.Occurs around n)
    (pass : Nat) :
    rule.rule.apply ⟨root.indexed, .declared, pass⟩ n next = .ok (rule.answer around n next) := by
  cases rule with
  | trueCondition =>
    change (RunError.ofTree (TrueCondition.removableBody? _ n)).map _ = _
    rw [TrueCondition.removableBody?_of_occurs hnodup h]
    rfl
  | canonicalAccess access =>
    change (RunError.ofTree (access.container? _ n)).map _ = _
    rw [CanonicalAccess.container?_of_occurs hnodup h]
    rfl

/-- A rule wants only what it asked to see. -/
theorem appliesTo_of_wants (h : rule.Wants around n) : rule.rule.appliesTo n.kind = true := by
  cases rule with
  | trueCondition =>
    obtain ⟨body, hbody⟩ := Option.isSome_iff_exists.mp h
    obtain ⟨cond, _, _, _, hform, -⟩ := TrueCondition.settledBody?_eq_some_iff.mp hbody
    rw [Node.kind, hform]
    rfl
  | canonicalAccess access =>
    obtain ⟨x, hx⟩ := Option.isSome_iff_exists.mp h
    obtain ⟨object, hform, -⟩ := CanonicalAccess.containerIn?_eq_some_iff.mp hx
    rw [Node.kind, hform]
    rfl

theorem answer_of_not_wants (h : ¬ rule.Wants around n) :
    rule.answer around n next = (.keep, next) := by
  cases rule with
  | trueCondition =>
    rw [answer, Option.not_isSome_iff_eq_none.mp h]
    rfl
  | canonicalAccess access =>
    rw [answer, Option.not_isSome_iff_eq_none.mp h]
    rfl

end

/-- The first access rule that wants a fetch, and the variable that the fetch is from. -/
def firstAccess? (rules : List RuleConfig) (around : List Node) (n : Node) :
    Option (CanonicalAccess × String) :=
  rules.findSome? fun
    | trueCondition => none
    | canonicalAccess access => (access.containerIn? .declared around n).map (access, ·)

section

variable {rule : RuleConfig} {rules : List RuleConfig} {around : List Node} {n : Node}
  {access : CanonicalAccess} {x : String}

theorem firstAccess?_cons_of_some (h : access.containerIn? .declared around n = some x) :
    firstAccess? (canonicalAccess access :: rules) around n = some (access, x) := by
  simp [firstAccess?, h]

theorem firstAccess?_cons_of_not_wants (h : ¬ rule.Wants around n) :
    firstAccess? (rule :: rules) around n = firstAccess? rules around n := by
  cases rule with
  | trueCondition => rfl
  | canonicalAccess access =>
    have hnone : access.containerIn? .declared around n = none := Option.not_isSome_iff_eq_none.mp h
    simp [firstAccess?, hnone]

theorem of_firstAccess?_eq_some (h : firstAccess? rules around n = some (access, x)) :
    canonicalAccess access ∈ rules ∧ access.containerIn? .declared around n = some x := by
  obtain ⟨rule, hrule, hfound⟩ := List.exists_of_findSome?_eq_some h
  cases rule with
  | trueCondition => exact absurd hfound (by simp)
  | canonicalAccess other =>
    obtain ⟨y, hy, heq⟩ := Option.map_eq_some_iff.mp hfound
    obtain ⟨rfl, rfl⟩ := Prod.mk.inj heq
    exact ⟨hrule, hy⟩

theorem firstAccess?_eq_none_iff :
    firstAccess? rules around n = none ↔
      ∀ rule ∈ rules, rule ≠ .trueCondition → ¬ rule.Wants around n := by
  rw [firstAccess?, List.findSome?_eq_none_iff]
  refine forall₂_congr fun rule _ => ?_
  cases rule with
  | trueCondition => simp
  | canonicalAccess access => simp [Wants]

end

/-- What rules can decide about a node, and the supply of identities afterwards. -/
inductive Decision (rules : List RuleConfig) (around : List Node) (n : Node) (next : Nat) :
    Edit → Nat → Prop where
  | keep (hnone : ∀ rule ∈ rules, ¬ rule.Wants around n) : Decision rules around n next .keep next
  | unwrap {body : List Node} (hrule : trueCondition ∈ rules)
      (hbody : TrueCondition.settledBody? .declared around n = some body) :
      Decision rules around n next (TrueCondition.unwrap (some body)) next
  | lengthen {access : CanonicalAccess} {x : String} (hrule : canonicalAccess access ∈ rules)
      (hx : access.containerIn? .declared around n = some x)
      (hfirst : firstAccess? rules around n = some (access, x)) :
      Decision rules around n next (.replace (access.lengthened n x next)) (next + 2)

namespace Decision

variable {rule : RuleConfig} {rules : List RuleConfig} {around : List Node} {n : Node} {next : Nat}

/-- A rule that does not want the node leaves the decision to the others. -/
theorem cons {edit : Edit} {after : Nat} (hrule : ¬ rule.Wants around n)
    (h : Decision rules around n next edit after) :
    Decision (rule :: rules) around n next edit after := by
  cases h with
  | keep hnone =>
    refine .keep ?_
    intro other hmem
    rcases List.mem_cons.mp hmem with rfl | hmem
    · exact hrule
    · exact hnone other hmem
  | unwrap hmem hbody => exact .unwrap (List.mem_cons_of_mem _ hmem) hbody
  | lengthen hmem hx hfirst =>
    refine .lengthen (List.mem_cons_of_mem _ hmem) hx ?_
    rw [firstAccess?_cons_of_not_wants hrule]
    exact hfirst

/-- A rule that wants the node decides, and not for keeping it. -/
theorem of_wants (rules : List RuleConfig) (next : Nat) (h : rule.Wants around n) :
    ∃ edit after, rule.answer around n next = (edit, after) ∧ edit ≠ .keep ∧
      Decision (rule :: rules) around n next edit after := by
  cases rule with
  | trueCondition =>
    obtain ⟨body, hbody⟩ := Option.isSome_iff_exists.mp h
    refine ⟨_, _, rfl, ?_, ?_⟩
    · rw [hbody]
      exact TrueCondition.unwrap_ne_keep body
    · rw [hbody]
      exact .unwrap List.mem_cons_self hbody
  | canonicalAccess access =>
    obtain ⟨x, hx⟩ := Option.isSome_iff_exists.mp h
    refine ⟨.replace (access.lengthened n x next), next + 2, ?_, by simp,
      .lengthen List.mem_cons_self hx (firstAccess?_cons_of_some hx)⟩
    rw [answer, hx]
    rfl

/-- Where there is an edit to be made a rule wants the node. -/
theorem exists_wants {edit : Edit} {after : Nat} (h : Decision rules around n next edit after)
    (hedit : edit ≠ .keep) : ∃ rule ∈ rules, rule.Wants around n := by
  cases h with
  | keep => exact absurd rfl hedit
  | unwrap hrule hbody => exact ⟨_, hrule, Option.isSome_iff_exists.mpr ⟨_, hbody⟩⟩
  | lengthen hrule hx => exact ⟨_, hrule, Option.isSome_iff_exists.mpr ⟨_, hx⟩⟩

end Decision

end RuleConfig

/-- A node that is offered to the rules of a configuration gets an answer, and it is one of three
decisions. -/
theorem offer_decision {root n : Node} {around : List Node} (hnodup : root.ids.Nodup)
    (h : root.Occurs around n) (pass : Nat) (rules : List RuleConfig) (stats : Stats) (next : Nat) :
    ∃ stats' next' edit,
      offer ⟨root.indexed, .declared, pass⟩ n stats next (rules.map RuleConfig.rule) =
        ⟨stats', next', .ok edit⟩ ∧ RuleConfig.Decision rules around n next edit next' := by
  induction rules generalizing stats with
  | nil => exact ⟨stats, next, .keep, rfl, .keep fun rule hrule => absurd hrule List.not_mem_nil⟩
  | cons rule rules ih =>
    rw [List.map_cons, offer, RuleConfig.apply_of_occurs hnodup h]
    by_cases hwants : rule.Wants around n
    · rw [if_pos (RuleConfig.appliesTo_of_wants hwants)]
      obtain ⟨edit, after, hanswer, hedit, hdecision⟩ :=
        RuleConfig.Decision.of_wants rules next hwants
      rw [hanswer]
      refine ⟨(stats.invoked rule.rule.name).edited rule.rule.name, after, edit, ?_, hdecision⟩
      cases edit with
      | keep => exact absurd rfl hedit
      | _ => rfl
    · rw [RuleConfig.answer_of_not_wants hwants]
      split
      · obtain ⟨stats', next', edit, hoffer, hdecision⟩ := ih (stats.invoked rule.rule.name)
        exact ⟨stats', next', edit, hoffer, hdecision.cons hwants⟩
      · obtain ⟨stats', next', edit, hoffer, hdecision⟩ := ih stats
        exact ⟨stats', next', edit, hoffer, hdecision.cons hwants⟩

end PhpRefactor
