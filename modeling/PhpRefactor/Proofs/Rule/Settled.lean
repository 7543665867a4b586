import PhpRefactor.Proofs.Rule.Lengthen
import PhpRefactor.Proofs.Rule.Unwrap

/-!
# What a class says after a graft

A class is asked for the type of a property.  It looks for the property, for the constructor and for
the first assignment in its body, and asks whether that is a statement of its own.  A graft leaves
all of this alone as long as it is steady (`Node.SteadySite`): where statements are not just listed
it puts a fetch in place of a fetch, with the same identity and of the same property of `$this` if
of any, and it takes away or brings in no assignment to a property.  Then an `if` is always true if
it was before (`SteadySite.settledBody?_grafted`).

An `if` that makes way for its body is a steady graft: the first assignment is not in its condition,
and no constructor has the `if` for a statement, so no assignment becomes a statement of its own.
So the rules want of every node what they wanted of it (`UnwrapSite.wants_iff`).  A fetch that is
made longer is one too, unless it is from `$this`.
-/

set_option autoImplicit false

namespace PhpRefactor

namespace Oracle

theorem declared_of_fetch (scope : Scope) {e : Node} (h : e.kind = .fetch) :
    declared scope e = .unknown := by
  cases e with
  | mk id span form => cases form <;> first | rfl | exact absurd h (by simp [Node.kind, Form.kind])

end Oracle

namespace TrueCondition

/-- The member that a condition asks for is the one that it reads from `$this`. -/
theorem fetchedMember?_eq_some_iff_isOwnMember {cond : Node} {member : String} :
    fetchedMember? cond = some member ↔ cond.isOwnMember member = true := by
  unfold fetchedMember? Node.isOwnMember
  cases cond.form with
  | fetch o x => simp [and_comm]
  | _ => simp

theorem fetchedMember?_congr {a b : Node} (h : ∀ name, a.isOwnMember name = b.isOwnMember name) :
    fetchedMember? a = fetchedMember? b := by
  refine Option.ext fun member => ?_
  rw [fetchedMember?_eq_some_iff_isOwnMember, fetchedMember?_eq_some_iff_isOwnMember, h]

end TrueCondition

namespace Node

/-- What a graft leaves in place of a node where statements are not just listed: the grafted node,
or another fetch for a fetch. -/
structure Twin (i : Nat) (xs : List Node) (c c' : Node) : Prop where
  id_eq : c'.id = c.id
  kind_eq : c'.kind = c.kind
  isOwnMember_eq : ∀ name, c'.isOwnMember name = c.isOwnMember name
  grafted_eq : c.kind ≠ .fetch → c' = c.grafted i xs

namespace Twin

variable {i : Nat} {xs : List Node} {c c' : Node}

/-- What can be seen of a grafted node, and is not to be seen of a fetch, can be seen of a twin. -/
theorem congr {P : Node → Bool} (h : Twin i xs c c')
    (hgrafted : P (c.grafted i xs) = P c) (hfetch : ∀ q : Node, q.kind = .fetch → P q = false) :
    P c' = P c := by
  by_cases hkind : c.kind = .fetch
  · rw [hfetch c hkind, hfetch c' (h.kind_eq.trans hkind)]
  · rw [h.grafted_eq hkind, hgrafted]

/-- A search among twins. -/
theorem find?_flatMap_graft {P : Node → Bool} {cs : List Node}
    (h : ∀ c ∈ cs, ∃ c', c.graft i xs = [c'] ∧ Twin i xs c c')
    (hgrafted : ∀ c : Node, P (c.grafted i xs) = P c)
    (hfetch : ∀ q : Node, q.kind = .fetch → P q = false) :
    (cs.flatMap (graft i xs)).find? P = (cs.find? P).map (grafted i xs) := by
  induction cs with
  | nil => rfl
  | cons c cs ih =>
    obtain ⟨c', hgraft, htwin⟩ := h c List.mem_cons_self
    have hrest := ih fun d hd => h d (List.mem_cons_of_mem _ hd)
    rw [List.flatMap_cons, hgraft, List.singleton_append, List.find?_cons, List.find?_cons,
      htwin.congr (hgrafted c) hfetch, hrest]
    cases hc : P c with
    | false => rfl
    | true =>
      have hkind : c.kind ≠ .fetch := fun heq => Bool.false_ne_true ((hfetch c heq).symm.trans hc)
      rw [htwin.grafted_eq hkind]
      rfl

end Twin

/-- A graft that does not change what a class says about its properties. -/
structure SteadySite (root : Node) (around : List Node) (m n : Node) (xs : List Node) :
    Prop extends QuietSite root around m n xs where
  /-- Where statements are not just listed, a fetch comes in place of a fetch. -/
  twin : m.kind = .classDecl ∨ m.isConstructor = true ∨
      m.holdsIn Segment.isStatements n.id = false →
    n.kind = .fetch ∧ ∃ x, xs = [x] ∧ Twin n.id xs n x
  /-- What came in assigns a property first where what was there did. -/
  assigned : ∀ name, (xs.flatMap preorder).find? (assignsOwn name) =
    (n.preorder.find? (assignsOwn name)).map (grafted n.id xs)

/-! ## Children where statements are not just listed -/

namespace QuietSite

variable {root m n p : Node} {around outer xs : List Node}

theorem isOwnMember_grafted (site : QuietSite root around m n xs) (hp : Occurs root outer p)
    (name : String) : (p.grafted n.id xs).isOwnMember name = p.isOwnMember name := by
  unfold isOwnMember
  rw [form_grafted]
  cases hform : p.form with
  | fetch object x =>
    have hs : Segment.required object ∈ p.form.segments := by simp [hform, Form.segments]
    obtain ⟨c, hc, hvar, -⟩ := site.exists_graft_eq hp hs rfl List.mem_cons_self
    simp [Form.map, Form.join, hc, isVariable_eq, hvar]
  | _ => rfl

end QuietSite

namespace SteadySite

variable {root m n p : Node} {around outer xs : List Node}

theorem exists_twin (site : SteadySite root around m n xs) (hp : Occurs root outer p) {c : Node}
    (hc : c ∈ p.children) (hplace : p.kind = .classDecl ∨ p.isConstructor = true ∨
      ∃ s ∈ p.form.segments, s.isStatements = false ∧ c ∈ s.toList) :
    ∃ c', c.graft n.id xs = [c'] ∧ Twin n.id xs c c' := by
  by_cases hid : c.id = n.id
  · obtain ⟨rfl, -, rfl⟩ := site.eq_of_mem_children hp hc hid
    have hplace' : p.kind = .classDecl ∨ p.isConstructor = true ∨
        p.holdsIn Segment.isStatements c.id = false := by
      refine hplace.imp_right (Or.imp_right ?_)
      rintro ⟨s, hs, hsort, hmem⟩
      rw [Bool.eq_false_iff]
      exact fun hholds => id_ne_of_holdsIn (hp.nodup site.nodup) hholds hs hsort hmem rfl
    obtain ⟨-, x, rfl, htwin⟩ := site.twin hplace'
    exact ⟨x, graft_of_id_eq rfl, htwin⟩
  · exact ⟨c.grafted n.id xs, graft_of_id_ne hid,
      ⟨rfl, kind_grafted, site.isOwnMember_grafted (hp.child hc), fun _ => rfl⟩⟩

/-- The child in a required place. -/
theorem exists_twin_required (site : SteadySite root around m n xs) (hp : Occurs root outer p)
    {c : Node} (hs : Segment.required c ∈ p.form.segments) :
    ∃ c', c.graft n.id xs = [c'] ∧ Twin n.id xs c c' ∧ Occurs root (p :: outer) c := by
  have hmem : c ∈ (Segment.required c).toList := List.mem_cons_self
  have hc : c ∈ p.children := List.mem_flatMap_of_mem hs hmem
  obtain ⟨c', hgraft, htwin⟩ := site.exists_twin hp hc (.inr (.inr ⟨_, hs, rfl, hmem⟩))
  exact ⟨c', hgraft, htwin, hp.child hc⟩

/-! ## The first assignment -/

theorem members_grafted {i : Nat} :
    (p.grafted i xs).members = p.members.flatMap (graft i xs) := by
  unfold members
  rw [form_grafted]
  cases p.form <;> rfl

theorem find?_members_grafted (site : SteadySite root around m n xs) (hp : Occurs root outer p)
    {P : Node → Bool} (hgrafted : ∀ c : Node, P (c.grafted n.id xs) = P c)
    (hfetch : ∀ q : Node, q.kind = .fetch → P q = false) :
    (p.grafted n.id xs).members.find? P = (p.members.find? P).map (grafted n.id xs) := by
  rw [members_grafted]
  by_cases hclass : p.kind = .classDecl
  · refine Twin.find?_flatMap_graft (fun c hc => ?_) hgrafted hfetch
    exact site.exists_twin hp (mem_children_of_mem_members hc) (.inl hclass)
  · have hnone : p.members = [] := by
      unfold members
      cases hform : p.form with
      | classDecl name parent ms => exact absurd (by rw [kind, hform]; rfl) hclass
      | _ => rfl
    rw [hnone]
    rfl

theorem findProperty?_grafted (site : SteadySite root around m n xs) (hp : Occurs root outer p)
    (name : String) :
    (p.grafted n.id xs).findProperty? name = (p.findProperty? name).map (grafted n.id xs) := by
  refine site.find?_members_grafted hp (fun c => ?_) fun q hq => ?_
  · unfold isPropertyNamed
    rw [form_grafted]
    cases c.form <;> rfl
  · unfold isPropertyNamed
    cases hform : q.form with
    | property => exact absurd hq (by simp [kind, hform, Form.kind])
    | _ => rfl

theorem findMethod?_grafted (site : SteadySite root around m n xs) (hp : Occurs root outer p)
    (name : String) :
    (p.grafted n.id xs).findMethod? name = (p.findMethod? name).map (grafted n.id xs) := by
  refine site.find?_members_grafted hp (fun c => ?_) fun q hq => ?_
  · unfold isMethodNamed
    rw [form_grafted]
    cases c.form <;> rfl
  · unfold isMethodNamed
    cases hform : q.form with
    | method => exact absurd hq (by simp [kind, hform, Form.kind])
    | _ => rfl

theorem isPrivateProperty_grafted {i : Nat} :
    (p.grafted i xs).isPrivateProperty = p.isPrivateProperty := by
  unfold isPrivateProperty
  rw [form_grafted]
  cases p.form <;> rfl

theorem methodBody_grafted {i : Nat} :
    (p.grafted i xs).methodBody = p.methodBody.flatMap (graft i xs) := by
  unfold methodBody
  rw [form_grafted]
  cases p.form <;> rfl

theorem assignsOwn_grafted (site : SteadySite root around m n xs) (hp : Occurs root outer p)
    (name : String) : (p.grafted n.id xs).assignsOwn name = p.assignsOwn name := by
  unfold assignsOwn
  rw [form_grafted]
  cases hform : p.form with
  | assign t v =>
    have hs : Segment.required t ∈ p.form.segments := by simp [hform, Form.segments]
    obtain ⟨t', hgraft, htwin, -⟩ := site.exists_twin_required hp hs
    simpa [Form.map, Form.join, hgraft] using htwin.isOwnMember_eq name
  | _ => rfl

/-- The first assignment to a property is the same one. -/
theorem find?_assignsOwn_grafted (site : SteadySite root around m n xs)
    (hp : Occurs root outer p) (name : String) :
    ((p.grafted n.id xs).methodBody.flatMap preorder).find? (assignsOwn name) =
      ((p.methodBody.flatMap preorder).find? (assignsOwn name)).map (grafted n.id xs) := by
  rw [methodBody_grafted]
  refine find?_flatMap_graft fun c hc => ?_
  exact site.find?_graft (fun _ q hq _ => site.assignsOwn_grafted hq name) (site.assigned name) c _
    (hp.child (mem_children_of_mem_methodBody hc))

/-- An assignment is a statement of its own in a constructor if it was one before: statements of a
constructor stay where they are. -/
theorem hasStatement_grafted (site : SteadySite root around m n xs) (hp : Occurs root outer p)
    (hconstructor : p.isConstructor = true) (i : Nat) :
    (p.grafted n.id xs).hasStatement i = p.hasStatement i := by
  have hstatement : ∀ s ∈ p.children,
      ((s.grafted n.id xs).kind = .exprStmt && (s.grafted n.id xs).children.any (·.id = i)) =
        (s.kind = .exprStmt && s.children.any (·.id = i)) := by
    intro s hs
    cases hform : s.form with
    | exprStmt e =>
      have hkind : s.kind = .exprStmt := by rw [kind, hform]; rfl
      have hsegment : Segment.required e ∈ s.form.segments := by simp [hform, Form.segments]
      obtain ⟨e', hgraft, htwin, -⟩ := site.exists_twin_required (hp.child hs) hsegment
      have hold : s.children = [e] := by
        simp [children, Form.children, hform, Form.segments, Segment.toList]
      rw [site.children_grafted (hp.child hs), hold, List.flatMap_singleton, hgraft]
      simp only [List.any_cons, List.any_nil, Bool.or_false, kind_grafted, hkind, htwin.id_eq]
    | _ =>
      have hkind : s.kind ≠ .exprStmt := by simp [kind, hform, Form.kind]
      simp [hkind]
  unfold hasStatement
  rw [site.children_grafted hp, List.any_flatMap, Bool.eq_iff_iff, List.any_eq_true,
    List.any_eq_true]
  refine exists_congr fun s => and_congr_right fun hs => ?_
  obtain ⟨s', hgraft, htwin⟩ := site.exists_twin hp hs (.inr (.inl hconstructor))
  have hsame := htwin.congr
    (P := fun s => s.kind = .exprStmt && s.children.any (·.id = i)) (hstatement s hs)
    fun q hq => by simp [hq]
  rw [hgraft, List.any_cons, List.any_nil, Bool.or_false, hsame]

/-! ## The value of the assignment -/

/-- What is known about an expression is known as before. -/
theorem declared_grafted (site : SteadySite root around m n xs) {C F : Option Node}
    (hF : ∀ f ∈ F, ∃ outer, Occurs root outer f) (e : Node) :
    ∀ outer, Occurs root outer e →
      Oracle.declared ⟨C.map (grafted n.id xs), F.map (grafted n.id xs)⟩ (e.grafted n.id xs) =
        Oracle.declared ⟨C, F⟩ e := by
  have hclass := Scope.className?_grafted n.id xs C F (F.map (grafted n.id xs))
  induction e using Node.induction with
  | step e ih =>
    intro outer he
    cases e with
    | mk id span form =>
      cases form with
      | assign t v =>
        have hs : Segment.required v ∈ (Form.assign t v).segments := by simp [Form.segments]
        obtain ⟨v', hgraft, htwin, hv⟩ := site.exists_twin_required he hs
        simp only [grafted, Form.map, Form.join, hgraft, List.headD_cons, Oracle.declared]
        by_cases hkind : v.kind = .fetch
        · rw [Oracle.declared_of_fetch _ hkind,
            Oracle.declared_of_fetch _ (htwin.kind_eq.trans hkind)]
        · rw [htwin.grafted_eq hkind]
          exact ih v hv.parent.2 _ hv
      | newObject className args =>
        simp only [grafted, Form.map, Form.join, Oracle.declared, Oracle.ofNew, Oracle.scopeObject]
        rw [hclass]
      | var x =>
        simp only [grafted, Form.map, Form.join, Oracle.declared]
        exact site.ofVariable_grafted hF x
      | _ => simp only [grafted, Form.map, Form.join, Oracle.declared]

/-- What is known about an assigned value is known as before. -/
theorem declared_assignedValue_grafted (site : SteadySite root around m n xs) {C F : Option Node}
    (hF : ∀ f ∈ F, ∃ outer, Occurs root outer f) (hp : Occurs root outer p) :
    Oracle.declared ⟨C.map (grafted n.id xs), F.map (grafted n.id xs)⟩
        (p.grafted n.id xs).assignedValue = Oracle.declared ⟨C, F⟩ p.assignedValue := by
  unfold assignedValue
  rw [form_grafted]
  cases hform : p.form with
  | assign t v =>
    have hs : Segment.required v ∈ p.form.segments := by simp [hform, Form.segments]
    obtain ⟨v', hgraft, htwin, hv⟩ := site.exists_twin_required hp hs
    simp only [Form.map, Form.join, hgraft, List.headD_cons]
    by_cases hkind : v.kind = .fetch
    · rw [Oracle.declared_of_fetch _ hkind, Oracle.declared_of_fetch _ (htwin.kind_eq.trans hkind)]
    · rw [htwin.grafted_eq hkind]
      exact site.declared_grafted hF v _ hv
  | _ => exact site.declared_grafted hF p _ hp

/-- A class says of a property what it said before. -/
theorem memberResolution_grafted (site : SteadySite root around m n xs) (hp : Occurs root outer p)
    (name : String) :
    (p.grafted n.id xs).memberResolution .declared name = p.memberResolution .declared name := by
  unfold memberResolution
  rw [site.findProperty?_grafted hp, site.findMethod?_grafted hp]
  cases p.findProperty? name with
  | none => rfl
  | some property =>
    simp only [Option.map_some, isPrivateProperty_grafted]
    split
    · rfl
    · cases hmethod : p.findMethod? constructorName with
      | none => rfl
      | some f =>
        have hf : Occurs root (p :: outer) f :=
          hp.child (mem_children_of_mem_members (mem_members_of_findMethod? hmethod))
        have hconstructor : f.isConstructor = true := List.find?_some hmethod
        simp only [Option.map_some]
        rw [site.find?_assignsOwn_grafted hf]
        cases hfound : (f.methodBody.flatMap preorder).find? (assignsOwn name) with
        | none => rfl
        | some a =>
          obtain ⟨c, hc, ha⟩ := List.mem_flatMap.mp (List.mem_of_find?_eq_some hfound)
          obtain ⟨above, hbelow⟩ := mem_preorder_iff.mp ha
          have hoccurs := (hf.child (mem_children_of_mem_methodBody hc)).trans hbelow
          have hscope : ∀ g ∈ some f, ∃ outer, Occurs root outer g := by
            intro g hg
            obtain rfl := Option.some.inj hg
            exact ⟨_, hf⟩
          have htype := site.declared_assignedValue_grafted (C := some p) hscope hoccurs
          simp only [Option.map_some] at htype ⊢
          unfold resolutionOf
          rw [site.hasStatement_grafted hf hconstructor, id_grafted, htype]

/-! ## Conditions that are always true -/

/-- An `if` is always true if it was before. -/
theorem settledBody?_grafted (site : SteadySite root around m n xs) (hp : Occurs root outer p)
    {above : List Node} (hclass : nearestClass? above = (nearestClass? outer).map (grafted n.id xs))
    (hunder : underConstructor above = underConstructor outer) :
    TrueCondition.settledBody? .declared above (p.grafted n.id xs) =
      (TrueCondition.settledBody? .declared outer p).map fun ss => ss.flatMap (graft n.id xs) := by
  unfold TrueCondition.settledBody?
  rw [form_grafted]
  cases hform : p.form with
  | ifStmt cond ss es e =>
    have hcond : Segment.required cond ∈ p.form.segments := by simp [hform, Form.segments]
    have hes : Segment.items es ∈ p.form.segments := by simp [hform, Form.segments]
    have he : Segment.slot e ∈ p.form.segments := by simp [hform, Form.segments]
    obtain ⟨cond', hgraft, htwin, -⟩ := site.exists_twin_required hp hcond
    cases es with
    | cons d es =>
      obtain ⟨d', hd, -⟩ := site.exists_twin hp (List.mem_flatMap_of_mem hes List.mem_cons_self)
        (.inr (.inr ⟨_, hes, rfl, List.mem_cons_self⟩))
      simp [Form.map, Form.join, hd]
    | nil =>
      cases e with
      | some d =>
        have hmem : d ∈ (Segment.slot (some d)).toList := by simp [Segment.toList]
        obtain ⟨d', hd, -⟩ := site.exists_twin hp (List.mem_flatMap_of_mem he hmem)
          (.inr (.inr ⟨_, he, rfl, hmem⟩))
        simp [Form.map, Form.join, hd]
      | none =>
        have hmember := TrueCondition.fetchedMember?_congr htwin.isOwnMember_eq
        simp only [Form.map, Form.join, hgraft, List.headD_cons, List.map_nil, List.flatten_nil,
          Option.map_none, Option.bind_none, hmember, hclass, hunder]
        cases TrueCondition.fetchedMember? cond with
        | none => rfl
        | some member =>
          cases hcls : nearestClass? outer with
          | none => rfl
          | some cls =>
            obtain ⟨-, rest, -, hoccurs, -⟩ := hp.of_mem_around (List.mem_of_find?_eq_some hcls)
            simp only [Option.map_some, site.memberResolution_grafted hoccurs]
            cases underConstructor outer with
            | true => rfl
            | false =>
              cases cls.memberResolution .declared member with
              | unresolved reason => rfl
              | resolved type => cases htrue : type.isAlwaysTrue <;> simp [htrue, List.flatMap_def]
  | _ => rfl

end SteadySite

/-! ## Steady grafts -/

namespace UnwrapSite

variable {root m n p : Node} {around outer body : List Node}

theorem steady (site : UnwrapSite root around m n body) : SteadySite root around m n body where
  toQuietSite := site.quiet
  twin hplace := by
    exfalso
    rcases hplace with hclass | hconstructor | hstmts
    · exact site.noClass hclass
    · exact Bool.false_ne_true (site.noConstructor.symm.trans hconstructor)
    · exact Bool.false_ne_true (hstmts.symm.trans site.stmts)
  assigned name := by
    refine site.find?_place fun q hq => ?_
    unfold assignsOwn at hq
    split at hq
    · rename_i hform
      simp [kind, hform, Form.kind]
    · exact absurd hq (by simp)

/-- An `if` is always true if it was before. -/
theorem settledBody?_graftedAround (site : UnwrapSite root around m n body)
    (hp : Occurs root outer p) :
    TrueCondition.settledBody? .declared (graftedAround n.id body outer) (p.grafted n.id body) =
      (TrueCondition.settledBody? .declared outer p).map
        fun ss => ss.flatMap (graft n.id body) := by
  have hkind := site.kind_of_mem_around hp
  exact site.steady.settledBody?_grafted hp (nearestClass?_graftedAround body hkind)
    (underConstructor_graftedAround hkind)

/-- The rules want of every other node what they wanted of it. -/
theorem wants_iff (site : UnwrapSite root around m n body) (hp : Occurs root outer p)
    (rule : RuleConfig) :
    rule.Wants (graftedAround n.id body outer) (p.grafted n.id body) ↔ rule.Wants outer p := by
  cases rule with
  | trueCondition =>
    unfold RuleConfig.Wants
    simp only
    rw [site.settledBody?_graftedAround hp, Option.isSome_map]
  | canonicalAccess access =>
    unfold RuleConfig.Wants
    simp only
    rw [site.containerIn?_graftedAround hp]

end UnwrapSite

end Node

namespace CanonicalAccess

variable {access : CanonicalAccess} {root m n p : Node} {around above outer : List Node}
  {x : String} {next : Nat}

theorem steadySite (hx : access.containerIn? .declared around n = some x) (hthis : x ≠ "this")
    (site : Node.GraftSite root above m n [access.lengthened n x next]) :
    Node.SteadySite root above m n [access.lengthened n x next] where
  toQuietSite := quietSite hx site
  twin _ := by
    obtain ⟨object, hform, hobject, -⟩ := containerIn?_eq_some_iff.mp hx
    have hkind : n.kind = .fetch := by rw [Node.kind, hform]; rfl
    refine ⟨hkind, _, rfl, rfl, hkind.symm, fun name => ?_, fun hne => absurd hkind hne⟩
    simp [Node.isOwnMember, lengthened, hform, Node.isVariable, hobject, hthis]
  assigned name := by
    obtain ⟨object, hform, hobject, -⟩ := containerIn?_eq_some_iff.mp hx
    simp [lengthened, Node.preorder_eq, Node.children, Form.children, Form.segments, Segment.toList,
      hform, hobject, Node.assignsOwn]

/-- An `if` is always true if it was before a fetch was made longer that is not from `$this`. -/
theorem settledBody?_grafted (hx : access.containerIn? .declared around n = some x)
    (hthis : x ≠ "this") (site : Node.GraftSite root above m n [access.lengthened n x next])
    (hp : root.Occurs outer p) (hne : ∀ a ∈ p :: outer, a.id ≠ n.id) :
    TrueCondition.settledBody? .declared
        (outer.map (Node.grafted n.id [access.lengthened n x next]))
        (p.grafted n.id [access.lengthened n x next]) =
      (TrueCondition.settledBody? .declared outer p).map
        fun ss => ss.flatMap (Node.graft n.id [access.lengthened n x next]) := by
  have hapart : ∀ a ∈ outer, a.id ≠ n.id := fun a ha => hne a (List.mem_cons_of_mem _ ha)
  have hkind : ∀ a ∈ outer, a.id = n.id → a.kind = .ifStmt := fun a ha h => absurd h (hapart a ha)
  have hclass := Node.nearestClass?_graftedAround [access.lengthened n x next] hkind
  have hunder : underConstructor
      (Node.graftedAround n.id [access.lengthened n x next] outer) = underConstructor outer :=
    Node.underConstructor_graftedAround hkind
  rw [Node.graftedAround_of_apart hapart] at hclass hunder
  exact (steadySite hx hthis site).settledBody?_grafted hp hclass hunder

/-- The access rules want of every other node what they wanted of it, and where the fetch is not
from `$this` all rules do. -/
theorem wants_iff (hx : access.containerIn? .declared around n = some x)
    (site : Node.GraftSite root above m n [access.lengthened n x next]) (hp : root.Occurs outer p)
    (hne : ∀ a ∈ p :: outer, a.id ≠ n.id) {rule : RuleConfig}
    (hrule : rule ≠ .trueCondition ∨ x ≠ "this") :
    rule.Wants (outer.map (Node.grafted n.id [access.lengthened n x next]))
        (p.grafted n.id [access.lengthened n x next]) ↔ rule.Wants outer p := by
  cases rule with
  | trueCondition =>
    unfold RuleConfig.Wants
    simp only
    rw [settledBody?_grafted hx (hrule.resolve_left fun h => h rfl) site hp hne, Option.isSome_map]
  | canonicalAccess access' =>
    unfold RuleConfig.Wants
    simp only
    rw [containerIn?_grafted hx site hp hne]

end CanonicalAccess

end PhpRefactor
