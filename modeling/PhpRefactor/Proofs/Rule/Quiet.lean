import PhpRefactor.Proofs.Index.Edit
import PhpRefactor.Proofs.Rule.Decision

/-!
# Grafts that the type of a variable does not notice

What is known about a variable depends on the declarations around it, on the default values of
parameters and on whether the function gives the variable another value.  A graft leaves all that
alone as long as it is quiet (`Node.QuietSite`): it changes a list of statements or puts a fetch in
place of a fetch, and takes away or brings in no rebinding.

So whether a fetch is to be made longer does not change with a quiet graft
(`QuietSite.containerIn?_grafted`).
-/

set_option autoImplicit false

namespace PhpRefactor

/-! ## What is read off a scope -/

theorem Scope.className?_grafted (i : Nat) (xs : List Node) (C F F' : Option Node) :
    Scope.className? ⟨C.map (Node.grafted i xs), F'⟩ = Scope.className? ⟨C, F⟩ := by
  cases C with
  | none => rfl
  | some c =>
    cases c with
    | mk id span form => cases form <;> rfl

theorem Scope.params_grafted {i : Nat} {xs : List Node} (C C' F : Option Node) :
    Scope.params ⟨C', F.map (Node.grafted i xs)⟩ =
      (Scope.params ⟨C, F⟩).map fun p => (p.map (Node.graft i xs)).join := by
  cases F with
  | none => rfl
  | some f =>
    cases f with
    | mk id span form =>
      cases form <;> simp [Scope.params, Node.grafted, Form.map, Form.join, Function.comp_def]

theorem Scope.segment_mem_of_mem_params {C : Option Node} {f : Node} {p : Param Node}
    (h : p ∈ Scope.params ⟨C, some f⟩) : p.segment ∈ f.form.segments := by
  rw [Scope.params_eq] at h
  obtain ⟨rest, hrest⟩ := f.form.exists_segments_eq
  rw [hrest]
  exact List.mem_append_left _ (List.mem_map_of_mem h)

/-- The variable in `$x->name`. -/
def Node.fetchedFrom? (name : String) (n : Node) : Option String :=
  match n.form with
  | .fetch object s => if s = name then object.varName? else none
  | _ => none

/-- The access rule sees of a fetch the variable that it is from, what is known about that variable,
and whether the fetch is itself fetched from. -/
theorem CanonicalAccess.containerIn?_eq_some_iff_fetchedFrom? {access : CanonicalAccess}
    {around : List Node} {n : Node} {x : String} :
    access.containerIn? .declared around n = some x ↔
      n.fetchedFrom? access.sentinel = some x ∧
        access.isContainer (Oracle.ofVariable ⟨nearestClass? around, nearestFunction? around⟩ x) =
          true ∧
        (around.head?.any fun parent => parent.kind = .fetch) = false := by
  rw [containerIn?_eq_some_iff]
  constructor
  · rintro ⟨object, hform, hobject, hcontainer, hparent⟩
    rw [Oracle.declared_of_var hobject] at hcontainer
    refine ⟨?_, hcontainer, ?_⟩
    · rw [Node.fetchedFrom?, hform]
      dsimp only
      rw [if_pos rfl, Node.varName?_eq_some_iff]
      exact hobject
    · rw [Option.any_eq_false]
      intro parent hmem
      simpa using hparent parent hmem
  · rintro ⟨hfetched, hcontainer, hparent⟩
    unfold Node.fetchedFrom? at hfetched
    split at hfetched
    · rename_i object s hform
      split at hfetched
      · rename_i hs
        subst hs
        rw [Node.varName?_eq_some_iff] at hfetched
        refine ⟨object, hform, hfetched, ?_, fun parent hmem => ?_⟩
        · rw [Oracle.declared_of_var hfetched]
          exact hcontainer
        · rw [Option.any_eq_false] at hparent
          simpa using hparent parent hmem
      · exact absurd hfetched (by simp)
    · exact absurd hfetched (by simp)

/-! ## The nodes around a node -/

namespace Node

/-- What becomes of the nodes around a node when the node with the identity `i` makes way. -/
def graftedAround (i : Nat) (xs around : List Node) : List Node :=
  (around.filter (·.id ≠ i)).map (grafted i xs)

@[simp] theorem isConstructor_grafted {i : Nat} {xs : List Node} {n : Node} :
    (n.grafted i xs).isConstructor = n.isConstructor := by
  unfold isConstructor isMethodNamed
  rw [form_grafted]
  cases n.form <;> rfl

section

variable {i : Nat} {xs around : List Node}

theorem graftedAround_cons_of_eq {a : Node} (h : a.id = i) :
    graftedAround i xs (a :: around) = graftedAround i xs around := by
  rw [graftedAround, List.filter_cons_of_neg (by simpa using h)]
  rfl

theorem graftedAround_cons_of_ne {a : Node} (h : a.id ≠ i) :
    graftedAround i xs (a :: around) = a.grafted i xs :: graftedAround i xs around := by
  rw [graftedAround, List.filter_cons_of_pos (by simpa using h)]
  rfl

theorem nearestClass?_graftedAround (xs : List Node)
    (h : ∀ a ∈ around, a.id = i → a.kind = .ifStmt) :
    nearestClass? (graftedAround i xs around) = (nearestClass? around).map (grafted i xs) := by
  induction around with
  | nil => rfl
  | cons a around ih =>
    have hrest := ih fun b hb => h b (List.mem_cons_of_mem _ hb)
    unfold nearestClass? at hrest ⊢
    by_cases hid : a.id = i
    · have hkind := h a List.mem_cons_self hid
      rw [graftedAround_cons_of_eq hid, hrest, List.find?_cons_of_neg (by simp [hkind])]
    · rw [graftedAround_cons_of_ne hid, List.find?_cons, List.find?_cons, hrest, kind_grafted]
      cases decide (a.kind = .classDecl) <;> rfl

theorem nearestFunction?_graftedAround (xs : List Node)
    (h : ∀ a ∈ around, a.id = i → a.kind = .ifStmt) :
    nearestFunction? (graftedAround i xs around) =
      (nearestFunction? around).map (grafted i xs) := by
  induction around with
  | nil => rfl
  | cons a around ih =>
    have hrest := ih fun b hb => h b (List.mem_cons_of_mem _ hb)
    by_cases hid : a.id = i
    · have hkind := h a List.mem_cons_self hid
      rw [graftedAround_cons_of_eq hid, hrest, nearestFunction?, hkind]
    · rw [graftedAround_cons_of_ne hid, nearestFunction?, nearestFunction?, hrest, kind_grafted]
      cases a.kind <;> rfl

theorem underConstructor_graftedAround (h : ∀ a ∈ around, a.id = i → a.kind = .ifStmt) :
    underConstructor (graftedAround i xs around) = underConstructor around := by
  induction around with
  | nil => rfl
  | cons a around ih =>
    have hrest := ih fun b hb => h b (List.mem_cons_of_mem _ hb)
    unfold underConstructor at hrest ⊢
    by_cases hid : a.id = i
    · have hkind := h a List.mem_cons_self hid
      have hnone : a.isConstructor = false := by
        rw [Bool.eq_false_iff]
        intro hconstructor
        exact absurd (hkind.symm.trans (kind_of_isConstructor hconstructor)) (by decide)
      rw [graftedAround_cons_of_eq hid, hrest, List.takeWhile_cons_of_pos (by simp [hkind]),
        List.any_cons, hnone, Bool.false_or]
    · rw [graftedAround_cons_of_ne hid, List.takeWhile_cons, List.takeWhile_cons, kind_grafted]
      split
      · rw [List.any_cons, List.any_cons, hrest, isConstructor_grafted]
      · rfl

end

theorem graftedAround_of_apart {i : Nat} {xs around : List Node} (h : ∀ a ∈ around, a.id ≠ i) :
    graftedAround i xs around = around.map (grafted i xs) := by
  rw [graftedAround, List.filter_eq_self.mpr fun a ha => by simpa using h a ha]

end Node

/-! ## Quiet grafts -/

namespace Node

/-- A graft that does not change what is known about variables. -/
structure QuietSite (root : Node) (around : List Node) (m n : Node) (xs : List Node) : Prop extends
    GraftSite root around m n xs where
  /-- Away from lists of statements a fetch comes in place of a fetch. -/
  single : ∀ s ∈ m.form.segments, s.isStatements = false → s.holds n.id = true →
    ∃ x, xs = [x] ∧ x.kind = .fetch ∧ n.kind = .fetch
  /-- What came in gives a variable a value where what was there did. -/
  rebindings : ∀ name, (xs.flatMap preorder).find? (Scope.isRebinding name) =
    (n.preorder.find? (Scope.isRebinding name)).map (grafted n.id xs)

namespace QuietSite

variable {root m n p : Node} {around outer xs : List Node}

/-- Away from lists of statements a child stays the only one in its place, and what can be seen of
it from there stays too. -/
theorem exists_graft_eq (site : QuietSite root around m n xs) (hp : Occurs root outer p)
    {s : Segment Node} (hs : s ∈ p.form.segments) (hsort : s.isStatements = false) {c : Node}
    (hc : c ∈ s.toList) :
    ∃ c', c.graft n.id xs = [c'] ∧ c'.varName? = c.varName? ∧ c'.kind = c.kind := by
  by_cases hid : c.id = n.id
  · obtain ⟨rfl, -, rfl⟩ := site.eq_of_mem_children hp (List.mem_flatMap_of_mem hs hc) hid
    obtain ⟨x, rfl, hx, hn⟩ :=
      site.single s hs hsort (Segment.holds_iff.mpr (List.mem_map_of_mem hc))
    refine ⟨x, graft_of_id_eq rfl, ?_, hx.trans hn.symm⟩
    rw [varName?_of_kind (by rw [hx]; decide), varName?_of_kind (by rw [hn]; decide)]
  · exact ⟨c.grafted n.id xs, graft_of_id_ne hid, varName?_grafted, kind_grafted⟩

theorem isRebinding_grafted (site : QuietSite root around m n xs) (hp : Occurs root outer p)
    (name : String) :
    Scope.isRebinding name (p.grafted n.id xs) = Scope.isRebinding name p := by
  unfold Scope.isRebinding
  rw [form_grafted]
  cases hform : p.form with
  | assign target value =>
    have hs : Segment.required target ∈ p.form.segments := by simp [hform, Form.segments]
    obtain ⟨c, hc, hname, -⟩ := site.exists_graft_eq hp hs rfl List.mem_cons_self
    simp [Form.map, Form.join, hc, isVariable_eq, hname]
  | catchClause types v body =>
    have hs : Segment.required v ∈ p.form.segments := by simp [hform, Form.segments]
    obtain ⟨c, hc, hname, -⟩ := site.exists_graft_eq hp hs rfl List.mem_cons_self
    simp [Form.map, Form.join, hc, isVariable_eq, hname]
  | _ => rfl

theorem fetchedFrom?_grafted (site : QuietSite root around m n xs) (hp : Occurs root outer p)
    (name : String) : (p.grafted n.id xs).fetchedFrom? name = p.fetchedFrom? name := by
  unfold fetchedFrom?
  rw [form_grafted]
  cases hform : p.form with
  | fetch object s =>
    have hs : Segment.required object ∈ p.form.segments := by simp [hform, Form.segments]
    obtain ⟨c, hc, hname, -⟩ := site.exists_graft_eq hp hs rfl List.mem_cons_self
    simp [Form.map, Form.join, hc, hname]
  | _ => rfl

/-- The default value of a parameter is the literal `null` as before. -/
theorem isNullLiteral_grafted (site : QuietSite root around m n xs) (hp : Occurs root outer p)
    {param : Param Node} (hparam : param.segment ∈ p.form.segments) :
    Oracle.isNullLiteral ((param.map (graft n.id xs)).join).initial =
      Oracle.isNullLiteral param.initial := by
  cases hinitial : param.initial with
  | none => simp [Param.map, Param.join, hinitial]
  | some c =>
    have hc : c ∈ param.segment.toList := by simp [Param.segment, Segment.toList, hinitial]
    obtain ⟨c', hgraft, -, hkind⟩ := site.exists_graft_eq hp hparam rfl hc
    simp only [Param.map, Param.join, hinitial, Option.map_some, Option.bind_some, hgraft,
      List.head?_cons, Oracle.isNullLiteral_some, hkind]

/-- A function gives a variable another value as before. -/
theorem rebinds_grafted (site : QuietSite root around m n xs) (C C' : Option Node) {F : Option Node}
    (hF : ∀ f ∈ F, ∃ outer, Occurs root outer f) (x : String) :
    Scope.rebinds ⟨C', F.map (grafted n.id xs)⟩ x = Scope.rebinds ⟨C, F⟩ x := by
  cases F with
  | none => rfl
  | some f =>
    obtain ⟨outer, hf⟩ := hF f rfl
    have hbelow : ((f.children.flatMap (graft n.id xs)).flatMap preorder).find?
        (Scope.isRebinding x) =
        ((f.children.flatMap preorder).find? (Scope.isRebinding x)).map (grafted n.id xs) := by
      refine find?_flatMap_graft fun c hc => ?_
      refine site.find?_graft (fun _ q hq _ => site.isRebinding_grafted hq x) ?_ c _ (hf.child hc)
      exact site.rebindings x
    change ((f.grafted n.id xs).children.flatMap preorder).any (Scope.isRebinding x) =
      (f.children.flatMap preorder).any (Scope.isRebinding x)
    rw [site.children_grafted hf, ← List.isSome_find?, ← List.isSome_find?, hbelow,
      Option.isSome_map]

/-- What is known about a variable is known as before. -/
theorem ofVariable_grafted (site : QuietSite root around m n xs) {C F : Option Node}
    (hF : ∀ f ∈ F, ∃ outer, Occurs root outer f) (x : String) :
    Oracle.ofVariable ⟨C.map (grafted n.id xs), F.map (grafted n.id xs)⟩ x =
      Oracle.ofVariable ⟨C, F⟩ x := by
  have hclass := Scope.className?_grafted n.id xs C F (F.map (grafted n.id xs))
  have hfind :
      (Scope.params ⟨C.map (grafted n.id xs), F.map (grafted n.id xs)⟩).find? (·.name = x) =
        ((Scope.params ⟨C, F⟩).find? (·.name = x)).map fun p => (p.map (graft n.id xs)).join := by
    rw [Scope.params_grafted C, List.find?_map]
    rfl
  unfold Oracle.ofVariable Oracle.scopeObject
  rw [hclass, Option.isSome_map, hfind]
  split
  · rfl
  · cases hparam : (Scope.params ⟨C, F⟩).find? (·.name = x) with
    | none => rfl
    | some param =>
      have hmem := List.mem_of_find?_eq_some hparam
      cases F with
      | none => exact absurd hmem List.not_mem_nil
      | some f =>
        obtain ⟨outer, hf⟩ := hF f rfl
        have hnull := site.isNullLiteral_grafted hf (Scope.segment_mem_of_mem_params hmem)
        have hrebinds := site.rebinds_grafted C (C.map (grafted n.id xs)) hF x
        simp only [Option.map_some] at hrebinds hclass ⊢
        rw [hnull, hrebinds]
        split
        · rfl
        · simp only [Param.map, Param.join]
          split
          · exact Oracle.ofHint_congr hclass _
          · rfl

/-- A fetch is to be made longer as before. -/
theorem containerIn?_grafted (site : QuietSite root around m n xs) {access : CanonicalAccess}
    (hp : Occurs root outer p) {above : List Node}
    (hclass : nearestClass? above = (nearestClass? outer).map (grafted n.id xs))
    (hfunction : nearestFunction? above = (nearestFunction? outer).map (grafted n.id xs))
    (hparent : (above.head?.any fun parent => parent.kind = .fetch) =
      outer.head?.any fun parent => parent.kind = .fetch) :
    access.containerIn? .declared above (p.grafted n.id xs) =
      access.containerIn? .declared outer p := by
  have hscope : ∀ x, Oracle.ofVariable ⟨nearestClass? above, nearestFunction? above⟩ x =
      Oracle.ofVariable ⟨nearestClass? outer, nearestFunction? outer⟩ x := by
    intro x
    rw [hclass, hfunction]
    refine site.ofVariable_grafted (fun f hf => ?_) x
    obtain ⟨inner, rest, rfl, -⟩ := exists_of_nearestFunction?_eq_some hf
    obtain ⟨-, rest, -, hoccurs, -⟩ := hp.of_mem_around (m := f) (by simp)
    exact ⟨rest, hoccurs⟩
  refine Option.ext ?_
  intro x
  rw [CanonicalAccess.containerIn?_eq_some_iff_fetchedFrom?,
    CanonicalAccess.containerIn?_eq_some_iff_fetchedFrom?,
    site.fetchedFrom?_grafted hp, hscope, hparent]

end QuietSite

end Node

end PhpRefactor
