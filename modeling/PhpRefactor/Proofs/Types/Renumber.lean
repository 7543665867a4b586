import PhpRefactor.Types.Declared
import PhpRefactor.Proofs.Syntax.Renumber
import PhpRefactor.Proofs.Types.Member

/-!
# Types do not see numbers

What is known about an expression is read off constructs and names, so it is known of the
renumbered expression among the renumbered declarations as well (`Oracle.declared_renumber`).

One question is asked by identity: whether the first assignment to a property is a statement of its
own.  So the identities in a class must stay apart for the class to say the same about a property
(`Node.memberResolution_renumber`).
-/

set_option autoImplicit false

namespace PhpRefactor

/-- The declarations around an expression, changed. -/
def Scope.map (f : Node → Node) (scope : Scope) : Scope :=
  ⟨scope.classDecl.map f, scope.function.map f⟩

theorem find?_map_of_eq {α β : Type} {g : α → β} {p : α → Bool} {q : β → Bool}
    (h : ∀ a, q (g a) = p a) (l : List α) : (l.map g).find? q = (l.find? p).map g := by
  rw [List.find?_map]
  exact congrArg (Option.map g) (congrArg (List.find? · l) (funext h))

namespace Node

variable (f : Nat → Nat) (n : Node)

/-! ## What is read off a node -/

@[simp] theorem isVariable_renumber (name : String) :
    (n.renumber f).isVariable name = n.isVariable name := by
  unfold isVariable
  rw [form_renumber]
  cases n.form <;> rfl

@[simp] theorem isOwnMember_renumber (name : String) :
    (n.renumber f).isOwnMember name = n.isOwnMember name := by
  unfold isOwnMember
  rw [form_renumber]
  cases n.form with
  | fetch o x => simp [Form.map]
  | _ => rfl

@[simp] theorem isMethodNamed_renumber (name : String) :
    (n.renumber f).isMethodNamed name = n.isMethodNamed name := by
  unfold isMethodNamed
  rw [form_renumber]
  cases n.form <;> rfl

theorem isPropertyNamed_renumber (name : String) :
    (n.renumber f).isPropertyNamed name = n.isPropertyNamed name := by
  unfold isPropertyNamed
  rw [form_renumber]
  cases n.form <;> rfl

theorem isPrivateProperty_renumber : (n.renumber f).isPrivateProperty = n.isPrivateProperty := by
  unfold isPrivateProperty
  rw [form_renumber]
  cases n.form <;> rfl

theorem assignsOwn_renumber (name : String) :
    (n.renumber f).assignsOwn name = n.assignsOwn name := by
  unfold assignsOwn
  rw [form_renumber]
  cases n.form with
  | assign t v => simp [Form.map]
  | _ => rfl

theorem isRebinding_renumber (name : String) :
    Scope.isRebinding name (n.renumber f) = Scope.isRebinding name n := by
  unfold Scope.isRebinding
  rw [form_renumber]
  cases n.form with
  | assign t v => simp [Form.map]
  | catchClause ts v ss => simp [Form.map]
  | _ => rfl

theorem members_renumber : (n.renumber f).members = n.members.map (renumber f) := by
  unfold members
  rw [form_renumber]
  cases n.form <;> rfl

theorem methodBody_renumber : (n.renumber f).methodBody = n.methodBody.map (renumber f) := by
  unfold methodBody
  rw [form_renumber]
  cases n.form <;> rfl

theorem assignedValue_renumber : (n.renumber f).assignedValue = n.assignedValue.renumber f := by
  unfold assignedValue
  rw [form_renumber]
  cases n.form <;> rfl

theorem flatMap_preorder_renumber (ns : List Node) :
    (ns.map (renumber f)).flatMap preorder = (ns.flatMap preorder).map (renumber f) := by
  rw [List.flatMap_map, List.map_flatMap]
  exact List.flatMap_congr fun m _ => preorder_renumber m

end Node

/-! ## Expressions -/

namespace Scope

variable (f : Nat → Nat) (scope : Scope)

theorem className?_renumber : (scope.map (Node.renumber f)).className? = scope.className? := by
  obtain ⟨C, F⟩ := scope
  cases C with
  | none => rfl
  | some c =>
    cases c with
    | mk id span form =>
      simp only [map, Option.map_some, Node.renumber_eq]
      cases form <;> rfl

theorem params_renumber :
    (scope.map (Node.renumber f)).params = scope.params.map (·.map (Node.renumber f)) := by
  obtain ⟨C, F⟩ := scope
  cases F with
  | none => rfl
  | some c =>
    cases c with
    | mk id span form =>
      simp only [map, Option.map_some, Node.renumber_eq]
      cases form <;> rfl

theorem rebinds_renumber (name : String) :
    (scope.map (Node.renumber f)).rebinds name = scope.rebinds name := by
  obtain ⟨C, F⟩ := scope
  cases F with
  | none => rfl
  | some c =>
    change (c.renumber f).descendants.any (isRebinding name) = c.descendants.any (isRebinding name)
    rw [Node.descendants, Node.children_renumber, Node.flatMap_preorder_renumber, List.any_map]
    exact congrArg _ (funext fun m => m.isRebinding_renumber f name)

end Scope

namespace Oracle

variable (f : Nat → Nat) (scope : Scope)

theorem isNullLiteral_renumber (value : Option Node) :
    isNullLiteral (value.map (Node.renumber f)) = isNullLiteral value := by
  cases value with
  | none => rfl
  | some c =>
    cases c with
    | mk id span form =>
      simp only [Option.map_some, Node.renumber_eq]
      cases form <;> rfl

theorem scopeObject_renumber : scopeObject (scope.map (Node.renumber f)) = scopeObject scope := by
  rw [scopeObject, scopeObject, Scope.className?_renumber]

theorem ofHint_renumber (hint : String) :
    ofHint (scope.map (Node.renumber f)) hint = ofHint scope hint := by
  unfold ofHint
  rw [scopeObject_renumber]

theorem ofVariable_renumber (name : String) :
    ofVariable (scope.map (Node.renumber f)) name = ofVariable scope name := by
  have hclass : (scope.map (Node.renumber f)).classDecl.isSome = scope.classDecl.isSome :=
    Option.isSome_map
  have hfind : (scope.map (Node.renumber f)).params.find? (·.name = name) =
      (scope.params.find? (·.name = name)).map (·.map (Node.renumber f)) := by
    rw [Scope.params_renumber]
    exact find?_map_of_eq (fun _ => rfl) scope.params
  unfold ofVariable
  rw [hclass, hfind, scopeObject_renumber]
  cases scope.params.find? (·.name = name) with
  | none => rfl
  | some p =>
    simp only [Option.map_some, Param.map, isNullLiteral_renumber, Scope.rebinds_renumber,
      ofHint_renumber]

/-- What is known about an expression has nothing to do with numbers. -/
theorem declared_renumber (e : Node) :
    declared (scope.map (Node.renumber f)) (e.renumber f) = declared scope e := by
  induction e using Node.induction with
  | step e ih =>
    rw [Node.renumber_eq]
    cases e with
    | mk id span form =>
      cases form with
      | assign t v =>
        simp only [Form.map, declared]
        exact ih v (by simp [Node.children, Form.children, Form.segments, Segment.toList])
      | newObject className args =>
        simp only [Form.map, declared, ofNew, scopeObject_renumber]
      | var name => simp only [Form.map, declared, ofVariable_renumber]
      | _ => simp only [Form.map, declared]

end Oracle

/-! ## Properties -/

namespace Node

variable {f : Nat → Nat}

theorem findProperty?_renumber (cls : Node) (name : String) :
    (cls.renumber f).findProperty? name = (cls.findProperty? name).map (renumber f) := by
  rw [findProperty?, members_renumber]
  exact find?_map_of_eq (fun m => m.isPropertyNamed_renumber f name) cls.members

theorem findMethod?_renumber (cls : Node) (name : String) :
    (cls.renumber f).findMethod? name = (cls.findMethod? name).map (renumber f) := by
  rw [findMethod?, members_renumber]
  exact find?_map_of_eq (fun m => m.isMethodNamed_renumber f name) cls.members

theorem find?_assignsOwn_renumber (m : Node) (name : String) :
    ((m.renumber f).methodBody.flatMap preorder).find? (assignsOwn name) =
      ((m.methodBody.flatMap preorder).find? (assignsOwn name)).map (renumber f) := by
  rw [methodBody_renumber, flatMap_preorder_renumber]
  exact find?_map_of_eq (fun p => p.assignsOwn_renumber f name) _

/-- A statement of its own stays one, and becomes one only if it takes the number of one. -/
theorem hasStatement_renumber {m : Node} {i : Nat} (hf : ∀ j ∈ m.ids, f j = f i → j = i) :
    (m.renumber f).hasStatement (f i) = m.hasStatement i := by
  unfold hasStatement
  rw [children_renumber, List.any_map, Bool.eq_iff_iff, List.any_eq_true, List.any_eq_true]
  refine exists_congr fun s => and_congr_right fun hs => ?_
  rw [Function.comp_apply, kind_renumber, children_renumber, List.any_map, Bool.and_eq_true,
    Bool.and_eq_true, List.any_eq_true, List.any_eq_true]
  refine and_congr_right fun _ => exists_congr fun c => and_congr_right fun hc => ?_
  rw [Function.comp_apply, id_renumber, decide_eq_true_eq, decide_eq_true_eq]
  refine ⟨hf c.id ?_, fun h => by rw [h]⟩
  exact ids_subset_of_mem_children hs (ids_subset_of_mem_children hc c.id_mem_ids)

/-- What a class says about a property has nothing to do with numbers, as long as the numbers in the
class are told apart. -/
theorem memberResolution_renumber (cls : Node)
    (hf : ∀ i ∈ cls.ids, ∀ j ∈ cls.ids, f i = f j → i = j) (name : String) :
    (cls.renumber f).memberResolution .declared name = cls.memberResolution .declared name := by
  unfold memberResolution
  rw [findProperty?_renumber, findMethod?_renumber]
  cases cls.findProperty? name with
  | none => rfl
  | some property =>
    dsimp only [Option.map_some]
    rw [isPrivateProperty_renumber]
    split
    · rfl
    cases hmethod : cls.findMethod? constructorName with
    | none => rfl
    | some m =>
      dsimp only [Option.map_some]
      rw [find?_assignsOwn_renumber]
      cases hassign : (m.methodBody.flatMap preorder).find? (assignsOwn name) with
      | none => rfl
      | some a =>
        have hmember := mem_children_of_mem_members (mem_members_of_findMethod? hmethod)
        have hm : m.ids ⊆ cls.ids := ids_subset_of_mem_children hmember
        have ha : a.id ∈ m.ids := by
          obtain ⟨c, hc, hmem⟩ := List.mem_flatMap.mp (List.mem_of_find?_eq_some hassign)
          exact ids_subset_of_mem_children (mem_children_of_mem_methodBody hc)
            (List.mem_map_of_mem hmem)
        dsimp only [Option.map_some]
        rw [resolutionOf, resolutionOf, id_renumber,
          hasStatement_renumber fun j hj => hf j (hm hj) a.id (hm ha), assignedValue_renumber]
        have hvalue := Oracle.declared_renumber f ⟨some cls, some m⟩ a.assignedValue
        simp only [Scope.map, Option.map_some] at hvalue
        rw [hvalue]

end Node

end PhpRefactor
