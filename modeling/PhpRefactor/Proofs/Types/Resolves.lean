import PhpRefactor.Types.Declared
import PhpRefactor.Proofs.Types.Member

/-!
# The rules by which a property has a type

What a class says about one of its private properties, as rules that mention nothing but the class:
`Node.Resolves` has one rule for each answer.  The rules look at declarations and at assignments, at
no other use of the property, and at no index, and of several assignments the first one in order of
reading decides (`Node.FirstAssigns`).

`IndexedTree.memberType_resolves` says that this is what is found by the walk through the
constructor, which looks for uses of the property and asks the index about each of them: the walk
ends without an error, and the rules give its answer and no other.  Two classes whose first
assignments agree get the same answer, whatever follows the assignments and wherever else the
property is read, unless the oracle sees a difference.
-/

set_option autoImplicit false

namespace PhpRefactor

/-- The first element of a list with a property. -/
def IsFirst {α : Type} (P : α → Prop) (l : List α) (x : α) : Prop :=
  ∃ before after, l = before ++ x :: after ∧ P x ∧ ∀ y ∈ before, ¬ P y

section

variable {α : Type} {P : α → Prop} {p : α → Bool} {l : List α}

theorem isFirst_iff_find? (h : ∀ x, p x = true ↔ P x) {x : α} :
    IsFirst P l x ↔ l.find? p = some x := by
  have hnot : ∀ y, (!p y) = true ↔ ¬ P y := by
    intro y
    rw [Bool.not_eq_true', ← h, Bool.not_eq_true]
  simp only [List.find?_eq_some_iff_append, IsFirst, h, hnot]
  constructor
  · rintro ⟨before, after, hl, hx, hbefore⟩
    exact ⟨hx, before, after, hl, hbefore⟩
  · rintro ⟨hx, before, after, hl, hbefore⟩
    exact ⟨before, after, hl, hx, hbefore⟩

theorem find?_eq_none_iff_forall {β : Type} {Q : α → β → Prop}
    (h : ∀ x, p x = true ↔ ∃ y, Q x y) : l.find? p = none ↔ ∀ x ∈ l, ∀ y, ¬ Q x y := by
  simp only [List.find?_eq_none, h, not_exists]

end

namespace Node

/-- The node declares a property of this name. -/
def DeclaresProperty (p : Node) (name : String) (visibility : Visibility) : Prop :=
  ∃ isStatic initial, p.form = .property visibility isStatic name initial

/-- The node declares a constructor with this body.  The case of the name does not matter. -/
def DeclaresConstructor (f : Node) (body : List Node) : Prop :=
  ∃ x visibility isStatic params, f.form = .method x visibility isStatic params body ∧
    lowerAscii x = "__construct"

/-- The node assigns a value to `$this->name`. -/
def Assigns (a : Node) (name : String) (value : Node) : Prop :=
  ∃ target this, a.form = .assign target value ∧ target.form = .fetch this name ∧
    this.form = .var "this"

/-- The first property of this name that the class declares is private. -/
def KeepsPrivate (cls : Node) (name : String) : Prop :=
  ∃ p, IsFirst (fun p => ∃ v, p.DeclaresProperty name v) cls.members p ∧
    p.DeclaresProperty name .isPrivate

/-- The first constructor that the class declares, and its body. -/
def Constructs (cls f : Node) (body : List Node) : Prop :=
  IsFirst (fun g => ∃ b, g.DeclaresConstructor b) cls.members f ∧ f.DeclaresConstructor body

/-- In order of reading `a` is the first node of the body, at whatever depth, that assigns to the
property, and it assigns this value. -/
def FirstAssigns (body : List Node) (name : String) (a value : Node) : Prop :=
  IsFirst (fun b => ∃ v, b.Assigns name v) (body.flatMap preorder) a ∧ a.Assigns name value

/-- What a class says about the type of a property. -/
inductive Resolves (oracle : Oracle) (cls : Node) (name : String) : Resolution → Prop
  | unknownMember (hnone : ∀ p ∈ cls.members, ∀ v, ¬ p.DeclaresProperty name v) :
    Resolves oracle cls name (.unresolved .unknownMember)
  | notPrivate {p : Node} {visibility : Visibility}
    (hfirst : IsFirst (fun p => ∃ v, p.DeclaresProperty name v) cls.members p)
    (hp : p.DeclaresProperty name visibility) (hvisible : visibility ≠ .isPrivate) :
    Resolves oracle cls name (.unresolved .notPrivate)
  | noConstructor (hprivate : cls.KeepsPrivate name)
    (hnone : ∀ f ∈ cls.members, ∀ body, ¬ f.DeclaresConstructor body) :
    Resolves oracle cls name (.unresolved .noConstructor)
  | notAssigned {f : Node} {body : List Node} (hprivate : cls.KeepsPrivate name)
    (hf : cls.Constructs f body)
    (hnone : ∀ a ∈ body.flatMap preorder, ∀ v, ¬ a.Assigns name v) :
    Resolves oracle cls name (.unresolved .notAssigned)
  /-- The first assignment is a statement of the body by itself. -/
  | resolved {f a value : Node} {body : List Node} (hprivate : cls.KeepsPrivate name)
    (hf : cls.Constructs f body) (ha : FirstAssigns body name a value)
    (hdirect : ∃ s ∈ body, s.form = .exprStmt a) :
    Resolves oracle cls name (.resolved (oracle ⟨some cls, some f⟩ value))
  /-- The first assignment may not be reached, or its value goes on to be used. -/
  | nestedAssignment {f a value : Node} {body : List Node} (hprivate : cls.KeepsPrivate name)
    (hf : cls.Constructs f body) (ha : FirstAssigns body name a value)
    (hnested : ¬ ∃ s ∈ body, s.form = .exprStmt a) :
    Resolves oracle cls name (.unresolved .nestedAssignment)

/-! ## The rules and the search -/

section

variable {cls f a p value : Node} {name : String} {visibility : Visibility} {body : List Node}

theorem isPropertyNamed_iff (p : Node) :
    p.isPropertyNamed name = true ↔ ∃ v, p.DeclaresProperty name v := by
  unfold isPropertyNamed DeclaresProperty
  cases p.form <;> simp

theorem DeclaresProperty.isPrivateProperty_iff (h : p.DeclaresProperty name visibility) :
    p.isPrivateProperty = true ↔ visibility = .isPrivate := by
  obtain ⟨_, _, hform⟩ := h
  simp [isPrivateProperty, hform]

theorem isMethodNamed_constructorName_iff (f : Node) :
    f.isMethodNamed constructorName = true ↔ ∃ body, f.DeclaresConstructor body := by
  have hname : lowerAscii constructorName = "__construct" := by decide +kernel
  unfold isMethodNamed DeclaresConstructor sameName
  rw [hname]
  cases f.form <;> simp

theorem DeclaresConstructor.methodBody_eq (h : f.DeclaresConstructor body) :
    f.methodBody = body := by
  obtain ⟨_, _, _, _, hform, -⟩ := h
  rw [methodBody, hform]

theorem assignsOwn_iff (a : Node) : a.assignsOwn name = true ↔ ∃ v, a.Assigns name v := by
  unfold assignsOwn Assigns isOwnMember
  cases a.form with
  | assign target v =>
    cases htarget : target.form <;> simp [isVariable_iff, htarget]
  | _ => simp

theorem Assigns.assignedValue_eq (h : a.Assigns name value) : a.assignedValue = value := by
  obtain ⟨_, _, hform, -⟩ := h
  rw [assignedValue, hform]

/-- A statement of its own is the expression of a statement of the body, and not of one in a default
value. -/
theorem hasStatement_iff_exists (hnodup : f.ids.Nodup) (hf : f.DeclaresConstructor body)
    (ha : a ∈ body.flatMap preorder) :
    f.hasStatement a.id = true ↔ ∃ s ∈ body, s.form = .exprStmt a := by
  have hbody : ∀ s ∈ body, s ∈ f.children := fun s hs =>
    mem_children_of_mem_methodBody (hf.methodBody_eq.symm ▸ hs)
  simp only [hasStatement, List.any_eq_true, Bool.and_eq_true, decide_eq_true_eq]
  constructor
  · rintro ⟨s, hs, hkind, c, hc, hid⟩
    obtain ⟨d, hd, had⟩ := List.mem_flatMap.mp ha
    obtain rfl : s = d := eq_of_mem_ids hnodup hs (hbody d hd)
      (ids_subset_of_mem_children hc c.id_mem_ids) (hid ▸ List.mem_map_of_mem had)
    obtain ⟨around, hoccurs⟩ := mem_preorder_iff.mp had
    obtain ⟨-, rfl⟩ :=
      (Occurs.child .root hc).unique (nodup_of_mem_children hnodup hs) hoccurs hid
    refine ⟨s, hd, ?_⟩
    rw [children] at hc
    rw [kind] at hkind
    cases hform : s.form <;> simp_all [Form.kind, Form.children, Form.segments, Segment.toList]
  · rintro ⟨s, hs, hform⟩
    refine ⟨s, hbody s hs, by rw [kind, hform]; rfl, a, ?_, rfl⟩
    simp [children, hform, Form.children, Form.segments, Segment.toList]

theorem keepsPrivate_iff :
    cls.KeepsPrivate name ↔ ∃ p, cls.findProperty? name = some p ∧ p.isPrivateProperty = true := by
  refine exists_congr fun p => ?_
  rw [isFirst_iff_find? isPropertyNamed_iff]
  refine and_congr_right fun hp => ?_
  obtain ⟨v, hv⟩ := (isPropertyNamed_iff p).mp (List.find?_some hp)
  rw [hv.isPrivateProperty_iff]
  constructor
  · rintro ⟨_, _, hform⟩
    obtain ⟨_, _, hform'⟩ := hv
    rw [hform] at hform'
    cases hform'
    rfl
  · rintro rfl
    exact hv

theorem memberResolution_of_keepsPrivate (oracle : Oracle) (h : cls.KeepsPrivate name) :
    cls.memberResolution oracle name =
      match cls.findMethod? constructorName with
      | none => .unresolved .noConstructor
      | some f =>
        match (f.methodBody.flatMap preorder).find? (assignsOwn name) with
        | none => .unresolved .notAssigned
        | some a => resolutionOf oracle cls f a := by
  obtain ⟨p, hp, hprivate⟩ := keepsPrivate_iff.mp h
  rw [memberResolution, hp]
  dsimp only
  rw [hprivate]
  rfl

theorem constructs_iff :
    cls.Constructs f body ↔
      cls.findMethod? constructorName = some f ∧ f.DeclaresConstructor body := by
  rw [Constructs, isFirst_iff_find? isMethodNamed_constructorName_iff, findMethod?]

/-- Where there is a constructor its first assignment decides. -/
theorem memberResolution_of_constructs (oracle : Oracle) (h : cls.KeepsPrivate name)
    (hf : cls.Constructs f body) :
    cls.memberResolution oracle name =
      match (body.flatMap preorder).find? (assignsOwn name) with
      | none => .unresolved .notAssigned
      | some a => resolutionOf oracle cls f a := by
  obtain ⟨hfind, hbody⟩ := constructs_iff.mp hf
  rw [memberResolution_of_keepsPrivate oracle h, hfind]
  dsimp only
  rw [hbody.methodBody_eq]

theorem find?_assignsOwn_of_firstAssigns (h : FirstAssigns body name a value) :
    (body.flatMap preorder).find? (assignsOwn name) = some a :=
  (isFirst_iff_find? assignsOwn_iff).mp h.1

/-- Of the first assignment only the value and whether it is a statement of its own matter. -/
theorem resolutionOf_of_firstAssigns (oracle : Oracle) (hnodup : cls.ids.Nodup)
    (hf : cls.Constructs f body) (ha : FirstAssigns body name a value) :
    ((∃ s ∈ body, s.form = .exprStmt a) →
      resolutionOf oracle cls f a = .resolved (oracle ⟨some cls, some f⟩ value)) ∧
    ((¬ ∃ s ∈ body, s.form = .exprStmt a) →
      resolutionOf oracle cls f a = .unresolved .nestedAssignment) := by
  obtain ⟨hfind, hbody⟩ := constructs_iff.mp hf
  have hfnodup : f.ids.Nodup :=
    nodup_of_mem_children hnodup (mem_children_of_mem_members (mem_members_of_findMethod? hfind))
  have hmem := List.mem_of_find?_eq_some (find?_assignsOwn_of_firstAssigns ha)
  rw [← hasStatement_iff_exists hfnodup hbody hmem, resolutionOf, ha.2.assignedValue_eq]
  exact ⟨fun h => if_pos h, fun h => if_neg h⟩

/-- One of the rules gives what the search finds. -/
theorem resolves_memberResolution (oracle : Oracle) (hnodup : cls.ids.Nodup) :
    cls.Resolves oracle name (cls.memberResolution oracle name) := by
  by_cases hprivate : cls.KeepsPrivate name
  · cases hf : cls.findMethod? constructorName with
    | none =>
      rw [memberResolution_of_keepsPrivate oracle hprivate, hf]
      refine .noConstructor hprivate ?_
      exact (find?_eq_none_iff_forall isMethodNamed_constructorName_iff).mp hf
    | some f =>
      obtain ⟨body, hbody⟩ := (isMethodNamed_constructorName_iff f).mp (List.find?_some hf)
      have hconstructs : cls.Constructs f body := constructs_iff.mpr ⟨hf, hbody⟩
      rw [memberResolution_of_constructs oracle hprivate hconstructs]
      cases ha : (body.flatMap preorder).find? (assignsOwn name) with
      | none =>
        refine .notAssigned hprivate hconstructs ?_
        exact (find?_eq_none_iff_forall assignsOwn_iff).mp ha
      | some a =>
        obtain ⟨value, hvalue⟩ := (assignsOwn_iff a).mp (List.find?_some ha)
        have hassigns : FirstAssigns body name a value :=
          ⟨(isFirst_iff_find? assignsOwn_iff).mpr ha, hvalue⟩
        obtain ⟨hdirect, hnested⟩ := resolutionOf_of_firstAssigns oracle hnodup hconstructs hassigns
        dsimp only
        by_cases h : ∃ s ∈ body, s.form = .exprStmt a
        · rw [hdirect h]
          exact .resolved hprivate hconstructs hassigns h
        · rw [hnested h]
          exact .nestedAssignment hprivate hconstructs hassigns h
  · rw [memberResolution]
    cases hp : cls.findProperty? name with
    | none =>
      exact .unknownMember ((find?_eq_none_iff_forall isPropertyNamed_iff).mp hp)
    | some p =>
      obtain ⟨v, hv⟩ := (isPropertyNamed_iff p).mp (List.find?_some hp)
      have hvisible : p.isPrivateProperty = false := by
        rw [Bool.eq_false_iff]
        exact fun h => hprivate (keepsPrivate_iff.mpr ⟨p, hp, h⟩)
      dsimp only
      rw [hvisible]
      refine .notPrivate ((isFirst_iff_find? isPropertyNamed_iff).mpr hp) hv fun heq => ?_
      exact Bool.false_ne_true (hvisible.symm.trans (hv.isPrivateProperty_iff.mpr heq))

/-- No rule gives anything else. -/
theorem Resolves.eq_memberResolution {oracle : Oracle} {r : Resolution} (hnodup : cls.ids.Nodup)
    (h : cls.Resolves oracle name r) : r = cls.memberResolution oracle name := by
  cases h with
  | unknownMember hnone =>
    have hp : cls.findProperty? name = none :=
      (find?_eq_none_iff_forall isPropertyNamed_iff).mpr hnone
    rw [memberResolution, hp]
  | @notPrivate p v hfirst hp hvisible =>
    have hfind : cls.findProperty? name = some p :=
      (isFirst_iff_find? isPropertyNamed_iff).mp hfirst
    have hpublic : p.isPrivateProperty = false := by
      rw [Bool.eq_false_iff, ne_eq, hp.isPrivateProperty_iff]
      exact hvisible
    rw [memberResolution, hfind]
    dsimp only
    rw [hpublic]
    rfl
  | noConstructor hprivate hnone =>
    have hf : cls.findMethod? constructorName = none :=
      (find?_eq_none_iff_forall isMethodNamed_constructorName_iff).mpr hnone
    rw [memberResolution_of_keepsPrivate oracle hprivate, hf]
  | notAssigned hprivate hf hnone =>
    rw [memberResolution_of_constructs oracle hprivate hf,
      (find?_eq_none_iff_forall assignsOwn_iff).mpr hnone]
  | resolved hprivate hf ha hdirect =>
    rw [memberResolution_of_constructs oracle hprivate hf, find?_assignsOwn_of_firstAssigns ha]
    exact ((resolutionOf_of_firstAssigns oracle hnodup hf ha).1 hdirect).symm
  | nestedAssignment hprivate hf ha hnested =>
    rw [memberResolution_of_constructs oracle hprivate hf, find?_assignsOwn_of_firstAssigns ha]
    exact ((resolutionOf_of_firstAssigns oracle hnodup hf ha).2 hnested).symm

theorem resolves_iff {oracle : Oracle} {r : Resolution} (hnodup : cls.ids.Nodup) :
    cls.Resolves oracle name r ↔ r = cls.memberResolution oracle name :=
  ⟨fun h => h.eq_memberResolution hnodup, fun h => h ▸ resolves_memberResolution oracle hnodup⟩

/-- Two classes have the property set first by one assignment: it is a statement of its own in both
constructors or in neither, and the oracle says the same of its value in both.  What else the
constructors do with the property is left open. -/
def AssignsAlike (oracle : Oracle) (name : String) (cls cls' : Node) : Prop :=
  ∃ f f' body body' a value, cls.KeepsPrivate name ∧ cls'.KeepsPrivate name ∧
    cls.Constructs f body ∧ cls'.Constructs f' body' ∧
    FirstAssigns body name a value ∧ FirstAssigns body' name a value ∧
    ((∃ s ∈ body, s.form = .exprStmt a) ↔ ∃ s ∈ body', s.form = .exprStmt a) ∧
    oracle ⟨some cls, some f⟩ value = oracle ⟨some cls', some f'⟩ value

theorem AssignsAlike.memberResolution_eq {oracle : Oracle} {cls' : Node}
    (h : AssignsAlike oracle name cls cls') (hnodup : cls.ids.Nodup) (hnodup' : cls'.ids.Nodup) :
    cls'.memberResolution oracle name = cls.memberResolution oracle name := by
  obtain ⟨f, f', body, body', a, value, hprivate, hprivate', hf, hf', ha, ha', hdirect, hvalue⟩ := h
  rw [← resolves_iff hnodup]
  by_cases hstatement : ∃ s ∈ body, s.form = .exprStmt a
  · have hresolved : cls'.Resolves oracle name (.resolved (oracle ⟨some cls', some f'⟩ value)) :=
      .resolved hprivate' hf' ha' (hdirect.mp hstatement)
    rw [← hresolved.eq_memberResolution hnodup', ← hvalue]
    exact .resolved hprivate hf ha hstatement
  · have hnested : cls'.Resolves oracle name (.unresolved .nestedAssignment) :=
      .nestedAssignment hprivate' hf' ha' (mt hdirect.mpr hstatement)
    rw [← hnested.eq_memberResolution hnodup']
    exact .nestedAssignment hprivate hf ha hstatement

end

end Node

namespace IndexedTree

/-- The type of a property is found without an error, and it is what the rules say about the class,
which is one thing only.  So uses of the property other than the first assignment matter at most to
the oracle. -/
theorem memberType_resolves {root cls : Node} {index : TreeIndex}
    (hindex : TreeIndex.ofTree root = .ok index) (hcls : cls ∈ root.preorder) (oracle : Oracle)
    (name : String) :
    ∃ r, (⟨root, index⟩ : IndexedTree).memberType oracle cls name = .ok r ∧
      (∀ r', cls.Resolves oracle name r' ↔ r' = r) ∧
      ∀ root' index' cls', TreeIndex.ofTree root' = .ok index' → cls' ∈ root'.preorder →
        Node.AssignsAlike oracle name cls cls' →
        (⟨root', index'⟩ : IndexedTree).memberType oracle cls' name = .ok r := by
  obtain ⟨hnodup, rfl⟩ := TreeIndex.ofTree_eq_ok_iff.mp hindex
  obtain ⟨around, hoccurs⟩ := Node.mem_preorder_iff.mp hcls
  have hclsnodup := hoccurs.nodup hnodup
  refine ⟨cls.memberResolution oracle name, memberType_of_occurs hnodup hoccurs,
    fun r' => Node.resolves_iff hclsnodup, ?_⟩
  intro root' index' cls' hindex' hcls' halike
  obtain ⟨hnodup', rfl⟩ := TreeIndex.ofTree_eq_ok_iff.mp hindex'
  obtain ⟨around', hoccurs'⟩ := Node.mem_preorder_iff.mp hcls'
  rw [← halike.memberResolution_eq hclsnodup (hoccurs'.nodup hnodup')]
  exact memberType_of_occurs hnodup' hoccurs'

/-- A class whose constructor has the property assigned in a default value, reads it, assigns an
object to it and then `null`. -/
def crate : Node :=
  let value (i : Nat) : Node := ⟨i, .none, .fetch ⟨i + 1, .none, .var "this"⟩ "value"⟩
  let assignment (i : Nat) (v : Node) : Node := ⟨i, .none, .assign (value (i + 1)) v⟩
  ⟨2, .none, .classDecl "Crate" none [
    ⟨3, .none, .property .isPrivate false "value" none⟩,
    ⟨4, .none, .method "__Construct" .isPublic false
      [⟨"x", none, some (assignment 5 ⟨8, .none, .null⟩)⟩] [
      ⟨9, .none, .echo [value 10]⟩,
      ⟨12, .none, .exprStmt (assignment 13 ⟨16, .none, .newObject "\\Lid" []⟩)⟩,
      ⟨17, .none, .exprStmt (assignment 18 ⟨21, .none, .null⟩)⟩]⟩]⟩

theorem memberType_resolves_crate :
    ∃ root index, TreeIndex.ofTree root = .ok index ∧ crate ∈ root.preorder ∧
      (⟨root, index⟩ : IndexedTree).memberType .declared crate "value" =
        .ok (.resolved (.object (some "Lid"))) ∧
      crate.Resolves .declared "value" (.resolved (.object (some "Lid"))) := by
  have hnodup : crate.ids.Nodup := by decide +kernel
  have hindex := TreeIndex.ofTree_of_nodup hnodup
  have hcrate : crate ∈ crate.preorder := crate.mem_preorder_self
  obtain ⟨r, hr, hrules, -⟩ := memberType_resolves hindex hcrate .declared "value"
  have hvalue : (crate.indexed.memberType .declared crate "value").toOption =
      some (.resolved (.object (some "Lid"))) := by decide +kernel
  change crate.indexed.memberType .declared crate "value" = .ok r at hr
  rw [hr] at hvalue
  obtain rfl := Option.some.inj hvalue
  exact ⟨crate, _, hindex, hcrate, hr, (hrules _).mpr rfl⟩

end IndexedTree

end PhpRefactor
