import PhpRefactor.Proofs.Rule.Decision
import PhpRefactor.Proofs.Types.Resolves

/-!
# When a condition is always true

The rule about always true conditions asks the index for the class around an `if`, climbs from
function to function in search of a constructor, and has the type of a property resolved.
`TrueCondition.Unwraps` is what it is to find out, said of the nodes around the `if`: the `if` has
one branch, its condition is a property of `$this`, and between the `if` and the nearest class
around it there is no constructor, through whatever closures and functions.

`TrueCondition.apply_unwraps` says that the rule answers every node, that the climb ends by itself
and not at its limit, and that the rule makes an edit exactly on that condition.  The edit then
leaves the body and nothing else.
-/

set_option autoImplicit false

namespace PhpRefactor

theorem Node.isConstructor_eq_false_iff {n : Node} :
    n.isConstructor = false ↔ ∀ body, ¬ n.DeclaresConstructor body := by
  rw [Bool.eq_false_iff, Node.isConstructor, ne_eq, Node.isMethodNamed_constructorName_iff,
    not_exists]

section

variable {inner outer around : List Node} {cls : Node}

theorem nearestClass?_eq_some_iff :
    nearestClass? around = some cls ↔
      ∃ inner outer, around = inner ++ cls :: outer ∧ cls.kind = .classDecl ∧
        ∀ m ∈ inner, m.kind ≠ .classDecl := by
  rw [nearestClass?, List.find?_eq_some_iff_append]
  simp only [decide_eq_true_eq, Bool.not_eq_true', decide_eq_false_iff_not]
  constructor
  · rintro ⟨hcls, inner, outer, haround, hinner⟩
    exact ⟨inner, outer, haround, hcls, hinner⟩
  · rintro ⟨inner, outer, haround, hcls, hinner⟩
    exact ⟨hcls, inner, outer, haround, hinner⟩

/-- Constructors are looked for inside the nearest class. -/
theorem underConstructor_eq_false_iff (hcls : cls.kind = .classDecl)
    (hinner : ∀ m ∈ inner, m.kind ≠ .classDecl) :
    underConstructor (inner ++ cls :: outer) = false ↔
      ∀ m ∈ inner, ∀ body, ¬ m.DeclaresConstructor body := by
  have htake : (inner ++ cls :: outer).takeWhile (fun m => decide (m.kind ≠ .classDecl)) =
      inner := by
    rw [List.takeWhile_append_of_pos (by simpa using hinner),
      List.takeWhile_cons_of_neg (by simpa using hcls), List.append_nil]
  rw [underConstructor, htake, List.any_eq_false]
  refine forall₂_congr fun m _ => ?_
  rw [Bool.not_eq_true, Node.isConstructor_eq_false_iff]

end

namespace TrueCondition

/-- An `if` below these nodes is its body: its condition is a property which the constructor of the
class sets to an object, and the `if` is not in the constructor. -/
inductive Unwraps (tree : IndexedTree) (oracle : Oracle) (around : List Node) (n : Node)
    (body : List Node) : Prop where
  | intro {cond this cls : Node} {member : String} {inner outer : List Node}
    {className : Option String}
    -- There is no other branch.
    (hform : n.form = .ifStmt cond body [] none)
    (hcond : cond.form = .fetch this member) (hthis : this.form = .var "this")
    (haround : around = inner ++ cls :: outer) (hcls : cls.kind = .classDecl)
    -- The class is the nearest one.
    (hinner : ∀ m ∈ inner, m.kind ≠ .classDecl)
    (hconstructor : ∀ m ∈ inner, ∀ b, ¬ m.DeclaresConstructor b)
    (htype : tree.memberType oracle cls member = .ok (.resolved (.object className)))

theorem isAlwaysTrue_iff {type : StaticType} :
    type.isAlwaysTrue = true ↔ ∃ className, type = .object className := by
  cases type <;> simp [StaticType.isAlwaysTrue]

section

variable {root n : Node} {around body : List Node} {oracle : Oracle}

theorem unwraps_iff (hnodup : root.ids.Nodup) (h : root.Occurs around n) :
    Unwraps root.indexed oracle around n body ↔ settledBody? oracle around n = some body := by
  have hmember : ∀ {cls : Node} {inner outer : List Node} {member : String},
      around = inner ++ cls :: outer →
      root.indexed.memberType oracle cls member = .ok (cls.memberResolution oracle member) := by
    rintro cls inner outer member rfl
    obtain ⟨_, _, -, hcls, -⟩ := h.of_mem_around (m := cls) (by simp)
    exact IndexedTree.memberType_of_occurs hnodup hcls
  rw [settledBody?_eq_some_iff]
  constructor
  · rintro @⟨cond, this, cls, member, inner, outer, className, hform, hcond, hthis, haround, hcls,
      hinner, hconstructor, htype⟩
    rw [hmember haround, Except.ok.injEq] at htype
    refine ⟨cond, member, cls, .object className, hform,
      fetchedMember?_eq_some_iff.mpr ⟨this, hcond, hthis⟩,
      nearestClass?_eq_some_iff.mpr ⟨inner, outer, haround, hcls, hinner⟩, ?_, htype, rfl⟩
    rw [haround, underConstructor_eq_false_iff hcls hinner]
    exact hconstructor
  · rintro ⟨cond, member, cls, type, hform, hfetch, hclass, hunder, htype, htrue⟩
    obtain ⟨this, hcond, hthis⟩ := fetchedMember?_eq_some_iff.mp hfetch
    obtain ⟨inner, outer, haround, hcls, hinner⟩ := nearestClass?_eq_some_iff.mp hclass
    obtain ⟨className, rfl⟩ := isAlwaysTrue_iff.mp htrue
    have hresolved : root.indexed.memberType oracle cls member =
        .ok (.resolved (.object className)) := by rw [hmember haround, htype]
    rw [haround, underConstructor_eq_false_iff hcls hinner] at hunder
    exact .intro hform hcond hthis haround hcls hinner hunder hresolved

/-- The rule leaves a node alone unless it is an `if` that is its body. -/
theorem unwrap_settledBody?_ne_keep_iff :
    unwrap (settledBody? oracle around n) ≠ .keep ↔
      ∃ body, settledBody? oracle around n = some body := by
  cases settledBody? oracle around n with
  | none => simp [unwrap]
  | some body => simpa using unwrap_ne_keep body

theorem unwrap_some (body : List Node) :
    (body = [] → unwrap (some body) = .remove) ∧
      (body ≠ [] → unwrap (some body) = .splice body) := by
  cases body with
  | nil => exact ⟨fun _ => rfl, fun h => absurd rfl h⟩
  | cons s body => exact ⟨fun h => absurd h (List.cons_ne_nil s body), fun _ => rfl⟩

end

/-- The rule answers every node.  The climb from function to function has fewer steps than the tree
has nodes and finds whether there is a constructor, with any limit that lets it end.  There is an
edit exactly on the condition `Unwraps`, and it leaves the body. -/
theorem apply_unwraps {root n : Node} {index : TreeIndex} {around : List Node}
    (hindex : TreeIndex.ofTree root = .ok index) (hn : root.Occurs around n) (oracle : Oracle)
    (pass next : Nat) :
    (∃ start fs, (⟨root, index⟩ : IndexedTree).functionOf n.id = .ok start ∧
      (⟨root, index⟩ : IndexedTree).Climbs start fs ∧ fs.length < root.size ∧
      ∀ steps, fs.length ≤ steps →
        (⟨root, index⟩ : IndexedTree).insideConstructor steps start =
          .ok (fs.any Node.isConstructor)) ∧
    ∃ edit, rule.apply ⟨⟨root, index⟩, oracle, pass⟩ n next = .ok (edit, next) ∧
      (edit ≠ .keep ↔ ∃ body, Unwraps ⟨root, index⟩ oracle around n body) ∧
      ∀ body, Unwraps ⟨root, index⟩ oracle around n body →
        (body = [] → edit = .remove) ∧ (body ≠ [] → edit = .splice body) := by
  obtain ⟨hnodup, rfl⟩ := TreeIndex.ofTree_eq_ok_iff.mp hindex
  refine ⟨⟨nearestFunction? around, functionsAround around,
    IndexedTree.functionOf_of_occurs hnodup hn, IndexedTree.climbs_of_occurs hnodup hn, ?_,
    fun steps => (IndexedTree.climbs_of_occurs hnodup hn).insideConstructor_eq⟩,
    unwrap (settledBody? oracle around n), ?_, ?_, ?_⟩
  · have hsublist := (functionsAround_sublist around).length_le
    have haround := hn.length_around_lt
    rw [Node.size_eq n] at haround
    omega
  · change (RunError.ofTree (removableBody? ⟨root.indexed, oracle, pass⟩ n)).map _ = _
    rw [removableBody?_of_occurs hnodup hn]
    rfl
  · rw [unwrap_settledBody?_ne_keep_iff]
    exact exists_congr fun body => (unwraps_iff hnodup hn).symm
  · intro body hbody
    rw [(unwraps_iff hnodup hn).mp hbody]
    exact unwrap_some body

/-- An `if` for parcels with a lid. -/
def lidGuard (id : Nat) : Node :=
  ⟨id, .none, .ifStmt ⟨id + 1, .none, .fetch ⟨id + 2, .none, .var "this"⟩ "lid"⟩
    [⟨id + 3, .none, .echo []⟩] [] none⟩

/-- The `if` in a closure. -/
def lidCheck (id : Nat) : Node := ⟨id, .none, .closure [] [] [lidGuard (id + 1)]⟩

/-- A method that opens a parcel. -/
def opening : Node :=
  ⟨15, .none, .method "open" .isPublic false [] [⟨16, .none, .exprStmt (lidCheck 17)⟩]⟩

/-- The nodes around the `if` in the method. -/
def withinOpening : List Node := [lidCheck 17, ⟨16, .none, .exprStmt (lidCheck 17)⟩, opening]

/-- A class whose constructor sets the lid; it checks for the lid there and in a method. -/
def parcel : Node :=
  ⟨1, .none, .classDecl "Parcel" none [
    ⟨2, .none, .property .isPrivate false "lid" none⟩,
    ⟨3, .none, .method "__construct" .isPublic false [] [
      ⟨4, .none, .exprStmt ⟨5, .none, .assign ⟨6, .none, .fetch ⟨7, .none, .var "this"⟩ "lid"⟩
        ⟨8, .none, .newObject "Lid" []⟩⟩⟩,
      ⟨9, .none, .exprStmt (lidCheck 10)⟩]⟩,
    opening]⟩

theorem apply_unwraps_parcel :
    ∃ index around body, TreeIndex.ofTree parcel = .ok index ∧
      parcel.Occurs around (lidGuard 18) ∧ body ≠ [] ∧
      Unwraps ⟨parcel, index⟩ .declared around (lidGuard 18) body ∧
      rule.apply ⟨⟨parcel, index⟩, .declared, 0⟩ (lidGuard 18) 30 = .ok (.splice body, 30) := by
  have hnodup : parcel.ids.Nodup := by decide +kernel
  have hindex : TreeIndex.ofTree parcel = .ok (.of parcel) := TreeIndex.ofTree_of_nodup hnodup
  have hopening : parcel.Occurs [parcel] opening := .child .root (by
    simp [parcel, Node.children, Form.children, Form.segments, Segment.toList])
  have hguard : parcel.Occurs (withinOpening ++ [parcel]) (lidGuard 18) := by
    refine .child (.child (hopening.child ?_) ?_) ?_ <;>
      simp [opening, lidCheck, Node.children, Form.children, Form.segments, Segment.toList]
  have hlid : parcel.memberResolution .declared "lid" = .resolved (.object (some "Lid")) := by
    decide +kernel
  have hmember : parcel.indexed.memberType .declared parcel "lid" =
      .ok (.resolved (.object (some "Lid"))) := by
    rw [IndexedTree.memberType_of_occurs hnodup .root, hlid]
  have hopen : lowerAscii "open" ≠ "__construct" := by decide +kernel
  have hunwraps : Unwraps parcel.indexed .declared (withinOpening ++ [parcel]) (lidGuard 18)
      [⟨21, .none, .echo []⟩] := by
    refine .intro rfl rfl rfl rfl rfl ?_ ?_ hmember
    · simp [withinOpening, lidCheck, opening, Node.kind, Form.kind]
    · simp [withinOpening, lidCheck, opening, Node.DeclaresConstructor, hopen]
  obtain ⟨-, edit, hedit, -, hbody⟩ := apply_unwraps hindex hguard .declared 0 30
  obtain rfl := (hbody _ hunwraps).2 (List.cons_ne_nil _ _)
  exact ⟨_, _, _, hindex, hguard, List.cons_ne_nil _ _, hunwraps, hedit⟩

end TrueCondition

end PhpRefactor
