import PhpRefactor.Proofs.Document.Construct
import PhpRefactor.Proofs.Json.Height

/-!
# The fields of an object

The objects of a document are nodes, parameters and positions.  Which fields they have, what is read
of each and which of them may be missing is listed here (`Kind.fields`, `Param.fields`,
`Span.fields`), and all that is ever read of an object is what it has for these fields
(`Members.form_carries`, `Role.means_of_found`).  So whoever changes an object need only look at its
fields one by one.

How deep the decoder of nodes may go is left open in what a value means (`Role.Means`): it goes as
deep as the value does (`Role.Means.decode`).
-/

set_option autoImplicit false

namespace PhpRefactor

open Json (depthFields depthItems)

/-! ## Roles -/

/-- What a value of a document is read as. -/
inductive Role where
  | string
  | bool
  | int
  | float
  /-- A number of a position. -/
  | number
  | visibility
  | operator
  | kind
  | span
  | node
  | param
  | list (item : Role)
  | optional (item : Role)

namespace Role

/-- The values that are read in a role. -/
@[reducible] def Value : Role → Type
  | string => String
  | bool => Bool
  | int => Int64
  | float => Double
  | number => UInt32
  | visibility => Visibility
  | operator => Operator
  | kind => Kind
  | span => Span
  | node => Node
  | param => Param Node
  | list item => List item.Value
  | optional item => Option item.Value

/-- The decoder of a role; `child` reads the nodes. -/
def decode (child : Decoder Node) : (role : Role) → Decoder role.Value
  | string => Decoder.string
  | bool => Decoder.bool
  | int => Decoder.int64
  | float => Decoder.double
  | number => Decoder.uint32
  | visibility => Decoder.visibility
  | operator => Decoder.operator
  | kind => Decoder.kind
  | span => Decoder.span
  | node => child
  | param => Decoder.param child
  | list item => Decoder.list (item.decode child)
  | optional item => Decoder.optional (item.decode child)

end Role

/-- A field that an object may have. -/
structure KnownField where
  key : String
  role : Role
  /-- What a missing field stands for, if it may be missing. -/
  absent : Option role.Value

namespace KnownField

def required (key : String) (role : Role) : KnownField := ⟨key, role, none⟩

def defaulted (key : String) (role : Role) (value : role.Value) : KnownField :=
  ⟨key, role, some value⟩

def optional (key : String) (item : Role) : KnownField := defaulted key (.optional item) none

/-- Reads the field. -/
def member (child : Decoder Node) (f : KnownField) : Members f.role.Value :=
  .member f.key (f.role.decode child) (f.absent.elim (.error (.missingField f.key)) .ok)

end KnownField

/-! ## The fields of each object -/

/-- The fields of a position. -/
def Span.fields : List KnownField :=
  [.required "start" .number, .required "end" .number, .required "line" .number]

/-- The fields of a parameter. -/
def Param.fields : List KnownField :=
  [.required "name" .string, .optional "type_hint" .string, .optional "default" .node]

namespace Kind

open KnownField (defaulted optional required)

/-- The fields of a kind of construct. -/
def fields : Kind → List KnownField
  | file | elseBranch => [required "stmts" (.list .node)]
  | classDecl =>
    [required "name" .string, optional "extends" .string, required "members" (.list .node)]
  | property =>
    [defaulted "visibility" .visibility .isPublic, defaulted "is_static" .bool false,
      required "name" .string, optional "default" .node]
  | method =>
    [required "name" .string, defaulted "visibility" .visibility .isPublic,
      defaulted "is_static" .bool false, defaulted "params" (.list .param) [],
      required "stmts" (.list .node)]
  | function =>
    [required "name" .string, defaulted "params" (.list .param) [], required "stmts" (.list .node)]
  | ifStmt =>
    [required "cond" .node, required "stmts" (.list .node), defaulted "elseifs" (.list .node) [],
      optional "else_branch" .node]
  | elseIf | whileLoop => [required "cond" .node, required "stmts" (.list .node)]
  | tryBlock =>
    [required "stmts" (.list .node), defaulted "catches" (.list .node) [],
      optional "finally" (.list .node)]
  | catchClause =>
    [required "types" (.list .string), required "var" .node, required "stmts" (.list .node)]
  | exprStmt | negation => [required "expr" .node]
  | returnStmt => [optional "expr" .node]
  | echo => [required "exprs" (.list .node)]
  | var => [required "name" .string]
  | fetch => [required "var" .node, required "name" .string]
  | assign => [required "var" .node, required "expr" .node]
  | newObject => [required "class" .string, defaulted "args" (.list .node) []]
  | methodCall =>
    [required "var" .node, required "name" .string, defaulted "args" (.list .node) []]
  | funcCall => [required "name" .string, defaulted "args" (.list .node) []]
  | closure =>
    [defaulted "params" (.list .param) [], defaulted "uses" (.list .node) [],
      required "stmts" (.list .node)]
  | closureUse => [required "var" .node, defaulted "by_ref" .bool false]
  | binary => [required "op" .operator, required "left" .node, required "right" .node]
  | array => [required "items" (.list .node)]
  | string => [required "value" .string]
  | int => [required "value" .int]
  | float => [required "value" .float]
  | bool => [required "value" .bool]
  | null => []

/-- The fields of a node of this kind. -/
def nodeFields (k : Kind) : List KnownField :=
  defaulted "span" .span .none :: required "kind" .kind :: k.fields

theorem nodup_nodeFields (k : Kind) : (k.nodeFields.map KnownField.key).Nodup := by
  cases k <;> decide

theorem span_notMem_fields (k : Kind) : ∀ f ∈ k.fields, f.key ≠ "span" := by
  cases k <;> decide

end Kind

/-! ## Reading an object field by field -/

namespace Members

variable {α β : Type}

theorem find_member_eq_ok_iff {key : String} {item : Decoder α} {absent : Except DataError α}
    {fields : List (String × Json)} {x : α} :
    (member key item absent).find fields = .ok x ↔
      (values key fields = [] ∧ absent = .ok x) ∨
        ∃ v, values key fields = [v] ∧ item v = .ok x := by
  rw [← map_snd_occurrences, member]
  dsimp only
  rcases occurrences key fields with _ | ⟨⟨place, v⟩, _ | ⟨again, others⟩⟩
  · simp [mapError_eq_ok_iff]
  · cases h : item v <;> simp [h]
  · cases h : item v <;> simp [h]

/-- What is read of one object by one reader is read of another one by another reader. -/
def Carries (m m' : Members α) (fields fields' : List (String × Json)) : Prop :=
  ∀ x, m.find fields = .ok x → m'.find fields' = .ok x

section

variable {fields fields' : List (String × Json)}

theorem Carries.map {f : α → β} {m m' : Members α} (h : m.Carries m' fields fields') :
    (f <$> m).Carries (f <$> m') fields fields' := by
  intro y hy
  rw [find_map] at hy
  obtain ⟨x, hx, rfl⟩ := map_eq_ok_iff.mp hy
  exact Finds.map (h x hx)

theorem Carries.seq {f f' : Members (α → β)} {m m' : Members α}
    (hf : f.Carries f' fields fields') (hm : m.Carries m' fields fields') :
    (f <*> m).Carries (f' <*> m') fields fields' := by
  intro y hy
  obtain ⟨g, x, hg, hx, rfl⟩ := find_seq_eq_ok.mp hy
  exact Finds.seq (hf g hg) (hm x hx)

theorem Carries.decode {m m' : Members α} (h : m.Carries m' fields fields') {x : α}
    (hx : m.decode fields = .ok x) : m'.decode fields' = .ok x :=
  Finds.decode (h x (mapError_eq_ok_iff.mp hx))

variable {child child' : Decoder Node}

/-- The fields of a kind are all that is read of a construct. -/
theorem form_carries {k : Kind}
    (h : ∀ f ∈ k.fields, (f.member child).Carries (f.member child') fields fields') :
    (form child k).Carries (form child' k) fields fields' := by
  cases k with
  | null => exact fun x hx => hx
  | file | elseBranch | exprStmt | negation | returnStmt | echo | var | array | string | int | float
      | bool =>
    exact .map (h _ (.head _))
  | elseIf | whileLoop | fetch | assign | newObject | funcCall | closureUse =>
    exact .seq (.map (h _ (.head _))) (h _ (.tail _ (.head _)))
  | classDecl | function | tryBlock | catchClause | methodCall | closure | binary =>
    exact .seq (.seq (.map
      (h _ (.head _)))
      (h _ (.tail _ (.head _))))
      (h _ (.tail _ (.tail _ (.head _))))
  | property | ifStmt =>
    exact .seq (.seq (.seq (.map
      (h _ (.head _)))
      (h _ (.tail _ (.head _))))
      (h _ (.tail _ (.tail _ (.head _)))))
      (h _ (.tail _ (.tail _ (.tail _ (.head _)))))
  | method =>
    exact .seq (.seq (.seq (.seq (.map
      (h _ (.head _)))
      (h _ (.tail _ (.head _))))
      (h _ (.tail _ (.tail _ (.head _)))))
      (h _ (.tail _ (.tail _ (.tail _ (.head _))))))
      (h _ (.tail _ (.tail _ (.tail _ (.tail _ (.head _))))))

end

end Members

/-! ## How deep the decoder of nodes goes -/

namespace Decoder

variable {α : Type} {item item' : Decoder α}

theorem list_eq_ok_iff {v : Json} {xs : List α} :
    list item v = .ok xs ↔
      ∃ vs, v = .array vs ∧ List.Forall₂ (fun v x => item v = .ok x) vs xs := by
  refine ⟨forall₂_of_list, ?_⟩
  rintro ⟨vs, rfl, hitems⟩
  change vs.mapM item = _
  induction hitems with
  | nil => rfl
  | cons hx _ ih =>
    rw [List.mapM_cons, hx, ih]
    rfl

theorem optional_eq_ok_iff {v : Json} {o : Option α} :
    optional item v = .ok o ↔
      (v = .null ∧ none = o) ∨ (v ≠ .null ∧ ∃ x, item v = .ok x ∧ some x = o) := by
  cases v with
  | null => simp [optional]
  | _ => simp [optional, map_eq_ok_iff]

theorem optional_carries {v : Json} (h : ∀ x, item v = .ok x → item' v = .ok x) {o : Option α}
    (ho : optional item v = .ok o) : optional item' v = .ok o := by
  rw [optional_eq_ok_iff] at ho ⊢
  exact ho.imp_right fun ⟨hnull, x, hx, hsome⟩ => ⟨hnull, x, h x hx, hsome⟩

end Decoder

theorem Members.mem_values_iff {key : String} {fields : List (String × Json)} {v : Json} :
    v ∈ values key fields ↔ (key, v) ∈ fields := by
  simp [values, List.mem_filterMap]

theorem Members.depth_le_of_values {key : String} {fields : List (String × Json)} {v : Json}
    (h : values key fields = [v]) : v.depth ≤ depthFields fields :=
  Json.depth_le_of_mem_fields (mem_values_iff.mp (h ▸ List.mem_singleton_self v))

/-- What one decoder reads of values that are at most so deep, another one reads of them too. -/
def Decoder.Covers (depth : Nat) (child child' : Decoder Node) : Prop :=
  ∀ v n, v.depth ≤ depth → child v = .ok n → child' v = .ok n

section

variable {depth : Nat} {child child' : Decoder Node}

theorem Decoder.Covers.mono {lower : Nat} (h : child.Covers depth child') (hle : lower ≤ depth) :
    child.Covers lower child' :=
  fun v n hv => h v n (hv.trans hle)

theorem Members.member_carries {α : Type} {key : String} {item item' : Decoder α}
    {absent : Except DataError α} {fields : List (String × Json)}
    (h : ∀ v x, values key fields = [v] → item v = .ok x → item' v = .ok x) :
    (member key item absent).Carries (member key item' absent) fields fields := by
  intro x hx
  rw [find_member_eq_ok_iff] at hx ⊢
  exact hx.imp_right fun ⟨v, hv, hx⟩ => ⟨v, hv, h v x hv hx⟩

theorem Members.member_carries_of_values {α : Type} {key : String} {item : Decoder α}
    {absent : Except DataError α} {fields fields' : List (String × Json)}
    (h : values key fields = values key fields') :
    (member key item absent).Carries (member key item absent) fields fields' := by
  intro x hx
  rw [find_member_eq_ok_iff] at hx ⊢
  rwa [← h]

/-- A parameter that is an object is read field by field. -/
theorem Decoder.param_carries {fields fields' : List (String × Json)}
    (h : ∀ f ∈ Param.fields, (f.member child).Carries (f.member child') fields fields')
    {p : Param Node} (hp : param child (.object fields) = .ok p) :
    param child' (.object fields') = .ok p :=
  Members.Carries.decode (.seq (.seq (.map
    (h _ (.head _)))
    (h _ (.tail _ (.head _))))
    (h _ (.tail _ (.tail _ (.head _))))) hp

/-- A parameter that is an array of three values. -/
theorem Decoder.param_array_eq_ok_iff {name hint initial : Json} {rest : List Json}
    {p : Param Node} :
    param child (.array (name :: hint :: initial :: rest)) = .ok p ↔
      string name = .ok p.name ∧ optional string hint = .ok p.hint ∧
        optional child initial = .ok p.initial ∧ rest = [] := by
  constructor
  · intro hp
    obtain ⟨x, hx, hp⟩ := bind_eq_ok_iff.mp hp
    obtain ⟨type, htype, hp⟩ := bind_eq_ok_iff.mp hp
    obtain ⟨value, hvalue, hp⟩ := bind_eq_ok_iff.mp hp
    split at hp
    · rename_i hrest
      exact Except.ok.inj hp ▸ ⟨hx, htype, hvalue, List.isEmpty_iff.mp hrest⟩
    · exact nomatch hp
  · rintro ⟨hname, hhint, hinitial, rfl⟩
    rw [param, hname, hhint, hinitial]
    rfl

theorem Decoder.Covers.param {v : Json} (h : child.Covers v.depth child') {p : Param Node}
    (hp : Decoder.param child v = .ok p) : Decoder.param child' v = .ok p := by
  match v with
  | .object fields =>
    refine param_carries (fun f hf => ?_) hp
    simp only [Param.fields, List.mem_cons, List.not_mem_nil, or_false] at hf
    rcases hf with rfl | rfl | rfl
    · exact fun x hx => hx
    · exact fun x hx => hx
    · refine Members.member_carries fun v o hv ho => optional_carries (fun n hn => ?_) ho
      refine h v n ((Members.depth_le_of_values hv).trans ?_) hn
      exact Nat.le_add_left _ 1
  | .array (name :: hint :: initial :: rest) =>
    rw [param_array_eq_ok_iff] at hp ⊢
    refine ⟨hp.1, hp.2.1, optional_carries (fun n hn => ?_) hp.2.2.1, hp.2.2.2⟩
    exact h initial n (Json.depth_lt_of_mem_array (by simp)).le hn
  | .array [] | .array [_] | .array [_, _] | .null | .bool _ | .int _ | .float _ | .string _ =>
    exact hp

/-- What is read of a value needs the nodes in it only. -/
theorem Role.decode_of_covers {role : Role} {v : Json} (h : child.Covers v.depth child')
    {x : role.Value} (hx : role.decode child v = .ok x) : role.decode child' v = .ok x := by
  induction role generalizing v with
  | node => exact h v x le_rfl hx
  | param => exact h.param hx
  | list item ih =>
    obtain ⟨vs, rfl, hitems⟩ := Decoder.list_eq_ok_iff.mp hx
    have hdepth : ∀ w ∈ vs, w.depth ≤ (Json.array vs).depth :=
      fun w hw => (Json.depth_lt_of_mem_array hw).le
    refine Decoder.list_eq_ok_iff.mpr ⟨vs, rfl, ?_⟩
    exact ((List.forall₂_and_left vs x).mpr ⟨hdepth, hitems⟩).imp fun w y hw =>
      ih (h.mono hw.1) hw.2
  | optional item ih => exact Decoder.optional_carries (fun x => ih h) hx
  | _ => exact hx

theorem KnownField.carries_of_covers {f : KnownField} {fields : List (String × Json)}
    (h : child.Covers (depthFields fields) child') :
    (f.member child).Carries (f.member child') fields fields :=
  Members.member_carries fun _ _ hv =>
    Role.decode_of_covers (h.mono (Members.depth_le_of_values hv))

/-- There is one kind only among the members of a node that is read. -/
theorem Members.kind_unique {fields : List (String × Json)} {v : Json} {k k' : Kind}
    (hk' : (required "kind" Decoder.kind).find fields = .ok k') (hmem : ("kind", v) ∈ fields)
    (hv : Decoder.kind v = .ok k) : k' = k := by
  rw [required, find_member_eq_ok_iff] at hk'
  obtain ⟨-, habsent⟩ | ⟨w, hw, hk'⟩ := hk'
  · exact nomatch habsent
  · rw [← mem_values_iff, hw, List.mem_singleton] at hmem
    subst hmem
    exact Except.ok.inj (hk'.symm.trans hv)

/-- A construct is read field by field, as the fields of its kind. -/
theorem Decoder.construct_carries {fields fields' : List (String × Json)}
    (h : ∀ k, (Members.required "kind" kind).find fields = .ok k →
      ∀ f ∈ KnownField.required "kind" .kind :: k.fields,
        (f.member child).Carries (f.member child') fields fields')
    {form : Form Node} (hform : construct child fields = .ok form) :
    construct child' fields' = .ok form := by
  obtain ⟨k, hk, hform⟩ := bind_eq_ok_iff.mp hform
  have hfields := h k (mapError_eq_ok_iff.mp hk)
  have hk' : (Members.required "kind" kind).decode fields' = .ok k :=
    Members.Carries.decode (hfields _ (.head _)) hk
  rw [construct, hk']
  exact (Members.form_carries fun f hf => hfields f (.tail _ hf)).decode hform

theorem Decoder.node_eq_ok_iff {d : Nat} {fields : List (String × Json)} {n : Node} :
    node (d + 1) (.object fields) = .ok n ↔
      (Members.defaulted "span" span .none).find fields = .ok n.span ∧
        construct (node d) fields = .ok n.form ∧ n.id = 0 := by
  rw [node, bind_eq_ok_iff]
  constructor
  · rintro ⟨position, hposition, h⟩
    obtain ⟨form, hform, h⟩ := bind_eq_ok_iff.mp h
    obtain rfl := Except.ok.inj h
    exact ⟨mapError_eq_ok_iff.mp hposition, hform, rfl⟩
  · obtain ⟨id, position, form⟩ := n
    rintro ⟨hposition, hform, rfl⟩
    exact ⟨position, mapError_eq_ok_iff.mpr hposition, bind_eq_ok_iff.mpr ⟨form, hform, rfl⟩⟩

/-- A node that is an object is read field by field. -/
theorem Decoder.node_carries {fields fields' : List (String × Json)} {d d' : Nat}
    (h : ∀ k, (Members.required "kind" kind).find fields = .ok k → ∀ f ∈ k.nodeFields,
      (f.member (node d)).Carries (f.member (node d')) fields fields')
    {n : Node} (hn : node (d + 1) (.object fields) = .ok n) :
    node (d' + 1) (.object fields') = .ok n := by
  rw [node_eq_ok_iff] at hn ⊢
  obtain ⟨hposition, hform, hid⟩ := hn
  obtain ⟨k, hk, -⟩ := bind_eq_ok_iff.mp hform
  refine ⟨h k (mapError_eq_ok_iff.mp hk) _ (.head _) _ hposition, ?_, hid⟩
  exact construct_carries (fun k hk f hf => h k hk f (.tail _ hf)) hform

theorem Decoder.exists_of_node {d : Nat} {v : Json} {n : Node} (h : node d v = .ok n) :
    ∃ fields below, v = .object fields ∧ d = below + 1 := by
  unfold node at h
  split at h
  · rename_i fields
    cases d with
    | zero => exact nomatch h
    | succ below => exact ⟨fields, below, rfl, rfl⟩
  · exact nomatch h

/-- A node can be read as soon as the decoder goes as deep as the node does. -/
theorem Decoder.covers_node (d D : Nat) : (node d).Covers D (node D) := by
  induction D generalizing d with
  | zero =>
    intro v n hdepth hn
    obtain ⟨fields, below, rfl, rfl⟩ := exists_of_node hn
    exact absurd hdepth (by rw [Json.depth]; omega)
  | succ D ih =>
    intro v n hdepth hn
    obtain ⟨fields, below, rfl, rfl⟩ := exists_of_node hn
    rw [Json.depth] at hdepth
    refine node_carries (fun k _ f _ => KnownField.carries_of_covers ?_) hn
    exact (ih below).mono (by omega)

end

/-! ## What values mean -/

/-- In this role the value is read as `x`, if the decoder of nodes goes deep enough. -/
def Role.Means (role : Role) (v : Json) (x : role.Value) : Prop :=
  ∃ depth, role.decode (Decoder.node depth) v = .ok x

theorem Role.Means.decode {role : Role} {v : Json} {x : role.Value} (h : role.Means v x) {D : Nat}
    (hdepth : v.depth ≤ D) : role.decode (Decoder.node D) v = .ok x := by
  obtain ⟨d, hx⟩ := h
  exact decode_of_covers ((Decoder.covers_node d D).mono hdepth) hx

theorem Role.Means.unique {role : Role} {v : Json} {x y : role.Value} (hx : role.Means v x)
    (hy : role.Means v y) : x = y :=
  Except.ok.inj ((hx.decode le_rfl).symm.trans (hy.decode le_rfl))

theorem Role.means_optional_iff {item : Role} {v : Json} {o : Option item.Value} :
    (optional item).Means v o ↔
      (v = .null ∧ none = o) ∨ (v ≠ .null ∧ ∃ x, item.Means v x ∧ some x = o) := by
  constructor
  · rintro ⟨d, ho⟩
    exact (Decoder.optional_eq_ok_iff.mp ho).imp_right fun ⟨hnull, x, hx, hsome⟩ =>
      ⟨hnull, x, ⟨d, hx⟩, hsome⟩
  · rintro (hnone | ⟨hnull, x, ⟨d, hx⟩, hsome⟩)
    · exact ⟨0, Decoder.optional_eq_ok_iff.mpr (.inl hnone)⟩
    · exact ⟨d, Decoder.optional_eq_ok_iff.mpr (.inr ⟨hnull, x, hx, hsome⟩)⟩

theorem Role.means_list_iff {item : Role} {v : Json} {xs : List item.Value} :
    (list item).Means v xs ↔ ∃ vs, v = .array vs ∧ List.Forall₂ item.Means vs xs := by
  constructor
  · rintro ⟨d, hxs⟩
    obtain ⟨vs, rfl, hitems⟩ := Decoder.list_eq_ok_iff.mp hxs
    exact ⟨vs, rfl, hitems.imp fun v x hx => ⟨d, hx⟩⟩
  · rintro ⟨vs, rfl, hitems⟩
    refine ⟨depthItems vs, Decoder.list_eq_ok_iff.mpr ⟨vs, rfl, ?_⟩⟩
    have hdepth : ∀ v ∈ vs, v.depth ≤ depthItems vs := fun v => Json.depth_le_of_mem
    exact ((List.forall₂_and_left vs xs).mpr ⟨hdepth, hitems⟩).imp fun v x hx => hx.2.decode hx.1

/-- What the object has for a field is `x`, if the decoder of nodes goes deep enough. -/
def KnownField.Found (f : KnownField) (fields : List (String × Json)) (x : f.role.Value) : Prop :=
  (Members.values f.key fields = [] ∧ f.absent = some x) ∨
    ∃ v, Members.values f.key fields = [v] ∧ f.role.Means v x

namespace KnownField

variable {f : KnownField} {fields : List (String × Json)} {x : f.role.Value}

theorem elim_absent_eq_ok_iff {α : Type} {absent : Option α} {reason : DataError} {x : α} :
    absent.elim (.error reason) Except.ok = .ok x ↔ absent = some x := by
  cases absent <;> simp

theorem found_of_member {d : Nat} (h : (f.member (Decoder.node d)).find fields = .ok x) :
    f.Found fields x := by
  rw [member, Members.find_member_eq_ok_iff, elim_absent_eq_ok_iff] at h
  exact h.imp_right fun ⟨v, hv, hx⟩ => ⟨v, hv, d, hx⟩

theorem Found.member (h : f.Found fields x) {D : Nat} (hdepth : depthFields fields ≤ D) :
    (f.member (Decoder.node D)).find fields = .ok x := by
  rw [KnownField.member, Members.find_member_eq_ok_iff, elim_absent_eq_ok_iff]
  refine h.imp_right fun ⟨v, hv, hx⟩ => ⟨v, hv, hx.decode ?_⟩
  exact (Members.depth_le_of_values hv).trans hdepth

end KnownField

/-- These are the fields that an object has in a role. -/
inductive Role.Knows : Role → List (String × Json) → List KnownField → Prop where
  | span (fields : List (String × Json)) : Knows .span fields Span.fields
  | param (fields : List (String × Json)) : Knows .param fields Param.fields
  | node {fields : List (String × Json)} {v : Json} {k : Kind} (hmem : ("kind", v) ∈ fields)
      (hv : Decoder.kind v = .ok k) : Knows .node fields k.nodeFields

/-- The kind of a node is among its members. -/
theorem Role.exists_knows_node {fields : List (String × Json)} {n : Node}
    (h : node.Means (.object fields) n) : ∃ known, node.Knows fields known := by
  obtain ⟨d, hn⟩ := h
  obtain ⟨_, below, -, rfl⟩ := Decoder.exists_of_node hn
  obtain ⟨-, hform, -⟩ := Decoder.node_eq_ok_iff.mp hn
  obtain ⟨k, hk, -⟩ := bind_eq_ok_iff.mp hform
  have hkind := mapError_eq_ok_iff.mp hk
  rw [Members.required, Members.find_member_eq_ok_iff] at hkind
  obtain ⟨-, habsent⟩ | ⟨v, hv, hkind⟩ := hkind
  · cases habsent
  · exact ⟨_, .node (Members.mem_values_iff.mp (hv ▸ List.mem_singleton_self v)) hkind⟩

/-- An object means what its fields say. -/
theorem Role.means_of_found {role : Role} {fields fields' : List (String × Json)}
    {known : List KnownField} (hknown : role.Knows fields known)
    (h : ∀ f ∈ known, ∀ x, f.Found fields x → f.Found fields' x) {x : role.Value}
    (hx : role.Means (.object fields) x) : role.Means (.object fields') x := by
  obtain ⟨d, hx⟩ := hx
  have hcarries : ∀ d, ∀ f ∈ known, (f.member (Decoder.node d)).Carries
      (f.member (Decoder.node (depthFields fields'))) fields fields' := fun d f hf y hy =>
    (h f hf y (KnownField.found_of_member hy)).member le_rfl
  cases hknown with
  | span =>
    have hread : (Span.mk <$> .required "start" Decoder.uint32 <*>
        .required "end" Decoder.uint32 <*> .required "line" Decoder.uint32 : Members Span).Carries
          _ fields fields' :=
      .seq (.seq (.map
        (hcarries d _ (.head _)))
        (hcarries d _ (.tail _ (.head _))))
        (hcarries d _ (.tail _ (.tail _ (.head _))))
    exact ⟨0, hread.decode hx⟩
  | param => exact ⟨depthFields fields', Decoder.param_carries (hcarries d) hx⟩
  | @node _ v k hmem hv =>
    obtain ⟨_, below, -, rfl⟩ := Decoder.exists_of_node hx
    refine ⟨depthFields fields' + 1, Decoder.node_carries (fun k' hk' => ?_) hx⟩
    have hkind : k' = k := Members.kind_unique hk' hmem hv
    exact hkind ▸ hcarries below

end PhpRefactor
