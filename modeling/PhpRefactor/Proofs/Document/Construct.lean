import PhpRefactor.Document.Tree
import PhpRefactor.Proofs.Json.Tokens
import PhpRefactor.Proofs.Results
import Mathlib.Data.List.Forall2

/-!
# Reading what is written of a construct

Writing a construct gives members of an object, one for every field, and the reader of the construct
finds them by their keys (`Members.finds_form`).  All that it asks of the object is which values
stand under a key (`Members.values`): what else the object has, and in which order, makes no
difference.
-/

set_option autoImplicit false

namespace PhpRefactor

namespace Members

variable {α β : Type}

/-- The values that an object has under a key. -/
def values (key : String) (fields : List (String × Json)) : List Json :=
  fields.filterMap fun (k, v) => if k = key then some v else none

@[simp] theorem values_nil (key : String) : values key [] = [] := rfl

@[simp] theorem values_cons (key k : String) (v : Json) (fields : List (String × Json)) :
    values key ((k, v) :: fields) =
      if k = key then v :: values key fields else values key fields := by
  rw [values, List.filterMap_cons]
  split <;> simp_all [values]

theorem values_eq_nil_iff {key : String} {fields : List (String × Json)} :
    values key fields = [] ↔ ∀ f ∈ fields, f.1 ≠ key := by
  simp [values, List.filterMap_eq_nil_iff]

theorem map_snd_occurrences (key : String) (fields : List (String × Json)) :
    (occurrences key fields).map Prod.snd = values key fields := by
  have hshift : ∀ (fs : List (String × Json)) (start : Nat),
      ((fs.zipIdx start).filterMap fun f =>
        if f.1.1 = key then some (f.2, f.1.2) else none).map Prod.snd = values key fs := by
    intro fs
    induction fs with
    | nil => exact fun _ => rfl
    | cons f fs ih =>
      intro start
      rw [List.zipIdx_cons, List.filterMap_cons, values_cons]
      by_cases hkey : f.1 = key
      · simp [hkey, ih]
      · simp [hkey, ih]
  exact hshift fields 0

/-- The members that are asked for can be read from the object, as this value. -/
def Finds (m : Members α) (fields : List (String × Json)) (x : α) : Prop := m.find fields = .ok x

/-- A key that is given once has its value. -/
theorem finds_member {key : String} {item : Decoder α} {absent : Except DataError α}
    {fields : List (String × Json)} {v : Json} {x : α} (hv : values key fields = [v])
    (hx : item v = .ok x) : (member key item absent).Finds fields x := by
  rw [← map_snd_occurrences, List.map_eq_singleton_iff] at hv
  obtain ⟨⟨place, w⟩, hoccurrences, rfl⟩ := hv
  simp only [Finds, member, hoccurrences, hx]

section

variable {fields : List (String × Json)}

theorem Finds.map {f : α → β} {m : Members α} {x : α} (h : m.Finds fields x) :
    (f <$> m).Finds fields (f x) := by
  rw [Finds, find_map, h]
  rfl

theorem Finds.seq {f : Members (α → β)} {m : Members α} {g : α → β} {x : α}
    (hf : f.Finds fields g) (hm : m.Finds fields x) : (f <*> m).Finds fields (g x) :=
  find_seq_eq_ok.mpr ⟨g, x, hf, hm, rfl⟩

theorem Finds.decode {m : Members α} {x : α} (h : m.Finds fields x) : m.decode fields = .ok x := by
  rw [Members.decode, h]
  rfl

end

/-! What is made of members has a property when the values that they are made of are such. -/

/-- Whatever is read of the members of the object has the property. -/
def Gives (m : Members α) (fields : List (String × Json)) (P : α → Prop) : Prop :=
  ∀ x, m.find fields = .ok x → P x

section

variable {fields : List (String × Json)} {P : α → Prop} {Q : β → Prop}

theorem Gives.map {f : α → β} {m : Members α} (h : m.Gives fields P) (hf : ∀ x, P x → Q (f x)) :
    (f <$> m).Gives fields Q := by
  intro y hy
  rw [find_map] at hy
  obtain ⟨x, hx, rfl⟩ := map_eq_ok_iff.mp hy
  exact hf x (h x hx)

theorem Gives.seq {f : Members (α → β)} {m : Members α}
    (hf : f.Gives fields fun g => ∀ x, P x → Q (g x)) (hm : m.Gives fields P) :
    (f <*> m).Gives fields Q := by
  intro y hy
  obtain ⟨g, x, hg, hx, rfl⟩ := find_seq_eq_ok.mp hy
  exact hf g hg x (hm x hx)

theorem gives_member {key : String} {item : Decoder α} {absent : Except DataError α}
    (h : ∀ f ∈ fields, ∀ x, item f.2 = .ok x → P x) (habsent : ∀ x, absent = .ok x → P x) :
    (member key item absent).Gives fields P := by
  intro x hx
  have hvalue : ∀ o ∈ occurrences key fields, ∃ f ∈ fields, f.2 = o.2 := by
    intro o ho
    have hmem : o.2 ∈ values key fields :=
      map_snd_occurrences key fields ▸ List.mem_map_of_mem ho
    obtain ⟨f, hf, hsome⟩ := List.mem_filterMap.mp hmem
    dsimp only at hsome
    split at hsome
    · exact ⟨f, hf, Option.some.inj hsome⟩
    · exact nomatch hsome
  simp only [member] at hx
  split at hx
  · exact habsent x (mapError_eq_ok_iff.mp hx)
  · rename_i place v others hoccurrences
    obtain ⟨f, hf, rfl⟩ := hvalue (place, v) (hoccurrences ▸ List.mem_cons_self)
    split at hx
    · exact nomatch hx
    · rename_i y hitem
      exact Except.ok.inj hx ▸ h f hf y hitem
    · exact nomatch hx

theorem Gives.decode {m : Members α} {x : α} (h : m.Gives fields P) (hx : m.decode fields = .ok x) :
    P x :=
  h x (mapError_eq_ok_iff.mp hx)

end

end Members

/-- The items of a list that is read are those of an array, one for one. -/
theorem Decoder.forall₂_of_list {α : Type} {item : Decoder α} {v : Json} {xs : List α}
    (h : list item v = .ok xs) :
    ∃ vs, v = .array vs ∧ List.Forall₂ (fun v x => item v = .ok x) vs xs := by
  cases v with
  | array vs =>
    change vs.mapM item = .ok xs at h
    refine ⟨vs, rfl, ?_⟩
    induction vs generalizing xs with
    | nil => exact Except.ok.inj h ▸ .nil
    | cons v vs ih =>
      rw [List.mapM_cons] at h
      obtain ⟨x, hx, h⟩ := bind_eq_ok_iff.mp h
      obtain ⟨ys, hys, h⟩ := bind_eq_ok_iff.mp h
      exact Except.ok.inj h ▸ .cons hx (ih hys)
  | _ => exact nomatch h

/-! ## Values that are written -/

namespace Decoder

variable {α β : Type}

theorem list_map {item : Decoder α} {write : β → Json} {read : β → α}
    (h : ∀ c, item (write c) = .ok (read c)) (cs : List β) :
    list item (.array (cs.map write)) = .ok (cs.map read) := by
  change (cs.map write).mapM item = _
  induction cs with
  | nil => rfl
  | cons c cs ih =>
    rw [List.map_cons, List.mapM_cons, h, ih]
    rfl

theorem optional_some {item : Decoder α} {v : Json} {x : α} (hnull : v ≠ .null)
    (h : item v = .ok x) : optional item v = .ok (some x) := by
  cases v with
  | null => exact absurd rfl hnull
  | _ => simp only [optional, h, Except.map]

/-- What is written for an optional value is read as that value. -/
theorem optional_ofOption {item : Decoder α} {write : β → Json} {read : β → α}
    (h : ∀ c, write c ≠ .null ∧ item (write c) = .ok (read c)) (o : Option β) :
    optional item (Json.ofOption (o.map write)) = .ok (o.map read) := by
  cases o with
  | none => rfl
  | some c => exact optional_some (h c).1 (h c).2

theorem optional_list {item : Decoder α} {write : β → Json} {read : β → α}
    (h : ∀ c, item (write c) = .ok (read c)) (o : Option (List β)) :
    optional (list item) (Json.ofOption ((o.map (·.map write)).map .array)) =
      .ok (o.map (·.map read)) := by
  cases o with
  | none => rfl
  | some cs => exact optional_some (by simp [Json.ofOption]) (list_map h cs)

theorem optional_string (o : Option String) :
    optional string (Json.ofOption (o.map .string)) = .ok o := by
  cases o <;> rfl

theorem list_string (xs : List String) : list string (Json.ofStrings xs) = .ok xs := by
  have hread : ∀ x, string (.string x) = .ok (id x) := fun _ => rfl
  have h := list_map hread xs
  rwa [List.map_id] at h

theorem visibility_keyword (v : Visibility) : visibility (.string v.keyword) = .ok v := by
  cases v <;> rfl

theorem operator_name (op : Operator) : operator (.string op.name) = .ok op := by
  cases op <;> rfl

theorem kind_name (k : Kind) : kind (.string k.name) = .ok k := by
  cases k <;> rfl

theorem int64_toInt (i : Int64) : int64 (.int i.toInt) = .ok i := by
  rw [int64, intWithin, if_pos ⟨i.minValue_le_toInt, i.toInt_le⟩]
  exact congrArg Except.ok (Int64.ofInt_toInt i)

theorem uint32_toNat (n : UInt32) : uint32 (.int n.toNat) = .ok n := by
  have hhigh : (n.toNat : Int) ≤ UInt32.size - 1 := by
    have := n.toNat_lt_size
    omega
  rw [uint32, intWithin, if_pos ⟨Int.natCast_nonneg _, hhigh⟩]
  exact congrArg Except.ok UInt32.ofNat_toNat

theorem double_of_isFinite {d : Double} (h : d.isFinite) :
    double (if d.isFinite then .float d else .null) = .ok d := by
  rw [if_pos h]
  rfl

section

variable {child : Decoder α} {write : β → Json} {read : β → α}
  (h : ∀ c, write c ≠ .null ∧ child (write c) = .ok (read c))

include h

theorem param_ofParam (p : Param β) :
    param child (Json.ofParam (p.map write)) = .ok (p.map read) :=
  Members.Finds.decode <| .seq (.seq (.map
    (Members.finds_member (x := p.name) rfl rfl))
    (Members.finds_member (x := p.hint) rfl (optional_string _)))
    (Members.finds_member (x := p.initial.map read) rfl (optional_ofOption h _))

theorem params_ofParams (ps : List (Param β)) :
    params child (Json.ofParams (ps.map (·.map write))) = .ok (ps.map (·.map read)) := by
  rw [params, Json.ofParams, List.map_map]
  exact list_map (param_ofParam h) ps

end

end Decoder

/-! ## What stands in the fields

A child of a construct stands somewhere in its fields: as a value, in an array, or as the default of
a parameter.  Hence the fields nest deeper than each child, and can be written when each child can.
-/

namespace Json

theorem depth_lt_of_mem_array {vs : List Json} {v : Json} (h : v ∈ vs) :
    v.depth < (Json.array vs).depth := by
  have hle := depth_le_of_mem h
  rw [depth]
  omega

theorem depth_le_of_mem_option {o : Option Json} {v : Json} (h : v ∈ o.toList) :
    v.depth ≤ (ofOption o).depth := by
  rw [Option.mem_toList] at h
  rw [h]
  exact le_rfl

theorem depth_lt_of_mem_params {ps : List (Param Json)} {v : Json}
    (h : v ∈ (ps.map Param.segment).flatMap Segment.toList) : v.depth < (ofParams ps).depth := by
  obtain ⟨s, hs, hv⟩ := List.mem_flatMap.mp h
  obtain ⟨p, hp, rfl⟩ := List.mem_map.mp hs
  have hparam : v.depth < (ofParam p).depth := by
    have hinitial := depth_le_of_mem_option hv
    simp only [ofParam, depth, depthFields]
    omega
  exact hparam.trans (depth_lt_of_mem_array (List.mem_map_of_mem hp))

theorem writable_ofOption {o : Option Json} (h : ∀ v ∈ o.toList, v.Writable) :
    (ofOption o).Writable := by
  cases o with
  | none => exact .null
  | some v => exact h v (by simp)

theorem writable_ofOption_string (o : Option String) : (ofOption (o.map .string)).Writable := by
  cases o with
  | none => exact .null
  | some x => exact .string x

theorem writable_ofStrings (xs : List String) : (ofStrings xs).Writable := by
  refine .array fun v hv => ?_
  obtain ⟨x, -, rfl⟩ := List.mem_map.mp hv
  exact .string x

theorem writable_ofParams {ps : List (Param Json)}
    (h : ∀ v ∈ (ps.map Param.segment).flatMap Segment.toList, v.Writable) :
    (ofParams ps).Writable := by
  refine .array fun v hv => ?_
  obtain ⟨p, hp, rfl⟩ := List.mem_map.mp hv
  have hinitial : (ofOption p.initial).Writable :=
    writable_ofOption fun w hw => h w (List.mem_flatMap_of_mem (List.mem_map_of_mem hp) hw)
  refine .object fun f hf => ?_
  simp only [List.mem_cons, List.not_mem_nil, or_false] at hf
  rcases hf with rfl | rfl | rfl
  · exact .string _
  · exact writable_ofOption_string _
  · exact hinitial

end Json

namespace Form

open Json (depthFields depth)

theorem depth_le_of_mem_children {form : Form Json} {v : Json} (h : v ∈ form.children) :
    v.depth ≤ depthFields form.toFields := by
  have hlist : ∀ vs : List Json, v ∈ vs → v.depth < (Json.array vs).depth :=
    fun _ => Json.depth_lt_of_mem_array
  have hoption : ∀ o : Option Json, v ∈ o.toList → v.depth ≤ (Json.ofOption o).depth :=
    fun _ => Json.depth_le_of_mem_option
  have hparams : ∀ ps : List (Param Json), v ∈ (ps.map Param.segment).flatMap Segment.toList →
      v.depth < (Json.ofParams ps).depth :=
    fun _ => Json.depth_lt_of_mem_params
  cases form with
  | tryBlock ss cs fin =>
    cases fin <;>
    · simp only [children, segments, List.flatMap_cons, List.flatMap_nil, Segment.toList,
        List.append_nil, List.mem_append, toFields, depthFields] at h ⊢
      grind [Json.ofOption]
  | _ =>
    simp only [children, segments, List.flatMap_cons, List.flatMap_append, List.flatMap_nil,
      Segment.toList, List.append_nil, List.mem_append, List.mem_singleton, toFields,
      depthFields] at h ⊢
    grind

theorem writable_toFields {form : Form Json} (hchildren : ∀ v ∈ form.children, v.Writable)
    (hfloat : ∀ d, form = .float d → d.isFinite → d.ReadsBack) :
    ∀ f ∈ form.toFields, f.2.Writable := by
  have hlist : ∀ vs : List Json, (∀ v ∈ vs, v.Writable) → (Json.array vs).Writable :=
    fun _ h => .array h
  have hoption : ∀ o : Option Json, (∀ v ∈ o.toList, v.Writable) → (Json.ofOption o).Writable :=
    fun _ => Json.writable_ofOption
  have hparams : ∀ ps : List (Param Json),
      (∀ v ∈ (ps.map Param.segment).flatMap Segment.toList, v.Writable) →
        (Json.ofParams ps).Writable :=
    fun _ => Json.writable_ofParams
  cases form with
  | float d =>
    simp only [toFields, List.forall_mem_singleton]
    split
    · exact .float (hfloat d rfl ‹_›)
    · exact .null
  | int i =>
    simp only [toFields, List.forall_mem_singleton]
    exact .int ⟨i.le_toInt, by have := i.toInt_lt; omega⟩
  | tryBlock ss cs fin =>
    cases fin <;>
    · simp only [children, segments, List.flatMap_cons, List.flatMap_nil, Segment.toList,
        List.append_nil, List.forall_mem_append, toFields, List.forall_mem_cons] at hchildren ⊢
      grind [Json.ofOption, Json.Writable.null]
  | _ =>
    simp only [children, segments, List.flatMap_cons, List.flatMap_append, List.flatMap_nil,
      Segment.toList, List.append_nil, List.forall_mem_append, List.forall_mem_singleton,
      List.forall_mem_cons, toFields] at hchildren ⊢
    grind [Json.writable_ofOption_string, Json.writable_ofStrings, Json.Writable.string,
      Json.Writable.bool]

end Form

/-! ## Constructs -/

theorem Form.values_toFields_reserved (form : Form Json) :
    Members.values "span" form.toFields = [] ∧ Members.values "kind" form.toFields = [] := by
  cases form <;> exact ⟨rfl, rfl⟩

namespace Members

variable {α β : Type}

/-- The object has the members of the construct, and no others of these keys. -/
def Holds (fields : List (String × Json)) (form : Form Json) : Prop :=
  ∀ key, values key form.toFields ≠ [] → values key fields = values key form.toFields

/-- A kind and a position do not get in the way of the fields. -/
theorem holds_of_values_eq {fields : List (String × Json)} {form : Form Json}
    (h : ∀ key, key ≠ "span" → key ≠ "kind" → values key fields = values key form.toFields) :
    Holds fields form := by
  intro key hkey
  refine h key ?_ ?_ <;> rintro rfl
  · exact hkey form.values_toFields_reserved.1
  · exact hkey form.values_toFields_reserved.2

theorem Holds.finds_member {fields : List (String × Json)} {form : Form Json}
    (h : Holds fields form) {key : String} {item : Decoder α} {absent : Except DataError α}
    {v : Json} {x : α} (hv : values key form.toFields = [v]) (hx : item v = .ok x) :
    (member key item absent).Finds fields x :=
  Members.finds_member ((h key (by rw [hv]; simp)).trans hv) hx

/-- What is written of a construct is read as that construct. -/
theorem finds_form {child : Decoder α} {write : β → Json} {read : β → α}
    (hchild : ∀ c, write c ≠ .null ∧ child (write c) = .ok (read c)) {form : Form β}
    (hfinite : ∀ d, form = .float d → d.isFinite) {fields : List (String × Json)}
    (h : Holds fields (form.map write)) :
    (Members.form child form.kind).Finds fields (form.map read) := by
  have hitem : ∀ c, child (write c) = .ok (read c) := fun c => (hchild c).2
  cases form with
  | file ss => exact .map (h.finds_member rfl (Decoder.list_map hitem ss))
  | classDecl x parent ms =>
    exact .seq (.seq (.map
      (h.finds_member rfl rfl))
      (h.finds_member rfl (Decoder.optional_string parent)))
      (h.finds_member rfl (Decoder.list_map hitem ms))
  | property v isStatic x initial =>
    exact .seq (.seq (.seq (.map
      (h.finds_member rfl (Decoder.visibility_keyword v)))
      (h.finds_member rfl rfl))
      (h.finds_member rfl rfl))
      (h.finds_member rfl (Decoder.optional_ofOption hchild initial))
  | method x v isStatic ps ss =>
    exact .seq (.seq (.seq (.seq (.map
      (h.finds_member rfl rfl))
      (h.finds_member rfl (Decoder.visibility_keyword v)))
      (h.finds_member rfl rfl))
      (h.finds_member rfl (Decoder.params_ofParams hchild ps)))
      (h.finds_member rfl (Decoder.list_map hitem ss))
  | function x ps ss =>
    exact .seq (.seq (.map
      (h.finds_member rfl rfl))
      (h.finds_member rfl (Decoder.params_ofParams hchild ps)))
      (h.finds_member rfl (Decoder.list_map hitem ss))
  | ifStmt c ss es e =>
    exact .seq (.seq (.seq (.map
      (h.finds_member rfl (hitem c)))
      (h.finds_member rfl (Decoder.list_map hitem ss)))
      (h.finds_member rfl (Decoder.list_map hitem es)))
      (h.finds_member rfl (Decoder.optional_ofOption hchild e))
  | elseIf c ss | whileLoop c ss =>
    exact .seq (.map
      (h.finds_member rfl (hitem c)))
      (h.finds_member rfl (Decoder.list_map hitem ss))
  | elseBranch ss => exact .map (h.finds_member rfl (Decoder.list_map hitem ss))
  | tryBlock ss cs fin =>
    exact .seq (.seq (.map
      (h.finds_member rfl (Decoder.list_map hitem ss)))
      (h.finds_member rfl (Decoder.list_map hitem cs)))
      (h.finds_member rfl (Decoder.optional_list hitem fin))
  | catchClause ts v ss =>
    exact .seq (.seq (.map
      (h.finds_member rfl (Decoder.list_string ts)))
      (h.finds_member rfl (hitem v)))
      (h.finds_member rfl (Decoder.list_map hitem ss))
  | exprStmt e | negation e => exact .map (h.finds_member rfl (hitem e))
  | returnStmt e => exact .map (h.finds_member rfl (Decoder.optional_ofOption hchild e))
  | echo es | array es => exact .map (h.finds_member rfl (Decoder.list_map hitem es))
  | var | string | bool => exact .map (h.finds_member rfl rfl)
  | fetch o => exact .seq (.map (h.finds_member rfl (hitem o))) (h.finds_member rfl rfl)
  | assign t v => exact .seq (.map (h.finds_member rfl (hitem t))) (h.finds_member rfl (hitem v))
  | newObject _ args | funcCall _ args =>
    exact .seq (.map
      (h.finds_member rfl rfl))
      (h.finds_member rfl (Decoder.list_map hitem args))
  | methodCall o _ args =>
    exact .seq (.seq (.map
      (h.finds_member rfl (hitem o)))
      (h.finds_member rfl rfl))
      (h.finds_member rfl (Decoder.list_map hitem args))
  | closure ps us ss =>
    exact .seq (.seq (.map
      (h.finds_member rfl (Decoder.params_ofParams hchild ps)))
      (h.finds_member rfl (Decoder.list_map hitem us)))
      (h.finds_member rfl (Decoder.list_map hitem ss))
  | closureUse v => exact .seq (.map (h.finds_member rfl (hitem v))) (h.finds_member rfl rfl)
  | binary op l r =>
    exact .seq (.seq (.map
      (h.finds_member rfl (Decoder.operator_name op)))
      (h.finds_member rfl (hitem l)))
      (h.finds_member rfl (hitem r))
  | int i => exact .map (h.finds_member rfl (Decoder.int64_toInt i))
  | float d => exact .map (h.finds_member rfl (Decoder.double_of_isFinite (hfinite d rfl)))
  | null => rfl

end Members

end PhpRefactor
