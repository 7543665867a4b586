import PhpRefactor.Proofs.Document.RoundTrip
import PhpRefactor.Proofs.Document.Whole

/-!
# Documents that are spelled differently

The members of an object may stand in any order, members that the object does not know may be added,
and a field that has a default may be left out or written down (`Respells`).  However often and
however deep inside a document this is done, the document means the same (`Respells.means`), and the
same tree is read from it (`Document.readTree_respelled`).
-/

set_option autoImplicit false

namespace PhpRefactor

/-- A value that says no more than leaving the field out. -/
def KnownField.IsDefault (f : KnownField) (v : Json) : Prop :=
  ∃ x, f.absent = some x ∧ f.role.Means v x

/-- One change to how a value in this role is spelled. -/
inductive Respells : Role → Json → Json → Prop where
  /-- Members change places. -/
  | permute {role : Role} {fields fields' : List (String × Json)} (h : fields.Perm fields') :
      Respells role (.object fields) (.object fields')
  /-- A member that the object does not know comes in. -/
  | insert {role : Role} {before after : List (String × Json)} {known : List KnownField}
      (hknown : role.Knows (before ++ after) known) {key : String}
      (hkey : ∀ f ∈ known, f.key ≠ key) (v : Json) :
      Respells role (.object (before ++ after)) (.object (before ++ (key, v) :: after))
  /-- A member that the object does not know gets another value. -/
  | ignored {role : Role} {before after : List (String × Json)} {known : List KnownField}
      {key : String} {v : Json} (hknown : role.Knows (before ++ (key, v) :: after) known)
      (hkey : ∀ f ∈ known, f.key ≠ key) (v' : Json) :
      Respells role (.object (before ++ (key, v) :: after)) (.object (before ++ (key, v') :: after))
  /-- A field that holds its default is left out. -/
  | leaveOut {role : Role} {before after : List (String × Json)} {known : List KnownField}
      {f : KnownField} {v : Json} (hknown : role.Knows (before ++ (f.key, v) :: after) known)
      (hf : f ∈ known) (hv : f.IsDefault v) :
      Respells role (.object (before ++ (f.key, v) :: after)) (.object (before ++ after))
  /-- A missing field is written down with its default. -/
  | writeOut {role : Role} {before after : List (String × Json)} {known : List KnownField}
      (hknown : role.Knows (before ++ after) known) {f : KnownField} (hf : f ∈ known)
      (hmissing : ∀ g ∈ before ++ after, g.1 ≠ f.key) {v : Json} (hv : f.IsDefault v) :
      Respells role (.object (before ++ after)) (.object (before ++ (f.key, v) :: after))
  /-- The value of a field is spelled differently. -/
  | field {role : Role} {before after : List (String × Json)} {known : List KnownField}
      {f : KnownField} {v v' : Json} (hknown : role.Knows (before ++ (f.key, v) :: after) known)
      (hf : f ∈ known) (h : Respells f.role v v') :
      Respells role (.object (before ++ (f.key, v) :: after))
        (.object (before ++ (f.key, v') :: after))
  /-- An item of a list is spelled differently. -/
  | item {role : Role} {before after : List Json} {v v' : Json} (h : Respells role v v') :
      Respells (.list role) (.array (before ++ v :: after)) (.array (before ++ v' :: after))
  /-- A value that may be `null` is there and spelled differently. -/
  | some {role : Role} {v v' : Json} (h : Respells role v v') : Respells (.optional role) v v'
  /-- The default of a parameter that is an array is spelled differently. -/
  | initial {name hint v v' : Json} (h : Respells (.optional .node) v v') :
      Respells .param (.array [name, hint, v]) (.array [name, hint, v'])

/-! ## One object for another -/

namespace KnownField

variable {f : KnownField} {fields fields' : List (String × Json)} {x : f.role.Value}

theorem Found.of_values_eq (h : f.Found fields x)
    (hvalues : Members.values f.key fields = Members.values f.key fields') : f.Found fields' x := by
  unfold Found
  rwa [← hvalues]

theorem Found.perm (h : f.Found fields x) (hperm : fields.Perm fields') : f.Found fields' x := by
  have hvalues : (Members.values f.key fields).Perm (Members.values f.key fields') :=
    hperm.filterMap _
  obtain ⟨hnil, habsent⟩ | ⟨v, hv, hx⟩ := h
  · rw [hnil] at hvalues
    exact .inl ⟨hvalues.nil_eq.symm, habsent⟩
  · rw [hv] at hvalues
    exact .inr ⟨v, hvalues.symm.eq_singleton, hx⟩

end KnownField

namespace Role

theorem Knows.nodup {role : Role} {fields : List (String × Json)} {known : List KnownField}
    (h : role.Knows fields known) : (known.map KnownField.key).Nodup := by
  cases h with
  | span | param => decide
  | node => exact Kind.nodup_nodeFields _

/-- Where the objects differ in one field only, this field decides. -/
theorem means_of_field {role : Role} {fields fields' : List (String × Json)}
    {known : List KnownField} (hknown : role.Knows fields known) {f : KnownField} (hf : f ∈ known)
    (hothers : ∀ key, f.key ≠ key → Members.values key fields = Members.values key fields')
    (h : ∀ x, f.Found fields x → f.Found fields' x) {x : role.Value}
    (hx : role.Means (.object fields) x) : role.Means (.object fields') x := by
  refine means_of_found hknown (fun g hg y hy => ?_) hx
  by_cases hkey : f.key = g.key
  · obtain rfl := List.inj_on_of_nodup_map hknown.nodup hf hg hkey
    exact h y hy
  · exact hy.of_values_eq (hothers g.key hkey)

/-- The name of a choice stands in an object by itself. -/
theorem choice_perm {α : Type} {choices : List α} {name : α → String}
    {fields fields' : List (String × Json)} (hperm : fields.Perm fields') {c : α}
    (h : Decoder.choice choices name (.object fields) = .ok c) :
    Decoder.choice choices name (.object fields') = .ok c := by
  match fields with
  | [f] => rwa [hperm.symm.eq_singleton]
  | [] | _ :: _ :: _ => exact nomatch h

/-- The order of the members says nothing. -/
theorem Means.perm {role : Role} {fields fields' : List (String × Json)} {x : role.Value}
    (hx : role.Means (.object fields) x) (hperm : fields.Perm fields') :
    role.Means (.object fields') x := by
  induction role with
  | node =>
    obtain ⟨known, hknown⟩ := exists_knows_node hx
    exact means_of_found hknown (fun f _ y hy => hy.perm hperm) hx
  | span => exact means_of_found (.span fields) (fun f _ y hy => hy.perm hperm) hx
  | param => exact means_of_found (.param fields) (fun f _ y hy => hy.perm hperm) hx
  | visibility | operator =>
    obtain ⟨d, hx⟩ := hx
    exact ⟨d, choice_perm hperm hx⟩
  | optional item ih =>
    rw [means_optional_iff] at hx ⊢
    obtain ⟨hnull, -⟩ | ⟨-, y, hy, rfl⟩ := hx
    · exact nomatch hnull
    · exact .inr ⟨Json.noConfusion, y, ih hy, rfl⟩
  | _ =>
    obtain ⟨d, hx⟩ := hx
    exact nomatch hx

end Role

/-! ## Changes that say nothing -/

theorem Members.values_insert {key k : String} {v : Json} {before after : List (String × Json)} :
    values key (before ++ (k, v) :: after) =
      values key before ++ if k = key then v :: values key after else values key after := by
  rw [values_append, values_cons]

theorem Respells.ne_null {role : Role} {v v' : Json} (h : Respells role v v') :
    v ≠ .null ∧ v' ≠ .null := by
  induction h with
  | some _ ih => exact ih
  | _ => exact ⟨Json.noConfusion, Json.noConfusion⟩

theorem Members.values_insert_of_ne {key k : String} (v : Json)
    (before after : List (String × Json)) (hkey : k ≠ key) :
    values key (before ++ (k, v) :: after) = values key (before ++ after) := by
  rw [values_insert, if_neg hkey, values_append]

namespace KnownField

variable {f : KnownField} {before after : List (String × Json)} {v : Json} {x : f.role.Value}

/-- A field that is there must not be there once more. -/
theorem found_insert_iff :
    f.Found (before ++ (f.key, v) :: after) x ↔
      Members.values f.key (before ++ after) = [] ∧ f.role.Means v x := by
  unfold Found
  rw [Members.values_insert, if_pos rfl, Members.values_append]
  constructor
  · rintro (⟨hnil, -⟩ | ⟨w, hw, hx⟩)
    · exact absurd (List.append_eq_nil_iff.mp hnil).2 (List.cons_ne_nil _ _)
    · obtain ⟨hbefore, hcons⟩ | ⟨-, hcons⟩ := List.append_eq_singleton_iff.mp hw
      · obtain ⟨rfl, hafter⟩ := List.cons.inj hcons
        exact ⟨by rw [hbefore, hafter]; rfl, hx⟩
      · exact absurd hcons (List.cons_ne_nil _ _)
  · rintro ⟨hnil, hx⟩
    obtain ⟨hbefore, hafter⟩ := List.append_eq_nil_iff.mp hnil
    exact .inr ⟨v, by rw [hbefore, hafter]; rfl, hx⟩

theorem found_of_missing_iff (hmissing : Members.values f.key (before ++ after) = []) :
    f.Found (before ++ after) x ↔ f.absent = some x := by
  unfold Found
  rw [hmissing]
  simp

end KnownField

theorem forall₂_replace {α β : Type} {R : α → β → Prop} {before after : List α} {v v' : α}
    (h : ∀ x, R v x → R v' x) {xs : List β} (hxs : List.Forall₂ R (before ++ v :: after) xs) :
    List.Forall₂ R (before ++ v' :: after) xs := by
  induction before generalizing xs with
  | nil =>
    cases hxs with
    | cons hx hxs => exact .cons (h _ hx) hxs
  | cons u before ih =>
    cases hxs with
    | cons hx hxs => exact .cons hx (ih hxs)

/-- A value that is spelled differently means the same. -/
theorem Respells.means {role : Role} {v v' : Json} (h : Respells role v v') {x : role.Value}
    (hx : role.Means v x) : role.Means v' x := by
  induction h with
  | permute hperm => exact hx.perm hperm
  | @insert role before after known hknown key hkey v =>
    refine Role.means_of_found hknown (fun f hf y hy => hy.of_values_eq ?_) hx
    exact (Members.values_insert_of_ne v before after (hkey f hf).symm).symm
  | @ignored role before after known key v hknown hkey v' =>
    refine Role.means_of_found hknown (fun f hf y hy => hy.of_values_eq ?_) hx
    rw [Members.values_insert_of_ne v before after (hkey f hf).symm,
      Members.values_insert_of_ne v' before after (hkey f hf).symm]
  | @leaveOut role before after known f v hknown hf hv =>
    refine Role.means_of_field hknown hf
      (fun key => Members.values_insert_of_ne v before after) ?_ hx
    intro y hy
    obtain ⟨hmissing, hy⟩ := KnownField.found_insert_iff.mp hy
    obtain ⟨z, hz, hmeans⟩ := hv
    exact (KnownField.found_of_missing_iff hmissing).mpr (hy.unique hmeans ▸ hz)
  | @writeOut role before after known hknown f hf hmissing v hv =>
    refine Role.means_of_field hknown hf
      (fun key hkey => (Members.values_insert_of_ne v before after hkey).symm) ?_ hx
    intro y hy
    have hmissing := Members.values_eq_nil_iff.mpr hmissing
    obtain ⟨z, hz, hmeans⟩ := hv
    have hsome := hz.symm.trans ((KnownField.found_of_missing_iff hmissing).mp hy)
    exact KnownField.found_insert_iff.mpr ⟨hmissing, Option.some.inj hsome ▸ hmeans⟩
  | @field role before after known f v v' hknown hf _ ih =>
    refine Role.means_of_field hknown hf (fun key hkey => ?_) (fun y hy => ?_) hx
    · rw [Members.values_insert_of_ne v before after hkey,
        Members.values_insert_of_ne v' before after hkey]
    · obtain ⟨hmissing, hy⟩ := KnownField.found_insert_iff.mp hy
      exact KnownField.found_insert_iff.mpr ⟨hmissing, ih hy⟩
  | item _ ih =>
    obtain ⟨vs, hvs, hitems⟩ := Role.means_list_iff.mp hx
    obtain rfl := Json.array.inj hvs
    exact Role.means_list_iff.mpr ⟨_, rfl, forall₂_replace (fun x => ih) hitems⟩
  | some h ih =>
    rw [Role.means_optional_iff] at hx ⊢
    obtain ⟨hnull, -⟩ | ⟨-, y, hy, rfl⟩ := hx
    · exact absurd hnull h.ne_null.1
    · exact .inr ⟨h.ne_null.2, y, ih hy, rfl⟩
  | @initial name hint v v' _ ih =>
    obtain ⟨d, hp⟩ := hx
    obtain ⟨hname, hhint, hinitial, hrest⟩ := Decoder.param_array_eq_ok_iff.mp hp
    have hinitial' := (ih (x := x.initial) ⟨d, hinitial⟩).decode le_rfl
    exact ⟨v'.depth, Decoder.param_array_eq_ok_iff.mpr ⟨hname, hhint, hinitial', hrest⟩⟩

namespace Document

/-- A document that is spelled differently is read as the same tree: only the identities differ. -/
theorem readTree_respelled {next : Nat} {text : String} {tree : Node} {after : Nat}
    (hread : readTree next text = .ok (tree, after)) :
    (∃ v, Says text v) ∧
      ∀ v, Says text v → ∀ (text' : String) (v' : Json) (next' : Nat),
        Relation.ReflTransGen (Respells .node) v v' → Says text' v' →
          ∃ again after', readTree next' text' = .ok (again, after') ∧
            again.anonymous = tree.anonymous := by
  refine ⟨?_, fun v hsays text' v' next' hrespells hsays' => ?_⟩
  · obtain ⟨v, -, hv, -⟩ := readTree_eq_ok_iff.mp hread
    exact ⟨v, .inr hv⟩
  · obtain ⟨n, hn, hnumber⟩ := hsays.readTree_eq_ok_iff.mp hread
    have hmeans : Role.node.Means v' n := by
      clear hsays'
      induction hrespells with
      | refl => exact hn
      | tail _ h ih => exact h.means ih
    obtain rfl : (n.number next).1 = tree := congrArg Prod.fst hnumber
    refine ⟨_, _, hsays'.readTree_eq_ok_iff.mpr ⟨n, hmeans, rfl⟩, ?_⟩
    rw [Node.anonymous_number, Node.anonymous_number]

end Document

/-- The statement that returns a new object, as a document says it in short. -/
def returnDocument : Json :=
  .object [("kind", .string "Return"),
    ("expr", .object [("class", .string "A"), ("kind", .string "New")])]

/-- The same with members in another order, an empty list of arguments, and a member more. -/
def returnDocumentInFull : Json :=
  .object [("x", .null), ("kind", .string "Return"),
    ("expr", .object [("kind", .string "New"), ("class", .string "A"), ("args", .array [])])]

/-- The tree that both documents say. -/
def returnNewObject : Node := ⟨0, .none, .returnStmt (some ⟨0, .none, .newObject "A" []⟩)⟩

theorem respells_returnDocument :
    Relation.ReflTransGen (Respells .node) returnDocument returnDocumentInFull := by
  have hreturn : ∀ fields : List (String × Json),
      Role.node.Knows (("kind", .string "Return") :: fields) Kind.returnStmt.nodeFields :=
    fun _ => .node (.head _) rfl
  have hnew : ∀ fields : List (String × Json),
      Role.node.Knows (("kind", .string "New") :: fields) Kind.newObject.nodeFields :=
    fun _ => .node (.head _) rfl
  have hexpr : ∀ v v', Respells .node v v' →
      Respells .node (.object [("kind", .string "Return"), ("expr", v)])
        (.object [("kind", .string "Return"), ("expr", v')]) := fun v v' h =>
    @Respells.field _ [("kind", .string "Return")] [] _ (.optional "expr" .node) v v' (hreturn _)
      (.tail _ (.tail _ (.head _))) (.some h)
  have hargs := @Respells.writeOut _ [("kind", .string "New"), ("class", .string "A")] [] _
    (hnew _) (.defaulted "args" (.list .node) []) (.tail _ (.tail _ (.tail _ (.head _))))
    (by simp [KnownField.defaulted]) (.array []) ⟨_, rfl, 0, rfl⟩
  have hinsert : ∀ fields, Respells .node (.object (("kind", .string "Return") :: fields))
      (.object (("x", .null) :: ("kind", .string "Return") :: fields)) :=
    fun fields => @Respells.insert _ [] _ _ (hreturn fields) "x" (by decide) .null
  exact .tail (.tail (.single (hexpr _ _ (.permute (.swap _ _ _)))) (hexpr _ _ hargs)) (hinsert _)

theorem writable_returnDocument : returnDocument.Writable ∧ returnDocumentInFull.Writable := by
  have hargs : (Json.array []).Writable := .array fun _ hv => absurd hv List.not_mem_nil
  have hshort : (Json.object [("class", .string "A"), ("kind", .string "New")]).Writable :=
    .object (by simp [Json.Writable.string])
  have hfull : (Json.object [("kind", .string "New"), ("class", .string "A"),
      ("args", .array [])]).Writable :=
    .object (by simp [Json.Writable.string, hargs])
  exact ⟨.object (by simp [Json.Writable.string, hshort]),
    .object (by simp [Json.Writable.string, Json.Writable.null, hfull])⟩

theorem Document.readTree_respelled_return :
    ∃ again after, readTree 1 returnDocumentInFull.pretty = .ok (again, after) ∧
      again.anonymous = returnNewObject.anonymous := by
  obtain ⟨hshort, hfull⟩ := writable_returnDocument
  have hvalue : Json.read documentDepth returnDocument.pretty = .ok returnDocument :=
    hshort.read_pretty (by decide)
  have hread : readTree 1 returnDocument.pretty = .ok (returnNewObject.number 1) :=
    (readTree_eq_ok_iff_of_read hvalue).mpr ⟨returnNewObject, ⟨2, rfl⟩, rfl⟩
  obtain ⟨-, hrespelled⟩ := readTree_respelled hread
  obtain ⟨again, after, hagain, hsame⟩ := hrespelled _ (.inl hvalue) _ _ 1 respells_returnDocument
    (.inl (hfull.read_pretty (by decide)))
  exact ⟨again, after, hagain, hsame.trans (Node.anonymous_number 1 _)⟩

theorem Token.scan_cons {s rest : List Char} {t : Token} {ts : List Token}
    (h : next? s = some (t, rest)) (hrest : scan rest = ts) : scan s = t :: ts := by
  rw [scan_of_next?_eq_some h, hrest]

/-- A number beyond the range of floats is refused even where nobody asks for it. -/
theorem Document.readTree_number_out_of_range :
    readTree 1 "\x7b\"kind\": \"Null\"\x7d" = .ok (⟨1, .none, .null⟩, 2) ∧
      readTree 1 "\x7b\"kind\": \"Null\", \"x\": 1e999\x7d" =
        .error (.notJson .numberOutOfRange) := by
  have hnumber : Token.next? [' ', '1', 'e', '9', '9', '9', '\x7d'] =
      some (.fault false .numberOutOfRange none, ['\x7d']) := by
    have hnumeral : Token.readNumeral false ['1', 'e', '9', '9', '9', '\x7d'] =
        .ok (⟨false, [1], [], some 999⟩, ['\x7d']) := rfl
    have hvalue : (Decimal.mk false [1] [] 999).scaled? = none := by decide +kernel
    rw [Token.next?_of_blank rfl, Token.next?_of_not_blank rfl,
      Token.startingWith_of_isDigit (by decide), Token.numberToken, hnumeral]
    simp [Token.Numeral.value, hvalue]
  have hshort : Token.scan "\x7b\"kind\": \"Null\"\x7d".toList =
      [.openObject, .string "kind", .colon, .string "Null", .closeObject] :=
    Token.scan_cons rfl (Token.scan_cons rfl (Token.scan_cons rfl (Token.scan_cons rfl
      (Token.scan_cons rfl Token.scan_nil))))
  have hlong : Token.scan "\x7b\"kind\": \"Null\", \"x\": 1e999\x7d".toList =
      [.openObject, .string "kind", .colon, .string "Null", .comma, .string "x", .colon,
        .fault false .numberOutOfRange none, .closeObject] :=
    Token.scan_cons rfl (Token.scan_cons rfl (Token.scan_cons rfl (Token.scan_cons rfl
      (Token.scan_cons rfl (Token.scan_cons rfl (Token.scan_cons rfl (Token.scan_cons hnumber
        (Token.scan_cons rfl Token.scan_nil))))))))
  constructor
  · have hchildren : Node.numberAll (1 + 1) (Node.children ⟨0, .none, .null⟩) = ([], 2) := by
      change Node.numberAll 2 [] = _
      rw [Node.numberAll]
    have hnumbered : Node.number 1 ⟨0, .none, .null⟩ = (⟨1, .none, .null⟩, 2) := by
      rw [Node.number_eq, hchildren]
      rfl
    rw [readTree, DocumentReader.run, hshort]
    exact congrArg Except.ok hnumbered
  · rw [readTree, DocumentReader.run, hlong]
    rfl

end PhpRefactor
