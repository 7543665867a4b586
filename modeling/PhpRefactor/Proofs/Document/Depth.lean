import PhpRefactor.Proofs.Document.Ahead
import PhpRefactor.Proofs.Document.Range
import PhpRefactor.Proofs.Document.RoundTrip

/-!
# How deep the written form of a document is

A document need not spell out all that is written of its tree: a position or an empty list may be
missing, and a parameter may be an array.  None of this is more than one level deep, so what is
written for that which is read of a value is at most one deeper than the value (`Decoder.Deepens`),
and the written form of a tree is at most one deeper than its document
(`Document.depth_le_nesting`).

Where the written form is deeper than readers go, it is refused (`DocumentReader.root_tooDeep`).
-/

set_option autoImplicit false

namespace PhpRefactor

open Json (depth depthFields depthItems)

theorem Json.depth_ofOption_string (o : Option String) : (ofOption (o.map .string)).depth = 0 := by
  cases o <;> rfl

namespace Decoder

variable {α : Type}

/-- What is written for that which is read of a value is at most one deeper than the value. -/
def Deepens (write : α → Json) (item : Decoder α) : Prop :=
  ∀ v x, item v = .ok x → (write x).depth ≤ v.depth + 1

variable {write : α → Json} {item : Decoder α}

theorem deepens_of_scalar (h : ∀ x, (write x).depth = 0) : item.Deepens write :=
  fun v x _ => by rw [h x]; exact Nat.zero_le _

theorem Deepens.list (h : item.Deepens write) :
    (list item).Deepens fun xs => .array (xs.map write) := by
  intro v xs hxs
  obtain ⟨vs, rfl, hitems⟩ := forall₂_of_list hxs
  have hdepth : depthItems (xs.map write) ≤ depthItems vs + 1 := by
    clear hxs
    induction hitems with
    | nil => exact Nat.zero_le _
    | @cons v x vs xs hitem _ ih =>
      have hx := h v x hitem
      rw [List.map_cons, depthItems, depthItems]
      omega
  rw [depth, depth]
  omega

theorem Deepens.optional (h : item.Deepens write) :
    (optional item).Deepens fun o => Json.ofOption (o.map write) := by
  intro v o ho
  unfold Decoder.optional at ho
  split at ho
  · exact Except.ok.inj ho ▸ Nat.zero_le _
  · obtain ⟨x, hx, rfl⟩ := map_eq_ok_iff.mp ho
    exact h v x hx

end Decoder

namespace Members

variable {α : Type} {write : α → Json} {item : Decoder α} {fields : List (String × Json)}
  {key : String}

/-- What is written for that which the members say is at most one deeper than they are. -/
def Deepens (write : α → Json) (m : Members α) : Prop :=
  ∀ fields, m.Gives fields fun x => (write x).depth ≤ depthFields fields + 1

theorem deepens_member {absent : Except DataError α} (h : item.Deepens write)
    (habsent : ∀ x, absent = .ok x → (write x).depth ≤ 1) :
    (member key item absent).Deepens write := by
  refine fun fields => gives_member (fun f hf x hx => ?_) fun x hx => ?_
  · exact (h f.2 x hx).trans (Nat.succ_le_succ (Json.depth_le_of_mem_fields hf))
  · exact (habsent x hx).trans (Nat.le_add_left 1 _)

theorem deepens_required (h : item.Deepens write) : (required key item).Deepens write :=
  deepens_member h fun _ hx => nomatch hx

theorem deepens_defaulted {value : α} (h : item.Deepens write) (hvalue : (write value).depth ≤ 1) :
    (defaulted key item value).Deepens write :=
  deepens_member h fun _ hx => Except.ok.inj hx ▸ hvalue

theorem deepens_optional (h : item.Deepens write) :
    (optional key item).Deepens fun o => Json.ofOption (o.map write) :=
  deepens_defaulted h.optional (Nat.zero_le 1)

end Members

namespace Decoder

variable {α : Type} {write : α → Json} {child : Decoder α}

theorem Deepens.param (h : child.Deepens write) :
    (param child).Deepens fun p => Json.ofParam (p.map write) := by
  -- All that can be deep about a parameter is its default.
  have hdepth : ∀ (p : Param α) (d : Nat), (Json.ofOption (p.initial.map write)).depth ≤ d + 1 →
      (Json.ofParam (p.map write)).depth ≤ 1 + d + 1 := by
    intro p d hinitial
    simp only [Json.ofParam, Param.map, depth, depthFields, Json.depth_ofOption_string]
    omega
  intro v p hp
  unfold Decoder.param at hp
  split at hp
  · rename_i fields
    have hinitial : (Json.ofOption (p.initial.map write)).depth ≤ depthFields fields + 1 := by
      refine Members.Gives.decode (P := fun p : Param α =>
        (Json.ofOption (p.initial.map write)).depth ≤ depthFields fields + 1) ?_ hp
      refine .seq (.seq (P := fun _ => True) (.map (P := fun _ => True) (fun _ _ => trivial) ?_)
        fun _ _ => trivial) (Members.deepens_optional h fields)
      exact fun _ _ _ _ _ ho => ho
    exact hdepth p _ hinitial
  · cases hp
  · obtain ⟨x, -, hp⟩ := bind_eq_ok_iff.mp hp
    exact Except.ok.inj hp ▸ hdepth _ _ (Nat.zero_le _)
  · obtain ⟨x, -, hp⟩ := bind_eq_ok_iff.mp hp
    obtain ⟨hint, -, hp⟩ := bind_eq_ok_iff.mp hp
    exact Except.ok.inj hp ▸ hdepth _ _ (Nat.zero_le _)
  · rename_i x hint value rest
    obtain ⟨name, -, hp⟩ := bind_eq_ok_iff.mp hp
    obtain ⟨type, -, hp⟩ := bind_eq_ok_iff.mp hp
    obtain ⟨initial, hinitial, hp⟩ := bind_eq_ok_iff.mp hp
    have hvalue : value.depth ≤ depthItems (x :: hint :: value :: rest) :=
      Json.depth_le_of_mem (by simp)
    have hinitial := (h.optional value initial hinitial).trans (Nat.succ_le_succ hvalue)
    split at hp
    · exact Except.ok.inj hp ▸ hdepth _ _ hinitial
    · cases hp
  · cases hp

end Decoder

namespace Members

variable {α : Type} {write : α → Json} {child : Decoder α}

/-- What is written of a construct is at most one deeper than the members it is read from. -/
theorem gives_form (h : child.Deepens write) (k : Kind) (fields : List (String × Json)) :
    (form child k).Gives fields fun form =>
      depthFields (form.map write).toFields ≤ depthFields fields + 1 := by
  have hstring : ∀ x, (Json.string x).depth = 0 := fun _ => rfl
  have hbool : ∀ x, (Json.bool x).depth = 0 := fun _ => rfl
  have hint : ∀ n, (Json.int n).depth = 0 := fun _ => rfl
  have hany : ∀ {β : Type} (m : Members β), m.Gives fields fun _ => True := fun _ _ _ => trivial
  have hchild : ∀ key, (required key child).Gives fields
      fun c => (write c).depth ≤ depthFields fields + 1 := fun _ => deepens_required h fields
  have hlist : ∀ key, (required key (Decoder.list child)).Gives fields
      fun cs => (Json.array (cs.map write)).depth ≤ depthFields fields + 1 :=
    fun _ => deepens_required h.list fields
  have hdefaulted : ∀ key, (defaulted key (Decoder.list child) []).Gives fields
      fun cs => (Json.array (cs.map write)).depth ≤ depthFields fields + 1 :=
    fun _ => deepens_defaulted h.list le_rfl fields
  have hparams : ∀ key, (defaulted key (Decoder.params child) []).Gives fields
      fun ps => (Json.ofParams (ps.map (·.map write))).depth ≤ depthFields fields + 1 := by
    intro key
    unfold Json.ofParams
    simp only [List.map_map]
    exact deepens_defaulted h.param.list le_rfl fields
  have hoption : ∀ key, (optional key child).Gives fields
      fun o => (Json.ofOption (o.map write)).depth ≤ depthFields fields + 1 :=
    fun _ => deepens_optional h fields
  have hfinal : ∀ key, (optional key (Decoder.list child)).Gives fields
      fun o => (Json.ofOption ((o.map (·.map write)).map .array)).depth ≤
        depthFields fields + 1 := by
    simp only [Option.map_map]
    exact fun _ => deepens_optional h.list fields
  have hstrings : ∀ key, (required key (Decoder.list Decoder.string)).Gives fields
      fun xs => (Json.ofStrings xs).depth ≤ depthFields fields + 1 :=
    fun _ => deepens_required (Decoder.deepens_of_scalar fun _ => rfl).list fields
  refine match k with
    | .file => .map (hlist _) ?_
    | .classDecl => .seq (.seq (.map (hany _) ?_) (hany _)) (hlist _)
    | .property => .seq (.seq (.seq (.map (hany _) ?_) (hany _)) (hany _)) (hoption _)
    | .method =>
      .seq (.seq (.seq (.seq (.map (hany _) ?_) (hany _)) (hany _)) (hparams _)) (hlist _)
    | .function => .seq (.seq (.map (hany _) ?_) (hparams _)) (hlist _)
    | .ifStmt => .seq (.seq (.seq (.map (hchild _) ?_) (hlist _)) (hdefaulted _)) (hoption _)
    | .elseIf => .seq (.map (hchild _) ?_) (hlist _)
    | .elseBranch => .map (hlist _) ?_
    | .whileLoop => .seq (.map (hchild _) ?_) (hlist _)
    | .tryBlock => .seq (.seq (.map (hlist _) ?_) (hdefaulted _)) (hfinal _)
    | .catchClause => .seq (.seq (.map (hstrings _) ?_) (hchild _)) (hlist _)
    | .exprStmt => .map (hchild _) ?_
    | .returnStmt => .map (hoption _) ?_
    | .echo => .map (hlist _) ?_
    | .var => .map (hany _) ?_
    | .fetch => .seq (.map (hchild _) ?_) (hany _)
    | .assign => .seq (.map (hchild _) ?_) (hchild _)
    | .newObject => .seq (.map (hany _) ?_) (hdefaulted _)
    | .methodCall => .seq (.seq (.map (hchild _) ?_) (hany _)) (hdefaulted _)
    | .funcCall => .seq (.map (hany _) ?_) (hdefaulted _)
    | .closure => .seq (.seq (.map (hparams _) ?_) (hdefaulted _)) (hlist _)
    | .closureUse => .seq (.map (hchild _) ?_) (hany _)
    | .binary => .seq (.seq (.map (hany _) ?_) (hchild _)) (hchild _)
    | .negation => .map (hchild _) ?_
    | .array => .map (hlist _) ?_
    | .string => .map (hany _) ?_
    | .int => .map (hany _) ?_
    | .float => .map (hany _) ?float
    | .bool => .map (hany _) ?_
    | .null => fun _ hx => Except.ok.inj hx ▸ ?_
  case float =>
    intro d _
    simp only [Form.map, Form.toFields, depthFields]
    split <;> exact Nat.zero_le _
  all_goals
    intros
    simp only [Form.map, Form.toFields, depthFields, hstring, hbool, hint,
      Json.depth_ofOption_string]
    omega

end Members

namespace Decoder

theorem depth_of_construct {child : Decoder Node} (h : child.Deepens Node.toJson)
    {fields : List (String × Json)} {n : Node} (hform : construct child fields = .ok n.form) :
    n.toJson.depth ≤ depthFields fields + 2 := by
  obtain ⟨k, -, hform⟩ := bind_eq_ok_iff.mp hform
  have hfields := (Members.gives_form h k fields).decode hform
  simp only [n.toJson_eq, Node.fields, Span.toJson, depth, depthFields]
  omega

theorem deepens_node (depth : Nat) : (node depth).Deepens Node.toJson := by
  induction depth with
  | zero =>
    intro v n hn
    unfold node at hn
    split at hn <;> exact nomatch hn
  | succ depth ih =>
    intro v n hn
    unfold node at hn
    split at hn
    · obtain ⟨position, -, hn⟩ := bind_eq_ok_iff.mp hn
      obtain ⟨form, hform, hn⟩ := bind_eq_ok_iff.mp hn
      rw [← Except.ok.inj hn, Json.depth]
      have hdepth := depth_of_construct (n := ⟨0, position, form⟩) ih hform
      omega
    · exact nomatch hn

end Decoder

/-! ## The outermost node -/

/-- No more than `H` brackets are open at once. -/
def Ahead.under (H : Nat) : Ahead where
  tokens := Token.Under H
  value b v := b + v.depth ≤ H
  tail h := h.tail
  read h hread := Json.under_readFrom hread trivial h
  skip h hskip := Json.under_skip hskip h

/-- The written form of a tree is at most one deeper than the text the tree was read from. -/
theorem Document.depth_le_nesting {next : Nat} {text : String} {read : Node × Nat}
    (h : readTree next text = .ok read) : read.1.toJson.depth ≤ Json.nesting text + 1 := by
  obtain ⟨n, hrun, rfl⟩ := map_eq_ok_iff.mp h
  have hahead : (Ahead.under (Json.nesting text)).tokens 0 (Token.scan text.toList) :=
    Json.under_nesting text
  obtain ⟨fields, hfields, hform⟩ := DocumentReader.of_run_root hrun hahead
  have hnesting : depthFields fields + 1 ≤ Json.nesting text := by
    cases fields with
    | nil => exact nomatch hform
    | cons f fields =>
      have hmember : ∀ g ∈ f :: fields, g.2.depth < Json.nesting text := fun g hg =>
        (Nat.add_comm _ _).trans_le (hfields g hg)
      have hpos := Nat.zero_lt_of_lt (hmember f List.mem_cons_self)
      exact Json.depthFields_lt_of_forall hpos hmember
  have hdepth := Decoder.depth_of_construct (Decoder.deepens_node _) hform
  rw [Node.toJson_number]
  omega

namespace DocumentReader

theorem bind_of_error {α β : Type} {reader : DocumentReader α} {next : α → DocumentReader β}
    {tokens : List Token} {e : DocumentError} (h : reader tokens = .error e) :
    (reader >>= next) tokens = .error e := by
  change (reader tokens >>= fun (x, rest) => next x rest) = _
  rw [h]
  rfl

/-- A member that is too deep is not kept. -/
theorem membersWithin_tooDeep {fields : List (String × Json)} (hkeys : ∀ f ∈ fields, f.1 ≠ "span")
    (hdepth : documentDepth ≤ depthFields fields) {fuel : Nat} (hfuel : fields.length < fuel)
    (parts : RootParts) (ts : List Token) :
    membersWithin rootMember fuel false parts (Json.fieldTokens fields ++ ts) =
      .error (.notJson .tooDeep) := by
  induction fields generalizing fuel parts with
  | nil => exact absurd hdepth (by decide)
  | cons f fields ih =>
    obtain ⟨key, v⟩ := f
    obtain ⟨fuel, rfl⟩ := Nat.exists_eq_add_one_of_ne_zero (Nat.ne_zero_of_lt hfuel)
    have hkey : key ≠ "span" := hkeys _ List.mem_cons_self
    rw [List.length_cons, Nat.add_lt_add_iff_right] at hfuel
    rw [depthFields] at hdepth
    rw [Json.fieldTokens, List.cons_append, List.cons_append, List.cons_append, List.append_assoc,
      membersWithin, bind_of_ok (x := some key) rfl]
    by_cases hv : v.depth < documentDepth
    · have hrest : documentDepth ≤ depthFields fields := by omega
      exact (bind_of_ok (rootMember_value parts hkey hv _)).trans
        (ih (fun g hg => hkeys g (List.mem_cons_of_mem _ hg)) hrest hfuel _)
    · have hlimit : documentDepth - 1 < v.depth := by
        rw [documentDepth] at *
        omega
      have hvalue : value (documentDepth - 1) (v.tokens ++ (Json.fieldTokens fields ++ ts)) =
          .error (.notJson .tooDeep) := by
        rw [value, Json.readFrom_tooDeep hlimit]
        rfl
      refine bind_of_error ?_
      rw [rootMember, if_neg hkey]
      exact bind_of_error hvalue

/-- A tree whose written form is too deep is refused. -/
theorem root_tooDeep {n : Node} (hdepth : documentDepth < n.toJson.depth) (ts : List Token) :
    root (n.toJson.tokens ++ ts) = .error (.notJson .tooDeep) := by
  have hfields : documentDepth ≤ depthFields n.fields := by
    simp only [n.toJson_eq, Span.toJson, depth, depthFields, documentDepth] at hdepth ⊢
    omega
  obtain ⟨fuel, hfuel, hmembers⟩ :=
    exists_members_eq (rootMember_span n.span) n.fields (.closeObject :: ts)
  rw [root, n.toJson_eq, container_object]
  refine bind_of_error ?_
  rw [hmembers]
  exact membersWithin_tooDeep (Members.values_eq_nil_iff.mp n.values_span_fields) hfields hfuel _ _

end DocumentReader

end PhpRefactor
