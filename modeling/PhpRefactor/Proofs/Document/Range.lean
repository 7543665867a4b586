import PhpRefactor.Proofs.Document.Ahead
import PhpRefactor.Proofs.Document.RoundTrip
import PhpRefactor.Proofs.Json.Range
import PhpRefactor.Proofs.Results

/-!
# Floats that come from a document

A tree that is read has finite floats (`Document.exists_of_readTree`).  Its numbers come out of
values in range, and neither a decoder nor the members of an object make up a value.  A property
that is enough for the parts is hence enough for the whole (`Decoder.Yields`, `Members.Yields`), and
there is one rule for each way to put decoders and members together.  Nor does a reader of a
document make up a token (`Ahead.inRange`).
-/

set_option autoImplicit false

namespace PhpRefactor

/-! ## Decoders -/

/-- What the decoder makes of a value in range has the property. -/
def Decoder.Yields {α : Type} (P : α → Prop) (decoder : Decoder α) : Prop :=
  ∀ v x, v.InRange → decoder v = .ok x → P x

/-- What is made of members with values in range has the property. -/
def Members.Yields {α : Type} (P : α → Prop) (m : Members α) : Prop :=
  ∀ fields x, (∀ f ∈ fields, f.2.InRange) → m.find fields = .ok x → P x

namespace Decoder

variable {α : Type} {P : α → Prop} {item : Decoder α}

theorem yields_list (h : item.Yields P) : (list item).Yields fun xs => ∀ x ∈ xs, P x := by
  intro v xs hv hxs
  obtain ⟨vs, rfl, hitems⟩ := forall₂_of_list hxs
  clear hxs
  cases hv with
  | array hvs =>
    induction hitems with
    | nil => exact fun _ hx => absurd hx List.not_mem_nil
    | cons hitem _ ih =>
      rw [List.forall_mem_cons] at hvs
      exact List.forall_mem_cons.mpr ⟨h _ _ hvs.1 hitem, ih hvs.2⟩

theorem yields_optional (h : item.Yields P) : (optional item).Yields fun o => ∀ x ∈ o, P x := by
  intro v o hv ho
  unfold optional at ho
  split at ho
  · rw [← Except.ok.inj ho]
    exact fun _ hx => absurd hx (by simp)
  · obtain ⟨x, hitem, rfl⟩ := map_eq_ok_iff.mp ho
    intro y hy
    rw [← Option.some.inj hy]
    exact h v x hv hitem

theorem yields_double : double.Yields fun d => d.isFinite := by
  intro v d hv hd
  cases hv with
  | float h => exact Except.ok.inj hd ▸ h
  | @int n h =>
    have hsmall : n.natAbs < 2 ^ 64 := by
      obtain ⟨hlow, hhigh⟩ := h
      omega
    rw [← Except.ok.inj hd]
    exact Double.isFinite_withSign _ (Double.atMost_ofNat hsmall).1
  | _ => exact nomatch hd

end Decoder

namespace Members

variable {α β : Type} {P : α → Prop} {Q : β → Prop}

theorem Yields.gives {m : Members α} (h : m.Yields P) {fields : List (String × Json)}
    (hfields : ∀ f ∈ fields, f.2.InRange) : m.Gives fields P :=
  fun x => h fields x hfields

theorem Yields.map {f : α → β} {m : Members α} (h : m.Yields P) (hf : ∀ x, P x → Q (f x)) :
    (f <$> m).Yields Q :=
  fun _ y hfields => (h.gives hfields).map hf y

theorem Yields.seq {f : Members (α → β)} {m : Members α}
    (hf : f.Yields fun g => ∀ x, P x → Q (g x)) (hm : m.Yields P) : (f <*> m).Yields Q :=
  fun _ y hfields => (hf.gives hfields).seq (hm.gives hfields) y

theorem yields_member {key : String} {item : Decoder α} {absent : Except DataError α}
    (h : item.Yields P) (habsent : ∀ x, absent = .ok x → P x) :
    (member key item absent).Yields P :=
  fun _ x hfields => gives_member (fun f hf y => h f.2 y (hfields f hf)) habsent x

section

variable {key : String} {item : Decoder α}

theorem yields_required (h : item.Yields P) : (required key item).Yields P :=
  yields_member h fun _ hx => absurd hx (by simp)

theorem yields_defaulted {value : α} (h : item.Yields P) (hvalue : P value) :
    (defaulted key item value).Yields P :=
  yields_member h fun _ hx => Except.ok.inj hx ▸ hvalue

theorem yields_optional (h : item.Yields P) :
    (optional key item).Yields fun o => ∀ x ∈ o, P x :=
  yields_defaulted (Decoder.yields_optional h) fun _ hx => absurd hx (by simp)

/-- Whatever a member is, if nothing is asked of it. -/
theorem yields_true (m : Members α) : m.Yields fun _ => True := fun _ _ _ _ => trivial

end

theorem Yields.decode {m : Members α} (h : m.Yields P) {fields : List (String × Json)} {x : α}
    (hfields : ∀ f ∈ fields, f.2.InRange) (hx : m.decode fields = .ok x) : P x :=
  (h.gives hfields).decode hx

end Members

namespace Decoder

variable {α : Type} {P : α → Prop} {child : Decoder α}

theorem yields_param (h : child.Yields P) : (param child).Yields fun p => ∀ c ∈ p.initial, P c := by
  have hnone : ∀ c ∈ (none : Option α), P c := fun _ hc => absurd hc (by simp)
  intro v p hv hp
  unfold param at hp
  split at hp
  · cases hv with
    | object hfields =>
      refine Members.Yields.decode (P := fun p => ∀ c ∈ p.initial, P c) ?_ hfields hp
      refine .seq (P := fun o => ∀ c ∈ o, P c) (.seq (P := fun _ => True) (.map (P := fun _ => True)
        (Members.yields_true _) ?_) (Members.yields_true _)) (Members.yields_optional h)
      exact fun _ _ _ _ _ ho => ho
  · exact nomatch hp
  · obtain ⟨_, -, hp⟩ := bind_eq_ok_iff.mp hp
    exact Except.ok.inj hp ▸ hnone
  · obtain ⟨_, -, hp⟩ := bind_eq_ok_iff.mp hp
    obtain ⟨_, -, hp⟩ := bind_eq_ok_iff.mp hp
    exact Except.ok.inj hp ▸ hnone
  · rename_i x hint value rest
    cases hv with
    | array hvs =>
      obtain ⟨_, -, hp⟩ := bind_eq_ok_iff.mp hp
      obtain ⟨_, -, hp⟩ := bind_eq_ok_iff.mp hp
      obtain ⟨initial, hinitial, hp⟩ := bind_eq_ok_iff.mp hp
      have hinitial := yields_optional h value initial (hvs value (by simp)) hinitial
      split at hp
      · exact Except.ok.inj hp ▸ hinitial
      · exact nomatch hp
  · exact nomatch hp

end Decoder

/-- The children of the construct have the property, and if it is a float, this is finite. -/
def Form.Sound {α : Type} (P : α → Prop) (form : Form α) : Prop :=
  (∀ c ∈ form.children, P c) ∧ ∀ d, form = .float d → d.isFinite

namespace Members

variable {α : Type} {P : α → Prop} {child : Decoder α}

theorem yields_form (h : child.Yields P) (k : Kind) : (form child k).Yields (Form.Sound P) := by
  have hnone : ∀ c ∈ ([] : List α), P c := fun _ hc => absurd hc List.not_mem_nil
  have hchild : ∀ key, (required key child).Yields P := fun _ => yields_required h
  have hlist : ∀ key, (required key (Decoder.list child)).Yields fun cs => ∀ c ∈ cs, P c :=
    fun _ => yields_required (Decoder.yields_list h)
  have hdefaulted : ∀ key,
      (defaulted key (Decoder.list child) []).Yields fun cs => ∀ c ∈ cs, P c :=
    fun _ => yields_defaulted (Decoder.yields_list h) hnone
  have hparams : ∀ key, (defaulted key (Decoder.params child) []).Yields fun ps =>
      ∀ p ∈ ps, ∀ c ∈ p.initial, P c :=
    fun _ => yields_defaulted (Decoder.yields_list (Decoder.yields_param h))
      fun _ hp => absurd hp List.not_mem_nil
  have hoption : ∀ key, (optional key child).Yields fun o => ∀ c ∈ o, P c :=
    fun _ => yields_optional h
  have hfinal : ∀ key,
      (optional key (Decoder.list child)).Yields fun o => ∀ cs ∈ o, ∀ c ∈ cs, P c :=
    fun _ => yields_optional (Decoder.yields_list h)
  have hfloat : (required "value" Decoder.double).Yields fun d => d.isFinite :=
    yields_required Decoder.yields_double
  refine match k with
    | .file => .map (hlist _) ?_
    | .classDecl => .seq (.seq (.map (yields_true _) ?_) (yields_true _)) (hlist _)
    | .property =>
      .seq (.seq (.seq (.map (yields_true _) ?_) (yields_true _)) (yields_true _)) (hoption _)
    | .method =>
      .seq (.seq (.seq (.seq (.map (yields_true _) ?_) (yields_true _)) (yields_true _))
        (hparams _)) (hlist _)
    | .function => .seq (.seq (.map (yields_true _) ?_) (hparams _)) (hlist _)
    | .ifStmt => .seq (.seq (.seq (.map (hchild _) ?_) (hlist _)) (hdefaulted _)) (hoption _)
    | .elseIf => .seq (.map (hchild _) ?_) (hlist _)
    | .elseBranch => .map (hlist _) ?_
    | .whileLoop => .seq (.map (hchild _) ?_) (hlist _)
    | .tryBlock => .seq (.seq (.map (hlist _) ?tryBlock) (hdefaulted _)) (hfinal _)
    | .catchClause => .seq (.seq (.map (yields_true _) ?_) (hchild _)) (hlist _)
    | .exprStmt => .map (hchild _) ?_
    | .returnStmt => .map (hoption _) ?_
    | .echo => .map (hlist _) ?_
    | .var => .map (yields_true _) ?_
    | .fetch => .seq (.map (hchild _) ?_) (yields_true _)
    | .assign => .seq (.map (hchild _) ?_) (hchild _)
    | .newObject => .seq (.map (yields_true _) ?_) (hdefaulted _)
    | .methodCall => .seq (.seq (.map (hchild _) ?_) (yields_true _)) (hdefaulted _)
    | .funcCall => .seq (.map (yields_true _) ?_) (hdefaulted _)
    | .closure => .seq (.seq (.map (hparams _) ?_) (hdefaulted _)) (hlist _)
    | .closureUse => .seq (.map (hchild _) ?_) (yields_true _)
    | .binary => .seq (.seq (.map (yields_true _) ?_) (hchild _)) (hchild _)
    | .negation => .map (hchild _) ?_
    | .array => .map (hlist _) ?_
    | .string => .map (yields_true _) ?_
    | .int => .map (yields_true _) ?_
    | .float => .map hfloat ?_
    | .bool => .map (yields_true _) ?_
    | .null => fun _ _ _ hx => Except.ok.inj hx ▸ ?_
  case tryBlock =>
    intro ss hss cs hcs final hfinal
    cases final <;>
    · simp only [Form.Sound, Form.children]
      grind [Form.segments, Segment.toList]
  all_goals
    simp only [forall_true_left, Form.Sound, Form.children]
    grind [Form.segments, Segment.toList, Param.segment]

end Members

theorem Node.finiteFloats_of_form {n : Node} (h : n.form.Sound FiniteFloats) : n.FiniteFloats := by
  intro p hp d hd
  rw [preorder_eq] at hp
  rcases List.mem_cons.mp hp with rfl | hp
  · exact h.2 d hd
  · obtain ⟨c, hc, hp⟩ := List.mem_flatMap.mp hp
    exact h.1 c hc p hp d hd

namespace Decoder

theorem sound_of_construct {child : Decoder Node} (h : child.Yields Node.FiniteFloats)
    {fields : List (String × Json)} (hfields : ∀ f ∈ fields, f.2.InRange) {form : Form Node}
    (hform : construct child fields = .ok form) : form.Sound Node.FiniteFloats := by
  obtain ⟨k, -, hform⟩ := bind_eq_ok_iff.mp hform
  exact (Members.yields_form h k).decode hfields hform

/-- The floats of a decoded tree are finite. -/
theorem yields_node (depth : Nat) : (node depth).Yields Node.FiniteFloats := by
  induction depth with
  | zero =>
    intro v n _ hn
    unfold node at hn
    split at hn <;> exact absurd hn (by simp)
  | succ depth ih =>
    intro v n hv hn
    cases hv with
    | object hfields =>
      obtain ⟨position, -, hn⟩ := bind_eq_ok_iff.mp hn
      obtain ⟨form, hform, hn⟩ := bind_eq_ok_iff.mp hn
      rw [← Except.ok.inj hn]
      exact Node.finiteFloats_of_form (sound_of_construct ih hfields hform)
    | _ => exact absurd hn (by simp [node])

end Decoder

/-! ## Texts -/

namespace Ahead

theorem subset_of_skipFrom {outline : Json.Outline} {ts rest : List Token}
    (h : Json.skipFrom outline ts = .ok rest) : rest ⊆ ts := by
  induction ts generalizing outline with
  | nil => cases h
  | cons t ts ih =>
    rw [Json.skipFrom] at h
    split at h
    · cases h
    · exact List.subset_cons_of_subset t (ih h)
    · exact Except.ok.inj h ▸ List.subset_cons_self t ts

/-- The scalars ahead are in range. -/
def inRange : Ahead where
  tokens _ ts := ∀ t ∈ ts, t.InRange
  value _ v := v.InRange
  tail h t ht := h t (List.mem_cons_of_mem _ ht)
  read h hread := by
    obtain ⟨hv, hrest⟩ :=
      Json.inRange_of_readFrom hread h fun _ hf => absurd hf List.not_mem_nil
    exact ⟨fun t ht => h t (hrest ht), hv⟩
  skip h hskip t ht := h t (subset_of_skipFrom hskip ht)

theorem tokens_inRange (text : String) : inRange.tokens 0 (Token.scan text.toList) :=
  fun _ => Token.inRange_of_mem_scan

end Ahead

/-- A tree that is read is one with finite floats, numbered from the first number on. -/
theorem Document.exists_of_readTree {next : Nat} {text : String} {read : Node × Nat}
    (h : readTree next text = .ok read) :
    ∃ n : Node, n.FiniteFloats ∧ read = Node.number next n := by
  obtain ⟨n, hrun, rfl⟩ := map_eq_ok_iff.mp h
  refine ⟨n, ?_, rfl⟩
  obtain ⟨fields, hfields, hform⟩ :=
    DocumentReader.of_run_root hrun (Ahead.tokens_inRange text)
  exact Node.finiteFloats_of_form
    (Decoder.sound_of_construct (Decoder.yields_node _) hfields hform)

end PhpRefactor
