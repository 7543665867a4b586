import PhpRefactor.Proofs.Document.Ahead
import PhpRefactor.Proofs.Document.Content
import PhpRefactor.Proofs.Document.Levels

/-!
# Documents that are JSON values

What a document says is its JSON value, if it has one (`Document.Says`): it is read as a tree when
its value means this tree (`Document.readTree_eq_ok_iff_of_read`).  A document need not be a JSON
value, though.  What the outermost position passes over may be nested too deep, hold a lone
surrogate or a number out of range; then the document says what is kept of it (`Document.content`).

The readers of documents and the reader of JSON values read the same text here
(`DocumentReader.Rereads`).  Where both have a result, the results differ in what is passed over.
-/

set_option autoImplicit false

namespace PhpRefactor

open Json (readFrom)

/-! ## Reading twice -/

theorem Json.flat_of_readFrom {limit : Nat} {ts rest : List Token} {v : Json}
    (hts : ∀ t ∈ ts, t.Flat) (h : readFrom limit .start ts = .ok (v, rest)) : ∀ t ∈ rest, t.Flat :=
  have hunder : Token.Under (Token.height 0 ts) 0 ts := ⟨hts, le_rfl⟩
  (Json.under_readFrom h trivial hunder).1.flat

/-- The tokens ahead are such as a text has. -/
def Ahead.flat : Ahead where
  tokens _ ts := ∀ t ∈ ts, t.Flat
  value _ _ := True
  tail h t ht := h t (List.mem_cons_of_mem _ ht)
  read h hread := ⟨Json.flat_of_readFrom h hread, trivial⟩
  skip {b ts _} h hskip :=
    have hunder : Token.Under (Token.height b ts) b ts := ⟨h, le_rfl⟩
    (Json.under_skip hskip hunder).flat

/-- Objects with the same keys whose values are related. -/
inductive Json.Alike (R : String → Json → Json → Prop) : Json → Json → Prop where
  | object {fields fields' : List (String × Json)}
      (h : List.Forall₂ (fun f f' => f.1 = f'.1 ∧ R f.1 f.2 f'.2) fields fields') :
      Alike R (.object fields) (.object fields')

namespace DocumentReader

variable {limit : Nat} {first : Bool} {ts rest : List Token} {v : Json}

/-- What `base` reads, the reader reads as something related to it, or not at all. -/
def Rereads (reader base : DocumentReader Json) (R : Json → Json → Prop) : Prop :=
  ∀ ts v rest, (∀ t ∈ ts, t.Flat) → base ts = .ok (v, rest) →
    ∀ w rest', reader ts = .ok (w, rest') ↔ R v w ∧ rest = rest'

theorem rereads_self (reader : DocumentReader Json) : reader.Rereads reader (· = ·) := by
  intro ts v rest _ hv w rest'
  rw [hv, Except.ok.injEq, Prod.mk.injEq]

theorem rereads_noArray (wanted : String) (base : DocumentReader Json) :
    (noArray wanted).Rereads base fun _ _ => False :=
  fun _ _ _ _ _ _ _ => ⟨nofun, fun h => h.1.elim⟩

/-- What is passed over counts as `null`. -/
theorem rereads_skipped (limit : Nat) :
    (do skipped; return .null : DocumentReader Json).Rereads (value limit)
      fun _ w => .null = w := by
  intro ts v rest _ hv w rest'
  have hskip : skipped ts = .ok ((), rest) := by
    rw [skipped, Json.skip_of_readFrom (value_eq_ok_iff.mp hv)]
  rw [bind_of_ok hskip]
  exact pure_eq_ok_iff

theorem Rereads.behindColon {reader base : DocumentReader Json} {R : Json → Json → Prop}
    (h : reader.Rereads base R) :
    (behindColon reader).Rereads (DocumentReader.behindColon base) R := by
  intro ts v rest hts hv
  obtain ⟨behind, rfl, hv⟩ := behindColon_eq_ok_iff.mp hv
  exact h behind v rest (fun t ht => hts t (List.mem_cons_of_mem _ ht)) hv

section

variable {item : String → DocumentReader Json} {R : String → Json → Json → Prop}

theorem rereads_membersWithin (h : ∀ key, (item key).Rereads (value limit) (R key)) {fuel : Nat}
    (hts : ∀ t ∈ ts, t.Flat) {before added : List (String × Json)}
    (hadded : membersWithin (keep fun _ => value limit) fuel first before ts =
      .ok (before ++ added, rest)) (before' fields' : List (String × Json)) (rest' : List Token) :
    membersWithin (keep item) fuel first before' ts = .ok (fields', rest') ↔
      (∃ added', List.Forall₂ (fun f f' => f.1 = f'.1 ∧ R f.1 f.2 f'.2) added added' ∧
        before' ++ added' = fields') ∧ rest = rest' := by
  induction fuel generalizing first before added before' ts with
  | zero => exact nomatch hadded
  | succ fuel ih =>
    obtain ⟨key, behind, hkey, hadded⟩ := bind_ok_iff.mp hadded
    obtain ⟨_, -, hbehind⟩ := @leads_anotherKey .flat 0 first ts key behind hts hkey
    rw [membersWithin, bind_of_ok hkey]
    cases key with
    | none =>
      obtain ⟨hnil, rfl⟩ := pure_eq_ok_iff.mp hadded
      obtain rfl : added = [] := List.append_right_eq_self.mp hnil.symm
      refine pure_eq_ok_iff.trans (and_congr_left fun _ => ?_)
      simp
    | some key =>
      obtain ⟨_, mid, hkeep, hothers⟩ := bind_ok_iff.mp hadded
      obtain ⟨v, hv, rfl⟩ := keep_eq_ok_iff.mp hkeep
      obtain ⟨others, hadded⟩ := exists_added hothers
      rw [List.append_assoc, List.append_cancel_left_eq] at hadded
      subst hadded
      rw [← List.append_assoc] at hothers
      have hmid : ∀ t ∈ mid, t.Flat := by
        obtain ⟨_, rfl, hvalue⟩ := behindColon_eq_ok_iff.mp hv
        exact Json.flat_of_readFrom (fun t ht => hbehind t (.tail _ ht)) (value_eq_ok_iff.mp hvalue)
      have hitem := (h key).behindColon behind v mid hbehind hv
      simp only [bind_ok_iff, keep_eq_ok_iff, hitem]
      constructor
      · rintro ⟨_, _, ⟨w, ⟨hw, rfl⟩, rfl⟩, hfields⟩
        obtain ⟨⟨others', halike, rfl⟩, rfl⟩ := (ih hmid hothers _).mp hfields
        exact ⟨⟨(key, w) :: others', .cons ⟨rfl, hw⟩ halike, by rw [List.append_assoc]; rfl⟩, rfl⟩
      · rintro ⟨⟨added', halike, rfl⟩, rfl⟩
        cases halike with
        | @cons _ f' _ others' hf' halike =>
          obtain ⟨key', w⟩ := f'
          obtain ⟨rfl, hw⟩ := hf'
          refine ⟨_, mid, ⟨w, ⟨hw, rfl⟩, rfl⟩, (ih hmid hothers _).mpr ⟨⟨others', halike, ?_⟩, rfl⟩⟩
          rw [List.append_assoc]
          rfl

/-- An object is reread when its members are. -/
theorem rereads_keepMembers (h : ∀ key, (item key).Rereads (value limit) (R key)) :
    (keepMembers item).Rereads (keepMembers fun _ => value limit) (Json.Alike R) := by
  intro ts v rest hts hv w rest'
  obtain ⟨fields, hfields, rfl⟩ := return_ok_iff.mp hv
  rw [keepMembers, return_ok_iff]
  have hadded : membersWithin (keep fun _ => value limit) (ts.length + 1) true [] ts =
      .ok ([] ++ fields, rest) := hfields
  have hmembers := rereads_membersWithin h hts hadded []
  constructor
  · rintro ⟨fields', hfields', rfl⟩
    obtain ⟨⟨_, halike, rfl⟩, rfl⟩ := (hmembers fields' rest').mp hfields'
    exact ⟨.object halike, rfl⟩
  · rintro ⟨⟨halike⟩, rfl⟩
    exact ⟨_, (hmembers _ rest).mpr ⟨⟨_, halike, rfl⟩, rfl⟩, rfl⟩

/-- A value that may be an array or an object is reread when either is. -/
theorem rereads_container {wanted : String} {array object : DocumentReader Json}
    {Ra : Json → Json → Prop}
    (harray : array.Rereads (do return .array (← items (value limit))) Ra)
    (hobject : object.Rereads (keepMembers fun _ => value limit) (Json.Alike R)) :
    (container wanted array object).Rereads (value (limit + 1)) fun v w =>
      ((∃ vs, .array vs = v) ∧ Ra v w) ∨ Json.Alike R v w := by
  intro ts v rest hts hv w rest'
  rw [container_eq_ok_iff]
  have hdeep : (∃ vs, .array vs = v) ∧ Ra v w ∨ Json.Alike R v w → v.depth ≠ 0 := by
    rintro (⟨⟨vs, rfl⟩, -⟩ | halike)
    · rw [Json.depth]
      omega
    · cases halike
      rw [Json.depth]
      omega
  cases ts with
  | nil => cases hv
  | cons t ts =>
    have hflat : ∀ t ∈ ts, t.Flat := fun t ht => hts t (.tail _ ht)
    cases t with
    | openArray =>
      have hv := value_array_eq_ok_iff.mp hv
      obtain ⟨vs, -, rfl⟩ := return_ok_iff.mp hv
      have hread := harray ts _ rest hflat hv w rest'
      have hnot : ¬Json.Alike R (.array vs) w := by rintro ⟨⟩
      simp [hread, hnot]
    | openObject =>
      have hv := value_object_eq_ok_iff.mp hv
      obtain ⟨fields, rfl⟩ := exists_of_keepMembers hv
      have hread := hobject ts _ rest hflat hv w rest'
      simp [hread]
    | scalar u =>
      obtain ⟨rfl, rfl⟩ := Prod.mk.inj (Except.ok.inj hv)
      exact iff_of_false (by simp) fun h => hdeep h.1 (hts _ (.head _) _ rfl)
    | string x =>
      obtain ⟨rfl, rfl⟩ := Prod.mk.inj (Except.ok.inj hv)
      exact iff_of_false (by simp) fun h => hdeep h.1 rfl
    | _ => cases hv

end

/-! ## What is passed over in the outermost position -/

/-- What is kept of a member of a position. -/
def KeptInPosition (key : String) : Json → Json → Prop :=
  if key ∈ Span.fields.map KnownField.key then (· = ·) else fun _ w => .null = w

/-- What is kept of a position. -/
def KeptOfPosition (v w : Json) : Prop :=
  (∃ vs, .array vs = v) ∧ v = w ∨ Json.Alike KeptInPosition v w

/-- What is kept of a member of a node. -/
def KeptInRoot (key : String) : Json → Json → Prop :=
  if key = "span" then KeptOfPosition else (· = ·)

theorem rereads_positionItem (key : String) :
    (positionItem key).Rereads (value (documentDepth - 2)) (KeptInPosition key) := by
  unfold positionItem KeptInPosition
  split
  · exact rereads_self _
  · exact rereads_skipped _

theorem rereads_rootItem (key : String) :
    (rootItem key).Rereads (value (documentDepth - 1)) (KeptInRoot key) := by
  unfold rootItem KeptInRoot
  split
  · exact rereads_container (rereads_self _) (rereads_keepMembers rereads_positionItem)
  · exact rereads_self _

/-- The content is read of a text that can be read as a whole. -/
theorem rereads_content : content.Rereads (value documentDepth) (Json.Alike KeptInRoot) := by
  have hcontent : content.Rereads (value documentDepth) _ :=
    rereads_container (rereads_noArray _ _) (rereads_keepMembers rereads_rootItem)
  simpa only [and_false, false_or] using hcontent

end DocumentReader

/-! ## Alike objects mean the same -/

open Json (Alike)

section

variable {R : String → Json → Json → Prop} {fields : List (String × Json)} {w : Json}

theorem Members.values_alike {fields' : List (String × Json)}
    (h : List.Forall₂ (fun f f' => f.1 = f'.1 ∧ R f.1 f.2 f'.2) fields fields') (key : String) :
    List.Forall₂ (R key) (values key fields) (values key fields') := by
  induction h with
  | nil => exact .nil
  | @cons f f' _ _ hf _ ih =>
    obtain ⟨k, v⟩ := f
    obtain ⟨k', v'⟩ := f'
    obtain ⟨rfl, hv⟩ := hf
    rw [values_cons, values_cons]
    by_cases hk : k = key
    · subst hk
      rw [if_pos rfl, if_pos rfl]
      exact .cons hv ih
    · rw [if_neg hk, if_neg hk]
      exact ih

theorem Json.Alike.flip {v : Json} (h : Alike R v w) : Alike (fun key v w => R key w v) w v := by
  obtain ⟨h⟩ := h
  refine .object (h.flip.imp ?_)
  rintro ⟨k, v⟩ ⟨k', v'⟩ ⟨rfl, hv⟩
  exact ⟨rfl, hv⟩

theorem Json.exists_alike (h : ∀ f ∈ fields, ∃ w, R f.1 f.2 w) :
    ∃ w, Alike R (.object fields) w := by
  induction fields with
  | nil => exact ⟨_, .object .nil⟩
  | cons f fields ih =>
    obtain ⟨hf, hfields⟩ := List.forall_mem_cons.mp h
    obtain ⟨w, hw⟩ := hf
    obtain ⟨_, ⟨halike⟩⟩ := ih hfields
    exact ⟨_, .object (.cons (b := (f.1, w)) ⟨rfl, hw⟩ halike)⟩

/-- Alike objects mean the same if the values of their fields do. -/
theorem Role.Means.alike {role : Role} {known : List KnownField} {x : role.Value}
    (hx : role.Means (.object fields) x) (hknown : role.Knows fields known)
    (halike : Alike R (.object fields) w)
    (h : ∀ f ∈ known, ∀ v v', R f.key v v' → ∀ y, f.role.Means v y → f.role.Means v' y) :
    role.Means w x := by
  cases halike with
  | @object _ fields' halike =>
    refine means_of_found hknown (fun f hf y hy => ?_) hx
    have hvalues := Members.values_alike halike f.key
    obtain ⟨hnil, habsent⟩ | ⟨v, hv, hy⟩ := hy
    · rw [hnil, List.forall₂_nil_left_iff] at hvalues
      exact .inl ⟨hvalues, habsent⟩
    · rw [hv, List.forall₂_cons_left_iff] at hvalues
      obtain ⟨v', _, hvv', hnil, hv'⟩ := hvalues
      rw [List.forall₂_nil_left_iff] at hnil
      subst hnil
      exact .inr ⟨v', hv', h f hf v v' hvv' y hy⟩

end

namespace DocumentReader

theorem KeptOfPosition.means_iff {v w : Json} (h : KeptOfPosition v w) (s : Span) :
    Role.span.Means v s ↔ Role.span.Means w s := by
  obtain ⟨-, rfl⟩ | halike := h
  · rfl
  · have hsame : ∀ f ∈ Span.fields, ∀ v v', KeptInPosition f.key v v' → v = v' := by
      intro f hf v v' hv
      rwa [KeptInPosition, if_pos (List.mem_map_of_mem hf)] at hv
    have hflip := halike.flip
    obtain ⟨-⟩ := id halike
    constructor
    · intro hs
      refine hs.alike (.span _) halike fun f hf v v' hv y hy => ?_
      exact hsame f hf v v' hv ▸ hy
    · intro hs
      refine hs.alike (.span _) hflip fun f hf v v' hv y hy => ?_
      exact hsame f hf v' v hv ▸ hy

theorem KeptInRoot.means_iff {fields : List (String × Json)} {known : List KnownField}
    (hknown : Role.node.Knows fields known) {f : KnownField} (hf : f ∈ known) {v w : Json}
    (h : KeptInRoot f.key v w) (x : f.role.Value) : f.role.Means v x ↔ f.role.Means w x := by
  cases hknown with
  | @node _ _ k _ _ =>
    rcases List.mem_cons.mp hf with rfl | hf
    · exact KeptOfPosition.means_iff h x
    · have hkey : f.key ≠ "span" := by
        rcases List.mem_cons.mp hf with rfl | hf
        · decide
        · exact k.span_notMem_fields f hf
      rw [KeptInRoot, if_neg hkey] at h
      rw [h]

/-- What counts of a node means the same as the node. -/
theorem means_iff_of_alike {v w : Json} (h : Alike KeptInRoot v w) (n : Node) :
    Role.node.Means v n ↔ Role.node.Means w n := by
  have hflip := h.flip
  obtain ⟨-⟩ := id h
  constructor
  · intro hn
    obtain ⟨known, hknown⟩ := Role.exists_knows_node hn
    exact hn.alike hknown h fun f hf v v' hv y => (KeptInRoot.means_iff hknown hf hv y).mp
  · intro hn
    obtain ⟨known, hknown⟩ := Role.exists_knows_node hn
    exact hn.alike hknown hflip fun f hf v v' hv y => (KeptInRoot.means_iff hknown hf hv y).mpr

/-- Of a node that means something, something is kept. -/
theorem exists_alike_of_means {v : Json} {n : Node} (h : Role.node.Means v n) :
    ∃ w, Alike KeptInRoot v w := by
  obtain ⟨d, hn⟩ := h
  obtain ⟨fields, below, rfl, rfl⟩ := Decoder.exists_of_node hn
  obtain ⟨hposition, -, -⟩ := Decoder.node_eq_ok_iff.mp hn
  refine Json.exists_alike fun f hf => ?_
  by_cases hkey : f.1 = "span"
  · obtain ⟨key, v⟩ := f
    obtain rfl : key = "span" := hkey
    have hspan : ∃ s, Decoder.span v = .ok s := by
      rw [Members.defaulted, Members.find_member_eq_ok_iff] at hposition
      have hv := Members.mem_values_iff.mpr hf
      obtain ⟨hnil, -⟩ | ⟨u, hu, hposition⟩ := hposition
      · exact absurd (hnil ▸ hv) List.not_mem_nil
      · rw [hu, List.mem_singleton] at hv
        exact ⟨_, hv ▸ hposition⟩
    rw [KeptInRoot, if_pos rfl]
    obtain ⟨s, hs⟩ := hspan
    cases v with
    | array vs => exact ⟨_, .inl ⟨⟨vs, rfl⟩, rfl⟩⟩
    | object members =>
      have hmembers : ∀ g ∈ members, ∃ w, KeptInPosition g.1 g.2 w := by
        intro g _
        unfold KeptInPosition
        split
        · exact ⟨_, rfl⟩
        · exact ⟨_, rfl⟩
      obtain ⟨w, hw⟩ := Json.exists_alike hmembers
      exact ⟨w, .inr hw⟩
    | _ => cases hs
  · rw [KeptInRoot, if_neg hkey]
    exact ⟨_, rfl⟩

end DocumentReader

namespace Document

open DocumentReader (KeptInRoot)

theorem content_eq_ok_iff_of_read {text : String} {v w : Json}
    (h : Json.read documentDepth text = .ok v) : content text = .ok w ↔ Alike KeptInRoot v w := by
  have hvalue : DocumentReader.value documentDepth (Token.scan text.toList) = .ok (v, []) := by
    rw [DocumentReader.value_eq_ok_iff]
    unfold Json.read at h
    split at h
    · cases h
    · rename_i u hread
      rw [hread, Except.ok.inj h]
    · cases h
  rw [content, DocumentReader.run_eq_ok_iff,
    DocumentReader.rereads_content _ v [] (fun _ => Token.flat_of_mem_scan) hvalue]
  exact and_iff_left rfl

/-- A text that can be read as a whole is read as a tree when its value means that tree. -/
theorem readTree_eq_ok_iff_of_read {next : Nat} {text : String} {v : Json} {read : Node × Nat}
    (h : Json.read documentDepth text = .ok v) :
    readTree next text = .ok read ↔ ∃ n, Role.node.Means v n ∧ n.number next = read := by
  rw [readTree_eq_ok_iff]
  simp only [content_eq_ok_iff_of_read h]
  constructor
  · rintro ⟨w, n, halike, hn, hread⟩
    exact ⟨n, (DocumentReader.means_iff_of_alike halike n).mpr hn, hread⟩
  · rintro ⟨n, hn, hread⟩
    obtain ⟨w, halike⟩ := DocumentReader.exists_alike_of_means hn
    exact ⟨w, n, halike, (DocumentReader.means_iff_of_alike halike n).mp hn, hread⟩

/-- The text is a JSON text of this value; or the value is what is kept of the text, which may then
hold anything where it is passed over. -/
def Says (text : String) (v : Json) : Prop :=
  Json.read documentDepth text = .ok v ∨ content text = .ok v

theorem Says.readTree_eq_ok_iff {next : Nat} {text : String} {v : Json} {read : Node × Nat}
    (h : Says text v) :
    readTree next text = .ok read ↔ ∃ n, Role.node.Means v n ∧ n.number next = read := by
  obtain hread | hcontent := h
  · exact readTree_eq_ok_iff_of_read hread
  · rw [Document.readTree_eq_ok_iff, hcontent]
    simp

end Document

end PhpRefactor
