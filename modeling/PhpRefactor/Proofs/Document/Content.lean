import PhpRefactor.Proofs.Document.Tally

/-!
# The content of a document

The outermost node of a document is read token by token, so that what is wrong is found where it
stands.  Where nothing is wrong the same tree comes out if the document is read as a JSON value and
the value is decoded then (`Document.readTree_eq_ok_iff`).

The content is the JSON value of the text but for one thing: what the outermost position holds under
keys that it does not know is passed over, however deep it is nested and whatever its strings and
numbers are, and counts as `null`.
-/

set_option autoImplicit false

namespace PhpRefactor

namespace DocumentReader

/-- A member of the outermost position. -/
def positionItem (key : String) : DocumentReader Json := do
  if key ∈ Span.fields.map KnownField.key then value (documentDepth - 2)
  else
    skipped
    return .null

/-- The outermost position. -/
def positionContent : DocumentReader Json :=
  container "struct Span" (do return .array (← items (value (documentDepth - 2))))
    (keepMembers positionItem)

/-- A member of the outermost node. -/
def rootItem (key : String) : DocumentReader Json :=
  if key = "span" then positionContent else value (documentDepth - 1)

/-- The outermost node. -/
def content : DocumentReader Json :=
  container "struct Node" (noArray "struct Node") (keepMembers rootItem)

/-! ## Positions that are arrays -/

theorem spanItem_eq_ok_iff (limit : Nat) {place : Nat} {n : UInt32} {ts rest : List Token} :
    spanItem place ts = .ok (n, rest) ↔
      ∃ behind v, anotherItem (place == 0) ts = .ok (true, behind) ∧
        value limit behind = .ok (v, rest) ∧ Decoder.uint32 v = .ok n := by
  rw [spanItem, bind_ok_iff]
  constructor
  · rintro ⟨more, behind, hmore, hn⟩
    cases more with
    | false => exact nomatch hn
    | true =>
      obtain ⟨v, hv, hn⟩ := (number_decodes limit _ _ _).mp hn
      exact ⟨behind, v, hmore, hv, hn⟩
  · rintro ⟨behind, v, hmore, hv, hn⟩
    exact ⟨true, behind, hmore, (number_decodes limit _ _ _).mpr ⟨v, hv, hn⟩⟩

theorem anotherItem_eq_end_iff (first : Bool) {ts rest : List Token} :
    anotherItem first ts = .ok (false, rest) ↔ ts = .closeArray :: rest := by
  constructor
  · intro h
    unfold anotherItem at h
    split at h
    · exact nomatch h
    · rw [(Prod.mk.inj (Except.ok.inj h)).2]
    · split at h <;> exact nomatch h
  · rintro rfl
    rfl

theorem arrayEnd_eq_ok_iff {ts rest : List Token} :
    arrayEnd ts = .ok ((), rest) ↔ ts = .closeArray :: rest := by
  constructor
  · intro h
    unfold arrayEnd at h
    split at h
    case h_2 => rw [(Prod.mk.inj (Except.ok.inj h)).2]
    all_goals exact nomatch h
  · rintro rfl
    rfl

end DocumentReader

theorem Decoder.span_array_eq_ok_iff {vs : List Json} {s : Span} :
    span (.array vs) = .ok s ↔
      ∃ a b c, vs = [a, b, c] ∧ uint32 a = .ok s.start ∧ uint32 b = .ok s.stop ∧
        uint32 c = .ok s.line := by
  constructor
  · intro h
    unfold span at h
    split at h
    · rename_i heq
      exact nomatch heq
    · rename_i a b c heq
      obtain ⟨start, hstart, h⟩ := bind_eq_ok_iff.mp h
      obtain ⟨stop, hstop, h⟩ := bind_eq_ok_iff.mp h
      obtain ⟨line, hline, h⟩ := bind_eq_ok_iff.mp h
      obtain rfl := Except.ok.inj h
      exact ⟨a, b, c, Json.array.inj heq, hstart, hstop, hline⟩
    · obtain ⟨_, _, h⟩ := bind_eq_ok_iff.mp h
      split at h <;> exact nomatch h
    · exact nomatch h
  · rintro ⟨a, b, c, rfl, hstart, hstop, hline⟩
    rw [span, hstart, hstop, hline]
    rfl

namespace DocumentReader

theorem array_eq_ok_iff {limit : Nat} {ts rest : List Token} {v : Json} :
    (do return .array (← items (value limit)) : DocumentReader Json) ts = .ok (v, rest) ↔
      ∃ vs, Items (value limit) true ts vs rest ∧ .array vs = v := by
  rw [return_ok_iff]
  simp only [items_eq_ok_iff length_of_value]

theorem spanItems_decodes (limit : Nat) :
    (do
      let span : Span := ⟨← spanItem 0, ← spanItem 1, ← spanItem 2⟩
      arrayEnd
      return span : DocumentReader Span).Decodes
        (do return .array (← items (value limit))) fun v s => Decoder.span v = .ok s := by
  intro ts s rest
  constructor
  · intro hs
    obtain ⟨a, _, ha, hs⟩ := bind_ok_iff.mp hs
    obtain ⟨b, _, hb, hs⟩ := bind_ok_iff.mp hs
    obtain ⟨c, _, hc, hs⟩ := bind_ok_iff.mp hs
    obtain ⟨_, _, hend, hs⟩ := bind_ok_iff.mp hs
    obtain ⟨rfl, rfl⟩ := pure_eq_ok_iff.mp hs
    obtain ⟨_, v, hmorea, hv, ha⟩ := (spanItem_eq_ok_iff limit).mp ha
    obtain ⟨_, w, hmoreb, hw, hb⟩ := (spanItem_eq_ok_iff limit).mp hb
    obtain ⟨_, u, hmorec, hu, hc⟩ := (spanItem_eq_ok_iff limit).mp hc
    have hnil := (anotherItem_eq_end_iff false).mpr (arrayEnd_eq_ok_iff.mp hend)
    have hitems := Items.cons hmorea hv (.cons hmoreb hw (.cons hmorec hu (.nil hnil)))
    exact ⟨.array [v, w, u], array_eq_ok_iff.mpr ⟨_, hitems, rfl⟩,
      Decoder.span_array_eq_ok_iff.mpr ⟨v, w, u, rfl, ha, hb, hc⟩⟩
  · rintro ⟨v, hv, hs⟩
    obtain ⟨vs, hitems, rfl⟩ := array_eq_ok_iff.mp hv
    obtain ⟨v, w, u, rfl, ha, hb, hc⟩ := Decoder.span_array_eq_ok_iff.mp hs
    cases hitems with
    | cons hmorea hv hitems =>
      cases hitems with
      | cons hmoreb hw hitems =>
        cases hitems with
        | cons hmorec hu hitems =>
          cases hitems with
          | nil hend =>
            refine bind_ok_iff.mpr ⟨_, _, (spanItem_eq_ok_iff limit).mpr ⟨_, _, hmorea, hv, ha⟩, ?_⟩
            refine bind_ok_iff.mpr ⟨_, _, (spanItem_eq_ok_iff limit).mpr ⟨_, _, hmoreb, hw, hb⟩, ?_⟩
            refine bind_ok_iff.mpr ⟨_, _, (spanItem_eq_ok_iff limit).mpr ⟨_, _, hmorec, hu, hc⟩, ?_⟩
            exact bind_ok_iff.mpr ⟨(), rest,
              arrayEnd_eq_ok_iff.mpr ((anotherItem_eq_end_iff false).mp hend), rfl⟩

end DocumentReader

/-! ## Positions that are objects -/

namespace DocumentReader

open Members (Known)

theorem positionItem_of_mem {key : String} (h : key ∈ Span.fields.map KnownField.key) :
    positionItem key = value (documentDepth - 2) := by
  rw [positionItem, if_pos h]

/-- A number of the position is read; what is known of the two others stays as it is. -/
theorem once_number_eq_ok_iff {key key₁ key₂ : String} {fields : List (String × Json)}
    {o o₁ o₂ : Option UInt32} (h₁ : key ≠ key₁) (h₂ : key ≠ key₂)
    (ho : Known key Decoder.uint32 fields o) (ho₁ : Known key₁ Decoder.uint32 fields o₁)
    (ho₂ : Known key₂ Decoder.uint32 fields o₂) (o' o₁' o₂' : Option UInt32)
    (ts rest : List Token) :
    (once key o (scalar Decoder.uint32) ts = .ok (o', rest) ∧ o₁ = o₁' ∧ o₂ = o₂') ↔
      ∃ v, behindColon (value (documentDepth - 2)) ts = .ok (v, rest) ∧
        Known key Decoder.uint32 (fields ++ [(key, v)]) o' ∧
        Known key₁ Decoder.uint32 (fields ++ [(key, v)]) o₁' ∧
        Known key₂ Decoder.uint32 (fields ++ [(key, v)]) o₂' := by
  have hiff : ∀ {k : String} {p p' : Option UInt32}, Known k Decoder.uint32 fields p →
      (Known k Decoder.uint32 fields p' ↔ p = p') :=
    fun hp => ⟨hp.unique, fun h => h ▸ hp⟩
  simp only [once_eq_ok_iff_known (number_decodes (documentDepth - 2)) ho,
    Members.known_other h₁, Members.known_other h₂, hiff ho₁, hiff ho₂]
  grind

/-- What is known of a position. -/
def SpanParts.Tally (fields : List (String × Json)) (parts : SpanParts) : Prop :=
  Known "start" Decoder.uint32 fields parts.start ∧ Known "end" Decoder.uint32 fields parts.stop ∧
    Known "line" Decoder.uint32 fields parts.line

theorem SpanParts.Tally.unique {fields : List (String × Json)} {s t : SpanParts}
    (hs : s.Tally fields) (ht : t.Tally fields) : s = t := by
  obtain ⟨hstart, hstop, hline⟩ := hs
  obtain ⟨hstart', hstop', hline'⟩ := ht
  exact congr (congr (congrArg SpanParts.mk (hstart.unique hstart')) (hstop.unique hstop'))
    (hline.unique hline')

/-- A value that nobody asks for. -/
theorem skipped_eq_ok_iff {parts parts' : SpanParts} {fields : List (String × Json)} {key : String}
    (hkey : key ∉ Span.fields.map KnownField.key) (hparts : parts.Tally fields)
    {ts rest : List Token} :
    (do behindColon skipped; return parts : DocumentReader SpanParts) ts = .ok (parts', rest) ↔
      ∃ v, behindColon (positionItem key) ts = .ok (v, rest) ∧
        parts'.Tally (fields ++ [(key, v)]) := by
  have hother : ∀ v, parts'.Tally (fields ++ [(key, v)]) ↔ parts = parts' := by
    intro v
    simp only [Span.fields, KnownField.required, List.map_cons, List.map_nil, List.mem_cons,
      List.not_mem_nil, or_false, not_or] at hkey
    unfold SpanParts.Tally
    rw [Members.known_other hkey.1, Members.known_other hkey.2.1, Members.known_other hkey.2.2]
    exact ⟨fun h => hparts.unique h, fun h => h ▸ hparts⟩
  have hitem : ∀ v, behindColon (positionItem key) ts = .ok (v, rest) ↔
      behindColon skipped ts = .ok ((), rest) ∧ .null = v := by
    intro v
    rw [positionItem, if_neg hkey]
    have hnull : ∀ behind, (do skipped; return .null : DocumentReader Json) behind = .ok (v, rest) ↔
        skipped behind = .ok ((), rest) ∧ .null = v :=
      fun behind => (return_ok_iff (f := fun _ => Json.null)).trans
        ⟨fun ⟨_, h⟩ => h, fun h => ⟨(), h⟩⟩
    simp only [behindColon_eq_ok_iff, hnull]
    grind
  simp only [hother, hitem, return_ok_iff]
  grind

theorem tallies_spanMember : Tallies spanMember positionItem fun fields s => s.Tally fields where
  unique := SpanParts.Tally.unique
  before := by
    rintro fields added t ⟨hstart, hstop, hline⟩
    obtain ⟨start, hstart⟩ := hstart.before
    obtain ⟨stop, hstop⟩ := hstop.before
    obtain ⟨line, hline⟩ := hline.before
    exact ⟨⟨start, stop, line⟩, hstart, hstop, hline⟩
  step := by
    rintro fields ⟨start, stop, line⟩ hparts key ts ⟨start', stop', line'⟩ rest
    obtain ⟨hstart, hstop, hline⟩ := id hparts
    unfold spanMember
    split
    · have h := once_number_eq_ok_iff (by decide) (by decide) hstart hstop hline
        start' stop' line' ts rest
      rw [return_ok_iff, positionItem_of_mem (by decide)]
      simp only [SpanParts.mk.injEq, SpanParts.Tally]
      grind
    · have h := once_number_eq_ok_iff (by decide) (by decide) hstop hstart hline
        stop' start' line' ts rest
      rw [return_ok_iff, positionItem_of_mem (by decide)]
      simp only [SpanParts.mk.injEq, SpanParts.Tally]
      grind
    · have h := once_number_eq_ok_iff (by decide) (by decide) hline hstart hstop
        line' start' stop' ts rest
      rw [return_ok_iff, positionItem_of_mem (by decide)]
      simp only [SpanParts.mk.injEq, SpanParts.Tally]
      grind
    · refine skipped_eq_ok_iff ?_ hparts
      simp only [Span.fields, KnownField.required, List.map_cons, List.map_nil, List.mem_cons,
        List.not_mem_nil, or_false, not_or]
      exact ⟨‹_›, ‹_›, ‹_›⟩

end DocumentReader

theorem Decoder.span_object_eq_ok_iff {fields : List (String × Json)} {s : Span} :
    span (.object fields) = .ok s ↔
      DocumentReader.SpanParts.Tally fields ⟨some s.start, some s.stop, some s.line⟩ := by
  change Members.decode _ fields = .ok s ↔ _
  unfold DocumentReader.SpanParts.Tally
  rw [Members.decode, mapError_eq_ok_iff]
  simp only [Members.find_seq_eq_ok, Members.find_map, map_eq_ok_iff,
    Members.find_required_eq_ok_iff]
  constructor
  · rintro ⟨_, line, ⟨_, stop, ⟨start, hstart, rfl⟩, hstop, rfl⟩, hline, rfl⟩
    exact ⟨hstart, hstop, hline⟩
  · rintro ⟨hstart, hstop, hline⟩
    exact ⟨_, s.line, ⟨_, s.stop, ⟨s.start, hstart, rfl⟩, hstop, rfl⟩, hline, rfl⟩

namespace DocumentReader

open Members (Known)

theorem span_decodes : span.Decodes positionContent fun v s => Decoder.span v = .ok s := by
  refine .container (spanItems_decodes _) fun ts s rest => ?_
  have hmembers : ∀ parts behind, members spanMember ⟨none, none, none⟩ ts = .ok (parts, behind) ↔
      ∃ fields, keepMembers positionItem ts = .ok (.object fields, behind) ∧ parts.Tally fields :=
    fun parts behind => tallies_spanMember.members
      ⟨Members.known_nil _ _, Members.known_nil _ _, Members.known_nil _ _⟩
  simp only [bind_ok_iff, hmembers, given_eq_ok_iff, pure_eq_ok_iff]
  constructor
  · rintro ⟨⟨_, _, _⟩, _, ⟨fields, hfields, hparts⟩, start, _, ⟨rfl, rfl⟩, stop, _, ⟨rfl, rfl⟩,
      line, _, ⟨rfl, rfl⟩, rfl, rfl⟩
    exact ⟨.object fields, hfields, Decoder.span_object_eq_ok_iff.mpr hparts⟩
  · rintro ⟨v, hv, hs⟩
    obtain ⟨fields, rfl⟩ := exists_of_keepMembers hv
    exact ⟨_, rest, ⟨fields, hv, Decoder.span_object_eq_ok_iff.mp hs⟩, s.start, rest, ⟨rfl, rfl⟩,
      s.stop, rest, ⟨rfl, rfl⟩, s.line, rest, ⟨rfl, rfl⟩, rfl, rfl⟩

/-! ## The outermost node -/

/-- What is known of the outermost node. -/
def RootParts.Tally (fields : List (String × Json)) (parts : RootParts) : Prop :=
  Known "span" Decoder.span fields parts.position ∧
    parts.fields.reverse = fields.filter fun f => f.1 ≠ "span"

theorem tallies_rootMember : Tallies rootMember rootItem fun fields s => s.Tally fields where
  unique := by
    rintro fields ⟨position, before⟩ ⟨position', before'⟩ ⟨hposition, hbefore⟩
      ⟨hposition', hbefore'⟩
    obtain rfl : position = position' := hposition.unique hposition'
    obtain rfl : before = before' := List.reverse_inj.mp (hbefore.trans hbefore'.symm)
    rfl
  before := by
    rintro fields added t ⟨hposition, -⟩
    obtain ⟨position, hposition⟩ := hposition.before
    exact ⟨⟨position, (fields.filter fun f => f.1 ≠ "span").reverse⟩, hposition,
      List.reverse_reverse _⟩
  step := by
    rintro fields ⟨position, before⟩ ⟨hposition, hbefore⟩ key ts ⟨position', before'⟩ rest
    dsimp only at hposition hbefore
    unfold rootMember rootItem RootParts.Tally
    by_cases hkey : key = "span"
    · subst hkey
      have hfields : ∀ v, before'.reverse =
          (fields ++ [("span", v)]).filter (fun f => f.1 ≠ "span") ↔ before = before' := by
        intro v
        rw [List.filter_append, ← hbefore]
        simp [eq_comm]
      simp only [if_true, return_ok_iff, once_eq_ok_iff_known span_decodes hposition, hfields,
        RootParts.mk.injEq]
      grind
    · have hfields : ∀ v, before'.reverse = (fields ++ [(key, v)]).filter (fun f => f.1 ≠ "span") ↔
          (key, v) :: before = before' := by
        intro v
        rw [List.filter_append, ← hbefore, List.filter_singleton, decide_eq_true hkey, cond_true,
          ← List.reverse_cons, List.reverse_inj, eq_comm]
      have hknown : ∀ v, Known "span" Decoder.span (fields ++ [(key, v)]) position' ↔
          position = position' := by
        intro v
        rw [Members.known_other hkey]
        exact ⟨hposition.unique, fun h => h ▸ hposition⟩
      simp only [hkey, if_false, return_ok_iff, hfields, hknown, RootParts.mk.injEq]

end DocumentReader

/-- The construct of a node does not depend on its position. -/
theorem Decoder.construct_filter {child : Decoder Node} {fields : List (String × Json)}
    {form : Form Node} :
    construct child (fields.filter fun f => f.1 ≠ "span") = .ok form ↔
      construct child fields = .ok form := by
  have hvalues : ∀ key, key ≠ "span" →
      Members.values key (fields.filter fun f => f.1 ≠ "span") = Members.values key fields := by
    intro key hkey
    rw [Members.values, List.filterMap_filter]
    refine List.filterMap_congr fun f _ => ?_
    by_cases hspan : f.1 = "span"
    · simp [hspan, hkey.symm]
    · simp [hspan]
  have hcarries : ∀ k : Kind, ∀ f ∈ KnownField.required "kind" .kind :: k.fields,
      f.key ≠ "span" := fun k =>
    List.forall_mem_cons.mpr ⟨by decide, k.span_notMem_fields⟩
  constructor
  · refine construct_carries fun k _ f hf => Members.member_carries_of_values ?_
    exact hvalues f.key (hcarries k f hf)
  · refine construct_carries fun k _ f hf => Members.member_carries_of_values ?_
    exact (hvalues f.key (hcarries k f hf)).symm

/-- A node whose position is read apart from its construct. -/
theorem Role.means_node_iff {fields : List (String × Json)} {n : Node} :
    node.Means (.object fields) n ↔
      ∃ parts : DocumentReader.RootParts, parts.Tally fields ∧
        Decoder.construct (Decoder.node (Json.depthFields parts.fields.reverse))
          parts.fields.reverse = .ok n.form ∧
        ⟨0, parts.position.getD .none, n.form⟩ = n := by
  constructor
  · rintro ⟨d, hn⟩
    obtain ⟨_, below, heq, rfl⟩ := Decoder.exists_of_node hn
    obtain ⟨hposition, hform, hid⟩ := Decoder.node_eq_ok_iff.mp hn
    obtain ⟨position, hknown, hposition⟩ := Members.find_defaulted_eq_ok_iff.mp hposition
    refine ⟨⟨position, (fields.filter fun f => f.1 ≠ "span").reverse⟩,
      ⟨hknown, List.reverse_reverse _⟩, ?_, ?_⟩
    · rw [List.reverse_reverse]
      refine Decoder.construct_carries (fun k _ f _ => KnownField.carries_of_covers ?_)
        (Decoder.construct_filter.mpr hform)
      exact Decoder.covers_node below _
    · obtain ⟨id, span, form⟩ := n
      rw [hposition, ← hid]
  · rintro ⟨⟨position, before⟩, ⟨hknown, hbefore⟩, hform, hn⟩
    dsimp only at hknown hbefore hform hn
    rw [hbefore] at hform
    refine ⟨_ + 1, Decoder.node_eq_ok_iff.mpr ⟨?_, Decoder.construct_filter.mp hform, ?_⟩⟩
    · rw [← hn]
      exact Members.find_defaulted_eq_ok_iff.mpr ⟨position, hknown, rfl⟩
    · rw [← hn]

namespace DocumentReader

/-- The outermost node is read as the decoder reads its content. -/
theorem root_decodes : root.Decodes content Role.node.Means := by
  refine .container (fun ts n rest => ⟨nofun, fun ⟨_, hv, _⟩ => nomatch hv⟩) fun ts n rest => ?_
  have hmembers : ∀ parts behind, members rootMember ⟨none, []⟩ ts = .ok (parts, behind) ↔
      ∃ fields, keepMembers rootItem ts = .ok (.object fields, behind) ∧ parts.Tally fields :=
    fun parts behind => tallies_rootMember.members ⟨Members.known_nil _ _, rfl⟩
  simp only [bind_ok_iff, hmembers, accept_eq_ok_iff, pure_eq_ok_iff]
  constructor
  · rintro ⟨parts, _, ⟨fields, hfields, hparts⟩, form, _, ⟨hform, rfl⟩, rfl, rfl⟩
    exact ⟨.object fields, hfields, Role.means_node_iff.mpr ⟨parts, hparts, hform, rfl⟩⟩
  · rintro ⟨v, hv, hn⟩
    obtain ⟨fields, rfl⟩ := exists_of_keepMembers hv
    obtain ⟨parts, hparts, hform, hn⟩ := Role.means_node_iff.mp hn
    exact ⟨parts, rest, ⟨fields, hv, hparts⟩, n.form, rest, ⟨hform, rfl⟩, hn, rfl⟩

theorem run_eq_ok_iff {α : Type} {reader : DocumentReader α} {text : String} {x : α} :
    reader.run text = .ok x ↔ reader (Token.scan text.toList) = .ok (x, []) := by
  rw [run]
  split <;> simp_all

end DocumentReader

namespace Document

/-- The JSON value that a document is, as far as it is looked at. -/
def content (text : String) : Except DocumentError Json := DocumentReader.content.run text

/-- A text is read as a tree when its content means that tree. -/
theorem readTree_eq_ok_iff {next : Nat} {text : String} {read : Node × Nat} :
    readTree next text = .ok read ↔
      ∃ v n, content text = .ok v ∧ Role.node.Means v n ∧ n.number next = read := by
  rw [readTree, map_eq_ok_iff]
  simp only [content, DocumentReader.run_eq_ok_iff, DocumentReader.root_decodes _ _ _]
  grind

end Document

end PhpRefactor