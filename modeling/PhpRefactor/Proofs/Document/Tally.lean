import PhpRefactor.Proofs.Document.Decodes
import PhpRefactor.Proofs.Document.Fields

/-!
# The members of an object, one after another

A reader of members takes each one into account when it comes.  What it knows then (`Tallies`) is
determined by the members that have come, so it might as well keep them all
(`DocumentReader.keepMembers`) and look at them in the end (`Tallies.members`).
-/

set_option autoImplicit false

namespace PhpRefactor

namespace Members

variable {α : Type} {key : String} {item : Decoder α} {fields added : List (String × Json)}
  {o o' : Option α}

theorem values_append (key : String) (fields added : List (String × Json)) :
    values key (fields ++ added) = values key fields ++ values key added :=
  List.filterMap_append

/-- What is known of a field when these members were read: nothing before it is given, and what its
value means then. -/
def Known (key : String) (item : Decoder α) (fields : List (String × Json)) (o : Option α) : Prop :=
  (values key fields = [] ∧ none = o) ∨
    ∃ v x, values key fields = [v] ∧ item v = .ok x ∧ some x = o

theorem known_nil (key : String) (item : Decoder α) : Known key item [] none := .inl ⟨rfl, rfl⟩

theorem Known.unique (h : Known key item fields o) (h' : Known key item fields o') : o = o' := by
  unfold Known at h h'
  grind

theorem Known.before (h : Known key item (fields ++ added) o) :
    ∃ o', Known key item fields o' := by
  unfold Known at *
  rw [values_append] at h
  obtain ⟨hnil, -⟩ | ⟨v, x, hv, hx, -⟩ := h
  · exact ⟨none, .inl ⟨(List.append_eq_nil_iff.mp hnil).1, rfl⟩⟩
  · obtain ⟨hnil, -⟩ | ⟨hv, -⟩ := List.append_eq_singleton_iff.mp hv
    · exact ⟨none, .inl ⟨hnil, rfl⟩⟩
    · exact ⟨some x, .inr ⟨v, x, hv, hx, rfl⟩⟩

theorem known_other {k : String} {v : Json} (hkey : k ≠ key) :
    Known key item (fields ++ [(k, v)]) o ↔ Known key item fields o := by
  unfold Known
  rw [values_append, values_cons, if_neg hkey, values_nil, List.append_nil]

/-- A field must not be given again. -/
theorem Known.again {v : Json} (h : Known key item fields o) :
    Known key item (fields ++ [(key, v)]) o' ↔ o = none ∧ ∃ x, item v = .ok x ∧ some x = o' := by
  unfold Known at *
  rw [values_append, values_cons, if_pos rfl, values_nil]
  obtain ⟨hnil, rfl⟩ | ⟨w, x, hw, hx, rfl⟩ := h
  · rw [hnil]
    simp
  · rw [hw]
    simp

theorem find_required_eq_ok_iff {x : α} :
    (required key item).find fields = .ok x ↔ Known key item fields (some x) := by
  rw [required, find_member_eq_ok_iff, Known]
  simp

theorem find_defaulted_eq_ok_iff {x value : α} :
    (defaulted key item value).find fields = .ok x ↔
      ∃ o, Known key item fields o ∧ o.getD value = x := by
  rw [defaulted, find_member_eq_ok_iff]
  unfold Known
  constructor
  · rintro (⟨hnil, hx⟩ | ⟨v, hv, hx⟩)
    · exact ⟨none, .inl ⟨hnil, rfl⟩, Except.ok.inj hx⟩
    · exact ⟨some x, .inr ⟨v, x, hv, hx, rfl⟩, rfl⟩
  · rintro ⟨o, ⟨hnil, rfl⟩ | ⟨v, y, hv, hy, rfl⟩, rfl⟩
    · exact .inl ⟨hnil, rfl⟩
    · exact .inr ⟨v, hv, hy⟩

end Members

namespace DocumentReader

variable {α σ : Type}

theorem length_of_anotherKey {first : Bool} {key : Option String} {ts behind : List Token}
    (h : anotherKey first ts = .ok (key, behind)) : behind.length < ts.length := by
  unfold anotherKey at h
  split at h
  · cases h
  · obtain ⟨rfl, rfl⟩ := Prod.mk.inj (Except.ok.inj h)
    exact Nat.lt_succ_self _
  · split at h
    case h_1 | h_2 =>
      obtain ⟨-, rfl⟩ := Prod.mk.inj (Except.ok.inj h)
      simp only [List.length_cons]
      omega
    all_goals cases h

/-- Keeps a member behind those that stand before it. -/
def keep (item : String → DocumentReader Json) (before : List (String × Json)) (key : String) :
    DocumentReader (List (String × Json)) := do
  return before ++ [(key, ← behindColon (item key))]

/-- An object whose members are read by their keys. -/
def keepMembers (item : String → DocumentReader Json) : DocumentReader Json := do
  return .object (← members (keep item) [])

/-- What a reader of members knows is determined by the members. -/
structure Tallies (member : σ → String → DocumentReader σ) (item : String → DocumentReader Json)
    (knows : List (String × Json) → σ → Prop) : Prop where
  unique : ∀ {fields s t}, knows fields s → knows fields t → s = t
  before : ∀ {fields added t}, knows (fields ++ added) t → ∃ s, knows fields s
  step : ∀ {fields s}, knows fields s → ∀ key ts t rest,
    member s key ts = .ok (t, rest) ↔
      ∃ v, behindColon (item key) ts = .ok (v, rest) ∧ knows (fields ++ [(key, v)]) t

theorem keep_eq_ok_iff {item : String → DocumentReader Json} {before fields : List (String × Json)}
    {key : String} {ts rest : List Token} :
    keep item before key ts = .ok (fields, rest) ↔
      ∃ v, behindColon (item key) ts = .ok (v, rest) ∧ before ++ [(key, v)] = fields := by
  rw [keep, return_ok_iff]

/-- Members are kept behind those that are there. -/
theorem exists_added {item : String → DocumentReader Json} {fuel : Nat} {first : Bool}
    {before fields : List (String × Json)} {ts rest : List Token}
    (h : membersWithin (keep item) fuel first before ts = .ok (fields, rest)) :
    ∃ added, before ++ added = fields := by
  induction fuel generalizing first before ts with
  | zero => exact nomatch h
  | succ fuel ih =>
    obtain ⟨key, _, -, h⟩ := bind_ok_iff.mp h
    cases key with
    | none => exact ⟨[], (List.append_nil _).trans (pure_eq_ok_iff.mp h).1⟩
    | some key =>
      obtain ⟨kept, _, hkeep, h⟩ := bind_ok_iff.mp h
      obtain ⟨v, -, rfl⟩ := keep_eq_ok_iff.mp hkeep
      obtain ⟨added, rfl⟩ := ih h
      exact ⟨(key, v) :: added, by rw [List.append_assoc, List.singleton_append]⟩

namespace Tallies

variable {member : σ → String → DocumentReader σ} {item : String → DocumentReader Json}
  {knows : List (String × Json) → σ → Prop}

theorem membersWithin (h : Tallies member item knows) {fuel : Nat} {first : Bool}
    {before : List (String × Json)} {s t : σ} (hs : knows before s) {ts rest : List Token} :
    membersWithin member fuel first s ts = .ok (t, rest) ↔
      ∃ fields, DocumentReader.membersWithin (keep item) fuel first before ts = .ok (fields, rest) ∧
        knows fields t := by
  induction fuel generalizing first before s ts with
  | zero => exact ⟨nofun, fun ⟨_, hnone, _⟩ => nomatch hnone⟩
  | succ fuel ih =>
    rw [DocumentReader.membersWithin, DocumentReader.membersWithin, bind_ok_iff]
    simp only [bind_ok_iff]
    constructor
    · rintro ⟨key, behind, hkey, ht⟩
      cases key with
      | none =>
        obtain ⟨rfl, rfl⟩ := pure_eq_ok_iff.mp ht
        exact ⟨before, ⟨none, _, hkey, rfl⟩, hs⟩
      | some key =>
        obtain ⟨u, mid, hu, ht⟩ := bind_ok_iff.mp ht
        obtain ⟨v, hv, hknows⟩ := (h.step hs _ _ _ _).mp hu
        obtain ⟨fields, hfields, hknows⟩ := (ih hknows).mp ht
        refine ⟨fields, ⟨some key, behind, hkey, bind_ok_iff.mpr ⟨_, mid, ?_, hfields⟩⟩, hknows⟩
        exact keep_eq_ok_iff.mpr ⟨v, hv, rfl⟩
    · rintro ⟨fields, ⟨key, behind, hkey, hfields⟩, hknows⟩
      cases key with
      | none =>
        obtain ⟨rfl, rfl⟩ := pure_eq_ok_iff.mp hfields
        exact ⟨none, _, hkey, pure_eq_ok_iff.mpr ⟨h.unique hs hknows, rfl⟩⟩
      | some key =>
        obtain ⟨kept, mid, hkeep, hfields⟩ := bind_ok_iff.mp hfields
        obtain ⟨v, hv, rfl⟩ := keep_eq_ok_iff.mp hkeep
        -- The members that follow are only known in the end, and so are the ones before them.
        obtain ⟨added, rfl⟩ := exists_added hfields
        obtain ⟨u, hu⟩ := h.before hknows
        refine ⟨some key, behind, hkey, bind_ok_iff.mpr ⟨u, mid, ?_, ?_⟩⟩
        · exact (h.step hs _ _ _ _).mpr ⟨v, hv, hu⟩
        · exact (ih hu).mpr ⟨_, hfields, hknows⟩

/-- Reading members as they come is reading all of them first. -/
theorem members (h : Tallies member item knows) {s t : σ} (hs : knows [] s)
    {ts rest : List Token} :
    members member s ts = .ok (t, rest) ↔
      ∃ fields, keepMembers item ts = .ok (.object fields, rest) ∧ knows fields t := by
  have hkeep : ∀ fields, keepMembers item ts = .ok (.object fields, rest) ↔
      DocumentReader.membersWithin (keep item) (ts.length + 1) true [] ts = .ok (fields, rest) := by
    intro fields
    rw [keepMembers, return_ok_iff]
    simp only [Json.object.injEq, exists_eq_right]
    rfl
  simp only [hkeep]
  exact h.membersWithin hs

end Tallies

open Members (Known)

theorem exists_of_keepMembers {item : String → DocumentReader Json} {ts rest : List Token}
    {v : Json} (h : keepMembers item ts = .ok (v, rest)) : ∃ fields, v = .object fields := by
  obtain ⟨fields, -, rfl⟩ := return_ok_iff.mp h
  exact ⟨fields, rfl⟩

theorem once_eq_ok_iff_known {key : String} {item : Decoder α} {reader : DocumentReader α}
    {json : DocumentReader Json} (hreader : reader.Decodes json fun v x => item v = .ok x)
    {fields : List (String × Json)} {o o' : Option α} (ho : Known key item fields o)
    {ts rest : List Token} :
    once key o reader ts = .ok (o', rest) ↔
      ∃ v, behindColon json ts = .ok (v, rest) ∧ Known key item (fields ++ [(key, v)]) o' := by
  simp only [once_eq_ok_iff, hreader.behindColon _ _ _, ho.again]
  grind

end DocumentReader

end PhpRefactor
