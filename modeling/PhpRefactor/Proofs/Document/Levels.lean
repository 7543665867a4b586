import PhpRefactor.Proofs.Document.Reading
import PhpRefactor.Proofs.Document.Tally

/-!
# One level of a value

A value is read with a stack of all that is open.  Readers of documents know of one array or object
only and take its items or members one after another.  Both read the same: a value that is an array
is read as its items are (`DocumentReader.value_array_eq_ok_iff`), and one that is an object as its
members are (`DocumentReader.value_object_eq_ok_iff`).
-/

set_option autoImplicit false

namespace PhpRefactor

open Json (Cursor Expectation Frame Progress advance close readFrom readFrom_cons_eq)

namespace DocumentReader

variable {limit : Nat} {first : Bool} {frames : List Frame} {ts rest : List Token} {v : Json}

/-! ## One level of a value -/

/-- The rest of a value of which some is read. -/
def valueFrom (limit : Nat) (cursor : Cursor) : DocumentReader Json := fun tokens =>
  (readFrom limit cursor tokens).mapError .notJson

/-- The rest of a value, if it is not complete. -/
def resume (limit : Nat) : Progress → DocumentReader Json
  | .inside cursor => valueFrom limit cursor
  | .complete v => pure v

/-- What is expected in an array where an item may come. -/
def itemExpectation (first : Bool) : Expectation := if first then .firstItem else .separator

/-- What is expected in an object where a member may come. -/
def keyExpectation (first : Bool) : Expectation := if first then .firstKey else .separator

theorem valueFrom_cons {cursor : Cursor} {t : Token} {progress : Progress}
    (h : advance limit cursor t = .ok progress) (ts : List Token) :
    valueFrom limit cursor (t :: ts) = resume limit progress ts := by
  rw [valueFrom, Json.readFrom_cons h]
  cases progress <;> rfl

theorem anotherItem_of_ne {t : Token} (ht : t ≠ .closeArray) (ts : List Token) :
    anotherItem true (t :: ts) = .ok (true, t :: ts) := by
  unfold anotherItem
  split <;> simp_all

theorem valueFrom_firstItem {t : Token} (ht : t ≠ .closeArray) (ts : List Token) :
    valueFrom limit ⟨frames, .firstItem⟩ (t :: ts) =
      valueFrom limit ⟨frames, .value⟩ (t :: ts) := by
  rw [valueFrom, valueFrom, readFrom_cons_eq, readFrom_cons_eq,
    Json.advance_eq_startValue (.inr rfl) ht, Json.advance_eq_startValue (.inl rfl) ht]

/-- An array is read item by item. -/
theorem valueFrom_array {before : List Json} (hfirst : first = true → before = []) :
    valueFrom limit ⟨.array before :: frames, itemExpectation first⟩ = (do
      if ← anotherItem first then valueFrom limit ⟨.array before :: frames, .value⟩
      else resume limit (close frames (.array before.reverse))) := by
  funext ts
  cases ts with
  | nil => cases first <;> rfl
  | cons t ts =>
    by_cases ht : t = .closeArray
    · subst ht
      have hend : anotherItem first (.closeArray :: ts) = .ok (false, ts) := rfl
      rw [bind_of_ok hend]
      cases first with
      | true =>
        obtain rfl := hfirst rfl
        exact valueFrom_cons rfl ts
      | false => exact valueFrom_cons rfl ts
    · cases first with
      | true =>
        rw [bind_of_ok (anotherItem_of_ne ht ts)]
        exact valueFrom_firstItem ht ts
      | false =>
        cases t with
        | closeArray => exact absurd rfl ht
        | comma =>
          cases ts with
          | nil => rfl
          | cons t ts => cases t <;> rfl
        | fault key => cases key <;> rfl
        | _ => rfl

/-- An object is read member by member. -/
theorem valueFrom_object {before : List (String × Json)} (hfirst : first = true → before = []) :
    valueFrom limit ⟨.object before :: frames, keyExpectation first⟩ = (do
      match ← anotherKey first with
      | none => resume limit (close frames (.object before.reverse))
      | some key => behindColon (valueFrom limit ⟨.member before key :: frames, .value⟩)) := by
  have hcolon : ∀ key ts, valueFrom limit ⟨.member before key :: frames, .colon⟩ ts =
      behindColon (valueFrom limit ⟨.member before key :: frames, .value⟩) ts := by
    intro key ts
    cases ts with
    | nil => rfl
    | cons t ts => cases t <;> rfl
  funext ts
  cases ts with
  | nil => cases first <;> rfl
  | cons t ts =>
    cases first with
    | true =>
      obtain rfl := hfirst rfl
      cases t with
      | closeObject =>
        rw [bind_of_ok (x := none) rfl]
        exact valueFrom_cons rfl ts
      | string key => exact hcolon key ts
      | fault key => cases key <;> rfl
      | _ => rfl
    | false =>
      cases t with
      | closeObject =>
        rw [bind_of_ok (x := none) rfl]
        exact valueFrom_cons rfl ts
      | comma =>
        cases ts with
        | nil => rfl
        | cons t ts =>
          cases t with
          | string key => exact hcolon key ts
          | fault key => cases key <;> rfl
          | _ => rfl
      | fault key => cases key <;> rfl
      | _ => rfl

theorem valueFrom_value_eq_ok_iff :
    valueFrom limit ⟨frames, .value⟩ ts = .ok (v, rest) ↔
      ∃ w behind, value (limit - frames.length) ts = .ok (w, behind) ∧
        resume limit (close frames w) behind = .ok (v, rest) := by
  have hresume : ∀ progress behind, resume limit progress behind = .ok (v, rest) ↔
      progress.resume limit behind = .ok (v, rest) := by
    intro progress behind
    cases progress with
    | inside cursor => exact mapError_eq_ok_iff
    | complete w =>
      refine pure_eq_ok_iff.trans ?_
      rw [Json.Progress.resume, Except.ok.injEq, Prod.mk.injEq]
  simp only [hresume, value_eq_ok_iff]
  exact mapError_eq_ok_iff.trans Json.readFrom_value_eq_ok_iff

theorem valueFrom_items {fuel : Nat} (hfuel : ts.length < fuel) {before : List Json}
    (hfirst : first = true → before = []) :
    valueFrom (limit + 1) ⟨[.array before], itemExpectation first⟩ ts = .ok (v, rest) ↔
      ∃ vs, itemsWithin (value limit) fuel first ts = .ok (vs, rest) ∧
        .array (before.reverse ++ vs) = v := by
  induction fuel generalizing first before ts with
  | zero => exact absurd hfuel (Nat.not_lt_zero _)
  | succ fuel ih =>
    have hothers : ∀ {behind mid : List Token} {w : Json},
        anotherItem first ts = .ok (true, behind) → value limit behind = .ok (w, mid) →
          (resume (limit + 1) (close [.array before] w) mid = .ok (v, rest) ↔
            ∃ vs, itemsWithin (value limit) fuel false mid = .ok (vs, rest) ∧
              .array (before.reverse ++ w :: vs) = v) := by
      intro behind mid w hmore hw
      have hbehind := length_of_anotherItem hmore
      have hmid := length_of_value behind w mid hw
      have h := @ih false mid (by omega) (w :: before) nofun
      simp only [List.reverse_cons, List.append_assoc, List.singleton_append] at h
      exact h
    rw [valueFrom_array hfirst, itemsWithin]
    simp only [bind_ok_iff]
    constructor
    · rintro ⟨more, behind, hmore, hv⟩
      cases more with
      | false =>
        obtain ⟨rfl, rfl⟩ := pure_eq_ok_iff.mp hv
        exact ⟨[], ⟨false, behind, hmore, rfl⟩, by rw [List.append_nil]⟩
      | true =>
        obtain ⟨w, mid, hw, hv⟩ := valueFrom_value_eq_ok_iff.mp hv
        obtain ⟨vs, hvs, rfl⟩ := (hothers hmore hw).mp hv
        refine ⟨w :: vs, ⟨true, behind, hmore, ?_⟩, rfl⟩
        exact bind_ok_iff.mpr ⟨w, mid, hw, return_ok_iff.mpr ⟨vs, hvs, rfl⟩⟩
    · rintro ⟨vs, ⟨more, behind, hmore, hvs⟩, rfl⟩
      refine ⟨more, behind, hmore, ?_⟩
      cases more with
      | false =>
        obtain ⟨rfl, rfl⟩ := pure_eq_ok_iff.mp hvs
        rw [List.append_nil]
        rfl
      | true =>
        obtain ⟨w, mid, hw, hvs⟩ := bind_ok_iff.mp hvs
        obtain ⟨ws, hws, rfl⟩ := return_ok_iff.mp hvs
        exact valueFrom_value_eq_ok_iff.mpr ⟨w, mid, hw, (hothers hmore hw).mpr ⟨ws, hws, rfl⟩⟩

theorem valueFrom_members {fuel : Nat} (hfuel : ts.length < fuel) {before : List (String × Json)}
    (hfirst : first = true → before = []) :
    valueFrom (limit + 1) ⟨[.object before.reverse], keyExpectation first⟩ ts = .ok (v, rest) ↔
      ∃ fields, membersWithin (keep fun _ => value limit) fuel first before ts =
        .ok (fields, rest) ∧ .object fields = v := by
  induction fuel generalizing first before ts with
  | zero => exact absurd hfuel (Nat.not_lt_zero _)
  | succ fuel ih =>
    have hothers : ∀ {behind mid : List Token} {key : String} {w : Json},
        anotherKey first ts = .ok (some key, .colon :: behind) → value limit behind = .ok (w, mid) →
          (resume (limit + 1) (close [.member before.reverse key] w) mid = .ok (v, rest) ↔
            ∃ fields, membersWithin (keep fun _ => value limit) fuel false
              (before ++ [(key, w)]) mid = .ok (fields, rest) ∧ .object fields = v) := by
      intro behind mid key w hkey hw
      have hbehind := length_of_anotherKey hkey
      have hmid := length_of_value behind w mid hw
      rw [List.length_cons] at hbehind
      have h := @ih false mid (by omega) (before ++ [(key, w)]) nofun
      rwa [List.reverse_append] at h
    rw [valueFrom_object fun h => by rw [hfirst h, List.reverse_nil], membersWithin]
    simp only [bind_ok_iff]
    constructor
    · rintro ⟨key, behind, hkey, hv⟩
      cases key with
      | none =>
        obtain ⟨rfl, rfl⟩ := pure_eq_ok_iff.mp hv
        exact ⟨before, ⟨none, behind, hkey, rfl⟩, by rw [List.reverse_reverse]⟩
      | some key =>
        obtain ⟨_, rfl, hv⟩ := behindColon_eq_ok_iff.mp hv
        obtain ⟨w, mid, hw, hv⟩ := valueFrom_value_eq_ok_iff.mp hv
        obtain ⟨fields, hfields, rfl⟩ := (hothers hkey hw).mp hv
        refine ⟨fields, ⟨some key, _, hkey, bind_ok_iff.mpr ⟨_, mid, ?_, hfields⟩⟩, rfl⟩
        exact keep_eq_ok_iff.mpr ⟨w, behindColon_eq_ok_iff.mpr ⟨_, rfl, hw⟩, rfl⟩
    · rintro ⟨fields, ⟨key, behind, hkey, hfields⟩, rfl⟩
      refine ⟨key, behind, hkey, ?_⟩
      cases key with
      | none =>
        obtain ⟨rfl, rfl⟩ := pure_eq_ok_iff.mp hfields
        rw [List.reverse_reverse]
        rfl
      | some key =>
        obtain ⟨_, mid, hkeep, hothers'⟩ := bind_ok_iff.mp hfields
        obtain ⟨w, hw, rfl⟩ := keep_eq_ok_iff.mp hkeep
        obtain ⟨_, rfl, hvalue⟩ := behindColon_eq_ok_iff.mp hw
        refine behindColon_eq_ok_iff.mpr
          ⟨_, rfl, valueFrom_value_eq_ok_iff.mpr ⟨w, mid, hvalue, ?_⟩⟩
        exact (hothers hkey hvalue).mpr ⟨fields, hothers', rfl⟩

/-- An array is read item by item, an object member by member, and anything else at once. -/
theorem value_array_eq_ok_iff :
    value (limit + 1) (.openArray :: ts) = .ok (v, rest) ↔
      (do return .array (← items (value limit)) : DocumentReader Json) ts = .ok (v, rest) := by
  have hitems := @valueFrom_items limit true ts rest v _ (Nat.lt_succ_self _) [] fun _ => rfl
  rw [return_ok_iff]
  exact hitems

theorem value_object_eq_ok_iff :
    value (limit + 1) (.openObject :: ts) = .ok (v, rest) ↔
      keepMembers (fun _ => value limit) ts = .ok (v, rest) := by
  have hmembers := @valueFrom_members limit true ts rest v _ (Nat.lt_succ_self _) [] fun _ => rfl
  rw [keepMembers, return_ok_iff]
  exact hmembers

end DocumentReader

end PhpRefactor
