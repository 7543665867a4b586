import PhpRefactor.Document.Tree
import PhpRefactor.Proofs.Json.Frames

/-!
# Reading first and decoding later

A reader of documents looks at the tokens as they come.  Where it has a result, it might as well
have read a JSON value and decoded that (`DocumentReader.Decodes`): what it does earlier is to
complain.
This holds of the readers of numbers, and it is kept where readers are put together.
-/

set_option autoImplicit false

namespace PhpRefactor

namespace DocumentReader

variable {α β : Type} {ts rest : List Token}

/-! ## Readers that have a result -/

theorem bind_ok_iff {reader : DocumentReader α} {next : α → DocumentReader β} {y : β} :
    (reader >>= next) ts = .ok (y, rest) ↔
      ∃ x mid, reader ts = .ok (x, mid) ∧ next x mid = .ok (y, rest) := by
  have h := bind_eq_ok_iff (r := reader ts) (f := fun p => next p.1 p.2)
    (y := (y, rest))
  rw [Prod.exists] at h
  exact h

theorem pure_eq_ok_iff {x y : α} :
    (pure x : DocumentReader α) ts = .ok (y, rest) ↔ x = y ∧ ts = rest := by
  change Except.ok (x, ts) = _ ↔ _
  rw [Except.ok.injEq, Prod.mk.injEq]

theorem return_ok_iff {reader : DocumentReader α} {f : α → β} {y : β} :
    (do return f (← reader) : DocumentReader β) ts = .ok (y, rest) ↔
      ∃ x, reader ts = .ok (x, rest) ∧ f x = y := by
  rw [bind_ok_iff]
  constructor
  · rintro ⟨x, mid, hx, h⟩
    obtain ⟨rfl, rfl⟩ := pure_eq_ok_iff.mp h
    exact ⟨x, hx, rfl⟩
  · rintro ⟨x, hx, rfl⟩
    exact ⟨x, rest, hx, rfl⟩

theorem accept_eq_ok_iff {r : Except DataError α} {x : α} :
    accept r ts = .ok (x, rest) ↔ r = .ok x ∧ ts = rest := by
  cases r with
  | error e => exact ⟨nofun, fun h => nomatch h.1⟩
  | ok y => rw [accept, pure_eq_ok_iff, Except.ok.injEq]

theorem given_eq_ok_iff {key : String} {o : Option α} {x : α} :
    given key o ts = .ok (x, rest) ↔ o = some x ∧ ts = rest := by
  cases o with
  | none => exact ⟨nofun, fun h => nomatch h.1⟩
  | some y => rw [given, pure_eq_ok_iff, Option.some.injEq]

theorem once_eq_ok_iff {key : String} {already o : Option α} {reader : DocumentReader α} :
    once key already reader ts = .ok (o, rest) ↔
      already = none ∧ ∃ x, behindColon reader ts = .ok (x, rest) ∧ some x = o := by
  cases already with
  | none => exact return_ok_iff.trans ⟨fun h => ⟨rfl, h⟩, And.right⟩
  | some y => exact ⟨nofun, fun h => nomatch h.1⟩

theorem behindColon_eq_ok_iff {reader : DocumentReader α} {x : α} :
    behindColon reader ts = .ok (x, rest) ↔
      ∃ behind, ts = .colon :: behind ∧ reader behind = .ok (x, rest) := by
  unfold behindColon
  split <;> simp_all

theorem container_eq_ok_iff {wanted : String} {array object : DocumentReader α} {x : α} :
    container wanted array object ts = .ok (x, rest) ↔
      (∃ behind, ts = .openArray :: behind ∧ array behind = .ok (x, rest)) ∨
        ∃ behind, ts = .openObject :: behind ∧ object behind = .ok (x, rest) := by
  rw [container, bind_ok_iff]
  constructor
  · rintro ⟨bracket, behind, hopening, h⟩
    unfold opening at hopening
    split at hopening
    · obtain ⟨rfl, rfl⟩ := Prod.mk.inj (Except.ok.inj hopening)
      exact .inl ⟨_, rfl, h⟩
    · obtain ⟨rfl, rfl⟩ := Prod.mk.inj (Except.ok.inj hopening)
      exact .inr ⟨_, rfl, h⟩
    · obtain ⟨rfl, rfl⟩ := Prod.mk.inj (Except.ok.inj hopening)
      obtain ⟨_, _, _, hrefuse⟩ := bind_ok_iff.mp h
      exact nomatch hrefuse
  · rintro (⟨behind, rfl, h⟩ | ⟨behind, rfl, h⟩)
    · exact ⟨some .array, behind, rfl, h⟩
    · exact ⟨some .object, behind, rfl, h⟩

/-- The reader reads what another one reads as JSON, if that means something. -/
def Decodes (reader : DocumentReader α) (json : DocumentReader Json) (means : Json → α → Prop) :
    Prop :=
  ∀ ts x rest, reader ts = .ok (x, rest) ↔ ∃ v, json ts = .ok (v, rest) ∧ means v x

variable {means : Json → α → Prop} {json : DocumentReader Json} {reader : DocumentReader α}

theorem Decodes.behindColon (h : reader.Decodes json means) :
    (behindColon reader).Decodes (DocumentReader.behindColon json) means := by
  intro ts x rest
  simp only [behindColon_eq_ok_iff, h _ x rest]
  grind

theorem Decodes.container {wanted : String} {array object : DocumentReader α}
    {arrayJson objectJson : DocumentReader Json} (harray : array.Decodes arrayJson means)
    (hobject : object.Decodes objectJson means) :
    (container wanted array object).Decodes
      (DocumentReader.container wanted arrayJson objectJson) means := by
  intro ts x rest
  simp only [container_eq_ok_iff, harray _ x rest, hobject _ x rest]
  grind

/-! ## Arrays -/

/-- The items of an array are read one after another. -/
inductive Items (item : DocumentReader α) : Bool → List Token → List α → List Token → Prop where
  | nil {first : Bool} {ts rest : List Token} (h : anotherItem first ts = .ok (false, rest)) :
      Items item first ts [] rest
  | cons {first : Bool} {ts behind mid rest : List Token} {x : α} {xs : List α}
      (h : anotherItem first ts = .ok (true, behind)) (hx : item behind = .ok (x, mid))
      (hxs : Items item false mid xs rest) : Items item first ts (x :: xs) rest

theorem itemsWithin_eq_ok_iff {item : DocumentReader α} {fuel : Nat} {first : Bool} {xs : List α} :
    itemsWithin item fuel first ts = .ok (xs, rest) ↔
      Items item first ts xs rest ∧ xs.length < fuel := by
  induction fuel generalizing first ts xs with
  | zero => exact ⟨nofun, fun h => absurd h.2 (Nat.not_lt_zero _)⟩
  | succ fuel ih =>
    rw [itemsWithin, bind_ok_iff]
    constructor
    · rintro ⟨more, behind, hmore, hxs⟩
      cases more with
      | false =>
        obtain ⟨rfl, rfl⟩ := pure_eq_ok_iff.mp hxs
        exact ⟨.nil hmore, Nat.zero_lt_succ _⟩
      | true =>
        obtain ⟨x, mid, hx, hxs⟩ := bind_ok_iff.mp hxs
        obtain ⟨ys, _, hys, hxs⟩ := bind_ok_iff.mp hxs
        obtain ⟨rfl, rfl⟩ := pure_eq_ok_iff.mp hxs
        obtain ⟨hys, hlength⟩ := ih.mp hys
        exact ⟨.cons hmore hx hys, Nat.succ_lt_succ hlength⟩
    · rintro ⟨hxs, hlength⟩
      cases hxs with
      | nil hmore => exact ⟨false, _, hmore, rfl⟩
      | cons hmore hx hys =>
        refine ⟨true, _, hmore, bind_ok_iff.mpr ⟨_, _, hx, bind_ok_iff.mpr ⟨_, _, ?_, rfl⟩⟩⟩
        exact ih.mpr ⟨hys, Nat.lt_of_succ_lt_succ hlength⟩

theorem length_of_anotherItem {first more : Bool} {behind : List Token}
    (h : anotherItem first ts = .ok (more, behind)) :
    behind.length + (if more then 0 else 1) ≤ ts.length := by
  unfold anotherItem at h
  split at h
  · exact nomatch h
  · obtain ⟨rfl, rfl⟩ := Prod.mk.inj (Except.ok.inj h)
    exact le_rfl
  · split at h
    · obtain ⟨rfl, rfl⟩ := Prod.mk.inj (Except.ok.inj h)
      exact le_rfl
    · exact nomatch h
    · obtain ⟨rfl, rfl⟩ := Prod.mk.inj (Except.ok.inj h)
      exact Nat.le_succ _
    · exact nomatch h

theorem Items.length_add_le {item : DocumentReader α} {first : Bool} {xs : List α}
    (hitem : ∀ ts x rest, item ts = .ok (x, rest) → rest.length < ts.length)
    (h : Items item first ts xs rest) : xs.length + rest.length < ts.length := by
  induction h with
  | nil hmore =>
    have hmore := length_of_anotherItem hmore
    simp only [Bool.false_eq_true, if_false, List.length_nil] at hmore ⊢
    omega
  | cons hmore hx _ ih =>
    have hmore := length_of_anotherItem hmore
    have hx := hitem _ _ _ hx
    simp only [if_true, List.length_cons] at hmore ⊢
    omega

theorem items_eq_ok_iff {item : DocumentReader α} {xs : List α}
    (hitem : ∀ ts x rest, item ts = .ok (x, rest) → rest.length < ts.length) :
    items item ts = .ok (xs, rest) ↔ Items item true ts xs rest := by
  change itemsWithin item (ts.length + 1) true ts = _ ↔ _
  rw [itemsWithin_eq_ok_iff]
  refine ⟨And.left, fun h => ⟨h, ?_⟩⟩
  have := h.length_add_le hitem
  omega

/-! ## Values -/

theorem value_eq_ok_iff {limit : Nat} {ts rest : List Token} {v : Json} :
    value limit ts = .ok (v, rest) ↔ Json.readFrom limit .start ts = .ok (v, rest) :=
  mapError_eq_ok_iff

theorem length_of_value {limit : Nat} (ts : List Token) (v : Json) (rest : List Token)
    (h : value limit ts = .ok (v, rest)) : rest.length < ts.length :=
  Json.length_of_readFrom (value_eq_ok_iff.mp h)

/-- What is no number is refused earlier by the one reader than by the other. -/
theorem number_decodes (limit : Nat) :
    (scalar Decoder.uint32).Decodes (value limit) fun v n => Decoder.uint32 v = .ok n := by
  intro ts n rest
  rw [scalar, bind_ok_iff]
  cases ts with
  | nil =>
    constructor
    · rintro ⟨bracket, behind, hopening, h⟩
      obtain ⟨rfl, rfl⟩ := Prod.mk.inj (Except.ok.inj hopening)
      exact nomatch h
    · rintro ⟨v, hv, -⟩
      exact nomatch hv
  | cons t behind =>
    by_cases ht : t = .openArray ∨ t = .openObject
    · constructor
      · rintro ⟨bracket, behind, hopening, h⟩
        rcases ht with rfl | rfl <;>
        · obtain ⟨rfl, rfl⟩ := Prod.mk.inj (Except.ok.inj hopening)
          exact nomatch h
      · rintro ⟨v, hv, hn⟩
        have hcontainer := Json.isContainer_of_open ht (value_eq_ok_iff.mp hv)
        cases v with
        | int => exact hcontainer.elim
        | _ => exact nomatch hn
    · rw [not_or] at ht
      have hopening : opening (t :: behind) = .ok (none, t :: behind) := by
        cases t with
        | openArray => exact absurd rfl ht.1
        | openObject => exact absurd rfl ht.2
        | _ => rfl
      rw [hopening]
      have hvalue : value 0 (t :: behind) = value limit (t :: behind) := by
        rw [value, value, Json.readFrom_start_of_not_open ht]
      constructor
      · rintro ⟨bracket, _, hnone, h⟩
        obtain ⟨rfl, rfl⟩ := Prod.mk.inj (Except.ok.inj hnone)
        obtain ⟨v, mid, hv, haccept⟩ := bind_ok_iff.mp h
        obtain ⟨hn, rfl⟩ := accept_eq_ok_iff.mp haccept
        exact ⟨v, hvalue ▸ hv, hn⟩
      · rintro ⟨v, hv, hn⟩
        refine ⟨none, _, rfl, bind_ok_iff.mpr ⟨v, rest, hvalue.trans hv, ?_⟩⟩
        exact accept_eq_ok_iff.mpr ⟨hn, rfl⟩

end DocumentReader

end PhpRefactor
