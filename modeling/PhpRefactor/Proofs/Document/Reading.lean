import PhpRefactor.Document.Tree
import PhpRefactor.Proofs.Json.Tokens

/-!
# Reading a document off the tokens of a value

A document reader that takes the members of an object one after another reads the tokens of an
object when it can take each member, in the state that the members before it led to
(`DocumentReader.Takes`).  Both the position of the outermost node and this node itself are read in
this way.
-/

set_option autoImplicit false

namespace PhpRefactor

namespace DocumentReader

open Json (fieldTokens tokens)

variable {α σ : Type}

/-- The reader takes the tokens of this value off the front of any others. -/
def Reads (reader : DocumentReader α) (v : Json) (x : α) : Prop :=
  ∀ ts, reader (v.tokens ++ ts) = .ok (x, ts)

/-- The same for what stands behind a key. -/
def ReadsBehindColon (reader : DocumentReader α) (v : Json) (x : α) : Prop :=
  ∀ ts, reader (.colon :: (v.tokens ++ ts)) = .ok (x, ts)

theorem run_of_reads {reader : DocumentReader α} {v : Json} {x : α} (h : reader.Reads v x)
    {text : String} (htext : Token.scan text.toList = v.tokens) : reader.run text = .ok x := by
  have hall := h []
  rw [List.append_nil] at hall
  rw [run, htext, hall]

theorem bind_of_ok {β : Type} {reader : DocumentReader α} {next : α → DocumentReader β}
    {tokens rest : List Token} {x : α} (h : reader tokens = .ok (x, rest)) :
    (reader >>= next) tokens = next x rest := by
  change (reader tokens >>= fun (x, rest) => next x rest) = _
  rw [h]
  rfl

theorem value_reads {limit : Nat} {v : Json} (h : v.depth ≤ limit) : (value limit).Reads v v := by
  intro ts
  rw [value, Json.readFrom_tokens h]
  rfl

theorem behindColon_reads {reader : DocumentReader α} {v : Json} {x : α} (h : reader.Reads v x) :
    (behindColon reader).ReadsBehindColon v x :=
  h

theorem once_reads {key : String} {reader : DocumentReader α} {v : Json} {x : α}
    (h : reader.Reads v x) : (once key none reader).ReadsBehindColon v (some x) := by
  intro ts
  rw [once, if_neg (by simp)]
  exact bind_of_ok (h ts)

/-! ## The members of an object -/

/-- The reader takes these members, one after another, and gets from one state to another. -/
inductive Takes (member : σ → String → DocumentReader σ) : σ → List (String × Json) → σ → Prop where
  | nil (s : σ) : Takes member s [] s
  | cons {s t u : σ} {key : String} {v : Json} {fields : List (String × Json)}
      (h : (member s key).ReadsBehindColon v t) (hrest : Takes member t fields u) :
      Takes member s ((key, v) :: fields) u

variable {member : σ → String → DocumentReader σ} {s t : σ} {fields : List (String × Json)}

theorem membersWithin_fieldTokens (h : Takes member s fields t) {fuel : Nat}
    (hfuel : fields.length < fuel) (ts : List Token) :
    membersWithin member fuel false s (fieldTokens fields ++ .closeObject :: ts) = .ok (t, ts) := by
  induction h generalizing fuel with
  | nil s =>
    obtain ⟨fuel, rfl⟩ := Nat.exists_eq_add_one_of_ne_zero (Nat.ne_zero_of_lt hfuel)
    rfl
  | @cons s t u key v fields h hrest ih =>
    obtain ⟨fuel, rfl⟩ := Nat.exists_eq_add_one_of_ne_zero (Nat.ne_zero_of_lt hfuel)
    rw [List.length_cons, Nat.add_lt_add_iff_right] at hfuel
    rw [fieldTokens, List.cons_append, List.cons_append, List.cons_append, List.append_assoc,
      membersWithin, bind_of_ok (x := some key) rfl]
    exact (bind_of_ok (h _)).trans (ih hfuel)

theorem length_le_fieldTokens (fields : List (String × Json)) :
    fields.length ≤ (fieldTokens fields).length := by
  induction fields with
  | nil => exact Nat.zero_le _
  | cons f fields ih =>
    obtain ⟨k, v⟩ := f
    simp only [fieldTokens, List.length_cons, List.length_append]
    omega

/-- Behind the first member the others follow, and there is fuel for all of them. -/
theorem exists_members_eq {u : σ} {key : String} {v : Json}
    (h : (member s key).ReadsBehindColon v u) (fields : List (String × Json)) (ts : List Token) :
    ∃ fuel, fields.length < fuel ∧
      members member s (.string key :: .colon :: (v.tokens ++ (fieldTokens fields ++ ts))) =
        membersWithin member fuel false u (fieldTokens fields ++ ts) := by
  have hfuel : fields.length < (Token.string key :: .colon :: (v.tokens ++
      (fieldTokens fields ++ ts))).length := by
    have := length_le_fieldTokens fields
    simp only [List.length_cons, List.length_append]
    omega
  refine ⟨_, hfuel, ?_⟩
  rw [members, bind_of_ok rfl, membersWithin, bind_of_ok (x := some key) rfl]
  exact bind_of_ok (h _)

/-- The members of an object that is not empty are read off its tokens, behind the brace. -/
theorem members_reads {key : String} {v : Json} (h : Takes member s ((key, v) :: fields) t)
    (ts : List Token) :
    members member s
        (.string key :: .colon :: (v.tokens ++ (fieldTokens fields ++ .closeObject :: ts))) =
      .ok (t, ts) := by
  cases h with
  | cons h hrest =>
    obtain ⟨fuel, hfuel, hmembers⟩ := exists_members_eq h fields (.closeObject :: ts)
    rw [hmembers]
    exact membersWithin_fieldTokens hrest hfuel ts

/-- An object with members is opened, and the reader of its members goes on. -/
theorem container_object {wanted : String} {array object : DocumentReader α} {key : String}
    {v : Json} (ts : List Token) :
    container wanted array object ((Json.object ((key, v) :: fields)).tokens ++ ts) =
      object
        (.string key :: .colon :: (v.tokens ++ (fieldTokens fields ++ .closeObject :: ts))) := by
  rw [tokens]
  simp only [List.cons_append, List.append_assoc, List.nil_append]
  rw [container, bind_of_ok (x := some .object) rfl]

end DocumentReader

end PhpRefactor
