import PhpRefactor.Proofs.Json.Scan

/-!
# The tokens of a value

A value has a list of tokens (`Json.tokens`), and this list stands between the text of the value and
the value.  The text, over several lines and at any indentation, is scanned as the tokens
(`Json.scan_pretty`).  The tokens, inside anything that is open, are read as the value
(`Json.readFrom_tokens`), if the nesting is not too deep.  Neither looks at what stands behind.
-/

set_option autoImplicit false

namespace PhpRefactor

namespace Json

/-! ## Values by their parts -/

theorem induction {P : Json → Prop} (null : P .null) (bool : ∀ b, P (.bool b))
    (int : ∀ n, P (.int n)) (float : ∀ d, P (.float d)) (string : ∀ x, P (.string x))
    (array : ∀ vs, (∀ v ∈ vs, P v) → P (.array vs))
    (object : ∀ fs, (∀ f ∈ fs, P f.2) → P (.object fs)) (v : Json) : P v :=
  match v with
  | .null => null
  | .bool b => bool b
  | .int n => int n
  | .float d => float d
  | .string x => string x
  | .array vs =>
    array vs fun v _ => induction null bool int float string array object v
  | .object fs =>
    object fs fun f _ => induction null bool int float string array object f.2
termination_by sizeOf v
decreasing_by
  · have := List.sizeOf_lt_of_mem ‹v ∈ vs›
    simp only [Json.array.sizeOf_spec]
    omega
  · have := List.sizeOf_lt_of_mem ‹f ∈ fs›
    have hpair : sizeOf f = 1 + sizeOf f.1 + sizeOf f.2 := rfl
    simp only [Json.object.sizeOf_spec]
    omega

/-- The numbers in the value are read back from what is written for them. -/
inductive Writable : Json → Prop where
  | null : Writable .null
  | bool (b : Bool) : Writable (.bool b)
  | int {n : Int} (h : Token.IntRange n) : Writable (.int n)
  | float {d : Double} (h : d.ReadsBack) : Writable (.float d)
  | string (x : String) : Writable (.string x)
  | array {vs : List Json} (h : ∀ v ∈ vs, Writable v) : Writable (.array vs)
  | object {fs : List (String × Json)} (h : ∀ f ∈ fs, Writable f.2) : Writable (.object fs)

theorem depth_le_of_mem {vs : List Json} {v : Json} (h : v ∈ vs) : v.depth ≤ depthItems vs := by
  induction vs with
  | nil => exact absurd h List.not_mem_nil
  | cons w vs ih =>
    rw [depthItems]
    rcases List.mem_cons.mp h with rfl | h
    · exact le_max_left _ _
    · exact (ih h).trans (le_max_right _ _)

/-! ## Tokens -/

mutual

/-- The tokens of a value. -/
def tokens : Json → List Token
  | array [] => [.openArray, .closeArray]
  | array (v :: vs) => .openArray :: (v.tokens ++ (itemTokens vs ++ [.closeArray]))
  | object [] => [.openObject, .closeObject]
  | object ((k, v) :: fs) =>
    .openObject :: .string k :: .colon :: (v.tokens ++ (fieldTokens fs ++ [.closeObject]))
  | string x => [.string x]
  | v => [.scalar v]

/-- The tokens of the items behind the first. -/
def itemTokens : List Json → List Token
  | [] => []
  | v :: vs => .comma :: (v.tokens ++ itemTokens vs)

/-- The tokens of the members behind the first. -/
def fieldTokens : List (String × Json) → List Token
  | [] => []
  | (k, v) :: fs => .comma :: .string k :: .colon :: (v.tokens ++ fieldTokens fs)

end

/-! ## From the text to the tokens -/

open Token (Cut cut_cons scan)

/-- The text of the value is scanned as its tokens. -/
def ScansAsTokens (v : Json) : Prop :=
  ∀ (indent : Nat) (rest : List Char), Cut rest →
    scan ((v.prettyAt indent).toList ++ rest) = v.tokens ++ scan rest

theorem cut_newLine (indent : Nat) (rest : List Char) : Cut ((newLine indent).toList ++ rest) := by
  rw [newLine, String.toList_ofList, List.cons_append]
  exact cut_cons (by decide) _

theorem scan_prettyItems {vs : List Json} (h : ∀ v ∈ vs, ScansAsTokens v) (indent : Nat)
    {rest : List Char} (hcut : Cut rest) :
    Cut ((prettyItems indent vs).toList ++ rest) ∧
      scan ((prettyItems indent vs).toList ++ rest) = itemTokens vs ++ scan rest := by
  induction vs with
  | nil => exact ⟨hcut, rfl⟩
  | cons v vs ih =>
    obtain ⟨hcut', hscan⟩ := ih fun w hw => h w (List.mem_cons_of_mem _ hw)
    have htext : (prettyItems indent (v :: vs)).toList ++ rest =
        ',' :: ((newLine indent).toList ++
          ((v.prettyAt indent).toList ++ ((prettyItems indent vs).toList ++ rest))) := by
      rw [prettyItems]
      simp
    rw [htext]
    refine ⟨cut_cons (by decide) _, ?_⟩
    rw [Token.scan_comma, Token.scan_newLine, h v List.mem_cons_self indent _ hcut', hscan,
      itemTokens, List.cons_append, List.append_assoc]

theorem scan_prettyFields {fs : List (String × Json)} (h : ∀ f ∈ fs, ScansAsTokens f.2)
    (indent : Nat) {rest : List Char} (hcut : Cut rest) :
    Cut ((prettyFields indent fs).toList ++ rest) ∧
      scan ((prettyFields indent fs).toList ++ rest) = fieldTokens fs ++ scan rest := by
  induction fs with
  | nil => exact ⟨hcut, rfl⟩
  | cons f fs ih =>
    obtain ⟨k, v⟩ := f
    obtain ⟨hcut', hscan⟩ := ih fun g hg => h g (List.mem_cons_of_mem _ hg)
    have htext : (prettyFields indent ((k, v) :: fs)).toList ++ rest =
        ',' :: ((newLine indent).toList ++ ((quote k).toList ++ (':' :: ' ' ::
          ((v.prettyAt indent).toList ++ ((prettyFields indent fs).toList ++ rest))))) := by
      rw [prettyFields]
      simp
    rw [htext]
    refine ⟨cut_cons (by decide) _, ?_⟩
    rw [Token.scan_comma, Token.scan_newLine, Token.scan_quote, Token.scan_colon,
      Token.scan_of_blank rfl, h (k, v) List.mem_cons_self indent _ hcut', hscan, fieldTokens]
    simp only [List.cons_append, List.append_assoc]

/-- The text of a value is scanned as its tokens, wherever it stands. -/
theorem Writable.scansAsTokens {v : Json} (h : v.Writable) : v.ScansAsTokens := by
  induction h with
  | null => exact fun _ _ hcut => Token.scan_append_of_scalar hcut Token.scan_null
  | bool b => exact fun _ _ hcut => Token.scan_append_of_scalar hcut (Token.scan_bool b)
  | int h => exact fun _ _ hcut => Token.scan_append_of_scalar hcut (Token.scan_toString h)
  | float h => exact fun _ _ hcut => Token.scan_append_of_scalar hcut (Token.scan_of_readsBack h)
  | string x => exact fun _ rest _ => Token.scan_quote x rest
  | @array vs _ ih =>
    intro indent rest hcut
    cases vs with
    | nil =>
      have htext : (prettyAt indent (.array [])).toList ++ rest = '[' :: ']' :: rest := by
        rw [prettyAt]
        rfl
      rw [htext, Token.scan_openArray, Token.scan_closeArray]
      rfl
    | cons v vs =>
      obtain ⟨hcut', hscan⟩ := scan_prettyItems (fun w hw => ih w (List.mem_cons_of_mem _ hw))
        (indent + 1) (cut_newLine indent (']' :: rest))
      have htext : (prettyAt indent (.array (v :: vs))).toList ++ rest =
          '[' :: ((newLine (indent + 1)).toList ++ ((v.prettyAt (indent + 1)).toList ++
            ((prettyItems (indent + 1) vs).toList ++
              ((newLine indent).toList ++ ']' :: rest)))) := by
        rw [prettyAt]
        simp
      rw [htext, Token.scan_openArray, Token.scan_newLine, ih v List.mem_cons_self _ _ hcut', hscan,
        Token.scan_newLine, Token.scan_closeArray, tokens]
      simp only [List.cons_append, List.append_assoc, List.nil_append]
  | @object fs _ ih =>
    intro indent rest hcut
    cases fs with
    | nil =>
      have htext : (prettyAt indent (.object [])).toList ++ rest = '\x7b' :: '\x7d' :: rest := by
        rw [prettyAt]
        rfl
      rw [htext, Token.scan_openObject, Token.scan_closeObject]
      rfl
    | cons f fs =>
      obtain ⟨k, v⟩ := f
      obtain ⟨hcut', hscan⟩ := scan_prettyFields (fun g hg => ih g (List.mem_cons_of_mem _ hg))
        (indent + 1) (cut_newLine indent ('\x7d' :: rest))
      have htext : (prettyAt indent (.object ((k, v) :: fs))).toList ++ rest =
          '\x7b' :: ((newLine (indent + 1)).toList ++ ((quote k).toList ++ (':' :: ' ' ::
            ((v.prettyAt (indent + 1)).toList ++ ((prettyFields (indent + 1) fs).toList ++
              ((newLine indent).toList ++ '\x7d' :: rest)))))) := by
        rw [prettyAt]
        simp
      rw [htext, Token.scan_openObject, Token.scan_newLine, Token.scan_quote, Token.scan_colon,
        Token.scan_of_blank rfl, ih (k, v) List.mem_cons_self _ _ hcut', hscan, Token.scan_newLine,
        Token.scan_closeObject, tokens]
      simp only [List.cons_append, List.append_assoc, List.nil_append]

/-- The text of a value, with blanks behind it, is scanned as its tokens. -/
theorem Writable.scan_pretty {v : Json} (h : v.Writable) {blanks : List Char} (hcut : Cut blanks)
    (hblanks : blanks.dropWhile Token.isBlank = []) :
    scan (v.pretty.toList ++ blanks) = v.tokens := by
  have hnone := Token.scan_append_of_blanks hblanks []
  rw [List.append_nil, Token.scan_nil] at hnone
  rw [pretty, h.scansAsTokens 0 blanks hcut, hnone, List.append_nil]

/-! ## From the tokens to the value -/

/-- The reader goes on behind a token. -/
def Progress.resume (limit : Nat) (progress : Progress) (tokens : List Token) :
    Except SyntaxError (Json × List Token) :=
  match progress with
  | .inside cursor => readFrom limit cursor tokens
  | .complete v => .ok (v, tokens)

theorem readFrom_cons {limit : Nat} {cursor : Cursor} {t : Token} {progress : Progress}
    (h : advance limit cursor t = .ok progress) (ts : List Token) :
    readFrom limit cursor (t :: ts) = progress.resume limit ts := by
  rw [readFrom, h]
  cases progress <;> rfl

/-- Where a value is due, the next token begins one, unless it is a closing bracket. -/
theorem advance_eq_startValue {limit : Nat} {frames : List Frame} {expect : Expectation} {t : Token}
    (hexpect : expect = .value ∨ expect = .firstItem) (ht : t ≠ .closeArray) :
    advance limit ⟨frames, expect⟩ t = startValue limit frames t := by
  rcases hexpect with rfl | rfl <;> unfold advance <;> split <;> simp_all

/-- The tokens of the value are read as the value, inside anything that is open. -/
def ReadsFromTokens (limit : Nat) (v : Json) : Prop :=
  ∀ (frames : List Frame) (expect : Expectation) (ts : List Token),
    expect = .value ∨ expect = .firstItem → frames.length + v.depth ≤ limit →
      readFrom limit ⟨frames, expect⟩ (v.tokens ++ ts) = (close frames v).resume limit ts

section

variable {limit : Nat}

theorem readFrom_itemTokens {vs : List Json} (h : ∀ v ∈ vs, ReadsFromTokens limit v)
    (items : List Json) (frames : List Frame) (ts : List Token)
    (hdepth : frames.length + 1 + depthItems vs ≤ limit) :
    readFrom limit ⟨.array items :: frames, .separator⟩ (itemTokens vs ++ .closeArray :: ts) =
      (close frames (.array (items.reverse ++ vs))).resume limit ts := by
  induction vs generalizing items with
  | nil =>
    rw [List.append_nil]
    exact readFrom_cons rfl ts
  | cons v vs ih =>
    rw [depthItems] at hdepth
    rw [itemTokens, List.cons_append, List.append_assoc, readFrom_cons rfl]
    rw [Progress.resume, h v List.mem_cons_self _ _ _ (.inl rfl)
      (by rw [List.length_cons]; omega)]
    rw [close, Progress.resume, ih (fun w hw => h w (List.mem_cons_of_mem _ hw)) _ (by omega),
      List.reverse_cons, List.append_assoc, List.singleton_append]

theorem readFrom_fieldTokens {fs : List (String × Json)}
    (h : ∀ f ∈ fs, ReadsFromTokens limit f.2) (fields : List (String × Json)) (frames : List Frame)
    (ts : List Token) (hdepth : frames.length + 1 + depthFields fs ≤ limit) :
    readFrom limit ⟨.object fields :: frames, .separator⟩ (fieldTokens fs ++ .closeObject :: ts) =
      (close frames (.object (fields.reverse ++ fs))).resume limit ts := by
  induction fs generalizing fields with
  | nil =>
    rw [List.append_nil]
    exact readFrom_cons rfl ts
  | cons f fs ih =>
    obtain ⟨k, v⟩ := f
    rw [depthFields] at hdepth
    rw [fieldTokens, List.cons_append, List.cons_append, List.cons_append, List.append_assoc,
      readFrom_cons rfl, Progress.resume, readFrom_cons rfl, Progress.resume, readFrom_cons rfl,
      Progress.resume, h (k, v) List.mem_cons_self _ _ _ (.inl rfl)
        (by rw [List.length_cons]; dsimp only; omega)]
    rw [close, Progress.resume, ih (fun g hg => h g (List.mem_cons_of_mem _ hg)) _ (by omega),
      List.reverse_cons, List.append_assoc, List.singleton_append]

theorem readFrom_scalar {frames : List Frame} {expect : Expectation} {t : Token} {v : Json}
    (hexpect : expect = .value ∨ expect = .firstItem) (ht : t = .scalar v) (ts : List Token) :
    readFrom limit ⟨frames, expect⟩ (t :: ts) = (close frames v).resume limit ts := by
  subst ht
  exact readFrom_cons (advance_eq_startValue hexpect (by simp)) ts

/-- A value is read from its tokens, inside anything that is open. -/
theorem readsFromTokens (v : Json) : ReadsFromTokens limit v := by
  induction v using Json.induction with
  | null | bool | int | float => exact fun _ _ ts hexpect _ => readFrom_scalar hexpect rfl ts
  | string x =>
    intro frames expect ts hexpect _
    exact readFrom_cons (advance_eq_startValue hexpect (by simp)) ts
  | array vs ih =>
    intro frames expect ts hexpect hdepth
    rw [depth] at hdepth
    have hopen : advance limit ⟨frames, expect⟩ .openArray =
        .ok (.inside ⟨.array [] :: frames, .firstItem⟩) := by
      rw [advance_eq_startValue hexpect (by simp), startValue, openFrame, if_pos (by omega)]
    cases vs with
    | nil =>
      rw [tokens, List.cons_append, readFrom_cons hopen, Progress.resume]
      exact readFrom_cons rfl ts
    | cons v vs =>
      rw [depthItems] at hdepth
      rw [tokens, List.cons_append, List.append_assoc, List.append_assoc, readFrom_cons hopen,
        Progress.resume, ih v List.mem_cons_self _ _ _ (.inr rfl)
          (by rw [List.length_cons]; omega), close, Progress.resume]
      exact readFrom_itemTokens (fun w hw => ih w (List.mem_cons_of_mem _ hw)) [v] frames ts
        (by omega)
  | object fs ih =>
    intro frames expect ts hexpect hdepth
    rw [depth] at hdepth
    have hopen : advance limit ⟨frames, expect⟩ .openObject =
        .ok (.inside ⟨.object [] :: frames, .firstKey⟩) := by
      rw [advance_eq_startValue hexpect (by simp), startValue, openFrame, if_pos (by omega)]
    cases fs with
    | nil =>
      rw [tokens, List.cons_append, readFrom_cons hopen, Progress.resume]
      exact readFrom_cons rfl ts
    | cons f fs =>
      obtain ⟨k, v⟩ := f
      rw [depthFields] at hdepth
      rw [tokens, List.cons_append, List.cons_append, List.cons_append, List.append_assoc,
        List.append_assoc, readFrom_cons hopen, Progress.resume, readFrom_cons rfl, Progress.resume,
        readFrom_cons rfl, Progress.resume, ih (k, v) List.mem_cons_self _ _ _ (.inl rfl)
          (by rw [List.length_cons]; dsimp only; omega), close, Progress.resume]
      exact readFrom_fieldTokens (fun g hg => ih g (List.mem_cons_of_mem _ hg)) [(k, v)] frames ts
        (by omega)

/-- A value is read from its tokens. -/
theorem readFrom_tokens {v : Json} (h : v.depth ≤ limit) (ts : List Token) :
    readFrom limit .start (v.tokens ++ ts) = .ok (v, ts) :=
  readsFromTokens v [] .value ts (.inl rfl) (by simpa using h)

/-- A value is read from its text. -/
theorem Writable.read_pretty {v : Json} (h : v.Writable) (hdepth : v.depth ≤ limit) :
    read limit v.pretty = .ok v := by
  have hscan := h.scan_pretty Token.cut_nil rfl
  have hread := readFrom_tokens hdepth []
  rw [List.append_nil] at hscan hread
  rw [read, hscan, hread]

end

end Json

end PhpRefactor
