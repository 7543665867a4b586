import PhpRefactor.Syntax.Source

/-!
# Words of source text

Names, integers and quoted strings are cut out of the front of a text: each is read back from what
is written for it, and what stands behind it is left.  A name or an integer ends where a character
comes that does not go on with it; a quoted string ends at its quote, whatever comes then.
-/

set_option autoImplicit false

namespace PhpRefactor

namespace Source

variable {rest : List Char}

/-! ## Characters in front of a text -/

/-- The characters at the front of a text for which a test holds, and the text behind them. -/
def readWhile (test : Char → Bool) (cs : List Char) : List Char × List Char :=
  (cs.takeWhile test, cs.dropWhile test)

theorem readWhile_append {test : Char → Bool} {cs : List Char} (hcs : ∀ c ∈ cs, test c)
    (hrest : ∀ c ∈ rest.head?, test c = false) : readWhile test (cs ++ rest) = (cs, rest) := by
  have hstop : rest.takeWhile test = [] ∧ rest.dropWhile test = rest := by
    cases rest with
    | nil => exact ⟨rfl, rfl⟩
    | cons c rest =>
      have hc := Bool.eq_false_iff.mp (hrest c rfl)
      exact ⟨List.takeWhile_cons_of_neg hc, List.dropWhile_cons_of_neg hc⟩
  rw [readWhile, List.takeWhile_append_of_pos hcs, List.dropWhile_append_of_pos hcs, hstop.1,
    hstop.2, List.append_nil]

/-! ## Names -/

/-- A character that a name can start with.  What is beyond ASCII is as good as a letter. -/
def isNameStart (c : Char) : Bool := c.isAlpha || c = '_' || 0x80 ≤ c.toNat

/-- A character that a name can go on with. -/
def isNameChar (c : Char) : Bool := isNameStart c || c.isDigit

/-- An identifier. -/
def isName : List Char → Bool
  | [] => false
  | c :: cs => isNameStart c && cs.all isNameChar

/-- A character of a class name with its namespaces. -/
def isClassNameChar (c : Char) : Bool := isNameChar c || c = '\\'

/-- Identifiers with backslashes between them. -/
def isClassName (cs : List Char) : Bool := (cs.splitOn '\\').all isName

theorem isNameStart_of_isDigit {c : Char} (h : c.isDigit) : isNameStart c = false := by
  have hc : 48 ≤ c.toNat ∧ c.toNat ≤ 57 := by
    simpa [Char.isDigit, UInt32.le_iff_toNat_le] using h
  have halpha : c.isAlpha = false := by
    have hval : c.val.toNat = c.toNat := rfl
    delta Char.isAlpha Char.isUpper Char.isLower
    simp [UInt32.le_iff_toNat_le, hval]
    omega
  have hline : c ≠ '_' := by
    rintro rfl
    exact absurd h (by decide)
  rw [isNameStart, halpha, decide_eq_false hline, decide_eq_false (by omega)]
  rfl

theorem exists_of_isName {cs : List Char} (h : isName cs) :
    ∃ c ds, cs = c :: ds ∧ isNameStart c := by
  cases cs with
  | nil => exact nomatch h
  | cons c ds => exact ⟨c, ds, rfl, (Bool.and_eq_true_iff.mp h).1⟩

theorem isNameChar_of_mem {cs : List Char} (h : isName cs) : ∀ c ∈ cs, isNameChar c := by
  cases cs with
  | nil => exact nomatch h
  | cons c cs =>
    obtain ⟨hc, hcs⟩ := Bool.and_eq_true_iff.mp h
    exact List.forall_mem_cons.mpr ⟨by rw [isNameChar, hc, Bool.true_or], List.all_eq_true.mp hcs⟩

theorem isClassNameChar_of_mem {cs : List Char} (h : isClassName cs) :
    ∀ c ∈ cs, isClassNameChar c := by
  have hparts : ∀ part ∈ cs.splitOn '\\', ∀ c ∈ part, isClassNameChar c := by
    intro part hpart c hc
    rw [isClassNameChar, isNameChar_of_mem (List.all_eq_true.mp h part hpart) c hc, Bool.true_or]
  have hjoin : ['\\'].intercalate (cs.splitOn '\\') = cs := List.intercalate_splitOn '\\'
  rw [← hjoin]
  generalize cs.splitOn '\\' = parts at hparts
  induction parts with
  | nil => exact nofun
  | cons part parts ih =>
    obtain ⟨hpart, hrest⟩ := List.forall_mem_cons.mp hparts
    cases parts with
    | nil =>
      rw [List.intercalate_singleton]
      exact hpart
    | cons next parts =>
      rw [List.intercalate_cons_cons]
      simp only [List.forall_mem_append]
      exact ⟨⟨hpart, List.forall_mem_singleton.mpr rfl⟩, ih hrest⟩

/-! ## Integers -/

/-- An integer at the front of a text. -/
def readInt (cs : List Char) : Int64 × List Char :=
  match cs with
  | '-' :: cs =>
    let (digits, rest) := readWhile Char.isDigit cs
    (.ofInt (-(Nat.ofDigitChars 10 digits 0)), rest)
  | cs =>
    let (digits, rest) := readWhile Char.isDigit cs
    (.ofInt (Nat.ofDigitChars 10 digits 0), rest)

theorem readInt_append (i : Int64) (hrest : ∀ c ∈ rest.head?, c.isDigit = false) :
    readInt ((toString i.toInt).toList ++ rest) = (i, rest) := by
  have hdigits : ∀ n : Nat, readWhile Char.isDigit (Nat.toDigits 10 n ++ rest) =
      (Nat.toDigits 10 n, rest) := fun n =>
    readWhile_append
      (fun c hc => Nat.isDigit_of_mem_toDigits (by decide) (by decide) hc) hrest
  rw [Int.toString_eq_repr, Int.repr_eq_if]
  split
  · rename_i hpos
    obtain ⟨n, hn⟩ := Int.eq_ofNat_of_zero_le hpos
    have hminus : ∀ cs, Nat.toDigits 10 n ++ rest ≠ '-' :: cs := by
      intro cs hcs
      obtain ⟨c, ds, hds⟩ := List.exists_cons_of_ne_nil (Nat.toDigits_ne_nil (b := 10) (n := n))
      have hc : c.isDigit := Nat.isDigit_of_mem_toDigits (by decide) (by decide)
        (hds ▸ List.mem_cons_self : c ∈ Nat.toDigits 10 n)
      rw [hds, List.cons_append] at hcs
      rw [(List.cons.inj hcs).1] at hc
      exact absurd hc (by decide)
    rw [hn, Int.toNat_natCast, Nat.toList_repr]
    unfold readInt
    split
    · exact absurd ‹_› (hminus _)
    · rw [hdigits]
      dsimp only
      rw [Nat.ofDigitChars_ten_toDigits, ← hn, Int64.ofInt_toInt]
  · rename_i hneg
    obtain ⟨n, hn⟩ : ∃ n : Nat, -i.toInt = n := Int.eq_ofNat_of_zero_le (by omega)
    rw [hn, Int.toNat_natCast, String.toList_append, Nat.toList_repr]
    change readInt ('-' :: (Nat.toDigits 10 n ++ rest)) = _
    rw [readInt, hdigits]
    dsimp only
    rw [Nat.ofDigitChars_ten_toDigits, ← hn, Int.neg_neg, Int64.ofInt_toInt]

/-! ## Quoted strings -/

/-- A string behind its opening quote: backslashes and quotes stand behind a backslash, any other
backslash stands for itself, and the first quote that stands alone ends the string. -/
def readQuoted : List Char → Option (List Char × List Char)
  | [] => none
  | '\'' :: rest => some ([], rest)
  | '\\' :: '\\' :: rest => (readQuoted rest).map fun (cs, rest) => ('\\' :: cs, rest)
  | '\\' :: '\'' :: rest => (readQuoted rest).map fun (cs, rest) => ('\'' :: cs, rest)
  | c :: rest => (readQuoted rest).map fun (cs, rest) => (c :: cs, rest)

theorem readQuoted_escapeChars (cs rest : List Char) :
    readQuoted (escapeChars cs ++ '\'' :: rest) = some (cs, rest) := by
  induction cs with
  | nil => rw [escapeChars, List.nil_append, readQuoted]
  | cons c cs ih =>
    rw [escapeChars]
    by_cases hback : c = '\\'
    · subst hback
      rw [if_pos (.inl rfl), List.cons_append, List.cons_append, readQuoted, ih]
      rfl
    · by_cases hquote : c = '\''
      · subst hquote
        rw [if_pos (.inr rfl), List.cons_append, List.cons_append, readQuoted, ih]
        rfl
      · rw [if_neg (not_or.mpr ⟨hback, hquote⟩), List.cons_append, readQuoted, ih]
        · rfl
        · exact hquote
        · exact fun _ h _ => hback h
        · exact fun _ h _ => hback h

/-- A string at the front of a text, with its quotes. -/
def readString : List Char → Option (List Char × List Char)
  | '\'' :: rest => readQuoted rest
  | _ => none

theorem toList_stringText (s : String) :
    (stringText s).toList = '\'' :: (escapeChars s.toList ++ ['\'']) := by
  change ("'" ++ String.ofList (escapeChars s.toList) ++ "'").toList = _
  simp

/-- A string is read back from what is written for it, and what follows is left. -/
theorem readString_stringText (s : String) (rest : List Char) :
    readString ((stringText s).toList ++ rest) = some (s.toList, rest) := by
  rw [toList_stringText, List.cons_append, readString, List.append_assoc, List.singleton_append,
    readQuoted_escapeChars]

/-- A text with other characters for each occurrence of one. -/
def replaceChar (c : Char) (replacement cs : List Char) : List Char :=
  cs.flatMap fun d => if d = c then replacement else [d]

/-- To escape a text is to double its backslashes and then to put a backslash before each quote;
the other way round the backslashes before quotes would be doubled as well. -/
theorem escapeChars_eq_replaceChar (cs : List Char) :
    escapeChars cs = replaceChar '\'' ['\\', '\''] (replaceChar '\\' ['\\', '\\'] cs) := by
  have happend : ∀ ds es, replaceChar '\'' ['\\', '\''] (ds ++ es) =
      replaceChar '\'' ['\\', '\''] ds ++ replaceChar '\'' ['\\', '\''] es :=
    fun _ _ => List.flatMap_append
  induction cs with
  | nil => rfl
  | cons c cs ih =>
    have hcons : replaceChar '\\' ['\\', '\\'] (c :: cs) =
        (if c = '\\' then ['\\', '\\'] else [c]) ++ replaceChar '\\' ['\\', '\\'] cs :=
      List.flatMap_cons
    rw [hcons, happend, ← ih, escapeChars]
    by_cases hback : c = '\\'
    · subst hback
      rfl
    · by_cases hquote : c = '\''
      · subst hquote
        rfl
      · rw [if_neg (not_or.mpr ⟨hback, hquote⟩), if_neg hback]
        simp [replaceChar, hquote]

end Source

end PhpRefactor
