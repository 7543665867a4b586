import PhpRefactor.Json.Reader
import PhpRefactor.Json.Writer
import Mathlib.Data.List.TakeWhile
import Mathlib.Algebra.Ring.Int.Defs
import Mathlib.Algebra.Ring.Nat

/-!
# Scanning what is written

The writer puts a scalar down as one token, and the scanner cuts this token out again, whatever
stands behind it.  A string ends with its quote.  A number or a literal ends where the text does, or
before a character that cannot go on with a number (`Token.Cut`), and every text that the writer
puts behind a value begins with such a character.

Whether a float is read back exactly is a matter of two roundings, and not true of all of them.  It
is a property of the number here (`Double.ReadsBack`), and only of the text of the number on its
own: what stands behind it does not matter.
-/

set_option autoImplicit false

namespace PhpRefactor

open Json (escapeChar hexDigit newLine quote)

/-- The text of the number, read on its own, is the number. -/
def Double.ReadsBack (d : Double) : Prop := Json.read 0 (Json.pretty (.float d)) = .ok (.float d)

namespace Token

/-! ## Strings -/

theorem hexDigit?_hexDigit {n : Nat} (h : n < 16) : hexDigit? (hexDigit n) = some n := by
  revert n
  decide

/-- The four digits that are written for a control character. -/
theorem hexQuad?_of_control {c : Char} (h : c.toNat < 0x20) :
    hexQuad? '0' '0' (hexDigit (c.toNat / 16)) (hexDigit (c.toNat % 16)) = some c.toNat := by
  have hzero : hexDigit? '0' = some 0 := by decide
  rw [hexQuad?, hexDigit?_hexDigit (by omega), hexDigit?_hexDigit (by omega), hzero]
  simp only [Option.bind_eq_bind, Option.bind_some, Option.pure_def, Option.some.injEq]
  omega

theorem readString_of_plain {c : Char} (hquote : c ≠ '"') (hescape : c ≠ '\\')
    (hplain : ¬ c.toNat < 0x20) (rest : List Char) :
    readString (c :: rest) = (readString rest).apply (c :: ·) := by
  rw [readString, if_neg hplain]
  · exact hquote
  · exact fun _ _ _ _ _ h _ => hescape h
  · exact fun _ _ h _ => hescape h
  · exact fun h _ => hescape h

theorem readString_of_control {c : Char} (h : c.toNat < 0x20) (rest : List Char) :
    readString ('\\' :: 'u' :: '0' :: '0' :: hexDigit (c.toNat / 16) :: hexDigit (c.toNat % 16) ::
      rest) = (readString rest).apply (c :: ·) := by
  have hhigh : isHighSurrogate c.toNat = false := by
    simp only [isHighSurrogate, Bool.and_eq_false_iff, decide_eq_false_iff_not]
    omega
  have hlow : isLowSurrogate c.toNat = false := by
    simp only [isLowSurrogate, Bool.and_eq_false_iff, decide_eq_false_iff_not]
    omega
  simp [readString, hexQuad?_of_control h, hhigh, hlow]

/-- A character is read as it was written. -/
theorem readString_escapeChar (c : Char) (rest : List Char) :
    readString (escapeChar c ++ rest) = (readString rest).apply (c :: ·) := by
  by_cases hnamed :
      c = '"' ∨ c = '\\' ∨ c = '\x08' ∨ c = '\t' ∨ c = '\n' ∨ c = '\x0c' ∨ c = '\r'
  · rcases hnamed with rfl | rfl | rfl | rfl | rfl | rfl | rfl <;> rw [readString.eq_def] <;> rfl
  · simp only [not_or] at hnamed
    obtain ⟨hquote, hescape, hb, ht, hn, hf, hr⟩ := hnamed
    rw [escapeChar, if_neg hquote, if_neg hescape, if_neg hb, if_neg ht, if_neg hn, if_neg hf,
      if_neg hr]
    split
    · exact readString_of_control ‹_› rest
    · exact readString_of_plain hquote hescape ‹_› rest

theorem readString_flatMap_escapeChar (cs rest : List Char) :
    readString (cs.flatMap escapeChar ++ '"' :: rest) = .ok (cs, rest) := by
  induction cs with
  | nil => rw [List.flatMap_nil, List.nil_append, readString]
  | cons c cs ih =>
    rw [List.flatMap_cons, List.append_assoc, readString_escapeChar, ih]
    rfl

/-! ## Where a number ends -/

/-- A text that does not go on with a number that stands before it. -/
def Cut (rest : List Char) : Prop :=
  ∀ c ∈ rest.head?, c.isDigit = false ∧ c ≠ '.' ∧ c ≠ 'e' ∧ c ≠ 'E'

theorem cut_nil : Cut [] := by simp [Cut]

theorem cut_cons {c : Char} (h : c.isDigit = false ∧ c ≠ '.' ∧ c ≠ 'e' ∧ c ≠ 'E')
    (rest : List Char) : Cut (c :: rest) := by
  simpa [Cut] using h

section

variable {rest : List Char} (hcut : Cut rest)

include hcut

theorem Cut.takeWhile_isDigit : rest.takeWhile Char.isDigit = [] := by
  cases rest with
  | nil => rfl
  | cons c cs => simp [(hcut c rfl).1]

theorem leadingDigits_append (s : List Char) :
    leadingDigits (s ++ rest) = leadingDigits s := by
  rw [leadingDigits, List.takeWhile_append, hcut.takeWhile_isDigit, List.append_nil]
  split
  · rename_i hall
    rw [leadingDigits, (List.takeWhile_prefix _).eq_of_length hall]
  · rfl

theorem afterDigits_append (s : List Char) :
    afterDigits (s ++ rest) = afterDigits s ++ rest := by
  have hrest : rest.dropWhile Char.isDigit = rest := by
    have hsplit := rest.takeWhile_append_dropWhile (p := Char.isDigit)
    rwa [hcut.takeWhile_isDigit, List.nil_append] at hsplit
  rw [afterDigits, List.dropWhile_append, hrest]
  split
  · rename_i hempty
    rw [afterDigits, List.isEmpty_iff.mp hempty, List.nil_append]
  · rfl

theorem readDigits_append {s after : List Char} {ds : List Nat}
    (h : readDigits s = .ok (ds, after)) : readDigits (s ++ rest) = .ok (ds, after ++ rest) := by
  cases s with
  | nil => simp [readDigits] at h
  | cons c cs =>
    have hmore := leadingDigits_append hcut (c :: cs)
    have hafter := afterDigits_append hcut (c :: cs)
    rw [List.cons_append] at hmore hafter
    simp only [readDigits, List.cons_append, hmore, hafter] at h ⊢
    split at h
    · simp at h
    · rw [if_neg ‹_›]
      obtain ⟨rfl, rfl⟩ := Prod.mk.inj (Except.ok.inj h)
      rfl

theorem readFraction_append {s after : List Char} {ds : List Nat}
    (h : readFraction s = .ok (ds, after)) :
    readFraction (s ++ rest) = .ok (ds, after ++ rest) := by
  unfold readFraction at h
  split at h
  · exact readDigits_append hcut h
  · obtain ⟨rfl, rfl⟩ := Prod.mk.inj (Except.ok.inj h)
    rename_i hpoint
    unfold readFraction
    split
    · rename_i tail heq
      cases s with
      | nil => exact absurd rfl (hcut '.' (by rw [← List.nil_append rest, heq]; rfl)).2.1
      | cons c cs => exact absurd (congrArg (· :: cs) (List.cons.inj heq).1) (hpoint cs)
    · rfl

theorem readExponent_append {s after : List Char} {e : Option Int}
    (h : readExponent s = .ok (e, after)) :
    readExponent (s ++ rest) = .ok (e, after ++ rest) := by
  cases s with
  | nil =>
    obtain ⟨rfl, rfl⟩ := Prod.mk.inj (Except.ok.inj h)
    cases rest with
    | nil => rfl
    | cons c cs =>
      have hc := hcut c rfl
      rw [List.nil_append, readExponent, if_neg (by simp [hc.2.2.1, hc.2.2.2])]
  | cons c cs =>
    rw [List.cons_append]
    rw [readExponent] at h ⊢
    split at h
    · rw [if_pos ‹_›]
      obtain ⟨digits, hdigits, rfl⟩ := Reading.of_apply h
      have hsign : takeSign (cs ++ rest) = ((takeSign cs).1, (takeSign cs).2 ++ rest) := by
        cases cs with
        | nil => simp [takeSign, readDigits] at hdigits
        | cons c' cs =>
          by_cases hminus : c' = '-'
          · subst hminus
            rfl
          · by_cases hplus : c' = '+'
            · subst hplus
              rfl
            · rw [List.cons_append]
              unfold takeSign
              split <;> simp_all
      rw [hsign, readDigits_append hcut hdigits]
      rfl
    · rw [if_neg ‹_›]
      obtain ⟨rfl, rfl⟩ := Prod.mk.inj (Except.ok.inj h)
      rfl

theorem readNumeral_append {negative : Bool} {s after : List Char} {n : Numeral}
    (h : readNumeral negative s = .ok (n, after)) :
    readNumeral negative (s ++ rest) = .ok (n, after ++ rest) := by
  unfold readNumeral at h ⊢
  split at h
  · simp at h
  · rename_i whole behind hwhole
    rw [readDigits_append hcut hwhole]
    dsimp only
    split at h
    · simp at h
    · rw [if_neg ‹_›]
      split at h
      · simp at h
      · rename_i fraction behind' hfraction
        rw [readFraction_append hcut hfraction]
        dsimp only
        obtain ⟨exponent, hexponent, rfl⟩ := Reading.of_apply h
        rw [readExponent_append hcut hexponent]
        rfl

theorem numberToken_append {negative : Bool} {s after : List Char} {v : Json}
    (h : numberToken negative s = (.scalar v, after)) :
    numberToken negative (s ++ rest) = (.scalar v, after ++ rest) := by
  unfold numberToken at h ⊢
  split at h
  · rename_i n behind hnumeral
    rw [readNumeral_append hcut hnumeral]
    dsimp only
    split at h
    · obtain ⟨hv, rfl⟩ := Prod.mk.inj h
      rw [hv]
    · exact absurd (Prod.mk.inj h).1 (by simp)
  · exact absurd (Prod.mk.inj h).1 (by simp)

end

/-! ## Tokens -/

theorem next?_of_blank {c : Char} (h : isBlank c = true) (s : List Char) :
    next? (c :: s) = next? s := by
  rw [next?, next?, List.dropWhile_cons_of_pos h]

theorem next?_of_not_blank {c : Char} (h : isBlank c = false) (s : List Char) :
    next? (c :: s) = some (startingWith c s) := by
  rw [next?, List.dropWhile_cons_of_neg (by simp [h])]

theorem scan_of_next?_eq_some {s rest : List Char} {t : Token} (h : next? s = some (t, rest)) :
    scan s = t :: scan rest := by
  rw [scan]
  split
  · rename_i heq
    rw [h] at heq
    exact absurd heq (by simp)
  · rename_i heq
    rw [h] at heq
    obtain ⟨rfl, rfl⟩ := Prod.mk.inj (Option.some.inj heq)
    rfl

theorem scan_eq_nil_iff {s : List Char} : scan s = [] ↔ next? s = none := by
  cases h : next? s with
  | none =>
    rw [scan]
    split
    · simp
    · rename_i heq
      rw [h] at heq
      exact absurd heq (by simp)
  | some p =>
    rw [scan_of_next?_eq_some h]
    simp

theorem scan_nil : scan [] = [] := scan_eq_nil_iff.mpr rfl

theorem scan_of_blank {c : Char} (h : isBlank c = true) (s : List Char) :
    scan (c :: s) = scan s := by
  cases hnext : next? s with
  | none =>
    rw [scan_eq_nil_iff.mpr hnext, scan_eq_nil_iff, next?_of_blank h, hnext]
  | some p =>
    rw [scan_of_next?_eq_some hnext]
    exact scan_of_next?_eq_some ((next?_of_blank h s).trans hnext)

theorem scan_of_not_blank {c : Char} (h : isBlank c = false) (s : List Char) :
    scan (c :: s) = (startingWith c s).1 :: scan (startingWith c s).2 :=
  scan_of_next?_eq_some (next?_of_not_blank h s)

section

variable (s : List Char)

theorem scan_openArray : scan ('[' :: s) = .openArray :: scan s := scan_of_not_blank rfl s

theorem scan_closeArray : scan (']' :: s) = .closeArray :: scan s := scan_of_not_blank rfl s

theorem scan_openObject : scan ('\x7b' :: s) = .openObject :: scan s := scan_of_not_blank rfl s

theorem scan_closeObject : scan ('\x7d' :: s) = .closeObject :: scan s := scan_of_not_blank rfl s

theorem scan_colon : scan (':' :: s) = .colon :: scan s := scan_of_not_blank rfl s

theorem scan_comma : scan (',' :: s) = .comma :: scan s := scan_of_not_blank rfl s

end

/-- Nothing but blanks is no token. -/
theorem scan_append_of_blanks {s : List Char} (h : s.dropWhile isBlank = []) (rest : List Char) :
    scan (s ++ rest) = scan rest := by
  induction s with
  | nil => rfl
  | cons c s ih =>
    by_cases hc : isBlank c = true
    · rw [List.dropWhile_cons_of_pos hc] at h
      rw [List.cons_append, scan_of_blank hc, ih h]
    · rw [List.dropWhile_cons_of_neg hc] at h
      exact absurd h (by simp)

theorem scan_newLine (indent : Nat) (rest : List Char) :
    scan ((newLine indent).toList ++ rest) = scan rest := by
  refine scan_append_of_blanks ?_ rest
  rw [newLine, String.toList_ofList, List.dropWhile_eq_nil_iff]
  intro c hc
  rcases List.mem_cons.mp hc with rfl | hc
  · rfl
  · rw [List.eq_of_mem_replicate hc]
    rfl

theorem scan_quote (x : String) (rest : List Char) :
    scan ((quote x).toList ++ rest) = .string x :: scan rest := by
  have htoken : startingWith '"' (x.toList.flatMap escapeChar ++ '"' :: rest) =
      (.string x, rest) := by
    change stringToken _ = _
    rw [stringToken, readString_flatMap_escapeChar]
    simp
  rw [quote, String.toList_ofList]
  simp only [List.cons_append, List.append_assoc, List.nil_append]
  rw [scan_of_not_blank rfl, htoken]

/-! ## Literals -/

/-- A literal is cut out wherever it stands. -/
theorem readLiteral_append {value v : Json} {expected s after : List Char}
    (h : readLiteral value expected s = .ok (v, after)) (rest : List Char) :
    readLiteral value expected (s ++ rest) = .ok (v, after ++ rest) := by
  fun_induction readLiteral value expected s with
  | case1 s =>
    obtain ⟨rfl, rfl⟩ := Prod.mk.inj (Except.ok.inj h)
    rfl
  | case2 => exact absurd h (by simp)
  | case3 expected c s ih =>
    rw [List.cons_append, readLiteral, if_pos rfl]
    exact ih h
  | case4 => exact absurd h (by simp)

theorem literalToken_append {value v : Json} {expected s after : List Char}
    (h : literalToken value expected s = (.scalar v, after)) (rest : List Char) :
    literalToken value expected (s ++ rest) = (.scalar v, after ++ rest) := by
  unfold literalToken at h ⊢
  split at h
  · obtain ⟨hv, rfl⟩ := Prod.mk.inj h
    rename_i w behind hread
    rw [readLiteral_append hread]
    exact congrArg (·, behind ++ rest) hv
  · exact absurd (Prod.mk.inj h).1 (by simp)

/-! ## Integers -/

theorem leadingDigits_toDigits (n : Nat) :
    leadingDigits (Nat.toDigits 10 n) = (Nat.toDigits 10 n).map digitValue := by
  rw [leadingDigits, List.takeWhile_eq_self_iff.mpr]
  exact fun c hc => Nat.isDigit_of_mem_toDigits (by decide) (by decide) hc

theorem digitsToNat_toDigits (n : Nat) :
    Decimal.digitsToNat 0 ((Nat.toDigits 10 n).map digitValue) = n := by
  have hfold : Nat.ofDigitChars 10 (Nat.toDigits 10 n) 0 = _ := Nat.ofDigitChars_eq_foldl
  rw [Nat.ofDigitChars_ten_toDigits] at hfold
  rw [Decimal.digitsToNat, List.foldl_map]
  simp only [digitValue, Nat.mul_comm _ 10]
  exact hfold.symm

/-- Only zero begins with the digit zero. -/
theorem head?_toDigits_ne_zero {n : Nat} (h : 0 < n) :
    ((Nat.toDigits 10 n).map digitValue).head? ≠ some 0 := by
  induction n using Nat.strongRecOn with
  | ind n ih =>
    by_cases hsmall : n < 10
    · rw [Nat.toDigits_of_lt_base hsmall]
      simp [digitValue, Nat.toNat_digitChar_of_lt_ten hsmall]
      omega
    · have hrest := ih (n / 10) (by omega) (by omega)
      rw [Nat.toDigits_of_base_le (by decide) (by omega)]
      cases hdigits : Nat.toDigits 10 (n / 10) with
      | nil => exact absurd hdigits Nat.toDigits_ne_nil
      | cons c cs =>
        rw [hdigits] at hrest
        exact hrest

theorem readNumeral_toDigits (negative : Bool) (n : Nat) :
    readNumeral negative (Nat.toDigits 10 n) =
      .ok (⟨negative, (Nat.toDigits 10 n).map digitValue, [], none⟩, []) := by
  have hafter : afterDigits (Nat.toDigits 10 n) = [] := by
    rw [afterDigits, List.dropWhile_eq_nil_iff]
    exact fun c hc => Nat.isDigit_of_mem_toDigits (by decide) (by decide) hc
  have hread : readDigits (Nat.toDigits 10 n) =
      .ok ((Nat.toDigits 10 n).map digitValue, []) := by
    unfold readDigits
    split
    · exact absurd ‹_› Nat.toDigits_ne_nil
    · rw [leadingDigits_toDigits, if_neg (by simp [Nat.toDigits_ne_nil]), hafter]
  rw [readNumeral, hread]
  dsimp only
  rw [if_neg]
  · rfl
  · rintro ⟨hlength, hhead⟩
    refine head?_toDigits_ne_zero ?_ hhead
    rw [Nat.pos_iff_ne_zero]
    rintro rfl
    exact hlength rfl

/-- The integers that a document has as integers. -/
def IntRange (n : Int) : Prop := -2 ^ 63 ≤ n ∧ n < 2 ^ 64

theorem numberToken_toDigits {n : Nat} (h : n < 2 ^ 64) :
    numberToken false (Nat.toDigits 10 n) = (.scalar (.int n), []) := by
  have hlt : n < Nat.pow 2 64 := h
  simp [numberToken, readNumeral_toDigits, Numeral.value, digitsToNat_toDigits, hlt]

theorem numberToken_toDigits_negative {n : Nat} (hpos : 0 < n) (h : n ≤ 2 ^ 63) :
    numberToken true (Nat.toDigits 10 n) = (.scalar (.int (-n)), []) := by
  have hle : n ≤ Nat.pow 2 63 := h
  simp [numberToken, readNumeral_toDigits, Numeral.value, digitsToNat_toDigits, hpos, hle]

theorem startingWith_of_isDigit {c : Char} (h : c.isDigit = true) (rest : List Char) :
    startingWith c rest = numberToken false (c :: rest) := by
  unfold startingWith
  split
  case h_12 => rw [if_pos h]
  all_goals exact absurd h (by decide)

theorem scan_toString {n : Int} (h : IntRange n) :
    scan (toString n).toList = [.scalar (.int n)] := by
  rw [Int.toString_eq_repr, Int.repr_eq_if]
  split
  · rename_i hpos
    obtain ⟨k, rfl⟩ := Int.eq_ofNat_of_zero_le hpos
    have hk : k < 2 ^ 64 := by exact_mod_cast h.2
    rw [Int.toNat_natCast, Nat.toList_repr]
    cases hdigits : Nat.toDigits 10 k with
    | nil => exact absurd hdigits Nat.toDigits_ne_nil
    | cons c cs =>
      have hc : c.isDigit = true :=
        Nat.isDigit_of_mem_toDigits (by decide) (by decide)
          (hdigits ▸ List.mem_cons_self : c ∈ Nat.toDigits 10 k)
      have hblank : isBlank c = false := by
        by_contra hblank
        rw [Bool.not_eq_false, isBlank] at hblank
        simp only [Bool.or_eq_true, decide_eq_true_eq] at hblank
        rcases hblank with ((rfl | rfl) | rfl) | rfl <;> exact absurd hc (by decide)
      have htoken := numberToken_toDigits hk
      rw [hdigits] at htoken
      rw [scan_of_not_blank hblank, startingWith_of_isDigit hc, htoken]
      exact congrArg _ scan_nil
  · rename_i hneg
    obtain ⟨k, hk⟩ : ∃ k : Nat, -n = k := Int.eq_ofNat_of_zero_le (by omega)
    obtain rfl : n = -k := by omega
    have htoken : startingWith '-' (Nat.toDigits 10 k) = (.scalar (.int (-k)), []) :=
      numberToken_toDigits_negative (by omega) (by have := h.1; omega)
    rw [Int.neg_neg, Int.toNat_natCast, String.toList_append, Nat.toList_repr]
    change scan ('-' :: Nat.toDigits 10 k) = _
    rw [scan_of_not_blank rfl, htoken]
    exact congrArg _ scan_nil

/-! ## Any scalar -/

/-- A literal or number is cut out in front of any text that does not go on with it. -/
theorem startingWith_append {c : Char} {s after rest : List Char} {v : Json} (hcut : Cut rest)
    (h : startingWith c s = (.scalar v, after)) :
    startingWith c (s ++ rest) = (.scalar v, after ++ rest) := by
  unfold startingWith at h ⊢
  split at h
  case h_7 =>
    unfold stringToken at h
    split at h
    · exact absurd (Prod.mk.inj h).1 (by simp)
    · split at h <;> exact absurd (Prod.mk.inj h).1 (by simp)
  case h_8 => exact numberToken_append hcut h
  case h_9 | h_10 | h_11 => exact literalToken_append h rest
  case h_12 =>
    split at h
    · rw [if_pos ‹_›]
      exact numberToken_append hcut h
    · exact absurd (Prod.mk.inj h).1 (by simp)
  all_goals exact absurd (Prod.mk.inj h).1 (by simp)

theorem scan_null : scan "null".toList = [.scalar .null] := by
  refine (scan_of_not_blank (c := 'n') rfl _).trans ?_
  exact congrArg _ scan_nil

theorem scan_bool (b : Bool) : scan (Json.scalarText (.bool b)).toList = [.scalar (.bool b)] := by
  cases b
  · refine (scan_of_not_blank (c := 'f') rfl _).trans ?_
    exact congrArg _ scan_nil
  · refine (scan_of_not_blank (c := 't') rfl _).trans ?_
    exact congrArg _ scan_nil

/-- A text that is one scalar is one scalar in front of other texts as well. -/
theorem scan_append_of_scalar {s rest : List Char} {v : Json} (hcut : Cut rest)
    (h : scan s = [.scalar v]) : scan (s ++ rest) = .scalar v :: scan rest := by
  induction s with
  | nil => exact absurd h (by simp [scan_nil])
  | cons c s ih =>
    by_cases hc : isBlank c = true
    · rw [scan_of_blank hc] at h
      rw [List.cons_append, scan_of_blank hc, ih h]
    · rw [Bool.not_eq_true] at hc
      rw [scan_of_not_blank hc] at h
      obtain ⟨htoken, hbehind⟩ := List.cons.inj h
      have hsplit : startingWith c s = (.scalar v, (startingWith c s).2) := Prod.ext htoken rfl
      -- No token follows, so whatever is left of the text is blank.
      have hblanks : ((startingWith c s).2).dropWhile isBlank = [] := by
        rw [scan_eq_nil_iff, next?] at hbehind
        split at hbehind
        · assumption
        · exact absurd hbehind (by simp)
      rw [List.cons_append, scan_of_not_blank hc, startingWith_append hcut hsplit,
        scan_append_of_blanks hblanks]

theorem scan_of_readsBack {d : Double} (h : d.ReadsBack) :
    scan (Json.pretty (.float d)).toList = [.scalar (.float d)] := by
  unfold Double.ReadsBack Json.read at h
  cases htokens : scan (Json.pretty (.float d)).toList with
  | nil =>
    rw [htokens] at h
    exact absurd h (by simp [Json.readFrom])
  | cons t ts =>
    rw [htokens] at h
    cases t with
    | scalar v =>
      simp only [Json.readFrom, Json.Cursor.start, Json.advance, Json.startValue, Json.close] at h
      cases ts with
      | nil => rw [Except.ok.inj h]
      | cons t ts => exact absurd h (by simp)
    | string x =>
      simp only [Json.readFrom, Json.Cursor.start, Json.advance, Json.startValue, Json.close] at h
      cases ts <;> exact absurd h (by simp)
    | _ =>
      exact absurd h (by
        simp [Json.readFrom, Json.Cursor.start, Json.advance, Json.startValue, Json.openFrame])

end Token

end PhpRefactor
