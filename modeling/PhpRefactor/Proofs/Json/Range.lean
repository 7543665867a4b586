import PhpRefactor.Proofs.Json.Scan
import PhpRefactor.Proofs.Number.Finite

/-!
# Numbers that come from a text

What is scanned is in range: an integer has 64 bits, with a sign or without, and a float is finite.
A spelling that lies beyond is a fault, not a number (`Token.inRange_of_mem_scan`).  The reader
makes up no numbers, so the value of a text is in range as well (`Json.inRange_of_readFrom`).
-/

set_option autoImplicit false

namespace PhpRefactor

/-- The integers of the value have 64 bits, and its floats are finite. -/
inductive Json.InRange : Json → Prop where
  | null : InRange .null
  | bool (b : Bool) : InRange (.bool b)
  | int {n : Int} (h : Token.IntRange n) : InRange (.int n)
  | float {d : Double} (h : d.isFinite) : InRange (.float d)
  | string (x : String) : InRange (.string x)
  | array {vs : List Json} (h : ∀ v ∈ vs, InRange v) : InRange (.array vs)
  | object {fs : List (String × Json)} (h : ∀ f ∈ fs, InRange f.2) : InRange (.object fs)

namespace Token

/-- A scalar is in range; other tokens have no numbers. -/
def InRange (t : Token) : Prop := ∀ v, t = .scalar v → v.InRange

theorem Numeral.inRange_of_value {n : Numeral} {v : Json} (h : n.value = .ok v) : v.InRange := by
  have hpow : Nat.pow 2 64 = 2 ^ 64 := rfl
  have hpow' : Nat.pow 2 63 = 2 ^ 63 := rfl
  unfold Numeral.value at h
  dsimp only at h
  split at h
  · rename_i hwhole
    rw [← Except.ok.inj h]
    simp only [Bool.and_eq_true, decide_eq_true_eq] at hwhole
    refine .int ⟨?_, ?_⟩ <;> omega
  · split at h
    · rename_i hwhole
      rw [← Except.ok.inj h]
      simp only [Bool.and_eq_true, decide_eq_true_eq] at hwhole
      refine .int ⟨?_, ?_⟩ <;> omega
    · split at h
      · rw [← Except.ok.inj h]
        exact .float (Decimal.isFinite_of_scaled? ‹_›)
      · exact absurd h (by simp)

theorem eq_of_readLiteral {value v : Json} {expected s rest : List Char}
    (h : readLiteral value expected s = .ok (v, rest)) : v = value := by
  fun_induction readLiteral value expected s with
  | case1 s => exact (Prod.mk.inj (Except.ok.inj h)).1.symm
  | case2 => exact absurd h (by simp)
  | case3 expected e s ih => exact ih h
  | case4 => exact absurd h (by simp)

/-- What a scalar can be: a literal, or what a numeral is worth. -/
inductive Spelled : Json → Prop where
  | null : Spelled .null
  | bool (b : Bool) : Spelled (.bool b)
  | number {n : Numeral} {v : Json} (h : n.value = .ok v) : Spelled v

theorem spelled_numberToken {negative : Bool} {s : List Char} {v : Json}
    (h : (numberToken negative s).1 = .scalar v) : Spelled v := by
  unfold numberToken at h
  split at h
  · split at h
    · exact Token.scalar.inj h ▸ .number ‹_›
    · exact nomatch h
  · exact nomatch h

theorem spelled_literalToken {value v : Json} {expected s : List Char}
    (h : (literalToken value expected s).1 = .scalar v) (hvalue : Spelled value) : Spelled v := by
  unfold literalToken at h
  split at h
  · rename_i hread
    rwa [← Token.scalar.inj h, eq_of_readLiteral hread]
  · exact nomatch h

theorem spelled_startingWith {c : Char} {s : List Char} {v : Json}
    (h : (startingWith c s).1 = .scalar v) : Spelled v := by
  unfold startingWith at h
  split at h
  case h_7 =>
    unfold stringToken at h
    split at h
    · exact nomatch h
    · split at h <;> exact nomatch h
  case h_8 => exact spelled_numberToken h
  case h_9 => exact spelled_literalToken h .null
  case h_10 => exact spelled_literalToken h (.bool true)
  case h_11 => exact spelled_literalToken h (.bool false)
  case h_12 =>
    split at h
    · exact spelled_numberToken h
    · exact nomatch h
  all_goals exact nomatch h

/-- Every scalar that is scanned is spelled out in the text. -/
theorem spelled_of_mem_scan {s : List Char} {v : Json} (h : scalar v ∈ scan s) : Spelled v := by
  fun_induction scan s with
  | case1 => exact absurd h List.not_mem_nil
  | case2 s first rest hnext ih =>
    rcases List.mem_cons.mp h with rfl | h
    · unfold next? at hnext
      split at hnext
      · exact absurd hnext (by simp)
      · exact spelled_startingWith (congrArg Prod.fst (Option.some.inj hnext))
    · exact ih h

/-- Every scalar that is scanned is in range. -/
theorem inRange_of_mem_scan {s : List Char} {t : Token} (h : t ∈ scan s) : t.InRange := by
  rintro v rfl
  cases spelled_of_mem_scan h with
  | null => exact .null
  | bool b => exact .bool b
  | number hv => exact Numeral.inRange_of_value hv

end Token

namespace Json

/-- What an open array or object holds so far is in range. -/
def Frame.InRange : Frame → Prop
  | .array items => ∀ v ∈ items, v.InRange
  | .object fields | .member fields _ => ∀ f ∈ fields, f.2.InRange

def Progress.InRange : Progress → Prop
  | .inside cursor => ∀ frame ∈ cursor.frames, frame.InRange
  | .complete v => v.InRange

theorem inRange_close {frames : List Frame} {v : Json} (hframes : ∀ frame ∈ frames, frame.InRange)
    (hv : v.InRange) : (close frames v).InRange := by
  have hcons : ∀ (f g : Frame) (fs : List Frame), (∀ frame ∈ f :: fs, frame.InRange) →
      (f.InRange → g.InRange) → ∀ frame ∈ g :: fs, frame.InRange := by
    intro f g fs hfs hfg
    rw [List.forall_mem_cons] at hfs ⊢
    exact ⟨hfg hfs.1, hfs.2⟩
  unfold close
  split
  · exact hcons _ _ _ hframes fun h => List.forall_mem_cons.mpr ⟨hv, h⟩
  · exact hcons _ _ _ hframes fun h => List.forall_mem_cons.mpr ⟨hv, h⟩
  · exact hframes
  · exact hv

section

variable {limit : Nat} {frames : List Frame} {progress : Progress} {t : Token}

theorem inRange_openFrame {frame : Frame} {expect : Expectation}
    (h : openFrame limit frames frame expect = .ok progress) (hframes : ∀ f ∈ frames, f.InRange)
    (hframe : frame.InRange) : progress.InRange := by
  rw [openFrame] at h
  split at h
  · rw [← Except.ok.inj h]
    exact List.forall_mem_cons.mpr ⟨hframe, hframes⟩
  · exact absurd h (by simp)

theorem inRange_startValue (h : startValue limit frames t = .ok progress)
    (hframes : ∀ f ∈ frames, f.InRange) (ht : t.InRange) : progress.InRange := by
  unfold startValue at h
  split at h
  · rw [← Except.ok.inj h]
    exact inRange_close hframes (ht _ rfl)
  · rw [← Except.ok.inj h]
    exact inRange_close hframes (.string _)
  · exact inRange_openFrame h hframes (fun _ hv => absurd hv List.not_mem_nil)
  · exact inRange_openFrame h hframes (fun _ hv => absurd hv List.not_mem_nil)
  · exact absurd h (by simp)
  · exact absurd h (by simp)

theorem inRange_advance {cursor : Cursor} (h : advance limit cursor t = .ok progress)
    (hframes : ∀ frame ∈ cursor.frames, frame.InRange) (ht : t.InRange) : progress.InRange := by
  obtain ⟨frames, expect⟩ := cursor
  unfold advance at h
  dsimp only at h hframes
  split at h
  case h_2 | h_4 => exact inRange_startValue h hframes ht
  case h_3 | h_5 =>
    -- Something opened and closed at once is empty.
    rw [← Except.ok.inj h]
    refine inRange_close (List.forall_mem_cons.mp hframes).2 ?_
    constructor
    exact fun _ hv => absurd hv List.not_mem_nil
  case h_7 | h_8 =>
    obtain ⟨hfields, hframes⟩ := List.forall_mem_cons.mp hframes
    rw [← Except.ok.inj h]
    exact List.forall_mem_cons.mpr ⟨hfields, hframes⟩
  case h_9 | h_10 | h_12 =>
    rw [← Except.ok.inj h]
    exact hframes
  case h_11 =>
    obtain ⟨hitems, hframes⟩ := List.forall_mem_cons.mp hframes
    rw [← Except.ok.inj h]
    exact inRange_close hframes (.array fun v hv => hitems v (List.mem_reverse.mp hv))
  case h_13 =>
    obtain ⟨hfields, hframes⟩ := List.forall_mem_cons.mp hframes
    rw [← Except.ok.inj h]
    exact inRange_close hframes (.object fun f hf => hfields f (List.mem_reverse.mp hf))
  all_goals exact absurd h (by simp)

end

/-- A value that is read from tokens in range is in range, and what is left are some of them. -/
theorem inRange_of_readFrom {limit : Nat} {cursor : Cursor} {ts rest : List Token} {v : Json}
    (h : readFrom limit cursor ts = .ok (v, rest)) (hts : ∀ t ∈ ts, t.InRange)
    (hframes : ∀ frame ∈ cursor.frames, frame.InRange) : v.InRange ∧ rest ⊆ ts := by
  induction ts generalizing cursor with
  | nil => exact absurd h (by simp [readFrom])
  | cons t ts ih =>
    obtain ⟨ht, hts⟩ := List.forall_mem_cons.mp hts
    rw [readFrom] at h
    split at h
    · exact absurd h (by simp)
    · rename_i next hadvance
      have hcursor := inRange_advance hadvance hframes ht
      obtain ⟨hv, hrest⟩ := ih h hts hcursor
      exact ⟨hv, List.subset_cons_of_subset t hrest⟩
    · rename_i w hadvance
      have hw := inRange_advance hadvance hframes ht
      obtain ⟨rfl, rfl⟩ := Prod.mk.inj (Except.ok.inj h)
      exact ⟨hw, List.subset_cons_self t ts⟩

end Json

end PhpRefactor
