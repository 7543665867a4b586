import PhpRefactor.Json.Skip
import PhpRefactor.Proofs.Json.Range
import PhpRefactor.Proofs.Json.Tokens

/-!
# How deep a text is nested

The nesting of a text is read off its brackets (`Json.nesting`): it is the greatest number of them
that are open at once.  A value that is read off the front of the tokens is no deeper than that, and
behind it as many brackets are open as before it (`Json.under_readFrom`); so it is behind a value
that is passed over (`Json.under_skip`).

A value that is nested too deep for the reader is refused, whatever stands behind it
(`Json.readFrom_tooDeep`).
-/

set_option autoImplicit false

namespace PhpRefactor

namespace Token

/-- How many brackets are open behind a token. -/
def opens (opened : Nat) : Token → Nat
  | .openArray | .openObject => opened + 1
  | .closeArray | .closeObject => opened - 1
  | _ => opened

/-- The greatest number of brackets that are open at once, `opened` of them in front. -/
def height (opened : Nat) : List Token → Nat
  | [] => opened
  | t :: ts => max opened (height (t.opens opened) ts)

theorem le_height (opened : Nat) (ts : List Token) : opened ≤ height opened ts := by
  cases ts with
  | nil => exact Nat.le_refl _
  | cons t ts => exact Nat.le_max_left _ _

/-- A token holds no array and no object. -/
def Flat (t : Token) : Prop := ∀ v, t = .scalar v → v.depth = 0

theorem Numeral.depth_of_value {n : Numeral} {v : Json} (h : n.value = .ok v) : v.depth = 0 := by
  unfold Numeral.value at h
  dsimp only at h
  split at h
  · exact Except.ok.inj h ▸ rfl
  · split at h
    · exact Except.ok.inj h ▸ rfl
    · split at h
      · exact Except.ok.inj h ▸ rfl
      · exact nomatch h

/-- Arrays and objects come from brackets only. -/
theorem flat_of_mem_scan {s : List Char} {t : Token} (h : t ∈ scan s) : t.Flat := by
  rintro v rfl
  cases spelled_of_mem_scan h with
  | null | bool => rfl
  | number hv => exact Numeral.depth_of_value hv

/-- No more than `H` brackets are open at once, `opened` of them in front. -/
structure Under (H opened : Nat) (ts : List Token) : Prop where
  flat : ∀ t ∈ ts, t.Flat
  height_le : height opened ts ≤ H

namespace Under

variable {H opened : Nat} {t : Token} {ts : List Token}

theorem opened_le (h : Under H opened ts) : opened ≤ H := (le_height opened ts).trans h.height_le

theorem head (h : Under H opened (t :: ts)) : t.Flat := h.flat t List.mem_cons_self

theorem tail (h : Under H opened (t :: ts)) : Under H (t.opens opened) ts where
  flat u hu := h.flat u (List.mem_cons_of_mem t hu)
  height_le := (Nat.le_max_right _ _).trans h.height_le

end Under

end Token

namespace Json

open Token (Under)

/-- How deep a text is nested. -/
def nesting (text : String) : Nat := Token.height 0 (Token.scan text.toList)

theorem under_nesting (text : String) : Under (nesting text) 0 (Token.scan text.toList) :=
  ⟨fun _ => Token.flat_of_mem_scan, le_rfl⟩

/-! ## Values that are read -/

theorem depth_le_of_mem_fields {fields : List (String × Json)} {f : String × Json}
    (h : f ∈ fields) : f.2.depth ≤ depthFields fields := by
  induction fields with
  | nil => exact absurd h List.not_mem_nil
  | cons g fields ih =>
    obtain ⟨k, v⟩ := g
    rw [depthFields]
    rcases List.mem_cons.mp h with rfl | h
    · exact Nat.le_max_left _ _
    · exact (ih h).trans (Nat.le_max_right _ _)

theorem depthFields_lt_of_forall {fields : List (String × Json)} {d : Nat} (hd : 0 < d)
    (h : ∀ f ∈ fields, f.2.depth < d) : depthFields fields < d := by
  induction fields with
  | nil => exact hd
  | cons f fields ih =>
    obtain ⟨k, v⟩ := f
    obtain ⟨hv, h⟩ := List.forall_mem_cons.mp h
    exact Nat.max_lt.mpr ⟨hv, ih h⟩

theorem depthItems_append (us vs : List Json) :
    depthItems (us ++ vs) = max (depthItems us) (depthItems vs) := by
  induction us with
  | nil => exact (Nat.zero_max _).symm
  | cons u us ih => rw [List.cons_append, depthItems, ih, depthItems, Nat.max_assoc]

theorem depthFields_append (fs gs : List (String × Json)) :
    depthFields (fs ++ gs) = max (depthFields fs) (depthFields gs) := by
  induction fs with
  | nil => exact (Nat.zero_max _).symm
  | cons f fs ih =>
    obtain ⟨k, v⟩ := f
    rw [List.cons_append, depthFields, ih, depthFields, Nat.max_assoc]

theorem depthItems_reverse (vs : List Json) : depthItems vs.reverse = depthItems vs := by
  induction vs with
  | nil => rfl
  | cons v vs ih =>
    rw [List.reverse_cons, depthItems_append, ih, depthItems, depthItems, depthItems, Nat.max_zero,
      Nat.max_comm]

theorem depthFields_reverse (fs : List (String × Json)) :
    depthFields fs.reverse = depthFields fs := by
  induction fs with
  | nil => rfl
  | cons f fs ih =>
    obtain ⟨k, v⟩ := f
    rw [List.reverse_cons, depthFields_append, ih, depthFields, depthFields, depthFields,
      Nat.max_zero, Nat.max_comm]

/-- How deep that is nested which an open array or object holds so far. -/
def Frame.depth : Frame → Nat
  | .array items => depthItems items
  | .object fields | .member fields _ => depthFields fields

/-- What is open holds nothing that reaches beyond `H`; `b` brackets are open around it. -/
def Below (H b : Nat) : List Frame → Prop
  | [] => True
  | f :: frames => b + frames.length + 1 + f.depth ≤ H ∧ Below H b frames

/-- Nothing has reached beyond `H` so far, and nothing does behind. -/
def Progress.Below (H b : Nat) (ts : List Token) : Progress → Prop
  | .inside cursor => Under H (b + cursor.frames.length) ts ∧ Json.Below H b cursor.frames
  | .complete v => Under H b ts ∧ b + v.depth ≤ H

section

variable {limit H b : Nat} {frames : List Frame} {progress : Progress} {t : Token}
  {ts rest : List Token} {v : Json}

theorem below_close (hframes : Below H b frames) (hts : Under H (b + frames.length) ts)
    (hv : b + frames.length + v.depth ≤ H) : (close frames v).Below H b ts := by
  unfold close
  split
  · rename_i fields key frames
    refine ⟨hts, ?_, hframes.2⟩
    have hfields := hframes.1
    simp only [Frame.depth, depthFields, List.length_cons] at hfields hv ⊢
    omega
  · rename_i items frames
    refine ⟨hts, ?_, hframes.2⟩
    have hitems := hframes.1
    simp only [Frame.depth, depthItems, List.length_cons] at hitems hv ⊢
    omega
  · exact ⟨hts, hframes⟩
  · exact ⟨hts, hv⟩

theorem below_openFrame {frame : Frame} {expect : Expectation} (hframes : Below H b frames)
    (h : openFrame limit frames frame expect = .ok progress) (hframe : frame.depth = 0)
    (hts : Under H (b + frames.length + 1) ts) : progress.Below H b ts := by
  rw [openFrame] at h
  split at h
  · rw [← Except.ok.inj h]
    refine ⟨hts, ?_, hframes⟩
    rw [hframe]
    exact hts.opened_le
  · cases h

theorem below_startValue (h : startValue limit frames t = .ok progress)
    (hframes : Below H b frames) (hts : Under H (b + frames.length) (t :: ts)) :
    progress.Below H b ts := by
  unfold startValue at h
  split at h
  · rw [← Except.ok.inj h]
    refine below_close hframes hts.tail ?_
    rw [hts.head _ rfl]
    exact hts.opened_le
  · rw [← Except.ok.inj h]
    exact below_close hframes hts.tail hts.opened_le
  · exact below_openFrame hframes h rfl hts.tail
  · exact below_openFrame hframes h rfl hts.tail
  · exact nomatch h
  · exact nomatch h

/-- A token that the reader takes. -/
theorem below_advance {cursor : Cursor} (h : advance limit cursor t = .ok progress)
    (hframes : Below H b cursor.frames) (hts : Under H (b + cursor.frames.length) (t :: ts)) :
    progress.Below H b ts := by
  obtain ⟨frames, expect⟩ := cursor
  have hopened := hts.opened_le
  unfold advance at h
  dsimp only at h hframes hopened
  split at h
  case h_2 | h_4 => exact below_startValue h hframes hts
  case h_3 | h_5 =>
    -- Something opened and closed at once is empty.
    rw [← Except.ok.inj h]
    exact below_close hframes.2 hts.tail hopened
  case h_7 | h_8 | h_9 | h_10 | h_12 =>
    rw [← Except.ok.inj h]
    exact ⟨hts.tail, hframes⟩
  case h_11 =>
    rw [← Except.ok.inj h]
    have hitems := hframes.1
    refine below_close hframes.2 hts.tail ?_
    rw [depth, depthItems_reverse]
    simp only [Frame.depth] at hitems
    omega
  case h_13 =>
    rw [← Except.ok.inj h]
    have hfields := hframes.1
    refine below_close hframes.2 hts.tail ?_
    rw [depth, depthFields_reverse]
    simp only [Frame.depth] at hfields
    omega
  all_goals cases h

/-- A value that is read is no deeper than the tokens are nested, and behind it as many brackets are
open as before it. -/
theorem under_readFrom {cursor : Cursor} (h : readFrom limit cursor ts = .ok (v, rest))
    (hframes : Below H b cursor.frames) (hts : Under H (b + cursor.frames.length) ts) :
    Under H b rest ∧ b + v.depth ≤ H := by
  induction ts generalizing cursor with
  | nil => cases h
  | cons t ts ih =>
    rw [readFrom] at h
    split at h
    · cases h
    · rename_i next hadvance
      have hnext := below_advance hadvance hframes hts
      exact ih h hnext.2 hnext.1
    · rename_i w hadvance
      obtain ⟨rfl, rfl⟩ := Prod.mk.inj (Except.ok.inj h)
      exact below_advance hadvance hframes hts

/-! ## Values that are passed over -/

/-- How many brackets of the value are open behind a token. -/
def Outline.openedBehind (next : Option Outline) : Nat :=
  next.elim 0 fun outline => outline.opened.length

theorem Outline.openedBehind_close (opened : List Bracket) :
    openedBehind (close opened) = opened.length := by
  cases opened <;> rfl

theorem under_startValue {opened : List Bracket} {next : Option Outline}
    (h : Outline.startValue opened t = .ok next) (hts : Under H (b + opened.length) (t :: ts)) :
    Under H (b + Outline.openedBehind next) ts := by
  have hbehind := hts.tail
  unfold Outline.startValue at h
  split at h
  case h_6 | h_7 => exact nomatch h
  case h_1 | h_2 | h_3 =>
    rw [← Except.ok.inj h, Outline.openedBehind_close]
    exact hbehind
  all_goals
    rw [← Except.ok.inj h]
    exact hbehind

/-- A token that is passed over. -/
theorem under_advance {outline : Outline} {next : Option Outline}
    (h : outline.advance t = .ok next) (hts : Under H (b + outline.opened.length) (t :: ts)) :
    Under H (b + Outline.openedBehind next) ts := by
  obtain ⟨opened, expect⟩ := outline
  have hbehind := hts.tail
  unfold Outline.advance at h
  dsimp only at h hbehind
  split at h
  case h_1 | h_4 | h_12 | h_13 =>
    rw [← Except.ok.inj h, Outline.openedBehind_close]
    exact hbehind
  case h_2 | h_3 => exact under_startValue h hts
  case h_5 | h_6 | h_7 | h_8 | h_9 | h_10 | h_11 =>
    rw [← Except.ok.inj h]
    exact hbehind
  all_goals exact nomatch h

theorem under_skipFrom {outline : Outline} (h : skipFrom outline ts = .ok rest)
    (hts : Under H (b + outline.opened.length) ts) : Under H b rest := by
  induction ts generalizing outline with
  | nil => exact nomatch h
  | cons t ts ih =>
    rw [skipFrom] at h
    split at h
    · exact nomatch h
    · rename_i next hadvance
      have hnext := under_advance hadvance hts
      exact ih h hnext
    · rw [← Except.ok.inj h]
      exact under_advance ‹_› hts

/-- Behind a value that is passed over as many brackets are open as before it. -/
theorem under_skip (h : skip ts = .ok rest) (hts : Under H b ts) : Under H b rest :=
  under_skipFrom h hts

/-! ## Values that are too deep -/

/-- The reader refuses the tokens of the value where they reach beyond its limit. -/
def Refuses (limit : Nat) (v : Json) : Prop :=
  ∀ (frames : List Frame) (expect : Expectation) (ts : List Token),
    expect = .value ∨ expect = .firstItem → frames.length ≤ limit →
      limit < frames.length + v.depth →
        readFrom limit ⟨frames, expect⟩ (v.tokens ++ ts) = .error .tooDeep

/-- Something is opened, if it may be. -/
theorem readFrom_openFrame {frame : Frame} {expect expect' : Expectation}
    (h : advance limit ⟨frames, expect⟩ t = openFrame limit frames frame expect')
    (hinside : frames.length < limit →
      readFrom limit ⟨frame :: frames, expect'⟩ ts = .error .tooDeep) :
    readFrom limit ⟨frames, expect⟩ (t :: ts) = .error .tooDeep := by
  rw [openFrame] at h
  split at h
  · rename_i hopen
    rw [readFrom_cons h]
    exact hinside hopen
  · rw [readFrom, h]

theorem readFrom_itemTokens_tooDeep {vs : List Json} (h : ∀ v ∈ vs, Refuses limit v)
    (items : List Json) (frames : List Frame) (ts : List Token) (hframes : frames.length < limit)
    (hdepth : limit < frames.length + 1 + depthItems vs) :
    readFrom limit ⟨.array items :: frames, .separator⟩ (itemTokens vs ++ ts) =
      .error .tooDeep := by
  induction vs generalizing items with
  | nil => exact absurd hframes (Nat.not_lt.mpr (Nat.le_of_lt_succ hdepth))
  | cons v vs ih =>
    rw [depthItems] at hdepth
    rw [itemTokens, List.cons_append, List.append_assoc, readFrom_cons rfl, Progress.resume]
    by_cases hv : limit < frames.length + 1 + v.depth
    · exact h v List.mem_cons_self _ _ _ (.inl rfl) hframes hv
    · -- The item is read, so one of those behind it is too deep.
      rw [readsFromTokens v _ _ _ (.inl rfl) (Nat.le_of_not_lt hv), close, Progress.resume]
      exact ih (fun w hw => h w (List.mem_cons_of_mem _ hw)) _ (by omega)

theorem readFrom_fieldTokens_tooDeep {fs : List (String × Json)} (h : ∀ f ∈ fs, Refuses limit f.2)
    (fields : List (String × Json)) (frames : List Frame) (ts : List Token)
    (hframes : frames.length < limit) (hdepth : limit < frames.length + 1 + depthFields fs) :
    readFrom limit ⟨.object fields :: frames, .separator⟩ (fieldTokens fs ++ ts) =
      .error .tooDeep := by
  induction fs generalizing fields with
  | nil => exact absurd hframes (Nat.not_lt.mpr (Nat.le_of_lt_succ hdepth))
  | cons f fs ih =>
    obtain ⟨k, v⟩ := f
    rw [depthFields] at hdepth
    rw [fieldTokens, List.cons_append, List.cons_append, List.cons_append, List.append_assoc,
      readFrom_cons rfl, Progress.resume, readFrom_cons rfl, Progress.resume, readFrom_cons rfl,
      Progress.resume]
    by_cases hv : limit < frames.length + 1 + v.depth
    · exact h (k, v) List.mem_cons_self _ _ _ (.inl rfl) hframes hv
    · rw [readsFromTokens v _ _ _ (.inl rfl) (Nat.le_of_not_lt hv), close, Progress.resume]
      exact ih (fun g hg => h g (List.mem_cons_of_mem _ hg)) _ (by omega)

/-- A value that reaches beyond the limit is refused where it stands. -/
theorem refuses (v : Json) : Refuses limit v := by
  induction v using Json.induction with
  | null | bool | int | float | string =>
    exact fun frames _ _ _ hframes hdepth => absurd hframes (Nat.not_le.mpr hdepth)
  | array vs ih =>
    intro frames expect ts hexpect hframes hdepth
    rw [depth] at hdepth
    have hadvance : advance limit ⟨frames, expect⟩ .openArray =
        openFrame limit frames (.array []) .firstItem :=
      advance_eq_startValue hexpect (by simp)
    cases vs with
    | nil =>
      rw [depthItems] at hdepth
      exact readFrom_openFrame hadvance fun hopen => absurd hopen (by omega)
    | cons v vs =>
      rw [depthItems] at hdepth
      rw [tokens, List.cons_append, List.append_assoc, List.append_assoc]
      refine readFrom_openFrame hadvance fun hopen => ?_
      by_cases hv : limit < frames.length + 1 + v.depth
      · exact ih v List.mem_cons_self _ _ _ (.inr rfl) hopen hv
      · rw [readsFromTokens v _ _ _ (.inr rfl) (Nat.le_of_not_lt hv), close, Progress.resume]
        exact readFrom_itemTokens_tooDeep (fun w hw => ih w (List.mem_cons_of_mem _ hw)) _ frames
          _ hopen (by omega)
  | object fs ih =>
    intro frames expect ts hexpect hframes hdepth
    rw [depth] at hdepth
    have hadvance : advance limit ⟨frames, expect⟩ .openObject =
        openFrame limit frames (.object []) .firstKey :=
      advance_eq_startValue hexpect (by simp)
    cases fs with
    | nil =>
      rw [depthFields] at hdepth
      exact readFrom_openFrame hadvance fun hopen => absurd hopen (by omega)
    | cons f fs =>
      obtain ⟨k, v⟩ := f
      rw [depthFields] at hdepth
      rw [tokens, List.cons_append, List.cons_append, List.cons_append, List.append_assoc,
        List.append_assoc]
      refine readFrom_openFrame hadvance fun hopen => ?_
      rw [readFrom_cons rfl, Progress.resume, readFrom_cons rfl, Progress.resume]
      by_cases hv : limit < frames.length + 1 + v.depth
      · exact ih (k, v) List.mem_cons_self _ _ _ (.inl rfl) hopen hv
      · rw [readsFromTokens v _ _ _ (.inl rfl) (Nat.le_of_not_lt hv), close, Progress.resume]
        exact readFrom_fieldTokens_tooDeep (fun g hg => ih g (List.mem_cons_of_mem _ hg)) _ frames
          _ hopen (by omega)

/-- A value that is too deep is not read. -/
theorem readFrom_tooDeep (hdepth : limit < v.depth) (ts : List Token) :
    readFrom limit .start (v.tokens ++ ts) = .error .tooDeep :=
  refuses v [] .value ts (.inl rfl) (Nat.zero_le _) (by simpa using hdepth)

end

end Json

end PhpRefactor
