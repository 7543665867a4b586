import PhpRefactor.Json.Skip
import PhpRefactor.Proofs.Json.Tokens
import PhpRefactor.Proofs.Results

/-!
# Values inside what is open

Of what is open the reader of JSON looks at the innermost array or object only, and at how many
there are.  So a value is read inside others as it is read alone (`Json.readFrom_value_eq_ok_iff`).
Whoever passes over values takes the same steps with less in hand, so a value that can be read can
be passed over (`Json.skip_of_readFrom`).
-/

set_option autoImplicit false

namespace PhpRefactor

namespace Json

variable {limit : Nat} {frames inner : List Frame} {t : Token} {ts rest : List Token} {v : Json}

/-- The reader takes a token and goes on behind it. -/
theorem readFrom_cons_eq (cursor : Cursor) (t : Token) (ts : List Token) :
    readFrom limit cursor (t :: ts) =
      advance limit cursor t >>= fun progress => progress.resume limit ts := by
  rw [readFrom]
  cases advance limit cursor t with
  | error e => rfl
  | ok progress => cases progress <;> rfl

/-! ## What is open -/

theorem length_of_readFrom {cursor : Cursor} (h : readFrom limit cursor ts = .ok (v, rest)) :
    rest.length < ts.length := by
  induction ts generalizing cursor with
  | nil => cases h
  | cons t ts ih =>
    rw [readFrom] at h
    split at h
    · cases h
    · exact (ih h).trans (Nat.lt_succ_self _)
    · obtain ⟨-, rfl⟩ := Prod.mk.inj (Except.ok.inj h)
      exact Nat.lt_succ_self _

/-- An array or an object. -/
def IsContainer : Json → Prop
  | array _ | object _ => True
  | _ => False

/-- The outermost value is an array or an object, or will be. -/
def Progress.Contains : Progress → Prop
  | .inside cursor => cursor.frames ≠ []
  | .complete v => v.IsContainer

theorem contains_close (h : frames ≠ [] ∨ v.IsContainer) :
    (close frames v).Contains := by
  unfold close
  split
  · exact List.cons_ne_nil _ _
  · exact List.cons_ne_nil _ _
  · exact List.cons_ne_nil _ _
  · exact h.resolve_left fun hnil => hnil rfl

theorem eq_inside_of_openFrame {frame : Frame} {expect : Expectation} {progress : Progress}
    (h : openFrame limit frames frame expect = .ok progress) :
    progress = .inside ⟨frame :: frames, expect⟩ := by
  rw [openFrame] at h
  split at h
  · exact (Except.ok.inj h).symm
  · cases h

theorem contains_openFrame {frame : Frame} {expect : Expectation} {progress : Progress}
    (h : openFrame limit frames frame expect = .ok progress) : progress.Contains := by
  rw [eq_inside_of_openFrame h]
  exact List.cons_ne_nil _ _

theorem contains_startValue {progress : Progress} (h : startValue limit frames t = .ok progress)
    (hframes : frames ≠ [] ∨ t = .openArray ∨ t = .openObject) : progress.Contains := by
  unfold startValue at h
  split at h
  · exact Except.ok.inj h ▸ contains_close (.inl (by simpa using hframes))
  · exact Except.ok.inj h ▸ contains_close (.inl (by simpa using hframes))
  · exact contains_openFrame h
  · exact contains_openFrame h
  · exact nomatch h
  · exact nomatch h

theorem contains_advance {cursor : Cursor} {progress : Progress}
    (h : advance limit cursor t = .ok progress) (hcursor : cursor.frames ≠ []) :
    progress.Contains := by
  obtain ⟨frames, expect⟩ := cursor
  unfold advance at h
  dsimp only at h hcursor
  split at h
  case h_2 | h_4 => exact contains_startValue h (.inl hcursor)
  case h_3 | h_5 | h_11 | h_13 => exact Except.ok.inj h ▸ contains_close (.inr trivial)
  case h_7 | h_8 | h_10 | h_12 => exact Except.ok.inj h ▸ List.cons_ne_nil _ _
  case h_9 => exact Except.ok.inj h ▸ hcursor
  all_goals exact nomatch h

theorem isContainer_of_readFrom {cursor : Cursor} (h : readFrom limit cursor ts = .ok (v, rest))
    (hcursor : cursor.frames ≠ []) : v.IsContainer := by
  induction ts generalizing cursor with
  | nil => cases h
  | cons t ts ih =>
    rw [readFrom] at h
    split at h
    · cases h
    · rename_i next hadvance
      exact ih h (contains_advance hadvance hcursor)
    · rename_i w hadvance
      obtain ⟨rfl, rfl⟩ := Prod.mk.inj (Except.ok.inj h)
      exact contains_advance hadvance hcursor

/-- What begins with a bracket is an array or an object. -/
theorem isContainer_of_open (ht : t = .openArray ∨ t = .openObject)
    (h : readFrom limit .start (t :: ts) = .ok (v, rest)) : v.IsContainer := by
  have hadvance : advance limit .start t = startValue limit [] t :=
    advance_eq_startValue (.inl rfl) (by rcases ht with rfl | rfl <;> simp)
  rw [readFrom, hadvance] at h
  split at h
  · cases h
  · rename_i next hstart
    exact isContainer_of_readFrom h (contains_startValue hstart (.inr ht))
  · rename_i w hstart
    obtain ⟨rfl, rfl⟩ := Prod.mk.inj (Except.ok.inj h)
    exact contains_startValue hstart (.inr ht)

/-- How deep a value may be does not matter where none begins with a bracket. -/
theorem readFrom_start_of_not_open {limit' : Nat} (ht : t ≠ .openArray ∧ t ≠ .openObject) :
    readFrom limit .start (t :: ts) = readFrom limit' .start (t :: ts) := by
  cases t with
  | openArray => exact absurd rfl ht.1
  | openObject => exact absurd rfl ht.2
  | _ => rfl

/-! ## A value inside what is open -/

/-- The same progress with more open around it. -/
def Progress.within (frames : List Frame) : Progress → Progress
  | .inside cursor => .inside ⟨cursor.frames ++ frames, cursor.expect⟩
  | .complete v => close frames v

theorem close_append (inner frames : List Frame) (v : Json) :
    close (inner ++ frames) v = (close inner v).within frames := by
  cases inner with
  | nil => rfl
  | cons f inner => cases f <;> rfl

theorem openFrame_append (inner frames : List Frame) (frame : Frame) (expect : Expectation) :
    openFrame limit (inner ++ frames) frame expect =
      (openFrame (limit - frames.length) inner frame expect).map (·.within frames) := by
  have hlength : (inner ++ frames).length < limit ↔ inner.length < limit - frames.length := by
    rw [List.length_append]
    omega
  rw [openFrame, openFrame, if_congr hlength rfl rfl, apply_ite (Except.map _)]
  rfl

theorem startValue_append (inner frames : List Frame) (t : Token) :
    startValue limit (inner ++ frames) t =
      (startValue (limit - frames.length) inner t).map (·.within frames) := by
  cases t with
  | scalar v => exact congrArg Except.ok (close_append inner frames v)
  | string x => exact congrArg Except.ok (close_append inner frames (.string x))
  | openArray => exact openFrame_append inner frames _ _
  | openObject => exact openFrame_append inner frames _ _
  | _ => rfl

/-- What is open around does not matter for the next token. -/
theorem advance_append (hinner : inner ≠ []) (frames : List Frame) (expect : Expectation)
    (t : Token) :
    advance limit ⟨inner ++ frames, expect⟩ t =
      (advance (limit - frames.length) ⟨inner, expect⟩ t).map (·.within frames) := by
  obtain ⟨f, inner, rfl⟩ := List.exists_cons_of_ne_nil hinner
  have hclose : ∀ v, (Except.ok (close (inner ++ frames) v) : Except SyntaxError Progress) =
      (Except.ok (close inner v)).map (·.within frames) :=
    fun v => congrArg Except.ok (close_append inner frames v)
  by_cases ht : t = .closeArray
  · subst ht
    cases expect <;> cases f <;> first | rfl | exact hclose _
  · cases expect with
    | value =>
      rw [advance_eq_startValue (.inl rfl) ht, advance_eq_startValue (.inl rfl) ht]
      exact startValue_append _ frames t
    | firstItem =>
      rw [advance_eq_startValue (.inr rfl) ht, advance_eq_startValue (.inr rfl) ht]
      exact startValue_append _ frames t
    | _ =>
      cases t with
      | fault key => cases f <;> cases key <;> rfl
      | _ => cases f <;> first | rfl | exact hclose _

theorem frames_ne_nil_of_startValue {cursor : Cursor}
    (h : startValue limit frames t = .ok (.inside cursor)) : cursor.frames ≠ [] := by
  have hclose : ∀ v, close frames v = .inside cursor → cursor.frames ≠ [] := by
    intro v hv
    cases frames with
    | nil => cases hv
    | cons f frames =>
      change (Progress.inside cursor).Contains
      rw [← hv]
      exact contains_close (.inl (List.cons_ne_nil f frames))
  cases t with
  | scalar v => exact hclose v (Except.ok.inj h)
  | string x => exact hclose _ (Except.ok.inj h)
  | openArray | openObject => exact contains_openFrame h
  | _ => cases h

/-- What is read inside others is read as it is alone, and they go on behind it. -/
theorem readFrom_append (hinner : inner ≠ []) (frames : List Frame) (expect : Expectation)
    (ts : List Token) :
    readFrom limit ⟨inner ++ frames, expect⟩ ts =
      readFrom (limit - frames.length) ⟨inner, expect⟩ ts >>= fun (v, rest) =>
        (close frames v).resume limit rest := by
  induction ts generalizing inner expect with
  | nil =>
    obtain ⟨f, inner, rfl⟩ := List.exists_cons_of_ne_nil hinner
    cases expect <;> cases f <;> rfl
  | cons t ts ih =>
    rw [readFrom_cons_eq, readFrom_cons_eq, advance_append hinner]
    cases hadvance : advance (limit - frames.length) ⟨inner, expect⟩ t with
    | error e => rfl
    | ok progress =>
      cases progress with
      | inside cursor => exact ih (contains_advance hadvance hinner) cursor.expect
      | complete v => rfl

/-- A bracket cannot close where a value is due; otherwise a value is read as if nothing were open.
-/
theorem readFrom_value_eq_ok_iff {r : Json × List Token} :
    readFrom limit ⟨frames, .value⟩ ts = .ok r ↔
      ∃ v rest, readFrom (limit - frames.length) .start ts = .ok (v, rest) ∧
        (close frames v).resume limit rest = .ok r := by
  have hbind : ∀ {x : Except SyntaxError (Json × List Token)},
      (x >>= fun (v, rest) => (close frames v).resume limit rest) = .ok r ↔
        ∃ v rest, x = .ok (v, rest) ∧ (close frames v).resume limit rest = .ok r :=
    bind_eq_ok_iff.trans Prod.exists
  rw [← hbind]
  cases ts with
  | nil => exact ⟨nofun, nofun⟩
  | cons t ts =>
    by_cases ht : t = .closeArray
    · subst ht
      cases frames with
      | nil => exact ⟨nofun, nofun⟩
      | cons f frames => cases f <;> exact ⟨nofun, nofun⟩
    · have happend : startValue limit ([] ++ frames) t = _ := startValue_append [] frames t
      rw [readFrom_cons_eq, readFrom_cons_eq, advance_eq_startValue (.inl rfl) ht, Cursor.start,
        advance_eq_startValue (.inl rfl) ht, ← List.nil_append frames, happend, List.nil_append]
      cases hstart : startValue (limit - frames.length) [] t with
      | error e => exact Iff.rfl
      | ok progress =>
        cases progress with
        | inside cursor =>
          exact iff_of_eq (congrArg (· = _)
            (readFrom_append (frames_ne_nil_of_startValue hstart) frames cursor.expect ts))
        | complete v => exact Iff.rfl

/-! ## Passing over what can be read -/

/-- What has opened the array or object. -/
def Frame.bracket : Frame → Bracket
  | .array _ => .array
  | .object _ | .member _ _ => .object

/-- What is known of a cursor where values are passed over. -/
def Cursor.outline (cursor : Cursor) : Outline := ⟨cursor.frames.map Frame.bracket, cursor.expect⟩

def Progress.outline : Progress → Option Outline
  | .inside cursor => some cursor.outline
  | .complete _ => none

/-- Where an array or an object is expected to have been opened, it was. -/
def Cursor.Opened (cursor : Cursor) : Prop :=
  (cursor.expect = .firstItem → cursor.frames.head?.map Frame.bracket = some .array) ∧
    (cursor.expect = .firstKey → cursor.frames.head?.map Frame.bracket = some .object)

/-- Where values are passed over, what comes next is in step with the reader. -/
def Progress.InStep (progress : Progress) (next : Except SyntaxError (Option Outline)) : Prop :=
  next = .ok progress.outline ∧ ∀ cursor, progress = .inside cursor → cursor.Opened

theorem inStep_close (frames : List Frame) (v : Json) :
    (close frames v).InStep (.ok (Outline.close (frames.map Frame.bracket))) := by
  cases frames with
  | nil => exact ⟨rfl, nofun⟩
  | cons f frames =>
    cases f <;>
    · refine ⟨rfl, ?_⟩
      rintro _ ⟨⟩
      exact ⟨nofun, nofun⟩

section

variable {progress : Progress}

theorem inStep_startValue (h : startValue limit frames t = .ok progress) :
    progress.InStep (Outline.startValue (frames.map Frame.bracket) t) := by
  cases t with
  | scalar v => exact Except.ok.inj h ▸ inStep_close frames v
  | string x => exact Except.ok.inj h ▸ inStep_close frames (.string x)
  | openArray | openObject =>
    obtain rfl := eq_inside_of_openFrame h
    refine ⟨rfl, ?_⟩
    rintro _ ⟨⟩
    simp [Cursor.Opened, Frame.bracket]
  | _ => cases h

theorem Outline.advance_eq_startValue {opened : List Bracket} {expect : Expectation}
    (hexpect : expect = .value ∨ expect = .firstItem) (ht : t ≠ .closeArray) :
    Outline.advance ⟨opened, expect⟩ t = Outline.startValue opened t := by
  rcases hexpect with rfl | rfl <;> unfold Outline.advance <;> split <;> simp_all

/-- A token that can be read can be passed over. -/
theorem inStep_advance {cursor : Cursor} (h : advance limit cursor t = .ok progress)
    (hcursor : cursor.Opened) : progress.InStep (cursor.outline.advance t) := by
  obtain ⟨frames, expect⟩ := cursor
  have hstart : expect = .value ∨ expect = .firstItem → startValue limit frames t = .ok progress →
      progress.InStep ((Cursor.outline ⟨frames, expect⟩).advance t) := by
    intro hexpect h
    have ht : t ≠ .closeArray := by
      rintro rfl
      cases h
    rw [Cursor.outline, Outline.advance_eq_startValue hexpect ht]
    exact inStep_startValue h
  unfold advance at h
  dsimp only at h
  split at h
  case h_2 => exact hstart (.inl rfl) h
  case h_4 => exact hstart (.inr rfl) h
  case h_3 f frames =>
    have hf : f.bracket = .array := Option.some.inj (hcursor.1 rfl)
    rw [Cursor.outline, List.map_cons, hf]
    exact Except.ok.inj h ▸ inStep_close frames _
  case h_5 f frames =>
    have hf : f.bracket = .object := Option.some.inj (hcursor.2 rfl)
    rw [Cursor.outline, List.map_cons, hf]
    exact Except.ok.inj h ▸ inStep_close frames _
  case h_11 | h_13 => exact Except.ok.inj h ▸ inStep_close _ _
  case h_7 | h_8 | h_9 | h_10 | h_12 =>
    obtain rfl := Except.ok.inj h
    refine ⟨rfl, ?_⟩
    rintro _ ⟨⟩
    exact ⟨nofun, nofun⟩
  all_goals cases h

theorem skipFrom_of_readFrom {cursor : Cursor} (h : readFrom limit cursor ts = .ok (v, rest))
    (hcursor : cursor.Opened) : skipFrom cursor.outline ts = .ok rest := by
  induction ts generalizing cursor with
  | nil => cases h
  | cons t ts ih =>
    rw [readFrom_cons_eq] at h
    obtain ⟨progress, hadvance, h⟩ := bind_eq_ok_iff.mp h
    obtain ⟨hnext, hopened⟩ := inStep_advance hadvance hcursor
    rw [skipFrom, hnext]
    cases progress with
    | inside cursor => exact ih h (hopened cursor rfl)
    | complete w =>
      obtain ⟨-, rfl⟩ := Prod.mk.inj (Except.ok.inj h)
      rfl

/-- A value that can be read can be passed over. -/
theorem skip_of_readFrom (h : readFrom limit .start ts = .ok (v, rest)) : skip ts = .ok rest :=
  skipFrom_of_readFrom h ⟨nofun, nofun⟩

end

end Json

end PhpRefactor
