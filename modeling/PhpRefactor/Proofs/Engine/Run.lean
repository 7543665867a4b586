import PhpRefactor.Engine.Pass
import Mathlib.Logic.Relation

/-!
# The run of a pass

A pass repeats `PassState.step`.  What can be said about one step is carried over to the whole run
here, once: the states between two visits are those that `Reaches` relates to the beginning, a run
that ends has made its visits until nobody was left (`run_eq_ok_iff`), and one that is halted was
halted by its last step or by the number of visits (`reaches_of_run_eq_error`).

`run_ends` is the way to show that a run does end: an invariant, and a number that every step makes
smaller.
-/

set_option autoImplicit false

namespace PhpRefactor

namespace PassState

variable {rules : List Rule} {oracle : Oracle} {pass : Nat}

/-- One visit leads from a state to another. -/
def Steps (rules : List Rule) (oracle : Oracle) (pass : Nat) (s s' : PassState) : Prop :=
  s.pending ≠ [] ∧ s.step rules oracle pass = .ok s'

/-- Any number of visits leads from a state to another. -/
def Reaches (rules : List Rule) (oracle : Oracle) (pass : Nat) : PassState → PassState → Prop :=
  Relation.ReflTransGen (Steps rules oracle pass)

/-- What every visit keeps holds of every state that is reached. -/
theorem Reaches.keeps {P : PassState → Prop} {s s' : PassState}
    (hstep : ∀ a b, P a → Steps rules oracle pass a b → P b) (hs : P s)
    (h : Reaches rules oracle pass s s') : P s' := by
  induction h with
  | refl => exact hs
  | tail _ hab ih => exact hstep _ _ ih hab

theorem run_of_pending_eq_nil {s : PassState} (limit : Nat) (h : s.pending = []) :
    s.run rules oracle pass limit = .ok s := by
  unfold run
  rw [h]
  rfl

theorem run_zero {s : PassState} (h : s.pending ≠ []) :
    s.run rules oracle pass 0 = .error ⟨.tooManyVisits s.visits, s⟩ := by
  rw [run, if_neg (by simpa using h)]

theorem run_succ {s : PassState} (limit : Nat) (h : s.pending ≠ []) :
    s.run rules oracle pass (limit + 1) =
      match s.step rules oracle pass with
      | .error halt => .error halt
      | .ok s => s.run rules oracle pass limit := by
  have hpending : ¬ s.pending.isEmpty = true := by simpa using h
  rw [run]
  exact if_neg hpending

/-- A run that ends makes its visits, no more than it may, until nobody is left to visit. -/
inductive Ends (rules : List Rule) (oracle : Oracle) (pass : Nat) :
    PassState → Nat → PassState → Prop where
  | done {s : PassState} (limit : Nat) (hpending : s.pending = []) :
      Ends rules oracle pass s limit s
  | visit {s next s' : PassState} {limit : Nat} (hstep : Steps rules oracle pass s next)
      (hrest : Ends rules oracle pass next limit s') : Ends rules oracle pass s (limit + 1) s'

theorem run_eq_ok_iff {s s' : PassState} {limit : Nat} :
    s.run rules oracle pass limit = .ok s' ↔ Ends rules oracle pass s limit s' := by
  constructor
  · intro h
    induction limit generalizing s with
    | zero =>
      by_cases hpending : s.pending = []
      · rw [run_of_pending_eq_nil 0 hpending] at h
        exact Except.ok.inj h ▸ .done 0 hpending
      · rw [run_zero hpending] at h
        exact absurd h (by simp)
    | succ limit ih =>
      by_cases hpending : s.pending = []
      · rw [run_of_pending_eq_nil _ hpending] at h
        exact Except.ok.inj h ▸ .done _ hpending
      · rw [run_succ limit hpending] at h
        cases hstep : s.step rules oracle pass with
        | error halt =>
          rw [hstep] at h
          exact absurd h (by simp)
        | ok next =>
          rw [hstep] at h
          exact .visit ⟨hpending, hstep⟩ (ih h)
  · intro h
    induction h with
    | done limit hpending => exact run_of_pending_eq_nil limit hpending
    | visit hstep _ ih =>
      rw [run_succ _ hstep.1, hstep.2]
      exact ih

/-- A visit counts as one. -/
theorem visits_of_steps {s s' : PassState} (h : Steps rules oracle pass s s') :
    s'.visits = s.visits + 1 := by
  obtain ⟨hpending, h⟩ := h
  rw [step] at h
  split at h
  · exact absurd ‹_› hpending
  · rename_i i rest _
    dsimp only at h
    split at h
    · exact absurd h (by simp)
    · rename_i n _
      rw [visit] at h
      dsimp only at h
      split at h
      · rw [← Except.ok.inj h]
        rfl
      · split at h
        · exact absurd h (by simp)
        · rw [← Except.ok.inj h]
          rfl
        · rw [carryOut] at h
          dsimp only at h
          split at h
          · exact absurd h (by simp)
          · split at h
            · exact absurd h (by simp)
            · rw [← Except.ok.inj h]

/-- A run that is halted was halted by its last visit, or it has made all its visits. -/
theorem reaches_of_run_eq_error {s : PassState} {halt : Halt} {limit : Nat}
    (h : s.run rules oracle pass limit = .error halt) :
    ∃ s', Reaches rules oracle pass s s' ∧ s'.pending ≠ [] ∧
      (s'.step rules oracle pass = .error halt ∨
        halt = ⟨.tooManyVisits s'.visits, s'⟩ ∧ s'.visits = s.visits + limit) := by
  induction limit generalizing s with
  | zero =>
    by_cases hpending : s.pending = []
    · rw [run_of_pending_eq_nil 0 hpending] at h
      exact absurd h (by simp)
    · rw [run_zero hpending] at h
      exact ⟨s, .refl, hpending, .inr ⟨(Except.error.inj h).symm, rfl⟩⟩
  | succ limit ih =>
    by_cases hpending : s.pending = []
    · rw [run_of_pending_eq_nil _ hpending] at h
      exact absurd h (by simp)
    · rw [run_succ limit hpending] at h
      cases hstep : s.step rules oracle pass with
      | error stopped =>
        rw [hstep] at h
        exact ⟨s, .refl, hpending, .inl (hstep.trans h)⟩
      | ok next =>
        rw [hstep] at h
        have hvisits := visits_of_steps ⟨hpending, hstep⟩
        obtain ⟨s', hreach, hpending', hcases⟩ := ih h
        refine ⟨s', .head ⟨hpending, hstep⟩ hreach, hpending', hcases.imp_right ?_⟩
        rintro ⟨rfl, hcount⟩
        exact ⟨rfl, by omega⟩

/-- A run with an invariant and a number that every visit makes smaller ends in time, unless a visit
fails. -/
theorem run_ends (Inv : PassState → Prop) (Fails : Halt → Prop) (left : PassState → Nat)
    (hleft : ∀ s, Inv s → s.pending ≠ [] → 0 < left s)
    (hstep : ∀ s, Inv s → s.pending ≠ [] →
      (∃ s', s.step rules oracle pass = .ok s' ∧ Inv s' ∧ left s' < left s) ∨
        ∃ halt, s.step rules oracle pass = .error halt ∧ Fails halt)
    {s : PassState} {limit : Nat} (hs : Inv s) (hlimit : left s ≤ limit) :
    (∃ s', s.run rules oracle pass limit = .ok s' ∧ Inv s' ∧ s'.pending = []) ∨
      ∃ halt, s.run rules oracle pass limit = .error halt ∧ Fails halt := by
  induction limit generalizing s with
  | zero =>
    by_cases hpending : s.pending = []
    · exact .inl ⟨s, run_of_pending_eq_nil 0 hpending, hs, hpending⟩
    · have := hleft s hs hpending
      omega
  | succ limit ih =>
    by_cases hpending : s.pending = []
    · exact .inl ⟨s, run_of_pending_eq_nil _ hpending, hs, hpending⟩
    · rw [run_succ limit hpending]
      rcases hstep s hs hpending with ⟨s', heq, hs', hless⟩ | ⟨halt, heq, hfails⟩
      · rw [heq]
        exact ih hs' (by omega)
      · rw [heq]
        exact .inr ⟨halt, rfl, hfails⟩

end PassState

end PhpRefactor
