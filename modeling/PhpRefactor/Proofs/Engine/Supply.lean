import PhpRefactor.Config
import PhpRefactor.Proofs.Engine.Run

/-!
# Rules that bring in nothing

A rule that makes no nodes has no use for the supply of identities.  With such rules alone a pass
takes the same course whatever the supply is (`Engine.pass_resupplied`), so a tree needs no supply
above the identities in use.
-/

set_option autoImplicit false

namespace PhpRefactor

/-- The rule neither looks at the supply of identities nor takes from it. -/
def Rule.TakesNone (rule : Rule) : Prop :=
  ∀ site n next next', rule.apply site n next' =
    (rule.apply site n next).map fun answer => (answer.1, next')

theorem TrueCondition.rule_takesNone : rule.TakesNone := by
  intro site n next next'
  change (RunError.ofTree (removableBody? site n)).map _ =
    ((RunError.ofTree (removableBody? site n)).map _).map _
  cases RunError.ofTree (removableBody? site n) with
  | error e => rfl
  | ok body => rfl

variable {rules : List Rule} {oracle : Oracle} {pass : Nat}

theorem offer_resupplied (hrules : ∀ rule ∈ rules, rule.TakesNone) (site : Site) (n : Node)
    (stats : Stats) (next next' : Nat) :
    offer site n stats next' rules = { offer site n stats next rules with next := next' } := by
  induction rules generalizing stats next with
  | nil => rfl
  | cons rule rules ih =>
    have hrest := ih fun r hr => hrules r (List.mem_cons_of_mem _ hr)
    unfold offer
    split
    · dsimp only
      rw [hrules rule List.mem_cons_self site n next next']
      cases rule.apply site n next with
      | error e => rfl
      | ok answer =>
        obtain ⟨edit, after⟩ := answer
        cases edit with
        | keep => exact hrest (stats.invoked rule.name) after
        | _ => rfl
    · exact hrest stats next

namespace PassState

/-- The state with another supply of identities. -/
def resupplied (s : PassState) (next : Nat) : PassState := { s with next }

theorem carryOut_resupplied {s s' : PassState} {i : Nat} {edit : Edit} (next : Nat)
    (h : s.carryOut i edit = .ok s') :
    (s.resupplied next).carryOut i edit = .ok (s'.resupplied next) := by
  unfold carryOut at h ⊢
  dsimp only [resupplied] at h ⊢
  split at h
  · exact absurd h (by simp)
  · split at h
    · exact absurd h (by simp)
    · rw [← Except.ok.inj h]

theorem visit_resupplied (hrules : ∀ rule ∈ rules, rule.TakesNone) {s s' : PassState} {n : Node}
    (next : Nat) (h : s.visit rules oracle pass n = .ok s') :
    (s.resupplied next).visit rules oracle pass n = .ok (s'.resupplied next) := by
  unfold visit at h ⊢
  by_cases hoffered : n.id ∈ s.offered
  · rw [if_pos hoffered] at h
    rw [if_pos (show n.id ∈ (s.resupplied next).offered from hoffered), ← Except.ok.inj h]
    rfl
  · rw [if_neg hoffered] at h
    rw [if_neg (show n.id ∉ (s.resupplied next).offered from hoffered)]
    have hoffer := offer_resupplied hrules ⟨⟨s.tree, s.index⟩, oracle, pass⟩ n s.stats s.next next
    dsimp only [resupplied] at h ⊢
    rw [hoffer]
    dsimp only
    split at h
    · exact absurd h (by simp)
    · rw [← Except.ok.inj h]
      rfl
    · exact carryOut_resupplied next h

theorem step_resupplied (hrules : ∀ rule ∈ rules, rule.TakesNone) {s s' : PassState} (next : Nat)
    (h : s.step rules oracle pass = .ok s') :
    (s.resupplied next).step rules oracle pass = .ok (s'.resupplied next) := by
  unfold step at h ⊢
  dsimp only [resupplied] at h ⊢
  split at h
  · rw [← Except.ok.inj h]
  · split at h
    · exact absurd h (by simp)
    · exact visit_resupplied hrules next h

/-- A run that ends takes the same course with another supply. -/
theorem Ends.resupplied (hrules : ∀ rule ∈ rules, rule.TakesNone) {s s' : PassState} {limit : Nat}
    (next : Nat) (h : Ends rules oracle pass s limit s') :
    Ends rules oracle pass (s.resupplied next) limit (s'.resupplied next) := by
  induction h with
  | done limit hpending => exact .done limit hpending
  | visit hstep _ ih => exact .visit ⟨hstep.1, step_resupplied hrules next hstep.2⟩ ih

end PassState

/-- A pass that ends takes the same course with another supply. -/
theorem Engine.pass_resupplied {e : Engine} (hrules : ∀ rule ∈ e.rules, rule.TakesNone)
    {number : Nat} {w w' : Workspace} {counts : PassSummary} (next : Nat)
    (h : e.pass number w = (w', .ok counts)) :
    e.pass number { w with next } = ({ w' with next }, .ok counts) := by
  unfold pass at h ⊢
  dsimp only at h ⊢
  split at h
  · exact absurd h (by simp)
  · rename_i index hindex
    split at h
    · exact absurd h (by simp)
    · rename_i s hrun
      have hsame : (PassState.start w.tree index next w.stats).run e.rules e.oracle number
          (e.visitLimit w.tree) = .ok (s.resupplied next) :=
        PassState.run_eq_ok_iff.mpr ((PassState.run_eq_ok_iff.mp hrun).resupplied hrules next)
      obtain ⟨rfl, hcounts⟩ := Prod.mk.inj h
      rw [hsame, ← Except.ok.inj hcounts]
      rfl

end PhpRefactor
