import PhpRefactor.Proofs.Index.Renumber
import PhpRefactor.Proofs.Rule.Decision
import PhpRefactor.Proofs.Types.Renumber

/-!
# Rules do not see numbers

The answer of a configured rule depends on a node and the nodes around it.  For nodes in the same
place of trees that are bare the same it is the same answer but for identities
(`Node.SamePlace.bare_answer`), and offered to the same rules both leave the same statistics
(`Node.SamePlace.offer_eq`).
-/

set_option autoImplicit false

namespace PhpRefactor

section

variable (f : Nat → Nat)

/-! ## The nodes around a node -/

theorem nearestClass?_renumber (around : List Node) :
    nearestClass? (around.map (Node.renumber f)) = (nearestClass? around).map (Node.renumber f) :=
  find?_map_of_eq (fun m => by rw [Node.kind_renumber]) around

theorem nearestFunction?_renumber (around : List Node) :
    nearestFunction? (around.map (Node.renumber f)) =
      (nearestFunction? around).map (Node.renumber f) := by
  induction around with
  | nil => rfl
  | cons m around ih =>
    rw [List.map_cons, nearestFunction?, nearestFunction?, Node.kind_renumber, ih]
    cases m.kind <;> rfl

theorem underConstructor_renumber (around : List Node) :
    underConstructor (around.map (Node.renumber f)) = underConstructor around := by
  induction around with
  | nil => rfl
  | cons m around ih =>
    unfold underConstructor at ih ⊢
    rw [List.map_cons, List.takeWhile_cons, List.takeWhile_cons, Node.kind_renumber]
    split
    · rw [List.any_cons, List.any_cons, ih, Node.isConstructor, Node.isMethodNamed_renumber,
        Node.isConstructor]
    · rfl

/-! ## Answers -/

namespace TrueCondition

theorem fetchedMember?_renumber (cond : Node) :
    fetchedMember? (cond.renumber f) = fetchedMember? cond := by
  unfold fetchedMember?
  rw [Node.form_renumber]
  cases cond.form with
  | fetch o name => simp [Form.map]
  | _ => rfl

/-- The body of a condition that is always true is the renumbered body, as long as the numbers in
the tree are told apart. -/
theorem settledBody?_renumber {root n : Node} {around : List Node} (h : root.Occurs around n)
    (hf : ∀ i ∈ root.ids, ∀ j ∈ root.ids, f i = f j → i = j) :
    settledBody? .declared (around.map (Node.renumber f)) (n.renumber f) =
      (settledBody? .declared around n).map (List.map (Node.renumber f)) := by
  unfold settledBody?
  rw [Node.form_renumber]
  cases n.form with
  | ifStmt cond body elseIfs elseBranch =>
    cases elseIfs with
    | cons e es => rfl
    | nil =>
      cases elseBranch with
      | some e => rfl
      | none =>
        simp only [Form.map, List.map_nil, Option.map_none, fetchedMember?_renumber,
          nearestClass?_renumber, underConstructor_renumber]
        cases fetchedMember? cond with
        | none => rfl
        | some member =>
          cases hclass : nearestClass? around with
          | none => rfl
          | some cls =>
            obtain ⟨-, outer, -, hcls, -⟩ := h.of_mem_around (List.mem_of_find?_eq_some hclass)
            have hresolution := Node.memberResolution_renumber cls
              (fun i hi j hj => hf i (hcls.ids_subset hi) j (hcls.ids_subset hj)) member
            dsimp only [Option.map_some]
            rw [hresolution]
            split
            · rfl
            · split
              · split <;> rfl
              · rfl
  | _ => rfl

end TrueCondition

namespace CanonicalAccess

theorem containerIn?_renumber (access : CanonicalAccess) (around : List Node) (n : Node) :
    access.containerIn? .declared (around.map (Node.renumber f)) (n.renumber f) =
      access.containerIn? .declared around n := by
  have hparent : ((around.map (Node.renumber f)).head?.any fun m => m.kind = .fetch) =
      around.head?.any fun m => m.kind = .fetch := by
    cases around with
    | nil => rfl
    | cons m around => simp
  unfold containerIn?
  rw [Node.form_renumber, hparent, nearestClass?_renumber, nearestFunction?_renumber]
  cases n.form with
  | fetch object name =>
    have hobject :=
      Oracle.declared_renumber f ⟨nearestClass? around, nearestFunction? around⟩ object
    dsimp only [Form.map, Scope.map] at hobject ⊢
    rw [hobject, Node.form_renumber]
    cases object.form <;> rfl
  | _ => rfl

/-- A longer fetch is the same one but for its numbers, wherever it stands. -/
theorem bare_lengthened (access : CanonicalAccess) (n m : Node) (x : String) (next next' : Nat) :
    (access.lengthened n x next).bare = (access.lengthened m x next').bare := by
  simp [lengthened, Node.bare_eq, Form.map]

end CanonicalAccess

end

namespace Node.SamePlace

variable {a b n m : Node} {around above : List Node}

theorem settledBody?_eq (h : SamePlace a b around above n m) :
    (TrueCondition.settledBody? .declared around n).map (List.map bare) =
      (TrueCondition.settledBody? .declared above m).map (List.map bare) := by
  have hbare : ∀ (f : Nat → Nat) (body : Option (List Node)),
      (body.map (List.map (renumber f))).map (List.map bare) = body.map (List.map bare) := by
    intro f body
    rw [Option.map_map, List.map_comp_map]
    exact congrArg (fun g => body.map (List.map g)) (funext (bare_renumber f))
  have hleft := TrueCondition.settledBody?_renumber a.place h.occurs_left
    fun i hi j _ hplace => place_inj hi hplace
  have hright := TrueCondition.settledBody?_renumber b.place h.occurs_right
    fun i hi j _ hplace => place_inj hi hplace
  rw [h.around_eq, h.node_eq, hright] at hleft
  rw [← hbare a.place, ← hleft, hbare]

theorem containerIn?_eq (h : SamePlace a b around above n m) (access : CanonicalAccess) :
    access.containerIn? .declared around n = access.containerIn? .declared above m := by
  rw [← CanonicalAccess.containerIn?_renumber a.place, h.around_eq, h.node_eq,
    CanonicalAccess.containerIn?_renumber]

theorem kind_eq (h : SamePlace a b around above n m) : n.kind = m.kind := by
  rw [← kind_renumber (n := n) (f := a.place), h.node_eq, kind_renumber]

/-- A rule asks for the same edit in the same place. -/
theorem bare_answer (h : SamePlace a b around above n m) (rule : RuleConfig) (next next' : Nat) :
    (rule.answer around n next).1.bare = (rule.answer above m next').1.bare := by
  cases rule with
  | trueCondition =>
    have hunwrap : ∀ body : Option (List Node), (TrueCondition.unwrap body).bare =
        TrueCondition.unwrap (body.map (List.map bare)) := by
      intro body
      cases body with
      | none => rfl
      | some body => cases body <;> rfl
    rw [RuleConfig.answer, RuleConfig.answer, hunwrap, hunwrap, h.settledBody?_eq]
  | canonicalAccess access =>
    rw [RuleConfig.answer, RuleConfig.answer, h.containerIn?_eq]
    cases access.containerIn? .declared above m with
    | none => rfl
    | some x => exact congrArg Edit.replace (access.bare_lengthened n m x next next')

/-- Offered to the same rules, nodes in the same place get the same edit, and leave the same
statistics. -/
theorem offer_eq (h : SamePlace a b around above n m) (pass : Nat) (rules : List RuleConfig)
    (stats : Stats) (next next' : Nat) :
    ∃ stats' after after' edit edit',
      offer ⟨a.indexed, .declared, pass⟩ n stats next (rules.map RuleConfig.rule) =
        ⟨stats', after, .ok edit⟩ ∧
      offer ⟨b.indexed, .declared, pass⟩ m stats next' (rules.map RuleConfig.rule) =
        ⟨stats', after', .ok edit'⟩ ∧ edit.bare = edit'.bare := by
  induction rules generalizing stats next next' with
  | nil => exact ⟨stats, next, next', .keep, .keep, rfl, rfl, rfl⟩
  | cons rule rules ih =>
    have hanswer := h.bare_answer rule next next'
    rw [List.map_cons, offer, offer, h.kind_eq, RuleConfig.apply_of_occurs h.left h.occurs_left,
      RuleConfig.apply_of_occurs h.right h.occurs_right]
    split
    · generalize rule.answer around n next = answer at hanswer ⊢
      generalize rule.answer above m next' = answer' at hanswer ⊢
      obtain ⟨edit, after⟩ := answer
      obtain ⟨edit', after'⟩ := answer'
      have hkeep := Edit.eq_keep_of_bare_eq hanswer
      by_cases hedit : edit = .keep
      · obtain rfl := hedit
        obtain rfl := hkeep.mp rfl
        exact ih _ after after'
      · have hedit' : edit' ≠ .keep := fun h => hedit (hkeep.mpr h)
        refine ⟨(stats.invoked rule.rule.name).edited rule.rule.name, after, after', edit, edit',
          ?_, ?_, hanswer⟩
        · cases edit with
          | keep => exact absurd rfl hedit
          | _ => rfl
        · cases edit' with
          | keep => exact absurd rfl hedit'
          | _ => rfl
    · exact ih stats next next'

end Node.SamePlace

end PhpRefactor
