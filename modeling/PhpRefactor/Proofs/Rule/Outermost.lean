import PhpRefactor.Proofs.Engine.Visit

/-!
# A file around all is not seen

A rule asks for the class and the function around a node, and for the parent of a fetch.  A file is
none of these.  So it does not matter to a rule what else there is in the file
(`RuleConfig.wants_append_file_iff`, `RuleConfig.answer_append_file`).

`offer_congr` carries this over to the rules together: where they answer the same, the same comes of
an offer.
-/

set_option autoImplicit false

namespace PhpRefactor

variable {file : Node}

theorem nearestClass?_append_file (h : file.kind = .file) (around : List Node) :
    nearestClass? (around ++ [file]) = nearestClass? around := by
  simp [nearestClass?, List.find?_append, h]

theorem nearestFunction?_append_file (h : file.kind = .file) (around : List Node) :
    nearestFunction? (around ++ [file]) = nearestFunction? around := by
  induction around with
  | nil => simp [nearestFunction?, h]
  | cons m around ih =>
    rw [List.cons_append, nearestFunction?, nearestFunction?, ih]

theorem underConstructor_append_file (h : file.kind = .file) (around : List Node) :
    underConstructor (around ++ [file]) = underConstructor around := by
  have hfile : file.isConstructor = false := by
    rw [Bool.eq_false_iff]
    intro hconstructor
    exact nomatch h.symm.trans (Node.kind_of_isConstructor hconstructor)
  induction around with
  | nil => simp [underConstructor, h, hfile]
  | cons m around ih =>
    unfold underConstructor at ih ⊢
    rw [List.cons_append, List.takeWhile_cons, List.takeWhile_cons]
    split
    · rw [List.any_cons, List.any_cons, ih]
    · rfl

theorem TrueCondition.settledBody?_append_file (h : file.kind = .file) (oracle : Oracle)
    (around : List Node) (n : Node) :
    settledBody? oracle (around ++ [file]) n = settledBody? oracle around n := by
  unfold settledBody?
  rw [nearestClass?_append_file h, underConstructor_append_file h]

theorem CanonicalAccess.containerIn?_append_file (h : file.kind = .file)
    (access : CanonicalAccess) (oracle : Oracle) (around : List Node) (n : Node) :
    access.containerIn? oracle (around ++ [file]) n = access.containerIn? oracle around n := by
  have hparent : ((around ++ [file]).head?.any fun parent => parent.kind = .fetch) =
      around.head?.any fun parent => parent.kind = .fetch := by
    cases around with
    | nil => simp [h]
    | cons m around => rfl
  unfold containerIn?
  rw [nearestClass?_append_file h, nearestFunction?_append_file h, hparent]

namespace RuleConfig

theorem wants_append_file_iff (h : file.kind = .file) (rule : RuleConfig) (around : List Node)
    (n : Node) : rule.Wants (around ++ [file]) n ↔ rule.Wants around n := by
  cases rule with
  | trueCondition => rw [Wants, Wants, TrueCondition.settledBody?_append_file h]
  | canonicalAccess access => rw [Wants, Wants, access.containerIn?_append_file h]

theorem answer_append_file (h : file.kind = .file) (rule : RuleConfig) (around : List Node)
    (n : Node) (next : Nat) :
    rule.answer (around ++ [file]) n next = rule.answer around n next := by
  cases rule with
  | trueCondition => rw [answer, answer, TrueCondition.settledBody?_append_file h]
  | canonicalAccess access => rw [answer, answer, access.containerIn?_append_file h]

end RuleConfig

/-- Rules that answer the same about a node in two places come to the same edit, whatever the
statistics are. -/
theorem offer_congr {site site' : Site} {n : Node} {rules : List Rule}
    (h : ∀ rule ∈ rules, ∀ next, rule.apply site n next = rule.apply site' n next)
    (stats stats' : Stats) (next : Nat) :
    (offer site n stats next rules).answer = (offer site' n stats' next rules).answer ∧
      (offer site n stats next rules).next = (offer site' n stats' next rules).next := by
  induction rules generalizing stats stats' next with
  | nil => exact ⟨rfl, rfl⟩
  | cons rule rules ih =>
    have hrest := ih fun r hr => h r (List.mem_cons_of_mem _ hr)
    rw [offer, offer, h rule List.mem_cons_self]
    split
    · rcases rule.apply site' n next with e | ⟨edit, after⟩
      · exact ⟨rfl, rfl⟩
      · cases edit with
        | keep => exact hrest _ _ _
        | replace x => exact ⟨rfl, rfl⟩
        | splice xs => exact ⟨rfl, rfl⟩
        | remove => exact ⟨rfl, rfl⟩
    · exact hrest _ _ _

end PhpRefactor
