import PhpRefactor.Proofs.Engine.Course
import PhpRefactor.Proofs.Files.Again

/-!
# No identity is ever repeated

The nodes of a document are numbered when it is read, and the configured rules bring in nothing but
nodes of the tree and nodes with new numbers.  So identities stay apart in every state of every
pass, of those that fail as well, and no look-up fails and no tree repeats a node.  What can fail is
taking an `if` from a place that is no list of statements, and a run can use up its passes
(`Config.keeps_ids_apart`).
-/

set_option autoImplicit false

namespace PhpRefactor

/-- A tree that is read has no identity twice, and all are below the next free number. -/
theorem Document.sound_of_readTree {first : Nat} {text : String} {tree : Node} {next : Nat}
    (h : readTree first text = .ok (tree, next)) (stats : Stats) :
    (⟨tree, next, stats⟩ : Workspace).Sound := by
  obtain ⟨n, -, hnumber⟩ := exists_of_readTree h
  obtain ⟨rfl, rfl⟩ := Prod.mk.inj hnumber
  exact Workspace.sound_of_number first n stats

/-- A class with a settled `if` that stands as an expression, with this body. -/
def Node.crooked (body : List Node) : Node :=
  ⟨0, .none, .file [⟨0, .none, .classDecl "Box" none [
    ⟨0, .none, .property .isPrivate false "value" none⟩,
    ⟨0, .none, .method "__construct" .isPublic false [] [
      ⟨0, .none, .exprStmt ⟨0, .none, .assign ⟨0, .none, .fetch ⟨0, .none, .var "this"⟩ "value"⟩
        ⟨0, .none, .newObject "Inner" []⟩⟩⟩]⟩,
    ⟨0, .none, .method "get" .isPublic false [] [
      ⟨0, .none, .exprStmt ⟨0, .none, .ifStmt
        ⟨0, .none, .fetch ⟨0, .none, .var "this"⟩ "value"⟩ body [] none⟩⟩]⟩]⟩]⟩

/-- It is read from the document that is written for it. -/
theorem Document.readTree_crooked :
    readTree 1 (writeTree (.crooked [⟨0, .none, .echo []⟩])) =
      .ok (Node.number 1 (Node.crooked [⟨0, .none, .echo []⟩]).anonymous) := by
  have hfloat : ∀ n ∈ (Node.crooked [⟨0, .none, .echo []⟩]).preorder, n.kind ≠ .float := by
    decide +kernel
  exact readTree_text (Node.finiteFloats_of_no_float hfloat)
    (Node.floatsReadBack_of_no_float hfloat) (by decide +kernel) (.inl rfl) 1

namespace Config

/-- From a document that is read to the tree that a pass or a run leaves behind no identity is ever
repeated: not in the tree that is read, not in any state of a pass, not where it ends and not where
it fails.  A pass fails only if a node is not to be taken from its place, and a run does so too, or
it has made all its passes. -/
theorem keeps_ids_apart (config : Config) (first : Nat) (text : String) (tree : Node) (next : Nat)
    (hread : Document.readTree first text = .ok (tree, next)) :
    tree.ids.Nodup ∧
    (∀ edits w, config.engine.Passes (config.engine.workspace tree next) edits w → ∀ number,
      (∀ s, w.begun.Reaches config.engine.rules .declared number s → s.tree.ids.Nodup) ∧
      ∀ w' answer, config.engine.pass number w = (w', answer) → w'.tree.ids.Nodup ∧
        ∀ reason, answer = .error reason →
          ∃ e : TreeError, reason = .badTree e ∧ e.IsMisplaced) ∧
    ∀ w' answer, config.engine.stabilize (config.engine.workspace tree next) = (w', answer) →
      w'.tree.ids.Nodup ∧
        ∀ reason, answer = .error reason →
          reason = .unstable config.maxPasses ∨
            ∃ e : TreeError, reason = .badTree e ∧ e.IsMisplaced := by
  have hw : (config.engine.workspace tree next).Sound := Document.sound_of_readTree hread _
  refine ⟨hw.nodup, ?_, ?_⟩
  · intro edits w hpasses number
    have hsound := (passes_accounted hw hpasses).1
    refine ⟨fun s hreach => ?_, fun w' answer hpass => config.pass_sound number hsound hpass⟩
    obtain ⟨done, ahead, A⟩ := accounted_of_reaches hsound hreach
    exact A.nodup
  · intro w' answer hrun
    obtain ⟨edits, v, hpasses, hend⟩ := Engine.passesFrom_cases hrun
    have hsound := (passes_accounted hw hpasses).1
    rcases hend with ⟨rfl, hreason⟩ | ⟨number, reason, hpass, rfl⟩
    · exact ⟨hsound.nodup, fun reason heq => .inl (hreason reason heq)⟩
    · obtain ⟨hnodup, hmisplaced⟩ := config.pass_sound number hsound hpass
      refine ⟨hnodup, fun other heq => ?_⟩
      obtain rfl := Except.error.inj heq
      exact .inr (hmisplaced reason rfl)

theorem keeps_ids_apart_crooked :
    ∃ tree next,
      Document.readTree 1 (Document.writeTree (.crooked [⟨0, .none, .echo []⟩])) =
        .ok (tree, next) ∧ tree.ids.Nodup ∧
      ∃ w' i parent, standard.engine.stabilize (standard.engine.workspace tree next) =
          (w', .error (.badTree (.notInStatements i parent .exprStmt))) ∧
        w'.tree.ids.Nodup := by
  have hread := Document.readTree_crooked
  obtain ⟨hnodup, -, hrun⟩ := keeps_ids_apart standard 1 _ _ _ hread
  refine ⟨_, _, hread, hnodup, _, 12, 11, Prod.ext rfl ?_, (hrun _ _ rfl).1⟩
  decide +kernel

/-- Without a body the `if` cannot go either. -/
example : ∃ i parent, (standard.engine.stabilize (standard.engine.workspace
    (Node.number 1 (.crooked [])).1 (Node.number 1 (.crooked [])).2)).2 =
      .error (.badTree (.required i parent .exprStmt)) := ⟨12, 11, by decide +kernel⟩

/-- One pass is not enough where there is something to edit. -/
example : ((Config.mk standard.rules 1).engine.stabilize .box).2 = .error (.unstable 1) := by
  decide +kernel

end Config

end PhpRefactor
