import PhpRefactor.Files.Batch
import PhpRefactor.Proofs.Document.RoundTrip
import PhpRefactor.Proofs.Engine.Renewal
import PhpRefactor.Proofs.Files.Again

/-!
# The numbers of a file

Which numbers the nodes of a file get depends on the work on other files.  What comes of the file
does not, but for the numbers that an error names: a run over the tree of its text with some numbers
comes to the same as a run with other numbers (`Batch.map_upshot_runText`), so the same is written
(`Batch.render_eq`).

Both are compared with the run in which nodes are numbered as they were read: it goes on side by
side with either (`Numbering.abreast`).
-/

set_option autoImplicit false

namespace PhpRefactor

namespace Numbering

variable {numbering : Numbering} {next i : Nat}

/-- What becomes of the numbers of nodes as they were read, and of new ones from `next` on. -/
def rename (numbering : Numbering) (next i : Nat) : Nat :=
  if i = 0 then 0
  else if i < next then numbering.number i
  else numbering.next next + (i - next)

theorem rename_of_lt (hpos : 0 < i) (hlt : i < next) :
    numbering.rename next i = numbering.number i := by
  rw [rename, if_neg (Nat.ne_of_gt hpos), if_pos hlt]

theorem renames (numbering : Numbering) (hnext : 0 < next) :
    Renames (numbering.rename next) next (numbering.next next) where
  zero := if_pos rfl
  add k := by
    rw [rename, if_neg (by omega), if_neg (by omega), Nat.add_sub_cancel_left]

/-- A tree as it was read, and the same tree with other numbers. -/
theorem abreast (numbering : Numbering) (n : Node) (stats : Stats) :
    Workspace.Abreast (numbering.rename (Node.number 1 n).2) (Node.number 1 n).2
      (numbering.next (Node.number 1 n).2)
      ⟨(Node.number 1 n).1, (Node.number 1 n).2, stats⟩
      ⟨(Node.number 1 n).1.mapIds numbering.number, numbering.next (Node.number 1 n).2, stats⟩ := by
  have hsound := Workspace.sound_of_number 1 n stats
  obtain ⟨hids, -⟩ := Node.ids_number 1 n
  have hpos : ∀ i ∈ (Node.number 1 n).1.ids, 0 < i := fun i hi =>
    (List.mem_range'_1.mp (hids ▸ hi)).1
  have hnext : 0 < (Node.number 1 n).2 :=
    Nat.zero_lt_of_lt (hsound.below _ (Node.id_mem_ids _))
  have hright : (Workspace.mk ((Node.number 1 n).1.mapIds numbering.number)
      (numbering.next (Node.number 1 n).2) stats).Sound := by
    constructor
    · rw [Node.ids_mapIds]
      exact hsound.nodup.map fun i j => numbering.injective i j
    · intro i hi
      rw [Node.ids_mapIds, List.mem_map] at hi
      obtain ⟨j, hj, rfl⟩ := hi
      exact numbering.below _ j (hsound.below j hj)
  exact ⟨numbering.renames hnext, hsound, hright,
    Node.mapIds_congr fun i hi => (rename_of_lt (hpos i hi) (hsound.below i hi)).symm,
    ⟨0, rfl, rfl⟩, fun _ => rfl, .of_forall_lt hsound.below⟩

end Numbering

/-- The error without identities. -/
def BatchError.bare : BatchError → BatchError
  | running path cause => running path cause.bare
  | e => e

/-- The summary without identities. -/
def BatchSummary.bare (s : BatchSummary) : BatchSummary :=
  { s with failures := s.failures.map fun (source, e) => (source, e.bare) }

/-- What a run comes to, without identities. -/
def upshot (run : Workspace × Except RunError RunSummary) :
    Node × Stats × Except RunError RunSummary :=
  (run.1.tree.anonymous, run.1.stats, run.2.mapError RunError.bare)

theorem RunError.bare_mapIds (f : Nat → Nat) (e : RunError) : (e.mapIds f).bare = e.bare := by
  cases e with
  | badTree reason => cases reason <;> rfl
  | unstable passes => rfl
  | tooManyVisits limit => rfl

namespace Config

/-- A run over a tree comes to the same as one over the tree as it was read. -/
theorem upshot_stabilize (config : Config) (numbering : Numbering) (n : Node) :
    upshot (config.engine.stabilize (config.engine.workspace
        ((Node.number 1 n).1.mapIds numbering.number) (numbering.next (Node.number 1 n).2))) =
      upshot (config.engine.stabilize
        (config.engine.workspace (Node.number 1 n).1 (Node.number 1 n).2)) := by
  have h := numbering.abreast n config.engine.newStats
  have hmoved := config.passesFrom_moved .zero config.maxPasses h
  have halike : Workspace.Alike ⟨(Node.number 1 n).1, (Node.number 1 n).2, config.engine.newStats⟩
      ⟨(Node.number 1 n).1.mapIds numbering.number, numbering.next (Node.number 1 n).2,
        config.engine.newStats⟩ := ⟨(Node.bare_mapIds _ _).symm, rfl⟩
  have hstats := (config.passesFrom_sameRun .zero config.maxPasses h.left h.right halike).stats_eq
  have hresult : ∀ r : Except RunError RunSummary,
      (r.mapError (RunError.mapIds (numbering.rename (Node.number 1 n).2))).mapError
        RunError.bare = r.mapError RunError.bare := fun r => by
    cases r with
    | error e => exact congrArg Except.error (RunError.bare_mapIds _ e)
    | ok summary => rfl
  refine Prod.ext ?_ (Prod.ext hstats.symm ?_)
  · exact (congrArg Node.anonymous hmoved.tree_eq).trans (Node.anonymous_mapIds _ _)
  · exact (congrArg (Except.mapError RunError.bare) hmoved.result_eq).trans (hresult _)

end Config

namespace Batch

variable {batch : Batch} {text : String} {w : Workspace} {summary : RunSummary}

/-- The same batch, but files come by other numbers. -/
def renumber (batch : Batch) (numbering : String → Numbering) : Batch := { batch with numbering }

/-- What a text comes to does not depend on the numbers of its nodes. -/
theorem map_upshot_runText (batch : Batch) (numbering other : Numbering) (text : String) :
    (batch.runText numbering text).map upshot = (batch.runText other text).map upshot := by
  rw [runText, runText]
  cases hread : Document.readTree 1 text with
  | error e => rfl
  | ok read =>
    obtain ⟨n, -, rfl⟩ := Document.exists_of_readTree hread
    exact congrArg Except.ok ((batch.config.upshot_stabilize numbering n).trans
      (batch.config.upshot_stabilize other n).symm)

/-- Trees that differ in identities only have the same output. -/
theorem render_eq (batch : Batch) {a b : Node} (h : a.anonymous = b.anonymous) :
    batch.render a = batch.render b := by
  unfold render
  split
  · refine Node.source_eq_of_bare_eq ?_
    rw [← Node.bare_anonymous, h, Node.bare_anonymous]
  · rw [Document.writeTree, Document.writeTree, ← Node.toJson_anonymous, h, Node.toJson_anonymous]

theorem transformText_renumber (batch : Batch) (numbering : String → Numbering)
    (source text : String) :
    (batch.renumber numbering).transformText source text =
      match batch.runText (numbering source) text with
      | .error e => .error (.document source e)
      | .ok (w, .ok summary) => .ok (w, summary)
      | .ok (_, .error e) => .error (.running source e) := rfl

/-- What comes of a text comes of it under any path and any numbers. -/
theorem exists_transformText_eq_ok {s : String} (numbering : String → Numbering) (t : String)
    (h : batch.transformText s text = .ok (w, summary)) :
    ∃ w', (batch.renumber numbering).transformText t text = .ok (w', summary) ∧
      batch.render w'.tree = batch.render w.tree ∧ w'.stats = w.stats := by
  have hsame := batch.map_upshot_runText (batch.numbering s) (numbering t) text
  rw [transformText_renumber]
  unfold transformText at h
  split at h
  · cases h
  · rename_i hrun
    obtain ⟨rfl, rfl⟩ := Prod.mk.inj (Except.ok.inj h)
    rw [hrun] at hsame
    obtain ⟨⟨w', result⟩, hrun', hupshot⟩ := map_eq_ok_iff.mp hsame.symm
    obtain ⟨htree, hrest⟩ := Prod.mk.inj hupshot
    obtain ⟨hstats, hresult⟩ := Prod.mk.inj hrest
    obtain rfl := mapError_eq_ok_iff.mp hresult
    exact ⟨w', by rw [hrun'], batch.render_eq htree, hstats⟩
  · cases h

/-- What goes wrong with a text goes wrong under any numbers, and nothing but the numbers that are
named differs. -/
theorem exists_transformText_eq_error {source : String} {e : BatchError}
    (numbering : String → Numbering) (h : batch.transformText source text = .error e) :
    ∃ d, (batch.renumber numbering).transformText source text = .error d ∧ d.bare = e.bare := by
  have hsame := batch.map_upshot_runText (batch.numbering source) (numbering source) text
  rw [transformText_renumber]
  unfold transformText at h
  split at h
  · rename_i hrun
    obtain rfl := Except.error.inj h
    rw [hrun] at hsame
    cases hother : batch.runText (numbering source) text with
    | error d =>
      rw [hother] at hsame
      exact ⟨_, rfl, congrArg (BatchError.document source) (Except.error.inj hsame).symm⟩
    | ok run =>
      rw [hother] at hsame
      cases hsame
  · cases h
  · rename_i hrun
    obtain rfl := Except.error.inj h
    rw [hrun] at hsame
    obtain ⟨⟨w', result⟩, hrun', hupshot⟩ := map_eq_ok_iff.mp hsame.symm
    obtain ⟨-, hrest⟩ := Prod.mk.inj hupshot
    obtain ⟨-, hresult⟩ := Prod.mk.inj hrest
    cases result with
    | ok summary => cases hresult
    | error d =>
      rw [hrun']
      exact ⟨_, rfl, congrArg (BatchError.running source) (Except.error.inj hresult)⟩

end Batch

end PhpRefactor
