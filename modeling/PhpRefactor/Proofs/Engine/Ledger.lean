import PhpRefactor.Proofs.Engine.Counts
import PhpRefactor.Proofs.Engine.Coverage

/-!
# The statistics and what happened

A pass offers nodes to the rules (`Engine.dispatches`), and what it leaves in the statistics is what
these offers leave there, one after the other, whether the pass fails or not
(`Engine.stats_pass`).  The edits are counted a second time in the summary of the pass.

So the two accounts agree over any row of requests to an engine (`Engine.statistics_agree`): passes,
runs until stable, and clearing of the statistics, on whatever trees, with whatever rules.
-/

set_option autoImplicit false

namespace PhpRefactor

namespace PassState

variable {rules : List Rule} {oracle : Oracle} {pass : Nat} {s s' : PassState}

/-- Where a computation has come to, if it failed or not. -/
def standing : Except Halt PassState → PassState
  | .ok s => s
  | .error halt => halt.state

/-- The node whose turn it is, if it is to be offered to the rules. -/
def dispatch? (oracle : Oracle) (pass : Nat) (s : PassState) : Option Dispatch :=
  s.upNext?.bind fun n =>
    if n.id ∈ s.offered then none else some ⟨⟨⟨s.tree, s.index⟩, oracle, pass⟩, n, s.next⟩

/-- The offers of a run of so many visits, the one of a visit that fails among them. -/
def dispatches (rules : List Rule) (oracle : Oracle) (pass : Nat) : Nat → PassState → List Dispatch
  | 0, _ => []
  | visits + 1, s =>
    (s.dispatch? oracle pass).toList ++
      match s.step rules oracle pass with
      | .ok s' => s'.dispatches rules oracle pass visits
      | .error _ => []

/-! ## One visit -/

theorem stats_carryOut (s : PassState) (id : Nat) (edit : Edit) :
    (standing (s.carryOut id edit)).stats = s.stats := by
  unfold carryOut
  dsimp only
  split
  · rfl
  · split <;> rfl

theorem edits_carryOut {id : Nat} {edit : Edit} (h : s.carryOut id edit = .ok s') :
    s'.edits = s.edits + 1 := by
  unfold carryOut at h
  dsimp only at h
  split at h
  · cases h
  · split at h
    · cases h
    · rw [← Except.ok.inj h]

/-- A visit leaves in the statistics what the offer leaves there, if it makes one. -/
theorem stats_step (rules : List Rule) (oracle : Oracle) (pass : Nat) (s : PassState) :
    (standing (s.step rules oracle pass)).stats =
      (s.dispatch? oracle pass).toList.foldl (fun stats d => (d.offer stats rules).stats)
        s.stats := by
  unfold step dispatch? upNext?
  cases hpending : s.pending with
  | nil => rfl
  | cons id pending =>
    dsimp only [List.head?_cons, Option.bind_some]
    cases s.index.find? s.tree id with
    | none => rfl
    | some n =>
      dsimp only [Option.bind_some]
      unfold visit
      by_cases hoffered : n.id ∈ s.offered
      · rw [if_pos hoffered, if_pos hoffered]
        rfl
      · rw [if_neg hoffered, if_neg hoffered]
        dsimp only [Option.toList, List.foldl_cons, List.foldl_nil]
        split
        · rfl
        · rfl
        · exact stats_carryOut _ _ _

/-- A visit that goes well counts an edit if the rules ask for one. -/
theorem edits_step (h : s.step rules oracle pass = .ok s') :
    s'.edits = s.edits + ((s.dispatch? oracle pass).toList.map fun d => d.edits rules).sum := by
  unfold step at h
  unfold dispatch? upNext?
  cases hpending : s.pending with
  | nil =>
    rw [hpending] at h
    rw [← Except.ok.inj h]
    rfl
  | cons id pending =>
    rw [hpending] at h
    dsimp only [List.head?_cons, Option.bind_some] at h ⊢
    cases hfind : s.index.find? s.tree id with
    | none =>
      rw [hfind] at h
      cases h
    | some n =>
      rw [hfind] at h
      dsimp only [Option.bind_some] at h ⊢
      unfold visit at h
      by_cases hoffered : n.id ∈ s.offered
      · rw [if_pos hoffered] at h
        rw [if_pos hoffered, ← Except.ok.inj h]
        rfl
      · rw [if_neg hoffered] at h
        rw [if_neg hoffered, Option.toList, List.map_singleton, List.sum_singleton, Dispatch.edits,
          (Dispatch.answer_offer _ [] s.stats rules).1, Dispatch.offer]
        dsimp only at h ⊢
        split at h
        · cases h
        · rename_i hanswer
          rw [hanswer, ← Except.ok.inj h]
          rfl
        · rename_i edit hne hanswer
          rw [hanswer, edits_carryOut h]
          cases edit with
          | keep => exact absurd rfl hne
          | _ => rfl

/-! ## A run -/

theorem dispatches_of_pending_eq_nil (h : s.pending = []) (visits : Nat) :
    s.dispatches rules oracle pass visits = [] := by
  induction visits with
  | zero => rfl
  | succ visits ih =>
    have hnone : s.dispatch? oracle pass = none := by rw [dispatch?, upNext?, h]; rfl
    have hstep : s.step rules oracle pass = .ok s := by rw [step, h]
    rw [dispatches, hnone, hstep]
    exact ih

/-- A run leaves in the statistics what its offers leave there, one after the other. -/
theorem stats_run (rules : List Rule) (oracle : Oracle) (pass visits : Nat) (s : PassState) :
    (standing (s.run rules oracle pass visits)).stats =
      (s.dispatches rules oracle pass visits).foldl (fun stats d => (d.offer stats rules).stats)
        s.stats := by
  induction visits generalizing s with
  | zero =>
    unfold run
    split <;> rfl
  | succ visits ih =>
    by_cases hpending : s.pending = []
    · rw [run_of_pending_eq_nil _ hpending, dispatches_of_pending_eq_nil hpending]
      rfl
    · have hstats := stats_step rules oracle pass s
      rw [run_succ visits hpending, dispatches, List.foldl_append, ← hstats]
      cases s.step rules oracle pass with
      | error halt => rfl
      | ok next => exact ih next

/-- A run that goes well has counted the edits that were asked for. -/
theorem edits_run {visits : Nat} (h : s.run rules oracle pass visits = .ok s') :
    s'.edits = s.edits +
      ((s.dispatches rules oracle pass visits).map fun d => d.edits rules).sum := by
  have hends := run_eq_ok_iff.mp h
  clear h
  induction hends with
  | done visits hpending =>
    rw [dispatches_of_pending_eq_nil hpending]
    rfl
  | visit hsteps _ ih =>
    rw [ih, edits_step hsteps.2, dispatches, hsteps.2, List.map_append, List.sum_append,
      Nat.add_assoc]

end PassState

namespace Dispatch

variable {rules : List Rule} {stats : Stats}

/-! ## Offers one after another -/

theorem invocations_foldl (ds : List Dispatch) (stats : Stats) (rules : List Rule) (name : String) :
    ((ds.foldl (fun stats d => (d.offer stats rules).stats) stats).entryOf name).invocations =
      (stats.entryOf name).invocations +
        (ds.map fun d => (d.asked rules).countP (·.name = name)).sum := by
  induction ds generalizing stats with
  | nil => rfl
  | cons d ds ih =>
    rw [List.foldl_cons, ih, invocations_offer, List.map_cons, List.sum_cons, Nat.add_assoc]

theorem edits_foldl (ds : List Dispatch) (stats : Stats) (rules : List Rule) :
    (ds.foldl (fun stats d => (d.offer stats rules).stats) stats).edits =
      stats.edits + (ds.map fun d => d.edits rules).sum := by
  induction ds generalizing stats with
  | nil => rfl
  | cons d ds ih =>
    rw [List.foldl_cons, ih, edits_offer, List.map_cons, List.sum_cons, Nat.add_assoc]

end Dispatch

/-- The statistics have one entry for each name of a rule, in the order in which the names come
first, and no entry has more edits than invocations. -/
structure Engine.Keeps (e : Engine) (stats : Stats) : Prop where
  names_eq : stats.map (·.name) = e.ruleNames.eraseDups
  bounded : stats.Bounded

namespace Engine

variable {e : Engine} {stats : Stats} {w w' : Workspace}

theorem keeps_newStats (e : Engine) : e.Keeps e.newStats :=
  ⟨Stats.names_register _, Stats.bounded_register _⟩

namespace Keeps

theorem clear (h : e.Keeps stats) : e.Keeps stats.clear :=
  ⟨(Stats.names_clear stats).trans h.names_eq, Stats.bounded_clear stats⟩

theorem offer (h : e.Keeps stats) (d : Dispatch) : e.Keeps (d.offer stats e.rules).stats := by
  refine ⟨?_, d.bounded_offer e.rules h.bounded⟩
  rw [d.names_offer, h.names_eq]
  intro rule hrule
  rw [h.names_eq, List.mem_eraseDups]
  exact List.mem_map_of_mem hrule

end Keeps

/-! ## A pass -/

/-- The offers of a pass. -/
def dispatches (e : Engine) (number : Nat) (w : Workspace) : List Dispatch :=
  match TreeIndex.ofTree w.tree with
  | .error _ => []
  | .ok index =>
    (PassState.start w.tree index w.next w.stats).dispatches e.rules e.oracle number
      (e.visitLimit w.tree)

/-- A pass leaves in the statistics what its offers leave there, whether it fails or not. -/
theorem stats_pass (e : Engine) (number : Nat) (w : Workspace) :
    (e.pass number w).1.stats =
      (e.dispatches number w).foldl (fun stats d => (d.offer stats e.rules).stats) w.stats := by
  rw [pass, dispatches]
  cases TreeIndex.ofTree w.tree with
  | error reason => rfl
  | ok index =>
    have hrun := PassState.stats_run e.rules e.oracle number (e.visitLimit w.tree)
      (.start w.tree index w.next w.stats)
    dsimp only
    cases h : (PassState.start w.tree index w.next w.stats).run e.rules e.oracle number
        (e.visitLimit w.tree) <;>
    · rw [h] at hrun
      exact hrun

/-- A pass that goes well says in its summary how many edits were asked for. -/
theorem edits_pass {number : Nat} {counts : PassSummary}
    (h : e.pass number w = (w', .ok counts)) :
    counts.edits = ((e.dispatches number w).map fun d => d.edits e.rules).sum := by
  rw [pass] at h
  rw [dispatches]
  cases hindex : TreeIndex.ofTree w.tree with
  | error reason =>
    rw [hindex] at h
    cases h
  | ok index =>
    rw [hindex] at h
    dsimp only at h ⊢
    split at h
    · cases h
    · rename_i s hrun
      obtain ⟨-, hcounts⟩ := Prod.mk.inj h
      rw [← Except.ok.inj hcounts]
      exact (PassState.edits_run hrun).trans (Nat.zero_add _)

theorem Keeps.pass (h : e.Keeps w.stats) (number : Nat) : e.Keeps (e.pass number w).1.stats := by
  rw [stats_pass]
  generalize e.dispatches number w = ds
  generalize w.stats = stats at h
  induction ds generalizing stats with
  | nil => exact h
  | cons d ds ih => exact ih _ (h.offer d)

/-- Both accounts of the edits of a pass agree. -/
theorem edits_stats_pass {number : Nat} {counts : PassSummary}
    (h : e.pass number w = (w', .ok counts)) : w'.stats.edits = w.stats.edits + counts.edits := by
  have hstats := e.stats_pass number w
  rw [h] at hstats
  rw [hstats, Dispatch.edits_foldl, edits_pass h]

/-! ## A run until stable -/

theorem Keeps.passesFrom (h : e.Keeps w.stats) (summary : RunSummary) (passes : Nat) :
    e.Keeps (e.passesFrom w summary passes).1.stats := by
  induction passes generalizing w summary with
  | zero => exact h
  | succ passes ih =>
    have hpass := h.pass (summary.passes + 1)
    rw [Engine.passesFrom]
    rcases hresult : e.pass (summary.passes + 1) w with ⟨next, reason | counts⟩ <;>
      rw [hresult] at hpass
    · exact hpass
    · dsimp only
      split
      · exact hpass
      · exact ih hpass _

/-- Both accounts of the edits of a run agree. -/
theorem edits_stats_passesFrom {summary total : RunSummary} {passes : Nat}
    (h : e.passesFrom w summary passes = (w', .ok total)) :
    w'.stats.edits + summary.edits = w.stats.edits + total.edits := by
  induction passes generalizing w summary with
  | zero => cases h
  | succ passes ih =>
    rw [passesFrom] at h
    split at h
    · cases h
    · rename_i next counts hpass
      have hedits := edits_stats_pass hpass
      have hadd : (summary.add counts).edits = summary.edits + counts.edits := rfl
      dsimp only at h
      split at h
      · obtain ⟨rfl, htotal⟩ := Prod.mk.inj h
        rw [← Except.ok.inj htotal]
        omega
      · have hrest := ih h
        omega

/-! ## Requests -/

/-- What an engine can be asked to do: a pass over a tree, with a supply of identities for new
nodes, a run until the tree is stable, or to clear the statistics. -/
inductive Request where
  | pass (tree : Node) (next : Nat)
  | stabilize (tree : Node) (next : Nat)
  | clear

/-- The statistics after a request, whatever came of it. -/
def serve (e : Engine) (stats : Stats) : Request → Stats
  | .pass tree next => (e.pass 1 ⟨tree, next, stats⟩).1.stats
  | .stabilize tree next => (e.stabilize ⟨tree, next, stats⟩).1.stats
  | .clear => stats.clear

/-- The statistics after requests to a new engine. -/
def statsAfter (e : Engine) (requests : List Request) : Stats :=
  requests.foldl e.serve e.newStats

theorem keeps_statsAfter (e : Engine) (requests : List Request) :
    e.Keeps (e.statsAfter requests) := by
  induction requests using List.reverseRecOn with
  | nil => exact e.keeps_newStats
  | append_singleton requests request ih =>
    rw [statsAfter, List.foldl_append]
    cases request with
    | pass tree next => exact Keeps.pass (w := ⟨tree, next, _⟩) ih 1
    | stabilize tree next =>
      exact Keeps.passesFrom (w := ⟨tree, next, _⟩) ih .zero e.maxPasses
    | clear => exact ih.clear

/-- After any requests the entries are the names of the rules, each once, in the order in which they
come first, and none has more edits than invocations.  A pass, on whatever workspace and as part of
a run or not, adds to the invocations of a name one for each offer of a node and each rule of that
name that was asked about it.  What goes well adds to the edits of all entries together as many as
its summary says. -/
theorem statistics_agree (e : Engine) (requests : List Request) :
    (e.statsAfter requests).map (·.name) = e.ruleNames.eraseDups ∧
    (∀ entry ∈ e.statsAfter requests, entry.edits ≤ entry.invocations) ∧
    (∀ number w name, ((e.pass number w).1.stats.entryOf name).invocations =
      (w.stats.entryOf name).invocations +
        ((e.dispatches number w).map fun d => (d.asked e.rules).countP (·.name = name)).sum) ∧
    (∀ tree next w counts, e.pass 1 ⟨tree, next, e.statsAfter requests⟩ = (w, .ok counts) →
      w.stats.edits = (e.statsAfter requests).edits + counts.edits) ∧
    (∀ tree next w counts, e.stabilize ⟨tree, next, e.statsAfter requests⟩ = (w, .ok counts) →
      w.stats.edits = (e.statsAfter requests).edits + counts.edits) := by
  have hkeeps := e.keeps_statsAfter requests
  refine ⟨hkeeps.names_eq, hkeeps.bounded, ?_, ?_, ?_⟩
  · intro number w name
    rw [stats_pass, Dispatch.invocations_foldl]
  · exact fun tree next w counts hpass => edits_stats_pass hpass
  · exact fun tree next w counts hrun => edits_stats_passesFrom hrun

/-- An engine that takes out what is printed, with a rule of one name before and behind that only
looks at it. -/
def glancing : Engine where
  rules := [
    ⟨"Look", "Looks at what is printed", [.echo, .var], fun _ _ next => .ok (.keep, next)⟩,
    ⟨"Drop", "Prints nothing", [.echo], fun _ _ next => .ok (.remove, next)⟩,
    ⟨"Look", "Looks at what is printed", [.echo, .ifStmt], fun _ _ next => .ok (.keep, next)⟩]
  oracle := .declared
  maxPasses := 2
  visitLimit n := 2 * n.size

/-- A pass, a run until stable, and a pass over a tree that repeats a node. -/
def requests : List Request :=
  [.clear, .pass cluttered.tree 9, .stabilize cluttered.tree 9,
    .pass ⟨0, .none, .file [⟨1, .none, .echo []⟩, ⟨1, .none, .echo []⟩]⟩ 2]

theorem statistics_agree_glancing :
    ∃ w counts w' summary,
      glancing.pass 1 ⟨cluttered.tree, 9, glancing.statsAfter requests⟩ = (w, .ok counts) ∧
      glancing.stabilize ⟨cluttered.tree, 9, glancing.statsAfter requests⟩ = (w', .ok summary) ∧
      (glancing.statsAfter requests).map (·.name) = ["Look", "Drop"] ∧
      (∀ entry ∈ glancing.statsAfter requests, entry.edits ≤ entry.invocations) ∧
      (w.stats.entryOf "Look").invocations =
        ((glancing.statsAfter requests).entryOf "Look").invocations +
          ((glancing.dispatches 1 ⟨cluttered.tree, 9, glancing.statsAfter requests⟩).map fun d =>
            (d.asked glancing.rules).countP (·.name = "Look")).sum ∧
      w.stats.edits = (glancing.statsAfter requests).edits + counts.edits ∧
      w'.stats.edits = (glancing.statsAfter requests).edits + summary.edits ∧
      (glancing.statsAfter requests).edits = 4 ∧ counts.edits = 2 ∧ summary.edits = 2 := by
  obtain ⟨hnames, hbounded, hinvocations, hpass, hrun⟩ := statistics_agree glancing requests
  have hcounts :
      (glancing.pass 1 ⟨cluttered.tree, 9, glancing.statsAfter requests⟩).2 = .ok ⟨9, 2⟩ := by
    decide +kernel
  have hsummary :
      (glancing.stabilize ⟨cluttered.tree, 9, glancing.statsAfter requests⟩).2 =
        .ok ⟨2, 16, 2⟩ := by
    decide +kernel
  exact ⟨_, _, _, _, Prod.ext rfl hcounts, Prod.ext rfl hsummary, hnames.trans (by decide +kernel),
    hbounded, hinvocations 1 _ "Look", hpass _ _ _ _ (Prod.ext rfl hcounts),
    hrun _ _ _ _ (Prod.ext rfl hsummary), by decide +kernel, rfl, rfl⟩

end Engine

end PhpRefactor
