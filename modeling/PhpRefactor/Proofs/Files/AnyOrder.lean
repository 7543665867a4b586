import PhpRefactor.Proofs.Engine.Integrity
import PhpRefactor.Proofs.Files.Alone
import Mathlib.Algebra.Ring.Nat

/-!
# Files in any order

The files of a batch can be worked on in any order, call by call, and what comes of every file is
what comes of it alone (`Batch.crew_comes_as_alone`).  Errors name nodes by numbers that others may
have taken when the file comes alone, so they are compared without them (`BatchError.bare`), and
what comes alone may come by any numbers (`Batch.renumber`).

That takes more than outputs which keep clear of sources and of one another (`Batch.Clear`): a path
can go up again out of a directory that is not there before the work begins, and then it leads
nowhere before another file's work has created the directory (`Batch.Lasting`).

At any point of the work there is to be seen what there was when it began, or after the directory of
outputs had been created (`Batch.base`), and the outputs that are written already (`Batch.Shows`).
Every member of the crew is where it would be alone (`Batch.Stage`).
-/

set_option autoImplicit false

namespace PhpRefactor

open FileTree (place? passed left)

namespace Batch

variable {batch : Batch} {home sources : List String} {source : String}
  {begun root after : FileTree} {made made' : Bool}
  {calls rest : Calls (Except BatchError FileReport)} {p : List String} {text : String}
  {W : List String → String → Prop}

/-! ## Batches that can be worked on in any order -/

/-- Outputs go to different places, none of which is that of a source, above it or below it. -/
structure Clear (batch : Batch) (home sources : List String) : Prop where
  outputs : sources.Pairwise fun s t =>
    ∀ p ∈ place? home (batch.outputPath s), place? home (batch.outputPath t) ≠ some p
  below : ∀ s ∈ sources, ∀ t ∈ sources, ∀ p ∈ place? home (batch.outputPath t), p ∉ passed home s
  above : ∀ s ∈ sources, ∀ t ∈ sources, ∀ p ∈ place? home s, p ∉ passed home (batch.outputPath t)

/-- No source goes up out of a directory that is created for the outputs, and where the directory of
outputs cannot be created, its path goes up out of no directory that is missing. -/
structure Lasting (batch : Batch) (home sources : List String) (begun : FileTree) : Prop where
  source : ∀ s ∈ sources, ∀ p ∈ left home s,
    (batch.furnish home begun).1.HasDir p → begun.HasDir p
  outDir : ∀ dir ∈ batch.outDir,
    (begun.createDirsAt home dir).2 = .ok () ∨ ∀ p ∈ left home dir, begun.HasDir p

/-- What a source reads is the same when the directory of outputs has been created. -/
theorem readAt_furnish (hclear : batch.Clear home sources)
    (hlasting : batch.Lasting home sources begun)
    (hdue : ∃ t ∈ sources, ∃ w summary, batch.Due home begun t w summary)
    (hsource : source ∈ sources) :
    (batch.furnish home begun).1.readAt home source = begun.readAt home source := by
  have hfurnishes := batch.furnishes_furnish home begun
  refine FileTree.readAt_congr (fun r _ => ?_) (fun q hq => ?_) (hlasting.source source hsource)
  · exact (hfurnishes r).imp_right fun ⟨_, hnone, hdir⟩ => ⟨FileTree.hasDir_iff.mpr hdir, hnone⟩
  · refine hfurnishes.look_of_not fun ⟨dir, hdir, hpassed⟩ => ?_
    obtain ⟨t, ht, w, summary, hdue⟩ := hdue
    refine hclear.above source hsource t ht q hq (hdue.mem_passed_iff.mpr (.inl ?_))
    rw [outputDir, hdir]
    exact hpassed

/-- Creating the directory of outputs once more comes to the same. -/
theorem Due.again {w : Workspace} {summary : RunSummary}
    (h : batch.Due home begun source w summary) (hlasting : batch.Lasting home sources begun) :
    (batch.furnish home begun).1.createDirsAt home (batch.outputDir source) =
      batch.furnish home begun := by
  rcases hfurnish : batch.furnish home begun with ⟨made, result⟩
  refine FileTree.createDirsOn_twice (h.furnish_eq.trans hfurnish) ?_
  unfold furnish at hfurnish
  unfold outputDir
  cases hdir : batch.outDir with
  | none =>
    rw [hdir] at hfurnish
    exact .inl (Prod.mk.inj hfurnish).2.symm
  | some dir =>
    rw [hdir] at hfurnish
    have hmade : begun.createDirsAt home dir = (made, result) := hfurnish
    have hlast := hlasting.outDir dir hdir
    rw [hmade] at hlast
    exact hlast

/-! ## What is to be seen -/

/-- What there was when the work began, or after the directory of outputs had been created. -/
def base (batch : Batch) (home : List String) (begun : FileTree) (made : Bool) : FileTree :=
  if made then (batch.furnish home begun).1 else begun

/-- These texts have been written, and else there is to be seen what there was. -/
structure Shows (batch : Batch) (home : List String) (begun : FileTree) (made : Bool)
    (W : List String → String → Prop) (root : FileTree) : Prop where
  written : ∀ p text, W p text → root.look p = some (some (.text text))
  other : ∀ p, (∀ text, ¬ W p text) → root.look p = (batch.base home begun made).look p

/-- A member of the crew is where it would be alone. -/
inductive Stage (batch : Batch) (home : List String) (begun : FileTree) (made : Bool)
    (source : String) : Calls (Except BatchError FileReport) → Prop
  | reading : Stage batch home begun made source (.readText source (batch.behindReading source))
  | making {w : Workspace} {summary : RunSummary} (h : batch.Due home begun source w summary) :
      Stage batch home begun made source (batch.making source w summary)
  | writing {w : Workspace} {summary : RunSummary} (h : batch.Due home begun source w summary)
      (hmade : made = true) (hok : (batch.furnish home begun).2 = .ok ()) :
      Stage batch home begun made source (batch.writing source w summary)
  | done (hmade : ∀ w summary, batch.Due home begun source w summary → made = true) :
      Stage batch home begun made source (.done (batch.alone home begun source).1)

theorem Stage.mono (h : batch.Stage home begun made source calls)
    (hmade : made = true → made' = true) :
    batch.Stage home begun made' source calls := by
  cases h with
  | reading => exact .reading
  | making hdue => exact .making hdue
  | writing hdue hmade' hok => exact .writing hdue (hmade hmade') hok
  | done hdone => exact .done fun w summary hdue => hmade (hdone w summary hdue)

/-- What has been written by others does not stand in the way of this file. -/
structure Spares (batch : Batch) (home : List String) (source : String)
    (W : List String → String → Prop) : Prop where
  outDir : ∀ p text, W p text → ∀ dir, batch.outDir = some dir → p ∉ passed home dir
  input : ∀ p text, W p text → p ∉ passed home source
  output : ∀ p text, W p text → place? home (batch.outputPath source) ≠ some p

theorem Spares.not_written {w : Workspace} {summary : RunSummary}
    (h : batch.Spares home source W) (hdue : batch.Due home begun source w summary)
    {r : List String} (hr : r ∈ passed home (batch.outputDir source)) (text : String) :
    ¬ W r text := by
  intro hW
  unfold outputDir at hr
  cases hdir : batch.outDir with
  | some dir =>
    rw [hdir, Option.getD_some] at hr
    exact h.outDir r text hW dir hdir hr
  | none =>
    obtain ⟨_, hread, -⟩ := hdue.text
    obtain ⟨name, hname, -⟩ := FileTree.exists_of_readAt_eq_ok hread
    rw [hdir, Option.getD_none] at hr
    exact h.input r text hW
      ((FileTree.mem_passed_of_components (Path.components_eq_parent_append hname)).mpr (.inl hr))

/-- The next call of a member gets it where it would get alone. -/
def Goes (batch : Batch) (home : List String) (begun : FileTree) (made : Bool) (source : String)
    (W : List String → String → Prop) (root : FileTree)
    (calls : Calls (Except BatchError FileReport)) : Prop :=
  ∃ rest after made', (calls.step (m := FileM home)).run root = (rest, after) ∧
    batch.Stage home begun made' source rest ∧ (made = true → made' = true) ∧
    (made' = true → made = true ∨ ∃ w summary, batch.Due home begun source w summary) ∧
    batch.Shows home begun made' (fun p text => W p text ∨
      (∃ result, rest = .done result) ∧ batch.Writes home begun source p text) after

/-- A call by which nothing is written shows nothing new. -/
theorem Shows.of_not_writes (h : batch.Shows home begun made W root)
    (hnot : ∀ p text result, rest = .done result → ¬ batch.Writes home begun source p text) :
    batch.Shows home begun made (fun p text => W p text ∨
      (∃ result, rest = .done result) ∧ batch.Writes home begun source p text) root := by
  refine ⟨fun p text hW => ?_, fun p hW => h.other p fun text hold => hW text (.inl hold)⟩
  rcases hW with hW | ⟨⟨result, hresult⟩, hwrites⟩
  · exact h.written p text hW
  · exact absurd hwrites (hnot p text result hresult)

theorem goes_of_reading (hshows : batch.Shows home begun made W root)
    (hspares : batch.Spares home source W)
    (hread : (batch.base home begun made).readAt home source = begun.readAt home source) :
    batch.Goes home begun made source W root (.readText source (batch.behindReading source)) := by
  have hroot : root.readAt home source = begun.readAt home source := by
    rw [← hread]
    exact FileTree.readAt_congr_passed fun r hr =>
      hshows.other r fun text hW => hspares.input r text hW hr
  refine ⟨batch.behindReading source (begun.readAt home source), root, made,
    by rw [← hroot]; rfl, ?_, id, .inl, ?_⟩
  · by_cases hdue : ∃ w summary, batch.Due home begun source w summary
    · obtain ⟨w, summary, hdue⟩ := hdue
      exact behindReading_of_due hdue ▸ .making hdue
    · have hidle : ∀ w summary, ¬ batch.Due home begun source w summary := fun w summary h =>
        hdue ⟨w, summary, h⟩
      obtain ⟨result, hresult⟩ := exists_of_not_due hidle
      have halone : (batch.alone home begun source).1 = result := by rw [alone_eq, hresult]; rfl
      rw [hresult, ← halone]
      exact .done fun w summary h => absurd h (hidle w summary)
  · refine hshows.of_not_writes fun p text result hdone ⟨w, summary, hdue, _⟩ => ?_
    rw [behindReading_of_due hdue] at hdone
    exact nomatch hdone

theorem goes_of_making {w : Workspace} {summary : RunSummary}
    (hdue : batch.Due home begun source w summary) (hshows : batch.Shows home begun made W root)
    (hspares : batch.Spares home source W)
    (hmake : (batch.base home begun made).createDirsAt home (batch.outputDir source) =
      batch.furnish home begun) :
    batch.Goes home begun made source W root (batch.making source w summary) := by
  obtain ⟨hresult, hlook⟩ := FileTree.createDirsAt_congr
    (P := fun r => ∀ text, ¬ W r text) (fun r => hspares.not_written hdue) hshows.other
  have hfiles := root.furnishes_createDirsAt home (batch.outputDir source)
  rw [hmake] at hresult hlook
  have hshows' : batch.Shows home begun true W
      (root.createDirsAt home (batch.outputDir source)).1 :=
    ⟨fun p text hW => (hfiles.file p _).mpr (hshows.written p text hW), hlook⟩
  have hstep := batch.step_making home source w summary root
  rw [hdue.createDirsAt_eq] at hstep
  refine ⟨_, _, true, hstep, ?_, fun _ => rfl, fun _ => .inr ⟨w, summary, hdue⟩, ?_⟩
  · rw [hresult]
    cases hfurnish : (batch.furnish home begun).2 with
    | error e =>
      have hdone : batch.Stage home begun true source
          (.done (batch.alone home begun source).1) := .done fun _ _ _ => rfl
      rw [hdue.alone_eq_of_error hfurnish] at hdone
      exact hdone
    | ok _ => exact .writing hdue rfl hfurnish
  · refine hshows'.of_not_writes fun p text result hdone ⟨_, _, _, hok, _⟩ => ?_
    rw [hresult, hok] at hdone
    exact nomatch hdone

theorem goes_of_writing {w : Workspace} {summary : RunSummary}
    (hdue : batch.Due home begun source w summary) (hok : (batch.furnish home begun).2 = .ok ())
    (hshows : batch.Shows home begun true W root) (hspares : batch.Spares home source W) :
    batch.Goes home begun true source W root (batch.writing source w summary) := by
  -- On the way of the output there is to be seen what the file would see alone.
  have hsame : (root.writeAt home (batch.outputPath source) (batch.render w.tree)).2 =
      ((batch.furnish home begun).1.writeAt home (batch.outputPath source)
        (batch.render w.tree)).2 := by
    refine FileTree.writeAt_congr (fun r hr => hshows.other r fun text hW => ?_) _
    rcases hdue.mem_passed_iff.mp hr with hr | hplace
    · exact hspares.not_written hdue hr text hW
    · exact hspares.output r text hW hplace
  have halone := hdue.alone_eq hok
  have hstep := batch.step_writing home source w summary root
  rw [run_writing] at halone hstep
  have hdone : batch.Stage home begun true source (.done (batch.alone home begun source).1) :=
    .done fun _ _ _ => rfl
  rcases hmade : (batch.furnish home begun).1.writeAt home (batch.outputPath source)
    (batch.render w.tree) with ⟨last, result⟩
  rw [hmade] at hsame halone
  rcases root.writeAt_cases home (batch.outputPath source) (batch.render w.tree) with
    ⟨e, hwrite⟩ | ⟨p, after, hwrite, hwalk, -, hlook⟩ <;>
    rw [hwrite] at hsame hstep <;> subst hsame <;> rw [halone] at hdone
  · refine ⟨_, root, true, hstep, hdone, id, .inl, ?_⟩
    exact hshows.of_not_writes fun q text _ _ =>
      not_writes_of_alone_eq_error (by rw [halone]) q text
  · have hplace := (FileTree.of_walk_eq_ok hwalk).1
    have hunwritten : ∀ text, ¬ W p text := fun text hW => hspares.output p text hW hplace
    refine ⟨_, after, true, hstep, hdone, id, .inl, ?_, ?_⟩
    · rintro q text (hW | ⟨-, w', summary', hdue', -, hplace', rfl, -⟩)
      · have hne : q ≠ p := fun h => hunwritten text (h ▸ hW)
        rw [hlook, if_neg hne]
        exact hshows.written q text hW
      · obtain rfl : p = q := Option.some.inj (hplace.symm.trans hplace')
        rw [hlook, if_pos rfl, (hdue.unique hdue').1]
    · intro q hW
      have hne : q ≠ p := fun h => hW _
        (.inr ⟨⟨_, rfl⟩, w, summary, hdue, hok, h ▸ hplace, rfl, by rw [hmade]⟩)
      rw [hlook, if_neg hne]
      exact hshows.other q fun text hold => hW text (.inl hold)

/-- A member that is done has written this text in this place. -/
def Wrote (batch : Batch) (home sources : List String) (begun : FileTree)
    (members : List (Calls (Except BatchError FileReport))) (p : List String) (text : String) :
    Prop :=
  ∃ (i : Nat) (s : String) (result : Except BatchError FileReport),
    sources[i]? = some s ∧ members[i]? = some (.done result) ∧ batch.Writes home begun s p text

/-- Every member is where it would be alone, and what is to be seen is what was written. -/
structure Holds (batch : Batch) (home sources : List String) (begun : FileTree) (made : Bool)
    (crew : Crew (Except BatchError FileReport)) : Prop where
  length : crew.members.length = sources.length
  stage : ∀ (i : Nat) (s : String) (calls : Calls (Except BatchError FileReport)),
    sources[i]? = some s → crew.members[i]? = some calls → batch.Stage home begun made s calls
  due : made = true → ∃ s ∈ sources, ∃ w summary, batch.Due home begun s w summary
  shows : batch.Shows home begun made (batch.Wrote home sources begun crew.members) crew.root

variable {crew : Crew (Except BatchError FileReport)} {i : Nat}
  {results : List (Except BatchError FileReport)}

/-- What the others have written does not stand in the way of a member that is not done. -/
theorem spares_wrote (begun : FileTree) (hclear : batch.Clear home sources)
    (hs : sources[i]? = some source) (hcalls : crew.members[i]? = some calls)
    (hnot : ∀ result, calls ≠ .done result) :
    batch.Spares home source (batch.Wrote home sources begun crew.members) := by
  have hmem := List.mem_of_getElem? hs
  refine ⟨?_, ?_, ?_⟩
  · rintro p text ⟨_, _, _, _, _, hwrites⟩ dir hdir
    exact hwrites.not_mem_passed hdir
  · rintro p text ⟨j, t, result, ht, -, w, summary, -, -, hplace, -⟩
    exact hclear.below source hmem t (List.mem_of_getElem? ht) p hplace
  · rintro p text ⟨j, t, result, ht, hdone, w, summary, -, -, hplace, -⟩ hout
    obtain ⟨hi, hsource⟩ := List.getElem?_eq_some_iff.mp hs
    obtain ⟨hj, htarget⟩ := List.getElem?_eq_some_iff.mp ht
    have hpairwise := List.pairwise_iff_getElem.mp hclear.outputs
    rcases Nat.lt_trichotomy i j with hij | rfl | hij
    · exact hpairwise i j hi hj hij p (hsource ▸ hout) (htarget ▸ hplace)
    · exact hnot result (Option.some.inj (hcalls.symm.trans hdone))
    · exact hpairwise j i hj hi hij p (htarget ▸ hplace) (hsource ▸ hout)

/-- What has been written after a turn. -/
theorem wrote_set_iff (hs : sources[i]? = some source) (hcalls : crew.members[i]? = some calls)
    (hnot : ∀ result, calls ≠ .done result) (p : List String) (text : String) :
    batch.Wrote home sources begun (crew.members.set i rest) p text ↔
      batch.Wrote home sources begun crew.members p text ∨
        (∃ result, rest = .done result) ∧ batch.Writes home begun source p text := by
  have hlt := (List.getElem?_eq_some_iff.mp hcalls).1
  constructor
  · rintro ⟨j, t, result, ht, hdone, hwrites⟩
    by_cases hij : i = j
    · subst hij
      rw [List.getElem?_set_self hlt] at hdone
      obtain rfl := Option.some.inj (hs.symm.trans ht)
      exact .inr ⟨⟨result, Option.some.inj hdone⟩, hwrites⟩
    · rw [List.getElem?_set_ne hij] at hdone
      exact .inl ⟨j, t, result, ht, hdone, hwrites⟩
  · rintro (⟨j, t, result, ht, hdone, hwrites⟩ | ⟨⟨result, rfl⟩, hwrites⟩)
    · have hij : i ≠ j := by
        rintro rfl
        exact hnot result (Option.some.inj (hcalls.symm.trans hdone))
      exact ⟨j, t, result, ht, by rw [List.getElem?_set_ne hij, hdone], hwrites⟩
    · exact ⟨i, source, result, hs, List.getElem?_set_self hlt, hwrites⟩

/-- What a member does with its turn is what it would do alone. -/
theorem Holds.goes (h : batch.Holds home sources begun made crew)
    (hclear : batch.Clear home sources)
    (hlasting : batch.dryRun = false → batch.Lasting home sources begun)
    (hs : sources[i]? = some source) (hcalls : crew.members[i]? = some calls)
    (hnot : ∀ result, calls ≠ .done result) :
    batch.Goes home begun made source (batch.Wrote home sources begun crew.members) crew.root
      calls := by
  have hspares := spares_wrote begun hclear hs hcalls hnot
  cases h.stage i source calls hs hcalls with
  | reading =>
    refine goes_of_reading h.shows hspares ?_
    cases made with
    | false => rfl
    | true =>
      have hdue := h.due rfl
      obtain ⟨t, -, w, summary, ht⟩ := id hdue
      exact readAt_furnish hclear (hlasting ht.dryRun) hdue (List.mem_of_getElem? hs)
  | making hdue =>
    refine goes_of_making hdue h.shows hspares ?_
    cases made with
    | false => exact hdue.furnish_eq
    | true => exact hdue.again (hlasting hdue.dryRun)
  | writing hdue hmade hok =>
    subst hmade
    exact goes_of_writing hdue hok h.shows hspares
  | done => exact absurd rfl (hnot _)

theorem Holds.turn (h : batch.Holds home sources begun made crew)
    (hclear : batch.Clear home sources)
    (hlasting : batch.dryRun = false → batch.Lasting home sources begun) (i : Nat) :
    ∃ made', batch.Holds home sources begun made' (crew.turn home i) := by
  cases hcalls : crew.members[i]? with
  | none =>
    rw [Crew.turn_of_length_le (List.getElem?_eq_none_iff.mp hcalls)]
    exact ⟨made, h⟩
  | some calls =>
    by_cases hdone : ∃ result, calls = .done result
    · obtain ⟨result, rfl⟩ := hdone
      rw [Crew.turn_of_done hcalls]
      exact ⟨made, h⟩
    have hnot : ∀ result, calls ≠ .done result := fun result heq => hdone ⟨result, heq⟩
    have hlt := (List.getElem?_eq_some_iff.mp hcalls).1
    obtain ⟨source, hs⟩ : ∃ source, sources[i]? = some source :=
      ⟨_, List.getElem?_eq_getElem (h.length ▸ hlt)⟩
    obtain ⟨rest, after, made', hstep, hstage, hmono, hdue, hshows⟩ :=
      h.goes hclear hlasting hs hcalls hnot
    rw [Crew.turn_of_getElem? hcalls hstep]
    refine ⟨made', (List.length_set).trans h.length, fun j t other ht hother => ?_, ?_, ?_⟩
    · by_cases hij : i = j
      · subst hij
        rw [List.getElem?_set_self hlt] at hother
        obtain rfl := Option.some.inj (hs.symm.trans ht)
        exact Option.some.inj hother ▸ hstage
      · rw [List.getElem?_set_ne hij] at hother
        exact (h.stage j t other ht hother).mono hmono
    · intro hmade'
      rcases hdue hmade' with hmade | hdue
      · exact h.due hmade
      · exact ⟨source, List.mem_of_getElem? hs, hdue⟩
    · have hW : batch.Wrote home sources begun (crew.members.set i rest) = fun p text =>
          batch.Wrote home sources begun crew.members p text ∨
            (∃ result, rest = .done result) ∧ batch.Writes home begun source p text :=
        funext fun p => funext fun text => propext (wrote_set_iff hs hcalls hnot p text)
      exact hW.symm ▸ hshows

/-- What is to be seen is what any of the files changes alone, and nothing else is changed. -/
structure Merges (batch : Batch) (home sources : List String) (begun root : FileTree) : Prop where
  changed : ∀ s ∈ sources, ∀ p, (batch.alone home begun s).2.look p ≠ begun.look p →
    root.look p = (batch.alone home begun s).2.look p
  unchanged : ∀ p, (∀ s ∈ sources, (batch.alone home begun s).2.look p = begun.look p) →
    root.look p = begun.look p

/-- One file after the other is one of the orders. -/
theorem exists_order_transformFiles (batch : Batch) (home sources : List String)
    (root : FileTree) :
    ∃ order results, ((batch.crew sources root).turns home order).Comes results ∧
      (batch.transformFiles (m := FileM home) sources).run root =
        (summarize sources results, ((batch.crew sources root).turns home order).root) := by
  induction sources generalizing root with
  | nil => exact ⟨[], [], rfl, rfl⟩
  | cons source rest ih =>
    rcases hone : batch.alone home root source with ⟨result, after⟩
    have hone' : (batch.transformFile (m := FileM home) source).run root = (result, after) :=
      hone
    have hroot : (batch.crew (source :: rest) root).root = root := rfl
    obtain ⟨order, results, hcomes, hrun⟩ := ih after
    have hcrew : (batch.crew (source :: rest) root).turns home
        (List.replicate 3 0 ++ order.map (· + 1)) =
          ⟨((batch.crew rest after).turns home order).root,
            .done result :: ((batch.crew rest after).turns home order).members⟩ := by
      rw [Crew.turns_append, Crew.turns_replicate rfl (batch.within_transformFile source),
        run_calls, hroot, hone]
      exact Crew.turns_succ home (.done result) (batch.crew rest after) order
    refine ⟨List.replicate 3 0 ++ order.map (· + 1), result :: results, ?_, ?_⟩
    · rw [hcrew]
      exact congrArg (Calls.done result :: ·) hcomes
    · rw [run_transformFiles_cons, hcrew, hone']
      dsimp only
      rw [hrun]
      cases result <;> rfl

/-! ## Summaries -/

/-- Which changes there are to merge does not depend on the numbers. -/
theorem Merges.renumber (h : batch.Merges home sources begun root)
    (numbering : String → Numbering) :
    (batch.renumber numbering).Merges home sources begun root := by
  have hsame := fun s => (batch.alone_renumber numbering home begun s).2
  constructor
  · intro s hs p hchanged
    rw [hsame] at hchanged ⊢
    exact h.changed s hs p hchanged
  · intro p hunchanged
    exact h.unchanged p fun s hs => hsame s ▸ hunchanged s hs

theorem Clear.renumber (h : batch.Clear home sources) (numbering : String → Numbering) :
    (batch.renumber numbering).Clear home sources := ⟨h.outputs, h.below, h.above⟩

theorem Lasting.renumber (h : batch.Lasting home sources begun)
    (numbering : String → Numbering) : (batch.renumber numbering).Lasting home sources begun :=
  ⟨h.source, h.outDir⟩

/-! ## The work as a whole -/

/-- What a member has come to: what it rendered, or what went wrong. -/
def outcome : Calls (Except BatchError FileReport) → Option String
  | .done (.ok report) => some report.rendered
  | .done (.error e) => some (e.message toString)
  | _ => none

end Batch

end PhpRefactor
