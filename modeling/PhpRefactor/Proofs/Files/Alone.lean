import PhpRefactor.Proofs.Files.Crew
import PhpRefactor.Proofs.Files.Directories
import PhpRefactor.Proofs.Files.Outputs

/-!
# One file alone

Work on a file is three calls at most: it reads the source (`Batch.transformFile`), creates the
directory of the output (`Batch.making`) and writes the output (`Batch.writing`).

Without a directory of outputs the output goes beside the source, and where the source could be read
there is nothing to create.  So what is created is the same for all files of a batch
(`Batch.furnish`).

What comes of a file does not depend on the numbers it comes by, but for those that an error names
(`Batch.alone_renumber`).
-/

set_option autoImplicit false

namespace PhpRefactor

open FileTree (place? passed)

/-! ## Sources and outputs as paths -/

namespace FileTree

variable {root : FileTree} {path text : String} {home p q : List String}

/-- Only a name leads from a directory to what is none. -/
theorem exists_eq_name_of_walkStep {c : Component} (h : root.walkStep q c = .ok p)
    (hfile : ¬ root.HasDir p) : ∃ name, c = .name name := by
  obtain ⟨hdir, rfl, -⟩ := of_walkStep_eq_ok h
  by_contra hname
  exact hfile (hasDir_placeStep hdir fun x hx => hname ⟨x, hx⟩)

/-- A path that a text can be read through ends in a name, and the path above it leads to a
directory. -/
theorem exists_of_readAt_eq_ok (h : root.readAt home path = .ok text) :
    ∃ name, Path.fileName? path = some name ∧
      root.isDirPlace (start home (Path.parent path)) (Path.route (Path.parent path)) = true := by
  obtain ⟨p, hwalk, hget⟩ := readAt_eq_ok_iff.mp h
  have hfile : ¬ root.HasDir p := by
    rintro ⟨entries, hdir⟩
    cases hdir.symm.trans hget
  rw [walk] at hwalk
  split at hwalk
  · cases hwalk
  obtain ⟨front, part, hparts⟩ : ∃ front part, Path.parts path.toList = front ++ [part] :=
    ⟨_, _, (List.dropLast_concat_getLast (Path.parts_ne_nil _)).symm⟩
  rw [steps, hparts, List.map_append, List.foldlM_append, List.map_singleton] at hwalk
  obtain ⟨q, hfront, hlast⟩ := bind_eq_ok_iff.mp hwalk
  rw [List.foldlM_cons] at hlast
  obtain ⟨r, hstep, hr⟩ := bind_eq_ok_iff.mp hlast
  obtain rfl : r = p := Except.ok.inj hr
  obtain ⟨name, hname⟩ := exists_eq_name_of_walkStep hstep hfile
  have hpart : Path.component? part = some (.name name) := by
    unfold partStep at hname
    cases hc : Path.component? part with
    | none => rw [hc] at hname; cases hname
    | some c => rw [hc] at hname; exact congrArg some hname
  have hroute : Path.route path = front.filterMap Path.component? ++ [.name name] := by
    rw [Path.route, hparts, List.filterMap_append, List.filterMap_cons, hpart, List.filterMap_nil]
  have hfileName := Path.fileName?_of_route hroute
  have hcomponents := Path.components_eq_parent_append hfileName
  refine ⟨name, hfileName, isDirPlace_iff_passed.mpr fun r hr => ?_⟩
  rw [Path.route_of_components hcomponents] at hroute
  rw [List.append_cancel_right hroute, ← start_of_components hcomponents] at hr
  exact isDirPlace_iff_passed.mp (isDirPlace_iff.mpr ⟨q, hfront, (of_walkStep_eq_ok hstep).1⟩) r
    ((mem_passedFrom_parts front _).mpr hr)

end FileTree

namespace Batch

open BatchError (run_call run_bind)

variable {batch : Batch} {home : List String} {begun root : FileTree} {source : String}
  {w w' : Workspace} {summary summary' : RunSummary} {p : List String} {text : String}

/-! ## Where outputs go -/

theorem exists_outputPath_eq (batch : Batch) {name : String}
    (h : Path.fileName? source = some name) :
    ∃ out, Path.Plain out ∧
      batch.outputPath source = Path.join (batch.outputDir source) out := by
  have hstem : Path.fileStem? source = some (Path.splitAtDot name).1 := by
    rw [Path.fileStem?, h, Option.map_some]
  exact ⟨_, batch.plain_outputName fun hmem =>
    (Path.plain_of_fileName? h).no_slash (Path.mem_of_mem_stem hmem), batch.outputPath_eq hstem⟩

/-- What comes of creating the directory of outputs, if there is one. -/
def furnish (batch : Batch) (home : List String) (root : FileTree) :
    FileTree × Except FileError Unit :=
  match batch.outDir with
  | some dir => root.createDirsAt home dir
  | none => (root, .ok ())

/-- The source can be read and its text transformed, and an output is to be written. -/
structure Due (batch : Batch) (home : List String) (begun : FileTree) (source : String)
    (w : Workspace) (summary : RunSummary) : Prop where
  dryRun : batch.dryRun = false
  text : ∃ text, begun.readAt home source = .ok text ∧
    batch.transformText source text = .ok (w, summary)

namespace Due

theorem unique (h : batch.Due home begun source w summary)
    (h' : batch.Due home begun source w' summary') : w = w' ∧ summary = summary' := by
  obtain ⟨text, hread, hrun⟩ := h.text
  obtain ⟨text', hread', hrun'⟩ := h'.text
  obtain rfl : text = text' := Except.ok.inj (hread.symm.trans hread')
  exact Prod.mk.inj (Except.ok.inj (hrun.symm.trans hrun'))

/-- The output goes under a name into its directory. -/
theorem exists_components_eq (h : batch.Due home begun source w summary) :
    ∃ out, Path.components (batch.outputPath source) =
        Path.components (batch.outputDir source) ++ [.name out] ∧
      Path.components (Path.parent (batch.outputPath source)) =
        Path.components (batch.outputDir source) := by
  obtain ⟨text, hread, -⟩ := h.text
  obtain ⟨name, hname, -⟩ := FileTree.exists_of_readAt_eq_ok hread
  obtain ⟨out, hout, hpath⟩ := batch.exists_outputPath_eq hname
  rw [hpath]
  exact ⟨out, Path.components_join hout _, Path.components_parent_join hout _⟩

/-- On the way of an output are the places on the way of its directory, and its own. -/
theorem mem_passed_iff (h : batch.Due home begun source w summary) :
    p ∈ passed home (batch.outputPath source) ↔
      p ∈ passed home (batch.outputDir source) ∨
        place? home (batch.outputPath source) = some p := by
  obtain ⟨out, hpath, -⟩ := h.exists_components_eq
  exact FileTree.mem_passed_of_components hpath

theorem createDirsAt_eq (h : batch.Due home begun source w summary) (root : FileTree) :
    root.createDirsAt home (Path.parent (batch.outputPath source)) =
      root.createDirsAt home (batch.outputDir source) := by
  obtain ⟨out, -, hparent⟩ := h.exists_components_eq
  obtain ⟨hrooted, hroute⟩ := Path.eq_of_same (decide_eq_true hparent)
  rw [FileTree.createDirsAt_eq, FileTree.createDirsAt_eq, FileTree.start, FileTree.start, hrooted,
    hroute]

/-- Creating the directory of an output is the same for all files. -/
theorem furnish_eq (h : batch.Due home begun source w summary) :
    begun.createDirsAt home (batch.outputDir source) = batch.furnish home begun := by
  obtain ⟨text, hread, -⟩ := h.text
  obtain ⟨name, -, hdirs⟩ := FileTree.exists_of_readAt_eq_ok hread
  rw [furnish, outputDir]
  cases batch.outDir with
  | none => exact FileTree.createDirsOn_of_isDirPlace hdirs
  | some dir => rfl

end Due

/-! ## The calls -/

/-- The report of an output that was written. -/
def reportOf (batch : Batch) (source : String) (w : Workspace) (summary : RunSummary) :
    FileReport :=
  ⟨source, some (batch.outputPath source), summary, w.stats, batch.render w.tree⟩

/-- The output is to be written. -/
def writing (batch : Batch) (source : String) (w : Workspace) (summary : RunSummary) :
    Calls (Except BatchError FileReport) :=
  .writeText (batch.outputPath source) (batch.render w.tree) fun
    | .error e => .done (.error (.writing (batch.outputPath source) e))
    | .ok () => .done (.ok (batch.reportOf source w summary))

/-- The directory of the output is to be created, and the output to be written. -/
def making (batch : Batch) (source : String) (w : Workspace) (summary : RunSummary) :
    Calls (Except BatchError FileReport) :=
  .createDirs (Path.parent (batch.outputPath source)) fun
    | .error e => .done (.error (.creating (Path.parent (batch.outputPath source)) e))
    | .ok () => batch.writing source w summary

/-- How it goes on with what was read. -/
def behindReading (batch : Batch) (source : String) (answer : Except FileError String) :
    Calls (Except BatchError FileReport) :=
  match answer with
  | .error e => .done (.error (.reading source e))
  | .ok text =>
    match batch.transformText source text with
    | .error e => .done (.error e)
    | .ok (w, summary) =>
      if batch.dryRun then .done (.ok ⟨source, none, summary, w.stats, batch.render w.tree⟩)
      else batch.making source w summary

theorem run_resultCalls {α β : Type} (result : Except BatchError α)
    (k : α → ExceptT BatchError Calls β) :
    (liftM result >>= k : ExceptT BatchError Calls β).run =
      match result with
      | .ok a => (k a).run
      | .error e => .done (.error e) := by
  cases result <;> rfl

/-- Work on a file, call by call. -/
theorem calls_transformFile (batch : Batch) (source : String) :
    (batch.transformFile (m := Calls) source).run =
      .readText source (batch.behindReading source) := by
  refine congrArg (Calls.readText source) (funext fun answer => ?_)
  cases answer with
  | error e => rfl
  | ok text =>
    refine (run_resultCalls (batch.transformText source text) _).trans ?_
    unfold behindReading
    dsimp only
    cases batch.transformText source text with
    | error e => rfl
    | ok result =>
      dsimp only
      split
      · rfl
      · refine congrArg (Calls.createDirs _) (funext fun answer => ?_)
        rcases answer with e | ⟨⟩
        · rfl
        · refine congrArg (Calls.writeText _ _) (funext fun answer => ?_)
          rcases answer with e | ⟨⟩ <;> rfl

/-- With the reading the work is done, or there was a text to transform and an output is to be
written. -/
theorem behindReading_cases (batch : Batch) (source : String) (answer : Except FileError String) :
    (∃ result, batch.behindReading source answer = .done result) ∨
      ∃ text w summary, batch.dryRun = false ∧ answer = .ok text ∧
        batch.transformText source text = .ok (w, summary) ∧
        batch.behindReading source answer = batch.making source w summary := by
  unfold behindReading
  split
  · exact .inl ⟨_, rfl⟩
  · rename_i text
    split
    · exact .inl ⟨_, rfl⟩
    · rename_i w summary hrun
      split
      · exact .inl ⟨_, rfl⟩
      · rename_i hdry
        exact .inr ⟨text, w, summary, Bool.not_eq_true _ ▸ hdry, rfl, hrun, rfl⟩

theorem within_transformFile (batch : Batch) (source : String) :
    Calls.Within 3 (batch.transformFile (m := Calls) source).run := by
  rw [calls_transformFile]
  intro answer
  rcases batch.behindReading_cases source answer with
    ⟨result, hdone⟩ | ⟨text, w, summary, -, -, -, hmaking⟩
  · rw [hdone]
    trivial
  · rw [hmaking]
    intro answer
    rcases answer with e | ⟨⟩
    · trivial
    · intro answer
      rcases answer with e | ⟨⟩ <;> trivial

theorem run_writing (home : List String) (source : String) (w : Workspace) (summary : RunSummary)
    (root : FileTree) :
    ((batch.writing source w summary).run (m := FileM home)).run root =
      match root.writeAt home (batch.outputPath source) (batch.render w.tree) with
      | (root, .error e) => (.error (.writing (batch.outputPath source) e), root)
      | (root, .ok ()) => (.ok (batch.reportOf source w summary), root) := by
  have hwrite : (MonadFiles.writeText (batch.outputPath source) (batch.render w.tree) :
      FileM home _) root =
        (root.writeAt home (batch.outputPath source) (batch.render w.tree)).swap := rfl
  rw [writing, Calls.run, FileM.run_bind, hwrite]
  rcases root.writeAt home (batch.outputPath source) (batch.render w.tree)
    with ⟨last, e | ⟨⟩⟩ <;> rfl

theorem run_making (home : List String) (source : String) (w : Workspace) (summary : RunSummary)
    (root : FileTree) :
    ((batch.making source w summary).run (m := FileM home)).run root =
      match root.createDirsAt home (Path.parent (batch.outputPath source)) with
      | (root, .error e) => (.error (.creating (Path.parent (batch.outputPath source)) e), root)
      | (root, .ok ()) =>
        ((batch.writing source w summary).run (m := FileM home)).run root := by
  have hdirs : (MonadFiles.createDirs (Path.parent (batch.outputPath source)) :
      FileM home _) root =
        (root.createDirsAt home (Path.parent (batch.outputPath source))).swap := rfl
  rw [making, Calls.run, FileM.run_bind, hdirs]
  rcases root.createDirsAt home (Path.parent (batch.outputPath source))
    with ⟨made, e | ⟨⟩⟩ <;> rfl

/-- The output is written with one call. -/
theorem step_writing (home : List String) (source : String) (w : Workspace) (summary : RunSummary)
    (root : FileTree) :
    ((batch.writing source w summary).step (m := FileM home)).run root =
      let (result, after) := ((batch.writing source w summary).run (m := FileM home)).run root
      (.done result, after) := by
  have hwrite : ((batch.writing source w summary).step (m := FileM home)).run root =
      (match (root.writeAt home (batch.outputPath source) (batch.render w.tree)).2 with
        | .error e => .done (.error (.writing (batch.outputPath source) e))
        | .ok () => .done (.ok (batch.reportOf source w summary)),
        (root.writeAt home (batch.outputPath source) (batch.render w.tree)).1) := rfl
  rw [hwrite, run_writing]
  rcases root.writeAt home (batch.outputPath source) (batch.render w.tree)
    with ⟨last, e | ⟨⟩⟩ <;> rfl

/-- The directory of the output is created with one call. -/
theorem step_making (batch : Batch) (home : List String) (source : String) (w : Workspace)
    (summary : RunSummary) (root : FileTree) :
    ((batch.making source w summary).step (m := FileM home)).run root =
      (match (root.createDirsAt home (Path.parent (batch.outputPath source))).2 with
        | .error e => .done (.error (.creating (Path.parent (batch.outputPath source)) e))
        | .ok () => batch.writing source w summary,
        (root.createDirsAt home (Path.parent (batch.outputPath source))).1) := rfl

/-! ## What comes of a file -/

/-- What comes of a file with no other work going on. -/
def alone (batch : Batch) (home : List String) (begun : FileTree) (source : String) :
    Except BatchError FileReport × FileTree :=
  (batch.transformFile (m := FileM home) source).run begun

/-- To work on a file is to make its calls one after the other. -/
theorem alone_eq (batch : Batch) (home : List String) (begun : FileTree) (source : String) :
    batch.alone home begun source =
      ((batch.behindReading source (begun.readAt home source)).run (m := FileM home)).run
        begun := by
  have hread : (MonadFiles.readText source : FileM home _) begun =
      (begun.readAt home source, begun) := rfl
  rw [alone, transformFile, run_call, hread]
  cases begun.readAt home source with
  | error e => rfl
  | ok text =>
    unfold behindReading
    dsimp only
    rw [run_bind, run_result]
    cases batch.transformText source text with
    | error e => rfl
    | ok result =>
      dsimp only
      split
      · rfl
      · rw [run_bind, run_writeOutput, run_making]
        rcases begun.createDirsAt home (Path.parent (batch.outputPath source))
          with ⟨made, e | ⟨⟩⟩
        · rfl
        · dsimp only
          rw [run_writing]
          rcases made.writeAt home (batch.outputPath source) (batch.render result.1.tree)
            with ⟨last, e | ⟨⟩⟩ <;> rfl

theorem run_calls (batch : Batch) (home : List String) (source : String) (root : FileTree) :
    ((batch.transformFile (m := Calls) source).run.run (m := FileM home)).run root =
      batch.alone home root source := by
  rw [calls_transformFile, alone_eq]
  rfl

theorem behindReading_of_due (h : batch.Due home begun source w summary) :
    batch.behindReading source (begun.readAt home source) = batch.making source w summary := by
  obtain ⟨text, hread, hrun⟩ := h.text
  unfold behindReading
  rw [hread]
  dsimp only
  rw [hrun]
  dsimp only
  rw [h.dryRun]
  rfl

/-- Where no output is due, the source has been read and that is all. -/
theorem exists_of_not_due (h : ∀ w summary, ¬ batch.Due home begun source w summary) :
    ∃ result, batch.behindReading source (begun.readAt home source) = .done result := by
  rcases batch.behindReading_cases source (begun.readAt home source) with
    hdone | ⟨text, w, summary, hdry, hread, hrun, -⟩
  · exact hdone
  · exact absurd ⟨hdry, text, hread, hrun⟩ (h w summary)

/-- The file writes this text in this place. -/
def Writes (batch : Batch) (home : List String) (begun : FileTree) (source : String)
    (p : List String) (text : String) : Prop :=
  ∃ w summary, batch.Due home begun source w summary ∧ (batch.furnish home begun).2 = .ok () ∧
    place? home (batch.outputPath source) = some p ∧ text = batch.render w.tree ∧
    ((batch.furnish home begun).1.writeAt home (batch.outputPath source) text).2 = .ok ()

/-- Where the directory of the output can be created, it remains to write the output. -/
theorem Due.alone_eq (h : batch.Due home begun source w summary)
    (hok : (batch.furnish home begun).2 = .ok ()) :
    batch.alone home begun source =
      ((batch.writing source w summary).run (m := FileM home)).run
        (batch.furnish home begun).1 := by
  rw [Batch.alone_eq, behindReading_of_due h, run_making, h.createDirsAt_eq, h.furnish_eq]
  rcases hmade : batch.furnish home begun with ⟨made, e | ⟨⟩⟩
  · rw [hmade] at hok
    exact nomatch hok
  · rfl

/-- Where the directory of the output cannot be created, that is all. -/
theorem Due.alone_eq_of_error (h : batch.Due home begun source w summary) {e : FileError}
    (herror : (batch.furnish home begun).2 = .error e) :
    batch.alone home begun source =
      (.error (.creating (Path.parent (batch.outputPath source)) e),
        (batch.furnish home begun).1) := by
  rw [Batch.alone_eq, behindReading_of_due h, run_making, h.createDirsAt_eq, h.furnish_eq]
  rcases hmade : batch.furnish home begun with ⟨made, e' | ⟨⟩⟩ <;> rw [hmade] at herror
  · rw [Except.error.inj herror]
  · exact nomatch herror

/-- What can come of a file. -/
inductive Fares (batch : Batch) (home : List String) (begun : FileTree) (source : String) :
    Except BatchError FileReport × FileTree → Prop
  /-- No output is due. -/
  | idle {result : Except BatchError FileReport}
      (h : ∀ w summary, ¬ batch.Due home begun source w summary) :
      Fares batch home begun source (result, begun)
  /-- The directory of the output cannot be created. -/
  | refused {w : Workspace} {summary : RunSummary} {made : FileTree} {e : FileError}
      (h : batch.Due home begun source w summary)
      (hmade : batch.furnish home begun = (made, .error e)) :
      Fares batch home begun source
        (.error (.creating (Path.parent (batch.outputPath source)) e), made)
  /-- The output cannot be written. -/
  | blocked {w : Workspace} {summary : RunSummary} {made : FileTree} {e : FileError}
      (h : batch.Due home begun source w summary)
      (hmade : batch.furnish home begun = (made, .ok ()))
      (hwrite : made.writeAt home (batch.outputPath source) (batch.render w.tree) =
        (made, .error e)) :
      Fares batch home begun source (.error (.writing (batch.outputPath source) e), made)
  /-- The output is written. -/
  | written {w : Workspace} {summary : RunSummary} {made after : FileTree} {p : List String}
      (h : batch.Due home begun source w summary)
      (hmade : batch.furnish home begun = (made, .ok ()))
      (hwrite : made.writeAt home (batch.outputPath source) (batch.render w.tree) =
        (after, .ok ()))
      (hplace : place? home (batch.outputPath source) = some p)
      (hlook : ∀ q, after.look q =
        if q = p then some (some (.text (batch.render w.tree))) else made.look q) :
      Fares batch home begun source (.ok (batch.reportOf source w summary), after)

theorem fares_alone (batch : Batch) (home : List String) (begun : FileTree) (source : String) :
    batch.Fares home begun source (batch.alone home begun source) := by
  by_cases hdue : ∃ w summary, batch.Due home begun source w summary
  · obtain ⟨w, summary, h⟩ := hdue
    rcases hmade : batch.furnish home begun with ⟨made, e | ⟨⟩⟩
    · rw [h.alone_eq_of_error (by rw [hmade]), hmade]
      exact .refused h hmade
    · rw [h.alone_eq (by rw [hmade]), hmade, run_writing]
      rcases made.writeAt_cases home (batch.outputPath source) (batch.render w.tree) with
        ⟨e, hwrite⟩ | ⟨p, after, hwrite, hwalk, -, hlook⟩ <;> rw [hwrite]
      · exact .blocked h hmade hwrite
      · exact .written h hmade hwrite (FileTree.of_walk_eq_ok hwalk).1 hlook
  · have hidle : ∀ w summary, ¬ batch.Due home begun source w summary := fun w summary h =>
      hdue ⟨w, summary, h⟩
    obtain ⟨result, hresult⟩ := exists_of_not_due hidle
    rw [alone_eq, hresult]
    exact .idle hidle

/-- A file that writes a text comes to a report, and the text is to be seen in its place. -/
theorem Writes.exists_alone_eq (h : batch.Writes home begun source p text) :
    ∃ report after, batch.alone home begun source = (.ok report, after) ∧
      after.look p = some (some (.text text)) := by
  obtain ⟨w, summary, hdue, hok, hplace, rfl, hwrote⟩ := h
  have hfares := batch.fares_alone home begun source
  generalize batch.alone home begun source = outcome at hfares
  cases hfares with
  | idle hidle => exact absurd hdue (hidle w summary)
  | refused _ hmade => rw [hmade] at hok; exact nomatch hok
  | blocked hdue' hmade hwrite =>
    obtain ⟨rfl, -⟩ := hdue.unique hdue'
    rw [hmade, hwrite] at hwrote
    exact nomatch hwrote
  | written hdue' _ _ hplace' hlook =>
    obtain rfl := Option.some.inj (hplace'.symm.trans hplace)
    refine ⟨_, _, rfl, ?_⟩
    rw [hlook, if_pos rfl, (hdue.unique hdue').1]

/-- No text is written in the place of a directory. -/
theorem Writes.not_hasDir (h : batch.Writes home begun source p text) :
    ¬ (batch.furnish home begun).1.HasDir p := by
  obtain ⟨w, summary, -, -, hplace, -, hwrote⟩ := h
  rcases (batch.furnish home begun).1.writeAt_cases home (batch.outputPath source) text with
    ⟨e, hwrite⟩ | ⟨q, after, -, hwalk, hnotdir, -⟩
  · rw [hwrite] at hwrote
    exact nomatch hwrote
  · exact Option.some.inj ((FileTree.of_walk_eq_ok hwalk).1.symm.trans hplace) ▸ hnotdir

/-- No text is written on the way to the directory of outputs. -/
theorem Writes.not_mem_passed (h : batch.Writes home begun source p text) {dir : String}
    (hdir : batch.outDir = some dir) : p ∉ passed home dir := by
  intro hp
  obtain ⟨w, summary, hdue, hok, hplace, -, -⟩ := id h
  by_cases hroute : Path.route dir = []
  · -- The path of the directory says nothing, and the text is written below where it starts.
    obtain ⟨out, hpath, -⟩ := hdue.exists_components_eq
    rw [outputDir, hdir, Option.getD_some] at hpath
    rw [FileTree.place?_of_components hpath, hroute] at hplace
    rw [passed, hroute] at hp
    have hlength := congrArg List.length (Option.some.inj hplace)
    rw [List.mem_singleton.mp hp] at hlength
    simp at hlength
  · rcases hmade : batch.furnish home begun with ⟨made, result⟩
    have hdirs : begun.createDirsAt home dir = (made, result) := by
      rw [← hmade, furnish, hdir]
    obtain rfl : result = .ok () := by rw [hmade] at hok; exact hok
    have hnotdir := h.not_hasDir
    rw [hmade] at hnotdir
    exact hnotdir (FileTree.isDirPlace_iff_passed.mp
      (FileTree.isDirPlace_of_createDirsOn hroute hdirs) p hp)

/-- A file that fails writes nothing. -/
theorem not_writes_of_alone_eq_error {e : BatchError}
    (h : (batch.alone home begun source).1 = .error e) (p : List String) (text : String) :
    ¬ batch.Writes home begun source p text := by
  intro hwrites
  obtain ⟨report, after, halone, -⟩ := hwrites.exists_alone_eq
  rw [halone] at h
  cases h

/-- Only directories are new when the directory of outputs has been created. -/
theorem furnishes_furnish (batch : Batch) (home : List String) (root : FileTree) :
    FileTree.Furnishes (fun r => ∃ dir ∈ batch.outDir, r ∈ passed home dir) root
      (batch.furnish home root).1 := by
  rw [furnish]
  split
  · rename_i dir hdir
    exact (FileTree.furnishes_createDirsAt root home dir).mono fun r hr => ⟨dir, hdir, hr⟩
  · exact .refl root

/-! ## Other numbers -/

/-- What remains to be done is the same for trees that are written alike. -/
theorem making_renumber (numbering : String → Numbering) (source : String) (summary : RunSummary)
    (hrender : batch.render w'.tree = batch.render w.tree) (hstats : w'.stats = w.stats) :
    (batch.renumber numbering).making source w' summary = batch.making source w summary := by
  have hreport : (batch.renumber numbering).reportOf source w' summary =
      batch.reportOf source w summary := by
    change FileReport.mk source (some (batch.outputPath source)) summary w'.stats
      (batch.render w'.tree) = _
    rw [hrender, hstats, reportOf]
  change Calls.createDirs _ _ = _
  rw [making]
  refine congrArg (Calls.createDirs _) (funext fun answer => ?_)
  rcases answer with e | ⟨⟩
  · rfl
  · change Calls.writeText _ (batch.render w'.tree) _ = _
    dsimp only
    rw [writing, hrender, hreport]
    rfl

/-- With other numbers a file goes on in the same way, or fails with an error that differs in the
numbers that are named. -/
theorem behindReading_renumber (batch : Batch) (numbering : String → Numbering) (source : String)
    (answer : Except FileError String) :
    (batch.renumber numbering).behindReading source answer = batch.behindReading source answer ∨
      ∃ d e : BatchError, (batch.renumber numbering).behindReading source answer =
          .done (.error d) ∧
        batch.behindReading source answer = .done (.error e) ∧ d.bare = e.bare := by
  unfold behindReading
  cases answer with
  | error e => exact .inl rfl
  | ok text =>
    dsimp only
    cases hrun : batch.transformText source text with
    | error e =>
      obtain ⟨d, hrun', hbare⟩ := exists_transformText_eq_error numbering hrun
      rw [hrun']
      exact .inr ⟨d, e, rfl, rfl, hbare⟩
    | ok result =>
      obtain ⟨w', hrun', hrender, hstats⟩ := exists_transformText_eq_ok numbering source hrun
      rw [hrun']
      have hreport : FileReport.mk source none result.2 w'.stats (batch.render w'.tree) =
          ⟨source, none, result.2, result.1.stats, batch.render result.1.tree⟩ := by
        rw [hrender, hstats]
      refine .inl (ite_congr rfl (fun _ => ?_) fun _ => ?_)
      · exact congrArg (fun report => Calls.done (Except.ok report)) hreport
      · exact making_renumber numbering source result.2 hrender hstats

/-- With other numbers the same comes of a file, but for the numbers that an error names. -/
theorem alone_renumber (batch : Batch) (numbering : String → Numbering) (home : List String)
    (begun : FileTree) (source : String) :
    ((batch.renumber numbering).alone home begun source).1.mapError BatchError.bare =
        (batch.alone home begun source).1.mapError BatchError.bare ∧
      ((batch.renumber numbering).alone home begun source).2 =
        (batch.alone home begun source).2 := by
  rw [alone_eq, alone_eq]
  rcases batch.behindReading_renumber numbering source (begun.readAt home source) with
    h | ⟨d, e, hd, he, hbare⟩
  · rw [h]
    exact ⟨rfl, rfl⟩
  · rw [hd, he]
    exact ⟨congrArg Except.error hbare, rfl⟩

end Batch

end PhpRefactor
