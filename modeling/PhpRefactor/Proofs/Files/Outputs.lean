import PhpRefactor.Proofs.Files.Directories
import PhpRefactor.Proofs.Files.Numbers

/-!
# Outputs

A batch works on one file after the other, and an output is written where its name says, whatever
stands there.  So outputs and sources have to keep out of one another's way (`Batch.Apart`).  Then
the work on one file leaves alone every source and every output that was written before it
(`Batch.Advances`), and the work on all files does, in whatever order they come.

Outputs and sources are told apart by their places and not by their paths: `a/b.json` and
`./a/b.json` are one file, and a source may be listed under both.

The names of outputs keep tree documents apart from outputs, and from one another beside their
sources (`Batch.apart_of_isTreeFile`).  Nothing of the kind holds for files that are named one by
one: such a file may already have the name of an output.
-/

set_option autoImplicit false

namespace PhpRefactor

open FileTree (Keeps place? placeStep)

/-! ## Programs on a file system -/

theorem FileM.run_bind {home : List String} {α β : Type} (x : FileM home α) (k : α → FileM home β)
    (root : FileTree) : (x >>= k).run root = (k (x root).1).run (x root).2 := rfl

namespace BatchError

variable {α β : Type} {home : List String}

/-- A call to the file system, and what comes behind it. -/
theorem run_call (call : FileM home α) (k : α → ExceptT BatchError (FileM home) β)
    (root : FileTree) :
    (liftM call >>= k : ExceptT BatchError (FileM home) β).run root =
      (k (call root).1).run (call root).2 := rfl

theorem run_bind (x : ExceptT BatchError (FileM home) α)
    (k : α → ExceptT BatchError (FileM home) β) (root : FileTree) :
    (x >>= k).run root =
      match x.run root with
      | (.ok a, root) => (k a).run root
      | (.error e, root) => (.error e, root) := by
  change (match x.run root with | (a, root) => ExceptT.bindCont k a root) = _
  rcases x.run root with ⟨_ | _, _⟩ <;> rfl

end BatchError

namespace Batch

open BatchError (run_call run_bind)

variable {batch : Batch} {source : String} {home : List String} {root after : FileTree}

theorem run_writeOutput (output rendered : String) (root : FileTree) :
    (writeOutput (m := FileM home) output rendered).run root =
      match root.createDirsAt home (Path.parent output) with
      | (root, .error e) => (.error (.creating (Path.parent output) e), root)
      | (root, .ok ()) =>
        match root.writeAt home output rendered with
        | (root, .error e) => (.error (.writing output e), root)
        | (root, .ok ()) => (.ok (), root) := by
  have hdirs : (MonadFiles.createDirs (Path.parent output) : FileM home _) root =
      (root.createDirsAt home (Path.parent output)).swap := rfl
  rw [writeOutput, run_call, hdirs]
  rcases root.createDirsAt home (Path.parent output) with ⟨made, e | ⟨⟩⟩
  · rfl
  · have hwrite : (MonadFiles.writeText output rendered : FileM home _) made =
        (made.writeAt home output rendered).swap := rfl
    dsimp only [Prod.swap]
    rw [run_call, hwrite]
    rcases made.writeAt home output rendered with ⟨last, e | ⟨⟩⟩ <;> rfl

theorem run_result {α : Type} (result : Except BatchError α) (root : FileTree) :
    (liftM result : ExceptT BatchError (FileM home) α).run root = (result, root) := by
  cases result <;> rfl

/-- Work on one file, spelled out. -/
theorem run_transformFile (hdry : batch.dryRun = false) (source : String) (root : FileTree) :
    (batch.transformFile (m := FileM home) source).run root =
      match root.readAt home source with
      | .error e => (.error (.reading source e), root)
      | .ok text =>
        match batch.transformText source text with
        | .error e => (.error e, root)
        | .ok (w, summary) =>
          match (writeOutput (m := FileM home) (batch.outputPath source)
            (batch.render w.tree)).run root with
          | (.error e, root) => (.error e, root)
          | (.ok (), root) =>
            (.ok ⟨source, some (batch.outputPath source), summary, w.stats,
              batch.render w.tree⟩, root) := by
  have hread : (MonadFiles.readText source : FileM home _) root =
      (root.readAt home source, root) := rfl
  rw [transformFile, run_call, hread]
  cases root.readAt home source with
  | error e => rfl
  | ok text =>
    dsimp only
    rw [run_bind, run_result]
    cases batch.transformText source text with
    | error e => rfl
    | ok result =>
      simp only [hdry, Bool.false_eq_true, if_false]
      rw [run_bind]
      rcases (writeOutput (m := FileM home) (batch.outputPath source)
        (batch.render result.1.tree)).run root with ⟨_ | _, _⟩ <;> rfl

/-! ## One file -/

/-- What work on one file comes to. -/
inductive FileStep (batch : Batch) (home : List String) (source : String)
    (before after : FileTree) :
    Except BatchError FileReport → Prop
  /-- Nothing is written, though there may be new directories. -/
  | failed {e : BatchError} (hkeeps : Keeps (fun _ => True) before after) :
      FileStep batch home source before after (.error e)
  /-- The output stands at its place. -/
  | written {text : String} {w : Workspace} {summary : RunSummary} {p : List String}
      (hread : before.readAt home source = .ok text)
      (hrun : batch.transformText source text = .ok (w, summary))
      (hwalk : after.walk home (batch.outputPath source) = .ok p)
      (hkeeps : Keeps (· ≠ p) before after)
      (hget : after.get? p = some (.file (.text (batch.render w.tree)))) :
      FileStep batch home source before after
        (.ok ⟨source, some (batch.outputPath source), summary, w.stats, batch.render w.tree⟩)

theorem fileStep_transformFile (hdry : batch.dryRun = false) {before after : FileTree}
    {result : Except BatchError FileReport}
    (h : (batch.transformFile (m := FileM home) source).run before = (result, after)) :
    FileStep batch home source before after result := by
  rw [run_transformFile hdry] at h
  split at h
  · obtain ⟨rfl, rfl⟩ := Prod.mk.inj h
    exact .failed (.refl before)
  · rename_i text hread
    split at h
    · obtain ⟨rfl, rfl⟩ := Prod.mk.inj h
      exact .failed (.refl before)
    · rename_i w summary hrun
      have hdirs := FileTree.keeps_createDirsAt before home (Path.parent (batch.outputPath source))
      rw [run_writeOutput] at h
      rcases hmade : before.createDirsAt home (Path.parent (batch.outputPath source)) with
        ⟨made, e | ⟨⟩⟩
      · rw [hmade] at h hdirs
        obtain ⟨rfl, rfl⟩ := Prod.mk.inj h
        exact .failed hdirs
      · rw [hmade] at h hdirs
        dsimp only at h
        rcases hwritten : made.writeAt home (batch.outputPath source) (batch.render w.tree) with
          ⟨last, e | ⟨⟩⟩
        · rw [hwritten] at h
          obtain ⟨rfl, rfl⟩ := Prod.mk.inj h
          exact .failed (FileTree.of_writeAt_eq_error hwritten ▸ hdirs)
        · rw [hwritten] at h
          obtain ⟨rfl, rfl⟩ := Prod.mk.inj h
          obtain ⟨p, hwalk, hkeeps, hget⟩ := FileTree.of_writeAt_eq_ok hwritten
          exact .written hread hrun (hkeeps.walk hwalk)
            ((hdirs.mono fun _ _ => trivial).trans hkeeps) hget

/-! ## Several files -/

/-- No output takes the place of a source, and outputs that share a place are of one file. -/
structure Apart (batch : Batch) (home : List String) (sources : List String) : Prop where
  source : ∀ s ∈ sources, ∀ t ∈ sources, ∀ p,
    place? home (batch.outputPath s) = some p → place? home t ≠ some p
  output : ∀ s ∈ sources, ∀ t ∈ sources, ∀ p,
    place? home (batch.outputPath s) = some p → place? home (batch.outputPath t) = some p →
      place? home s = place? home t

/-- A source has this output in this place, going by what the sources held when the work began. -/
def HasOutput (batch : Batch) (home : List String) (sources : List String) (begun : FileTree)
    (p : List String) (rendered : String) : Prop :=
  ∃ s ∈ sources, place? home (batch.outputPath s) = some p ∧ ∃ q text w summary,
    place? home s = some q ∧ begun.get? q = some (.file (.text text)) ∧
      batch.transformText s text = .ok (w, summary) ∧ batch.render w.tree = rendered

/-- Work goes on: directories stay, sources hold what they held, and so do outputs. -/
structure Advances (batch : Batch) (home : List String) (sources : List String)
    (begun before after : FileTree) : Prop where
  dir : ∀ p, before.HasDir p → after.HasDir p
  source : ∀ s ∈ sources, ∀ p, place? home s = some p → ∀ c,
    after.get? p = some (.file c) ↔ before.get? p = some (.file c)
  output : ∀ p rendered, batch.HasOutput home sources begun p rendered →
    before.get? p = some (.file (.text rendered)) → after.get? p = some (.file (.text rendered))

/-- A report is of an output that stands where the report says. -/
structure Stands (batch : Batch) (home : List String) (sources : List String)
    (begun after : FileTree) (report : FileReport) : Prop where
  output : report.output = some (batch.outputPath report.source)
  place : ∃ p, after.walk home (batch.outputPath report.source) = .ok p ∧
    batch.HasOutput home sources begun p report.rendered ∧
    after.get? p = some (.file (.text report.rendered))

variable {sources : List String} {begun before last : FileTree} {p : List String}

theorem HasOutput.unique (hapart : batch.Apart home sources) {r r' : String}
    (h : batch.HasOutput home sources begun p r) (h' : batch.HasOutput home sources begun p r') :
    r = r' := by
  obtain ⟨s, hs, hout, q, text, w, summary, hq, hget, hrun, rfl⟩ := h
  obtain ⟨t, ht, hout', q', text', w', summary', hq', hget', hrun', rfl⟩ := h'
  obtain rfl : q = q' :=
    Option.some.inj (hq.symm.trans ((hapart.output s hs t ht p hout hout').trans hq'))
  obtain rfl : text = text' := by
    have hsame := hget.symm.trans hget'
    simpa using hsame
  obtain ⟨v, hagain, hrender, -⟩ := exists_transformText_eq_ok batch.numbering t hrun
  obtain rfl : v = w' := (Prod.mk.inj (Except.ok.inj (hagain.symm.trans hrun'))).1
  exact hrender.symm

namespace Advances

theorem refl (batch : Batch) (home sources : List String) (begun root : FileTree) :
    batch.Advances home sources begun root root :=
  ⟨fun _ => id, fun _ _ _ _ _ => Iff.rfl, fun _ _ _ => id⟩

theorem trans (h : batch.Advances home sources begun before after)
    (h' : batch.Advances home sources begun after last) :
    batch.Advances home sources begun before last :=
  ⟨fun p hp => h'.dir p (h.dir p hp),
    fun s hs p hp c => (h'.source s hs p hp c).trans (h.source s hs p hp c),
    fun p r hr hp => h'.output p r hr (h.output p r hr hp)⟩

theorem of_keeps (h : Keeps (fun _ => True) before after) :
    batch.Advances home sources begun before after :=
  ⟨h.dir, fun _ _ p _ => h.file p trivial, fun p _ _ hp => (h.file p trivial _).mpr hp⟩

/-- The walks that could be made can still be made. -/
theorem walk (h : batch.Advances home sources begun before after) {path : String}
    (hwalk : before.walk home path = .ok p) : after.walk home path = .ok p := by
  have hkeeps : Keeps (fun _ => False) before after := ⟨h.dir, fun _ => False.elim⟩
  exact hkeeps.walk hwalk

end Advances

theorem Stands.advances {report : FileReport} (h : batch.Stands home sources begun after report)
    (hadv : batch.Advances home sources begun after last) :
    batch.Stands home sources begun last report := by
  obtain ⟨p, hwalk, hr, hget⟩ := h.place
  exact ⟨h.output, p, hadv.walk hwalk, hr, hadv.output p _ hr hget⟩

/-- Work on one file goes on from where the work before left off. -/
theorem FileStep.advances (hapart : batch.Apart home sources) (hsource : source ∈ sources)
    (hbegun : batch.Advances home sources begun begun before)
    {result : Except BatchError FileReport} (h : FileStep batch home source before after result) :
    batch.Advances home sources begun before after ∧
      ∀ report, result = .ok report → batch.Stands home sources begun after report := by
  cases h with
  | failed hkeeps => exact ⟨.of_keeps hkeeps, nofun⟩
  | @written text w summary p hread hrun hwalk hkeeps hget =>
    obtain ⟨q, hsourcewalk, htext⟩ := FileTree.readAt_eq_ok_iff.mp hread
    have hplace := (FileTree.of_walk_eq_ok hwalk).1
    have hq := (FileTree.of_walk_eq_ok hsourcewalk).1
    have hout : batch.HasOutput home sources begun p (batch.render w.tree) :=
      ⟨source, hsource, hplace, q, text, w, summary, hq,
        (hbegun.source source hsource q hq _).mp htext, hrun, rfl⟩
    -- The only file that changes is the output.  It is no source, and if an output stood there
    -- before, it was that of the same file.
    refine ⟨⟨hkeeps.dir, ?_, ?_⟩, ?_⟩
    · intro t ht r hr c
      refine hkeeps.file r ?_ c
      rintro rfl
      exact hapart.source source hsource t ht _ hplace hr
    · intro r rendered hr hbefore
      by_cases hrp : r = p
      · subst hrp
        rw [hget, hr.unique hapart hout]
      · exact (hkeeps.file r hrp _).mpr hbefore
    · rintro report hreport
      obtain rfl := Except.ok.inj hreport
      exact ⟨rfl, p, hwalk, hout, hget⟩

theorem run_transformFiles_cons (source : String) (rest : List String) (root : FileTree) :
    (batch.transformFiles (m := FileM home) (source :: rest)).run root =
      match (batch.transformFile (m := FileM home) source).run root with
      | (result, root) =>
        match (batch.transformFiles (m := FileM home) rest).run root with
        | (summary, root) =>
          match result with
          | .ok report => ({ summary with reports := report :: summary.reports }, root)
          | .error e => ({ summary with failures := (source, e) :: summary.failures }, root) := by
  rw [transformFiles, FileM.run_bind]
  rcases (batch.transformFile (m := FileM home) source).run root with ⟨_ | _, _⟩ <;> rfl

/-- Work on several files, from where the work before left off. -/
theorem advances_transformFiles (hdry : batch.dryRun = false) (hapart : batch.Apart home sources)
    {order : List String} (horder : order ⊆ sources)
    (hbegun : batch.Advances home sources begun begun before) {summary : BatchSummary}
    (h : (batch.transformFiles (m := FileM home) order).run before = (summary, after)) :
    batch.Advances home sources begun before after ∧
      ∀ report ∈ summary.reports, batch.Stands home sources begun after report := by
  induction order generalizing before after summary with
  | nil =>
    obtain ⟨rfl, rfl⟩ := Prod.mk.inj h
    exact ⟨.refl _ _ _ _ _, nofun⟩
  | cons source rest ih =>
    rw [run_transformFiles_cons] at h
    rcases hone : (batch.transformFile (m := FileM home) source).run before with ⟨result, made⟩
    rcases hrest : (batch.transformFiles (m := FileM home) rest).run made with ⟨others, last⟩
    rw [hone] at h
    dsimp only at h
    rw [hrest] at h
    obtain ⟨hfirst, hreport⟩ := (fileStep_transformFile hdry hone).advances hapart
      (horder List.mem_cons_self) hbegun
    obtain ⟨hlater, hreports⟩ := ih (fun _ hs => horder (List.mem_cons_of_mem _ hs))
      (hbegun.trans hfirst) hrest
    cases result with
    | error e =>
      obtain ⟨rfl, rfl⟩ := Prod.mk.inj h
      exact ⟨hfirst.trans hlater, hreports⟩
    | ok report =>
      obtain ⟨rfl, rfl⟩ := Prod.mk.inj h
      refine ⟨hfirst.trans hlater, List.forall_mem_cons.mpr ⟨?_, hreports⟩⟩
      exact (hreport report rfl).advances hlater

/-! ## Names of outputs -/

/-- The name of the output for a file with this stem. -/
def outputName (batch : Batch) (stem : String) : String := stem ++ "." ++ batch.format.extension

/-- The name of a tree document with this stem. -/
def treeName (stem : String) : String := stem ++ "." ++ treeExtension

theorem plain_outputName (batch : Batch) {stem : String} (h : '/' ∉ stem.toList) :
    Path.Plain (batch.outputName stem) := by
  obtain ⟨c, hc, hdot, hslash⟩ : ∃ c ∈ batch.format.extension.toList, c ≠ '.' ∧
      '/' ∉ batch.format.extension.toList := by
    cases batch.format
    · exact ⟨'p', by decide⟩
    · exact ⟨'n', by decide⟩
  refine Path.plain_of_mem ?_ (c := c) ?_ hdot <;> simp [outputName, h, hc, hslash]

/-- A tree document is named for its stem and its extension, and not as an output is. -/
theorem exists_of_isTreeFile (h : isTreeFile source) :
    ∃ stem, Path.fileStem? source = some stem ∧ Path.fileName? source = some (treeName stem) ∧
      '/' ∉ stem.toList ∧ isOutputName (treeName stem) = false := by
  unfold isTreeFile at h
  obtain ⟨hextension, hname⟩ := Bool.and_eq_true_iff.mp h
  obtain ⟨stem, hstem, hfile⟩ := Path.exists_of_extension? (of_decide_eq_true hextension)
  have hslash := (Path.plain_of_fileName? hfile).no_slash
  rw [hfile] at hname
  refine ⟨stem, hstem, hfile, fun hmem => hslash ?_, by simpa [treeName] using hname⟩
  rw [String.toList_append, String.toList_append, List.append_assoc]
  exact List.mem_append_left _ hmem

theorem outputName_injective (batch : Batch) : Function.Injective batch.outputName := by
  intro s t h
  unfold outputName at h
  exact (String.append_left_inj _).mp ((String.append_left_inj _).mp h)

theorem treeName_ne_outputName (batch : Batch) {stem other : String}
    (h : isOutputName (treeName other) = false) : treeName other ≠ batch.outputName stem := by
  intro heq
  cases hformat : batch.format with
  | source =>
    have hlast := congrArg (fun s => s.toList.getLast?) heq
    simp [treeName, treeExtension, outputName, hformat, OutputFormat.extension] at hlast
  | json =>
    rw [heq, outputName, hformat, isOutputName, String.toList_append,
      List.isSuffixOf_iff_suffix.mpr (List.suffix_append _ _)] at h
    exact nomatch h

/-- The directory that the output for a file goes into. -/
def outputDir (batch : Batch) (source : String) : String :=
  batch.outDir.getD (Path.parent source)

/-- An output goes into its directory, and is named for the stem of its source. -/
theorem outputPath_eq (batch : Batch) {stem : String} (h : Path.fileStem? source = some stem) :
    batch.outputPath source = Path.join (batch.outputDir source) (batch.outputName stem) := by
  obtain ⟨name, hname, -⟩ := Option.map_eq_some_iff.mp h
  rw [outputPath, h, outputDir]
  cases batch.outDir with
  | none => exact congrArg (Path.join · _) (if_pos (by rw [hname]; rfl))
  | some dir => rfl

theorem fileName?_outputPath (batch : Batch) {stem : String}
    (hstem : Path.fileStem? source = some stem) (hslash : '/' ∉ stem.toList) :
    Path.fileName? (batch.outputPath source) = some (batch.outputName stem) := by
  rw [batch.outputPath_eq hstem, Path.fileName?,
    Path.components_join (batch.plain_outputName hslash), List.getLast?_concat]

/-- The outputs of tree documents stay out of the way of the documents, and of one another if they
go beside the documents or if the documents have different stems. -/
theorem apart_of_isTreeFile (batch : Batch) (home : List String)
    (htree : ∀ s ∈ sources, isTreeFile s)
    (hstems : batch.outDir = none ∨ ∀ s ∈ sources, ∀ t ∈ sources,
      Path.fileStem? s = Path.fileStem? t → place? home s = place? home t) :
    batch.Apart home sources := by
  constructor
  · intro s hs t ht p hout hplace
    obtain ⟨stem, hstem, -, hslash, -⟩ := exists_of_isTreeFile (htree s hs)
    obtain ⟨other, -, hother, -, hnotout⟩ := exists_of_isTreeFile (htree t ht)
    rw [batch.outputPath_eq hstem, FileTree.place?_join (batch.plain_outputName hslash)] at hout
    rw [FileTree.place?_of_components (Path.components_eq_parent_append hother)] at hplace
    have hlast := (List.append_inj' (Option.some.inj (hplace.trans hout.symm)) rfl).2
    exact batch.treeName_ne_outputName hnotout (List.cons.inj hlast).1
  · intro s hs t ht p hout hout'
    obtain ⟨stem, hstem, hname, hslash, -⟩ := exists_of_isTreeFile (htree s hs)
    obtain ⟨stem', hstem', hname', hslash', -⟩ := exists_of_isTreeFile (htree t ht)
    rw [batch.outputPath_eq hstem, FileTree.place?_join (batch.plain_outputName hslash)] at hout
    rw [batch.outputPath_eq hstem', FileTree.place?_join (batch.plain_outputName hslash')] at hout'
    obtain ⟨habove, hlast⟩ := List.append_inj' (Option.some.inj (hout.trans hout'.symm)) rfl
    obtain rfl := batch.outputName_injective (List.cons.inj hlast).1
    rcases hstems with hnone | hstems
    · have hdir : ∀ s, batch.outputDir s = Path.parent s := fun s => by
        rw [outputDir, hnone, Option.getD_none]
      rw [hdir, hdir] at habove
      rw [FileTree.place?_of_components (Path.components_eq_parent_append hname),
        FileTree.place?_of_components (Path.components_eq_parent_append hname'), habove]
    · exact hstems s hs t ht (hstem.trans hstem'.symm)

/-- Outputs that go to a directory given from the root stay apart by their stems. -/
example : (⟨.standard, .source, some "/out", false, fun _ => .inOrder⟩ : Batch).Apart ["work"]
    ["Box.json", "../lib/Bag.json"] :=
  apart_of_isTreeFile _ _ (by decide +kernel) (.inr (by decide +kernel))

/-- With the same stem they do not. -/
example : ¬ (⟨.standard, .source, some "/out", false, fun _ => .inOrder⟩ : Batch).Apart ["work"]
    ["Box.json", "../lib/Box.json"] := fun h =>
  absurd (h.output "Box.json" (.head _) "../lib/Box.json" (.tail _ (.head _)) ["out", "Box.php"]
    (by decide +kernel) (by decide +kernel)) (by decide +kernel)

/-! ## A whole batch -/

/-- Where no output takes the place of a source or of another file's output, every output is there
at the end, in whatever order the files are worked on, and every source holds what it held. -/
theorem transformFiles_loses_nothing (batch : Batch) (hdry : batch.dryRun = false)
    (home sources : List String) (hapart : batch.Apart home sources) (order : List String)
    (horder : order.Perm sources) (before : FileTree) :
    ∃ summary after,
      (batch.transformFiles (m := FileM home) order).run before = (summary, after) ∧
      (∀ report ∈ summary.reports, report.output = some (batch.outputPath report.source) ∧
        after.readAt home (batch.outputPath report.source) = .ok report.rendered) ∧
      ∀ source ∈ sources, ∀ contents, before.find home source = .ok (.file contents) →
        after.find home source = .ok (.file contents) := by
  obtain ⟨hadv, hreports⟩ := advances_transformFiles hdry hapart horder.subset
    (.refl batch home sources before before) rfl
  refine ⟨_, _, rfl, fun report hreport => ?_, fun source hsource contents hfind => ?_⟩
  · obtain ⟨houtput, p, hwalk, -, hget⟩ := hreports report hreport
    exact ⟨houtput, FileTree.readAt_eq_ok_iff.mpr ⟨p, hwalk, hget⟩⟩
  · obtain ⟨p, hwalk, hget⟩ := FileTree.find_eq_ok_iff.mp hfind
    refine FileTree.find_eq_ok_iff.mpr ⟨p, hadv.walk hwalk, ?_⟩
    exact (hadv.source source hsource p (FileTree.of_walk_eq_ok hwalk).1 _).mpr hget

/-- A program that is nothing but `null`. -/
def nullText : String := "\x7b\"kind\": \"Null\"\x7d"

theorem transformFiles_loses_nothing_boxes :
    let batch : Batch := ⟨.standard, .source, none, false, fun _ => .inOrder⟩
    let before : FileTree := .dir [("lib", .dir [("Box.json", .file (.text nullText))]),
      ("work", .dir [("Box.json", .file (.text nullText))])]
    ∃ summary after,
      (batch.transformFiles (m := FileM ["work"]) ["../lib/Box.json", "Box.json"]).run before =
        (summary, after) ∧ summary.reports.length = 2 ∧
      (∀ report ∈ summary.reports, report.output = some (batch.outputPath report.source) ∧
        after.readAt ["work"] (batch.outputPath report.source) = .ok report.rendered) ∧
      ∀ source ∈ ["Box.json", "../lib/Box.json"], ∀ contents,
        before.find ["work"] source = .ok (.file contents) →
          after.find ["work"] source = .ok (.file contents) := by
  intro batch before
  have hreports : ((batch.transformFiles (m := FileM ["work"]) ["../lib/Box.json", "Box.json"]).run
      before).1.reports.length = 2 := by decide +kernel
  obtain ⟨summary, after, hrun, hrest⟩ := transformFiles_loses_nothing batch rfl ["work"]
    ["Box.json", "../lib/Box.json"]
    (batch.apart_of_isTreeFile ["work"] (by decide +kernel) (.inl rfl))
    ["../lib/Box.json", "Box.json"] (.swap _ _ []) before
  exact ⟨summary, after, hrun, by rw [hrun] at hreports; exact hreports, hrest⟩

/-- A named file may have the name of its own output, and is lost. -/
theorem transformFiles_overwrites_named :
    let batch : Batch := ⟨.standard, .source, none, false, fun _ => .inOrder⟩
    let before : FileTree := .dir [("work", .dir [("Box.php", .file (.text nullText))])]
    ((collect 1 ["Box.php"] : ExceptT BatchError (FileM ["work"]) _).run before).1.toOption =
        some ["Box.php"] ∧
      batch.outputPath "Box.php" = "Box.php" ∧
      (before.readAt ["work"] "Box.php").toOption = some nullText ∧
      (((batch.transformFiles (m := FileM ["work"]) ["Box.php"]).run before).2.readAt ["work"]
        "Box.php").toOption = some "null" := by
  intro batch before
  refine ⟨?_, by decide +kernel⟩
  unfold collect
  rw [expandAll, expand, expandAll]
  decide +kernel

end Batch

end PhpRefactor
