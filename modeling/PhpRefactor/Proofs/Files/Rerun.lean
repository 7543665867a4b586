import PhpRefactor.Proofs.Files.AnyOrder
import PhpRefactor.Proofs.Files.Collect

/-!
# Working on the same directories again

A batch over directories can be run again.  An output is never named as a tree document is, so no
call of a batch changes a document or makes one (`FileTree.SparesDocuments`), in whatever order the
calls of the files come.  What was collected holds what it held, and the same files are collected
again (`Batch.collect_again`), wherever the outputs went: beside the documents, in another place, or
in a new directory below those that were given.
-/

set_option autoImplicit false

namespace PhpRefactor

open FileTree (Keeps)

/-! ## What a call does to documents -/

namespace FileTree

variable {root before after last : FileTree} {home : List String}

/-- Every document and every directory stays, and no document is new. -/
structure SparesDocuments (before after : FileTree) : Prop where
  keeps : Keeps Batch.DocumentPlace before after
  wellNamed : before.WellNamed → after.WellNamed

namespace SparesDocuments

theorem refl (root : FileTree) : SparesDocuments root root := ⟨.refl root, id⟩

theorem trans (h : SparesDocuments before after) (h' : SparesDocuments after last) :
    SparesDocuments before last :=
  ⟨h.keeps.trans h'.keeps, h'.wellNamed ∘ h.wellNamed⟩

end SparesDocuments

theorem sparesDocuments_createDirsAt (root : FileTree) (home : List String) (path : String) :
    SparesDocuments root (root.createDirsAt home path).1 :=
  ⟨(keeps_createDirsAt root home path).mono fun _ _ => trivial, fun h => h.createDirsAt home path⟩

/-- A file of another name can be written. -/
theorem sparesDocuments_writeAt {path x : String} (hname : Path.fileName? path = some x)
    (hpath : Batch.isTreeFile path = false) (root : FileTree) (home : List String)
    (text : String) :
    SparesDocuments root (root.writeAt home path text).1 := by
  refine ⟨?_, fun h => h.writeAt hname home text⟩
  rcases hwritten : root.writeAt home path text with ⟨after, e | ⟨⟩⟩
  · rw [of_writeAt_eq_error hwritten]
    exact .refl root
  · obtain ⟨p, hwalk, hkeeps, -⟩ := of_writeAt_eq_ok hwritten
    refine hkeeps.mono ?_
    rintro q ⟨above, y, rfl, htree⟩ rfl
    have hplace := (of_walk_eq_ok hwalk).1
    rw [place?_of_components (Path.components_eq_parent_append hname)] at hplace
    obtain ⟨-, hxy⟩ := List.append_inj' (Option.some.inj hplace) rfl
    obtain rfl : x = y := (List.cons.inj hxy).1
    have hplain := Path.plain_of_fileName? hname
    have hjoin := Batch.isTreeFile_congr ((Batch.fileName?_join hplain "").trans hname.symm)
    rw [Batch.isTreeFile_join hplain, hpath, htree] at hjoin
    cases hjoin

end FileTree

namespace Calls

variable {α : Type} {calls : Calls α}

/-- No text is written under the name of a tree document. -/
def WritesNoDocument : Calls α → Prop
  | done _ => True
  | isDir _ next => ∀ answer, WritesNoDocument (next answer)
  | listDir _ next => ∀ answer, WritesNoDocument (next answer)
  | readText _ next => ∀ answer, WritesNoDocument (next answer)
  | createDirs _ next => ∀ answer, WritesNoDocument (next answer)
  | writeText path _ next =>
    (∃ x, Path.fileName? path = some x) ∧ Batch.isTreeFile path = false ∧
      ∀ answer, WritesNoDocument (next answer)

/-- One call spares all documents, and so will those that are left. -/
theorem WritesNoDocument.step (h : calls.WritesNoDocument) (home : List String)
    (root : FileTree) :
    ((calls.step (m := FileM home)).run root).1.WritesNoDocument ∧
      FileTree.SparesDocuments root ((calls.step (m := FileM home)).run root).2 := by
  cases calls with
  | done result => exact ⟨trivial, .refl root⟩
  | isDir path next => exact ⟨h _, .refl root⟩
  | listDir path next => exact ⟨h _, .refl root⟩
  | readText path next => exact ⟨h _, .refl root⟩
  | createDirs path next => exact ⟨h _, root.sparesDocuments_createDirsAt home path⟩
  | writeText path text next =>
    obtain ⟨⟨x, hname⟩, hpath, hnext⟩ := h
    exact ⟨hnext _, FileTree.sparesDocuments_writeAt hname hpath root home text⟩

end Calls

namespace Crew

variable {α : Type} {crew : Crew α}

/-- A crew that writes no documents spares them all. -/
theorem sparesDocuments_turns (h : ∀ calls ∈ crew.members, calls.WritesNoDocument)
    (home : List String) (order : List Nat) :
    FileTree.SparesDocuments crew.root (crew.turns home order).root := by
  refine (turns_induction (P := fun now => (∀ calls ∈ now.members, calls.WritesNoDocument) ∧
    FileTree.SparesDocuments crew.root now.root) ?_ ⟨h, .refl crew.root⟩ order).2
  rintro now i ⟨hmembers, hspares⟩
  cases hi : now.members[i]? with
  | none =>
    rw [turn_of_length_le (List.getElem?_eq_none_iff.mp hi)]
    exact ⟨hmembers, hspares⟩
  | some calls =>
    obtain ⟨hrest, hstep⟩ := (hmembers calls (List.mem_of_getElem? hi)).step home now.root
    rw [turn_of_getElem? hi rfl]
    refine ⟨fun other hother => ?_, hspares.trans hstep⟩
    rcases List.mem_or_eq_of_mem_set hother with hother | rfl
    · exact hmembers other hother
    · exact hrest

end Crew

namespace Batch

variable {root : FileTree} {home sources dirs : List String} {source : String}

/-- The output for a tree document has a name, and it is not that of a tree document. -/
theorem outputPath_not_isTreeFile (batch : Batch) (h : isTreeFile source = true) :
    (∃ x, Path.fileName? (batch.outputPath source) = some x) ∧
      isTreeFile (batch.outputPath source) = false := by
  obtain ⟨stem, hstem, -, hslash, -⟩ := exists_of_isTreeFile h
  have hout := batch.fileName?_outputPath hstem hslash
  refine ⟨⟨_, hout⟩, Bool.eq_false_iff.mpr fun htree => ?_⟩
  obtain ⟨other, -, hother, -, hnotout⟩ := exists_of_isTreeFile htree
  exact batch.treeName_ne_outputName hnotout (Option.some.inj (hother.symm.trans hout))

theorem writesNoDocument_transformFile (batch : Batch) (h : isTreeFile source = true) :
    (batch.transformFile (m := Calls) source).run.WritesNoDocument := by
  obtain ⟨hname, hpath⟩ := batch.outputPath_not_isTreeFile h
  rw [calls_transformFile]
  intro answer
  rcases batch.behindReading_cases source answer with
    ⟨result, hdone⟩ | ⟨text, w, summary, -, -, -, hmaking⟩
  · rw [hdone]
    trivial
  · rw [hmaking]
    intro answer
    rcases answer with e | ⟨⟩
    · trivial
    · refine ⟨hname, hpath, fun answer => ?_⟩
      rcases answer with e | ⟨⟩ <;> trivial

theorem sparesDocuments_crew (batch : Batch) (h : ∀ s ∈ sources, isTreeFile s = true)
    (home : List String) (root : FileTree) (order : List Nat) :
    FileTree.SparesDocuments root ((batch.crew sources root).turns home order).root := by
  have hmembers : ∀ calls ∈ (batch.crew sources root).members, calls.WritesNoDocument := by
    intro calls hcalls
    obtain ⟨s, hs, rfl⟩ := List.mem_map.mp hcalls
    exact batch.writesNoDocument_transformFile (h s hs)
  exact Crew.sparesDocuments_turns hmembers home order

/-! ## Once more -/

/-- A batch over directories leaves what it works on as it was, and the same directories stand for
the same files afterwards.  That is so when the files were worked on one after the other, and at any
time of work on all of them at once, in whatever order the calls come. -/
theorem collect_again (batch : Batch) (hroot : root.WellNamed)
    (hdirs : ∀ d ∈ dirs, root.isDirAt home d = true) (depth : Nat) :
    ∃ sources, (collect (m := FileM home) depth dirs).run root = (.ok sources, root) ∧
      ∀ after,
        after = ((batch.transformFiles (m := FileM home) sources).run root).2 ∨
          (∃ order, after = ((batch.crew sources root).turns home order).root) →
        (∀ s ∈ sources, ∃ contents, root.find home s = .ok (.file contents) ∧
          after.find home s = .ok (.file contents)) ∧
        (collect (m := FileM home) depth dirs).run after = (.ok sources, after) := by
  refine ⟨_, run_collect hroot hdirs depth, fun after hafter => ?_⟩
  have hsources : ∀ s ∈ dirs.flatMap (documents root home depth), isTreeFile s = true ∧
      ∃ q contents, root.walk home s = .ok q ∧ DocumentPlace q ∧
        root.get? q = some (.file contents) := by
    intro s hs
    obtain ⟨d, hd, hs⟩ := List.mem_flatMap.mp hs
    obtain ⟨p, h⟩ := FileTree.exists_dirAt (hdirs d hd)
    exact of_mem_documents hroot h hs
  have hspares : FileTree.SparesDocuments root after := by
    have hcrew := batch.sparesDocuments_crew (fun s hs => (hsources s hs).1) home root
    rcases hafter with rfl | ⟨order, rfl⟩
    · -- One file after the other is one of the orders.
      obtain ⟨order, results, -, hrun⟩ := batch.exists_order_transformFiles home _ root
      rw [hrun]
      exact hcrew order
    · exact hcrew order
  refine ⟨fun s hs => ?_, run_collect_congr hroot (hspares.wellNamed hroot) hspares.keeps hdirs
    depth⟩
  obtain ⟨-, q, contents, hwalk, hplace, hget⟩ := hsources s hs
  refine ⟨contents, FileTree.find_eq_ok_iff.mpr ⟨q, hwalk, hget⟩, ?_⟩
  exact FileTree.find_eq_ok_iff.mpr
    ⟨q, hspares.keeps.walk hwalk, (hspares.keeps.file q hplace contents).mpr hget⟩

/-- Outputs go into a new directory below the one that is given, which is named like a document, and
an output of an earlier batch lies beside the documents. -/
theorem collect_again_dotted :
    let batch : Batch := ⟨.standard, .json, some "/src/out.json", false, fun _ => .inOrder⟩
    let root : FileTree := .dir [("src", .dir [("a.b.json", .file (.text nullText)),
      ("a.b.rectified.json", .file (.text "earlier")), ("a.json", .file (.text nullText))]),
      ("work", .dir [])]
    let sources := ["../src/a.b.json", "../src/a.json"]
    let after := ((batch.transformFiles (m := FileM ["work"]) sources).run root).2
    root.WellNamed ∧ (∀ d ∈ ["../src"], root.isDirAt ["work"] d = true) ∧
      (collect (m := FileM ["work"]) 3 ["../src"]).run root = (.ok sources, root) ∧
      (after.readAt ["work"] "/src/out.json/a.b.rectified.json").isOk = true ∧
      (∀ s ∈ sources, ∃ contents, root.find ["work"] s = .ok (.file contents) ∧
        after.find ["work"] s = .ok (.file contents)) ∧
      (collect (m := FileM ["work"]) 3 ["../src"]).run after = (.ok sources, after) := by
  intro batch root sources after
  have hroot : root.WellNamed := by
    have hsrc : (FileTree.dir [("a.b.json", .file (.text nullText)),
        ("a.b.rectified.json", .file (.text "earlier")),
        ("a.json", .file (.text nullText))]).WellNamed := by
      refine .dir _ (by decide) (by decide) ?_
      simp only [List.forall_mem_cons, List.not_mem_nil, false_implies, implies_true, and_true]
      exact ⟨.file _, .file _, .file _⟩
    refine .dir _ (by decide) (by decide) ?_
    simp only [List.forall_mem_cons, List.not_mem_nil, false_implies, implies_true, and_true]
    exact ⟨hsrc, .dir [] (by decide) (by simp) (by simp)⟩
  have hdirs : ∀ d ∈ ["../src"], root.isDirAt ["work"] d = true := by decide +kernel
  obtain ⟨found, hfound, hagain⟩ := collect_again batch hroot hdirs 3
  obtain rfl : found = sources := by
    have hdocuments := run_collect hroot hdirs 3
    rw [hfound] at hdocuments
    have hfound : found = ["../src"].flatMap (documents root ["work"] 3) :=
      Except.ok.inj (Prod.mk.inj hdocuments).1
    have hsrc : root.DirAt ["work"] "../src" ["src"] := ⟨by decide +kernel, _, rfl⟩
    have hinOrder : Path.inOrder ["a.b.json", "a.b.rectified.json", "a.json"] =
        ["a.b.json", "a.b.rectified.json", "a.json"] :=
      Path.inOrder_of_pairwise (by decide +kernel)
    have hlisted := documents_succ hsrc rfl 2
    rw [List.map_cons, List.map_cons, List.map_cons, List.map_nil, hinOrder] at hlisted
    rw [hfound, List.flatMap_singleton, hlisted]
    decide +kernel
  obtain ⟨hkept, hsame⟩ := hagain after (.inl rfl)
  exact ⟨hroot, hdirs, hfound, by decide +kernel, hkept, hsame⟩

end Batch

end PhpRefactor
